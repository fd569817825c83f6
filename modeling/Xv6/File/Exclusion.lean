import Xv6.File.Refs

/-!
# Mutual exclusion of mutex files

The sleep-lock of a mutex file is shared by every process that has a descriptor to it, across
`fork`. Along every run, from a booted system, the ghost list `held` of processes between a
returning `acquire_mutex` and their `release_mutex` agrees with the locks:

* `MutexInv`: a holder's file is an open mutex file locked with the holder's pid, a locked open
  mutex file is held by every live process with the lock's pid, a lock's pid was handed out,
  and live processes have distinct pids below `nextpid`.
* `MutexInv.effect`: every `Effect` keeps it, given the reference counts of `RefInv`.
* `mutex_exclusion`: at most one process holds a mutex, the lock names its pid, and
  `release_mutex` succeeds exactly for the holder.

A lock whose holder exits, or closes its last descriptor, stays locked with the holder's pid:
no process can release it, since pids are not reused.
-/

namespace Xv6

/-- The pid the lock of `F` names, when `F` is an open mutex file whose lock is held. -/
def lockedBy (F : File) : Option Int :=
  if 0 < F.ref ∧ F.type = .FD_MUTEX ∧ F.mutex.locked = true then some F.mutex.pid else none

/-- The pid of the process in slot `p`. -/
def FSys.pidOf (s : FSys) (p : Fin NPROC) : Option Nat := (s.procs p).map FProc.pid

/-- The holds agree with the locks, and pids are unique and below `nextpid`. -/
structure MutexInv (s : FSys) : Prop where
  held_lock : ∀ p f, (p, f) ∈ s.held → ∃ n : Nat, s.pidOf p = some n ∧ lockedBy (s.ft f) = some n
  lock_held : ∀ f q (n : Nat), lockedBy (s.ft f) = some n → s.pidOf q = some n → (q, f) ∈ s.held
  lock_lt : ∀ f k, lockedBy (s.ft f) = some k → k < s.nextpid
  pid_lt : ∀ p n, s.pidOf p = some n → n < s.nextpid
  pid_inj : ∀ p q n, s.pidOf p = some n → s.pidOf q = some n → p = q

/-! ## The locks of a changed table -/

theorem lockedBy_eq_some {F : File} {k : Int} :
    lockedBy F = some k ↔ 0 < F.ref ∧ F.type = .FD_MUTEX ∧ F.mutex = ⟨true, k⟩ := by
  unfold lockedBy
  split
  · next h =>
    obtain ⟨h1, h2, h3⟩ := h
    simp only [Option.some.injEq, h1, h2, true_and]
    constructor
    · rintro rfl
      rw [← h3]
    · intro h
      rw [h]
  · next h =>
    simp only [reduceCtorEq, false_iff]
    rintro ⟨h1, h2, h3⟩
    exact h ⟨h1, h2, by rw [h3]⟩

theorem lockedBy_of_ref_zero {F : File} (h : F.ref = 0) : lockedBy F = none := by
  simp [lockedBy, h]

theorem KeepsLive.lockedBy_eq {ft ft' : FTable} (h : KeepsLive ft ft') (f : Fin NFILE) :
    lockedBy (ft' f) = lockedBy (ft f) := by
  rcases h f with hf | ⟨h0, h0', -⟩
  · rw [hf]
  · rw [lockedBy_of_ref_zero h0, lockedBy_of_ref_zero h0']

/-- A file with a reference before and after, of the same type and sleep-lock, has the same
lock. -/
theorem lockedBy_congr {F F' : File} (hpos : 0 < F'.ref ↔ 0 < F.ref) (htype : F'.type = F.type)
    (hmutex : F'.mutex = F.mutex) : lockedBy F' = lockedBy F := by
  simp only [lockedBy, hpos, htype, hmutex]

/-- Writing a process's descriptors keeps every pid. -/
theorem FSys.pidOf_setOfile {s : FSys} {p : Fin NPROC} {P : FProc} (hP : s.procs p = some P) (of : OFile)
    (q : Fin NPROC) : (Function.update s.procs p (some { P with ofile := of }) q).map FProc.pid = s.pidOf q := by
  by_cases hq : q = p
  · subst hq
    simp [FSys.pidOf, hP]
  · simp [FSys.pidOf, Function.update_of_ne hq]

/-! ## Each kind of call keeps the invariant -/

namespace MutexInv

variable {s s' : FSys}

/-- Two holders of one mutex are the same process. -/
theorem held_unique (h : MutexInv s) {p q : Fin NPROC} {f : Fin NFILE} (hp : (p, f) ∈ s.held)
    (hq : (q, f) ∈ s.held) : p = q := by
  obtain ⟨n, hn, hf⟩ := h.held_lock p f hp
  obtain ⟨m, hm, hf'⟩ := h.held_lock q f hq
  have hnm : n = m := by
    rw [hf] at hf'
    exact_mod_cast Option.some.inj hf'
  subst hnm
  exact h.pid_inj p q n hn hm

/-- A call that changes neither a lock, a pid nor a hold, and does not lower `nextpid`. -/
theorem transfer (h : MutexInv s) (hpid : ∀ p, s'.pidOf p = s.pidOf p)
    (hlock : ∀ f, lockedBy (s'.ft f) = lockedBy (s.ft f)) (hheld : ∀ e, e ∈ s'.held ↔ e ∈ s.held)
    (hnext : s.nextpid ≤ s'.nextpid) : MutexInv s' where
  held_lock p f hp := by
    simpa only [hpid, hlock] using h.held_lock p f ((hheld _).mp hp)
  lock_held f q n hf hq := (hheld _).mpr (h.lock_held f q n (hlock f ▸ hf) (hpid q ▸ hq))
  lock_lt f k hf := lt_of_lt_of_le (h.lock_lt f k (hlock f ▸ hf)) (by exact_mod_cast hnext)
  pid_lt p n hp := lt_of_lt_of_le (h.pid_lt p n (hpid p ▸ hp)) hnext
  pid_inj p q n hp hq := h.pid_inj p q n (hpid p ▸ hp) (hpid q ▸ hq)

theorem frame (h : MutexInv s) (hprocs : s'.procs = s.procs) (hft : KeepsLive s.ft s'.ft)
    (hheld : ∀ e ∈ s'.held, e ∈ s.held) (hkeep : ∀ e ∈ s.held, 0 < (s.ft e.2).ref → e ∈ s'.held)
    (hnext : s.nextpid ≤ s'.nextpid) : MutexInv s' := by
  refine h.transfer (fun p => by simp only [FSys.pidOf, hprocs]) hft.lockedBy_eq
    (fun e => ⟨hheld e, fun he => hkeep e he ?_⟩) hnext
  -- a hold is of an open file
  obtain ⟨n, -, hf⟩ := h.held_lock e.1 e.2 he
  exact (lockedBy_eq_some.mp hf).1

/-- The last close of a file: it has no lock any more, and its holds end. -/
theorem closeLast (h : MutexInv s) {f : Fin NFILE} {procs : Fin NPROC → Option FProc}
    (hpid : ∀ p, (procs p).map FProc.pid = s.pidOf p) (pipes : Pipes) :
    MutexInv { s with procs := procs, ft := Function.update s.ft f { s.ft f with type := .FD_NONE, ref := 0 },
                      pipes := pipes, held := s.held.filter (·.2 != f) } := by
  have hlock : ∀ g, g ≠ f → lockedBy (Function.update s.ft f { s.ft f with type := .FD_NONE, ref := 0 } g) =
      lockedBy (s.ft g) := fun g hg => by rw [Function.update_of_ne hg]
  have hfree : lockedBy (Function.update s.ft f { s.ft f with type := .FD_NONE, ref := 0 } f) = none :=
    lockedBy_of_ref_zero (by simp)
  refine ⟨fun p g hp => ?_, fun g q n hg hq => ?_, fun g k hg => ?_, fun p n hp => ?_, fun p q n hp hq => ?_⟩
  · simp only [List.mem_filter, bne_iff_ne, ne_eq] at hp
    simpa only [FSys.pidOf, hpid, hlock g hp.2] using h.held_lock p g hp.1
  · have hgf : g ≠ f := by
      rintro rfl
      rw [hfree] at hg
      cases hg
    rw [hlock g hgf] at hg
    simp only [List.mem_filter, bne_iff_ne, ne_eq]
    exact ⟨h.lock_held g q n hg (by simpa only [FSys.pidOf, hpid] using hq), hgf⟩
  · have hgf : g ≠ f := by
      rintro rfl
      rw [hfree] at hg
      cases hg
    exact h.lock_lt g k (by rwa [hlock g hgf] at hg)
  · exact h.pid_lt p n (by simpa only [FSys.pidOf, hpid] using hp)
  · exact h.pid_inj p q n (by simpa only [FSys.pidOf, hpid] using hp) (by simpa only [FSys.pidOf, hpid] using hq)

/-- Clearing a descriptor and closing its file. -/
theorem closeDesc (h : MutexInv s) {p : Fin NPROC} {P : FProc} {d : Fin NOFILE} {f : Fin NFILE}
    (hP : s.procs p = some P) (hc : s.closeDesc p P d f = .ok s') : MutexInv s' := by
  have hpid := FSys.pidOf_setOfile hP (Function.update P.ofile d none)
  rcases FSys.closeDesc_cases hc with ⟨hgt, rfl⟩ | ⟨-, rfl⟩
  · refine h.transfer hpid (fun g => ?_) (fun _ => Iff.rfl) le_rfl
    dsimp only
    by_cases hg : g = f
    · subst hg
      simp only [Function.update_self]
      exact lockedBy_congr (by simp only; omega) rfl rfl
    · rw [Function.update_of_ne hg]
  · exact h.closeLast hpid _

theorem lockedBy_of_unlocked {F : File} (h : F.type = .FD_MUTEX → F.mutex.locked = false) :
    lockedBy F = none := by
  unfold lockedBy
  split
  · next hF =>
    rw [h hF.2.1] at hF
    cases hF.2.2
  · rfl

/-- `open` or `create_mutex`: a free slot becomes a file with no lock held. -/
theorem newFile (h : MutexInv s) {p : Fin NPROC} {P : FProc} {d : Fin NOFILE} {f : Fin NFILE} {F : File}
    (hP : s.procs p = some P) (hf : (s.ft f).ref = 0) (hmutex : F.type = .FD_MUTEX → F.mutex.locked = false)
    (hprocs : s'.procs = Function.update s.procs p (some { P with ofile := Function.update P.ofile d (some f) }))
    (hft : s'.ft = Function.update s.ft f F) (hheld : s'.held = s.held) (hnext : s'.nextpid = s.nextpid) :
    MutexInv s' := by
  refine h.transfer (fun q => ?_) (fun g => ?_) (fun e => by rw [hheld]) (le_of_eq hnext.symm)
  · rw [FSys.pidOf, hprocs]
    exact FSys.pidOf_setOfile hP _ q
  · rw [hft]
    by_cases hg : g = f
    · subst hg
      rw [Function.update_self, lockedBy_of_ref_zero hf]
      exact lockedBy_of_unlocked hmutex
    · rw [Function.update_of_ne hg]

/-- `dup`: one more reference to an open file. -/
theorem dup (h : MutexInv s) {p : Fin NPROC} {P : FProc} {d : Fin NOFILE} {f : Fin NFILE}
    (hP : s.procs p = some P) (hf : 0 < (s.ft f).ref)
    (hprocs : s'.procs = Function.update s.procs p (some { P with ofile := Function.update P.ofile d (some f) }))
    (hft : s'.ft = Function.update s.ft f { s.ft f with ref := (s.ft f).ref + 1 }) (hheld : s'.held = s.held)
    (hnext : s'.nextpid = s.nextpid) : MutexInv s' := by
  refine h.transfer (fun q => ?_) (fun g => ?_) (fun e => by rw [hheld]) (le_of_eq hnext.symm)
  · rw [FSys.pidOf, hprocs]
    exact FSys.pidOf_setOfile hP _ q
  · rw [hft]
    by_cases hg : g = f
    · subst hg
      rw [Function.update_self]
      exact lockedBy_congr (by simp only; omega) rfl rfl
    · rw [Function.update_of_ne hg]

/-- `pipe`: two free slots become pipe files. -/
theorem pipe (h : MutexInv s) {p : Fin NPROC} {P : FProc} {fd0 fd1 : Fin NOFILE} {f0 f1 : Fin NFILE}
    {pa : Nat} (hP : s.procs p = some P) (hf0 : (s.ft f0).ref = 0) (hf1 : (s.ft f1).ref = 0)
    (hprocs : s'.procs = Function.update s.procs p
      (some { P with ofile := Function.update (Function.update P.ofile fd0 (some f0)) fd1 (some f1) }))
    (hft : s'.ft = pipeEnds s.ft f0 f1 pa) (hheld : s'.held = s.held) (hnext : s'.nextpid = s.nextpid) :
    MutexInv s' := by
  refine h.transfer (fun q => ?_) (fun g => ?_) (fun e => by rw [hheld]) (le_of_eq hnext.symm)
  · rw [FSys.pidOf, hprocs]
    exact FSys.pidOf_setOfile hP _ q
  · rw [hft]
    unfold pipeEnds
    by_cases h0 : g = f0
    · subst h0
      rw [if_pos rfl, lockedBy_of_ref_zero hf0]
      exact lockedBy_of_unlocked (by simp)
    · by_cases h1 : g = f1
      · subst h1
        rw [if_neg h0, if_pos rfl, lockedBy_of_ref_zero hf1]
        exact lockedBy_of_unlocked (by simp)
      · rw [if_neg h0, if_neg h1]

/-- `fork`: a child with a new pid, and more references to open files. -/
theorem fork (hr : RefInv s) (h : MutexInv s) {p np : Fin NPROC} {P : FProc} (hP : s.procs p = some P)
    (hnp : s.procs np = none) (hprocs : s'.procs = Function.update s.procs np (some ⟨s.nextpid, P.ofile⟩))
    (hft : ∀ g, s'.ft g = { s.ft g with ref := (s.ft g).ref + refsOf P.ofile g })
    (hheld : s'.held = s.held) (hnext : s'.nextpid = s.nextpid + 1) : MutexInv s' := by
  -- a file has a reference after the call exactly when it had one before
  have hlock : ∀ g, lockedBy (s'.ft g) = lockedBy (s.ft g) := fun g => by
    have := hr.ref_eq g
    have := procRefs_le_nrefs s.procs p g
    rw [hP] at this
    simp only [procRefs] at this
    rw [hft g]
    exact lockedBy_congr (by simp only; omega) rfl rfl
  have hpid : ∀ q, s'.pidOf q = if q = np then some s.nextpid else s.pidOf q := fun q => by
    by_cases hq : q = np
    · subst hq
      simp [FSys.pidOf, hprocs]
    · simp [FSys.pidOf, hprocs, hq]
  have hnp' : ∀ q n, s.pidOf q = some n → q ≠ np := by
    rintro q n hq rfl
    simp [FSys.pidOf, hnp] at hq
  refine ⟨fun q g hq => ?_, fun g q n hg hq => ?_, fun g k hg => ?_, fun q n hq => ?_, fun q q' n hq hq' => ?_⟩
  · rw [hheld] at hq
    obtain ⟨n, hn, hg⟩ := h.held_lock q g hq
    exact ⟨n, by rw [hpid, if_neg (hnp' q n hn), hn], by rw [hlock, hg]⟩
  · rw [hlock] at hg
    rw [hpid] at hq
    rw [hheld]
    split at hq
    · -- the child's pid is above every lock's
      cases hq
      have := h.lock_lt g _ hg
      omega
    · exact h.lock_held g q n hg hq
  · rw [hlock] at hg
    rw [hnext]
    have := h.lock_lt g k hg
    omega
  · rw [hpid] at hq
    rw [hnext]
    split at hq
    · cases hq
      omega
    · have := h.pid_lt q n hq
      omega
  · rw [hpid] at hq hq'
    split at hq <;> split at hq'
    · next h1 h2 => rw [h1, h2]
    · next h1 h2 =>
      cases hq
      have := h.pid_lt q' _ hq'
      omega
    · next h1 h2 =>
      cases hq'
      have := h.pid_lt q _ hq
      omega
    · exact h.pid_inj q q' n hq hq'

/-- The loop of `exit` closes one descriptor after another. -/
theorem exitFiles (p : Fin NPROC) (ds : List (Fin NOFILE)) {s s₁ : FSys} (h : MutexInv s)
    (hx : s.exitFiles p ds = .ok s₁) : MutexInv s₁ := by
  induction ds generalizing s with
  | nil =>
    cases hx
    exact h
  | cons d ds ih =>
    unfold FSys.exitFiles at hx
    split at hx
    · cases hx
      exact h
    · next P hP =>
      split at hx
      · exact ih h hx
      · obtain ⟨s₂, h₂, hx⟩ := Except.bind_eq_ok.mp hx
        exact ih (h.closeDesc hP h₂) hx

/-- A process leaves, with its holds. -/
theorem leave (h : MutexInv s) (p : Fin NPROC) :
    MutexInv { s with procs := Function.update s.procs p none, held := s.held.filter (·.1 != p) } := by
  have hpid : ∀ q, q ≠ p → (Function.update s.procs p none q).map FProc.pid = s.pidOf q := fun q hq => by
    simp [FSys.pidOf, Function.update_of_ne hq]
  have hgone : ∀ n, (Function.update s.procs p none p).map FProc.pid ≠ some n := by simp
  have hne : ∀ q n, (Function.update s.procs p none q).map FProc.pid = some n → q ≠ p := by
    rintro q n hq rfl
    exact hgone n hq
  refine ⟨fun q f hq => ?_, fun f q n hf hq => ?_, h.lock_lt, fun q n hq => ?_, fun q q' n hq hq' => ?_⟩
  · simp only [List.mem_filter, bne_iff_ne, ne_eq] at hq
    simpa only [FSys.pidOf, hpid q hq.2] using h.held_lock q f hq.1
  · have hqp := hne q n hq
    simp only [List.mem_filter, bne_iff_ne, ne_eq]
    exact ⟨h.lock_held f q n hf (by simpa only [FSys.pidOf, hpid q hqp] using hq), hqp⟩
  · exact h.pid_lt q n (by simpa only [FSys.pidOf, hpid q (hne q n hq)] using hq)
  · exact h.pid_inj q q' n (by simpa only [FSys.pidOf, hpid q (hne q n hq)] using hq)
      (by simpa only [FSys.pidOf, hpid q' (hne q' n hq')] using hq')

/-- A returning `acquire_mutex`: `p` takes the free lock and holds it. -/
theorem acquire (hr : RefInv s) (h : MutexInv s) {p : Fin NPROC} {P : FProc} {d : Fin NOFILE}
    {f : Fin NFILE} (hP : s.procs p = some P) (hd : P.ofile d = some f) (htype : (s.ft f).type = .FD_MUTEX)
    (hfree : (s.ft f).mutex.locked = false) :
    MutexInv { s with ft := Function.update s.ft f { s.ft f with mutex := ⟨true, P.pid⟩ },
                      held := s.held ++ [(p, f)] } := by
  have hpos : 0 < (s.ft f).ref := by
    rw [hr.ref_eq f]
    exact_mod_cast nrefs_pos hP hd
  have hbefore : lockedBy (s.ft f) = none := lockedBy_of_unlocked fun _ => hfree
  have hafter : lockedBy (Function.update s.ft f { s.ft f with mutex := ⟨true, P.pid⟩ } f) = some P.pid :=
    lockedBy_eq_some.mpr (by simp [hpos, htype])
  have hother : ∀ g, g ≠ f →
      lockedBy (Function.update s.ft f { s.ft f with mutex := ⟨true, P.pid⟩ } g) = lockedBy (s.ft g) :=
    fun g hg => by rw [Function.update_of_ne hg]
  have hpidP : s.pidOf p = some P.pid := by simp [FSys.pidOf, hP]
  -- no process held the free lock
  have hnone : ∀ q, (q, f) ∉ s.held := fun q hq => by
    obtain ⟨n, -, hf⟩ := h.held_lock q f hq
    rw [hbefore] at hf
    cases hf
  refine ⟨fun q g hq => ?_, fun g q n hg hq => ?_, fun g k hg => ?_, h.pid_lt, h.pid_inj⟩
  · rcases List.mem_append.mp hq with hold | hnew
    · have hgf : g ≠ f := by
        rintro rfl
        exact hnone q hold
      rw [hother g hgf]
      exact h.held_lock q g hold
    · simp only [List.mem_singleton, Prod.mk.injEq] at hnew
      obtain ⟨rfl, rfl⟩ := hnew
      exact ⟨P.pid, hpidP, hafter⟩
  · by_cases hgf : g = f
    · subst hgf
      rw [hafter] at hg
      have hn : n = P.pid := by exact_mod_cast (Option.some.inj hg).symm
      subst hn
      rw [h.pid_inj q p _ hq hpidP]
      simp
    · rw [hother g hgf] at hg
      exact List.mem_append_left _ (h.lock_held g q n hg hq)
  · by_cases hgf : g = f
    · subst hgf
      rw [hafter] at hg
      cases hg
      exact_mod_cast h.pid_lt p _ hpidP
    · rw [hother g hgf] at hg
      exact h.lock_lt g k hg

/-- A successful `release_mutex`: the holder frees the lock. -/
theorem release (hr : RefInv s) (h : MutexInv s) {p : Fin NPROC} {P : FProc} {d : Fin NOFILE}
    {f : Fin NFILE} (hP : s.procs p = some P) (hd : P.ofile d = some f) (htype : (s.ft f).type = .FD_MUTEX)
    (hlk : (s.ft f).mutex = ⟨true, P.pid⟩) :
    MutexInv { s with ft := Function.update s.ft f { s.ft f with mutex := ⟨false, 0⟩ },
                      held := s.held.filter (· != (p, f)) } := by
  have hpos : 0 < (s.ft f).ref := by
    rw [hr.ref_eq f]
    exact_mod_cast nrefs_pos hP hd
  have hbefore : lockedBy (s.ft f) = some P.pid := lockedBy_eq_some.mpr ⟨hpos, htype, hlk⟩
  have hafter : lockedBy (Function.update s.ft f { s.ft f with mutex := ⟨false, 0⟩ } f) = none :=
    lockedBy_of_unlocked (by simp)
  have hother : ∀ g, g ≠ f →
      lockedBy (Function.update s.ft f { s.ft f with mutex := ⟨false, 0⟩ } g) = lockedBy (s.ft g) :=
    fun g hg => by rw [Function.update_of_ne hg]
  have hpidP : s.pidOf p = some P.pid := by simp [FSys.pidOf, hP]
  refine ⟨fun q g hq => ?_, fun g q n hg hq => ?_, fun g k hg => ?_, h.pid_lt, h.pid_inj⟩
  · simp only [List.mem_filter, bne_iff_ne, ne_eq] at hq
    obtain ⟨n, hn, hg⟩ := h.held_lock q g hq.1
    have hgf : g ≠ f := by
      rintro rfl
      -- the only holder of the lock is `p`
      rw [hbefore] at hg
      have hn' : n = P.pid := by exact_mod_cast (Option.some.inj hg).symm
      subst hn'
      exact hq.2 (by rw [h.pid_inj q p _ hn hpidP])
    exact ⟨n, hn, by rw [hother g hgf, hg]⟩
  · have hgf : g ≠ f := by
      rintro rfl
      rw [hafter] at hg
      cases hg
    rw [hother g hgf] at hg
    simp only [List.mem_filter, bne_iff_ne, ne_eq, Prod.mk.injEq, hgf, and_false, not_false_eq_true, and_true]
    exact h.lock_held g q n hg hq
  · have hgf : g ≠ f := by
      rintro rfl
      rw [hafter] at hg
      cases hg
    rw [hother g hgf] at hg
    exact h.lock_lt g k hg

/-- Every call keeps the invariant. -/
theorem effect (hr : RefInv s) (h : MutexInv s) (he : FSys.Effect s s') : MutexInv s' := by
  cases he with
  | frame hprocs _ hft hheld hkeep hnext => exact h.frame hprocs hft hheld hkeep hnext
  | newFile hP _ hf _ _ hmutex hprocs hft _ hheld hnext => exact h.newFile hP hf hmutex hprocs hft hheld hnext
  | dup hP _ hf hprocs hft _ hheld hnext => exact h.dup hP hf hprocs hft hheld hnext
  | close hP _ hc => exact h.closeDesc hP hc
  | pipe hP _ _ _ hf0 hf1 _ _ hprocs hft _ hheld hnext => exact h.pipe hP hf0 hf1 hprocs hft hheld hnext
  | fork hP hnp hprocs hft _ hheld hnext => exact h.fork hr hP hnp hprocs hft hheld hnext
  | exit _ _ hx hs' =>
    subst hs'
    exact (h.exitFiles _ _ hx).leave _
  | acquire hP hd htype hfree hs' =>
    subst hs'
    exact h.acquire hr hP hd htype hfree
  | release hP hd htype hlk hs' =>
    subst hs'
    exact h.release hr hP hd htype hlk

end MutexInv

/-! ## Every reachable state -/

theorem MutexInv.boot (l : Log) (locks : List LockHome) : MutexInv (FSys.boot l locks) := by
  have hlock : ∀ f, lockedBy ((FSys.boot l locks).ft f) = none := fun f => lockedBy_of_ref_zero rfl
  have hpid : ∀ p n, (FSys.boot l locks).pidOf p = some n → p = 0 ∧ n = 1 := fun p n hp => by
    by_cases h0 : p = 0
    · subst h0
      simp only [FSys.pidOf, FSys.boot, if_true, Option.map_some, Option.some.injEq] at hp
      exact ⟨rfl, hp.symm⟩
    · simp [FSys.pidOf, FSys.boot, h0] at hp
  refine ⟨fun p f hp => (by cases hp), fun f q n hf _ => ?_, fun f k hf => ?_, fun p n hp => ?_,
    fun p q n hp hq => ?_⟩
  · rw [hlock] at hf
    cases hf
  · rw [hlock] at hf
    cases hf
  · obtain ⟨-, rfl⟩ := hpid p n hp
    exact (by decide : 1 < 2)
  · rw [(hpid p n hp).1, (hpid q n hq).1]

theorem MutexInv.run {s s' : FSys} (hr : RefInv s) (h : MutexInv s) {cs : List FCall}
    (hrun : s.run cs = .ok s') : MutexInv s' := by
  induction cs generalizing s with
  | nil =>
    cases hrun
    exact h
  | cons c cs ih =>
    obtain ⟨s₁, h₁, hrun⟩ := Except.bind_eq_ok.mp hrun
    have he := FSys.step_effect hr.free_none h₁
    exact ih (hr.effect he) (h.effect hr he) hrun

theorem MutexInv.reachable {s : FSys} (hr : s.Reachable) : MutexInv s := by
  obtain ⟨l, locks, cs, hrun⟩ := hr
  exact (MutexInv.boot l locks).run (RefInv.boot l locks) hrun

/-! ## `acquire_mutex` and `release_mutex` -/

namespace FSys

/-- `release_mutex` returns `-1` and changes nothing, or returns `0`. -/
theorem sys_release_mutex_cases (s : FSys) (p : Fin NPROC) (P : FProc) (fd : Int) :
    s.sys_release_mutex p P fd = (-1, s) ∨ (s.sys_release_mutex p P fd).1 = 0 := by
  unfold sys_release_mutex
  split
  · exact .inl rfl
  · split
    · exact .inl rfl
    · exact .inr rfl

/-- Both calls return `-1` and change nothing on a descriptor that is not a mutex file. -/
theorem not_mutex {s : FSys} {p : Fin NPROC} {P : FProc} {fd : Int}
    (h : ∀ d f, argfd P.ofile fd = some (d, f) → (s.ft f).type ≠ .FD_MUTEX) :
    s.sys_acquire_mutex p P fd = (.returns (-1), s) ∧ s.sys_release_mutex p P fd = (-1, s) := by
  unfold sys_acquire_mutex sys_release_mutex
  split
  · exact ⟨rfl, rfl⟩
  · next d f hfd =>
    have htype := h d f hfd
    simp [htype]

/-- `acquire_mutex` sleeps, changing nothing, on a mutex that some process holds. -/
theorem acquire_sleeps {s : FSys} (h : MutexInv s) {p q : Fin NPROC} {P : FProc} {fd : Int}
    {d : Fin NOFILE} {f : Fin NFILE} (hfd : argfd P.ofile fd = some (d, f)) (hq : (q, f) ∈ s.held) :
    s.sys_acquire_mutex p P fd = (.sleeps, s) := by
  obtain ⟨n, -, hf⟩ := h.held_lock q f hq
  obtain ⟨-, htype, hlk⟩ := lockedBy_eq_some.mp hf
  simp [sys_acquire_mutex, hfd, htype, acquiresleep, hlk]

end FSys

/-- For a process with a descriptor to a mutex file, `holdingsleep` says whether it holds it. -/
theorem holdingsleep_iff_held {s : FSys} (hr : RefInv s) (h : MutexInv s) {p : Fin NPROC} {P : FProc}
    (hP : s.procs p = some P) {d : Fin NOFILE} {f : Fin NFILE} (hd : P.ofile d = some f) :
    ((s.ft f).type = .FD_MUTEX ∧ holdingsleep (s.ft f).mutex P.pid = true) ↔ (p, f) ∈ s.held := by
  have hpidP : s.pidOf p = some P.pid := by simp [FSys.pidOf, hP]
  have hpos : 0 < (s.ft f).ref := by
    rw [hr.ref_eq f]
    exact_mod_cast nrefs_pos hP hd
  constructor
  · rintro ⟨htype, hhold⟩
    simp only [holdingsleep, Bool.and_eq_true, beq_iff_eq] at hhold
    have hlk : (s.ft f).mutex = ⟨true, P.pid⟩ := by
      rw [show (s.ft f).mutex = ⟨(s.ft f).mutex.locked, (s.ft f).mutex.pid⟩ from rfl, hhold.1, hhold.2]
    exact h.lock_held f p P.pid (lockedBy_eq_some.mpr ⟨hpos, htype, hlk⟩) hpidP
  · intro hp
    obtain ⟨n, hn, hf⟩ := h.held_lock p f hp
    rw [hpidP] at hn
    cases hn
    obtain ⟨-, htype, hlk⟩ := lockedBy_eq_some.mp hf
    simp [holdingsleep, htype, hlk]

/-- `release_mutex` returns `0` exactly when the caller holds the mutex of its descriptor. -/
theorem release_ok_iff {s : FSys} (hr : RefInv s) (h : MutexInv s) {p : Fin NPROC} {P : FProc}
    (hP : s.procs p = some P) (fd : Int) :
    (s.sys_release_mutex p P fd).1 = 0 ↔ ∃ d f, argfd P.ofile fd = some (d, f) ∧ (p, f) ∈ s.held := by
  unfold FSys.sys_release_mutex
  split
  · next hnone => simp [hnone]
  · next d f hfd =>
    have key := holdingsleep_iff_held hr h hP (argfd_eq_some hfd)
    have hex : (∃ d' f', argfd P.ofile fd = some (d', f') ∧ (p, f') ∈ s.held) ↔ (p, f) ∈ s.held := by
      rw [hfd]
      constructor
      · rintro ⟨d', f', he, hp⟩
        cases he
        exact hp
      · intro hp
        exact ⟨d, f, rfl, hp⟩
    rw [hex, ← key]
    split
    · next hfail =>
      constructor
      · intro h0
        cases h0
      · rintro ⟨htype, hhold⟩
        simp [htype, hhold] at hfail
    · next hok =>
      simp only [not_or, not_not, Bool.not_eq_false] at hok
      exact iff_of_true rfl hok

/-- A successful `release_mutex` frees the lock and ends the caller's hold; every process with
a descriptor to the mutex then takes it at its next `acquire_mutex`. -/
theorem release_frees {s : FSys} (hr : RefInv s) (h : MutexInv s) {p : Fin NPROC} {P : FProc}
    (hP : s.procs p = some P) {fd : Int} {d : Fin NOFILE} {f : Fin NFILE} (hfd : argfd P.ofile fd = some (d, f))
    (hp : (p, f) ∈ s.held) :
    ((s.sys_release_mutex p P fd).2.ft f).mutex = ⟨false, 0⟩ ∧ (p, f) ∉ (s.sys_release_mutex p P fd).2.held ∧
      ∀ q Q fd' d', (s.sys_release_mutex p P fd).2.procs q = some Q → argfd Q.ofile fd' = some (d', f) →
        ((s.sys_release_mutex p P fd).2.sys_acquire_mutex q Q fd').1 = .returns 0 := by
  obtain ⟨htype, hhold⟩ := (holdingsleep_iff_held hr h hP (argfd_eq_some hfd)).mpr hp
  have hrel : s.sys_release_mutex p P fd = (0, { s with
      ft := Function.update s.ft f { s.ft f with mutex := releasesleep (s.ft f).mutex },
      held := s.held.filter (· != (p, f)) }) := by
    simp [FSys.sys_release_mutex, hfd, htype, hhold]
  rw [hrel]
  refine ⟨by simp [releasesleep], by simp, fun q Q fd' d' _ hfd' => ?_⟩
  simp [FSys.sys_acquire_mutex, hfd', htype, acquiresleep, releasesleep]

end Xv6
