import Mathlib
import Xv6.Proc.Sched

/-!
# Parents and pids along every run

`exit` gives its children to `initproc` before it becomes a zombie, and `wait` frees only a
zombie child, so no process ever has a free or zombie parent. `Kernel.Family` states that with
what the steps rely on: a free slot has no parent, `initproc` is in use and never in `exit`, the
process the CPU runs is running, and the processes in use have distinct pids below `nextpid`.

`PTable.Same` is the frame of most steps: the same parents and pids, and no process freed, made
a zombie or stopped. `Kernel.Family.setSlot` is the steps that change one slot: the scheduler,
a sleep, `fork` and `wait`. `exit`'s end, which moves the children, and `userinit` are checked
on their own. Every event keeps `Family`, whatever the outcomes of `kalloc` and `uvmcopy`
(`Family.step`), so it holds in every kernel a run from boot reaches (`family_of_reachable`).
-/

namespace Xv6

namespace PTable

variable {t t' t'' : PTable} {p q : Fin NPROC}

theorem setProc_proc (t : PTable) (q : Fin NPROC) (x : Proc) (r : Fin NPROC) :
    (t.setProc q x).proc r = if r = q then x else t.proc r := by
  by_cases hr : r = q
  · subst hr
    simp
  · rw [setProc_proc_of_ne _ hr, if_neg hr]

/-- The same parents, pids and `nextpid`, no process freed or made a zombie, and every running
process still running. -/
structure Same (t t' : PTable) : Prop where
  parent : ∀ p, (t'.proc p).parent = (t.proc p).parent
  pid : ∀ p, (t'.proc p).pid = (t.proc p).pid
  nextpid : t'.nextpid = t.nextpid
  unused : ∀ p, (t'.proc p).state = .UNUSED ↔ (t.proc p).state = .UNUSED
  zombie : ∀ p, (t'.proc p).state = .ZOMBIE ↔ (t.proc p).state = .ZOMBIE
  running : ∀ p, (t.proc p).state = .RUNNING → (t'.proc p).state = .RUNNING

theorem Same.refl (t : PTable) : Same t t :=
  ⟨fun _ => rfl, fun _ => rfl, rfl, fun _ => Iff.rfl, fun _ => Iff.rfl, fun _ h => h⟩

theorem Same.trans (h₁ : Same t t') (h₂ : Same t' t'') : Same t t'' :=
  ⟨fun p => (h₂.parent p).trans (h₁.parent p), fun p => (h₂.pid p).trans (h₁.pid p),
    h₂.nextpid.trans h₁.nextpid, fun p => (h₂.unused p).trans (h₁.unused p),
    fun p => (h₂.zombie p).trans (h₁.zombie p), fun p h => h₂.running p (h₁.running p h)⟩

theorem same_of_proc (h : t'.proc = t.proc) (hn : t'.nextpid = t.nextpid) : Same t t' := by
  refine ⟨fun p => ?_, fun p => ?_, hn, fun p => ?_, fun p => ?_, fun p hp => ?_⟩ <;> rw [h]
  exact hp

/-- A change of one slot that keeps its parent and pid, and its state or wakes it from sleep. -/
theorem same_setProc {x : Proc} (hpar : x.parent = (t.proc q).parent) (hpid : x.pid = (t.proc q).pid)
    (hstate : x.state = (t.proc q).state ∨ (t.proc q).state = .SLEEPING ∧ x.state = .RUNNABLE) :
    Same t (t.setProc q x) := by
  -- the states the frame reads are none of the two a wakeup moves between
  have hs : ∀ s : ProcState, s ≠ .SLEEPING → s ≠ .RUNNABLE → (x.state = s ↔ (t.proc q).state = s) := by
    intro s hs hr
    rcases hstate with h | ⟨h, h'⟩
    · rw [h]
    · rw [h, h']
      exact iff_of_false (Ne.symm hr) (Ne.symm hs)
  refine ⟨fun p => ?_, fun p => ?_, rfl, fun p => ?_, fun p => ?_, fun p hp => ?_⟩ <;>
    rw [setProc_proc] <;> split_ifs with hpq
  all_goals try subst hpq
  · exact hpar
  · rfl
  · exact hpid
  · rfl
  · exact hs _ (by decide) (by decide)
  · rfl
  · exact hs _ (by decide) (by decide)
  · rfl
  · exact (hs _ (by decide) (by decide)).mpr hp
  · exact hp

theorem same_wakeup (c : Chan) : Same t (t.wakeup c) := by
  refine ⟨fun p => ?_, fun p => ?_, rfl, fun p => ?_, fun p => ?_, fun p hp => ?_⟩ <;>
    simp only [wakeup] <;> split_ifs with h
  · rfl
  · rfl
  · rfl
  · rfl
  · simp [h.1]
  · rfl
  · simp [h.1]
  · rfl
  · simp [h.1] at hp
  · exact hp

theorem same_wakeup1 (p : Fin NPROC) : Same t (t.wakeup1 p) := by
  unfold wakeup1
  split_ifs with h
  · exact same_setProc rfl rfl (.inr ⟨h.2, rfl⟩)
  · exact Same.refl t

theorem same_kill (pid : Nat) : Same t (t.kill pid).1 := by
  unfold kill
  split
  · exact Same.refl t
  · dsimp only
    split_ifs with h
    · exact same_setProc rfl rfl (.inr ⟨h, rfl⟩)
    · exact same_setProc rfl rfl (.inl rfl)

theorem same_remove (q : Fin NPROC) : Same t (t.remove_from_prio_queue q) :=
  same_of_proc rfl rfl

theorem same_insert (q : Fin NPROC) : Same t (t.insert_into_prio_queue q) :=
  same_of_proc rfl rfl

theorem same_nice (pid priority : Nat) : Same t (t.nice pid priority).1 := by
  unfold nice
  split
  · exact Same.refl t
  · next q _ =>
    dsimp only
    refine ((same_remove q).trans ?_).trans (same_insert q)
    exact same_setProc rfl rfl (.inl rfl)

/-- `allocproc` without a process: at most the pid of a free slot and `nextpid` change. -/
theorem allocproc_none {tfOk : Bool} (heq : t.allocproc tfOk = (t', none)) :
    t.nextpid ≤ t'.nextpid ∧ ∀ q, (t'.proc q).parent = (t.proc q).parent ∧
      (t'.proc q).state = (t.proc q).state ∧ ((t.proc q).state ≠ .UNUSED → (t'.proc q).pid = (t.proc q).pid) := by
  unfold allocproc at heq
  split at heq
  · cases heq
    exact ⟨le_rfl, fun _ => ⟨rfl, rfl, fun _ => rfl⟩⟩
  · next r hr =>
    have hu : (t.proc r).state = .UNUSED := by simpa using List.find?_some hr
    split at heq
    · cases heq
    · cases heq
      refine ⟨Nat.le_succ _, fun q => ?_⟩
      rw [setProc_proc]
      split_ifs with hqr
      · subst hqr
        exact ⟨rfl, rfl, fun h => absurd hu h⟩
      · exact ⟨rfl, rfl, fun _ => rfl⟩

/-- `allocproc` with a process: the free slot it returns gets the next pid and keeps its parent
and state; every other slot stays. -/
theorem allocproc_some {tfOk : Bool} (heq : t.allocproc tfOk = (t', some p)) :
    (t.proc p).state = .UNUSED ∧ t'.nextpid = t.nextpid + 1 ∧ (t'.proc p).pid = t.nextpid ∧
      (t'.proc p).parent = (t.proc p).parent ∧ (t'.proc p).state = .UNUSED ∧
      ∀ q, q ≠ p → t'.proc q = t.proc q := by
  have hu := allocproc_unused heq
  have hother := fun q (hq : q ≠ p) => (allocproc_of_ne heq hq).1
  unfold allocproc at heq
  split at heq
  · cases heq
  · split at heq
    · simp only [Prod.mk.injEq, Option.some.injEq] at heq
      obtain ⟨rfl, rfl⟩ := heq
      refine ⟨hu, rfl, ?_, ?_, ?_, hother⟩ <;> simp [hu]
    · cases heq

/-- After `allocproc` returns `p`, a change of `p` leaves every other slot as before the call. -/
theorem allocproc_setProc {tfOk : Bool} (heq : t.allocproc tfOk = (t', some p)) (x : Proc) (r : Fin NPROC) :
    (t'.setProc p x).proc r = if r = p then x else t.proc r := by
  rw [setProc_proc]
  split_ifs with hr
  · rfl
  · exact (allocproc_of_ne heq hr).1

@[simp] theorem reparent_state (t : PTable) (p i r : Fin NPROC) :
    ((t.reparent p i).proc r).state = (t.proc r).state := by
  simp only [reparent]
  split_ifs <;> rfl

@[simp] theorem reparent_pid (t : PTable) (p i r : Fin NPROC) :
    ((t.reparent p i).proc r).pid = (t.proc r).pid := by
  simp only [reparent]
  split_ifs <;> rfl

theorem reparent_parent (t : PTable) (p i r : Fin NPROC) :
    ((t.reparent p i).proc r).parent = if (t.proc r).parent = some p then some i else (t.proc r).parent := by
  simp only [reparent]
  split_ifs <;> rfl

/-- After `reparent p i`, with `i ≠ p`, no process has `p` as its parent. -/
theorem reparent_parent_ne {i : Fin NPROC} (hip : i ≠ p) (t : PTable) (r : Fin NPROC) :
    ((t.reparent p i).proc r).parent ≠ some p := by
  rw [reparent_parent]
  split_ifs with hr
  · exact fun he => hip (Option.some.inj he)
  · exact hr

end PTable

open PTable

namespace Kernel

/-- The parents of the process table, and the pids. -/
structure Family (k : Kernel) : Prop where
  /-- a parent is in use and not a zombie -/
  parent : ∀ r q, (k.t.proc r).parent = some q → (k.t.proc q).state ≠ .UNUSED ∧ (k.t.proc q).state ≠ .ZOMBIE
  /-- no process is its own parent -/
  self : ∀ r, (k.t.proc r).parent ≠ some r
  /-- every process in use but `initproc` has a parent -/
  orphan : ∀ r, (k.t.proc r).state ≠ .UNUSED → k.initproc ≠ some r → (k.t.proc r).parent ≠ none
  /-- a free slot has no parent -/
  unused : ∀ r, (k.t.proc r).state = .UNUSED → (k.t.proc r).parent = none
  /-- `initproc` is in use, not a zombie, and not in `exit` -/
  init : ∀ i, k.initproc = some i →
    (k.t.proc i).state ≠ .UNUSED ∧ (k.t.proc i).state ≠ .ZOMBIE ∧ (k.pc i).exiting = false
  /-- `initproc` has no parent -/
  root : ∀ i, k.initproc = some i → (k.t.proc i).parent = none
  /-- before `userinit` no slot is in use -/
  boot : k.initproc = none → ∀ r, (k.t.proc r).state = .UNUSED
  /-- the process the CPU runs is running -/
  cur : ∀ p, k.cur = some p → (k.t.proc p).state = .RUNNING
  /-- the pids in use are positive and below `nextpid` -/
  pid_lt : ∀ r, (k.t.proc r).state ≠ .UNUSED → 0 < (k.t.proc r).pid ∧ (k.t.proc r).pid < k.t.nextpid
  /-- and distinct -/
  pid_inj : ∀ r r', (k.t.proc r).state ≠ .UNUSED → (k.t.proc r').state ≠ .UNUSED →
    (k.t.proc r).pid = (k.t.proc r').pid → r = r'
  nextpid_pos : 0 < k.t.nextpid

variable {k k' : Kernel} {p q : Fin NPROC}

theorem family_boot : boot.Family where
  parent _ _ h := by simp [boot, PTable.init, Proc.unused] at h
  self _ := by simp [boot, PTable.init, Proc.unused]
  orphan _ h := by simp [boot, PTable.init, Proc.unused] at h
  unused _ _ := rfl
  init _ h := by simp [boot] at h
  root _ h := by simp [boot] at h
  boot _ _ := rfl
  cur _ h := by simp [boot] at h
  pid_lt _ h := by simp [boot, PTable.init, Proc.unused] at h
  pid_inj _ _ h := by simp [boot, PTable.init, Proc.unused] at h
  nextpid_pos := Nat.one_pos

/-- A process the CPU runs is in use and not a zombie. -/
theorem Family.cur_live (h : k.Family) (hp : k.cur = some p) :
    (k.t.proc p).state ≠ .UNUSED ∧ (k.t.proc p).state ≠ .ZOMBIE := by
  rw [h.cur p hp]
  exact ⟨by decide, by decide⟩

/-- With a process running, `userinit` has run. -/
theorem Family.initproc_of_cur (h : k.Family) (hp : k.cur = some p) : k.initproc ≠ none :=
  fun hi => (h.cur_live hp).1 (h.boot hi p)

theorem Family.of_same (h : k.Family) (hs : Same k.t k'.t) (hi : k'.initproc = k.initproc)
    (hc : k'.cur = k.cur) (hpc : k'.pc = k.pc) : k'.Family where
  parent r q hr := by
    rw [hs.parent] at hr
    rw [Ne, hs.unused, Ne, hs.zombie]
    exact h.parent r q hr
  self r := by
    rw [hs.parent]
    exact h.self r
  orphan r hr hri := by
    rw [hs.parent]
    exact h.orphan r ((hs.unused r).not.mp hr) (hi ▸ hri)
  unused r hr := by
    rw [hs.parent]
    exact h.unused r ((hs.unused r).mp hr)
  init i hi' := by
    rw [Ne, hs.unused, Ne, hs.zombie, hpc]
    exact h.init i (hi ▸ hi')
  root i hi' := by
    rw [hs.parent]
    exact h.root i (hi ▸ hi')
  boot hi' r := (hs.unused r).mpr (h.boot (hi ▸ hi') r)
  cur p hp := hs.running p (h.cur p (hc ▸ hp))
  pid_lt r hr := by
    rw [hs.pid, hs.nextpid]
    exact h.pid_lt r ((hs.unused r).not.mp hr)
  pid_inj r r' hr hr' he := by
    rw [hs.pid, hs.pid] at he
    exact h.pid_inj r r' ((hs.unused r).not.mp hr) ((hs.unused r').not.mp hr') he
  nextpid_pos := hs.nextpid ▸ h.nextpid_pos

theorem Family.log (h : k.Family) (l : Log) : ({ k with log := l } : Kernel).Family :=
  ⟨h.parent, h.self, h.orphan, h.unused, h.init, h.root, h.boot, h.cur, h.pid_lt, h.pid_inj, h.nextpid_pos⟩

theorem Family.setPc (h : k.Family) {x : Pc} (hx : k.initproc = some p → x.exiting = false) :
    (k.setPc p x).Family := by
  refine ⟨h.parent, h.self, h.orphan, h.unused, fun i hi => ⟨(h.init i hi).1, (h.init i hi).2.1, ?_⟩, h.root,
    h.boot, h.cur, h.pid_lt, h.pid_inj, h.nextpid_pos⟩
  by_cases hip : i = p
  · subst hip
    simpa [Kernel.setPc] using hx hi
  · simpa [Kernel.setPc, Function.update_of_ne hip] using (h.init i hi).2.2

/-- One slot `q` changes to `x`, and `initproc` and its place in the code stay. What the new slot
must satisfy: a parent, other than itself, in use and not a zombie; a parent when in use (unless
it is `initproc`) and none when free or `initproc`; a fresh pid when in use. It stays in use, and
not a zombie, while other processes have it as their parent or it is `initproc`. -/
theorem Family.setSlot (h : k.Family) {x : Proc} (ht : ∀ r, k'.t.proc r = if r = q then x else k.t.proc r)
    (hn : k.t.nextpid ≤ k'.t.nextpid) (hi : k'.initproc = k.initproc)
    (hpc : ∀ i, k.initproc = some i → (k'.pc i).exiting = (k.pc i).exiting)
    (hcur : ∀ p, k'.cur = some p → (k'.t.proc p).state = .RUNNING)
    (hlive : (∃ r, r ≠ q ∧ (k.t.proc r).parent = some q) ∨ k.initproc = some q →
      x.state ≠ .UNUSED ∧ x.state ≠ .ZOMBIE)
    (hpar : ∀ q', x.parent = some q' → q' ≠ q ∧ (k.t.proc q').state ≠ .UNUSED ∧ (k.t.proc q').state ≠ .ZOMBIE)
    (hused : x.state ≠ .UNUSED → (k.initproc ≠ some q → x.parent ≠ none) ∧ 0 < x.pid ∧ x.pid < k'.t.nextpid ∧
      ∀ r, r ≠ q → (k.t.proc r).state ≠ .UNUSED → (k.t.proc r).pid ≠ x.pid)
    (hfree : x.state = .UNUSED → x.parent = none) (hroot : k.initproc = some q → x.parent = none)
    (hboot : k.initproc = none → x.state = .UNUSED) : k'.Family := by
  -- a slot is in use, and not a zombie, in the new table when it was in the old one or is `q`
  have hlive' : ∀ q', (q' = q → x.state ≠ .UNUSED ∧ x.state ≠ .ZOMBIE) →
      (q' ≠ q → (k.t.proc q').state ≠ .UNUSED ∧ (k.t.proc q').state ≠ .ZOMBIE) →
      (k'.t.proc q').state ≠ .UNUSED ∧ (k'.t.proc q').state ≠ .ZOMBIE := fun q' hq hk => by
    rw [ht]
    split_ifs with hq'
    · exact hq hq'
    · exact hk hq'
  refine ⟨fun r q' hr => ?_, fun r => ?_, fun r hr hri => ?_, fun r hr => ?_, fun i hi' => ?_, fun i hi' => ?_,
    fun hi' r => ?_, hcur, fun r hr => ?_, fun r r' hr hr' he => ?_, lt_of_lt_of_le h.nextpid_pos hn⟩
  · rw [ht] at hr
    split_ifs at hr with hrq
    · exact hlive' q' (fun he => absurd he (hpar q' hr).1) (fun _ => (hpar q' hr).2)
    · exact hlive' q' (fun he => hlive (.inl ⟨r, hrq, he ▸ hr⟩)) (fun _ => h.parent r q' hr)
  · rw [ht]
    split_ifs with hrq
    · subst hrq
      exact fun he => (hpar r he).1 rfl
    · exact h.self r
  · rw [ht] at hr ⊢
    split_ifs at hr ⊢ with hrq
    · subst hrq
      exact (hused hr).1 (hi ▸ hri)
    · exact h.orphan r hr (hi ▸ hri)
  · rw [ht] at hr ⊢
    split_ifs at hr ⊢ with hrq
    · exact hfree hr
    · exact h.unused r hr
  · rw [hi] at hi'
    have hl := hlive' i (fun he => hlive (.inr (he ▸ hi'))) fun _ => ⟨(h.init i hi').1, (h.init i hi').2.1⟩
    refine ⟨hl.1, hl.2, ?_⟩
    rw [hpc i hi']
    exact (h.init i hi').2.2
  · rw [hi] at hi'
    rw [ht]
    split_ifs with hiq
    · subst hiq
      exact hroot hi'
    · exact h.root i hi'
  · rw [hi] at hi'
    rw [ht]
    split_ifs
    · exact hboot hi'
    · exact h.boot hi' r
  · rw [ht] at hr ⊢
    split_ifs at hr ⊢ with hrq
    · exact ⟨(hused hr).2.1, (hused hr).2.2.1⟩
    · exact ⟨(h.pid_lt r hr).1, lt_of_lt_of_le (h.pid_lt r hr).2 hn⟩
  · rw [ht, ht] at he
    rw [ht] at hr hr'
    split_ifs at hr hr' he with hrq hrq'
    · exact hrq.trans hrq'.symm
    · exact absurd he.symm ((hused hr).2.2.2 r' hrq' hr')
    · exact absurd he ((hused hr').2.2.2 r hrq hr)
    · exact h.pid_inj r r' hr hr' he

/-- Slot `q`, in use, changes state and keeps its parent and pid; it may become a zombie once no
process has it as its parent and it is not `initproc`. -/
theorem Family.setLive (h : k.Family) (hq : (k.t.proc q).state ≠ .UNUSED) {x : Proc}
    (ht : ∀ r, k'.t.proc r = if r = q then x else k.t.proc r) (hn : k'.t.nextpid = k.t.nextpid)
    (hi : k'.initproc = k.initproc) (hpc : ∀ i, k.initproc = some i → (k'.pc i).exiting = (k.pc i).exiting)
    (hcur : ∀ p, k'.cur = some p → (k'.t.proc p).state = .RUNNING)
    (hpar : x.parent = (k.t.proc q).parent) (hpid : x.pid = (k.t.proc q).pid) (hs : x.state ≠ .UNUSED)
    (hz : x.state = .ZOMBIE → (∀ r, (k.t.proc r).parent ≠ some q) ∧ k.initproc ≠ some q) : k'.Family := by
  refine h.setSlot ht hn.ge hi hpc hcur (fun hkid => ⟨hs, fun hxz => ?_⟩) (fun q' hq' => ?_)
    (fun _ => ⟨?_, ?_, ?_, ?_⟩) (fun hx => absurd hx hs) (fun hiq => hpar ▸ h.root q hiq)
    (fun hib => absurd (h.boot hib q) hq)
  · obtain ⟨hkids, hqi⟩ := hz hxz
    rcases hkid with ⟨r, -, hr⟩ | hiq
    · exact hkids r hr
    · exact hqi hiq
  · rw [hpar] at hq'
    exact ⟨fun he => h.self q (he ▸ hq'), h.parent q q' hq'⟩
  · rw [hpar]
    exact h.orphan q hq
  · rw [hpid]
    exact (h.pid_lt q hq).1
  · rw [hpid, hn]
    exact (h.pid_lt q hq).2
  · intro r hr hru
    rw [hpid]
    exact fun he => hr (h.pid_inj r q hru hq he)

/-- The running process leaves the CPU, asleep, runnable or a zombie. -/
theorem Family.park (h : k.Family) (hp : k.cur = some p) {x : Proc}
    (hpar : x.parent = (k.t.proc p).parent) (hpid : x.pid = (k.t.proc p).pid) (hs : x.state ≠ .UNUSED)
    (hz : x.state = .ZOMBIE → (∀ r, (k.t.proc r).parent ≠ some p) ∧ k.initproc ≠ some p) :
    ({ k with t := k.t.setProc p x, cur := none } : Kernel).Family :=
  h.setLive (h.cur_live hp).1 (fun r => setProc_proc _ _ _ r) rfl rfl (fun _ _ => rfl)
    (fun _ hc => by cases hc) hpar hpid hs hz

theorem Family.sleep (h : k.Family) (hp : k.cur = some p) (c : Chan) : (k.sleep p c).Family :=
  h.park hp rfl rfl (by simp) (fun hz => by simp at hz)

/-- Slot `q`, which is not running, nobody's parent and not `initproc`, is freed. -/
theorem Family.free (h : k.Family) (ht : ∀ r, k'.t.proc r = if r = q then Proc.unused else k.t.proc r)
    (hn : k.t.nextpid ≤ k'.t.nextpid) (hi : k'.initproc = k.initproc)
    (hpc : ∀ i, k.initproc = some i → (k'.pc i).exiting = (k.pc i).exiting) (hc : k'.cur = k.cur)
    (hq : (k.t.proc q).state ≠ .RUNNING) (hkids : ∀ r, (k.t.proc r).parent ≠ some q)
    (hqi : k.initproc ≠ some q) : k'.Family := by
  refine h.setSlot ht hn hi hpc (fun p hp => ?_) (fun hkid => ?_) (fun q' hq' => by cases hq')
    (fun hx => absurd rfl hx) (fun _ => rfl) (fun _ => rfl) (fun _ => rfl)
  · rw [hc] at hp
    have hpq : p ≠ q := fun he => hq (he ▸ h.cur p hp)
    rw [ht, if_neg hpq]
    exact h.cur p hp
  · rcases hkid with ⟨r, -, hr⟩ | hiq
    · exact absurd hr (hkids r)
    · exact absurd hiq hqi

/-- `reparent p i` with `i` the `initproc`: the children of `p` go to a live process that is none
of them. -/
theorem Family.reparent (h : k.Family) {i : Fin NPROC} (hi : k.initproc = some i) (p : Fin NPROC) :
    ({ k with t := k.t.reparent p i } : Kernel).Family where
  parent r q hr := by
    simp only [reparent_state]
    rw [reparent_parent] at hr
    split_ifs at hr
    · cases hr
      exact ⟨(h.init i hi).1, (h.init i hi).2.1⟩
    · exact h.parent r q hr
  self r := by
    rw [reparent_parent]
    split_ifs with hr
    · intro he
      rw [← Option.some.inj he, h.root i hi] at hr
      cases hr
    · exact h.self r
  orphan r hr hri := by
    rw [reparent_state] at hr
    rw [reparent_parent]
    split_ifs
    · exact Option.some_ne_none i
    · exact h.orphan r hr hri
  unused r hr := by
    rw [reparent_state] at hr
    rw [reparent_parent, h.unused r hr]
    simp
  init i' hi' := by
    simp only [reparent_state]
    exact h.init i' hi'
  root i' hi' := by
    rw [reparent_parent, h.root i' hi']
    simp
  boot hi' r := by
    rw [reparent_state]
    exact h.boot hi' r
  cur p' hp' := by
    rw [reparent_state]
    exact h.cur p' hp'
  pid_lt r hr := by
    rw [reparent_state] at hr
    rw [reparent_pid]
    exact h.pid_lt r hr
  pid_inj r r' hr hr' he := by
    rw [reparent_state] at hr hr'
    rw [reparent_pid, reparent_pid] at he
    exact h.pid_inj r r' hr hr' he
  nextpid_pos := h.nextpid_pos

theorem Family.beginOp (h : k.Family) (hp : k.cur = some p) {retry next : Pc}
    (hr : k.initproc = some p → retry.exiting = false) (hn : k.initproc = some p → next.exiting = false) :
    (k.beginOp p retry next).Family := by
  unfold Kernel.beginOp
  split
  · exact (h.sleep hp .log).setPc hr
  · exact (h.log _).setPc hn

theorem Family.endCommit (h : k.Family) : k.endCommit.Family :=
  (h.log _).of_same (same_wakeup .log) rfl rfl rfl

/-- The end of `exit`: `initproc` takes the children, and the process, now nobody's parent,
becomes a zombie. -/
theorem Family.finishExit (h : k.Family) (hp : k.cur = some p) (hpi : k.initproc ≠ some p)
    (hk : k.finishExit p = some k') : k'.Family := by
  simp only [Kernel.finishExit, Option.bind_eq_bind, Option.bind_eq_some_iff] at hk
  obtain ⟨i, hi, par, -, hk⟩ := hk
  cases hk
  have hip : i ≠ p := fun he => hpi (he ▸ hi)
  -- the wakeups keep the frame and `reparent` moves the children of `p` to `initproc`
  have h₁ : ({ k with t := k.t.wakeup1 i } : Kernel).Family := h.of_same (same_wakeup1 i) rfl rfl rfl
  have h₃ : ({ k with t := ((k.t.wakeup1 i).reparent p i).wakeup1 par } : Kernel).Family :=
    (h₁.reparent hi p).of_same (same_wakeup1 par) rfl rfl rfl
  refine h₃.park hp rfl rfl (by simp) fun _ => ⟨fun r => ?_, hpi⟩
  rw [(same_wakeup1 par).parent]
  exact reparent_parent_ne hip _ r

theorem Family.afterCommit (h : k.Family) (hp : k.cur = some p) (exiting : Bool)
    (hx : exiting → k.initproc ≠ some p)
    (hk : (if exiting then k.finishExit p else some (k.setPc p .user)) = some k') : k'.Family := by
  split at hk
  · exact h.finishExit hp (hx ‹_›) hk
  · cases hk
    exact h.setPc fun _ => rfl

theorem Family.endOp (h : k.Family) (hp : k.cur = some p) {exiting : Bool}
    (hx : exiting → k.initproc ≠ some p) (hk : k.endOp p exiting = some k') : k'.Family := by
  -- the call that does not commit wakes the log's sleepers, which keeps the frame
  have hw : ∀ l : Log, ({ k with log := l, t := k.t.wakeup .log } : Kernel).Family := fun l =>
    (h.log l).of_same (same_wakeup .log) rfl rfl rfl
  unfold Kernel.endOp at hk
  rcases hlock : k.log.endOpLocked with _ | ⟨l, _ | _⟩ <;> simp only [hlock] at hk
  · cases hk
  · exact (hw l).afterCommit hp exiting hx hk
  · split at hk
    · cases hk
      refine ((h.log l).sleep hp .disk).setPc fun hi => ?_
      cases exiting
      · rfl
      · exact absurd hi (hx rfl)
    · exact (h.log l).endCommit.afterCommit hp exiting hx hk

/-- `allocproc` without a process changes at most the pid of a free slot and `nextpid`. -/
theorem Family.allocproc_none (h : k.Family) {t : PTable} {tfOk : Bool} (heq : k.t.allocproc tfOk = (t, none)) :
    ({ k with t := t } : Kernel).Family := by
  obtain ⟨hn, hA⟩ := PTable.allocproc_none heq
  refine ⟨fun r q hr => ?_, fun r => ?_, fun r hr hri => ?_, fun r hr => ?_, fun i hi => ?_, fun i hi => ?_,
    fun hi r => ?_, fun p hp => ?_, fun r hr => ?_, fun r r' hr hr' he => ?_, lt_of_lt_of_le h.nextpid_pos hn⟩ <;>
    dsimp only at *
  · rw [(hA r).1] at hr
    rw [(hA q).2.1]
    exact h.parent r q hr
  · rw [(hA r).1]
    exact h.self r
  · rw [(hA r).2.1] at hr
    rw [(hA r).1]
    exact h.orphan r hr hri
  · rw [(hA r).2.1] at hr
    rw [(hA r).1]
    exact h.unused r hr
  · rw [(hA i).2.1]
    exact h.init i hi
  · rw [(hA i).1]
    exact h.root i hi
  · rw [(hA r).2.1]
    exact h.boot hi r
  · rw [(hA p).2.1]
    exact h.cur p hp
  · rw [(hA r).2.1] at hr
    rw [(hA r).2.2 hr]
    exact ⟨(h.pid_lt r hr).1, lt_of_lt_of_le (h.pid_lt r hr).2 hn⟩
  · rw [(hA r).2.1] at hr
    rw [(hA r').2.1] at hr'
    rw [(hA r).2.2 hr, (hA r').2.2 hr'] at he
    exact h.pid_inj r r' hr hr' he

/-- `fork` by the running process `p`: the new process has `p` as its parent and the next pid;
when the copy of the memory fails its slot is freed again. -/
theorem Family.fork (h : k.Family) (hp : k.cur = some p) (tfOk copyOk : Bool) :
    (k.fork p tfOk copyOk).Family := by
  unfold Kernel.fork
  split
  · next t heq => exact h.allocproc_none heq
  · next t np heq =>
    obtain ⟨hu, hnext, hpid, -, -, -⟩ := allocproc_some heq
    have hnp : np ≠ p := fun he => (h.cur_live hp).1 (he ▸ hu)
    have hni : k.initproc ≠ some np := fun hi => (h.init np hi).1 hu
    have ht := allocproc_setProc heq
    have hcur : ∀ r, k.cur = some r → r ≠ np := fun r hr he => (h.cur_live hr).1 (he ▸ hu)
    split
    · refine Family.setPc ?_ fun hi => absurd hi hni
      refine h.setSlot (ht _) (show k.t.nextpid ≤ t.nextpid by omega) rfl (fun _ _ => rfl)
        (fun r hr => ?_) (fun _ => ⟨by simp, by simp⟩) (fun q' hq' => ?_) (fun _ => ⟨?_, ?_, ?_, ?_⟩)
        (fun hx => by simp at hx) (fun hi => absurd hi hni) (fun hi => absurd hi (h.initproc_of_cur hp))
      · rw [ht, if_neg (hcur r hr)]
        exact h.cur r hr
      · cases hq'
        exact ⟨Ne.symm hnp, h.cur_live hp⟩
      · exact fun _ => Option.some_ne_none p
      · dsimp only
        rw [hpid]
        exact h.nextpid_pos
      · show (t.proc np).pid < t.nextpid
        omega
      · intro r _ hr
        dsimp only
        rw [hpid]
        exact Nat.ne_of_lt (h.pid_lt r hr).2
    · exact h.free (ht Proc.unused) (show k.t.nextpid ≤ t.nextpid by omega) rfl (fun _ _ => rfl) rfl
        (by rw [hu]; decide) (fun r hr => (h.parent r np hr).1 hu) hni

theorem Family.wait (h : k.Family) (hp : k.cur = some p) : (k.wait p).Family := by
  unfold Kernel.wait
  dsimp only
  split
  · next z hz =>
    have hzz : (k.t.proc z).state = .ZOMBIE := by simpa using List.find?_some hz
    exact h.free (fun r => setProc_proc _ _ _ r) le_rfl rfl (fun _ _ => rfl) rfl (by rw [hzz]; decide)
      (fun r hr => (h.parent r z hr).2 hzz) (fun hi => (h.init z hi).2.1 hzz)
  · split
    · exact h
    · exact h.sleep hp _

/-- The scheduler runs a runnable process; its node moves to the end of its queue. -/
theorem Family.scheduler (h : k.Family) {q : Fin NPROC} (hq : (k.t.proc q).state = .RUNNABLE) :
    ({ k with t := ((k.t.setProc q { k.t.proc q with state := .RUNNING }).remove_from_prio_queue q
      ).insert_into_prio_queue q, cur := some q } : Kernel).Family := by
  have h₁ : ({ k with t := k.t.setProc q { k.t.proc q with state := .RUNNING }, cur := some q } : Kernel).Family :=
    h.setLive (by rw [hq]; decide) (fun r => setProc_proc _ _ _ r) rfl rfl (fun _ _ => rfl)
      (fun r hr => by cases hr; simp) rfl rfl (by simp) (fun hz => by simp at hz)
  exact h₁.of_same ((same_remove q).trans (same_insert q)) rfl rfl rfl

/-- `userinit`: the first process, runnable, with no parent and the first pid. -/
theorem Family.userinit (h : k.Family) (hi : k.initproc = none) {tfOk : Bool} {t : PTable}
    (heq : k.t.allocproc tfOk = (t, some p)) :
    (({ k with t := t.setProc p { t.proc p with state := .RUNNABLE }, initproc := some p } : Kernel).setPc
      p .user).Family := by
  obtain ⟨-, hnext, hpid, hpar, -, hother⟩ := allocproc_some heq
  have hall := h.boot hi
  -- no slot but `p` is in use, and no slot has a parent
  have hused : ∀ r, ((t.setProc p { t.proc p with state := .RUNNABLE }).proc r).state ≠ .UNUSED → r = p :=
    fun r hr => by
      by_contra hrp
      rw [setProc_proc_of_ne _ hrp, hother r hrp] at hr
      exact hr (hall r)
  have hnone : ∀ r, ((t.setProc p { t.proc p with state := .RUNNABLE }).proc r).parent = none := fun r => by
    rw [setProc_proc]
    split_ifs with hrp
    · rw [hpar]
      exact h.unused p (hall p)
    · rw [hother r hrp]
      exact h.unused r (hall r)
  refine ⟨fun r q hr => ?_, fun r => ?_, fun r hr hri => ?_, fun r _ => hnone r, fun i hi' => ?_,
    fun i _ => hnone i, fun hi' => ?_, fun q hq => ?_, fun r hr => ?_, fun r r' hr hr' _ => ?_, ?_⟩ <;>
    dsimp only [Kernel.setPc] at *
  · rw [hnone r] at hr
    cases hr
  · rw [hnone r]
    simp
  · exact absurd (by rw [hused r hr]) hri
  · cases hi'
    simp [Pc.exiting]
  · cases hi'
  · exact absurd (h.cur q hq) (by rw [hall q]; decide)
  · rw [hused r hr, setProc_proc_self]
    show 0 < (t.proc p).pid ∧ (t.proc p).pid < t.nextpid
    exact ⟨hpid ▸ h.nextpid_pos, by omega⟩
  · rw [hused r hr, hused r' hr']
  · show 0 < t.nextpid
    omega

/-- Every event keeps `Family`, whatever `kalloc` and `uvmcopy` return. -/
theorem Family.step (h : k.Family) {e : Event} (hk : k.step e = some k') : k'.Family := by
  cases e with
  | userinit tfOk =>
    simp only [Kernel.step] at hk
    split at hk
    · cases hk
    · next hi =>
      split at hk
      · cases hk
      · next t np heq =>
        cases hk
        exact h.userinit (Option.not_isSome_iff_eq_none.mp hi) heq
  | scheduler =>
    simp only [Kernel.step] at hk
    split at hk
    · cases hk
    · obtain ⟨q, hq, rfl⟩ := Option.map_eq_some_iff.mp hk
      obtain ⟨i, -, hf, -⟩ := pick_eq_some hq
      exact h.scheduler (firstRunnable_eq_some hf).2
  | yield =>
    obtain ⟨q, hq, rfl⟩ := Option.map_eq_some_iff.mp hk
    exact h.park hq rfl rfl (by simp) (fun hz => by simp at hz)
  | fork tfOk copyOk =>
    obtain ⟨p, hp, hk⟩ := Option.bind_eq_some_iff.mp hk
    split at hk
    · cases hk
      exact h.fork hp tfOk copyOk
    · cases hk
  | fsBegin =>
    obtain ⟨p, hp, hk⟩ := Option.bind_eq_some_iff.mp hk
    split at hk
    · cases hk
      exact h.beginOp hp (fun _ => rfl) (fun _ => rfl)
    · cases hk
  | exitBegin =>
    obtain ⟨p, hp, hk⟩ := Option.bind_eq_some_iff.mp hk
    split at hk
    · next hpc =>
      cases hk
      -- `initproc` is never in `exit`
      have hx : k.initproc = some p → Pc.exiting .exitTxn = false := fun hi => by
        simpa [hpc, Pc.exiting] using (h.init p hi).2.2
      exact h.beginOp hp (fun hi => by simpa [hpc] using (h.init p hi).2.2) hx
    · cases hk
  | logWrite b =>
    obtain ⟨p, -, hk⟩ := Option.bind_eq_some_iff.mp hk
    split at hk
    · split at hk
      · cases hk
        exact h.log _
      · cases hk
    · cases hk
  | fsEnd =>
    obtain ⟨p, hp, hk⟩ := Option.bind_eq_some_iff.mp hk
    split at hk
    · exact h.endOp hp (fun hf => absurd hf Bool.false_ne_true) hk
    · cases hk
  | exitEnd =>
    obtain ⟨p, hp, hk⟩ := Option.bind_eq_some_iff.mp hk
    split at hk
    · next hpc =>
      exact h.endOp hp (fun _ hi => by simpa [hpc, Pc.exiting] using (h.init p hi).2.2) hk
    · cases hk
  | diskIntr =>
    cases hk
    exact h.of_same (same_wakeup _) rfl rfl rfl
  | commitDone =>
    obtain ⟨p, hp, hk⟩ := Option.bind_eq_some_iff.mp hk
    split at hk
    · next exiting hpc =>
      exact h.endCommit.afterCommit hp exiting
        (fun hx hi => by simpa [hpc, Pc.exiting, hx] using (h.init p hi).2.2) hk
    · cases hk
  | exitStart =>
    obtain ⟨p, -, hk⟩ := Option.bind_eq_some_iff.mp hk
    split at hk
    · next hc =>
      cases hk
      -- `exit` leaves the queue of its priority, which keeps the frame
      have h₁ : ({ k with t := if (k.t.proc p).priority < NPRIO then k.t.remove_from_prio_queue p else k.t } :
          Kernel).Family := by
        refine h.of_same ?_ rfl rfl rfl
        split
        · exact same_remove p
        · exact Same.refl _
      exact h₁.setPc fun hi => absurd hi hc.2
    · cases hk
  | wait =>
    obtain ⟨p, hp, hk⟩ := Option.bind_eq_some_iff.mp hk
    split at hk
    · cases hk
      exact h.wait hp
    · cases hk
  | nice pid priority =>
    obtain ⟨p, -, hk⟩ := Option.bind_eq_some_iff.mp hk
    split at hk
    · cases hk
      split
      · exact h
      · exact h.of_same (same_nice pid priority) rfl rfl rfl
    · cases hk
  | kill pid =>
    obtain ⟨-, -, rfl⟩ := Option.map_eq_some_iff.mp hk
    exact h.of_same (same_kill pid) rfl rfl rfl

theorem Family.run (h : k.Family) {es : List Event} (hk : k.run es = some k') : k'.Family := by
  induction es generalizing k with
  | nil =>
    cases hk
    exact h
  | cons e es ih =>
    obtain ⟨k₁, h₁, hk⟩ := Option.bind_eq_some_iff.mp hk
    exact ih (h.step h₁) hk

end Kernel

end Xv6
