import Mathlib
import Xv6.Proc.Family

/-!
# `exit` and `wait`, with statuses

`Life` is the kernel together with each slot's `xstate`, and its events are the kernel's, with
`exit(status)` and `wait(addr)` taking their arguments; `wait`'s `copyout` of the status may
fail. A step shows what a user program sees: the pid and status of an `exit`, and what `wait`
returns and stores (`Obs`).

`Kernel.Ages` is what a kernel step does to the slots: a process in use stays in use with its pid
and keeps whether it has called `exit`, or is new with a pid never handed out before
(`Kernel.ages_step`). `Life.Ledger` is what a trace so far leaves: `Family`, the pids `exit` and
`wait` showed, and, for every `wait` that returned a pid, the earlier `exit` of that pid with the
status it stored. Every step keeps it (`Life.Ledger.step`), so it holds along every run from boot;
`Life.lifecycle` collects what it gives, with what one `wait` does (`Life.WaitSpec`).
-/

namespace Xv6

open PTable

namespace Kernel

variable {k k' k₁ k₂ : Kernel} {p q : Fin NPROC}

/-- The children of `p`, in the order `wait` scans `proc[]`. -/
def kids (k : Kernel) (p : Fin NPROC) : List (Fin NPROC) :=
  (List.finRange NPROC).filter fun q => (k.t.proc q).parent == some p

/-- The child `wait` reaps: the first zombie among the children. -/
def zombieKid (k : Kernel) (p : Fin NPROC) : Option (Fin NPROC) :=
  (k.kids p).find? fun q => (k.t.proc q).state == .ZOMBIE

theorem zombieKid_some (hz : k.zombieKid p = some q) :
    (k.t.proc q).parent = some p ∧ (k.t.proc q).state = .ZOMBIE := by
  have hmem := List.mem_of_find?_eq_some hz
  simp only [kids, List.mem_filter, beq_iff_eq] at hmem
  exact ⟨hmem.2, by simpa using List.find?_some hz⟩

theorem zombieKid_none (hz : k.zombieKid p = none) (hq : (k.t.proc q).parent = some p) :
    (k.t.proc q).state ≠ .ZOMBIE := by
  have hmem : q ∈ k.kids p := by simp [kids, hq]
  simpa using List.find?_eq_none.mp hz q hmem

theorem kids_isEmpty : (k.kids p).isEmpty ↔ ∀ q, (k.t.proc q).parent ≠ some p := by
  simp [kids, List.isEmpty_iff, List.filter_eq_nil_iff]

theorem wait_of_zombieKid (hz : k.zombieKid p = some q) : k.wait p = { k with t := k.t.freeproc q } := by
  unfold zombieKid kids at hz
  unfold Kernel.wait
  dsimp only
  rw [hz]

theorem wait_of_zombieKid_none (hz : k.zombieKid p = none) :
    k.wait p = if (k.kids p).isEmpty ∨ (k.t.proc p).killed then k else k.sleep p (.proc p) := by
  unfold zombieKid kids at hz
  unfold Kernel.wait
  dsimp only
  rw [hz]
  rfl

/-- `p` has called `exit`: its code is in `exit`, or it is a zombie. -/
def Exited (k : Kernel) (p : Fin NPROC) : Prop := (k.pc p).exiting = true ∨ (k.t.proc p).state = .ZOMBIE

instance (k : Kernel) (p : Fin NPROC) : Decidable (k.Exited p) :=
  inferInstanceAs (Decidable (_ ∨ _))

/-- From `k` to `k'` every process in use was in use, with its pid, and has called `exit` in `k'`
exactly when it had in `k`; or it is new, with a pid at least `k`'s `nextpid`, and in no `exit`. -/
structure Ages (k k' : Kernel) : Prop where
  nextpid : k.t.nextpid ≤ k'.t.nextpid
  slot : ∀ r, (k'.t.proc r).state ≠ .UNUSED →
    ((k.t.proc r).state ≠ .UNUSED ∧ (k'.t.proc r).pid = (k.t.proc r).pid ∧ (k'.Exited r ↔ k.Exited r)) ∨
    (k.t.nextpid ≤ (k'.t.proc r).pid ∧ ¬ k'.Exited r)

theorem Ages.refl (k : Kernel) : Ages k k :=
  ⟨le_rfl, fun _ hr => .inl ⟨hr, rfl, Iff.rfl⟩⟩

theorem Ages.trans (h₁ : Ages k k₁) (h₂ : Ages k₁ k₂) : Ages k k₂ where
  nextpid := h₁.nextpid.trans h₂.nextpid
  slot r hr := by
    rcases h₂.slot r hr with ⟨hr₁, hpid₂, hx₂⟩ | ⟨hn₂, hx₂⟩
    · rcases h₁.slot r hr₁ with ⟨hr₀, hpid₁, hx₁⟩ | ⟨hn₁, hx₁⟩
      · exact .inl ⟨hr₀, hpid₂.trans hpid₁, hx₂.trans hx₁⟩
      · exact .inr ⟨hpid₂ ▸ hn₁, fun hx => hx₁ (hx₂.mp hx)⟩
    · exact .inr ⟨h₁.nextpid.trans hn₂, hx₂⟩

theorem ages_of_same (hs : Same k.t k'.t) (hpc : ∀ r, (k'.pc r).exiting = (k.pc r).exiting) : Ages k k' where
  nextpid := hs.nextpid.ge
  slot r hr := .inl ⟨(hs.unused r).not.mp hr, hs.pid r, by rw [Exited, Exited, hpc r, hs.zombie r]⟩

theorem ages_log (l : Log) : Ages k { k with log := l } :=
  ages_of_same (Same.refl _) fun _ => rfl

theorem ages_setPc {x : Pc} (hx : x.exiting = (k.pc p).exiting) : Ages k (k.setPc p x) :=
  ages_of_same (Same.refl _) fun r => by
    by_cases hrp : r = p
    · subst hrp
      simpa [Kernel.setPc] using hx
    · simp [Kernel.setPc, Function.update_of_ne hrp]

/-- One slot `q` changes to `x`, and the other processes keep their places in the code. -/
theorem ages_setSlot {x : Proc} (ht : ∀ r, k'.t.proc r = if r = q then x else k.t.proc r)
    (hn : k.t.nextpid ≤ k'.t.nextpid) (hpc : ∀ r, r ≠ q → k'.pc r = k.pc r)
    (hx : x.state ≠ .UNUSED →
      ((k.t.proc q).state ≠ .UNUSED ∧ x.pid = (k.t.proc q).pid ∧ (k'.Exited q ↔ k.Exited q)) ∨
      (k.t.nextpid ≤ x.pid ∧ ¬ k'.Exited q)) : Ages k k' where
  nextpid := hn
  slot r hr := by
    by_cases hrq : r = q
    · subst hrq
      rw [ht, if_pos rfl] at hr ⊢
      exact hx hr
    · have hr' : k'.t.proc r = k.t.proc r := by rw [ht, if_neg hrq]
      rw [hr'] at hr ⊢
      exact .inl ⟨hr, rfl, by rw [Exited, Exited, hr', hpc r hrq]⟩

/-- Slot `q`, in use and not a zombie, changes its state and keeps its pid; it becomes a zombie
only from inside `exit`. -/
theorem ages_setLive (hq : (k.t.proc q).state ≠ .UNUSED) (hqz : (k.t.proc q).state ≠ .ZOMBIE) {x : Proc}
    (ht : ∀ r, k'.t.proc r = if r = q then x else k.t.proc r) (hn : k'.t.nextpid = k.t.nextpid)
    (hpc : k'.pc = k.pc) (hpid : x.pid = (k.t.proc q).pid) (hx : x.state = .ZOMBIE → (k.pc q).exiting = true) :
    Ages k k' := by
  refine ages_setSlot ht hn.ge (fun r _ => by rw [hpc]) fun _ => .inl ⟨hq, hpid, ?_⟩
  rw [Exited, Exited, ht, if_pos rfl, hpc]
  exact ⟨fun h => h.elim .inl fun hz => .inl (hx hz), fun h => h.elim .inl fun hz => absurd hz hqz⟩

theorem ages_park (h : k.Family) (hp : k.cur = some p) {x : Proc} (hpid : x.pid = (k.t.proc p).pid)
    (hx : x.state = .ZOMBIE → (k.pc p).exiting = true) :
    Ages k { k with t := k.t.setProc p x, cur := none } :=
  ages_setLive (h.cur_live hp).1 (h.cur_live hp).2 (fun r => setProc_proc _ _ _ r) rfl rfl hpid hx

theorem ages_sleep (h : k.Family) (hp : k.cur = some p) (c : Chan) : Ages k (k.sleep p c) :=
  ages_park h hp rfl fun hz => by simp at hz

theorem ages_reparent (p i : Fin NPROC) : Ages k { k with t := k.t.reparent p i } where
  nextpid := le_rfl
  slot r hr := by
    dsimp only at hr ⊢
    rw [reparent_state] at hr
    exact .inl ⟨hr, reparent_pid _ _ _ _, by simp only [Exited, reparent_state]⟩

theorem ages_allocproc_none {t : PTable} {tfOk : Bool} (heq : k.t.allocproc tfOk = (t, none)) :
    Ages k { k with t := t } := by
  obtain ⟨hn, hA⟩ := PTable.allocproc_none heq
  refine ⟨hn, fun r hr => ?_⟩
  dsimp only at hr ⊢
  rw [(hA r).2.1] at hr
  exact .inl ⟨hr, (hA r).2.2 hr, by simp only [Exited, (hA r).2.1]⟩

theorem ages_beginOp (h : k.Family) (hp : k.cur = some p) {retry next : Pc}
    (hr : retry.exiting = (k.pc p).exiting) (hn : next.exiting = (k.pc p).exiting) :
    Ages k (k.beginOp p retry next) := by
  unfold Kernel.beginOp
  split
  · exact (ages_sleep h hp .log).trans (ages_setPc hr)
  · exact (ages_log _).trans (ages_setPc hn)

/-- The end of `exit`: the wakeups and `reparent` keep every slot, and the process, in `exit`,
becomes a zombie. -/
theorem ages_finishExit (h : k.Family) (hp : k.cur = some p) (hx : (k.pc p).exiting = true)
    (hk : k.finishExit p = some k') : Ages k k' := by
  simp only [Kernel.finishExit, Option.bind_eq_bind, Option.bind_eq_some_iff] at hk
  obtain ⟨i, -, par, -, hk⟩ := hk
  cases hk
  have h₁ : Ages k { k with t := k.t.wakeup1 i } := ages_of_same (same_wakeup1 i) fun _ => rfl
  have h₂ : Ages { k with t := k.t.wakeup1 i } { k with t := (k.t.wakeup1 i).reparent p i } :=
    ages_reparent p i
  have h₃ : Ages { k with t := (k.t.wakeup1 i).reparent p i }
      { k with t := ((k.t.wakeup1 i).reparent p i).wakeup1 par } :=
    ages_of_same (same_wakeup1 par) fun _ => rfl
  -- `p` still runs when it becomes a zombie
  have hrun : ((((k.t.wakeup1 i).reparent p i).wakeup1 par).proc p).state = .RUNNING :=
    (same_wakeup1 par).running p (by rw [reparent_state]; exact (same_wakeup1 i).running p (h.cur p hp))
  refine h₁.trans (h₂.trans (h₃.trans (ages_setLive (by rw [hrun]; decide) (by rw [hrun]; decide)
    (fun r => setProc_proc _ _ _ r) rfl rfl rfl fun _ => hx)))

theorem ages_afterCommit (h : k.Family) (hp : k.cur = some p) {exiting : Bool}
    (hx : (k.pc p).exiting = exiting)
    (hk : (if exiting then k.finishExit p else some (k.setPc p .user)) = some k') : Ages k k' := by
  split at hk
  · next he => exact ages_finishExit h hp (hx.trans he) hk
  · next he =>
    cases hk
    exact ages_setPc (by rw [hx, eq_false_of_ne_true he]; rfl)

theorem ages_endCommit (k : Kernel) : Ages k k.endCommit :=
  ages_of_same (same_wakeup .log) fun _ => rfl

theorem ages_endOp (h : k.Family) (hp : k.cur = some p) {exiting : Bool} (hx : (k.pc p).exiting = exiting)
    (hk : k.endOp p exiting = some k') : Ages k k' := by
  unfold Kernel.endOp at hk
  rcases hlock : k.log.endOpLocked with _ | ⟨l, _ | _⟩ <;> simp only [hlock] at hk
  · cases hk
  · have hw : Ages k { k with log := l, t := k.t.wakeup .log } := ages_of_same (same_wakeup .log) fun _ => rfl
    exact hw.trans (ages_afterCommit ((h.log l).of_same (same_wakeup .log) rfl rfl rfl) hp hx hk)
  · split at hk
    · cases hk
      refine (ages_log l).trans ((ages_sleep (h.log l) hp .disk).trans (ages_setPc ?_))
      show (Pc.commit exiting).exiting = (k.pc p).exiting
      rw [hx]
      cases exiting <;> rfl
    · exact ((ages_log l).trans (ages_endCommit _)).trans (ages_afterCommit (h.log l).endCommit hp hx hk)

/-- `fork`: the new process gets `nextpid` and starts outside `exit`; when the copy of the memory
fails its slot is freed again. -/
theorem ages_fork (p : Fin NPROC) (tfOk copyOk : Bool) :
    Ages k (k.fork p tfOk copyOk) := by
  unfold Kernel.fork
  split
  · next t heq => exact ages_allocproc_none heq
  · next t np heq =>
    obtain ⟨-, hnext, hpid, -, -, -⟩ := allocproc_some heq
    have ht := allocproc_setProc heq
    split
    · refine ages_setSlot (ht _) (show k.t.nextpid ≤ t.nextpid by omega)
        (fun r hr => by simp [Kernel.setPc, Function.update_of_ne hr]) fun _ => .inr ⟨?_, ?_⟩
      · show k.t.nextpid ≤ (t.proc np).pid
        omega
      · simp [Exited, Kernel.setPc, Pc.exiting]
    · exact ages_setSlot (ht _) (show k.t.nextpid ≤ t.nextpid by omega) (fun _ _ => rfl)
        fun hu => absurd rfl hu

theorem ages_wait (h : k.Family) (hp : k.cur = some p) : Ages k (k.wait p) := by
  cases hz : k.zombieKid p with
  | some q =>
    rw [wait_of_zombieKid hz]
    exact ages_setSlot (fun r => setProc_proc _ _ _ r) le_rfl (fun _ _ => rfl) fun hu => absurd rfl hu
  | none =>
    rw [wait_of_zombieKid_none hz]
    split
    · exact Ages.refl k
    · exact ages_sleep h hp _

/-- `userinit`: the first process gets `nextpid` and starts outside `exit`. -/
theorem ages_userinit {tfOk : Bool} {t : PTable} (heq : k.t.allocproc tfOk = (t, some p)) :
    Ages k (({ k with t := t.setProc p { t.proc p with state := .RUNNABLE }, initproc := some p } : Kernel).setPc
      p .user) := by
  obtain ⟨-, hnext, hpid, -, -, -⟩ := allocproc_some heq
  refine ages_setSlot (allocproc_setProc heq _) (show k.t.nextpid ≤ t.nextpid by omega)
    (fun r hr => by simp [Kernel.setPc, Function.update_of_ne hr]) fun _ => .inr ⟨?_, ?_⟩
  · show k.t.nextpid ≤ (t.proc p).pid
    omega
  · simp [Exited, Kernel.setPc, Pc.exiting]

/-- The scheduler runs a runnable process; its node moves to the end of its queue. -/
theorem ages_scheduler (hq : (k.t.proc q).state = .RUNNABLE) :
    Ages k { k with t := ((k.t.setProc q { k.t.proc q with state := .RUNNING }).remove_from_prio_queue q
      ).insert_into_prio_queue q, cur := some q } := by
  have h₁ : Ages k { k with t := k.t.setProc q { k.t.proc q with state := .RUNNING }, cur := some q } :=
    ages_setLive (by rw [hq]; decide) (by rw [hq]; decide) (fun r => setProc_proc _ _ _ r) rfl rfl rfl
      fun hz => by simp at hz
  exact h₁.trans (ages_of_same ((same_remove q).trans (same_insert q)) fun _ => rfl)

/-- Every event but `exit`'s first keeps the slots as `Ages` says. -/
theorem ages_step (h : k.Family) {e : Event} (he : e ≠ .exitStart) (hk : k.step e = some k') : Ages k k' := by
  cases e with
  | userinit tfOk =>
    simp only [Kernel.step] at hk
    split at hk
    · cases hk
    · split at hk
      · cases hk
      · next t np heq =>
        cases hk
        exact ages_userinit heq
  | scheduler =>
    simp only [Kernel.step] at hk
    split at hk
    · cases hk
    · obtain ⟨q, hq, rfl⟩ := Option.map_eq_some_iff.mp hk
      obtain ⟨i, -, hf, -⟩ := pick_eq_some hq
      exact ages_scheduler (firstRunnable_eq_some hf).2
  | yield =>
    obtain ⟨q, hq, rfl⟩ := Option.map_eq_some_iff.mp hk
    exact ages_park h hq rfl fun hz => by simp at hz
  | fork tfOk copyOk =>
    obtain ⟨p, -, hk⟩ := Option.bind_eq_some_iff.mp hk
    split at hk
    · cases hk
      exact ages_fork p tfOk copyOk
    · cases hk
  | fsBegin =>
    obtain ⟨p, hp, hk⟩ := Option.bind_eq_some_iff.mp hk
    split at hk
    · next hpc =>
      cases hk
      have hx : (k.pc p).exiting = false := by rcases hpc with hpc | hpc <;> rw [hpc] <;> rfl
      exact ages_beginOp h hp (hx ▸ rfl) (hx ▸ rfl)
    · cases hk
  | exitBegin =>
    obtain ⟨p, hp, hk⟩ := Option.bind_eq_some_iff.mp hk
    split at hk
    · next hpc =>
      cases hk
      exact ages_beginOp h hp (by rw [hpc]) (by rw [hpc]; rfl)
    · cases hk
  | logWrite b =>
    obtain ⟨p, -, hk⟩ := Option.bind_eq_some_iff.mp hk
    split at hk
    · split at hk
      · cases hk
        exact ages_log _
      · cases hk
    · cases hk
  | fsEnd =>
    obtain ⟨p, hp, hk⟩ := Option.bind_eq_some_iff.mp hk
    split at hk
    · next hpc => exact ages_endOp h hp (by rw [hpc]; rfl) hk
    · cases hk
  | exitEnd =>
    obtain ⟨p, hp, hk⟩ := Option.bind_eq_some_iff.mp hk
    split at hk
    · next hpc => exact ages_endOp h hp (by rw [hpc]; rfl) hk
    · cases hk
  | diskIntr =>
    cases hk
    exact ages_of_same (same_wakeup _) fun _ => rfl
  | commitDone =>
    obtain ⟨p, hp, hk⟩ := Option.bind_eq_some_iff.mp hk
    split at hk
    · next exiting hpc =>
      refine (ages_endCommit k).trans (ages_afterCommit h.endCommit hp ?_ hk)
      show (k.pc p).exiting = exiting
      rw [hpc]
      cases exiting <;> rfl
    · cases hk
  | exitStart => exact absurd rfl he
  | wait =>
    obtain ⟨p, hp, hk⟩ := Option.bind_eq_some_iff.mp hk
    split at hk
    · cases hk
      exact ages_wait h hp
    · cases hk
  | nice pid priority =>
    obtain ⟨p, -, hk⟩ := Option.bind_eq_some_iff.mp hk
    split at hk
    · cases hk
      split
      · exact Ages.refl k
      · exact ages_of_same (same_nice pid priority) fun _ => rfl
    · cases hk
  | kill pid =>
    obtain ⟨-, -, rfl⟩ := Option.map_eq_some_iff.mp hk
    exact ages_of_same (same_kill pid) fun _ => rfl

/-- `exit`'s first step: the running process, outside `exit`, enters it; the table keeps its
frame and every other process its place in the code. -/
theorem exitStart_slots (hp : k.cur = some p) (hk : k.step .exitStart = some k') :
    (k.pc p).exiting = false ∧ (k'.pc p).exiting = true ∧ Same k.t k'.t ∧ ∀ r, r ≠ p → k'.pc r = k.pc r := by
  simp only [Kernel.step, hp, Option.bind_some] at hk
  split at hk
  · next hc =>
    cases hk
    refine ⟨by rw [hc.1]; rfl, by simp [Kernel.setPc, Pc.exiting], ?_, fun r hr => by
      simp [Kernel.setPc, Function.update_of_ne hr]⟩
    split
    · exact same_remove p
    · exact Same.refl _
  · cases hk

/-- With `p` running in user space, the kernel's `wait` event is `wait` by `p`. -/
theorem step_wait (hp : k.cur = some p) (hpc : k.pc p = .user) : k.step .wait = some (k.wait p) := by
  simp [Kernel.step, hp, hpc]

end Kernel

/-- The kernel with each slot's `xstate`, the status `exit` leaves for the parent's `wait`. The
model stores it when `exit` starts rather than just before the process becomes a zombie, where the
code does: nothing reads `xstate` in between. -/
structure Life where
  k : Kernel
  xstate : Fin NPROC → Int

/-- The events of `Life`: a kernel event, or `exit` and `wait` with their arguments; `copyOk` is
whether `copyout` of the status to the caller's memory succeeds. -/
inductive LEvent where
  | kernel (e : Event)
  | exit (status : Int)
  | wait (addr : Nat) (copyOk : Bool)
deriving DecidableEq, Repr

/-- What a step shows a user program: the pid and status of an `exit`, and what `wait` returns,
with the address and status it stored when it stored one. -/
inductive Obs where
  | exit (pid : Nat) (status : Int)
  | wait (ret : Int) (store : Option (Nat × Int))
deriving DecidableEq, Repr

namespace Obs

/-- The pid a `wait` returned, when it did not return -1. -/
def reaped : Obs → Option Int
  | .exit _ _ => none
  | .wait ret _ => if ret = -1 then none else some ret

/-- The pid of an `exit`. -/
def exitPid : Obs → Option Nat
  | .exit pid _ => some pid
  | .wait _ _ => none

variable {obs : List Obs} {n : Nat} {s v : Int} {st : Option (Nat × Int)}

theorem reaped_append_exit : (obs ++ [Obs.exit n s]).filterMap reaped = obs.filterMap reaped := by
  simp [reaped]

theorem exitPid_append_exit : (obs ++ [Obs.exit n s]).filterMap exitPid = obs.filterMap exitPid ++ [n] := by
  simp [exitPid]

theorem exitPid_append_wait : (obs ++ [Obs.wait v st]).filterMap exitPid = obs.filterMap exitPid := by
  simp [exitPid]

theorem reaped_append_wait (hv : v ≠ -1) : (obs ++ [Obs.wait v st]).filterMap reaped = obs.filterMap reaped ++ [v] := by
  simp [reaped, hv]

theorem reaped_append_fail : (obs ++ [Obs.wait (-1) st]).filterMap reaped = obs.filterMap reaped := by
  simp [reaped]

end Obs

/-- Every `wait` of a trace that returned a pid comes after an `exit` of that pid, and stored the
status of that `exit` if it stored one. -/
def Waits (obs : List Obs) : Prop :=
  ∀ (o₁ o₂ : List Obs) (v : Int) (st : Option (Nat × Int)), obs = o₁ ++ .wait v st :: o₂ → v ≠ -1 →
    ∃ (n : Nat) (s : Int), v = n ∧ .exit n s ∈ o₁ ∧ ∀ a w, st = some (a, w) → w = s

theorem waits_nil : Waits [] := by
  unfold Waits
  intro o₁ o₂ v st h
  simp at h

/-- A trace grows by one: only the new `wait`, if it returned a pid, needs its `exit`. -/
theorem Waits.append {obs : List Obs} {o : Obs} (h : Waits obs)
    (ho : ∀ v st, o = .wait v st → v ≠ -1 →
      ∃ (n : Nat) (s : Int), v = n ∧ .exit n s ∈ obs ∧ ∀ a w, st = some (a, w) → w = s) :
    Waits (obs ++ [o]) := by
  unfold Waits
  intro o₁ o₂ v st he hv
  rcases List.eq_nil_or_concat' o₂ with rfl | ⟨o₂', x, rfl⟩
  · -- the `wait` is `o`
    obtain ⟨rfl, ho'⟩ := List.append_inj' he rfl
    exact ho v st (List.singleton_inj.mp ho') hv
  · have he' : obs ++ [o] = (o₁ ++ .wait v st :: o₂') ++ [x] := by simpa using he
    exact h o₁ o₂' v st (List.append_inj' he' rfl).1 hv

namespace Life

variable {l l' : Life} {obs : List Obs} {p q : Fin NPROC}

/-- After boot: no process, every status 0. -/
def boot : Life := ⟨Kernel.boot, fun _ => 0⟩

/-- `wait(addr)` by `p`: reap the first zombie child, storing its status at `addr` unless `addr`
is 0, and return its pid; return -1 when `copyout` fails, leaving the zombie in place; with no
zombie child, return -1 when `p` has no children or has been killed, and sleep otherwise. -/
def wait (l : Life) (p : Fin NPROC) (addr : Nat) (copyOk : Bool) : Life × Option Obs :=
  match l.k.zombieKid p with
  | some q =>
    if addr ≠ 0 ∧ copyOk = false then (l, some (.wait (-1) none))
    -- `freeproc` sets `xstate` to 0
    else (⟨l.k.wait p, Function.update l.xstate q 0⟩,
      some (.wait (l.k.t.proc q).pid (if addr = 0 then none else some (addr, l.xstate q))))
  | none =>
    if (l.k.kids p).isEmpty ∨ (l.k.t.proc p).killed then (l, some (.wait (-1) none))
    else (⟨l.k.wait p, l.xstate⟩, none)

/-- One event, from the running process where it is a system call, with what it shows. -/
def step (l : Life) : LEvent → Option (Life × Option Obs)
  | .kernel e =>
    -- `exit` and `wait` come with their arguments
    if e = .exitStart ∨ e = .wait then none
    else (l.k.step e).map fun k => (⟨k, l.xstate⟩, none)
  | .exit status => l.k.cur.bind fun p =>
    (l.k.step .exitStart).map fun k =>
      (⟨k, Function.update l.xstate p status⟩, some (.exit (l.k.t.proc p).pid status))
  | .wait addr copyOk => l.k.cur.bind fun p =>
    if l.k.pc p = .user then some (l.wait p addr copyOk) else none

/-- A run of events with all it shows; `none` once an event cannot happen. -/
def run (l : Life) : List LEvent → Option (Life × List Obs)
  | [] => some (l, [])
  | e :: es => (l.step e).bind fun r => (r.1.run es).map fun r' => (r'.1, r.2.toList ++ r'.2)

/-- What a trace `obs` of a run to `l` leaves behind. -/
structure Ledger (l : Life) (obs : List Obs) : Prop where
  family : l.k.Family
  /-- every pid a `wait` returned is below `nextpid`, belongs to no process in use, and was
  returned once -/
  reaped_lt : ∀ v ∈ obs.filterMap Obs.reaped, v < l.k.t.nextpid
  reaped_gone : ∀ r, (l.k.t.proc r).state ≠ .UNUSED → ((l.k.t.proc r).pid : Int) ∉ obs.filterMap Obs.reaped
  reaped_nodup : (obs.filterMap Obs.reaped).Nodup
  /-- every pid that called `exit` is below `nextpid`, and called it once -/
  exit_lt : ∀ n ∈ obs.filterMap Obs.exitPid, n < l.k.t.nextpid
  exit_nodup : (obs.filterMap Obs.exitPid).Nodup
  /-- a process in use that has called `exit` shows its `exit`, with its `xstate` -/
  exited : ∀ r, (l.k.t.proc r).state ≠ .UNUSED → l.k.Exited r → .exit (l.k.t.proc r).pid (l.xstate r) ∈ obs
  /-- and one that has not shows none -/
  fresh : ∀ r, (l.k.t.proc r).state ≠ .UNUSED → ¬ l.k.Exited r → (l.k.t.proc r).pid ∉ obs.filterMap Obs.exitPid
  waits : Waits obs

theorem ledger_boot : Ledger boot [] where
  family := Kernel.family_boot
  reaped_lt _ h := by simp at h
  reaped_gone _ h := absurd rfl h
  reaped_nodup := List.nodup_nil
  exit_lt _ h := by simp at h
  exit_nodup := List.nodup_nil
  exited _ h := absurd rfl h
  fresh _ h := absurd rfl h
  waits := waits_nil

/-- A kernel step other than `exit`'s first, which shows nothing and keeps `xstate`. -/
theorem Ledger.kernel (h : Ledger l obs) {e : Event} (he : e ≠ .exitStart) (hk : l.k.step e = some l'.k)
    (hx : l'.xstate = l.xstate) : Ledger l' obs := by
  have ha := Kernel.ages_step h.family he hk
  refine ⟨h.family.step hk, fun v hv => lt_of_lt_of_le (h.reaped_lt v hv) (by exact_mod_cast ha.nextpid),
    fun r hr => ?_, h.reaped_nodup, fun n hn => lt_of_lt_of_le (h.exit_lt n hn) ha.nextpid, h.exit_nodup,
    fun r hr hxr => ?_, fun r hr hxr => ?_, h.waits⟩
  · rcases ha.slot r hr with ⟨hr₀, hpid, -⟩ | ⟨hn, -⟩
    · rw [hpid]
      exact h.reaped_gone r hr₀
    · -- a new pid is at least the old `nextpid`, above every pid returned
      exact fun hv => absurd (h.reaped_lt _ hv) (by omega)
  · rcases ha.slot r hr with ⟨hr₀, hpid, hiff⟩ | ⟨-, hnx⟩
    · rw [hpid, hx]
      exact h.exited r hr₀ (hiff.mp hxr)
    · exact absurd hxr hnx
  · rcases ha.slot r hr with ⟨hr₀, hpid, hiff⟩ | ⟨hn, -⟩
    · rw [hpid]
      exact h.fresh r hr₀ (mt hiff.mpr hxr)
    · exact fun hm => absurd (h.exit_lt _ hm) (by omega)

/-- `exit(status)` by `p`: its pid shows its first `exit`, with the status it keeps in `xstate`. -/
theorem Ledger.exit (h : Ledger l obs) {status : Int} (hp : l.k.cur = some p)
    (hk : l.k.step .exitStart = some l'.k) (hx : l'.xstate = Function.update l.xstate p status) :
    Ledger l' (obs ++ [.exit (l.k.t.proc p).pid status]) := by
  obtain ⟨hpx, hpx', hs, hpc⟩ := Kernel.exitStart_slots hp hk
  have hpu := (h.family.cur_live hp).1
  -- every other process keeps whether it has called `exit`
  have hiff : ∀ r, r ≠ p → (l'.k.Exited r ↔ l.k.Exited r) := fun r hr => by
    rw [Kernel.Exited, Kernel.Exited, hpc r hr, hs.zombie r]
  have hpn : ¬ l.k.Exited p := by
    rw [Kernel.Exited, hpx, h.family.cur p hp]
    simp
  refine ⟨h.family.step hk, fun v hv => ?_, fun r hr => ?_, ?_, fun n hn => ?_, ?_, fun r hr hxr => ?_,
    fun r hr hxr => ?_, ?_⟩
  · rw [Obs.reaped_append_exit] at hv
    rw [hs.nextpid]
    exact h.reaped_lt v hv
  · rw [Obs.reaped_append_exit, hs.pid]
    exact h.reaped_gone r ((hs.unused r).not.mp hr)
  · rw [Obs.reaped_append_exit]
    exact h.reaped_nodup
  · rw [Obs.exitPid_append_exit, List.mem_append, List.mem_singleton] at hn
    rw [hs.nextpid]
    rcases hn with hn | rfl
    · exact h.exit_lt n hn
    · exact (h.family.pid_lt p hpu).2
  · rw [Obs.exitPid_append_exit]
    exact List.nodup_append.mpr ⟨h.exit_nodup, List.nodup_singleton _, fun a ha b hb he => by
      rw [List.mem_singleton] at hb
      exact h.fresh p hpu hpn (by rw [← hb, ← he]; exact ha)⟩
  · rw [hs.pid, hx]
    by_cases hrp : r = p
    · subst hrp
      rw [Function.update_self]
      exact List.mem_append_right _ (List.mem_singleton_self _)
    · rw [Function.update_of_ne hrp]
      exact List.mem_append_left _ (h.exited r ((hs.unused r).not.mp hr) ((hiff r hrp).mp hxr))
  · have hrp : r ≠ p := fun he => hxr (he ▸ .inl hpx')
    have hru := (hs.unused r).not.mp hr
    rw [hs.pid, Obs.exitPid_append_exit, List.mem_append, List.mem_singleton, not_or]
    exact ⟨h.fresh r hru (mt (hiff r hrp).mpr hxr), fun he => hrp (h.family.pid_inj r p hru hpu he)⟩
  · exact h.waits.append fun v st he => by cases he

/-- `wait` reaps the zombie child `q`: its pid, returned once, is gone for good, and the status
`wait` stored, if any, is that of its `exit`. -/
theorem Ledger.reap (h : Ledger l obs) (hp : l.k.cur = some p) (hpc : l.k.pc p = .user)
    (hz : l.k.zombieKid p = some q) (hk : l'.k = l.k.wait p) (hx : l'.xstate = Function.update l.xstate q 0)
    {st : Option (Nat × Int)} (hst : ∀ a w, st = some (a, w) → w = l.xstate q) :
    Ledger l' (obs ++ [.wait (l.k.t.proc q).pid st]) := by
  have hq := Kernel.zombieKid_some hz
  have hqu : (l.k.t.proc q).state ≠ .UNUSED := by rw [hq.2]; decide
  have ht : l'.k.t = l.k.t.freeproc q := by rw [hk, Kernel.wait_of_zombieKid hz]
  have hpc' : l'.k.pc = l.k.pc := by rw [hk, Kernel.wait_of_zombieKid hz]
  -- a process in use after the step is one of before, other than `q`
  have hr' : ∀ r, (l'.k.t.proc r).state ≠ .UNUSED → r ≠ q ∧ l'.k.t.proc r = l.k.t.proc r := fun r hr => by
    rw [ht, freeproc, setProc_proc] at hr ⊢
    split_ifs at hr ⊢ with hrq
    · exact absurd rfl hr
    · exact ⟨hrq, rfl⟩
  have hex : ∀ r, r ≠ q → l'.k.t.proc r = l.k.t.proc r → (l'.k.Exited r ↔ l.k.Exited r) := fun r _ he => by
    rw [Kernel.Exited, Kernel.Exited, hpc', he]
  have hv : ((l.k.t.proc q).pid : Int) ≠ -1 := by omega
  refine ⟨h.family.step (hk ▸ Kernel.step_wait hp hpc), fun v hv' => ?_, fun r hr => ?_, ?_, fun n hn => ?_,
    ?_, fun r hr hxr => ?_, fun r hr hxr => ?_, h.waits.append fun v st' he hv'' => ?_⟩
  · rw [Obs.reaped_append_wait hv, List.mem_append, List.mem_singleton] at hv'
    rw [ht]
    rcases hv' with hv' | rfl
    · exact h.reaped_lt v hv'
    · exact_mod_cast (h.family.pid_lt q hqu).2
  · obtain ⟨hrq, he⟩ := hr' r hr
    rw [Obs.reaped_append_wait hv, List.mem_append, List.mem_singleton, not_or, he]
    have hru : (l.k.t.proc r).state ≠ .UNUSED := he ▸ hr
    exact ⟨h.reaped_gone r hru, fun hpid => hrq (h.family.pid_inj r q hru hqu (by exact_mod_cast hpid))⟩
  · rw [Obs.reaped_append_wait hv]
    exact List.nodup_append.mpr ⟨h.reaped_nodup, List.nodup_singleton _, fun a ha b hb he => by
      rw [List.mem_singleton] at hb
      exact h.reaped_gone q hqu (by rw [← hb, ← he]; exact ha)⟩
  · rw [Obs.exitPid_append_wait] at hn
    rw [ht]
    exact h.exit_lt n hn
  · rw [Obs.exitPid_append_wait]
    exact h.exit_nodup
  · obtain ⟨hrq, he⟩ := hr' r hr
    rw [he, hx, Function.update_of_ne hrq]
    exact List.mem_append_left _ (h.exited r (he ▸ hr) ((hex r hrq he).mp hxr))
  · obtain ⟨hrq, he⟩ := hr' r hr
    rw [he, Obs.exitPid_append_wait]
    exact h.fresh r (he ▸ hr) (mt (hex r hrq he).mpr hxr)
  · -- the stored status is `xstate q`, which the ledger ties to `q`'s `exit`
    cases he
    exact ⟨_, _, rfl, h.exited q hqu (.inr hq.2), fun a w hw => hst a w hw⟩

/-- `wait` returns -1 and changes nothing. -/
theorem Ledger.fail (h : Ledger l obs) : Ledger l (obs ++ [.wait (-1) none]) where
  family := h.family
  reaped_lt := by
    rw [Obs.reaped_append_fail]
    exact h.reaped_lt
  reaped_gone := by
    rw [Obs.reaped_append_fail]
    exact h.reaped_gone
  reaped_nodup := by
    rw [Obs.reaped_append_fail]
    exact h.reaped_nodup
  exit_lt := by
    rw [Obs.exitPid_append_wait]
    exact h.exit_lt
  exit_nodup := by
    rw [Obs.exitPid_append_wait]
    exact h.exit_nodup
  exited r hr hxr := List.mem_append_left _ (h.exited r hr hxr)
  fresh := by
    rw [Obs.exitPid_append_wait]
    exact h.fresh
  waits := h.waits.append fun v st he hv => by
    cases he
    exact absurd rfl hv

theorem Ledger.step (h : Ledger l obs) {e : LEvent} {o : Option Obs} (hl : l.step e = some (l', o)) :
    Ledger l' (obs ++ o.toList) := by
  cases e with
  | kernel e =>
    simp only [Life.step] at hl
    split at hl
    · cases hl
    · next he =>
      obtain ⟨k', hk, hl⟩ := Option.map_eq_some_iff.mp hl
      cases hl
      have hk' : Ledger ⟨k', l.xstate⟩ obs := h.kernel (fun h' => he (.inl h')) hk rfl
      simpa using hk'
  | exit status =>
    obtain ⟨p, hp, hl⟩ := Option.bind_eq_some_iff.mp hl
    obtain ⟨k', hk, hl⟩ := Option.map_eq_some_iff.mp hl
    cases hl
    exact h.exit hp hk rfl
  | wait addr copyOk =>
    obtain ⟨p, hp, hl⟩ := Option.bind_eq_some_iff.mp hl
    split at hl
    · next hpc =>
      have hw := Option.some.inj hl
      unfold Life.wait at hw
      split at hw
      · next q hz =>
        split at hw
        · cases hw
          exact h.fail
        · cases hw
          refine h.reap hp hpc hz rfl rfl fun a w hw => ?_
          split at hw
          · cases hw
          · cases hw
            rfl
      · split at hw
        · cases hw
          exact h.fail
        · cases hw
          have hk : Ledger ⟨l.k.wait p, l.xstate⟩ obs := h.kernel (by decide) (Kernel.step_wait hp hpc) rfl
          simpa using hk
    · cases hl

theorem Ledger.run (h : Ledger l obs) {es : List LEvent} {os : List Obs} (hr : l.run es = some (l', os)) :
    Ledger l' (obs ++ os) := by
  induction es generalizing l obs os with
  | nil =>
    cases hr
    simpa using h
  | cons e es ih =>
    simp only [run, Option.bind_eq_some_iff, Option.map_eq_some_iff, Prod.mk.injEq] at hr
    obtain ⟨⟨l₁, o⟩, h₁, ⟨l₂, os'⟩, h₂, rfl, rfl⟩ := hr
    have h₂' : l₁.run es = some (l₂, os') := h₂
    simpa using ih (h.step h₁) h₂'

/-- What `wait(addr)` by `p` does from `l` to `l'`, showing `o`: it reaps a zombie child, returns
its pid, stores its status at `addr` unless `addr` is 0, and frees its slot; or it returns -1 and
changes nothing, when no child is a zombie and `p` has no children or has been killed, or when the
status cannot be stored; or, with children but none a zombie, it sleeps. -/
def WaitSpec (l : Life) (p : Fin NPROC) (addr : Nat) (copyOk : Bool) (l' : Life) (o : Option Obs) : Prop :=
  (∃ q, (l.k.t.proc q).parent = some p ∧ (l.k.t.proc q).state = .ZOMBIE ∧ (addr = 0 ∨ copyOk = true) ∧
      o = some (.wait (l.k.t.proc q).pid (if addr = 0 then none else some (addr, l.xstate q))) ∧
      (l'.k.t.proc q).state = .UNUSED) ∨
  (l' = l ∧ o = some (.wait (-1) none) ∧
    ((∀ q, (l.k.t.proc q).parent = some p → (l.k.t.proc q).state ≠ .ZOMBIE) ∧
        ((∀ q, (l.k.t.proc q).parent ≠ some p) ∨ (l.k.t.proc p).killed = true) ∨
      (∃ q, (l.k.t.proc q).parent = some p ∧ (l.k.t.proc q).state = .ZOMBIE) ∧ addr ≠ 0 ∧ copyOk = false)) ∨
  (o = none ∧ (∀ q, (l.k.t.proc q).parent = some p → (l.k.t.proc q).state ≠ .ZOMBIE) ∧
    (∃ q, (l.k.t.proc q).parent = some p) ∧ (l.k.t.proc p).killed = false ∧ (l'.k.t.proc p).state = .SLEEPING)

theorem wait_spec {addr : Nat} {copyOk : Bool} {o : Option Obs} (hp : l.k.cur = some p)
    (hw : l.step (.wait addr copyOk) = some (l', o)) : l.WaitSpec p addr copyOk l' o := by
  simp only [Life.step, hp, Option.bind_some] at hw
  split at hw
  · have hw := Option.some.inj hw
    unfold Life.wait at hw
    cases hz : l.k.zombieKid p with
    | some q =>
      obtain ⟨hpar, hzom⟩ := Kernel.zombieKid_some hz
      simp only [hz] at hw
      by_cases hc : addr ≠ 0 ∧ copyOk = false
      · -- `copyout` fails
        rw [if_pos hc] at hw
        cases hw
        exact .inr (.inl ⟨rfl, rfl, .inr ⟨⟨q, hpar, hzom⟩, hc⟩⟩)
      · rw [if_neg hc] at hw
        cases hw
        refine .inl ⟨q, hpar, hzom, ?_, rfl, ?_⟩
        · by_cases ha : addr = 0
          · exact .inl ha
          · exact .inr (by simpa [ha] using hc)
        · show ((l.k.wait p).t.proc q).state = .UNUSED
          rw [Kernel.wait_of_zombieKid hz]
          simp [freeproc, Proc.unused]
    | none =>
      have hnz := fun q (hq : (l.k.t.proc q).parent = some p) => Kernel.zombieKid_none hz hq
      simp only [hz] at hw
      split_ifs at hw with hc
      · cases hw
        refine .inr (.inl ⟨rfl, rfl, .inl ⟨hnz, ?_⟩⟩)
        rcases hc with hc | hc
        · exact .inl (Kernel.kids_isEmpty.mp hc)
        · exact .inr hc
      · cases hw
        rw [not_or, Kernel.kids_isEmpty, Bool.not_eq_true] at hc
        refine .inr (.inr ⟨rfl, hnz, ?_, hc.2, ?_⟩)
        · by_contra hno
          exact hc.1 fun q hq => hno ⟨q, hq⟩
        · show ((l.k.wait p).t.proc p).state = .SLEEPING
          rw [Kernel.wait_of_zombieKid_none hz, if_neg (by rw [Kernel.kids_isEmpty, hc.2]; simpa using hc.1)]
          simp [Kernel.sleep]
  · cases hw

end Life

end Xv6
