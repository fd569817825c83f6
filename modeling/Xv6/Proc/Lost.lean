import Xv6.Proc.Queues

/-!
# Runnable processes the scheduler never finds

`pick_highest_priority_runnable_proc` scans the queues, not the process table,
so a runnable process is scheduled only through its node. `Queued` says that
every runnable process has one. A runnable process without a node is `Lost`,
and stays so: every event either looks for processes along the queues or by
state, or changes only the running process, the one it frees or the one it
allocates (`Kernel.Lost.run`). `exit` leaves its queue before its `begin_op`,
which may sleep, and the wakeup that ends the sleep loses the process:
`exit_sleep_loses_process`.
-/

namespace Xv6

namespace PTable

/-- Every runnable process has a node in the queue of its priority. -/
def Queued (t : PTable) : Prop :=
  ∀ p, (t.proc p).state = .RUNNABLE → p ∈ t.prio (t.proc p).priority

/-- `p` is runnable and has no node. -/
def Lost (t : PTable) (p : Fin NPROC) : Prop := (t.proc p).state = .RUNNABLE ∧ t.NoNode p

variable {t t' : PTable} {p q : Fin NPROC}

theorem Lost.setProc (h : t.Lost p) (hq : q ≠ p) (x : Proc) : (t.setProc q x).Lost p := by
  refine ⟨?_, h.2.setProc q x⟩
  rw [setProc_proc_of_ne _ hq.symm]
  exact h.1

theorem Lost.insert (h : t.Lost p) (hq : q ≠ p) : (t.insert_into_prio_queue q).Lost p :=
  ⟨h.1, h.2.insert hq.symm⟩

theorem Lost.remove (h : t.Lost p) (q : Fin NPROC) : (t.remove_from_prio_queue q).Lost p :=
  ⟨h.1, h.2.remove q⟩

theorem Lost.wakeup (h : t.Lost p) (c : Chan) : (t.wakeup c).Lost p := by
  refine ⟨?_, h.2⟩
  simp only [PTable.wakeup]
  split_ifs <;> simp [h.1]

theorem Lost.wakeup1 (h : t.Lost p) (q : Fin NPROC) : (t.wakeup1 q).Lost p := by
  unfold PTable.wakeup1
  split_ifs with hq
  · by_cases hqp : q = p
    · subst hqp
      exact absurd hq.2 (by rw [h.1]; decide)
    · exact h.setProc hqp _
  · exact h

theorem Lost.reparent (h : t.Lost p) (q i : Fin NPROC) : (t.reparent q i).Lost p := by
  refine ⟨?_, h.2⟩
  simp only [PTable.reparent]
  split_ifs <;> simp [h.1]

/-- `allocproc` takes an unused slot, never the runnable `p`. -/
theorem Lost.allocproc (h : t.Lost p) {tfOk : Bool} {o : Option (Fin NPROC)}
    (heq : t.allocproc tfOk = (t', o)) : t'.Lost p := by
  unfold PTable.allocproc at heq
  split at heq
  · cases heq
    exact h
  · next q hq =>
    have hqp : q ≠ p := by
      rintro rfl
      have := List.find?_some hq
      simp [h.1] at this
    have h₁ : Lost { t.setProc q { t.proc q with pid := t.nextpid } with nextpid := t.nextpid + 1 } p :=
      h.setProc hqp _
    split at heq <;> cases heq
    · exact (h₁.setProc hqp _).insert hqp
    · exact h₁

theorem Lost.ne_of_mem (h : t.Lost p) {i : Nat} (hi : i < NPRIO) (hq : q ∈ t.prio i) : q ≠ p :=
  h.2.ne hi hq

/-- `nice` finds a process through its node, never `p`. -/
theorem Lost.nice (h : t.Lost p) (pid priority : Nat) : (t.nice pid priority).1.Lost p := by
  unfold PTable.nice
  split
  · exact h
  · next q hq =>
    obtain ⟨i, hi, hmem⟩ := mem_of_findPid hq
    have hqp := h.ne_of_mem hi hmem
    exact ((h.remove q).setProc hqp _).insert hqp

/-- `kill` marks a process killed; a runnable one stays runnable. -/
theorem Lost.kill (h : t.Lost p) (pid : Nat) : (t.kill pid).1.Lost p := by
  unfold PTable.kill
  split
  · exact h
  · next q _ =>
    by_cases hqp : q = p
    · subst hqp
      refine ⟨?_, h.2⟩
      simp [h.1]
    · exact h.setProc hqp _

end PTable

namespace Kernel

/-- `p` is lost and not the running process. -/
def Lost (k : Kernel) (p : Fin NPROC) : Prop := k.t.Lost p ∧ k.cur ≠ some p

variable {k k' : Kernel} {p q : Fin NPROC}

theorem Lost.ne_of_unused (h : k.Lost p) (hq : (k.t.proc q).state = .UNUSED) : q ≠ p := by
  rintro rfl
  rw [h.1.1] at hq
  cases hq

theorem Lost.cur_ne (h : k.Lost p) (hcur : k.cur = some q) : q ≠ p :=
  fun hqp => h.2 (hqp ▸ hcur)

theorem Lost.sleep (h : k.Lost p) (hq : q ≠ p) (c : Chan) : (k.sleep q c).Lost p :=
  ⟨h.1.setProc hq _, fun hc => Option.some_ne_none _ hc.symm⟩

theorem Lost.beginOp (h : k.Lost p) (hq : q ≠ p) (retry next : Pc) :
    (k.beginOp q retry next).Lost p := by
  unfold Kernel.beginOp
  split
  · exact h.sleep hq _
  · exact h

theorem Lost.endCommit (h : k.Lost p) : k.endCommit.Lost p := ⟨h.1.wakeup _, h.2⟩

theorem Lost.finishExit (h : k.Lost p) (hq : q ≠ p) (hk : k.finishExit q = some k') :
    k'.Lost p := by
  simp only [Kernel.finishExit, Option.bind_eq_bind, Option.bind_eq_some_iff] at hk
  obtain ⟨i, -, parent, -, hk⟩ := hk
  cases hk
  exact ⟨(((h.1.wakeup1 i).reparent q i).wakeup1 parent).setProc hq _, fun hc => Option.some_ne_none _ hc.symm⟩

/-- What follows a commit or a transaction without one: `exit` finishes, any
other call returns. -/
theorem Lost.afterCommit (h : k.Lost p) (hq : q ≠ p) (exiting : Bool)
    (hk : (if exiting then k.finishExit q else some (k.setPc q .user)) = some k') : k'.Lost p := by
  split at hk
  · exact h.finishExit hq hk
  · cases hk
    exact h

theorem Lost.endOp (h : k.Lost p) (hq : q ≠ p) {exiting : Bool} (hk : k.endOp q exiting = some k') :
    k'.Lost p := by
  have hl : ∀ l : Log, ({ k with log := l } : Kernel).Lost p := fun _ => h
  have hw : ∀ l : Log, ({ k with log := l, t := k.t.wakeup .log } : Kernel).Lost p := fun _ =>
    ⟨h.1.wakeup _, h.2⟩
  unfold Kernel.endOp at hk
  split at hk
  · cases hk
  · exact (hw _).afterCommit hq exiting hk
  · split at hk
    · cases hk
      exact (hl _).sleep hq _
    · exact (hl _).endCommit.afterCommit hq exiting hk

theorem Lost.fork (h : k.Lost p) (tfOk copyOk : Bool) : (k.fork q tfOk copyOk).Lost p := by
  unfold Kernel.fork
  split
  · next t heq => exact ⟨h.1.allocproc heq, h.2⟩
  · next t np heq =>
    have hnp : np ≠ p := h.ne_of_unused (PTable.allocproc_unused heq)
    have ha := h.1.allocproc heq
    split
    · exact ⟨ha.setProc hnp _, h.2⟩
    · exact ⟨ha.setProc hnp _, h.2⟩

theorem Lost.wait (h : k.Lost p) (hq : q ≠ p) : (k.wait q).Lost p := by
  unfold Kernel.wait
  dsimp only
  split
  · next z hz =>
    have hzp : z ≠ p := by
      rintro rfl
      have := List.find?_some hz
      simp [h.1.1] at this
    exact ⟨h.1.setProc hzp _, h.2⟩
  · split
    · exact h
    · exact h.sleep hq _

/-- The scheduler's rotation of the queue it picked from. -/
theorem Lost.pick_ne (h : k.Lost p) (hq : k.t.pick_highest_priority_runnable_proc = some q) :
    q ≠ p := by
  obtain ⟨i, hi, hmem⟩ := PTable.mem_of_pick hq
  exact h.1.ne_of_mem hi hmem

theorem Lost.scheduler (h : k.Lost p) (hq : k.t.pick_highest_priority_runnable_proc = some q)
    (x : Proc) : ((k.t.setProc q x).remove_from_prio_queue q).insert_into_prio_queue q |>.Lost p :=
  ((h.1.setProc (h.pick_ne hq) x).remove q).insert (h.pick_ne hq)

/-- No event finds a lost process: the scheduler, `nice` and `kill` look for
processes along the queues or by state, and every other event changes the
running process, the one it frees or the one it allocates. -/
theorem Lost.step (h : k.Lost p) {e : Event} (hk : k.step e = some k') : k'.Lost p := by
  cases e with
  | userinit tfOk =>
    simp only [Kernel.step] at hk
    split at hk
    · cases hk
    split at hk
    · cases hk
    · next t np heq =>
      cases hk
      have hnp : np ≠ p := h.ne_of_unused (PTable.allocproc_unused heq)
      exact ⟨(h.1.allocproc heq).setProc hnp _, h.2⟩
  | scheduler =>
    simp only [Kernel.step] at hk
    split at hk
    · cases hk
    obtain ⟨q, hq, rfl⟩ := Option.map_eq_some_iff.mp hk
    exact ⟨h.scheduler hq _, fun hc => h.pick_ne hq (Option.some.inj hc)⟩
  | yield =>
    obtain ⟨q, hcur, rfl⟩ := Option.map_eq_some_iff.mp hk
    exact ⟨h.1.setProc (h.cur_ne hcur) _, fun hc => Option.some_ne_none _ hc.symm⟩
  | kill pid =>
    obtain ⟨q, -, rfl⟩ := Option.map_eq_some_iff.mp hk
    exact ⟨h.1.kill pid, h.2⟩
  | diskIntr =>
    cases hk
    exact ⟨h.1.wakeup _, h.2⟩
  | fork tfOk copyOk =>
    obtain ⟨q, -, hk⟩ := Option.bind_eq_some_iff.mp hk
    split at hk
    · cases hk
      exact h.fork tfOk copyOk
    · cases hk
  | fsBegin =>
    obtain ⟨q, hcur, hk⟩ := Option.bind_eq_some_iff.mp hk
    split at hk
    · cases hk
      exact h.beginOp (h.cur_ne hcur) _ _
    · cases hk
  | exitBegin =>
    obtain ⟨q, hcur, hk⟩ := Option.bind_eq_some_iff.mp hk
    split at hk
    · cases hk
      exact h.beginOp (h.cur_ne hcur) _ _
    · cases hk
  | logWrite b =>
    obtain ⟨q, -, hk⟩ := Option.bind_eq_some_iff.mp hk
    split at hk
    · split at hk
      · cases hk
        exact h
      · cases hk
    · cases hk
  | fsEnd =>
    obtain ⟨q, hcur, hk⟩ := Option.bind_eq_some_iff.mp hk
    split at hk
    · exact h.endOp (h.cur_ne hcur) hk
    · cases hk
  | exitEnd =>
    obtain ⟨q, hcur, hk⟩ := Option.bind_eq_some_iff.mp hk
    split at hk
    · exact h.endOp (h.cur_ne hcur) hk
    · cases hk
  | commitDone =>
    obtain ⟨q, hcur, hk⟩ := Option.bind_eq_some_iff.mp hk
    dsimp only at hk
    split at hk
    · exact h.endCommit.afterCommit (h.cur_ne hcur) _ hk
    · cases hk
  | exitStart =>
    obtain ⟨q, -, hk⟩ := Option.bind_eq_some_iff.mp hk
    dsimp only at hk
    split at hk
    · cases hk
      refine ⟨?_, h.2⟩
      split
      · exact h.1.remove q
      · exact h.1
    · cases hk
  | wait =>
    obtain ⟨q, hcur, hk⟩ := Option.bind_eq_some_iff.mp hk
    split at hk
    · cases hk
      exact h.wait (h.cur_ne hcur)
    · cases hk
  | nice pid priority =>
    obtain ⟨q, -, hk⟩ := Option.bind_eq_some_iff.mp hk
    split at hk
    · cases hk
      split
      · exact h
      · exact ⟨h.1.nice pid priority, h.2⟩
    · cases hk

/-- A lost process stays lost along every later run: it stays runnable and
never runs again. -/
theorem Lost.run (h : k.Lost p) {es : List Event} (hk : k.run es = some k') : k'.Lost p := by
  induction es generalizing k with
  | nil =>
    cases hk
    exact h
  | cons e es ih =>
    obtain ⟨k₁, h₁, hk⟩ := Option.bind_eq_some_iff.mp hk
    exact ih (h.step h₁) hk

end Kernel

/-- `exit` leaves its queue before its `begin_op`, which may sleep; the wakeup
at the end of the commit makes the process runnable with no node, and from
then on no run selects it. -/
theorem exit_sleep_loses_process :
    ∃ k : Kernel, k.Reachable ∧ (k.t.proc 1).state = .RUNNABLE ∧ ¬ k.t.Queued ∧
      ∀ es k', k.run es = some k' → (k'.t.proc 1).state = .RUNNABLE ∧ k'.cur ≠ some 1 := by
  have key : (Kernel.run Kernel.boot [.userinit true, .scheduler, .fork true true, .fsBegin,
      .logWrite 100, .fsEnd, .scheduler, .exitStart, .exitBegin, .diskIntr, .scheduler,
      .commitDone]).map (fun k => decide ((k.t.proc 1).state = .RUNNABLE ∧
        (∀ i < NPRIO, (1 : Fin NPROC) ∉ k.t.prio i) ∧ k.cur ≠ some 1 ∧
        (k.t.proc 1).priority < NPRIO)) = some true := by
    decide
  obtain ⟨k, hk, hfacts⟩ := Option.map_eq_some_iff.mp key
  obtain ⟨hrun, hnone, hcur, hprio⟩ := of_decide_eq_true hfacts
  have hlost : k.Lost 1 := ⟨⟨hrun, hnone⟩, hcur⟩
  refine ⟨k, ⟨_, hk⟩, hrun, fun hq => hnone _ hprio (hq 1 hrun), fun es k' hk' => ?_⟩
  have h' := hlost.run hk'
  exact ⟨h'.1.1, h'.2⟩

end Xv6
