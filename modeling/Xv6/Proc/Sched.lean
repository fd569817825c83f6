import Xv6.Proc.Queues

/-!
# Strict priorities, round robin within a level

`pick_highest_priority_runnable_proc` walks `prio[0]`, `prio[1]`, … and
returns the first runnable process it meets; the scheduler then moves that
process's node to the end of its list, and `nice` moves a process's node to the
end of the list of its new priority.

`SchedInv` names the priority-queue invariants these rely on: the queues are
well formed (`QueuesWF`), every priority names a queue, every runnable process
has a node in the queue of its priority, and no two queued processes share a
pid. Under it:

* the scheduler runs a runnable process of the smallest priority index present,
  the first runnable one in its queue (`SchedInv.pick`), and afterwards that
  queue is the old one with the node moved to its tail (`prio_requeue`);
* `nice(pid, pr)` moves exactly the queued process with the pid to the tail of
  `prio[pr]` (`SchedInv.nice`), or returns `-1` and changes nothing when no
  queued process has it (`findPid_eq_none`).

`Xv6.Proc.Prio` carries these to the queues in memory.
-/

namespace Xv6

/-- The first index below `n` where `g ∘ f` has a value, found by `findSome?`
over `f 0, f 1, …, f (n - 1)`. -/
theorem findSome?_map_range_eq_some {β γ : Type} {f : Nat → β} {g : β → Option γ} {c : γ} {n : Nat}
    (h : ((List.range n).map f).findSome? g = some c) :
    ∃ i < n, g (f i) = some c ∧ ∀ j < i, g (f j) = none := by
  induction n with
  | zero => simp at h
  | succ n ih =>
    rw [List.range_succ, List.map_append, List.findSome?_append] at h
    cases hpre : ((List.range n).map f).findSome? g with
    | some c' =>
      rw [hpre, Option.some_or] at h
      obtain ⟨i, hi, hgi, hmin⟩ := ih (hpre.trans h)
      exact ⟨i, by omega, hgi, hmin⟩
    | none =>
      rw [hpre, Option.none_or] at h
      have hnone := List.findSome?_eq_none_iff.mp hpre
      refine ⟨n, by omega, by simpa using h, fun j hj => ?_⟩
      exact hnone (f j) (List.mem_map.mpr ⟨j, List.mem_range.mpr hj, rfl⟩)

namespace PTable

/-- The priority-queue invariants. -/
structure SchedInv (t : PTable) : Prop where
  wf : t.QueuesWF
  prio : t.PrioLt
  runnable : ∀ p, (t.proc p).state = .RUNNABLE → p ∈ t.prio (t.proc p).priority
  pid_inj : ∀ i < NPRIO, ∀ j < NPRIO, ∀ p ∈ t.prio i, ∀ q ∈ t.prio j,
    (t.proc p).pid = (t.proc q).pid → p = q

variable {t : PTable} {p q : Fin NPROC}

theorem firstRunnable_eq_some {l : List (Fin NPROC)} (h : t.firstRunnable l = some q) :
    q ∈ l ∧ (t.proc q).state = .RUNNABLE :=
  ⟨List.mem_of_find?_eq_some h, by simpa using List.find?_some h⟩

theorem firstRunnable_eq_none {l : List (Fin NPROC)} (h : t.firstRunnable l = none) (hp : p ∈ l) :
    (t.proc p).state ≠ .RUNNABLE := by
  simpa using List.find?_eq_none.mp h p hp

/-- The scheduler's choice is the first runnable node of the first queue that has
one. -/
theorem pick_eq_some (hq : t.pick_highest_priority_runnable_proc = some q) :
    ∃ i < NPRIO, t.firstRunnable (t.prio i) = some q ∧ ∀ j < i, t.firstRunnable (t.prio j) = none :=
  findSome?_map_range_eq_some hq

/-- The scheduler runs a runnable process of the smallest priority present, the
first runnable one of its queue. -/
theorem SchedInv.pick (hi : t.SchedInv) (hq : t.pick_highest_priority_runnable_proc = some q) :
    (t.proc q).state = .RUNNABLE ∧
      (∀ r, (t.proc r).state = .RUNNABLE → (t.proc q).priority ≤ (t.proc r).priority) ∧
      t.firstRunnable (t.prio (t.proc q).priority) = some q := by
  obtain ⟨i, hil, hfirst, hmin⟩ := pick_eq_some hq
  obtain ⟨hmem, hrun⟩ := firstRunnable_eq_some hfirst
  have hprio : (t.proc q).priority = i := hi.wf.home i hil q hmem
  refine ⟨hrun, fun r hr => ?_, hprio ▸ hfirst⟩
  -- `r` has a node in its own queue, so the scan found nothing there only if it
  -- comes no earlier than `i`
  by_contra hlt
  exact firstRunnable_eq_none (hmin _ (by omega)) (hi.runnable r hr) hr

/-- With a runnable process about, the scheduler finds one. -/
theorem SchedInv.pick_isSome (hi : t.SchedInv) {r : Fin NPROC} (hr : (t.proc r).state = .RUNNABLE) :
    t.pick_highest_priority_runnable_proc.isSome := by
  rw [Option.isSome_iff_ne_none]
  intro hnone
  have hall := List.findSome?_eq_none_iff.mp hnone
  have hrq : t.firstRunnable (t.prio (t.proc r).priority) = none :=
    hall _ (List.mem_map.mpr ⟨_, List.mem_range.mpr (hi.prio r), rfl⟩)
  exact firstRunnable_eq_none hrq (hi.runnable r hr) hr

/-- The requeue of `q`: its node leaves its queue and a new one joins the tail of
the same queue. -/
theorem prio_requeue {x : Proc} (hx : x.priority = (t.proc q).priority) :
    (((t.setProc q x).remove_from_prio_queue q).insert_into_prio_queue q).prio =
      Function.update t.prio (t.proc q).priority ((t.prio (t.proc q).priority).erase q ++ [q]) := by
  simp [insert_into_prio_queue, remove_from_prio_queue, hx]

/-- What `nice` finds is a queued process with the pid. -/
theorem findPid_eq_some {pid : Nat} (hq : t.findPid pid = some q) :
    (∃ i < NPRIO, q ∈ t.prio i) ∧ (t.proc q).pid = pid := by
  obtain ⟨i, hil, hfind, -⟩ := findSome?_map_range_eq_some hq
  exact ⟨⟨i, hil, List.mem_of_find?_eq_some hfind⟩, by simpa using List.find?_some hfind⟩

/-- With unique pids, `nice` finds the queued process with the pid. -/
theorem SchedInv.findPid (hi : t.SchedInv) {i : Nat} (hil : i < NPRIO) (hp : p ∈ t.prio i) :
    t.findPid (t.proc p).pid = some p := by
  -- the scan meets `p`'s queue, so it finds some node with that pid, and only `p` has it
  obtain ⟨c, hc⟩ : ∃ c, t.findPid (t.proc p).pid = some c := by
    refine Option.isSome_iff_exists.mp (Option.isSome_iff_ne_none.mpr fun hnone => ?_)
    have hall := List.findSome?_eq_none_iff.mp hnone
    have hfind := hall _ (List.mem_map.mpr ⟨i, List.mem_range.mpr hil, rfl⟩)
    simpa using List.find?_eq_none.mp hfind p hp
  obtain ⟨⟨j, hjl, hcj⟩, hpid⟩ := findPid_eq_some hc
  rw [hc, hi.pid_inj j hjl i hil c hcj p hp hpid]

theorem findPid_eq_none {pid : Nat} (h : ∀ i < NPRIO, ∀ p ∈ t.prio i, (t.proc p).pid ≠ pid) :
    t.findPid pid = none := by
  cases hf : t.findPid pid with
  | none => rfl
  | some q =>
    obtain ⟨⟨i, hil, hq⟩, hpid⟩ := findPid_eq_some hf
    exact absurd hpid (h i hil q hq)

/-- Outside its own queue a queued process has no node, so erasing it there
changes nothing. -/
theorem QueuesWF.erase_of_ne (hw : t.QueuesWF) {j : Nat} (hj : j < NPRIO) (hne : j ≠ (t.proc p).priority) :
    (t.prio j).erase p = t.prio j :=
  List.erase_of_not_mem fun hp => hne (hw.home j hj p hp).symm

/-- `nice` on a queued process: its node leaves its queue and joins the tail of
`prio[pr]`, its priority becomes `pr`, and nothing else changes. -/
theorem SchedInv.nice (hi : t.SchedInv) {i : Nat} (hil : i < NPRIO) (hp : p ∈ t.prio i) (pr : Nat) :
    (t.nice (t.proc p).pid pr).2 = 0 ∧ ((t.nice (t.proc p).pid pr).1.proc p).priority = pr ∧
      (∀ r, r ≠ p → (t.nice (t.proc p).pid pr).1.proc r = t.proc r) ∧
      ∀ j < NPRIO, (t.nice (t.proc p).pid pr).1.prio j =
        if j = pr then (t.prio j).erase p ++ [p] else (t.prio j).erase p := by
  have hfind := hi.findPid hil hp
  refine ⟨by simp [PTable.nice, hfind], by simp [PTable.nice, hfind, insert_into_prio_queue],
    fun r hr => ?_, fun j hj => ?_⟩
  · simp [PTable.nice, hfind, insert_into_prio_queue, setProc_proc_of_ne _ hr,
      remove_from_prio_queue]
  · -- the old queue loses the node, the queue of `pr` gains one at its tail
    have hrem : (t.remove_from_prio_queue p).prio j = (t.prio j).erase p := by
      by_cases hjp : j = (t.proc p).priority
      · simp [remove_from_prio_queue, hjp]
      · simp [remove_from_prio_queue, hjp, hi.wf.erase_of_ne hj hjp]
    by_cases hjr : j = pr
    · subst hjr
      simp [PTable.nice, hfind, insert_into_prio_queue, ← hrem]
    · simp [PTable.nice, hfind, insert_into_prio_queue, hjr, ← hrem]

end PTable

end Xv6
