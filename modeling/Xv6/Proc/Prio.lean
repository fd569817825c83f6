import Xv6.Proc.PrioMem
import Xv6.Proc.Sched

/-!
# Scheduling over the queues in memory

`pick_highest_priority_runnable_proc`, `scheduler` and `nice` of
`kernel/proc.c` run over the chains of `list_proc` nodes of
`Xv6.Proc.PrioMem`. `PTab` is the process table beside those queues, with the
code's functions over it, and `Refines c t` says that the table and the queues
in memory read as the list model `t` of `Xv6.Proc.Basic`. Each function keeps
the refinement and computes what the list model's does
(`Refines.insert_into_prio_queue`, `Refines.remove_from_prio_queue`,
`Refines.scheduler`, `Refines.nice`); in particular the code's scheduler
simulates the kernel's scheduler step (`Refines.step_scheduler`). The list
model's theorems of `Xv6.Proc.Sched` then hold of the code:
`scheduler_strict_priority`.
-/

namespace Xv6

open Buddy

/-- The process table beside the priority queues in memory. -/
structure PTab where
  proc : Fin NPROC → Proc
  q : PrioMem

namespace PTab

/-- Replace the fields of slot `p`. -/
def setProc (c : PTab) (p : Fin NPROC) (x : Proc) : PTab := { c with proc := Function.update c.proc p x }

/-- `insert_into_prio_queue(p)`: into `prio[p->priority]`. -/
def insert_into_prio_queue (c : PTab) (p : Fin NPROC) : Option PTab :=
  (c.q.insert (c.proc p).priority p).map fun q => { c with q := q }

/-- `remove_from_prio_queue(p)`: from `prio[p->priority]`. -/
def remove_from_prio_queue (c : PTab) (p : Fin NPROC) : Option PTab :=
  (c.q.remove (c.proc p).priority p).map fun q => { c with q := q }

/-- `pick_highest_priority_runnable_proc`: the first runnable process along
`prio[0]`, `prio[1]`, …. -/
def pick_highest_priority_runnable_proc (c : PTab) : Option (Fin NPROC) :=
  c.q.firstOf fun p => (c.proc p).state == .RUNNABLE

/-- One turn of `scheduler`'s loop up to the switch: the process picked becomes
`RUNNING` and its node moves to the end of its queue. With nothing runnable no
process is picked, and the CPU waits. -/
def scheduler (c : PTab) : Option (Option (Fin NPROC) × PTab) :=
  match c.pick_highest_priority_runnable_proc with
  | none => some (none, c)
  | some p =>
    let c₁ := c.setProc p { c.proc p with state := .RUNNING }
    (c₁.remove_from_prio_queue p).bind fun c₂ => (c₂.insert_into_prio_queue p).map fun c₃ => (some p, c₃)

/-- `nice(pid, priority)`: the first queued process with the pid leaves its
queue, takes the priority and joins the end of that queue; `-1` when no queued
process has the pid. -/
def nice (c : PTab) (pid priority : Nat) : Option (PTab × Int) :=
  match c.q.firstOf fun p => (c.proc p).pid == pid with
  | none => some (c, -1)
  | some p =>
    (c.remove_from_prio_queue p).bind fun c₁ =>
      let c₂ := c₁.setProc p { c₁.proc p with priority := priority }
      (c₂.insert_into_prio_queue p).map fun c₃ => (c₃, 0)

/-- The code's table refines the list model: the same processes, and
well-formed queues in memory whose queue `i` reads as the list model's. -/
structure Refines (c : PTab) (t : PTable) : Prop where
  proc : c.proc = t.proc
  wf : c.q.WF
  read : ∀ i, c.q.read i = t.prio i

variable {c c' : PTab} {t : PTable} {p : Fin NPROC}

theorem Refines.setProc (hr : c.Refines t) (p : Fin NPROC) (x : Proc) : (c.setProc p x).Refines (t.setProc p x) :=
  ⟨by simp [PTab.setProc, PTable.setProc, hr.proc], hr.wf, hr.read⟩

/-- The code's scans find what the list model's find. -/
theorem Refines.firstOf (hr : c.Refines t) (ok : Fin NPROC → Bool) :
    c.q.firstOf ok = ((List.range NPRIO).map t.prio).findSome? fun l => l.find? ok := by
  rw [hr.wf.firstOf ok, show c.q.read = t.prio from funext hr.read]

theorem Refines.pick (hr : c.Refines t) :
    c.pick_highest_priority_runnable_proc = t.pick_highest_priority_runnable_proc := by
  rw [pick_highest_priority_runnable_proc, hr.firstOf, hr.proc]
  rfl

theorem Refines.findPid (hr : c.Refines t) (pid : Nat) :
    c.q.firstOf (fun p => (c.proc p).pid == pid) = t.findPid pid := by
  rw [hr.firstOf, hr.proc]
  rfl

/-- **Insertion refines the list model's**, whenever it returns. -/
theorem Refines.insert_into_prio_queue (hr : c.Refines t) (h : c.insert_into_prio_queue p = some c') :
    c'.Refines (t.insert_into_prio_queue p) := by
  obtain ⟨q', hq, rfl⟩ := Option.map_eq_some_iff.mp h
  obtain ⟨hw', hread⟩ := hr.wf.insert hq
  refine ⟨hr.proc, hw', fun j => ?_⟩
  simp only [hread, PTable.insert_into_prio_queue, Function.update_apply, hr.read, hr.proc]

/-- Insertion returns when `bd_malloc` hands out a node. -/
theorem insert_into_prio_queue_isSome {a : Nat} {s : Bd}
    (hm : bd_malloc c.q.heap.bd LIST_PROC_SIZE = some (a, s)) (ha : a ≠ 0) :
    (c.insert_into_prio_queue p).isSome := by
  have h : (c.q.insert (c.proc p).priority p).isSome := PrioMem.insert_isSome hm ha
  simpa [insert_into_prio_queue] using h

/-- **Removal refines the list model's**: it returns, and when `p` had a node
in the queue of its priority a `bd_malloc` of a node finds one afterwards. -/
theorem Refines.remove_from_prio_queue (hr : c.Refines t) (p : Fin NPROC) :
    ∃ c', c.remove_from_prio_queue p = some c' ∧ c'.Refines (t.remove_from_prio_queue p) ∧
      (p ∈ t.prio (t.proc p).priority → ∃ a s, bd_malloc c'.q.heap.bd LIST_PROC_SIZE = some (a, s) ∧ a ≠ 0) := by
  obtain ⟨q', hq, hw', hread, hroom⟩ := hr.wf.remove (c.proc p).priority p
  refine ⟨{ c with q := q' }, by simp [PTab.remove_from_prio_queue, hq], ⟨hr.proc, hw', fun j => ?_⟩,
    fun hp => hroom ?_⟩
  · simp only [hread, PTable.remove_from_prio_queue, Function.update_apply, hr.read, hr.proc]
  · rw [hr.read, hr.proc]
    exact hp

/-- A queued process has its node in the queue of its priority. -/
theorem mem_own_of_mem (hw : t.QueuesWF) {i : Nat} (hi : i < NPRIO) (hp : p ∈ t.prio i) :
    p ∈ t.prio (t.proc p).priority := by
  rw [hw.home i hi p hp]
  exact hp

/-- **A process moves to the end of its queue**: with its node in the queue of
its priority, removal and then insertion return, and refine the list model's. -/
theorem Refines.requeue (hr : c.Refines t) (hp : p ∈ t.prio (t.proc p).priority) {x : Proc}
    (hx : x.priority = (t.proc p).priority) :
    ∃ c₂ c₃, (c.setProc p x).remove_from_prio_queue p = some c₂ ∧ c₂.insert_into_prio_queue p = some c₃ ∧
      c₃.Refines (((t.setProc p x).remove_from_prio_queue p).insert_into_prio_queue p) := by
  obtain ⟨c₂, hc₂, hr₂, hroom⟩ := (hr.setProc p x).remove_from_prio_queue p
  obtain ⟨a, s, hm, ha⟩ := hroom (by simpa [hx] using hp)
  obtain ⟨c₃, hc₃⟩ := Option.isSome_iff_exists.mp (insert_into_prio_queue_isSome hm ha : (c₂.insert_into_prio_queue p).isSome)
  exact ⟨c₂, c₃, hc₂, hc₃, hr₂.insert_into_prio_queue hc₃⟩

/-- **The code's scheduler refines the list model's**: with nothing runnable it
changes nothing; otherwise it runs the process the list model picks, and its
queues read as the list model's after the requeue. -/
theorem Refines.scheduler (hr : c.Refines t) (hw : t.QueuesWF) :
    (t.pick_highest_priority_runnable_proc = none → c.scheduler = some (none, c)) ∧
      ∀ q, t.pick_highest_priority_runnable_proc = some q → ∃ c', c.scheduler = some (some q, c') ∧
        c'.Refines (((t.setProc q { t.proc q with state := .RUNNING }).remove_from_prio_queue q).insert_into_prio_queue q) := by
  refine ⟨fun hn => by rw [PTab.scheduler, hr.pick, hn], fun q hq => ?_⟩
  obtain ⟨i, hi, hmem⟩ := PTable.mem_of_pick hq
  have hx : ({ t.proc q with state := .RUNNING } : Proc).priority = (t.proc q).priority := rfl
  obtain ⟨c₂, c₃, hc₂, hc₃, hr₃⟩ := hr.requeue (mem_own_of_mem hw hi hmem) hx
  refine ⟨c₃, ?_, hr₃⟩
  simp only [PTab.scheduler, hr.pick, hq, hr.proc, hc₂, hc₃, Option.bind_some, Option.map_some]

/-- **The code's `nice` refines the list model's**. -/
theorem Refines.nice (hr : c.Refines t) (hw : t.QueuesWF) (pid pr : Nat) :
    (t.findPid pid = none → c.nice pid pr = some (c, -1)) ∧
      ∀ q, t.findPid pid = some q → ∃ c', c.nice pid pr = some (c', 0) ∧ c'.Refines (t.nice pid pr).1 := by
  refine ⟨fun hn => by rw [PTab.nice, hr.findPid, hn], fun q hq => ?_⟩
  obtain ⟨i, hi, hmem⟩ := PTable.mem_of_findPid hq
  obtain ⟨c₁, hc₁, hr₁, hroom⟩ := hr.remove_from_prio_queue q
  obtain ⟨a, s, hm, ha⟩ := hroom (mem_own_of_mem hw hi hmem)
  -- the new priority is written where the node was taken out, and the node joins its new queue
  let x := { (t.remove_from_prio_queue q).proc q with priority := pr }
  have hr₂ := hr₁.setProc q x
  obtain ⟨c₃, hc₃⟩ := Option.isSome_iff_exists.mp
    (insert_into_prio_queue_isSome hm ha : ((c₁.setProc q x).insert_into_prio_queue q).isSome)
  refine ⟨c₃, ?_, ?_⟩
  · simp only [PTab.nice, hr.findPid, hq, hc₁, Option.bind_some, hr₁.proc, x, hc₃, Option.map_some]
  · have h := hr₂.insert_into_prio_queue hc₃
    simpa [PTable.nice, hq, x] using h

end PTab

/-- **The code's scheduler simulates the kernel's scheduler step**: on a table
that refines the kernel's, it runs the process the step runs and leaves a table
that refines the kernel's after the step. -/
theorem PTab.Refines.step_scheduler {c : PTab} {k k' : Kernel} (hr : c.Refines k.t) (hw : k.t.QueuesWF)
    (h : k.step .scheduler = some k') : ∃ c', c.scheduler = some (k'.cur, c') ∧ c'.Refines k'.t := by
  simp only [Kernel.step] at h
  split at h
  · cases h
  · obtain ⟨q, hq, rfl⟩ := Option.map_eq_some_iff.mp h
    exact (hr.scheduler hw).2 q hq

/-- Under the priority-queue invariants, on the queues in memory: a scheduler
step runs a runnable process of the smallest priority index present, the first
runnable one of its queue, and moves its node to the tail of that queue, the
chains staying well formed and the other lists untouched; it runs one whenever a
process is runnable. `nice(pid, pr)` moves exactly the queued process with the
pid to the tail of `prio[pr]`, or changes nothing and returns `-1`. -/
theorem scheduler_strict_priority {c : PTab} {t : PTable} (hr : c.Refines t) (hi : t.SchedInv) :
    (∀ q c', c.scheduler = some (some q, c') → (c.proc q).state = .RUNNABLE ∧
        (∀ r, (c.proc r).state = .RUNNABLE → (c.proc q).priority ≤ (c.proc r).priority) ∧
        (c.q.read (c.proc q).priority).find? (fun p => (c.proc p).state == .RUNNABLE) = some q ∧
        c'.q.WF ∧ ∀ i, c'.q.read i = if i = (c.proc q).priority then (c.q.read i).erase q ++ [q] else c.q.read i) ∧
      (∀ r, (c.proc r).state = .RUNNABLE → ∃ q c', c.scheduler = some (some q, c')) ∧
      ∀ pid pr, ((∀ i < NPRIO, ∀ p ∈ c.q.read i, (c.proc p).pid ≠ pid) → c.nice pid pr = some (c, -1)) ∧
        ∀ i < NPRIO, ∀ p ∈ c.q.read i, (c.proc p).pid = pid →
          ∃ c', c.nice pid pr = some (c', 0) ∧ c'.q.WF ∧ (c'.proc p).priority = pr ∧
            (∀ r, r ≠ p → c'.proc r = c.proc r) ∧
            ∀ j < NPRIO, c'.q.read j = if j = pr then (c.q.read j).erase p ++ [p] else (c.q.read j).erase p := by
  have hread : c.q.read = t.prio := funext hr.read
  have hsched := hr.scheduler hi.wf
  refine ⟨fun q c' hs => ?_, fun r hrun => ?_, fun pid pr => ⟨fun hnone => ?_, fun i hil p hp hpid => ?_⟩⟩
  · -- the step ran the list model's pick
    cases hq : t.pick_highest_priority_runnable_proc with
    | none => simp [hsched.1 hq] at hs
    | some q₀ =>
      obtain ⟨c₀, hs₀, hr₀⟩ := hsched.2 q₀ hq
      rw [hs₀] at hs
      obtain ⟨rfl, rfl⟩ : q₀ = q ∧ c₀ = c' := by simpa using hs
      obtain ⟨hrun, hmin, hfirst⟩ := hi.pick hq
      refine ⟨hr.proc ▸ hrun, hr.proc ▸ hmin, by rw [hread, hr.proc]; exact hfirst, hr₀.wf, fun i => ?_⟩
      have hx : ({ t.proc q₀ with state := .RUNNING } : Proc).priority = (t.proc q₀).priority := rfl
      rw [hr₀.read, PTable.prio_requeue hx, Function.update_apply, hread, hr.proc]
      split_ifs with hiq
      · rw [hiq]
      · rfl
  · obtain ⟨q, hq⟩ := Option.isSome_iff_exists.mp (hi.pick_isSome (hr.proc ▸ hrun))
    obtain ⟨c', hs, -⟩ := hsched.2 q hq
    exact ⟨q, c', hs⟩
  · rw [hread, hr.proc] at hnone
    exact (hr.nice hi.wf pid pr).1 (PTable.findPid_eq_none hnone)
  · rw [hread] at hp
    rw [hr.proc] at hpid ⊢
    subst hpid
    obtain ⟨c', hn, hr'⟩ := (hr.nice hi.wf _ pr).2 p (hi.findPid hil hp)
    obtain ⟨-, hprio, hother, hqueues⟩ := hi.nice hil hp pr
    refine ⟨c', hn, hr'.wf, by rw [hr'.proc]; exact hprio, fun r hrp => by rw [hr'.proc]; exact hother r hrp,
      fun j hj => ?_⟩
    rw [hr'.read, hqueues j hj, hread]

/-- Two runnable processes, `initproc` (pid 1) and its child (pid 2), queued at
`DEF_PRIO` over the heap `bd_init(0, 1000)` leaves, as `userinit` and `fork`
queue them; `nice(2, 3)` then moves the child's node to `prio[3]`. The
invariants hold, and the scheduler runs the child, the process of priority `3`,
whose node goes to the end of `prio[3]`. -/
theorem scheduler_strict_priority_two_levels :
    ∃ (c : PTab) (t : PTable), c.Refines t ∧ t.SchedInv ∧ c.q.read 3 = [1] ∧ c.q.read DEF_PRIO = [0] ∧
      ∃ c', c.scheduler = some (some 1, c') ∧ c'.q.read 3 = [1] := by
  let procs : Fin NPROC → Proc := fun p =>
    if p = 0 then ⟨.RUNNABLE, none, none, false, 1, DEF_PRIO⟩
    else if p = 1 then ⟨.RUNNABLE, some 0, none, false, 2, DEF_PRIO⟩ else Proc.unused
  let t₀ : PTable := ⟨procs, fun _ => [], 3⟩
  let t₂ := (t₀.insert_into_prio_queue 0).insert_into_prio_queue 1
  let t := (t₂.nice 2 3).1
  let run : Bd → Option PTab := fun s =>
    ((⟨procs, PrioMem.init ⟨s, []⟩⟩ : PTab).insert_into_prio_queue 0).bind fun c₁ =>
      (c₁.insert_into_prio_queue 1).bind fun c₂ => (c₂.nice 2 3).map Prod.fst
  have h : (bd_init 0 1000).bind (fun s => (run s).map fun c => (c.q.read 3, c.q.read DEF_PRIO)) =
      some ([1], [0]) := by
    decide +kernel
  obtain ⟨s, hs, h⟩ := Option.bind_eq_some_iff.mp h
  obtain ⟨c, hrun, hreads⟩ := Option.map_eq_some_iff.mp h
  obtain ⟨c₁, hc₁, hrun⟩ := Option.bind_eq_some_iff.mp hrun
  obtain ⟨c₂, hc₂, hrun⟩ := Option.bind_eq_some_iff.mp hrun
  obtain ⟨⟨c₃, r⟩, hc₃, rfl⟩ := Option.map_eq_some_iff.mp hrun
  -- each call refines the list model's
  have hI : Heap.Inv 0 1000 ⟨s, []⟩ := Reachable.inv ⟨s, [], hs, rfl⟩
  have hr₀ : (⟨procs, PrioMem.init ⟨s, []⟩⟩ : PTab).Refines t₀ :=
    ⟨rfl, (PrioMem.init_wf hI).1, (PrioMem.init_wf hI).2⟩
  have hr₂ := (hr₀.insert_into_prio_queue hc₁).insert_into_prio_queue hc₂
  have hw₂ : t₂.QueuesWF := ⟨by decide, by decide, by decide⟩
  obtain ⟨c₃', hn, hr₃⟩ := (hr₂.nice hw₂ 2 3).2 1 (by decide)
  rw [hn, Option.some.injEq, Prod.mk.injEq] at hc₃
  obtain ⟨rfl, -⟩ := hc₃
  -- the queued processes are slots `0` and `1`, with pids `1` and `2`
  have hpid : ∀ i < NPRIO, ∀ p ∈ t.prio i, (t.proc p).pid = p.val + 1 := by decide
  have hi : t.SchedInv :=
    ⟨⟨by decide, by decide, by decide⟩, by unfold PTable.PrioLt; decide, by decide,
      fun i hil j hjl p hp q hq he => Fin.ext (by have := hpid i hil p hp; have := hpid j hjl q hq; omega)⟩
  have hmain := scheduler_strict_priority hr₃ hi
  obtain ⟨q, c', hsch⟩ := hmain.2.1 1 (by rw [hr₃.proc]; decide)
  obtain ⟨hrunq, hmin, -, -, hreadq⟩ := hmain.1 q c' hsch
  -- the only runnable process of priority at most `3` is the child
  have hq : q = 1 := by
    have hle := hmin 1 (by rw [hr₃.proc]; decide)
    rw [hr₃.proc] at hrunq hle
    have hall : ∀ q : Fin NPROC, (t.proc q).state = .RUNNABLE → (t.proc q).priority ≤ (t.proc 1).priority →
        q = 1 := by
      decide
    exact hall q hrunq hle
  subst hq
  obtain ⟨h3, h5⟩ := Prod.mk.inj hreads
  refine ⟨c₃', t, hr₃, hi, h3, h5, c', hsch, ?_⟩
  rw [hreadq 3, if_pos (by rw [hr₃.proc]; decide), h3]
  rfl

end Xv6
