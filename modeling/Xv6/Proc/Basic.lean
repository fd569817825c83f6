import Mathlib
import Xv6.Param

/-!
# The process table and the priority queues

`kernel/proc.c` keeps `NPROC` process slots and, beside them, one queue per
priority level, `prio[NPRIO]`, added to this xv6: a singly-linked list of
nodes, each naming a process. `insert_into_prio_queue` appends a node for `p`
to `prio[p->priority]`, `remove_from_prio_queue` unlinks the first node naming
`p` from that same list, and the scheduler picks the first runnable process
along `prio[0]`, `prio[1]`, …, then moves its node to the end of its list.

A slot keeps the fields these functions read and write; the memory of a
process (page table, trapframe, files, kernel stack) is not modelled, and
`allocproc`'s `kalloc` and `fork`'s `uvmcopy` enter as their outcomes. A list
of nodes is a list of slot numbers, and the queues are indexed by any `Nat`,
as `prio[p->priority]` is by whatever `priority` holds; `sys_nice` keeps it
below `NPRIO`.
-/

namespace Xv6

/-- `enum procstate`. -/
inductive ProcState where
  | UNUSED
  | SLEEPING
  | RUNNABLE
  | RUNNING
  | ZOMBIE
deriving DecidableEq, Repr

/-- The channels processes sleep on in the modelled code: the log (`&log`),
a buffer being written to the disk, and a process waiting for its children
(`wait` sleeps on itself). -/
inductive Chan where
  | log
  | disk
  | proc (p : Fin NPROC)
deriving DecidableEq, Repr

/-- The fields of `struct proc` that the modelled code uses; `chan = none` is
a null channel and `parent = none` a null parent. -/
structure Proc where
  state : ProcState
  parent : Option (Fin NPROC)
  chan : Option Chan
  killed : Bool
  pid : Nat
  priority : Nat
deriving DecidableEq, Repr

/-- What `freeproc` leaves in a slot, and what a booted kernel holds. -/
def Proc.unused : Proc := ⟨.UNUSED, none, none, false, 0, 0⟩

/-- The process table and the priority queues. -/
structure PTable where
  proc : Fin NPROC → Proc
  prio : Nat → List (Fin NPROC)
  nextpid : Nat

namespace PTable

/-- The table after `procinit`: every slot unused, every queue empty. -/
def init : PTable := ⟨fun _ => Proc.unused, fun _ => [], 1⟩

/-- Replace the fields of slot `p`. -/
def setProc (t : PTable) (p : Fin NPROC) (x : Proc) : PTable :=
  { t with proc := Function.update t.proc p x }

@[simp] theorem setProc_prio (t : PTable) (p : Fin NPROC) (x : Proc) :
    (t.setProc p x).prio = t.prio := rfl

@[simp] theorem setProc_proc_self (t : PTable) (p : Fin NPROC) (x : Proc) :
    (t.setProc p x).proc p = x := by
  simp [setProc]

theorem setProc_proc_of_ne (t : PTable) {p q : Fin NPROC} (h : q ≠ p) (x : Proc) :
    (t.setProc p x).proc q = t.proc q := by
  simp [setProc, Function.update_of_ne h]

theorem setProc_self (t : PTable) (p : Fin NPROC) : t.setProc p (t.proc p) = t := by
  simp [setProc]

/-- `insert_into_prio_queue`: a node for `p` at the end of `prio[p->priority]`. -/
def insert_into_prio_queue (t : PTable) (p : Fin NPROC) : PTable :=
  let i := (t.proc p).priority
  { t with prio := Function.update t.prio i (t.prio i ++ [p]) }

@[simp] theorem insert_into_prio_queue_proc (t : PTable) (p : Fin NPROC) :
    (t.insert_into_prio_queue p).proc = t.proc := rfl

theorem mem_insert_into_prio_queue {t : PTable} {p q : Fin NPROC} {i : Nat} :
    q ∈ (t.insert_into_prio_queue p).prio i ↔ q ∈ t.prio i ∨ q = p ∧ i = (t.proc p).priority := by
  simp only [insert_into_prio_queue, Function.update_apply]
  split_ifs with hi
  · subst hi
    simp
  · simp [hi]

/-- `remove_from_prio_queue`: the first node naming `p` leaves
`prio[p->priority]`; nothing happens when that list has none. -/
def remove_from_prio_queue (t : PTable) (p : Fin NPROC) : PTable :=
  let i := (t.proc p).priority
  { t with prio := Function.update t.prio i ((t.prio i).erase p) }

@[simp] theorem remove_from_prio_queue_proc (t : PTable) (p : Fin NPROC) :
    (t.remove_from_prio_queue p).proc = t.proc := rfl

theorem mem_of_mem_remove_from_prio_queue {t : PTable} {p q : Fin NPROC} {i : Nat}
    (h : q ∈ (t.remove_from_prio_queue p).prio i) : q ∈ t.prio i := by
  simp only [remove_from_prio_queue, Function.update_apply] at h
  split_ifs at h with hi
  · exact hi ▸ List.mem_of_mem_erase h
  · exact h

/-- `allocproc`: the first unused slot, with a fresh pid, priority `DEF_PRIO`
and a node in `prio[DEF_PRIO]`; the slot stays `UNUSED` until its creator
makes it runnable. `tfOk` is whether `kalloc` found a trapframe page: when it
did not, the pid is spent and no process is returned. -/
def allocproc (t : PTable) (tfOk : Bool) : PTable × Option (Fin NPROC) :=
  match (List.finRange NPROC).find? fun p => (t.proc p).state == .UNUSED with
  | none => (t, none)
  | some p =>
    let t₁ := { t.setProc p { t.proc p with pid := t.nextpid } with nextpid := t.nextpid + 1 }
    if tfOk then
      let t₂ := t₁.setProc p { t₁.proc p with priority := DEF_PRIO }
      (t₂.insert_into_prio_queue p, some p)
    else (t₁, none)

/-- `freeproc`: the slot's fields reset and its state `UNUSED`; the queues are
not touched. -/
def freeproc (t : PTable) (p : Fin NPROC) : PTable := t.setProc p Proc.unused

/-- The first runnable process along one queue. -/
def firstRunnable (t : PTable) (q : List (Fin NPROC)) : Option (Fin NPROC) :=
  q.find? fun p => (t.proc p).state == .RUNNABLE

/-- `pick_highest_priority_runnable_proc`: the first runnable process along
`prio[0]`, then `prio[1]`, and so on. -/
def pick_highest_priority_runnable_proc (t : PTable) : Option (Fin NPROC) :=
  ((List.range NPRIO).map t.prio).findSome? t.firstRunnable

/-- `wakeup`: every process sleeping on `c` becomes runnable. -/
def wakeup (t : PTable) (c : Chan) : PTable :=
  { t with proc := fun p =>
      if (t.proc p).state = .SLEEPING ∧ (t.proc p).chan = some c
      then { t.proc p with state := .RUNNABLE } else t.proc p }

/-- `wakeup1`: `p` becomes runnable if it sleeps in `wait`. -/
def wakeup1 (t : PTable) (p : Fin NPROC) : PTable :=
  if (t.proc p).chan = some (.proc p) ∧ (t.proc p).state = .SLEEPING
  then t.setProc p { t.proc p with state := .RUNNABLE } else t

/-- The node `nice` finds: the first, along `prio[0]`, `prio[1]`, …, that names
a process with the pid. -/
def findPid (t : PTable) (pid : Nat) : Option (Fin NPROC) :=
  ((List.range NPRIO).map t.prio).findSome? fun q => q.find? fun p => (t.proc p).pid == pid

/-- `nice`: the process's node leaves its queue and a new one joins the queue
of its new priority; `-1` when no node names the pid. -/
def nice (t : PTable) (pid priority : Nat) : PTable × Int :=
  match t.findPid pid with
  | none => (t, -1)
  | some p =>
    let t₁ := t.remove_from_prio_queue p
    let t₂ := t₁.setProc p { t₁.proc p with priority := priority }
    (t₂.insert_into_prio_queue p, 0)

/-- `kill`: the first slot with the pid is marked killed and, if it sleeps,
made runnable; `-1` when no slot has the pid. -/
def kill (t : PTable) (pid : Nat) : PTable × Int :=
  match (List.finRange NPROC).find? fun p => (t.proc p).pid == pid with
  | none => (t, -1)
  | some p =>
    let x := { t.proc p with killed := true }
    (t.setProc p (if x.state = .SLEEPING then { x with state := .RUNNABLE } else x), 0)

/-- `reparent`: the children of `p` go to `initproc`. -/
def reparent (t : PTable) (p initproc : Fin NPROC) : PTable :=
  { t with proc := fun q =>
      if (t.proc q).parent = some p then { t.proc q with parent := some initproc } else t.proc q }

end PTable

end Xv6
