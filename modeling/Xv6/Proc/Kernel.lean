import Xv6.Proc.Basic
import Xv6.Log.Basic

/-!
# Processes and the log, one event at a time

The process table together with the root device's log, run by one CPU. An
`Event` is one step of the kernel: a system call of the running process or
one part of it, the scheduler choosing a process, a timer interrupt's
`yield`, or the disk's interrupt. Each part ends where the code may sleep,
so that every interleaving of the modelled code is a run: a file-system call
sleeps in `begin_op` while a commit runs or the log is full, the commit of the
last `end_op` sleeps while its writes reach the disk, and `exit` runs the
same calls after it has left the priority queue.

A process's place in that code is its `Pc`; `wakeup` makes a sleeper runnable
and the event it was in is issued again when it runs, as the code's loops
retry. `step` returns `none` where an event cannot happen, and where the code
panics. What the calls do to files, inodes and memory is not modelled:
`fork` copies no files and `exit` closes none, and the outcomes of `kalloc`
and `uvmcopy` are the event's arguments.
-/

namespace Xv6

/-- Where a process is in the modelled kernel code. -/
inductive Pc where
  /-- in user space, or between system calls -/
  | user
  /-- a file-system call at its `begin_op` -/
  | fsBegin
  /-- a file-system call inside its transaction -/
  | fsTxn
  /-- the last `end_op` writing the commit to the disk; `exiting` when the call
  was `exit`'s -/
  | commit (exiting : Bool)
  /-- `exit`, out of its priority queue, at its `begin_op` -/
  | exitBegin
  /-- `exit` inside its transaction (`iput` of the working directory) -/
  | exitTxn
deriving DecidableEq, Repr

/-- The kernel: the process table and queues, the root log, `initproc`, the
process the CPU runs, and each process's place in the code. -/
structure Kernel where
  t : PTable
  log : Log
  initproc : Option (Fin NPROC)
  cur : Option (Fin NPROC)
  pc : Fin NPROC → Pc

/-- The kernel's events. -/
inductive Event where
  | userinit (tfOk : Bool)
  | scheduler
  | yield
  | fork (tfOk copyOk : Bool)
  | fsBegin
  | logWrite (blockno : Nat)
  | fsEnd
  | diskIntr
  | commitDone
  | exitStart
  | exitBegin
  | exitEnd
  | wait
  | nice (pid priority : Nat)
  | kill (pid : Nat)
deriving DecidableEq, Repr

namespace Kernel

/-- After boot: `procinit`'s table, the log as `mkfs` leaves it, no process. -/
def boot : Kernel := ⟨PTable.init, Log.mkfsLog, none, none, fun _ => .user⟩

def setPc (k : Kernel) (p : Fin NPROC) (x : Pc) : Kernel :=
  { k with pc := Function.update k.pc p x }

/-- `sleep`: `p` sleeps on `c` and gives up the CPU. -/
def sleep (k : Kernel) (p : Fin NPROC) (c : Chan) : Kernel :=
  { k with t := k.t.setProc p { k.t.proc p with state := .SLEEPING, chan := some c }, cur := none }

/-- `begin_op` for the running process `p`, retried at `retry` after a wakeup and
continuing at `next` once admitted. -/
def beginOp (k : Kernel) (p : Fin NPROC) (retry next : Pc) : Kernel :=
  match k.log.begin_op with
  | none => (k.sleep p .log).setPc p retry
  | some l => { k with log := l }.setPc p next

/-- The end of a commit: `committing = 0` and `wakeup(&log)`. -/
def endCommit (k : Kernel) : Kernel :=
  { k with log := (k.log.commit).endCommit, t := k.t.wakeup .log }

/-- The rest of `exit` after its transaction: wake `initproc`, give the
children to it, wake the parent, and become a zombie. -/
def finishExit (k : Kernel) (p : Fin NPROC) : Option Kernel := do
  let i ← k.initproc
  let parent ← (k.t.proc p).parent
  let t := (k.t.wakeup1 i).reparent p i
  let t := t.wakeup1 parent
  pure { k with t := t.setProc p { t.proc p with state := .ZOMBIE }, cur := none }

/-- `end_op` for the running process `p`, which continues at `next` (or
finishes `exit`) unless it commits: a commit with blocks to write sleeps on
the disk, and a call that does not commit wakes the log's sleepers. -/
def endOp (k : Kernel) (p : Fin NPROC) (exiting : Bool) : Option Kernel :=
  match k.log.endOpLocked with
  | .error _ => none
  | .ok (l, false) =>
    -- `wakeup(&log)`: a `begin_op` may be waiting for the space this call reserved
    let k := { k with log := l, t := k.t.wakeup .log }
    if exiting then k.finishExit p else some (k.setPc p .user)
  | .ok (l, true) =>
    let k := { k with log := l }
    if l.lh.n > 0 then some ((k.sleep p .disk).setPc p (.commit exiting))
    else
      let k := k.endCommit
      if exiting then k.finishExit p else some (k.setPc p .user)

/-- `fork` by `p`: a new process with `p` as parent, made runnable, which
returns to user space; when the copy of the memory fails, `freeproc` gives the
slot back. -/
def fork (k : Kernel) (p : Fin NPROC) (tfOk copyOk : Bool) : Kernel :=
  match k.t.allocproc tfOk with
  | (t, none) => { k with t := t }
  | (t, some np) =>
    if copyOk then
      let k₁ := { k with t := t.setProc np { t.proc np with parent := some p, state := .RUNNABLE } }
      k₁.setPc np .user
    else { k with t := t.freeproc np }

/-- `wait` by `p`: free the first zombie child; with children but none a
zombie, sleep on `p`. -/
def wait (k : Kernel) (p : Fin NPROC) : Kernel :=
  let kids := (List.finRange NPROC).filter fun q => (k.t.proc q).parent == some p
  match kids.find? fun q => (k.t.proc q).state == .ZOMBIE with
  | some q => { k with t := k.t.freeproc q }
  | none => if kids.isEmpty ∨ (k.t.proc p).killed then k else k.sleep p (.proc p)

/-- One event, from the running process `p` where it is a system call. -/
def step (k : Kernel) : Event → Option Kernel
  | .userinit tfOk =>
    if k.initproc.isSome then none else
    match k.t.allocproc tfOk with
    | (_, none) => none
    | (t, some p) =>
      let k₁ := { k with t := t.setProc p { t.proc p with state := .RUNNABLE }, initproc := some p }
      some (k₁.setPc p .user)
  | .scheduler =>
    if k.cur.isSome then none else
    k.t.pick_highest_priority_runnable_proc.map fun p =>
      let t := k.t.setProc p { k.t.proc p with state := .RUNNING }
      { k with t := (t.remove_from_prio_queue p).insert_into_prio_queue p, cur := some p }
  | .yield => k.cur.map fun p =>
    { k with t := k.t.setProc p { k.t.proc p with state := .RUNNABLE }, cur := none }
  | .fork tfOk copyOk => k.cur.bind fun p =>
    if k.pc p = .user then some (k.fork p tfOk copyOk) else none
  | .fsBegin => k.cur.bind fun p =>
    if k.pc p = .user ∨ k.pc p = .fsBegin then some (k.beginOp p .fsBegin .fsTxn) else none
  | .logWrite b => k.cur.bind fun p =>
    if k.pc p = .fsTxn then
      match k.log.log_write b with
      | .ok (l, _) => some { k with log := l }
      | .error _ => none
    else none
  | .fsEnd => k.cur.bind fun p => if k.pc p = .fsTxn then k.endOp p false else none
  | .diskIntr => some { k with t := k.t.wakeup .disk }
  | .commitDone => k.cur.bind fun p =>
    match k.pc p with
    | .commit exiting =>
      let k := k.endCommit
      if exiting then k.finishExit p else some (k.setPc p .user)
    | _ => none
  | .exitStart => k.cur.bind fun p =>
    -- `exit` panics in `initproc`; it leaves the queue of its priority
    if k.pc p = .user ∧ k.initproc ≠ some p then
      let t := if (k.t.proc p).priority < NPRIO then k.t.remove_from_prio_queue p else k.t
      some ({ k with t := t }.setPc p .exitBegin)
    else none
  | .exitBegin => k.cur.bind fun p =>
    if k.pc p = .exitBegin then some (k.beginOp p .exitBegin .exitTxn) else none
  | .exitEnd => k.cur.bind fun p => if k.pc p = .exitTxn then k.endOp p true else none
  | .wait => k.cur.bind fun p => if k.pc p = .user then some (k.wait p) else none
  | .nice pid priority => k.cur.bind fun p =>
    -- `sys_nice` refuses a priority outside `0 … 9`
    if k.pc p = .user then
      some (if priority > 9 then k else { k with t := (k.t.nice pid priority).1 })
    else none
  | .kill pid => k.cur.map fun _ => { k with t := (k.t.kill pid).1 }

/-- A run of events; `none` once one cannot happen. -/
def run (k : Kernel) : List Event → Option Kernel
  | [] => some k
  | e :: es => (k.step e).bind fun k' => run k' es

/-- The kernels some run from boot reaches. -/
def Reachable (k : Kernel) : Prop := ∃ es, run boot es = some k

end Kernel

end Xv6
