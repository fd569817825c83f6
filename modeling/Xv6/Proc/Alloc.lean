import Xv6.Lib.Fallible
import Xv6.Proc.Queues

/-!
# What `allocproc` leaves behind

`allocproc` scans the table holding `prio_lock[DEF_PRIO]` and each slot's lock
in turn. Its three ways out leave different traces:

* no slot is unused: every lock it took is released, nothing else changed;
* the trapframe's `kalloc` fails: the slot's lock is released but
  `prio_lock[DEF_PRIO]` is not, and the slot, still `UNUSED`, keeps the pid
  that `allocpid` spent on it;
* success: the slot is returned with its lock held, as the comment promises,
  and `prio_lock[DEF_PRIO]` released.

A `fork` that fails at the trapframe therefore returns `-1` with
`prio_lock[DEF_PRIO]` still held and a slot rewritten, and the next `allocproc`
on that CPU panics in `acquire` (`fork_tf_failure_keeps_lock`).

`allocproc` resets neither `killed` nor any other field it does not set, and
`kill` matches a pid against every slot, used or not: `kill(0)` marks a free
slot, whose pid `freeproc` left at `0`, and the next `fork` hands the mark to a
new child (`kill_zero_marks_child`).

The locks are those held by the CPU running the call, a list with the most
recent first.
-/

namespace Xv6

/-- The spin-locks of the process table. -/
inductive Lock where
  | prio_lock (i : Nat)
  | proc_lock (p : Fin NPROC)
  | pid_lock
deriving DecidableEq, Repr

/-- `acquire` on this CPU: taking a lock it already holds is the panic `acquire`. -/
def acquire (held : List Lock) (l : Lock) : Except String (List Lock) :=
  if l ∈ held then .error "acquire" else .ok (l :: held)

/-- `release`: dropping a lock this CPU does not hold is the panic `release`. -/
def release (held : List Lock) (l : Lock) : Except String (List Lock) :=
  if l ∈ held then .ok (held.erase l) else .error "release"

theorem acquire_of_not_mem {held : List Lock} {l : Lock} (h : l ∉ held) :
    acquire held l = .ok (l :: held) := if_neg h

theorem acquire_of_mem {held : List Lock} {l : Lock} (h : l ∈ held) :
    acquire held l = .error "acquire" := if_pos h

/-- Releasing the lock taken last gives back the locks held before. -/
theorem release_cons (held : List Lock) (l : Lock) : release (l :: held) l = .ok held := by
  simp [release]

namespace PTable

/-- The scan of `allocproc` over the slots `ps`, from the locks `held`: both
locks are taken for each slot and both dropped for a slot in use; the first
unused slot stops the scan with both still held. -/
def allocprocScan (t : PTable) (held : List Lock) :
    List (Fin NPROC) → Except String (List Lock × Option (Fin NPROC))
  | [] => pure (held, none)
  | p :: ps => do
    let h ← acquire held (.prio_lock DEF_PRIO)
    let h ← acquire h (.proc_lock p)
    if (t.proc p).state = .UNUSED then pure (h, some p)
    else
      let h ← release h (.proc_lock p)
      let h ← release h (.prio_lock DEF_PRIO)
      t.allocprocScan h ps

/-- The locks held when `allocproc` returns: on the trapframe's failure only the
slot's lock is released, on success only `prio_lock[DEF_PRIO]`; `allocpid`
takes and drops `pid_lock` on the way. -/
def allocproc_held (t : PTable) (tfOk : Bool) (held : List Lock) : Except String (List Lock) := do
  match ← t.allocprocScan held (List.finRange NPROC) with
  | (h, none) => pure h
  | (h, some p) =>
    let h ← acquire h .pid_lock
    let h ← release h .pid_lock
    if tfOk then release h (.prio_lock DEF_PRIO) else release h (.proc_lock p)

/-- The locks held when `fork` returns: a child's lock, held since `allocproc`,
is released on both of `fork`'s later paths. -/
def fork_held (t : PTable) (tfOk : Bool) (held : List Lock) : Except String (List Lock) := do
  let h ← t.allocproc_held tfOk held
  match t.allocproc tfOk with
  | (_, none) => pure h
  | (_, some p) => release h (.proc_lock p)

/-- No lock of the process table is held. -/
def Unlocked (held : List Lock) : Prop :=
  Lock.prio_lock DEF_PRIO ∉ held ∧ Lock.pid_lock ∉ held ∧ ∀ p, Lock.proc_lock p ∉ held

variable {t : PTable} {held : List Lock}

/-- From a CPU holding no lock of the table, the scan releases what it takes for
each slot in use and stops at the first unused one, holding its two locks. -/
theorem allocprocScan_eq (hu : Unlocked held) (ps : List (Fin NPROC)) :
    t.allocprocScan held ps =
      match ps.find? fun p => (t.proc p).state == .UNUSED with
      | none => .ok (held, none)
      | some p => .ok (.proc_lock p :: .prio_lock DEF_PRIO :: held, some p) := by
  induction ps with
  | nil => rfl
  | cons p ps ih =>
    have hp : Lock.proc_lock p ∉ Lock.prio_lock DEF_PRIO :: held := by simpa using hu.2.2 p
    by_cases hst : (t.proc p).state = .UNUSED
    · simp [allocprocScan, acquire_of_not_mem hu.1, acquire_of_not_mem hp, hst]
    · simp [allocprocScan, acquire_of_not_mem hu.1, acquire_of_not_mem hp, hst, release_cons, ih]

/-- The first unused slot, the one `allocproc` takes. -/
theorem allocproc_held_of_find {p : Fin NPROC} (hu : Unlocked held)
    (hp : (List.finRange NPROC).find? (fun p => (t.proc p).state == .UNUSED) = some p) (tfOk : Bool) :
    t.allocproc_held tfOk held =
      .ok (if tfOk then .proc_lock p :: held else .prio_lock DEF_PRIO :: held) := by
  have hpid : Lock.pid_lock ∉ Lock.proc_lock p :: Lock.prio_lock DEF_PRIO :: held := by
    simpa using hu.2.1
  cases tfOk <;>
    simp [allocproc_held, allocprocScan_eq hu, hp, acquire_of_not_mem hpid, release]

/-- The slot `allocproc` rewrites when the trapframe's `kalloc` fails. -/
theorem allocproc_tf_failure {p : Fin NPROC}
    (hp : (List.finRange NPROC).find? (fun p => (t.proc p).state == .UNUSED) = some p) :
    t.allocproc false =
      ({ t.setProc p { t.proc p with pid := t.nextpid } with nextpid := t.nextpid + 1 }, none) := by
  simp [allocproc, hp]

/-- `fork` failing at the trapframe: it returns `-1` with slot `p`, the first unused
one, now holding pid `nextpid`, and with `prio_lock[DEF_PRIO]` held by the CPU; from
there any later `fork` on that CPU panics in `acquire` before it looks at a slot. -/
theorem fork_tf_failure_keeps_lock {p : Fin NPROC} (hu : Unlocked held)
    (hp : (List.finRange NPROC).find? (fun p => (t.proc p).state == .UNUSED) = some p) :
    (t.allocproc false).2 = none ∧ ((t.allocproc false).1.proc p).pid = t.nextpid ∧
      t.fork_held false held = .ok (.prio_lock DEF_PRIO :: held) ∧
      ∀ (t' : PTable) (tfOk : Bool), t'.fork_held tfOk (.prio_lock DEF_PRIO :: held) = .error "acquire" := by
  refine ⟨by simp [allocproc_tf_failure hp], by simp [allocproc_tf_failure hp], ?_, fun t' tfOk => ?_⟩
  · simp [fork_held, allocproc_held_of_find hu hp, allocproc_tf_failure hp]
  · -- the scan's first `acquire` is of the lock still held
    obtain ⟨q, qs, hqs⟩ := List.exists_cons_of_ne_nil (List.ne_nil_of_mem (List.mem_finRange (0 : Fin NPROC)))
    have hscan : t'.allocprocScan (.prio_lock DEF_PRIO :: held) (List.finRange NPROC) = .error "acquire" := by
      rw [hqs]
      simp [allocprocScan, acquire_of_mem List.mem_cons_self]
    simp [fork_held, allocproc_held, hscan]

/-- The free slots of a booted table: slot `0` is the first unused one. -/
theorem fork_tf_failure_boot :
    Unlocked [] ∧ (List.finRange NPROC).find? (fun p => (init.proc p).state == .UNUSED) = some 0 ∧
      (init.allocproc false).2 = none ∧ ((init.allocproc false).1.proc 0).pid = init.nextpid ∧
      init.fork_held false [] = .ok [.prio_lock DEF_PRIO] ∧
      ∀ (t' : PTable) (tfOk : Bool), t'.fork_held tfOk [.prio_lock DEF_PRIO] = .error "acquire" := by
  have hu : Unlocked [] := ⟨List.not_mem_nil, List.not_mem_nil, fun _ => List.not_mem_nil⟩
  have hp : (List.finRange NPROC).find? (fun p => (init.proc p).state == .UNUSED) = some 0 := by
    decide
  exact ⟨hu, hp, fork_tf_failure_keeps_lock hu hp⟩

/-- `kill` stops at the first slot with the pid: when that slot is free, the
call reports success and the slot, still `UNUSED`, is marked killed. -/
theorem kill_marks_unused {pid : Nat} {p : Fin NPROC}
    (hp : (List.finRange NPROC).find? (fun p => (t.proc p).pid == pid) = some p)
    (hu : (t.proc p).state = .UNUSED) :
    (t.kill pid).2 = 0 ∧ ((t.kill pid).1.proc p).state = .UNUSED ∧ ((t.kill pid).1.proc p).killed = true := by
  simp [kill, hp, hu]

/-- `allocproc` hands out a slot with the `killed` flag it had while free. -/
theorem allocproc_killed {tfOk : Bool} {t' : PTable} {p : Fin NPROC}
    (heq : t.allocproc tfOk = (t', some p)) : (t'.proc p).killed = (t.proc p).killed := by
  unfold allocproc at heq
  split at heq
  · cases heq
  · next q hq =>
    split at heq
    · simp only [Prod.mk.injEq, Option.some.injEq] at heq
      obtain ⟨rfl, rfl⟩ := heq
      simp
    · cases heq

end PTable

namespace Kernel

/-- A `fork` child starts with the `killed` flag its slot had while free. -/
theorem fork_child_killed {k : Kernel} {p np : Fin NPROC} {tfOk : Bool} {t : PTable}
    (heq : k.t.allocproc tfOk = (t, some np)) :
    ((k.fork p tfOk true).t.proc np).killed = (k.t.proc np).killed := by
  simp only [fork, heq, setPc]
  simp [PTable.allocproc_killed heq]

end Kernel

/-- From boot, with `initproc` running, `kill(0)` reports success by marking the
free slot `1`; the next `fork` puts its child in that slot, runnable and already
killed, so that it exits at its first trap. -/
theorem kill_zero_marks_child :
    ∃ k : Kernel, k.Reachable ∧ k.cur = some 0 ∧ (k.t.kill 0).2 = 0 ∧
      ∃ k₁, k.step (.kill 0) = some k₁ ∧ (k₁.t.proc 1).state = .UNUSED ∧ (k₁.t.proc 1).killed = true ∧
        ∃ k₂, k₁.step (.fork true true) = some k₂ ∧ (k₂.t.proc 1).state = .RUNNABLE ∧
          (k₂.t.proc 1).parent = some 0 ∧ (k₂.t.proc 1).killed = true := by
  have key : (Kernel.run Kernel.boot [.userinit true, .scheduler]).map (fun k =>
      decide (k.cur = some 0 ∧ (k.t.kill 0).2 = 0) &&
        (k.step (.kill 0)).any fun k₁ =>
          decide ((k₁.t.proc 1).state = .UNUSED ∧ (k₁.t.proc 1).killed = true) &&
            (k₁.step (.fork true true)).any fun k₂ =>
              decide ((k₂.t.proc 1).state = .RUNNABLE ∧ (k₂.t.proc 1).parent = some 0 ∧
                (k₂.t.proc 1).killed = true)) = some true := by
    decide
  obtain ⟨k, hk, hfacts⟩ := Option.map_eq_some_iff.mp key
  obtain ⟨hk₀, hany⟩ := Bool.and_eq_true_iff.mp hfacts
  obtain ⟨k₁, hk₁, hfacts₁⟩ := (Option.any_eq_true _ _).mp hany
  obtain ⟨hk₁', hany₁⟩ := Bool.and_eq_true_iff.mp hfacts₁
  obtain ⟨k₂, hk₂, hk₂'⟩ := (Option.any_eq_true _ _).mp hany₁
  exact ⟨k, ⟨_, hk⟩, (of_decide_eq_true hk₀).1, (of_decide_eq_true hk₀).2, k₁, hk₁,
    (of_decide_eq_true hk₁').1, (of_decide_eq_true hk₁').2, k₂, hk₂, of_decide_eq_true hk₂'⟩

end Xv6
