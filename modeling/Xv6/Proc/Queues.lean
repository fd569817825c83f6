import Xv6.Proc.Kernel

/-!
# The priority queues are well formed

The queues are a side structure that `allocproc`, `exit`, `nice` and the
scheduler keep in step with the process table by hand. `QueuesWF` is what
`remove_from_prio_queue`, `nice` and the scheduler rely on: every node names a
process in use, no queue has two nodes for one process, and a process's node
lies in the queue of its priority (so that no process has nodes in two queues
either).

`Keeps t t'` is the frame of most steps: the same queues and priorities, no
process freed and no new zombie. The steps that do move nodes are checked one by
one, and `Kernel.Inv.run` carries the invariant along every run in which each
`fork` copies its memory: `queuesWF_of_run`. A `fork` whose copy fails is the one
step that breaks it, as `fork_failure_keeps_node` shows from boot.
-/

namespace Xv6

namespace PTable

/-- No queue has a node for `p`. -/
def NoNode (t : PTable) (p : Fin NPROC) : Prop := ∀ i < NPRIO, p ∉ t.prio i

/-- The queues are well formed. -/
structure QueuesWF (t : PTable) : Prop where
  used : ∀ i < NPRIO, ∀ p ∈ t.prio i, (t.proc p).state ≠ .UNUSED
  nodup : ∀ i < NPRIO, (t.prio i).Nodup
  home : ∀ i < NPRIO, ∀ p ∈ t.prio i, (t.proc p).priority = i

/-- Every priority names one of the `NPRIO` queues. -/
def PrioLt (t : PTable) : Prop := ∀ p, (t.proc p).priority < NPRIO

/-- The same queues and priorities, no process in use freed, no new zombie. -/
structure Keeps (t t' : PTable) : Prop where
  prio : t'.prio = t.prio
  priority : ∀ p, (t'.proc p).priority = (t.proc p).priority
  used : ∀ p, (t.proc p).state ≠ .UNUSED → (t'.proc p).state ≠ .UNUSED
  zombie : ∀ p, (t'.proc p).state = .ZOMBIE → (t.proc p).state = .ZOMBIE

variable {t t' t'' : PTable} {p q : Fin NPROC}

theorem NoNode.ne {i : Nat} (hn : t.NoNode q) (hi : i < NPRIO) (hp : p ∈ t.prio i) : p ≠ q := by
  rintro rfl
  exact hn i hi hp

theorem NoNode.remove (hn : t.NoNode p) (q : Fin NPROC) : (t.remove_from_prio_queue q).NoNode p :=
  fun i hi hp => hn i hi (mem_of_mem_remove_from_prio_queue hp)

theorem NoNode.insert (hn : t.NoNode p) (hq : p ≠ q) : (t.insert_into_prio_queue q).NoNode p := by
  intro i hi hp
  rcases mem_insert_into_prio_queue.mp hp with hp | ⟨rfl, -⟩
  · exact hn i hi hp
  · exact hq rfl

theorem NoNode.setProc (hn : t.NoNode p) (q : Fin NPROC) (x : Proc) : (t.setProc q x).NoNode p :=
  hn

theorem QueuesWF.noNode (hw : t.QueuesWF) (hp : (t.proc p).state = .UNUSED) : t.NoNode p :=
  fun i hi hmem => hw.used i hi p hmem hp

/-- A process that has a node is in use. -/
theorem QueuesWF.used_of_mem (hw : t.QueuesWF) {i : Nat} (hi : i < NPRIO) (hp : p ∈ t.prio i) :
    (t.proc p).state ≠ .UNUSED :=
  hw.used i hi p hp

theorem Keeps.refl (t : PTable) : Keeps t t :=
  ⟨rfl, fun _ => rfl, fun _ h => h, fun _ h => h⟩

theorem Keeps.trans (h₁ : Keeps t t') (h₂ : Keeps t' t'') : Keeps t t'' :=
  ⟨h₂.prio.trans h₁.prio, fun p => (h₂.priority p).trans (h₁.priority p),
    fun p h => h₂.used p (h₁.used p h), fun p h => h₁.zombie p (h₂.zombie p h)⟩

theorem Keeps.nextpid (h : Keeps t t') (n : Nat) : Keeps t { t' with nextpid := n } :=
  ⟨h.prio, h.priority, h.used, h.zombie⟩

theorem Keeps.noNode (h : Keeps t t') (hn : t.NoNode p) : t'.NoNode p := by
  intro i hi hp
  rw [h.prio] at hp
  exact hn i hi hp

theorem keeps_setProc {x : Proc} (hx : x.priority = (t.proc q).priority)
    (hs : (t.proc q).state ≠ .UNUSED → x.state ≠ .UNUSED)
    (hz : x.state = .ZOMBIE → (t.proc q).state = .ZOMBIE) : Keeps t (t.setProc q x) := by
  refine ⟨rfl, fun p => ?_, fun p => ?_, fun p => ?_⟩ <;> by_cases hpq : p = q
  · subst hpq
    simpa using hx
  · rw [setProc_proc_of_ne _ hpq]
  · subst hpq
    simpa using hs
  · rw [setProc_proc_of_ne _ hpq]
    exact id
  · subst hpq
    simpa using hz
  · rw [setProc_proc_of_ne _ hpq]
    exact id

/-- A change of a process's state among the states in use. -/
theorem keeps_setState {s : ProcState} (hs : s ≠ .UNUSED) (hz : s ≠ .ZOMBIE) :
    Keeps t (t.setProc q { t.proc q with state := s }) :=
  keeps_setProc rfl (fun _ => hs) (fun h => absurd h hz)

theorem keeps_wakeup (c : Chan) : Keeps t (t.wakeup c) := by
  refine ⟨rfl, fun p => ?_, fun p h => ?_, fun p h => ?_⟩
  · simp only [wakeup]
    split_ifs <;> rfl
  · simp only [wakeup]
    split_ifs
    · simp
    · exact h
  · simp only [wakeup] at h
    split_ifs at h
    exact h

theorem keeps_wakeup1 (p : Fin NPROC) : Keeps t (t.wakeup1 p) := by
  unfold wakeup1
  split_ifs
  · exact keeps_setState (by decide) (by decide)
  · exact Keeps.refl t

theorem keeps_reparent (p i : Fin NPROC) : Keeps t (t.reparent p i) := by
  refine ⟨rfl, fun q => ?_, fun q h => ?_, fun q h => ?_⟩
  · simp only [reparent]
    split_ifs <;> rfl
  · simp only [reparent]
    split_ifs <;> exact h
  · simp only [reparent] at h
    split_ifs at h <;> exact h

theorem keeps_kill (pid : Nat) : Keeps t (t.kill pid).1 := by
  unfold kill
  split
  · exact Keeps.refl t
  · refine keeps_setProc ?_ (fun h => ?_) (fun h => ?_) <;> split_ifs at * <;> simp_all

/-- `allocproc` without a process only spends a pid. -/
theorem keeps_allocproc_none {tfOk : Bool} (heq : t.allocproc tfOk = (t', none)) : Keeps t t' := by
  unfold allocproc at heq
  split at heq
  · cases heq
    exact Keeps.refl t
  · split at heq
    · cases heq
    · next q _ _ =>
      cases heq
      have hk : Keeps t (t.setProc q { t.proc q with pid := t.nextpid }) := keeps_setProc rfl id id
      exact hk.nextpid _

theorem QueuesWF.keeps (hw : t.QueuesWF) (h : Keeps t t') : t'.QueuesWF where
  used i hi p hp := h.used p (hw.used i hi p (h.prio ▸ hp))
  nodup i hi := h.prio ▸ hw.nodup i hi
  home i hi p hp := (h.priority p).trans (hw.home i hi p (h.prio ▸ hp))

theorem PrioLt.keeps (hl : t.PrioLt) (h : Keeps t t') : t'.PrioLt :=
  fun p => h.priority p ▸ hl p

theorem PrioLt.setProc (hl : t.PrioLt) {x : Proc} (hx : x.priority < NPRIO) :
    (t.setProc q x).PrioLt := by
  intro p
  by_cases hpq : p = q
  · subst hpq
    simpa using hx
  · rw [setProc_proc_of_ne _ hpq]
    exact hl p

/-- Any change to a process without a node. -/
theorem QueuesWF.setProc (hw : t.QueuesWF) (hn : t.NoNode q) (x : Proc) :
    (t.setProc q x).QueuesWF where
  used i hi p hp := by
    rw [setProc_proc_of_ne _ (hn.ne hi hp)]
    exact hw.used i hi p hp
  nodup := hw.nodup
  home i hi p hp := by
    rw [setProc_proc_of_ne _ (hn.ne hi hp)]
    exact hw.home i hi p hp

theorem QueuesWF.remove (hw : t.QueuesWF) (q : Fin NPROC) : (t.remove_from_prio_queue q).QueuesWF where
  used i hi p hp := hw.used i hi p (mem_of_mem_remove_from_prio_queue hp)
  nodup i hi := by
    simp only [remove_from_prio_queue, Function.update_apply]
    split_ifs with hiq
    · exact (hiq ▸ hw.nodup i hi).erase q
    · exact hw.nodup i hi
  home i hi p hp := hw.home i hi p (mem_of_mem_remove_from_prio_queue hp)

/-- With no two nodes in its queue, a removed process has none left. -/
theorem QueuesWF.noNode_remove (hw : t.QueuesWF) (hlt : (t.proc q).priority < NPRIO) :
    (t.remove_from_prio_queue q).NoNode q := by
  intro i hi hq
  simp only [remove_from_prio_queue, Function.update_apply] at hq
  split_ifs at hq with hiq
  · subst hiq
    exact (hw.nodup _ hlt).not_mem_erase hq
  · exact hiq (hw.home i hi q hq).symm

/-- A node for a process that had none, and the process's new fields, in use
and of the same priority. -/
theorem QueuesWF.insert_setProc (hw : t.QueuesWF) (hn : t.NoNode q)
    (hlt : (t.proc q).priority < NPRIO) {x : Proc} (hx : x.state ≠ .UNUSED)
    (hxp : x.priority = (t.proc q).priority) :
    ((t.insert_into_prio_queue q).setProc q x).QueuesWF where
  used i hi p hp := by
    rcases mem_insert_into_prio_queue.mp hp with hp | ⟨rfl, -⟩
    · rw [setProc_proc_of_ne _ (hn.ne hi hp)]
      exact hw.used i hi p hp
    · simpa using hx
  nodup i hi := by
    simp only [setProc_prio, insert_into_prio_queue, Function.update_apply]
    split_ifs with hiq
    · subst hiq
      exact (hw.nodup _ hlt).append (List.nodup_singleton q)
        (List.disjoint_singleton.mpr (hn _ hlt))
    · exact hw.nodup i hi
  home i hi p hp := by
    rcases mem_insert_into_prio_queue.mp hp with hp | ⟨rfl, rfl⟩
    · rw [setProc_proc_of_ne _ (hn.ne hi hp)]
      exact hw.home i hi p hp
    · simpa using hxp

theorem QueuesWF.insert (hw : t.QueuesWF) (hn : t.NoNode q) (hlt : (t.proc q).priority < NPRIO)
    (hs : (t.proc q).state ≠ .UNUSED) : (t.insert_into_prio_queue q).QueuesWF := by
  have h := hw.insert_setProc hn hlt hs rfl
  rwa [show t.proc q = (t.insert_into_prio_queue q).proc q from rfl, setProc_self] at h

/-- The process `allocproc` returns, given its fields in use. -/
theorem QueuesWF.allocproc (hw : t.QueuesWF) {tfOk : Bool} (heq : t.allocproc tfOk = (t', some p))
    {x : Proc} (hx : x.state ≠ .UNUSED) (hxp : x.priority = DEF_PRIO) : (t'.setProc p x).QueuesWF := by
  unfold PTable.allocproc at heq
  split at heq
  · cases heq
  · next q hq =>
    have hu : (t.proc q).state = .UNUSED := by simpa using List.find?_some hq
    split at heq
    · simp only [Prod.mk.injEq, Option.some.injEq] at heq
      obtain ⟨rfl, rfl⟩ := heq
      -- the slot gets its pid, then its priority, then its node
      set t₁ : PTable := { t.setProc q { t.proc q with pid := t.nextpid } with nextpid := t.nextpid + 1 }
      set t₂ := t₁.setProc q { t₁.proc q with priority := DEF_PRIO }
      have hn : t₁.NoNode q := hw.noNode hu
      have hw₁ : t₁.QueuesWF := (hw.setProc (hw.noNode hu) { t.proc q with pid := t.nextpid }).keeps
        ((Keeps.refl _).nextpid _)
      have hw₂ : t₂.QueuesWF := hw₁.setProc hn _
      exact hw₂.insert_setProc hn (by simp only [t₂, setProc_proc_self]; decide) hx
        (by simp only [t₂, setProc_proc_self]; exact hxp)
    · cases heq

theorem PrioLt.allocproc (hl : t.PrioLt) {tfOk : Bool} {o : Option (Fin NPROC)}
    (heq : t.allocproc tfOk = (t', o)) : t'.PrioLt := by
  unfold PTable.allocproc at heq
  split at heq
  · cases heq
    exact hl
  · next q hq =>
    have hl₁ : PrioLt { t.setProc q { t.proc q with pid := t.nextpid } with
        nextpid := t.nextpid + 1 } := hl.setProc (hl q)
    split at heq <;> cases heq
    · exact hl₁.setProc (show DEF_PRIO < NPRIO by decide)
    · exact hl₁

/-- `allocproc` touches only the slot it returns. -/
theorem allocproc_of_ne {tfOk : Bool} (heq : t.allocproc tfOk = (t', some p)) (hq : q ≠ p) :
    t'.proc q = t.proc q ∧ (t.NoNode q → t'.NoNode q) := by
  unfold PTable.allocproc at heq
  split at heq
  · cases heq
  · split at heq
    · cases heq
      refine ⟨?_, fun hn => NoNode.insert hn hq⟩
      simp [setProc_proc_of_ne _ hq]
    · cases heq

theorem allocproc_priority {tfOk : Bool} (heq : t.allocproc tfOk = (t', some p)) :
    (t'.proc p).priority = DEF_PRIO := by
  unfold PTable.allocproc at heq
  split at heq
  · cases heq
  · split at heq <;> cases heq
    simp

theorem allocproc_unused {tfOk : Bool} (heq : t.allocproc tfOk = (t', some p)) :
    (t.proc p).state = .UNUSED := by
  unfold PTable.allocproc at heq
  split at heq
  · cases heq
  · next q hq =>
    have hp : q = p := by split at heq <;> cases heq; rfl
    subst hp
    simpa using List.find?_some hq

/-- The scheduler picks a process through its node. -/
theorem mem_of_pick {t : PTable} (hq : t.pick_highest_priority_runnable_proc = some q) :
    ∃ i < NPRIO, q ∈ t.prio i := by
  obtain ⟨l, hl, hfind⟩ := List.exists_of_findSome?_eq_some hq
  obtain ⟨i, hi, rfl⟩ := List.mem_map.mp hl
  exact ⟨i, List.mem_range.mp hi, List.mem_of_find?_eq_some hfind⟩

/-- `nice` finds a process through its node. -/
theorem mem_of_findPid {t : PTable} {pid : Nat} (hq : t.findPid pid = some q) :
    ∃ i < NPRIO, q ∈ t.prio i := by
  obtain ⟨l, hl, hfind⟩ := List.exists_of_findSome?_eq_some hq
  obtain ⟨i, hi, rfl⟩ := List.mem_map.mp hl
  exact ⟨i, List.mem_range.mp hi, List.mem_of_find?_eq_some hfind⟩

end PTable

open PTable

/-- The places in `exit` after it has left its queue. -/
def Pc.exiting : Pc → Bool
  | .exitBegin | .exitTxn | .commit true => true
  | _ => false

@[simp] theorem Pc.exiting_commit (b : Bool) : (Pc.commit b).exiting = b := by
  cases b <;> rfl

namespace Kernel

/-- The queues are well formed, every priority names a queue, and a process past
the start of `exit`, or a zombie, has no node. -/
structure Inv (k : Kernel) : Prop where
  wf : k.t.QueuesWF
  prio : k.t.PrioLt
  exiting : ∀ p, (k.pc p).exiting → k.t.NoNode p
  zombie : ∀ p, (k.t.proc p).state = .ZOMBIE → k.t.NoNode p

variable {k k' : Kernel} {p : Fin NPROC}

theorem inv_boot : boot.Inv where
  wf := ⟨fun _ _ _ h => by simp [boot, PTable.init] at h, fun _ _ => List.nodup_nil,
    fun _ _ _ h => by simp [boot, PTable.init] at h⟩
  prio _ := show 0 < NPRIO by decide
  exiting _ h := by simp [boot, Pc.exiting] at h
  zombie _ h := by simp [boot, PTable.init, Proc.unused] at h

/-- A process with a node is neither past the start of `exit` nor a zombie. -/
theorem Inv.not_exiting (h : k.Inv) {i : Nat} (hi : i < NPRIO) (hp : p ∈ k.t.prio i) :
    (k.pc p).exiting = false ∧ (k.t.proc p).state ≠ .ZOMBIE := by
  refine ⟨Bool.eq_false_iff.mpr fun he => h.exiting p he i hi hp, fun hz => h.zombie p hz i hi hp⟩

theorem Inv.of_keeps (h : k.Inv) (hk : Keeps k.t k'.t) (hpc : k'.pc = k.pc) : k'.Inv where
  wf := h.wf.keeps hk
  prio := h.prio.keeps hk
  exiting q he := hk.noNode (h.exiting q (hpc ▸ he))
  zombie q hz := hk.noNode (h.zombie q (hk.zombie q hz))

theorem Inv.setPc (h : k.Inv) {x : Pc} (hx : x.exiting → k.t.NoNode p) : (k.setPc p x).Inv where
  wf := h.wf
  prio := h.prio
  exiting q he := by
    by_cases hqp : q = p
    · subst hqp
      exact hx (by simpa [Kernel.setPc] using he)
    · exact h.exiting q (by simpa [Kernel.setPc, Function.update_of_ne hqp] using he)
  zombie := h.zombie

/-- A change to a process without a node, within the `NPRIO` priorities. -/
theorem Inv.setProc (h : k.Inv) (hn : k.t.NoNode p) {x : Proc} (hx : x.priority < NPRIO)
    (ht : k'.t = k.t.setProc p x) (hpc : k'.pc = k.pc) : k'.Inv where
  wf := ht ▸ h.wf.setProc hn x
  prio := ht ▸ h.prio.setProc hx
  exiting q he := ht ▸ h.exiting q (hpc ▸ he)
  zombie q hz := by
    rw [ht]
    by_cases hqp : q = p
    · exact hqp ▸ hn
    · rw [ht, setProc_proc_of_ne _ hqp] at hz
      exact h.zombie q hz

theorem Inv.sleep (h : k.Inv) (p : Fin NPROC) (c : Chan) : (k.sleep p c).Inv :=
  h.of_keeps (keeps_setProc rfl (fun _ => by simp) (fun hz => by simp at hz)) rfl

theorem Inv.beginOp (h : k.Inv) {retry next : Pc} (hr : retry.exiting → k.t.NoNode p)
    (hn : next.exiting → k.t.NoNode p) : (k.beginOp p retry next).Inv := by
  unfold Kernel.beginOp
  split
  · exact (h.sleep p .log).setPc hr
  · next l _ =>
    have hl : ({ k with log := l } : Kernel).Inv := ⟨h.wf, h.prio, h.exiting, h.zombie⟩
    exact hl.setPc hn

theorem Inv.endCommit (h : k.Inv) : k.endCommit.Inv :=
  h.of_keeps (keeps_wakeup .log) rfl

/-- The end of `exit`: the wakeups and the reparenting keep the frame, and the
process, which has no node, becomes a zombie. -/
theorem Inv.finishExit (h : k.Inv) (hp : k.t.NoNode p) (hk : k.finishExit p = some k') : k'.Inv := by
  simp only [Kernel.finishExit, Option.bind_eq_bind, Option.bind_eq_some_iff] at hk
  obtain ⟨i, -, parent, -, hk⟩ := hk
  cases hk
  have hkeep : Keeps k.t (((k.t.wakeup1 i).reparent p i).wakeup1 parent) :=
    ((keeps_wakeup1 i).trans (keeps_reparent p i)).trans (keeps_wakeup1 parent)
  have h₁ : ({ k with t := ((k.t.wakeup1 i).reparent p i).wakeup1 parent } : Kernel).Inv :=
    h.of_keeps hkeep rfl
  exact h₁.setProc (hkeep.noNode hp) (by simpa [hkeep.priority] using h.prio p) rfl rfl

theorem Inv.afterCommit (h : k.Inv) (exiting : Bool) (hp : exiting → k.t.NoNode p)
    (hk : (if exiting then k.finishExit p else some (k.setPc p .user)) = some k') : k'.Inv := by
  split at hk
  · exact h.finishExit (hp ‹_›) hk
  · cases hk
    exact h.setPc nofun

theorem Inv.endOp (h : k.Inv) {exiting : Bool} (hp : exiting → k.t.NoNode p)
    (hk : k.endOp p exiting = some k') : k'.Inv := by
  have hl : ∀ l : Log, ({ k with log := l } : Kernel).Inv := fun _ =>
    ⟨h.wf, h.prio, h.exiting, h.zombie⟩
  -- the call that does not commit wakes the log's sleepers, which moves no node
  have hw : ∀ l : Log, ({ k with log := l, t := k.t.wakeup .log } : Kernel).Inv := fun _ =>
    h.of_keeps (keeps_wakeup .log) rfl
  unfold Kernel.endOp at hk
  rcases hlock : k.log.endOpLocked with _ | ⟨l, _ | _⟩ <;> simp only [hlock] at hk
  · cases hk
  · exact (hw l).afterCommit exiting (fun he => (keeps_wakeup .log).noNode (hp he)) hk
  · split at hk
    · cases hk
      exact ((hl l).sleep p .disk).setPc fun he => hp (by simpa using he)
    · exact (hl l).endCommit.afterCommit exiting hp hk

/-- The process `allocproc` returns, made runnable and sent to user space, as
`userinit` and `fork` do. -/
theorem Inv.spawn (h : k.Inv) {tfOk : Bool} {t : PTable} {np : Fin NPROC}
    (heq : k.t.allocproc tfOk = (t, some np)) {x : Proc} (ht : k'.t = t.setProc np x)
    (hpc : k'.pc = Function.update k.pc np .user) (hx : x.state = .RUNNABLE)
    (hxp : x.priority = (t.proc np).priority) : k'.Inv := by
  have hlt := allocproc_priority heq
  refine ⟨ht ▸ h.wf.allocproc heq (by simp [hx]) (hxp.trans hlt),
    ht ▸ (h.prio.allocproc heq).setProc (by rw [hxp, hlt]; decide), fun q he => ?_, fun q hz => ?_⟩
  all_goals
    rw [ht]
    by_cases hq : q = np
  · subst hq
    simp [hpc, Pc.exiting] at he
  · rw [hpc, Function.update_of_ne hq] at he
    exact (allocproc_of_ne heq hq).2 (h.exiting q he)
  · subst hq
    simp [ht, hx] at hz
  · rw [ht, setProc_proc_of_ne _ hq, (allocproc_of_ne heq hq).1] at hz
    exact (allocproc_of_ne heq hq).2 (h.zombie q hz)

/-- A `fork` whose copy succeeds. -/
theorem Inv.fork (h : k.Inv) (p : Fin NPROC) (tfOk : Bool) : (k.fork p tfOk true).Inv := by
  unfold Kernel.fork
  split
  · next t heq => exact h.of_keeps (keeps_allocproc_none heq) rfl
  · next t np heq =>
    rw [if_pos rfl]
    exact h.spawn heq rfl rfl rfl rfl

theorem Inv.wait (h : k.Inv) (p : Fin NPROC) : (k.wait p).Inv := by
  unfold Kernel.wait
  dsimp only
  split
  · next z hz =>
    have hzz : (k.t.proc z).state = .ZOMBIE := by simpa using List.find?_some hz
    exact h.setProc (h.zombie z hzz) (by decide) rfl rfl
  · split
    · exact h
    · exact h.sleep p _

/-- A step that moves the node of a queued process `q`: the other processes
keep their nodes or their lack of one, and no zombie appears. -/
theorem Inv.requeue (h : k.Inv) {q : Fin NPROC} {i : Nat} (hi : i < NPRIO) (hmem : q ∈ k.t.prio i)
    {t' : PTable} (hw : t'.QueuesWF) (hl : t'.PrioLt) (hn : ∀ r, r ≠ q → k.t.NoNode r → t'.NoNode r)
    (hz : ∀ r, (t'.proc r).state = .ZOMBIE → (k.t.proc r).state = .ZOMBIE) (ht : k'.t = t')
    (hpc : k'.pc = k.pc) : k'.Inv := by
  subst ht
  have hq := h.not_exiting hi hmem
  refine ⟨hw, hl, fun r he => ?_, fun r hzr => ?_⟩
  all_goals by_cases hrq : r = q
  · subst hrq
    rw [hpc, hq.1] at he
    cases he
  · exact hn r hrq (h.exiting r (hpc ▸ he))
  · subst hrq
    exact absurd (hz r hzr) hq.2
  · exact hn r hrq (h.zombie r (hz r hzr))

/-- The scheduler's rotation: the picked process runs and its node moves to the
end of its queue. -/
theorem Inv.scheduler (h : k.Inv) {q : Fin NPROC}
    (hq : k.t.pick_highest_priority_runnable_proc = some q) :
    ({ k with t := ((k.t.setProc q { k.t.proc q with state := .RUNNING }).remove_from_prio_queue q
      ).insert_into_prio_queue q, cur := some q } : Kernel).Inv := by
  obtain ⟨i, hi, hmem⟩ := mem_of_pick hq
  have hkeep : Keeps k.t (k.t.setProc q { k.t.proc q with state := .RUNNING }) :=
    keeps_setState (by decide) (by decide)
  have hw₁ := h.wf.keeps hkeep
  have hlt : ((k.t.setProc q { k.t.proc q with state := .RUNNING }).proc q).priority < NPRIO :=
    h.prio.keeps hkeep q
  have hl₁ := h.prio.keeps hkeep
  exact h.requeue hi hmem ((hw₁.remove q).insert (hw₁.noNode_remove hlt) hlt (by simp))
    hl₁ (fun r hrq hr => ((hkeep.noNode hr).remove q).insert hrq) hkeep.zombie rfl rfl

/-- `nice` moves a process's node to the queue of its new priority. -/
theorem Inv.nice (h : k.Inv) (pid : Nat) {priority : Nat} (hpr : priority < NPRIO) :
    ({ k with t := (k.t.nice pid priority).1 } : Kernel).Inv := by
  unfold PTable.nice
  split
  · exact h
  · next q hq =>
    obtain ⟨i, hi, hmem⟩ := mem_of_findPid hq
    have hn := h.wf.noNode_remove (h.prio q)
    have hw₂ := (h.wf.remove q).setProc hn { k.t.proc q with priority := priority }
    refine h.requeue hi hmem (hw₂.insert hn (by simpa using hpr) (by simpa using h.wf.used_of_mem hi hmem))
      (h.prio.setProc hpr) (fun r hrq hr => ((hr.remove q).setProc q _).insert hrq) (fun r hzr => ?_)
      rfl rfl
    by_cases hrq : r = q
    · subst hrq
      simpa using hzr
    · simpa [setProc_proc_of_ne _ hrq] using hzr

/-- `exit` leaves the queue of its priority. -/
theorem Inv.exitStart (h : k.Inv) (hlt : (k.t.proc p).priority < NPRIO) :
    (({ k with t := k.t.remove_from_prio_queue p } : Kernel).setPc p .exitBegin).Inv := by
  have h₁ : ({ k with t := k.t.remove_from_prio_queue p } : Kernel).Inv :=
    ⟨h.wf.remove p, h.prio, fun q he => (h.exiting q he).remove p, fun q hz => (h.zombie q hz).remove p⟩
  exact h₁.setPc fun _ => h.wf.noNode_remove hlt

/-- Every step but a `fork` whose copy fails keeps the invariant. -/
theorem Inv.step (h : k.Inv) {e : Event} (he : ∀ tfOk, e ≠ .fork tfOk false)
    (hk : k.step e = some k') : k'.Inv := by
  cases e with
  | userinit tfOk =>
    simp only [Kernel.step] at hk
    split at hk
    · cases hk
    split at hk
    · cases hk
    · next t np heq =>
      cases hk
      exact h.spawn heq rfl rfl rfl rfl
  | scheduler =>
    simp only [Kernel.step] at hk
    split at hk
    · cases hk
    obtain ⟨q, hq, rfl⟩ := Option.map_eq_some_iff.mp hk
    exact h.scheduler hq
  | yield =>
    obtain ⟨q, -, rfl⟩ := Option.map_eq_some_iff.mp hk
    exact h.of_keeps (keeps_setState (by decide) (by decide)) rfl
  | fork tfOk copyOk =>
    cases copyOk
    · exact absurd rfl (he tfOk)
    obtain ⟨p, -, hk⟩ := Option.bind_eq_some_iff.mp hk
    split at hk
    · cases hk
      exact h.fork p tfOk
    · cases hk
  | fsBegin =>
    obtain ⟨p, -, hk⟩ := Option.bind_eq_some_iff.mp hk
    split at hk
    · cases hk
      exact h.beginOp (by simp [Pc.exiting]) (by simp [Pc.exiting])
    · cases hk
  | exitBegin =>
    obtain ⟨p, -, hk⟩ := Option.bind_eq_some_iff.mp hk
    split at hk
    · next hpc =>
      cases hk
      have hn : k.t.NoNode p := h.exiting p (by rw [hpc]; rfl)
      exact h.beginOp (fun _ => hn) (fun _ => hn)
    · cases hk
  | logWrite b =>
    obtain ⟨p, -, hk⟩ := Option.bind_eq_some_iff.mp hk
    split at hk
    · split at hk
      · cases hk
        exact ⟨h.wf, h.prio, h.exiting, h.zombie⟩
      · cases hk
    · cases hk
  | fsEnd =>
    obtain ⟨p, -, hk⟩ := Option.bind_eq_some_iff.mp hk
    split at hk
    · exact h.endOp (fun hf => absurd hf Bool.false_ne_true) hk
    · cases hk
  | exitEnd =>
    obtain ⟨p, -, hk⟩ := Option.bind_eq_some_iff.mp hk
    split at hk
    · next hpc => exact h.endOp (fun _ => h.exiting p (by rw [hpc]; rfl)) hk
    · cases hk
  | diskIntr =>
    cases hk
    exact h.of_keeps (keeps_wakeup _) rfl
  | commitDone =>
    obtain ⟨p, -, hk⟩ := Option.bind_eq_some_iff.mp hk
    split at hk
    · next exiting hpc =>
      exact h.endCommit.afterCommit exiting (fun hx => h.exiting p (by rw [hpc]; simpa using hx)) hk
    · cases hk
  | exitStart =>
    obtain ⟨p, -, hk⟩ := Option.bind_eq_some_iff.mp hk
    split at hk
    · cases hk
      rw [if_pos (h.prio p)]
      exact h.exitStart (h.prio p)
    · cases hk
  | wait =>
    obtain ⟨p, -, hk⟩ := Option.bind_eq_some_iff.mp hk
    split at hk
    · cases hk
      exact h.wait p
    · cases hk
  | nice pid priority =>
    obtain ⟨p, -, hk⟩ := Option.bind_eq_some_iff.mp hk
    split at hk
    · cases hk
      split
      · exact h
      · exact h.nice pid (by simp only [ NPRIO]; omega)
    · cases hk
  | kill pid =>
    obtain ⟨-, -, rfl⟩ := Option.map_eq_some_iff.mp hk
    exact h.of_keeps (keeps_kill pid) rfl

theorem Inv.run (h : k.Inv) {es : List Event} (hes : ∀ e ∈ es, ∀ tfOk, e ≠ .fork tfOk false)
    (hk : k.run es = some k') : k'.Inv := by
  induction es generalizing k with
  | nil =>
    cases hk
    exact h
  | cons e es ih =>
    obtain ⟨k₁, h₁, hk⟩ := Option.bind_eq_some_iff.mp hk
    exact ih (h.step (hes e List.mem_cons_self) h₁) (fun e he => hes e (List.mem_cons_of_mem _ he)) hk

end Kernel

/-- Along every run from boot in which each `fork` copies its memory, the
queues stay well formed. -/
theorem queuesWF_of_run {es : List Event} {k : Kernel}
    (hes : ∀ e ∈ es, ∀ tfOk, e ≠ .fork tfOk false) (hk : Kernel.run Kernel.boot es = some k) :
    k.t.QueuesWF :=
  (Kernel.inv_boot.run hes hk).wf

/-- `fork` whose copy of the memory fails frees the new slot but leaves its
node in `prio[DEF_PRIO]`: a node for an unused process, and after the next
`fork` takes the slot again, two nodes for one process. -/
theorem fork_failure_keeps_node :
    ∃ k : Kernel, k.Reachable ∧ (k.t.proc 1).state = .UNUSED ∧ (1 : Fin NPROC) ∈ k.t.prio DEF_PRIO ∧
      ¬ k.t.QueuesWF ∧ ∃ k', k.step (.fork true true) = some k' ∧
        (k'.t.prio DEF_PRIO).count 1 = 2 ∧ ¬ k'.t.QueuesWF := by
  have key : (Kernel.run Kernel.boot [.userinit true, .scheduler, .fork true false]).map
      (fun k => decide ((k.t.proc 1).state = .UNUSED ∧ (1 : Fin NPROC) ∈ k.t.prio DEF_PRIO) &&
        (k.step (.fork true true)).any fun k' => (k'.t.prio DEF_PRIO).count 1 == 2) =
      some true := by decide
  obtain ⟨k, hk, hfacts⟩ := Option.map_eq_some_iff.mp key
  obtain ⟨⟨hunused, hmem⟩, hany⟩ := Bool.and_eq_true_iff.mp hfacts |>.imp of_decide_eq_true id
  obtain ⟨k', hk', hc⟩ := (Option.any_eq_true _ _).mp hany
  have hcount : (k'.t.prio DEF_PRIO).count 1 = 2 := beq_iff_eq.mp hc
  refine ⟨k, ⟨_, hk⟩, hunused, hmem, fun hwf => hwf.used DEF_PRIO (by decide) 1 hmem hunused, k', hk', hcount,
    fun hwf => ?_⟩
  have hle := List.nodup_iff_count_le_one.mp (hwf.nodup DEF_PRIO (by decide)) 1
  omega

end Xv6
