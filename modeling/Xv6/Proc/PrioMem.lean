import Xv6.Lib.Slist
import Xv6.Buddy.Live
import Xv6.Proc.Basic

/-!
# The priority queues in memory

In `kernel/proc.c` a priority queue is a chain of `struct list_proc` nodes,
`{ p, next }`: `prio[i]` holds the address of the first node of queue `i`, `0`
when it is empty. `insert_into_prio_queue` takes a node from the buddy
allocator with `bd_malloc(sizeof(struct list_proc))`, writes `{ p, 0 }` into
it and links it after the last node; `remove_from_prio_queue` unlinks the first
node naming `p` and gives it back with `bd_free`.

`PrioMem` is that state: the heads, the nodes, and the allocator with the
pointers it has handed out. The words of the nodes lie in blocks the allocator
has handed out and its own free-list links in blocks it has not
(`Buddy.Heap.Inv.partition`), so the two are two memories here. `WF` says that
the heads start chains of distinct live nodes; `read i`, the processes along
queue `i`, is then the queue of the list model of `Xv6.Proc.Basic`.
`WF.insert` and `WF.remove` say that insertion and removal in memory are the
list model's `++ [p]` and `erase p` under that reading, with the chains still
well formed, and `WF.firstOf` that the scans over `prio[0]`, `prio[1]`, … find
what the list model's scans find.
-/

namespace Xv6

open Buddy Slist

/-- `sizeof(struct list_proc)`: a pointer to the process and one to the next node. -/
def LIST_PROC_SIZE : UInt64 := 16

/-- The queues as the code keeps them: the head of each `prio[i]`, the nodes in
memory, and the allocator they come from. -/
structure PrioMem where
  prio : Nat → Nat
  node : Slist.Mem (Fin NPROC)
  heap : Heap

namespace PrioMem

/-- `procinit`: every `prio[i]` null. -/
def init (heap : Heap) : PrioMem := ⟨fun _ => 0, fun _ => ⟨0, 0⟩, heap⟩

/-- The walks' bound: a chain of distinct live nodes is shorter. -/
def fuel (q : PrioMem) : Nat := q.heap.live.length + 1

/-- The nodes of queue `i`, along `next` from `prio[i]`. -/
def nodes (q : PrioMem) (i : Nat) : List Nat := addrs q.node q.fuel (q.prio i)

/-- The processes of queue `i`, in order. -/
def read (q : PrioMem) (i : Nat) : List (Fin NPROC) := (q.nodes i).map fun a => (q.node a).val

/-- `insert_into_prio_queue(p)` at priority `i`: a node from `bd_malloc`,
holding `p` and a null `next`, becomes `prio[i]` when the queue is empty and
follows its last node otherwise. A null `bd_malloc` result is written through,
a fault: `none`. -/
def insert (q : PrioMem) (i : Nat) (p : Fin NPROC) : Option PrioMem :=
  match bd_malloc q.heap.bd LIST_PROC_SIZE with
  | none => none
  | some (new, bd) =>
    if new = 0 then none
    else
      let heap : Heap := ⟨bd, (new, LIST_PROC_SIZE) :: q.heap.live⟩
      let node := Function.update q.node new ⟨p, 0⟩
      if q.prio i = 0 then some ⟨Function.update q.prio i new, node, heap⟩
      else
        let last := Slist.last node q.fuel (q.prio i)
        some ⟨q.prio, Function.update node last { node last with next := new }, heap⟩

/-- `remove_from_prio_queue(p)` at priority `i`: the first node of `prio[i]`
naming `p` leaves the chain and goes back to the allocator with `bd_free`;
`prio[i]` is written back either way. -/
def remove (q : PrioMem) (i : Nat) (p : Fin NPROC) : Option PrioMem :=
  match unlink q.node (fun v => v == p) (q.prio i) q.fuel 0 (q.prio i) with
  | (node, head, none) => some ⟨Function.update q.prio i head, node, q.heap⟩
  | (node, head, some old) =>
    (q.heap.step (.free old)).map fun heap => ⟨Function.update q.prio i head, node, heap⟩

/-- The scan of queue `i` in `pick_highest_priority_runnable_proc` and `nice`:
the first process along `prio[i]` that passes the test. -/
def firstIn (q : PrioMem) (ok : Fin NPROC → Bool) (i : Nat) : Option (Fin NPROC) :=
  find q.node ok q.fuel (q.prio i)

/-- The scan of `prio[0]`, `prio[1]`, …, `prio[NPRIO - 1]`. -/
def firstOf (q : PrioMem) (ok : Fin NPROC → Bool) : Option (Fin NPROC) :=
  (List.range NPRIO).findSome? (q.firstIn ok)

/-- The queues in memory are well formed: every `prio[i]` starts a chain, no
node is on two chains, every node is a live allocation of `LIST_PROC_SIZE`
bytes, and the allocator keeps its invariant. -/
structure WF (q : PrioMem) : Prop where
  chain : ∀ i, Chain q.node (q.prio i) (q.nodes i)
  disjoint : ∀ i j, i ≠ j → ∀ a ∈ q.nodes i, a ∉ q.nodes j
  live : ∀ i, ∀ a ∈ q.nodes i, (a, LIST_PROC_SIZE) ∈ q.heap.live
  heap : ∃ base end_, q.heap.Inv base end_

variable {q q' : PrioMem}

/-- Distinct live nodes are fewer than the fuel. -/
theorem length_lt_fuel {as : List Nat} (hnd : as.Nodup) (hl : ∀ a ∈ as, (a, LIST_PROC_SIZE) ∈ q.heap.live) :
    as.length < q.fuel := by
  have hsub : as.map (fun a => (a, LIST_PROC_SIZE)) ⊆ q.heap.live := fun y hy => by
    obtain ⟨a, ha, rfl⟩ := List.mem_map.mp hy
    exact hl a ha
  have hle := (hnd.map fun a b h => (Prod.mk.inj h).1).length_le_of_subset hsub
  rw [List.length_map] at hle
  unfold fuel
  omega

theorem WF.length_lt (hw : q.WF) (i : Nat) : (q.nodes i).length < q.fuel :=
  length_lt_fuel (hw.chain i).nodup (hw.live i)

/-- **Chains determine the queues**: heads that start chains of distinct live
nodes make well-formed queues, whose nodes are those chains. -/
theorem WF.of_chains {ns : Nat → List Nat} (hc : ∀ j, Chain q.node (q.prio j) (ns j))
    (hd : ∀ i j, i ≠ j → ∀ a ∈ ns i, a ∉ ns j) (hl : ∀ j, ∀ a ∈ ns j, (a, LIST_PROC_SIZE) ∈ q.heap.live)
    (hh : ∃ base end_, q.heap.Inv base end_) : q.WF ∧ q.nodes = ns := by
  have hn : q.nodes = ns := funext fun j => (hc j).addrs_eq (Nat.le_of_lt (length_lt_fuel (hc j).nodup (hl j)))
  subst hn
  exact ⟨⟨hc, hd, hl, hh⟩, rfl⟩

/-- The queues after `procinit` are empty. -/
theorem init_wf {heap : Heap} {base end_ : Nat} (hI : heap.Inv base end_) :
    (init heap).WF ∧ ∀ i, (init heap).read i = [] := by
  obtain ⟨hw, hn⟩ := @WF.of_chains (init heap) (fun _ => []) (fun _ => rfl)
    (fun _ _ _ _ h => absurd h List.not_mem_nil) (fun _ _ h => absurd h List.not_mem_nil) ⟨base, end_, hI⟩
  exact ⟨hw, fun i => by rw [read, hn, List.map_nil]⟩

/-! ## The scans -/

/-- The scan of queue `i` finds the first process of `read i` that passes. -/
theorem WF.firstIn (hw : q.WF) (ok : Fin NPROC → Bool) (i : Nat) : q.firstIn ok i = (q.read i).find? ok := by
  rw [PrioMem.firstIn, (hw.chain i).find_eq ok (Nat.le_of_lt (hw.length_lt i)), read]

/-- **The scans read the queues**: the first process that passes along
`prio[0]`, `prio[1]`, … is the one the list model's scan finds. -/
theorem WF.firstOf (hw : q.WF) (ok : Fin NPROC → Bool) :
    q.firstOf ok = ((List.range NPRIO).map q.read).findSome? fun l => l.find? ok := by
  rw [PrioMem.firstOf, List.findSome?_map]
  exact congrArg (List.findSome? · (List.range NPRIO)) (funext fun i => hw.firstIn ok i)

/-! ## Insertion -/

section Insert

variable {i : Nat} {p : Fin NPROC} {new : Nat} {bd : Bd}
  (hw : q.WF) (hm : bd_malloc q.heap.bd LIST_PROC_SIZE = some (new, bd)) (hnew : new ≠ 0)
include hw hm hnew

/-- The node `bd_malloc` hands out is on no queue. -/
theorem WF.fresh (j : Nat) : new ∉ q.nodes j := fun hj => by
  obtain ⟨base, end_, hI⟩ := hw.heap
  exact hI.malloc_fresh hm hnew _ (hw.live j new hj) rfl

/-- The heap after the `bd_malloc`. -/
theorem WF.malloc_inv : ∃ base end_, Heap.Inv base end_ ⟨bd, (new, LIST_PROC_SIZE) :: q.heap.live⟩ := by
  obtain ⟨base, end_, hI⟩ := hw.heap
  have hs : q.heap.step (.malloc LIST_PROC_SIZE) = some ⟨bd, (new, LIST_PROC_SIZE) :: q.heap.live⟩ := by
    simp [Heap.step, hm, hnew]
  exact ⟨base, end_, hI.malloc hs⟩

/-- The new node written, before it is linked: every queue reads the same. -/
theorem WF.chain_write (j : Nat) :
    Chain (Function.update q.node new ⟨p, 0⟩) (q.prio j) (q.nodes j) ∧
      (q.nodes j).map (fun a => (Function.update q.node new ⟨p, 0⟩ a).val) = q.read j := by
  have hne : ∀ a ∈ q.nodes j, a ≠ new := fun a ha h => hw.fresh hm hnew j (h ▸ ha)
  refine ⟨(hw.chain j).congr fun a ha => by rw [Function.update_of_ne (hne a ha)], ?_⟩
  exact List.map_congr_left fun a ha => by rw [Function.update_of_ne (hne a ha)]

/-- **The new node at the end of queue `i`**: memory whose heads start the old
chains, with `new` appended to queue `i`, and whose nodes hold the values the
write of `{ p, 0 }` left, is well formed and reads `p` at the end of queue `i`. -/
theorem WF.appended {q' : PrioMem} (hheap : q'.heap = ⟨bd, (new, LIST_PROC_SIZE) :: q.heap.live⟩)
    (hc : ∀ j, Chain q'.node (q'.prio j) (Function.update q.nodes i (q.nodes i ++ [new]) j))
    (hval : ∀ a, (q'.node a).val = (Function.update q.node new ⟨p, 0⟩ a).val) :
    q'.WF ∧ ∀ j, q'.read j = if j = i then q.read i ++ [p] else q.read j := by
  -- a node of the new queues is an old node of the same queue, or the new one in queue `i`
  have hold : ∀ j, ∀ a ∈ Function.update q.nodes i (q.nodes i ++ [new]) j, a ∈ q.nodes j ∨ j = i ∧ a = new :=
    fun j a ha => by
      by_cases hj : j = i
      · subst hj
        simp only [Function.update_self, List.mem_append, List.mem_singleton] at ha
        exact ha.imp_right fun h => ⟨rfl, h⟩
      · rw [Function.update_of_ne hj] at ha
        exact Or.inl ha
  have hd : ∀ j k, j ≠ k → ∀ a ∈ Function.update q.nodes i (q.nodes i ++ [new]) j,
      a ∉ Function.update q.nodes i (q.nodes i ++ [new]) k := fun j k hjk a ha hak => by
    rcases hold j a ha with ha' | ⟨hji, han⟩ <;> rcases hold k a hak with hak' | ⟨hki, han'⟩
    · exact hw.disjoint j k hjk a ha' hak'
    · exact hw.fresh hm hnew j (han' ▸ ha')
    · exact hw.fresh hm hnew k (han ▸ hak')
    · exact hjk (hji.trans hki.symm)
  have hl : ∀ j, ∀ a ∈ Function.update q.nodes i (q.nodes i ++ [new]) j, (a, LIST_PROC_SIZE) ∈ q'.heap.live :=
    fun j a ha => by
      rw [hheap]
      rcases hold j a ha with ha' | ⟨-, rfl⟩
      · exact List.mem_cons_of_mem _ (hw.live j a ha')
      · exact List.mem_cons_self
  obtain ⟨hw', hn⟩ := WF.of_chains hc hd hl (hheap ▸ hw.malloc_inv hm hnew)
  refine ⟨hw', fun j => ?_⟩
  have hwrite : (q.nodes j).map (fun a => (Function.update q.node new ⟨p, 0⟩ a).val) = q.read j :=
    (hw.chain_write hm hnew j).2
  rw [read, hn]
  simp only [hval]
  by_cases hj : j = i
  · subst hj
    rw [if_pos rfl, Function.update_self, List.map_append, hwrite]
    simp
  · rw [Function.update_of_ne hj, if_neg hj, hwrite]

/-- Into an empty queue the new node is the head. -/
theorem WF.insert_empty (h0 : q.prio i = 0) :
    let q' : PrioMem := ⟨Function.update q.prio i new, Function.update q.node new ⟨p, 0⟩,
      ⟨bd, (new, LIST_PROC_SIZE) :: q.heap.live⟩⟩
    q'.WF ∧ ∀ j, q'.read j = if j = i then q.read i ++ [p] else q.read j := by
  intro q'
  have hnil : q.nodes i = [] := chain_zero.mp (h0 ▸ hw.chain i)
  refine hw.appended hm hnew rfl (fun j => ?_) fun _ => rfl
  by_cases hj : j = i
  · subst hj
    simp [q', hnil, hnew]
  · simpa [q', hj] using (hw.chain_write hm hnew j).1

/-- Into a queue with nodes the new node follows the last one. -/
theorem WF.insert_tail (h0 : q.prio i ≠ 0) :
    let node := Function.update q.node new ⟨p, 0⟩
    let last := Slist.last node q.fuel (q.prio i)
    let q' : PrioMem := ⟨q.prio, Function.update node last { node last with next := new },
      ⟨bd, (new, LIST_PROC_SIZE) :: q.heap.live⟩⟩
    q'.WF ∧ ∀ j, q'.read j = if j = i then q.read i ++ [p] else q.read j := by
  intro node last q'
  have hne : q.nodes i ≠ [] := fun h => h0 (chain_nil.mp (h ▸ hw.chain i))
  have hci : Chain node (q.prio i) (q.nodes i) := (hw.chain_write hm hnew i).1
  -- the walk finds the last node of the queue
  have hlast : last = (q.nodes i).getLast hne := hci.last_eq hne (by have := hw.length_lt i; unfold fuel at *; omega)
  have hlast_mem : last ∈ q.nodes i := hlast ▸ List.getLast_mem hne
  have hlast_new : last ≠ new := fun h => hw.fresh hm hnew i (h ▸ hlast_mem)
  -- away from `last`, the nodes are those after the write of the new node
  have hnode : ∀ a, a ≠ last → q'.node a = node a := fun a ha => Function.update_of_ne ha _ _
  refine hw.appended hm hnew rfl (fun j => ?_) fun a => ?_
  · by_cases hj : j = i
    · subst hj
      rw [Function.update_self]
      refine hci.snoc hne hnew ?_ ?_ fun a ha => ?_
      · rw [← hlast]
        simp [q']
      · rw [hnode new (Ne.symm hlast_new)]
        simp [node]
      · have hal : a ≠ last := by
          rw [hlast]
          intro h
          have hnd := (hw.chain j).nodup
          rw [← List.dropLast_append_getLast hne] at hnd
          exact (List.nodup_append.mp hnd).2.2 a ha _ (List.mem_singleton_self _) h
        rw [hnode a hal]
    · rw [Function.update_of_ne hj]
      have hcj : Chain node (q.prio j) (q.nodes j) := (hw.chain_write hm hnew j).1
      refine hcj.congr fun a ha => ?_
      rw [hnode a fun h => hw.disjoint i j (Ne.symm hj) a (h ▸ hlast_mem) ha]
  · -- the link changes `next` only
    by_cases ha : a = last
    · subst ha
      simp [q', node]
    · rw [hnode a ha]

end Insert

/-- **Insertion in memory is the list model's `++ [p]`**: the queues stay well
formed, queue `i` gains `p` at its end, and no other queue changes. -/
theorem WF.insert {i : Nat} {p : Fin NPROC} (hw : q.WF) (h : q.insert i p = some q') :
    q'.WF ∧ ∀ j, q'.read j = if j = i then q.read i ++ [p] else q.read j := by
  unfold PrioMem.insert at h
  split at h
  · cases h
  · rename_i new bd hm
    split_ifs at h with hnew h0
    · cases h
      exact hw.insert_empty hm hnew h0
    · cases h
      exact hw.insert_tail hm hnew h0

/-- Insertion returns when `bd_malloc` hands out a node. -/
theorem insert_isSome {i : Nat} {p : Fin NPROC} {a : Nat} {s : Bd}
    (hm : bd_malloc q.heap.bd LIST_PROC_SIZE = some (a, s)) (ha : a ≠ 0) : (q.insert i p).isSome := by
  unfold PrioMem.insert
  rw [hm]
  simp only [if_neg ha]
  split_ifs <;> rfl

/-! ## Removal -/

/-- The node a scan finds first is gone after the first of its kind is erased,
when the list has no repeats. -/
theorem not_mem_eraseP_of_find? {α : Type} {l : List α} {f : α → Bool} {a : α} (hnd : l.Nodup)
    (h : l.find? f = some a) : a ∉ l.eraseP f := by
  obtain ⟨-, pre, post, rfl, hpre⟩ := List.find?_eq_some_iff_append.mp h
  rw [List.eraseP_append_right _ (fun x hx => by simpa using hpre x hx),
    List.eraseP_cons_of_pos (List.find?_some h)]
  exact fun ha => (List.nodup_middle.mp hnd |> List.nodup_cons.mp).1 ha

/-- Erasing the first node whose process is `p` erases `p` from the processes. -/
theorem map_eraseP_val (m : Slist.Mem (Fin NPROC)) (l : List Nat) (p : Fin NPROC) :
    (l.eraseP fun a => (m a).val == p).map (fun a => (m a).val) = (l.map fun a => (m a).val).erase p := by
  rw [List.erase_eq_eraseP, List.eraseP_map]
  congr 2
  funext a
  simp [eq_comm]

/-- **Removal in memory is the list model's `erase p`**: it returns, the queues
stay well formed, queue `i` loses its first node naming `p`, and no other queue
changes; when `p` had a node there, it went back to the allocator, and a
`bd_malloc` of a node finds one. -/
theorem WF.remove (hw : q.WF) (i : Nat) (p : Fin NPROC) :
    ∃ q', q.remove i p = some q' ∧ q'.WF ∧
      (∀ j, q'.read j = if j = i then (q.read i).erase p else q.read j) ∧
      (p ∈ q.read i → ∃ a s, bd_malloc q'.heap.bd LIST_PROC_SIZE = some (a, s) ∧ a ≠ 0) := by
  obtain ⟨base, end_, hI⟩ := hw.heap
  let ok : Nat → Bool := fun a => (q.node a).val == p
  have hu := (hw.chain i).unlink_eq (fun v => v == p) (Nat.le_of_lt (hw.length_lt i))
  generalize hr : unlink q.node (fun v => v == p) (q.prio i) q.fuel 0 (q.prio i) = r at hu
  obtain ⟨node', head', old⟩ := r
  obtain ⟨hfind, hchain, hframe, hval⟩ := hu
  dsimp only at hfind hchain hframe hval
  -- the new chains: queue `i` without the node, the old ones elsewhere
  let ns := Function.update q.nodes i ((q.nodes i).eraseP ok)
  have hsub : ∀ j, ∀ a ∈ ns j, a ∈ q.nodes j := fun j a ha => by
    by_cases hj : j = i
    · subst hj
      simp only [ns, Function.update_self] at ha
      exact List.mem_of_mem_eraseP ha
    · simpa [ns, hj] using ha
  have hc : ∀ j, Chain node' (Function.update q.prio i head' j) (ns j) := fun j => by
    by_cases hj : j = i
    · subst hj
      simpa [ns] using hchain
    · simp only [ns, Function.update_of_ne hj]
      exact (hw.chain j).congr fun a ha => by
        rw [hframe a fun hai => hw.disjoint i j (Ne.symm hj) a hai ha]
  have hd : ∀ j k, j ≠ k → ∀ a ∈ ns j, a ∉ ns k := fun j k hjk a ha hak =>
    hw.disjoint j k hjk a (hsub j a ha) (hsub k a hak)
  have hread : ∀ j, (ns j).map (fun a => (node' a).val) = if j = i then (q.read i).erase p else q.read j := by
    intro j
    simp only [hval]
    by_cases hj : j = i
    · subst hj
      simp only [ns, Function.update_self, if_true, read]
      exact map_eraseP_val q.node (q.nodes j) p
    · simp [ns, hj, read]
  cases old with
  | none =>
    -- no node names `p`: the heap is untouched
    have hl : ∀ j, ∀ a ∈ ns j, (a, LIST_PROC_SIZE) ∈ q.heap.live := fun j a ha => hw.live j a (hsub j a ha)
    obtain ⟨hw', hn⟩ := @WF.of_chains ⟨Function.update q.prio i head', node', q.heap⟩ ns hc hd hl hw.heap
    refine ⟨_, by rw [PrioMem.remove, hr], hw', fun j => by rw [read, hn]; exact hread j, fun hp => ?_⟩
    obtain ⟨a, ha, hap⟩ := List.mem_map.mp hp
    have := List.find?_eq_none.mp hfind.symm a ha
    simp [hap] at this
  | some old =>
    -- the node goes back to the allocator
    have hold : old ∈ q.nodes i := List.mem_of_find?_eq_some hfind.symm
    obtain ⟨y, hy, hyx, s, hs⟩ := hI.free_live (hw.live i old hold)
    dsimp only at hyx hs
    have hgone : old ∉ (q.nodes i).eraseP ok := not_mem_eraseP_of_find? (hw.chain i).nodup hfind.symm
    have hl : ∀ j, ∀ a ∈ ns j, (a, LIST_PROC_SIZE) ∈ (q.heap.live.erase y) := fun j a ha => by
      have hao : a ≠ old := fun h => by
        by_cases hj : j = i
        · subst hj
          simp only [ns, Function.update_self] at ha
          exact hgone (h ▸ ha)
        · exact hw.disjoint i j (Ne.symm hj) old hold (h ▸ hsub j a ha)
      exact List.mem_erase_of_ne (fun h => hao (by rw [← hyx, ← h])) |>.mpr (hw.live j a (hsub j a ha))
    have hI' := hI.free hs
    obtain ⟨hw', hn⟩ := @WF.of_chains ⟨Function.update q.prio i head', node', ⟨s, q.heap.live.erase y⟩⟩ ns
      hc hd hl ⟨base, end_, hI'⟩
    refine ⟨_, by rw [PrioMem.remove, hr]; simp only [hs, Option.map_some], hw',
      fun j => by rw [read, hn]; exact hread j, fun _ => ?_⟩
    exact hI.malloc_after_free hs (by decide)

end PrioMem

end Xv6
