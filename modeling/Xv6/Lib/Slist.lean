import Mathlib

/-!
# Singly-linked lists in memory

A singly-linked list is a chain of nodes, each holding a value and the address
of the next node; the null address `0` ends it. The memory of nodes is a
function `Mem β := Nat → Node β`, and `Chain m a as` says that the chain from
the head `a` visits exactly the addresses `as`, in order, and then meets `0`.
A chain visits no address twice (`Chain.nodup`), and a head has one chain
(`Chain.unique`).

The operations are the loops that walk a chain, each run on fuel where its loop
runs until it meets `0`: `addrs` collects the addresses, `last` finds the last
node, `find` the value of the first node that passes a test, and `unlink` takes
that node out, moving the head past it or making its predecessor skip it.
`Chain.addrs_eq`, `Chain.last_eq`, `Chain.find_eq` and `Chain.unlink_eq`
compute them on the abstract list when the fuel covers it. `Chain.congr` is the
frame that lets several chains share one memory, `Chain.snoc` the link that a
new last node makes and `Chain.skip` the write that takes a node out.
-/

namespace Slist

/-- A node: its value and the address of the next node. -/
structure Node (β : Type) where
  val : β
  next : Nat
deriving DecidableEq, Repr

/-- The node at every address. -/
abbrev Mem (β : Type) := Nat → Node β

variable {β : Type}

/-- The chain from `a` visits the nonzero addresses `as`, in order, and then
meets `0`. -/
def Chain (m : Mem β) : Nat → List Nat → Prop
  | a, [] => a = 0
  | a, x :: xs => a = x ∧ x ≠ 0 ∧ Chain m (m x).next xs

section Chain

variable {m m' : Mem β} {a : Nat} {as : List Nat}

@[simp] theorem chain_nil : Chain m a [] ↔ a = 0 := Iff.rfl

@[simp] theorem chain_cons {x : Nat} {xs : List Nat} :
    Chain m a (x :: xs) ↔ a = x ∧ x ≠ 0 ∧ Chain m (m x).next xs := Iff.rfl

/-- The chain from `0` is empty. -/
theorem chain_zero : Chain m 0 as ↔ as = [] := by
  cases as with
  | nil => simp
  | cons x xs =>
    simp only [chain_cons, reduceCtorEq, iff_false]
    rintro ⟨rfl, h, -⟩
    exact h rfl

/-- The head is the first address, `0` for the empty chain. -/
theorem Chain.head (h : Chain m a as) : a = as.head?.getD 0 := by
  cases as with
  | nil => exact h
  | cons x xs => exact h.1

theorem Chain.ne_zero (h : Chain m a as) : ∀ x ∈ as, x ≠ 0 := by
  induction as generalizing a with
  | nil => simp
  | cons y ys ih =>
    obtain ⟨-, hy, hc⟩ := h
    intro x hx
    rcases List.mem_cons.mp hx with rfl | hx
    · exact hy
    · exact ih hc x hx

/-- **A head has one chain.** -/
theorem Chain.unique {bs : List Nat} (h : Chain m a as) (h' : Chain m a bs) : as = bs := by
  induction as generalizing a bs with
  | nil =>
    cases bs with
    | nil => rfl
    | cons y ys => exact absurd (h'.1.symm.trans h) h'.2.1
  | cons x xs ih =>
    cases bs with
    | nil => exact absurd (h.1.symm.trans h') h.2.1
    | cons y ys =>
      have hxy : x = y := h.1.symm.trans h'.1
      subst hxy
      rw [ih h.2.2 h'.2.2]

/-- The rest of a chain is the chain from its first address. -/
theorem Chain.drop {pre : List Nat} (h : Chain m a (pre ++ as)) : Chain m (as.head?.getD 0) as := by
  induction pre generalizing a with
  | nil =>
    rw [List.nil_append] at h
    rwa [← h.head]
  | cons x xs ih => exact ih h.2.2

/-- **A chain visits no address twice**: from a repeated address it would go on
both as the whole chain and as a shorter part of it. -/
theorem Chain.nodup (h : Chain m a as) : as.Nodup := by
  induction as generalizing a with
  | nil => exact List.nodup_nil
  | cons x xs ih =>
    obtain ⟨-, hx0, hc⟩ := h
    refine List.nodup_cons.mpr ⟨fun hx => ?_, ih hc⟩
    obtain ⟨pre, post, rfl⟩ := List.append_of_mem hx
    have hsuf : Chain m x (x :: post) := hc.drop
    have hfull : Chain m x (x :: (pre ++ x :: post)) := ⟨rfl, hx0, hc⟩
    have hlen := congrArg List.length (hsuf.unique hfull)
    simp only [List.length_cons, List.length_append] at hlen
    omega

/-- **The frame**: a chain reads only the `next` words of its own nodes. -/
theorem Chain.congr (h : Chain m a as) (hn : ∀ x ∈ as, (m' x).next = (m x).next) : Chain m' a as := by
  induction as generalizing a with
  | nil => exact h
  | cons x xs ih =>
    obtain ⟨hax, hx, hc⟩ := h
    refine ⟨hax, hx, ?_⟩
    rw [hn x List.mem_cons_self]
    exact ih hc fun y hy => hn y (List.mem_cons_of_mem x hy)

/-- **A new last node**: the old last node points at `b`, and `b` ends the chain. -/
theorem Chain.snoc (h : Chain m a as) (hne : as ≠ []) {b : Nat} (hb : b ≠ 0)
    (hlast : (m' (as.getLast hne)).next = b) (hend : (m' b).next = 0)
    (hn : ∀ x ∈ as.dropLast, (m' x).next = (m x).next) : Chain m' a (as ++ [b]) := by
  induction as generalizing a with
  | nil => exact absurd rfl hne
  | cons x xs ih =>
    obtain ⟨hax, hx, hc⟩ := h
    cases xs with
    | nil =>
      -- `x` was the last node
      exact ⟨hax, hx, hlast, hb, hend⟩
    | cons y ys =>
      have hxn : (m' x).next = (m x).next := hn x List.mem_cons_self
      refine ⟨hax, hx, ?_⟩
      rw [hxn]
      exact ih hc (List.cons_ne_nil y ys) hlast fun z hz => hn z (List.mem_cons_of_mem x hz)

/-- **A node skipped**: `x` now points where `y`, the node after it, did. -/
theorem Chain.bypass {pre post : List Nat} {x y : Nat} (h : Chain m a (pre ++ x :: y :: post))
    (hx : (m' x).next = (m y).next) (hn : ∀ z ∈ pre ++ post, (m' z).next = (m z).next) :
    Chain m' a (pre ++ x :: post) := by
  induction pre generalizing a with
  | nil =>
    obtain ⟨hax, hx0, -, -, hc⟩ := h
    refine ⟨hax, hx0, ?_⟩
    rw [hx]
    exact hc.congr fun z hz => hn z (by simpa using hz)
  | cons z zs ih =>
    obtain ⟨haz, hz, hc⟩ := h
    refine ⟨haz, hz, ?_⟩
    rw [hn z List.mem_cons_self]
    exact ih hc fun w hw => hn w (List.mem_cons_of_mem z hw)

/-- **Skipping the node after `x`**: writing the successor of `y` into the
`next` of `x` leaves the chain without `y`, and changes no other node and no
value. -/
theorem Chain.skip {pre post : List Nat} {x y : Nat} (h : Chain m a (pre ++ x :: y :: post)) :
    let m' := Function.update m x { m x with next := (m y).next }
    Chain m' a (pre ++ x :: post) ∧ (∀ z, z ≠ x → m' z = m z) ∧ ∀ z, (m' z).val = (m z).val := by
  intro m'
  -- `x` occurs once in the chain
  have hx : x ∉ pre ++ post := fun hmem => by
    have hnd := List.nodup_cons.mp (List.nodup_middle.mp h.nodup)
    rcases List.mem_append.mp hmem with hmem | hmem
    · exact hnd.1 (List.mem_append_left _ hmem)
    · exact hnd.1 (List.mem_append_right _ (List.mem_cons_of_mem y hmem))
  refine ⟨h.bypass (by simp [m']) fun z hz => ?_, fun z hz => Function.update_of_ne hz _ _, fun z => ?_⟩
  · have hzx : z ≠ x := fun hzx => hx (by rwa [hzx] at hz)
    simp only [m', Function.update_of_ne hzx]
  · by_cases hz : z = x
    · subst hz
      simp [m']
    · simp only [m', Function.update_of_ne hz]

end Chain

/-! ## The walks -/

/-- The addresses along the chain from `a`, at most `fuel` of them. -/
def addrs (m : Mem β) : Nat → Nat → List Nat
  | 0, _ => []
  | fuel + 1, a => if a = 0 then [] else a :: addrs m fuel (m a).next

/-- `while (last && last->next) last = last->next;` from `a`. -/
def last (m : Mem β) : Nat → Nat → Nat
  | 0, a => a
  | fuel + 1, a => if a ≠ 0 ∧ (m a).next ≠ 0 then last m fuel (m a).next else a

/-- The scan `while (node) { if (ok(node->val)) return node->val; node = node->next; }`
from `a`: the value of the first node that passes `ok`. -/
def find (m : Mem β) (ok : β → Bool) : Nat → Nat → Option β
  | 0, _ => none
  | fuel + 1, a => if a = 0 then none else if ok (m a).val then some (m a).val else find m ok fuel (m a).next

/-- The loop of a removal at node `old`, with `prev` the node before it (`0` at
the head) and `head` the list's head: the first node from `old` whose value
passes `ok` leaves the chain, the head moving past it when it is the head and
`prev` skipping it otherwise. The memory, the new head and the node taken out. -/
def unlink (m : Mem β) (ok : β → Bool) (head : Nat) : Nat → Nat → Nat → Mem β × Nat × Option Nat
  | 0, _, _ => (m, head, none)
  | fuel + 1, prev, old =>
    if old = 0 then (m, head, none)
    else if ok (m old).val then
      if old = head then (m, (m old).next, some old)
      else (Function.update m prev { m prev with next := (m old).next }, head, some old)
    else unlink m ok head fuel old (m old).next

section Walks

variable {m : Mem β} {a : Nat} {as : List Nat} {fuel : Nat}

/-- **`addrs` reads the chain** when the fuel covers it. -/
theorem Chain.addrs_eq (h : Chain m a as) (hf : as.length ≤ fuel) : addrs m fuel a = as := by
  induction as generalizing a fuel with
  | nil =>
    rw [chain_nil] at h
    subst h
    cases fuel <;> simp [addrs]
  | cons x xs ih =>
    obtain ⟨rfl, hx, hc⟩ := h
    obtain ⟨f, rfl⟩ : ∃ f, fuel = f + 1 := Nat.exists_eq_add_one.mpr (by simp at hf; omega)
    rw [addrs, if_neg hx, ih hc (by simpa using hf)]

/-- **`last` finds the last node** of a nonempty chain. -/
theorem Chain.last_eq (h : Chain m a as) (hne : as ≠ []) (hf : as.length ≤ fuel + 1) :
    last m fuel a = as.getLast hne := by
  induction as generalizing a fuel with
  | nil => exact absurd rfl hne
  | cons x xs ih =>
    obtain ⟨rfl, hx, hc⟩ := h
    cases xs with
    | nil =>
      rw [chain_nil] at hc
      cases fuel <;> simp [last, hc]
    | cons y ys =>
      have hy : (m a).next = y := hc.1
      have hy0 : y ≠ 0 := hc.2.1
      obtain ⟨f, rfl⟩ : ∃ f, fuel = f + 1 := Nat.exists_eq_add_one.mpr (by simp at hf; omega)
      rw [last, if_pos ⟨hx, hy ▸ hy0⟩, ih hc (List.cons_ne_nil y ys) (by simpa using hf)]
      rfl

/-- **`find` scans the chain**: the first value along it that passes `ok`. -/
theorem Chain.find_eq (ok : β → Bool) (h : Chain m a as) (hf : as.length ≤ fuel) :
    find m ok fuel a = (as.map fun x => (m x).val).find? ok := by
  induction as generalizing a fuel with
  | nil =>
    rw [chain_nil] at h
    subst h
    cases fuel <;> simp [find]
  | cons x xs ih =>
    obtain ⟨rfl, hx, hc⟩ := h
    obtain ⟨f, rfl⟩ : ∃ f, fuel = f + 1 := Nat.exists_eq_add_one.mpr (by simp at hf; omega)
    rw [find, if_neg hx, List.map_cons, List.find?_cons]
    cases hok : ok (m a).val
    · exact ih hc (by simpa using hf)
    · rfl

/-- What a removal loop leaves: the node it takes out, the chain from the new
head, and a memory that differs from `m` only in the `next` word of a node of the
old chain. -/
def Unlinked (m : Mem β) (ok : β → Bool) (as : List Nat) (r : Mem β × Nat × Option Nat) : Prop :=
  r.2.2 = as.find? (fun x => ok (m x).val) ∧ Chain r.1 r.2.1 (as.eraseP fun x => ok (m x).val) ∧
    (∀ x, x ∉ as → r.1 x = m x) ∧ ∀ x, (r.1 x).val = (m x).val

/-- **The removal loop**, from any point of the walk: the nodes `pre` already
passed failed the test, `prev` is the last of them and `old` the first of the
rest. -/
theorem Chain.unlink_loop (ok : β → Bool) {head prev old : Nat} {pre rest : List Nat}
    (hc : Chain m head (pre ++ rest)) (hpre : ∀ x ∈ pre, ok (m x).val = false)
    (hprev : pre.getLast?.getD 0 = prev) (hold : rest.head?.getD 0 = old) (hf : rest.length ≤ fuel) :
    Unlinked m ok (pre ++ rest) (unlink m ok head fuel prev old) := by
  induction rest generalizing pre prev old fuel with
  | nil =>
    rw [List.head?_nil, Option.getD_none] at hold
    subst hold
    have hr : unlink m ok head fuel prev 0 = (m, head, none) := by cases fuel <;> simp [unlink]
    rw [hr]
    refine ⟨?_, ?_, fun _ _ => rfl, fun _ => rfl⟩
    · rw [List.append_nil]
      exact (List.find?_eq_none.mpr (by simpa using hpre)).symm
    · rw [List.append_nil, List.eraseP_of_forall_not (by simpa using hpre)]
      simpa using hc
  | cons y ys ih =>
    rw [List.head?_cons, Option.getD_some] at hold
    subst hold
    have hnd := hc.nodup
    have hy0 : y ≠ 0 := hc.ne_zero y (by simp)
    obtain ⟨f, rfl⟩ : ∃ f, fuel = f + 1 := Nat.exists_eq_add_one.mpr (by simp at hf; omega)
    have hpre' : ∀ x ∈ pre, ¬ ok (m x).val = true := by simpa using hpre
    rw [unlink, if_neg hy0]
    by_cases hok : ok (m y).val = true
    · rw [if_pos hok]
      have hfind : (pre ++ y :: ys).find? (fun x => ok (m x).val) = some y := by
        rw [List.find?_append, List.find?_eq_none.mpr (by simpa using hpre')]
        simp [hok]
      have herase : (pre ++ y :: ys).eraseP (fun x => ok (m x).val) = pre ++ ys := by
        rw [List.eraseP_append_right _ (by simpa using hpre'), List.eraseP_cons_of_pos (by simp [hok])]
      rw [Unlinked, hfind, herase]
      split_ifs with hyh
      · -- `y` is the head: nothing was passed, and the head moves on
        have hpre0 : pre = [] := by
          cases pre with
          | nil => rfl
          | cons z zs =>
            have hzy : head = z := hc.1
            rw [hzy] at hyh
            subst hyh
            simp at hnd
        subst hpre0
        exact ⟨rfl, hc.2.2, fun _ _ => rfl, fun _ => rfl⟩
      · -- `prev`, the last node passed, skips `y`
        have hpre0 : pre ≠ [] := by
          rintro rfl
          exact hyh hc.1.symm
        have hprev' : pre.getLast hpre0 = prev := by
          rw [← hprev, List.getLast?_eq_some_getLast hpre0, Option.getD_some]
        have hsplit : pre = pre.dropLast ++ [prev] := by rw [← hprev', List.dropLast_append_getLast]
        have hc' : Chain m head (pre.dropLast ++ prev :: y :: ys) := by
          rw [← List.singleton_append, ← List.append_assoc, ← hsplit]
          exact hc
        obtain ⟨hchain, hframe, hval⟩ := hc'.skip
        refine ⟨rfl, ?_, fun x hx => hframe x ?_, hval⟩
        · rwa [← List.singleton_append, ← List.append_assoc, ← hsplit] at hchain
        · rintro rfl
          exact hx (List.mem_append_left _ (hprev' ▸ List.getLast_mem hpre0))
    · -- `y` fails the test: the loop goes on with `y` passed
      rw [if_neg hok]
      have hsuf : Chain m (m y).next ys := hc.drop.2.2
      have h : Unlinked m ok ((pre ++ [y]) ++ ys) (unlink m ok head f y (m y).next) :=
        ih (by simpa using hc) (fun x hx => by rcases List.mem_append.mp hx with hx | hx <;> simp_all)
          (by simp) hsuf.head.symm (by simpa using hf)
      rwa [List.append_assoc, List.singleton_append] at h

/-- **The removal**: from the head, with no node passed, the first node whose
value passes `ok` leaves the chain. -/
theorem Chain.unlink_eq (ok : β → Bool) (h : Chain m a as) (hf : as.length ≤ fuel) :
    Unlinked m ok as (unlink m ok a fuel 0 a) := by
  have h' : Chain m a ([] ++ as) := h
  exact Chain.unlink_loop ok h' (fun x hx => absurd hx List.not_mem_nil) rfl h.head.symm hf

end Walks

end Slist
