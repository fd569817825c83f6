import Mathlib

/-!
# Intrusive circular doubly-linked lists

An intrusive list keeps its two link words inside the nodes it links, and a
sentinel node stands for the list itself: the empty list is a sentinel that
points at itself both ways. Every operation reads and writes single link words
in a fixed order, so the memory of link words is a function
`Mem α := α → Links α` and an operation is a sequence of `setNext`/`setPrev`.

* `Linked m l`: consecutive nodes of `l` point at each other, `next` forward
  and `prev` backward.
* `Circ m h l`: the circular list with sentinel `h` holds exactly the nodes
  `l`, in `next` order, each once.

The operations are the textbook ones (`init`, `isEmpty`, `remove`, `pop`,
`push`). `circ_push`, `circ_remove` and `Circ.pop_eq` say what each does to a
`Circ`; `push_apply_of_ne` and `remove_apply_of_ne` are their frames, so that
several lists can share one memory (`Circ.congr`). `findNext` and `findPrev`
are the scan loops that walk a list from its sentinel, forward or backward;
`Circ.findNext_eq` and `Circ.findPrev_eq` compute them on the abstract list.
-/

namespace Intrusive

/-- The two link words of a node. -/
@[ext] structure Links (α : Type) where
  next : α
  prev : α
deriving DecidableEq, Repr

/-- The link words of every node. -/
abbrev Mem (α : Type) := α → Links α

variable {α : Type}

/-! ## Chains of links -/

/-- Consecutive nodes of `l` point at each other. -/
def Linked (m : Mem α) : List α → Prop
  | x :: y :: rest => (m x).next = y ∧ (m y).prev = x ∧ Linked m (y :: rest)
  | _ => True

@[simp] theorem linked_nil (m : Mem α) : Linked m [] := trivial

@[simp] theorem linked_singleton (m : Mem α) (x : α) : Linked m [x] := trivial

theorem linked_cons_cons {m : Mem α} {x y : α} {rest : List α} :
    Linked m (x :: y :: rest) ↔ (m x).next = y ∧ (m y).prev = x ∧ Linked m (y :: rest) :=
  Iff.rfl

/-- A chain splits at any seam `x → y`. -/
theorem linked_append_cons_cons {m : Mem α} {x y : α} {post : List α} :
    ∀ pre : List α, Linked m (pre ++ x :: y :: post) ↔
      Linked m (pre ++ [x]) ∧ (m x).next = y ∧ (m y).prev = x ∧ Linked m (y :: post)
  | [] => by simp [linked_cons_cons]
  | [a] => by simp [linked_cons_cons, and_assoc]
  | a :: b :: pre => by
    simp only [List.cons_append, linked_cons_cons]
    rw [← List.cons_append, linked_append_cons_cons (b :: pre)]
    simp only [List.cons_append, and_assoc]

/-- A chain reads only `next` of its nodes but the last and `prev` of its nodes
but the first. -/
theorem Linked.congr {m m' : Mem α} :
    ∀ {l : List α}, Linked m l → (∀ x ∈ l.dropLast, (m' x).next = (m x).next) →
      (∀ y ∈ l.tail, (m' y).prev = (m y).prev) → Linked m' l
  | [], _, _, _ => trivial
  | [_], _, _, _ => trivial
  | x :: y :: rest, ⟨hxy, hyx, hrest⟩, hn, hp => by
    refine ⟨(hn x (by simp)).trans hxy, (hp y (by simp)).trans hyx, ?_⟩
    refine hrest.congr (fun z hz => hn z ?_) (fun z hz => hp z ?_)
    · exact List.mem_cons_of_mem x hz
    · exact List.mem_of_mem_tail hz

/-- The memory read backwards: `next` and `prev` exchanged. -/
def swap (m : Mem α) : Mem α := fun x => ⟨(m x).prev, (m x).next⟩

/-- A chain read backwards is a chain of the swapped memory. -/
theorem Linked.reverse {m : Mem α} : ∀ {l : List α}, Linked m l → Linked (swap m) l.reverse
  | [], _ => trivial
  | [_], _ => trivial
  | x :: y :: rest, ⟨hxy, hyx, hrest⟩ => by
    have ih := hrest.reverse
    simp only [List.reverse_cons] at ih ⊢
    rw [List.append_assoc, List.singleton_append, linked_append_cons_cons]
    exact ⟨ih, hyx, hxy, trivial⟩

/-! ## Circular lists -/

/-- The circular list with sentinel `h` holds the nodes `l`, in `next` order,
each once. -/
structure Circ (m : Mem α) (h : α) (l : List α) : Prop where
  linked : Linked m (h :: (l ++ [h]))
  nodup : (h :: l).Nodup

/-- A circular list depends only on the link words of its own nodes. -/
theorem Circ.congr {m m' : Mem α} {h : α} {l : List α} (hc : Circ m h l)
    (hm : ∀ x ∈ h :: l, m' x = m x) : Circ m' h l := by
  refine ⟨hc.linked.congr (fun x hx => ?_) (fun y hy => ?_), hc.nodup⟩
  · rw [← List.cons_append, List.dropLast_concat] at hx
    rw [hm x hx]
  · have hy' : y ∈ h :: l := by
      simp only [List.tail_cons, List.mem_append, List.mem_singleton] at hy
      rcases hy with hy | rfl
      · exact List.mem_cons_of_mem h hy
      · exact List.mem_cons_self
    rw [hm y hy']

/-- A sentinel that points at itself both ways is an empty list. -/
theorem circ_nil_of_apply {m : Mem α} {h : α} (hm : m h = ⟨h, h⟩) : Circ m h [] :=
  ⟨by simp [linked_cons_cons, hm], by simp⟩

/-- The swapped memory holds the same circular list, reversed. -/
theorem Circ.swap {m : Mem α} {h : α} {l : List α} (hc : Circ m h l) :
    Circ (swap m) h l.reverse := by
  refine ⟨?_, ?_⟩
  · have hr := hc.linked.reverse
    simpa using hr
  · have hnd := hc.nodup
    rw [List.nodup_cons] at hnd ⊢
    exact ⟨by simpa using hnd.1, List.nodup_reverse.mpr hnd.2⟩

/-- The chain of a circular list around one of its members `e`: `a` comes
right before it (the sentinel when `e` is first) and `b` right after (the
sentinel when `e` is last). -/
theorem Circ.split {m : Mem α} {h e : α} {l₁ l₂ : List α} (hc : Circ m h (l₁ ++ e :: l₂)) :
    ∃ A a b B, h :: l₁ = A ++ [a] ∧ l₂ ++ [h] = b :: B ∧ Linked m (A ++ [a]) ∧
      (m a).next = e ∧ (m e).prev = a ∧ (m e).next = b ∧ (m b).prev = e ∧ Linked m (b :: B) := by
  obtain ⟨A, a, hA⟩ : ∃ A a, h :: l₁ = A ++ [a] := by
    rcases List.eq_nil_or_concat (h :: l₁) with h0 | ⟨A, a, hA⟩
    · simp at h0
    · exact ⟨A, a, by rw [hA, List.concat_eq_append]⟩
  obtain ⟨b, B, hB⟩ : ∃ b B, l₂ ++ [h] = b :: B := by
    cases l₂ with
    | nil => exact ⟨h, [], rfl⟩
    | cons b B => exact ⟨b, B ++ [h], rfl⟩
  have hsplit : h :: (l₁ ++ e :: l₂ ++ [h]) = A ++ a :: e :: b :: B := by
    rw [← hB, List.append_assoc, ← List.cons_append, List.append_cons _ a, ← hA]
    simp
  have hl := hc.linked
  rw [hsplit, linked_append_cons_cons] at hl
  obtain ⟨hpre, hae, hea, hrest⟩ := hl
  exact ⟨A, a, b, B, hA, hB, hpre, hae, hea, hrest.1, hrest.2.1, hrest.2.2⟩

/-- The first node after the sentinel is a node of the list, or the sentinel. -/
theorem Circ.next_head_mem {m : Mem α} {h : α} {l : List α} (hc : Circ m h l) :
    (m h).next ∈ h :: l := by
  have hl := hc.linked
  cases l with
  | nil => simp only [List.nil_append] at hl; simp [hl.1]
  | cons x l => simp only [List.cons_append] at hl; simp [hl.1]

/-- The neighbours of a member lie in the list or are the sentinel. -/
theorem Circ.neighbours_mem {m : Mem α} {h e : α} {l₁ l₂ : List α}
    (hc : Circ m h (l₁ ++ e :: l₂)) :
    (m e).prev ∈ h :: l₁ ∧ (m e).next ∈ l₂ ++ [h] := by
  obtain ⟨A, a, b, B, hA, hB, -, -, hea, heb, -, -⟩ := hc.split
  refine ⟨?_, ?_⟩
  · rw [hea, hA]; simp
  · rw [heb, hB]; simp

/-- The three parts around a member of a circular list are disjoint. -/
theorem Circ.disjoint {m : Mem α} {h e : α} {l₁ l₂ : List α} (hc : Circ m h (l₁ ++ e :: l₂)) :
    (h :: l₁).Nodup ∧ (l₂ ++ [h]).Nodup ∧ e ∉ h :: l₁ ∧ e ∉ l₂ ++ [h] ∧
      ∀ x ∈ l₁, x ∉ l₂ ++ [h] := by
  have hnd := hc.nodup
  rw [← List.cons_append, List.nodup_append] at hnd
  obtain ⟨h1, h2, h3⟩ := hnd
  have hh : h ∉ l₁ := (List.nodup_cons.mp h1).1
  have hel : e ∉ l₂ := (List.nodup_cons.mp h2).1
  have hhl₂ : h ∉ l₂ := fun hm => h3 h List.mem_cons_self h (List.mem_cons_of_mem e hm) rfl
  have hhe : e ≠ h := fun he => h3 h List.mem_cons_self e List.mem_cons_self he.symm
  refine ⟨h1, ?_, fun hm => h3 e hm e List.mem_cons_self rfl, ?_, ?_⟩
  · rw [List.nodup_append]
    refine ⟨(List.nodup_cons.mp h2).2, List.nodup_singleton h, fun x hx y hy hxy => ?_⟩
    rw [List.mem_singleton] at hy
    subst hy hxy
    exact hhl₂ hx
  · simp [hel, hhe]
  · intro x hx hx'
    simp only [List.mem_append, List.mem_singleton] at hx'
    rcases hx' with hx' | rfl
    · exact h3 x (List.mem_cons_of_mem h hx) x (List.mem_cons_of_mem e hx') rfl
    · exact hh hx

/-- Two chains from `a` that both end at `h`, and meet `h` nowhere before,
follow the same nodes: each node's `next` word names the one after it. -/
theorem Linked.eq_of_last {m : Mem α} {h : α} :
    ∀ {a : α} {l l' : List α}, Linked m (a :: (l ++ [h])) → Linked m (a :: (l' ++ [h])) →
      h ∉ l → h ∉ l' → l = l'
  | _, [], [], _, _, _, _ => rfl
  | _, [], y :: l', h₁, h₂, _, hy => by
    have hyh : y = h := h₂.1.symm.trans h₁.1
    exact absurd (hyh ▸ List.mem_cons_self) hy
  | _, x :: l, [], h₁, h₂, hx, _ => by
    have hxh : x = h := h₁.1.symm.trans h₂.1
    exact absurd (hxh ▸ List.mem_cons_self) hx
  | _, x :: l, y :: l', h₁, h₂, hx, hy => by
    have hxy : x = y := h₁.1.symm.trans h₂.1
    subst hxy
    rw [Linked.eq_of_last h₁.2.2 h₂.2.2 (fun hm => hx (List.mem_cons_of_mem x hm))
      (fun hm => hy (List.mem_cons_of_mem x hm))]

/-- The memory and the sentinel determine the circular list. -/
theorem Circ.unique {m : Mem α} {h : α} {l l' : List α} (hc : Circ m h l) (hc' : Circ m h l') :
    l = l' :=
  Linked.eq_of_last hc.linked hc'.linked (List.nodup_cons.mp hc.nodup).1
    (List.nodup_cons.mp hc'.nodup).1

/-! ## Scans -/

/-- Follow `next` from `x` for at most `fuel` nodes, stopping at the sentinel
`h`, and return the first node that satisfies `p`. -/
def findNext [DecidableEq α] (m : Mem α) (h : α) (p : α → Bool) : Nat → α → Option α
  | 0, _ => none
  | fuel + 1, x => if x = h then none else if p x then some x else findNext m h p fuel (m x).next

/-- Follow `prev` from `x`, as `findNext` follows `next`. -/
def findPrev [DecidableEq α] (m : Mem α) (h : α) (p : α → Bool) : Nat → α → Option α
  | 0, _ => none
  | fuel + 1, x => if x = h then none else if p x then some x else findPrev m h p fuel (m x).prev

theorem findPrev_eq_findNext_swap [DecidableEq α] (m : Mem α) (h : α) (p : α → Bool) :
    ∀ (fuel : Nat) (x : α), findPrev m h p fuel x = findNext (swap m) h p fuel x
  | 0, _ => rfl
  | fuel + 1, x => by
    simp only [findPrev, findNext, swap, findPrev_eq_findNext_swap m h p fuel]

/-- A scan along a chain ending in the sentinel finds what `List.find?` finds,
given one unit of fuel per node. -/
theorem Linked.findNext_eq [DecidableEq α] {m : Mem α} {h : α} (p : α → Bool) :
    ∀ {l : List α} {x : α} {fuel : Nat}, Linked m (x :: (l ++ [h])) → h ∉ l →
      l.length < fuel → findNext m h p fuel (m x).next = l.find? p
  | _, _, 0, _, _, hlen => absurd hlen (Nat.not_lt_zero _)
  | [], x, fuel + 1, hl, _, _ => by simp [findNext, hl.1]
  | y :: l, x, fuel + 1, ⟨hxy, _, hrest⟩, hh, hlen => by
    have hy : y ≠ h := fun hy => hh (hy ▸ List.mem_cons_self)
    have ih : findNext m h p fuel (m y).next = l.find? p :=
      Linked.findNext_eq p hrest (fun hm => hh (List.mem_cons_of_mem y hm)) (by simpa using hlen)
    simp only [findNext, hxy, hy, if_false, List.find?_cons]
    cases p y <;> simp [ih]

theorem Circ.findNext_eq [DecidableEq α] {m : Mem α} {h : α} {l : List α} (hc : Circ m h l)
    (p : α → Bool) {fuel : Nat} (hfuel : l.length < fuel) :
    findNext m h p fuel (m h).next = l.find? p :=
  hc.linked.findNext_eq p (List.nodup_cons.mp hc.nodup).1 hfuel

theorem Circ.findPrev_eq [DecidableEq α] {m : Mem α} {h : α} {l : List α} (hc : Circ m h l)
    (p : α → Bool) {fuel : Nat} (hfuel : l.length < fuel) :
    findPrev m h p fuel (m h).prev = l.reverse.find? p := by
  rw [findPrev_eq_findNext_swap]
  exact hc.swap.findNext_eq p (by simpa using hfuel)

/-! ## Writing one link word -/

variable [DecidableEq α]

/-- Write node `x`'s `next` word. -/
def setNext (m : Mem α) (x y : α) : Mem α := Function.update m x { m x with next := y }

/-- Write node `x`'s `prev` word. -/
def setPrev (m : Mem α) (x y : α) : Mem α := Function.update m x { m x with prev := y }

@[simp] theorem setNext_next (m : Mem α) (x y z : α) :
    (setNext m x y z).next = if z = x then y else (m z).next := by
  by_cases h : z = x
  · subst h; simp [setNext]
  · simp [setNext, h]

@[simp] theorem setNext_prev (m : Mem α) (x y z : α) : (setNext m x y z).prev = (m z).prev := by
  by_cases h : z = x
  · subst h; simp [setNext]
  · simp [setNext, h]

@[simp] theorem setPrev_prev (m : Mem α) (x y z : α) :
    (setPrev m x y z).prev = if z = x then y else (m z).prev := by
  by_cases h : z = x
  · subst h; simp [setPrev]
  · simp [setPrev, h]

@[simp] theorem setPrev_next (m : Mem α) (x y z : α) : (setPrev m x y z).next = (m z).next := by
  by_cases h : z = x
  · subst h; simp [setPrev]
  · simp [setPrev, h]

theorem setNext_of_ne {m : Mem α} {x y z : α} (h : z ≠ x) : setNext m x y z = m z := by
  simp [setNext, h]

theorem setPrev_of_ne {m : Mem α} {x y z : α} (h : z ≠ x) : setPrev m x y z = m z := by
  simp [setPrev, h]

/-! ## The operations -/

/-- An empty list: the sentinel points at itself. -/
def init (m : Mem α) (h : α) : Mem α := setPrev (setNext m h h) h h

/-- The list with sentinel `h` is empty. -/
def isEmpty (m : Mem α) (h : α) : Bool := decide ((m h).next = h)

/-- Unlink `e` from its neighbours: `e.prev.next := e.next`, then
`e.next.prev := e.prev`. The words of `e` itself are left as they were. -/
def remove (m : Mem α) (e : α) : Mem α :=
  let m₁ := setNext m (m e).prev (m e).next
  setPrev m₁ (m₁ e).next (m₁ e).prev

/-- Link `e` in right after the sentinel `h`, in the order `e.next`, `e.prev`,
`h.next.prev`, `h.next`. -/
def push (m : Mem α) (h e : α) : Mem α :=
  let m₁ := setNext m e (m h).next
  let m₂ := setPrev m₁ e h
  let m₃ := setPrev m₂ (m₂ h).next e
  setNext m₃ h e

/-- Unlink and return the first node; `none` on an empty list. -/
def pop (m : Mem α) (h : α) : Option (α × Mem α) :=
  if (m h).next = h then none else some ((m h).next, remove m (m h).next)

theorem init_apply_self (m : Mem α) (h : α) : init m h h = ⟨h, h⟩ := by
  ext <;> simp [init]

theorem init_apply_of_ne {m : Mem α} {h x : α} (hx : x ≠ h) : init m h x = m x := by
  rw [init, setPrev_of_ne hx, setNext_of_ne hx]

/-- `init` of one sentinel after another leaves every other node as it was. -/
theorem foldl_init_apply_of_forall_ne {ι : Type} {h : ι → α} :
    ∀ {l : List ι} {m : Mem α} {x : α}, (∀ i ∈ l, h i ≠ x) → l.foldl (fun m i => init m (h i)) m x = m x
  | [], _, _, _ => rfl
  | i :: l, m, x, hx => by
    rw [List.foldl_cons, foldl_init_apply_of_forall_ne fun j hj => hx j (List.mem_cons_of_mem _ hj),
      init_apply_of_ne (Ne.symm (hx i List.mem_cons_self))]

/-- After `init` of distinct sentinels, each points at itself. -/
theorem foldl_init_apply {ι : Type} {h : ι → α} (hinj : Function.Injective h) :
    ∀ {l : List ι} {m : Mem α} {i : ι}, i ∈ l → l.foldl (fun m i => init m (h i)) m (h i) = ⟨h i, h i⟩
  | j :: l, m, i, hi => by
    rw [List.foldl_cons]
    by_cases hil : i ∈ l
    · exact foldl_init_apply hinj hil
    · obtain rfl : i = j := (List.mem_cons.mp hi).resolve_right hil
      rw [foldl_init_apply_of_forall_ne fun j hj hji => hil (by rwa [← hinj hji]), init_apply_self]

theorem circ_init (m : Mem α) (h : α) : Circ (init m h) h [] := by
  refine ⟨?_, by simp⟩
  simp [init, linked_cons_cons]

theorem Circ.isEmpty_iff {m : Mem α} {h : α} {l : List α} (hc : Circ m h l) :
    isEmpty m h = true ↔ l = [] := by
  have hl := hc.linked
  cases l with
  | nil => simp only [List.nil_append] at hl; simp [isEmpty, hl.1]
  | cons x l =>
    simp only [List.cons_append] at hl
    have hx : x ≠ h := fun hx => (List.nodup_cons.mp hc.nodup).1 (by simp [hx])
    simp [isEmpty, hl.1, hx]

/-- `remove` as two writes: `e`'s own words are read before either write, since
the first write can touch `e` only by setting its `next` to what it was. -/
theorem remove_eq (m : Mem α) (e : α) :
    remove m e = setPrev (setNext m (m e).prev (m e).next) (m e).next (m e).prev := by
  have hn : (setNext m (m e).prev (m e).next e).next = (m e).next := by
    rw [setNext_next]; split_ifs <;> rfl
  simp only [remove, hn, setNext_prev]

/-- Removing `e` changes only the link words of its two neighbours. -/
theorem remove_apply_of_ne {m : Mem α} {e x : α} (hp : x ≠ (m e).prev) (hn : x ≠ (m e).next) :
    remove m e x = m x := by
  rw [remove_eq, setPrev_of_ne hn, setNext_of_ne hp]

/-- **Unlinking a member** leaves the circular list of the others. -/
theorem circ_remove {m : Mem α} {h e : α} {l₁ l₂ : List α} (hc : Circ m h (l₁ ++ e :: l₂)) :
    Circ (remove m e) h (l₁ ++ l₂) := by
  obtain ⟨hnd₁, hnd₂, -, -, hdis⟩ := hc.disjoint
  obtain ⟨A, a, b, B, hA, hB, hpre, -, hea, heb, -, hpost⟩ := hc.split
  have ha : a ∉ A := by
    have hnd : (A ++ [a]).Nodup := hA ▸ hnd₁
    rw [List.nodup_append] at hnd
    exact fun hm => hnd.2.2 a hm a List.mem_cons_self rfl
  have hb : b ∉ B := (List.nodup_cons.mp (hB ▸ hnd₂)).1
  have htail : (A ++ [a]).tail = l₁ := by rw [← hA]; rfl
  have hdrop : (b :: B).dropLast = l₂ := by rw [← hB, List.dropLast_concat]
  have hbh : b ∈ l₂ ++ [h] := hB ▸ List.mem_cons_self
  have hah : a ∈ h :: l₁ := hA ▸ List.mem_append_right A List.mem_cons_self
  rw [remove_eq, hea, heb]
  refine ⟨?_, ?_⟩
  · have hsplit : h :: (l₁ ++ l₂ ++ [h]) = A ++ a :: b :: B := by
      rw [List.append_assoc, hB, ← List.cons_append, hA, List.append_assoc, List.singleton_append]
    rw [hsplit, linked_append_cons_cons]
    refine ⟨hpre.congr (fun x hx => ?_) (fun y hy => ?_), by simp, by simp,
      hpost.congr (fun x hx => ?_) (fun y hy => ?_)⟩
    · rw [List.dropLast_concat] at hx
      have hxa : x ≠ a := fun hxa => ha (hxa ▸ hx)
      simp [hxa]
    · rw [htail] at hy
      have hyb : y ≠ b := fun hyb => hdis y hy (hyb ▸ hbh)
      simp [hyb]
    · rw [hdrop] at hx
      have hxa : x ≠ a := by
        rintro rfl
        rcases List.mem_cons.mp hah with hx' | hx'
        · exact (List.nodup_append.mp hnd₂).2.2 x hx h List.mem_cons_self hx'
        · exact hdis x hx' (List.mem_append_left _ hx)
      simp [hxa]
    · have hyb : y ≠ b := fun hyb => hb (hyb ▸ hy)
      simp [hyb]
  · exact hc.nodup.sublist (List.Sublist.cons_cons h ((List.sublist_cons_self e l₂).append_left l₁))

/-- `push` as four writes, when the pushed node is not the sentinel. -/
theorem push_eq {m : Mem α} {h e : α} (he : e ≠ h) :
    push m h e = setNext (setPrev (setPrev (setNext m e (m h).next) e h) (m h).next e) h e := by
  simp only [push, setPrev_next, setNext_next, if_neg (Ne.symm he)]

/-- Pushing `e` changes only the words of the sentinel, of `e` and of the old
first node. -/
theorem push_apply_of_ne {m : Mem α} {h e x : α} (hh : x ≠ h) (he : x ≠ e) (hn : x ≠ (m h).next) :
    push m h e x = m x := by
  have hn' : (setPrev (setNext m e (m h).next) e h h).next = (m h).next := by
    rw [setPrev_next, setNext_next]; split_ifs <;> rfl
  simp only [push]
  rw [hn', setNext_of_ne hh, setPrev_of_ne hn, setPrev_of_ne he, setNext_of_ne he]

/-- **Pushing a fresh node** puts it first in the circular list. -/
theorem circ_push {m : Mem α} {h e : α} {l : List α} (hc : Circ m h l) (he : e ∉ h :: l) :
    Circ (push m h e) h (e :: l) := by
  have heh : e ≠ h := fun h' => he (h' ▸ List.mem_cons_self)
  have hel : e ∉ l := fun h' => he (List.mem_cons_of_mem h h')
  obtain ⟨b, B, hB⟩ : ∃ b B, l ++ [h] = b :: B := by
    cases l with
    | nil => exact ⟨h, [], rfl⟩
    | cons b B => exact ⟨b, B ++ [h], rfl⟩
  have hl := hc.linked
  rw [hB] at hl
  obtain ⟨hhb, -, hpost⟩ := hl
  have hbe : b ≠ e := by
    intro hbe
    have hbm : b ∈ l ++ [h] := hB ▸ List.mem_cons_self
    simp only [List.mem_append, List.mem_singleton] at hbm
    rcases hbm with hbm | hbm
    · exact hel (hbe ▸ hbm)
    · exact heh (hbe ▸ hbm)
  have hnd₂ : (l ++ [h]).Nodup := by
    have hnd := hc.nodup
    rw [List.nodup_cons] at hnd
    rw [List.nodup_append]
    refine ⟨hnd.2, List.nodup_singleton h, fun x hx y hy hxy => ?_⟩
    rw [List.mem_singleton] at hy
    subst hy hxy
    exact hnd.1 hx
  have hb : b ∉ B := (List.nodup_cons.mp (hB ▸ hnd₂)).1
  rw [push_eq heh, hhb]
  refine ⟨?_, ?_⟩
  · rw [List.cons_append, hB]
    refine ⟨by simp, by simp [Ne.symm hbe], by simp [heh], by simp, ?_⟩
    refine hpost.congr (fun x hx => ?_) (fun y hy => ?_)
    · have hx' : x ∈ l := by rw [← hB, List.dropLast_concat] at hx; exact hx
      have hxh : x ≠ h := fun hxh => (List.nodup_cons.mp hc.nodup).1 (hxh ▸ hx')
      have hxe : x ≠ e := fun hxe => hel (hxe ▸ hx')
      simp [hxh, hxe]
    · have hyb : y ≠ b := fun hyb => hb (hyb ▸ hy)
      have hye : y ≠ e := by
        intro hye
        have hy' : y ∈ l ++ [h] := hB ▸ List.mem_cons_of_mem b hy
        simp only [List.mem_append, List.mem_singleton] at hy'
        rcases hy' with hy' | hy'
        · exact hel (hye ▸ hy')
        · exact heh (hye ▸ hy')
      simp [hyb, hye]
  · rw [List.nodup_cons, List.nodup_cons]
    exact ⟨by simpa [Ne.symm heh] using (List.nodup_cons.mp hc.nodup).1, hel,
      (List.nodup_cons.mp hc.nodup).2⟩

/-- Pushing fresh nodes one after another, each right after the sentinel,
leaves them in reverse order in front of the old members. -/
theorem Circ.foldl_push {h : α} :
    ∀ {xs l : List α} {m : Mem α}, Circ m h l → (h :: l ++ xs).Nodup →
      Circ (xs.foldl (fun m x => push m h x) m) h (xs.reverse ++ l)
  | [], l, m, hc, _ => by simpa using hc
  | x :: xs, l, m, hc, hnd => by
    have hx : x ∉ h :: l := by
      rw [List.nodup_append] at hnd
      exact fun hm => hnd.2.2 x hm x List.mem_cons_self rfl
    have hnd' : (h :: (x :: l) ++ xs).Nodup := by
      refine (List.perm_cons h).mpr ?_ |>.nodup_iff.mp hnd
      simp
    have ih := Circ.foldl_push (circ_push hc hx) hnd'
    simpa using ih

/-- Popping a non-empty list unlinks its first node. -/
theorem Circ.pop_eq {m : Mem α} {h e : α} {l : List α} (hc : Circ m h (e :: l)) :
    pop m h = some (e, remove m e) := by
  have hl := hc.linked
  have heh : e ≠ h := fun h' => (List.nodup_cons.mp hc.nodup).1 (h' ▸ List.mem_cons_self)
  simp only [List.cons_append] at hl
  simp [pop, hl.1, heh]

/-! ## Several lists in one memory -/

/-- Pushing onto one circular list keeps every circular list whose nodes it
does not share, as long as the pushed node is not one of them. -/
theorem Circ.push_frame {m : Mem α} {h h' e : α} {l l' : List α} (hc : Circ m h l)
    (hc' : Circ m h' l') (hd : List.Disjoint (h :: l) (h' :: l')) (he : e ∉ h' :: l') :
    Circ (push m h e) h' l' := by
  refine hc'.congr fun x hx => push_apply_of_ne ?_ ?_ ?_
  · rintro rfl
    exact hd List.mem_cons_self hx
  · rintro rfl
    exact he hx
  · rintro rfl
    exact hd hc.next_head_mem hx

/-- Unlinking a member of one circular list keeps every circular list whose
nodes it does not share. -/
theorem Circ.remove_frame {m : Mem α} {h h' e : α} {l₁ l₂ l' : List α}
    (hc : Circ m h (l₁ ++ e :: l₂)) (hc' : Circ m h' l')
    (hd : List.Disjoint (h :: (l₁ ++ e :: l₂)) (h' :: l')) : Circ (remove m e) h' l' := by
  obtain ⟨hp, hn⟩ := hc.neighbours_mem
  refine hc'.congr fun x hx => remove_apply_of_ne ?_ ?_
  · rintro rfl
    refine hd ?_ hx
    rcases List.mem_cons.mp hp with hp | hp
    · exact hp ▸ List.mem_cons_self
    · exact List.mem_cons_of_mem h (List.mem_append_left _ hp)
  · rintro rfl
    refine hd ?_ hx
    rcases List.mem_append.mp hn with hn | hn
    · exact List.mem_cons_of_mem h (List.mem_append_right _ (List.mem_cons_of_mem e hn))
    · exact (List.mem_singleton.mp hn) ▸ List.mem_cons_self

/-- A family of circular lists in one memory, with pairwise disjoint nodes. -/
structure Family {ι : Type} (I : ι → Prop) (m : Mem α) (h : ι → α) (fl : ι → List α) : Prop where
  circ : ∀ i, I i → Circ m (h i) (fl i)
  disjoint : ∀ i j, I i → I j → i ≠ j → List.Disjoint (h i :: fl i) (h j :: fl j)

/-- Sentinels made empty lists one after another by `init` form a family of
empty lists. -/
theorem Family.of_foldl_init {ι : Type} {I : ι → Prop} {h : ι → α} (hinj : Function.Injective h) {l : List ι}
    (hI : ∀ i, I i → i ∈ l) (m : Mem α) :
    Family I (l.foldl (fun m i => init m (h i)) m) h fun _ => [] := by
  refine ⟨fun i hi => circ_nil_of_apply (foldl_init_apply hinj (hI i hi)), fun i j _ _ hij x hx hx' => ?_⟩
  rw [List.mem_singleton] at hx hx'
  exact hij (hinj (hx.symm.trans hx'))

section Family

variable {ι : Type} [DecidableEq ι] {I : ι → Prop} {m : Mem α} {h : ι → α} {fl : ι → List α}

/-- **Pushing a node that is on none of the lists** puts it first on its list
and keeps the others. -/
theorem Family.circ_pushed (hf : Family I m h fl) {k : ι} (hk : I k) {e : α}
    (he : ∀ i, I i → e ∉ h i :: fl i) :
    ∀ i, I i → Circ (push m (h k) e) (h i) (Function.update fl k (e :: fl k) i) := by
  intro i hi
  by_cases hik : i = k
  · subst hik
    rw [Function.update_self]
    exact Intrusive.circ_push (hf.circ i hi) (he i hi)
  · rw [Function.update_of_ne hik]
    exact (hf.circ k hk).push_frame (hf.circ i hi) (hf.disjoint k i hk hi (Ne.symm hik)) (he i hi)

/-- **Unlinking a member** takes it off its list and keeps the others. -/
theorem Family.circ_removed (hf : Family I m h fl) {k : ι} (hk : I k) {e : α} (he : e ∈ fl k) :
    ∀ i, I i → Circ (remove m e) (h i) (Function.update fl k ((fl k).erase e) i) := by
  obtain ⟨l₁, l₂, hl⟩ := List.append_of_mem he
  have hck := hf.circ k hk
  rw [hl] at hck
  have he₁ : e ∉ l₁ := hck.disjoint.2.2.1 ∘ List.mem_cons_of_mem _
  have herase : (fl k).erase e = l₁ ++ l₂ := by
    rw [hl, List.erase_append_right _ he₁, List.erase_cons_head]
  intro i hi
  by_cases hik : i = k
  · subst hik
    rw [Function.update_self, herase]
    exact Intrusive.circ_remove hck
  · rw [Function.update_of_ne hik]
    have hd := hf.disjoint k i hk hi (Ne.symm hik)
    rw [hl] at hd
    exact hck.remove_frame (hf.circ i hi) hd

/-- Pushing a node that is on none of the lists keeps a family. -/
theorem Family.push_of_fresh (hf : Family I m h fl) {k : ι} (hk : I k) {e : α}
    (he : ∀ i, I i → e ∉ h i :: fl i) : Family I (push m (h k) e) h (Function.update fl k (e :: fl k)) := by
  refine ⟨hf.circ_pushed hk he, fun i j hi hj hij => ?_⟩
  -- the pushed node is new to every other list
  have hnew : ∀ i j, I i → I j → i ≠ j → i = k →
      List.Disjoint (h i :: Function.update fl k (e :: fl k) i) (h j :: Function.update fl k (e :: fl k) j) := by
    rintro i j hi hj hij rfl
    rw [Function.update_self, Function.update_of_ne (Ne.symm hij)]
    intro x hx hx'
    rcases List.mem_cons.mp hx with rfl | hx
    · exact hf.disjoint i j hi hj hij List.mem_cons_self hx'
    rcases List.mem_cons.mp hx with rfl | hx
    · exact he j hj hx'
    · exact hf.disjoint i j hi hj hij (List.mem_cons_of_mem _ hx) hx'
  by_cases hik : i = k
  · exact hnew i j hi hj hij hik
  by_cases hjk : j = k
  · exact fun x hx hx' => hnew j i hj hi (Ne.symm hij) hjk hx' hx
  rw [Function.update_of_ne hik, Function.update_of_ne hjk]
  exact hf.disjoint i j hi hj hij

/-- Unlinking a member keeps a family. -/
theorem Family.remove_of_mem (hf : Family I m h fl) {k : ι} (hk : I k) {e : α} (he : e ∈ fl k) :
    Family I (remove m e) h (Function.update fl k ((fl k).erase e)) := by
  refine ⟨hf.circ_removed hk he, fun i j hi hj hij => ?_⟩
  -- every list is a sublist of what it was
  have hsub : ∀ i, h i :: Function.update fl k ((fl k).erase e) i ⊆ h i :: fl i := by
    intro i
    by_cases hik : i = k
    · subst hik
      rw [Function.update_self]
      exact List.cons_subset_cons _ (List.erase_subset)
    · rw [Function.update_of_ne hik]
      exact List.Subset.refl _
  exact fun x hx hx' => hf.disjoint i j hi hj hij (hsub i hx) (hsub j hx')

/-- **Pushing a list of fresh nodes, each onto its own list**: every list gets
its nodes in reverse order in front of its old members. -/
theorem Family.foldl_push :
    ∀ (l : List (ι × α)) {m : Mem α} {fl : ι → List α}, Family I m h fl → (∀ x ∈ l, I x.1) →
      (l.map Prod.snd).Nodup → (∀ x ∈ l, ∀ i, I i → x.2 ∉ h i :: fl i) →
      Family I (l.foldl (fun m x => push m (h x.1) x.2) m) h
        (fun i => ((l.filter fun x => x.1 = i).map Prod.snd).reverse ++ fl i)
  | [], _, _, hf, _, _, _ => by simpa using hf
  | x :: l, m, fl, hf, hI, hnd, hfresh => by
    have hx := hf.push_of_fresh (hI x List.mem_cons_self) (hfresh x List.mem_cons_self)
    have hnd' := List.nodup_cons.mp hnd
    -- the later nodes are fresh for the lists with `x` pushed
    have hfresh' : ∀ y ∈ l, ∀ i, I i → y.2 ∉ h i :: Function.update fl x.1 (x.2 :: fl x.1) i := by
      intro y hy i hi hmem
      have hyx : y.2 ≠ x.2 := fun heq => hnd'.1 (heq ▸ List.mem_map_of_mem hy)
      by_cases hix : i = x.1
      · subst hix
        rw [Function.update_self] at hmem
        rcases List.mem_cons.mp hmem with hmem | hmem
        · exact hfresh y (List.mem_cons_of_mem _ hy) x.1 hi (hmem ▸ List.mem_cons_self)
        rcases List.mem_cons.mp hmem with hmem | hmem
        · exact hyx hmem
        · exact hfresh y (List.mem_cons_of_mem _ hy) x.1 hi (List.mem_cons_of_mem _ hmem)
      · rw [Function.update_of_ne hix] at hmem
        exact hfresh y (List.mem_cons_of_mem _ hy) i hi hmem
    have ih := Family.foldl_push l hx (fun y hy => hI y (List.mem_cons_of_mem _ hy)) hnd'.2 hfresh'
    have hlists : (fun i => (((x :: l).filter fun y => y.1 = i).map Prod.snd).reverse ++ fl i) =
        fun i => ((l.filter fun y => y.1 = i).map Prod.snd).reverse ++ Function.update fl x.1 (x.2 :: fl x.1) i := by
      funext i
      by_cases hix : i = x.1
      · subst hix
        simp
      · rw [Function.update_of_ne hix, List.filter_cons_of_neg (by simpa using Ne.symm hix)]
    rw [List.foldl_cons, hlists]
    exact ih

end Family

end Intrusive
