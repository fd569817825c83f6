import Mathlib

/-!
# Buddy trees

A buddy allocator of height `M` cuts its one block of size `M` into halves,
halves into halves, down to size `0`. Block `b` of size `k` covers the leaves
`x` with `x / 2^k = b`; its halves are the blocks `2b` and `2b + 1` of size
`k - 1`, which are each other's `sibling`. Read abstractly, the allocator tags
every block: `split` into its halves, `free`, `used`, or `none` when the block
is not a piece at all, lying inside a larger block that is not split.

* `Tree M t`: the tags form a tree: the top block `(M, 0)` is there, a block
  below the top is there exactly when its parent is split, a leaf is never
  split, and there is nothing above the top.
* `Coalesced M t`: no free block has a free sibling.
* `Tree.atom_exists` and `Tree.atom_unique`: each leaf lies in exactly one free
  or used block.
* `Tree.split_iff` and `Tree.eq_of_used`: in a coalesced tree a block is split
  exactly when it holds a used block, so the used blocks determine the tree.
* `Tree.take`, `Tree.halve`, `Tree.release`, `Tree.merge` and their
  `Coalesced` companions: the steps of allocating and freeing keep a coalesced
  tree.
-/

namespace BuddyTree

/-- The tag of a block. -/
inductive Tag where
  | none
  | free
  | used
  | split
deriving DecidableEq, Repr

/-- A piece: a free or a used block. -/
def Tag.IsAtom : Tag → Prop
  | .free | .used => True
  | _ => False

/-- Block `(k, b)` retagged `v`. -/
def set (t : Nat → Nat → Tag) (k b : Nat) (v : Tag) : Nat → Nat → Tag :=
  fun k' b' => if k' = k ∧ b' = b then v else t k' b'

/-- The other half of the block of the next size. -/
def sibling (b : Nat) : Nat := if b % 2 = 0 then b + 1 else b - 1

/-- The tags form a tree of height `M`. -/
structure Tree (M : Nat) (t : Nat → Nat → Tag) : Prop where
  top : ∀ b, t M b ≠ .none ↔ b = 0
  child : ∀ k b, k < M → (t k b ≠ .none ↔ t (k + 1) (b / 2) = .split)
  leaf : ∀ b, t 0 b ≠ .split
  above : ∀ k b, M < k → t k b = .none

/-- No free block below the top has a free sibling. -/
def Coalesced (M : Nat) (t : Nat → Nat → Tag) : Prop :=
  ∀ k b, k < M → t k b = .free → t k (sibling b) ≠ .free

/-- Split the used block `(k, c)`: its lower half is used, its upper half free. -/
def splitAt (t : Nat → Nat → Tag) (k c : Nat) : Nat → Nat → Tag :=
  set (set (set t k c .split) (k - 1) (2 * c) .used) (k - 1) (2 * c + 1) .free

/-- Merge the used block `(k, c)` with its free sibling into their used parent. -/
def mergeAt (t : Nat → Nat → Tag) (k c : Nat) : Nat → Nat → Tag :=
  set (set (set t k c .none) k (sibling c) .none) (k + 1) (c / 2) .used

section

variable {t : Nat → Nat → Tag} {k b : Nat} {v : Tag}

@[simp] theorem set_same (t : Nat → Nat → Tag) (k b : Nat) (v : Tag) : set t k b v k b = v := by
  simp [set]

theorem set_of_ne {k' b' : Nat} (h : ¬(k' = k ∧ b' = b)) : set t k b v k' b' = t k' b' :=
  if_neg h

theorem sibling_div_two (b : Nat) : sibling b / 2 = b / 2 := by
  unfold sibling
  split_ifs <;> omega

theorem sibling_ne (b : Nat) : sibling b ≠ b := by
  unfold sibling
  split_ifs <;> omega

theorem sibling_sibling (b : Nat) : sibling (sibling b) = b := by
  unfold sibling
  split_ifs <;> omega

/-- The two blocks with one parent are a block and its sibling. -/
theorem eq_or_sibling_of_div_two {b c : Nat} (h : b / 2 = c / 2) : b = c ∨ b = sibling c := by
  unfold sibling
  split_ifs <;> omega

/-- The siblings of a block's two halves. -/
theorem sibling_two_mul (c : Nat) : sibling (2 * c) = 2 * c + 1 := by
  unfold sibling
  split_ifs <;> omega

theorem sibling_two_mul_add_one (c : Nat) : sibling (2 * c + 1) = 2 * c := by
  unfold sibling
  split_ifs <;> omega

end

/-! ## Shape -/

section Shape

variable {M : Nat} {t : Nat → Nat → Tag} {k b : Nat}

theorem Tree.le_of_ne_none (ht : Tree M t) (h : t k b ≠ .none) : k ≤ M :=
  Nat.le_of_not_lt fun hk => h (ht.above k b hk)

theorem Tree.parent (ht : Tree M t) (hk : k < M) (h : t k b ≠ .none) : t (k + 1) (b / 2) = .split :=
  (ht.child k b hk).mp h

/-- A block is there exactly when it is the top block or its parent is split. -/
theorem Tree.ne_none_iff (ht : Tree M t) (hk : k ≤ M) :
    t k b ≠ .none ↔ (k = M ∧ b = 0) ∨ (k < M ∧ t (k + 1) (b / 2) = .split) := by
  rcases Nat.eq_or_lt_of_le hk with rfl | hk
  · rw [ht.top]
    omega
  · rw [ht.child k b hk]
    constructor
    · exact fun h => Or.inr ⟨hk, h⟩
    · rintro (⟨rfl, -⟩ | ⟨-, h⟩)
      · exact absurd hk (Nat.lt_irrefl k)
      · exact h

/-- Every block above one that is there is split. -/
theorem Tree.split_above (ht : Tree M t) :
    ∀ d {j c : Nat}, j + d < M → t j c ≠ .none → t (j + d + 1) (c / 2 ^ (d + 1)) = .split
  | 0, j, c, h, hc => by simpa using ht.parent (by omega) hc
  | d + 1, j, c, h, hc => by
    have ih := ht.split_above d (by omega) hc
    have hup := ht.parent (show j + d + 1 < M by omega) (by rw [ih]; decide)
    rwa [Nat.div_div_eq_div_mul, ← Nat.pow_succ] at hup

/-- Going down from a block that is there, along the blocks of leaf `x`, the
first one that is not split is a piece. -/
theorem Tree.atom_below (ht : Tree M t) (x : Nat) :
    ∀ k, t k (x / 2 ^ k) ≠ .none → ∃ j ≤ k, (t j (x / 2 ^ j)).IsAtom
  | k, h => by
    cases hk : t k (x / 2 ^ k) with
    | none => exact absurd hk h
    | free => exact ⟨k, Nat.le_refl k, by rw [hk]; trivial⟩
    | used => exact ⟨k, Nat.le_refl k, by rw [hk]; trivial⟩
    | split =>
      obtain ⟨k, rfl⟩ : ∃ k', k = k' + 1 := by
        rcases k with _ | k
        · exact absurd hk (ht.leaf _)
        · exact ⟨k, rfl⟩
      have hM : k < M := Nat.lt_of_succ_le (ht.le_of_ne_none h)
      have hchild : t k (x / 2 ^ k) ≠ .none := by
        rw [ht.child k _ hM, Nat.div_div_eq_div_mul, ← Nat.pow_succ]
        exact hk
      obtain ⟨j, hj, hatom⟩ := ht.atom_below x k hchild
      exact ⟨j, Nat.le_succ_of_le hj, hatom⟩

/-- **Each leaf lies in a piece.** -/
theorem Tree.atom_exists (ht : Tree M t) {x : Nat} (hx : x < 2 ^ M) :
    ∃ k ≤ M, (t k (x / 2 ^ k)).IsAtom := by
  have htop : t M (x / 2 ^ M) ≠ .none := by
    rw [Nat.div_eq_of_lt hx]
    exact (ht.top 0).mpr rfl
  exact ht.atom_below x M htop

theorem Tag.IsAtom.ne_none {v : Tag} (h : v.IsAtom) : v ≠ .none := by
  cases v <;> simp_all [Tag.IsAtom]

theorem Tag.IsAtom.ne_split {v : Tag} (h : v.IsAtom) : v ≠ .split := by
  cases v <;> simp_all [Tag.IsAtom]

/-- **Each leaf lies in one piece only**: every block above a piece is split. -/
theorem Tree.atom_unique (ht : Tree M t) {x j k : Nat} (hj : (t j (x / 2 ^ j)).IsAtom)
    (hk : (t k (x / 2 ^ k)).IsAtom) : j = k := by
  -- the lower of the two pieces makes every block above it split
  have key : ∀ {i l}, (t i (x / 2 ^ i)).IsAtom → (t l (x / 2 ^ l)).IsAtom → i < l → False := by
    intro i l hi hl hil
    have hlM := ht.le_of_ne_none hl.ne_none
    have hs := ht.split_above (l - i - 1) (show i + (l - i - 1) < M by omega) hi.ne_none
    rw [Nat.div_div_eq_div_mul, ← Nat.pow_add, show i + (l - i - 1) + 1 = l by omega,
      show i + (l - i - 1 + 1) = l by omega] at hs
    exact hl.ne_split hs
  rcases Nat.lt_trichotomy j k with hjk | hjk | hjk
  · exact absurd hjk fun h => key hj hk h
  · exact hjk
  · exact absurd hjk fun h => key hk hj h

/-- Two pieces that start at the same leaf are one block. -/
theorem Tree.eq_of_first_leaf (ht : Tree M t) {k k' b b' : Nat} (h : (t k b).IsAtom) (h' : (t k' b').IsAtom)
    (hx : b * 2 ^ k = b' * 2 ^ k') : k = k' ∧ b = b' := by
  have hb : b * 2 ^ k / 2 ^ k = b := Nat.mul_div_cancel b (Nat.two_pow_pos k)
  have hb' : b * 2 ^ k / 2 ^ k' = b' := by rw [hx]; exact Nat.mul_div_cancel b' (Nat.two_pow_pos k')
  obtain rfl := ht.atom_unique (show (t k (b * 2 ^ k / 2 ^ k)).IsAtom by rw [hb]; exact h)
    (show (t k' (b * 2 ^ k / 2 ^ k')).IsAtom by rw [hb']; exact h')
  exact ⟨rfl, hb.symm.trans hb'⟩

/-- Below a piece nothing is there. -/
theorem Tree.none_below (ht : Tree M t) {j c : Nat} (hc : (t k c).IsAtom) (hj : j < k)
    (hb : b / 2 ^ (k - j) = c) : t j b = .none := by
  refine Decidable.of_not_not fun hne => hc.ne_split ?_
  have hk := ht.le_of_ne_none hc.ne_none
  have hs := ht.split_above (k - j - 1) (show j + (k - j - 1) < M by omega) hne
  rwa [show j + (k - j - 1) + 1 = k by omega, show k - j - 1 + 1 = k - j by omega, hb] at hs

/-- **A split block holds a used block**, in a coalesced tree: of its two
halves at most one is free. -/
theorem Tree.split_has_used (ht : Tree M t) (hc : Coalesced M t) :
    ∀ k b, t k b = .split → ∃ j c, j < k ∧ c / 2 ^ (k - j) = b ∧ t j c = .used
  | 0, b, h => absurd h (ht.leaf b)
  | k + 1, b, h => by
    have hM : k < M := Nat.lt_of_succ_le (ht.le_of_ne_none (by rw [h]; decide))
    -- both halves are there, and they are siblings
    have hhalf : ∀ c, c / 2 = b → t k c ≠ .none := fun c hcb => by
      rw [ht.child k c hM, hcb]
      exact h
    have hsib := sibling_two_mul b
    obtain ⟨c, hcb, hcf⟩ : ∃ c, c / 2 = b ∧ t k c ≠ .free := by
      by_cases hf : t k (2 * b) = .free
      · refine ⟨2 * b + 1, by omega, ?_⟩
        rw [← hsib]
        exact hc k (2 * b) hM hf
      · exact ⟨2 * b, by omega, hf⟩
    cases htc : t k c with
    | none => exact absurd htc (hhalf c hcb)
    | free => exact absurd htc hcf
    | used => exact ⟨k, c, Nat.lt_succ_self k, by simpa using hcb, htc⟩
    | split =>
      obtain ⟨j, c', hj, hc', hu⟩ := ht.split_has_used hc k c htc
      refine ⟨j, c', by omega, ?_, hu⟩
      rw [show k + 1 - j = k - j + 1 by omega, Nat.pow_succ, ← Nat.div_div_eq_div_mul, hc', hcb]

/-- In a coalesced tree a block is split exactly when it holds a used block. -/
theorem Tree.split_iff (ht : Tree M t) (hc : Coalesced M t) (hk : k ≤ M) :
    t k b = .split ↔ ∃ j c, j < k ∧ c / 2 ^ (k - j) = b ∧ t j c = .used := by
  refine ⟨ht.split_has_used hc k b, ?_⟩
  rintro ⟨j, c, hj, rfl, hu⟩
  have hs := ht.split_above (k - j - 1) (show j + (k - j - 1) < M by omega) (by rw [hu]; decide)
  rwa [show j + (k - j - 1) + 1 = k by omega, show k - j - 1 + 1 = k - j by omega] at hs

/-- **A coalesced tree is determined by its used blocks.** -/
theorem Tree.eq_of_used {t' : Nat → Nat → Tag} (ht : Tree M t) (ht' : Tree M t')
    (hc : Coalesced M t) (hc' : Coalesced M t') (hu : ∀ k b, t k b = .used ↔ t' k b = .used)
    (k b : Nat) : t k b = t' k b := by
  rcases Nat.lt_or_ge M k with hk | hk
  · rw [ht.above k b hk, ht'.above k b hk]
  have hused : ∀ k', (∃ j c, j < k' ∧ c / 2 ^ (k' - j) = b / 2 ^ (k' - k) ∧ t j c = .used) ↔
      (∃ j c, j < k' ∧ c / 2 ^ (k' - j) = b / 2 ^ (k' - k) ∧ t' j c = .used) := by
    intro k'
    simp only [hu]
  have hs : t k b = .split ↔ t' k b = .split := by
    have := hused k
    simp only [Nat.sub_self, Nat.pow_zero, Nat.div_one] at this
    rw [ht.split_iff hc hk, ht'.split_iff hc' hk]
    exact this
  have hn : t k b ≠ .none ↔ t' k b ≠ .none := by
    rw [ht.ne_none_iff hk, ht'.ne_none_iff hk]
    by_cases hkM : k < M
    · have := hused (k + 1)
      simp only [show k + 1 - k = 1 by omega, Nat.pow_one] at this
      rw [ht.split_iff hc hkM, ht'.split_iff hc' hkM]
      exact or_congr Iff.rfl (and_congr Iff.rfl this)
    · simp only [hkM, false_and, or_false]
  have hu' := hu k b
  cases h₁ : t k b <;> cases h₂ : t' k b <;> simp_all

end Shape

/-! ## The steps of the allocator -/

section Steps

variable {M : Nat} {t : Nat → Nat → Tag} {k b c : Nat}

/-- A retagging that keeps whether the block is there and whether it is split
keeps the tree. -/
theorem Tree.set_of_shape {v : Tag} (ht : Tree M t) (hn : v = .none ↔ t k b = .none)
    (hs : v = .split ↔ t k b = .split) : Tree M (set t k b v) := by
  have key : ∀ k' b', (set t k b v k' b' = .none ↔ t k' b' = .none) ∧
      (set t k b v k' b' = .split ↔ t k' b' = .split) := by
    intro k' b'
    by_cases h : k' = k ∧ b' = b
    · obtain ⟨rfl, rfl⟩ := h
      simp only [set_same]
      exact ⟨hn, hs⟩
    · rw [set_of_ne h]
      exact ⟨Iff.rfl, Iff.rfl⟩
  refine ⟨fun b' => ?_, fun k' b' hk' => ?_, fun b' => ?_, fun k' b' hk' => ?_⟩
  · rw [ne_eq, (key M b').1]
    exact ht.top b'
  · rw [ne_eq, (key k' b').1, (key (k' + 1) (b' / 2)).2]
    exact ht.child k' b' hk'
  · rw [ne_eq, (key 0 b').2]
    exact ht.leaf b'
  · exact (key k' b').1.mpr (ht.above k' b' hk')

/-- Taking a free block keeps the tree. -/
theorem Tree.take (ht : Tree M t) (h : t k b = .free) : Tree M (set t k b .used) :=
  ht.set_of_shape (by simp [h]) (by simp [h])

/-- Freeing a used block keeps the tree. -/
theorem Tree.release (ht : Tree M t) (h : t k b = .used) : Tree M (set t k b .free) :=
  ht.set_of_shape (by simp [h]) (by simp [h])

theorem Coalesced.take (hc : Coalesced M t) : Coalesced M (set t k b .used) := by
  intro k' b' hk' hf
  by_cases h : k' = k ∧ b' = b
  · obtain ⟨rfl, rfl⟩ := h
    simp at hf
  · rw [set_of_ne h] at hf
    by_cases hs : k' = k ∧ sibling b' = b
    · obtain ⟨rfl, hs⟩ := hs
      rw [← hs, set_same]
      decide
    · rw [set_of_ne hs]
      exact hc k' b' hk' hf

/-- Freeing a used block keeps the tree coalesced when its sibling is not free. -/
theorem Coalesced.release (hc : Coalesced M t) (hsib : k < M → t k (sibling b) ≠ .free) :
    Coalesced M (set t k b .free) := by
  intro k' b' hk' hf
  by_cases h : k' = k ∧ b' = b
  · obtain ⟨rfl, rfl⟩ := h
    rw [set_of_ne (by have := sibling_ne b'; omega)]
    exact hsib hk'
  · rw [set_of_ne h] at hf
    by_cases hs : k' = k ∧ sibling b' = b
    · obtain ⟨rfl, hs⟩ := hs
      have hb' : b' = sibling b := by rw [← hs, sibling_sibling]
      exact absurd hf (by rw [hb']; exact hsib hk')
    · rw [set_of_ne hs]
      exact hc k' b' hk' hf

theorem splitAt_succ : splitAt t (k + 1) c = set (set (set t (k + 1) c .split) k (2 * c) .used) k (2 * c + 1) .free := by
  rw [splitAt, Nat.add_sub_cancel]

/-- `splitAt` changes the block and its two halves only. -/
theorem splitAt_of_ne {k' b' : Nat} (hA : ¬(k' = k + 1 ∧ b' = c)) (hh : ¬(k' = k ∧ b' / 2 = c)) :
    splitAt t (k + 1) c k' b' = t k' b' := by
  unfold splitAt
  rw [Nat.add_sub_cancel, set_of_ne (by omega), set_of_ne (by omega), set_of_ne hA]

theorem splitAt_self : splitAt t (k + 1) c (k + 1) c = .split := by
  unfold splitAt
  rw [set_of_ne (by omega), set_of_ne (by omega), set_same]

/-- The lower half of a split block is used, the upper half free. -/
theorem splitAt_half {b' : Nat} (hb : b' / 2 = c) :
    splitAt t (k + 1) c k b' = if b' = 2 * c then .used else .free := by
  unfold splitAt
  rw [Nat.add_sub_cancel]
  by_cases hlo : b' = 2 * c
  · subst hlo
    rw [if_pos rfl, set_of_ne (by omega), set_same]
  · rw [if_neg hlo, show b' = 2 * c + 1 by omega, set_same]

/-- **Splitting a used block** keeps the tree: its halves come into the tree,
and the blocks below them were not there. -/
theorem Tree.halve (ht : Tree M t) (h : t (k + 1) c = .used) : Tree M (splitAt t (k + 1) c) := by
  have hkM : k < M := Nat.lt_of_succ_le (ht.le_of_ne_none (by rw [h]; decide))
  -- the halves were not there, and they are pieces now
  have hhalf : ∀ b', b' / 2 = c → t k b' = .none := fun b' hb' =>
    ht.none_below (by rw [h]; trivial) (Nat.lt_add_one k) (by rwa [Nat.add_sub_cancel_left, Nat.pow_one])
  have hval : ∀ b', b' / 2 = c → splitAt t (k + 1) c k b' ≠ .none ∧ splitAt t (k + 1) c k b' ≠ .split :=
    fun b' hb' => by rw [splitAt_half hb']; split_ifs <;> decide
  refine ⟨fun b' => ?_, fun k' b' hk' => ?_, fun b' => ?_, fun k' b' hk' => ?_⟩
  · by_cases hA : M = k + 1 ∧ b' = c
    · obtain ⟨rfl, rfl⟩ := hA
      rw [splitAt_self, ← (ht.top b'), h]
      simp
    · rw [splitAt_of_ne hA (by omega)]
      exact ht.top b'
  · by_cases hA : k' = k + 1 ∧ b' = c
    · obtain ⟨rfl, rfl⟩ := hA
      rw [splitAt_self, splitAt_of_ne (by omega) (by omega)]
      simp [ht.parent hk' (show t (k + 1) b' ≠ .none by rw [h]; decide)]
    by_cases hh : k' = k ∧ b' / 2 = c
    · obtain ⟨rfl, hb'⟩ := hh
      rw [hb', splitAt_self]
      simpa using (hval b' hb').1
    by_cases hg : k' + 1 = k ∧ b' / 2 / 2 = c
    · -- a quarter of the block: it was not there and still is not
      obtain ⟨rfl, hb'⟩ := hg
      rw [splitAt_of_ne hA hh, ht.child k' b' hk', hhalf (b' / 2) hb']
      simpa using (hval (b' / 2) hb').2
    · rw [splitAt_of_ne hA hh, splitAt_of_ne (by omega) (by omega)]
      exact ht.child k' b' hk'
  · by_cases hh : 0 = k ∧ b' / 2 = c
    · obtain ⟨rfl, hb'⟩ := hh
      exact (hval b' hb').2
    · rw [splitAt_of_ne (by omega) hh]
      exact ht.leaf b'
  · rw [splitAt_of_ne (by omega) (by omega)]
    exact ht.above k' b' hk'

theorem Coalesced.halve (hc : Coalesced M t) : Coalesced M (splitAt t (k + 1) c) := by
  intro k' b' hk' hf
  by_cases hh : k' = k ∧ b' / 2 = c
  · -- the new free upper half: its sibling is the used lower half
    obtain ⟨rfl, hb'⟩ := hh
    rw [splitAt_half hb'] at hf
    have hb2 : b' = 2 * c + 1 := by
      by_cases hlo : b' = 2 * c
      · rw [if_pos hlo] at hf
        cases hf
      · omega
    rw [splitAt_half (by rw [sibling_div_two]; exact hb'), hb2, sibling_two_mul_add_one, if_pos rfl]
    decide
  by_cases hA : k' = k + 1 ∧ b' = c
  · obtain ⟨rfl, rfl⟩ := hA
    rw [splitAt_self] at hf
    cases hf
  rw [splitAt_of_ne hA hh] at hf
  by_cases hsA : k' = k + 1 ∧ sibling b' = c
  · obtain ⟨rfl, hs⟩ := hsA
    rw [hs, splitAt_self]
    decide
  rw [splitAt_of_ne hsA (by rw [sibling_div_two]; exact hh)]
  exact hc k' b' hk' hf

/-- `mergeAt` changes the two halves and their parent only. -/
theorem mergeAt_of_ne {k' b' : Nat} (hh : ¬(k' = k ∧ b' / 2 = c / 2)) (hP : ¬(k' = k + 1 ∧ b' = c / 2)) :
    mergeAt t k c k' b' = t k' b' := by
  have hc : ¬(k' = k ∧ b' = c) := fun h => hh ⟨h.1, by rw [h.2]⟩
  have hs : ¬(k' = k ∧ b' = sibling c) := fun h => hh ⟨h.1, by rw [h.2, sibling_div_two]⟩
  unfold mergeAt
  rw [set_of_ne hP, set_of_ne hs, set_of_ne hc]

theorem mergeAt_half {b' : Nat} (hb : b' / 2 = c / 2) : mergeAt t k c k b' = .none := by
  unfold mergeAt
  rw [set_of_ne (by omega)]
  by_cases hbs : b' = sibling c
  · rw [hbs, set_same]
  · rw [set_of_ne (by omega), show b' = c by have := sibling_ne c; unfold sibling at *; split_ifs at * <;> omega,
      set_same]

theorem mergeAt_parent : mergeAt t k c (k + 1) (c / 2) = .used := by
  unfold mergeAt
  rw [set_same]

/-- **Merging a used block with its free sibling** keeps the tree: the halves
leave it, and their parent, split before, is a piece now. -/
theorem Tree.merge (ht : Tree M t) (hk : k < M) (h : t k c = .used) (hs : t k (sibling c) = .free) :
    Tree M (mergeAt t k c) := by
  have hP : t (k + 1) (c / 2) = .split := ht.parent hk (by rw [h]; decide)
  -- the two halves, used and free, are neither absent nor split
  have hhalf : ∀ b', b' / 2 = c / 2 → t k b' ≠ .none ∧ t k b' ≠ .split := fun b' hb' => by
    by_cases hbc : b' = c
    · rw [hbc, h]; decide
    · have : b' = sibling c := by
        have := sibling_ne c; have := sibling_div_two c; unfold sibling at *; split_ifs at * <;> omega
      rw [this, hs]; decide
  refine ⟨fun b' => ?_, fun k' b' hk' => ?_, fun b' => ?_, fun k' b' hk' => ?_⟩
  · by_cases hA : M = k + 1 ∧ b' = c / 2
    · obtain ⟨hM, rfl⟩ := hA
      rw [hM, mergeAt_parent, ← (ht.top (c / 2)), hM, hP]
      simp
    · rw [mergeAt_of_ne (by omega) hA]
      exact ht.top b'
  · by_cases hh : k' = k ∧ b' / 2 = c / 2
    · obtain ⟨rfl, hb'⟩ := hh
      rw [mergeAt_half hb', hb', mergeAt_parent]
      simp
    by_cases hA : k' = k + 1 ∧ b' = c / 2
    · obtain ⟨rfl, rfl⟩ := hA
      rw [mergeAt_parent, mergeAt_of_ne (by omega) (by omega)]
      simp [ht.parent hk' (show t (k + 1) (c / 2) ≠ .none by rw [hP]; decide)]
    by_cases hg : k' + 1 = k ∧ b' / 2 / 2 = c / 2
    · -- below a half: it was not there and still is not
      obtain ⟨rfl, hb'⟩ := hg
      have hnone : t k' b' = .none :=
        Decidable.of_not_not fun hne => (hhalf (b' / 2) hb').2 ((ht.child k' b' hk').mp hne)
      rw [mergeAt_of_ne hh hA, mergeAt_half hb', hnone]
      simp
    · rw [mergeAt_of_ne hh hA, mergeAt_of_ne (by omega) (by omega)]
      exact ht.child k' b' hk'
  · by_cases hh : 0 = k ∧ b' / 2 = c / 2
    · obtain ⟨rfl, hb'⟩ := hh
      rw [mergeAt_half hb']
      decide
    · rw [mergeAt_of_ne hh (by omega)]
      exact ht.leaf b'
  · rw [mergeAt_of_ne (by omega) (by omega)]
    exact ht.above k' b' hk'

theorem Coalesced.merge (hc : Coalesced M t) : Coalesced M (mergeAt t k c) := by
  intro k' b' hk' hf
  by_cases hh : k' = k ∧ b' / 2 = c / 2
  · obtain ⟨rfl, hb'⟩ := hh
    rw [mergeAt_half hb'] at hf
    cases hf
  by_cases hA : k' = k + 1 ∧ b' = c / 2
  · obtain ⟨rfl, rfl⟩ := hA
    rw [mergeAt_parent] at hf
    cases hf
  rw [mergeAt_of_ne hh hA] at hf
  by_cases hsA : k' = k + 1 ∧ sibling b' = c / 2
  · obtain ⟨rfl, hs⟩ := hsA
    rw [hs, mergeAt_parent]
    decide
  rw [mergeAt_of_ne (by rw [sibling_div_two]; exact hh) hsA]
  exact hc k' b' hk' hf

/-! ### What each step does to the used and the free blocks -/

/-- Splitting a used block moves the used block to its lower half. -/
theorem splitAt_eq_used (ht : Tree M t) (h : t (k + 1) c = .used) {k' b' : Nat} :
    splitAt t (k + 1) c k' b' = .used ↔ (t k' b' = .used ∧ ¬(k' = k + 1 ∧ b' = c)) ∨ (k' = k ∧ b' = 2 * c) := by
  by_cases hA : k' = k + 1 ∧ b' = c
  · obtain ⟨rfl, rfl⟩ := hA
    rw [splitAt_self]
    simp
  by_cases hh : k' = k ∧ b' / 2 = c
  · obtain ⟨rfl, hb'⟩ := hh
    have hnone : t k' b' = .none :=
      ht.none_below (by rw [h]; trivial) (Nat.lt_add_one k') (by rwa [Nat.add_sub_cancel_left, Nat.pow_one])
    rw [splitAt_half hb', hnone]
    by_cases hlo : b' = 2 * c <;> simp [hlo]
  · rw [splitAt_of_ne hA hh]
    constructor
    · exact fun hu => Or.inl ⟨hu, hA⟩
    · rintro (⟨hu, -⟩ | ⟨rfl, rfl⟩)
      · exact hu
      · exact absurd ⟨rfl, by omega⟩ hh

/-- Splitting a used block frees its upper half. -/
theorem splitAt_eq_free (ht : Tree M t) (h : t (k + 1) c = .used) {k' b' : Nat} :
    splitAt t (k + 1) c k' b' = .free ↔ t k' b' = .free ∨ (k' = k ∧ b' = 2 * c + 1) := by
  by_cases hA : k' = k + 1 ∧ b' = c
  · obtain ⟨rfl, rfl⟩ := hA
    rw [splitAt_self, h]
    simp
  by_cases hh : k' = k ∧ b' / 2 = c
  · obtain ⟨rfl, hb'⟩ := hh
    have hnone : t k' b' = .none :=
      ht.none_below (by rw [h]; trivial) (Nat.lt_add_one k') (by rwa [Nat.add_sub_cancel_left, Nat.pow_one])
    rw [splitAt_half hb', hnone]
    by_cases hlo : b' = 2 * c
    · simp [hlo]
    · simp [show b' = 2 * c + 1 by omega]
  · rw [splitAt_of_ne hA hh]
    constructor
    · exact Or.inl
    · rintro (hf | ⟨rfl, rfl⟩)
      · exact hf
      · exact absurd ⟨rfl, by omega⟩ hh

/-- Merging a used block with its sibling moves the used block to the parent. -/
theorem mergeAt_eq_used (h : t k c = .used) (hs : t k (sibling c) = .free) {k' b' : Nat} :
    mergeAt t k c k' b' = .used ↔ (t k' b' = .used ∧ ¬(k' = k ∧ b' = c)) ∨ (k' = k + 1 ∧ b' = c / 2) := by
  by_cases hh : k' = k ∧ b' / 2 = c / 2
  · obtain ⟨rfl, hb'⟩ := hh
    rw [mergeAt_half hb']
    rcases eq_or_sibling_of_div_two hb' with rfl | rfl
    · simp
    · simp [hs]
  by_cases hP : k' = k + 1 ∧ b' = c / 2
  · obtain ⟨rfl, rfl⟩ := hP
    rw [mergeAt_parent]
    simp
  · rw [mergeAt_of_ne hh hP]
    constructor
    · exact fun hu => Or.inl ⟨hu, fun hkc => hh ⟨hkc.1, by rw [hkc.2]⟩⟩
    · rintro (⟨hu, -⟩ | hP')
      · exact hu
      · exact absurd hP' hP

/-- Merging a used block with its sibling takes the sibling off the free blocks. -/
theorem mergeAt_eq_free (h : t k c = .used) (hs : t k (sibling c) = .free) (hP : t (k + 1) (c / 2) = .split)
    {k' b' : Nat} : mergeAt t k c k' b' = .free ↔ t k' b' = .free ∧ ¬(k' = k ∧ b' = sibling c) := by
  by_cases hh : k' = k ∧ b' / 2 = c / 2
  · obtain ⟨rfl, hb'⟩ := hh
    rw [mergeAt_half hb']
    rcases eq_or_sibling_of_div_two hb' with rfl | rfl
    · simp [h]
    · simp
  by_cases hA : k' = k + 1 ∧ b' = c / 2
  · obtain ⟨rfl, rfl⟩ := hA
    rw [mergeAt_parent, hP]
    simp
  · rw [mergeAt_of_ne hh hA]
    exact ⟨fun hf => ⟨hf, fun hks => hh ⟨hks.1, by rw [hks.2, sibling_div_two]⟩⟩, fun hf => hf.1⟩

end Steps

end BuddyTree
