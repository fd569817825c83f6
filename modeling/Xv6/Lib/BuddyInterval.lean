import Mathlib
import Xv6.Lib.BuddyTree

/-!
# The buddy tree of an interval

An allocator that hands out the leaves `[P, E)` of `2^M` leaves, and keeps the
others, starts from the tree whose free blocks are the maximal blocks inside
`[P, E)` and whose used blocks are the leaves outside it.

* At size `k` the blocks inside `[P, E)` are those from `lo P k = ⌈P / 2^k⌉` up
  to `hi E k = ⌊E / 2^k⌋` (`le_mul_iff_lo_le`, `mul_le_iff_lt_hi`), and the
  bounds of the next size are their halves (`lo_succ`, `hi_succ`).
* `intervalTag M P E` is that tree: `intervalTag_tree`,
  `intervalTag_coalesced`.
* A maximal block is inside while its buddy is not, so at each size at most two
  blocks are maximal (`maxList`, `intervalTag_eq_free_iff`), and their sizes add
  up to the `E - P` leaves (`sum_maxList`).
-/

namespace BuddyTree

/-! ## The bounds at each size -/

/-- `⌈n / m⌉`, as a test of the remainder. -/
theorem ceil_div_eq (n m : Nat) (hm : 0 < m) : (if n % m ≠ 0 then n / m + 1 else n / m) = (n + m - 1) / m := by
  have hdm := Nat.div_add_mod n m
  have hr := Nat.mod_lt n hm
  split_ifs with h
  · refine (Nat.div_eq_of_lt_le ?_ ?_).symm
    · rw [Nat.add_mul, Nat.one_mul, Nat.mul_comm]
      omega
    · rw [Nat.add_mul, Nat.add_mul, Nat.one_mul, Nat.mul_comm]
      omega
  · refine (Nat.div_eq_of_lt_le ?_ ?_).symm
    · rw [Nat.mul_comm]
      omega
    · rw [Nat.add_mul, Nat.one_mul, Nat.mul_comm]
      omega

/-- The first block of size `k` that starts at or after leaf `P`. -/
def lo (P k : Nat) : Nat := (P + 2 ^ k - 1) / 2 ^ k

/-- The first block of size `k` that ends after leaf `E`. -/
def hi (E k : Nat) : Nat := E / 2 ^ k

@[simp] theorem lo_zero (P : Nat) : lo P 0 = P := by simp [lo]

@[simp] theorem hi_zero (E : Nat) : hi E 0 = E := by simp [hi]

theorem lo_succ (P k : Nat) : lo P (k + 1) = (lo P k + 1) / 2 := by
  have hk := Nat.two_pow_pos k
  rw [lo, lo, ← Nat.add_div_right _ hk, Nat.div_div_eq_div_mul, ← Nat.pow_succ]
  congr 1
  rw [Nat.pow_succ]
  omega

theorem hi_succ (E k : Nat) : hi E (k + 1) = hi E k / 2 := by
  rw [hi, hi, Nat.div_div_eq_div_mul, Nat.pow_succ]

theorem le_mul_iff_lo_le {P k b : Nat} : P ≤ b * 2 ^ k ↔ lo P k ≤ b := by
  have hk := Nat.two_pow_pos k
  rw [lo, Nat.div_le_iff_le_mul_add_pred hk, Nat.mul_comm b]
  omega

theorem mul_le_iff_lt_hi {E k b : Nat} : (b + 1) * 2 ^ k ≤ E ↔ b < hi E k := by
  rw [hi, Nat.lt_iff_add_one_le, Nat.le_div_iff_mul_le (Nat.two_pow_pos k)]

/-- At size `k ≤ M`, the blocks that start below `2^M` are the `2^(M-k)` ones. -/
theorem lo_two_pow {M k : Nat} (hk : k ≤ M) : lo (2 ^ M) k = 2 ^ (M - k) := by
  have hpos := Nat.two_pow_pos k
  have hM := Nat.two_pow_pos M
  rw [lo]
  refine Nat.div_eq_of_lt_le ?_ ?_
  · rw [← Nat.pow_add, Nat.sub_add_cancel hk]
    omega
  · rw [Nat.add_mul, Nat.one_mul, ← Nat.pow_add, Nat.sub_add_cancel hk]
    omega

theorem lo_mono {P Q : Nat} (h : P ≤ Q) (k : Nat) : lo P k ≤ lo Q k :=
  Nat.div_le_div_right (by omega)

theorem hi_le_lo (E k : Nat) : hi E k ≤ lo E k :=
  Nat.div_le_div_right (Nat.le_sub_of_add_le (Nat.add_le_add_left (Nat.two_pow_pos k) E))

/-- Blocks that end by leaf `2^M` are among the `2^(M-k)` blocks of size `k`. -/
theorem hi_le_two_pow {M E k : Nat} (hE : E ≤ 2 ^ M) (hk : k ≤ M) : hi E k ≤ 2 ^ (M - k) :=
  calc hi E k ≤ lo E k := hi_le_lo E k
    _ ≤ lo (2 ^ M) k := lo_mono hE k
    _ = 2 ^ (M - k) := lo_two_pow hk

/-! ## The tree -/

/-- Block `b` of size `k` lies inside `[P, E)`. -/
def Inside (P E k b : Nat) : Prop := lo P k ≤ b ∧ b < hi E k

instance (P E k b : Nat) : Decidable (Inside P E k b) := inferInstanceAs (Decidable (_ ∧ _))

/-- The tree of height `M` whose free blocks tile `[P, E)`: a block inside is
free when its parent is not inside, a block outside is split, down to the
leaves outside, which are used. -/
def intervalTag (M P E k b : Nat) : Tag :=
  if k ≤ M ∧ b < 2 ^ (M - k) then
    if Inside P E k b then (if k < M ∧ Inside P E (k + 1) (b / 2) then .none else .free)
    else if k = 0 then .used else .split
  else .none

section Interval

variable {M P E k b : Nat}

/-- A block lies inside when its parent does. -/
theorem Inside.of_parent (h : Inside P E (k + 1) (b / 2)) : Inside P E k b := by
  unfold Inside at *
  rw [lo_succ, hi_succ] at h
  omega

/-- A block lies inside when its two halves do. -/
theorem Inside.parent (h : Inside P E k b) (hs : Inside P E k (sibling b)) : Inside P E (k + 1) (b / 2) := by
  unfold Inside at *
  unfold sibling at hs
  rw [lo_succ, hi_succ]
  split_ifs at hs <;> omega

/-- Below the top, a block exists when its parent does. -/
theorem range_iff_parent (hk : k < M) : (k ≤ M ∧ b < 2 ^ (M - k)) ↔ (k + 1 ≤ M ∧ b / 2 < 2 ^ (M - (k + 1))) := by
  rw [show M - k = M - (k + 1) + 1 by omega, Nat.pow_succ]
  omega

theorem intervalTag_ne_none :
    intervalTag M P E k b ≠ .none ↔ (k ≤ M ∧ b < 2 ^ (M - k)) ∧ ¬(k < M ∧ Inside P E (k + 1) (b / 2)) := by
  unfold intervalTag
  by_cases hr : k ≤ M ∧ b < 2 ^ (M - k)
  · rw [if_pos hr]
    by_cases hin : Inside P E k b
    · rw [if_pos hin]
      by_cases hup : k < M ∧ Inside P E (k + 1) (b / 2) <;> simp [hr, hup]
    · -- outside, the parent is outside too
      have hup : ¬(k < M ∧ Inside P E (k + 1) (b / 2)) := fun h => hin h.2.of_parent
      rw [if_neg hin]
      split_ifs <;> simp [hr, hup]
  · simp [hr]

theorem intervalTag_eq_split :
    intervalTag M P E k b = .split ↔ (k ≤ M ∧ b < 2 ^ (M - k)) ∧ ¬Inside P E k b ∧ 0 < k := by
  unfold intervalTag
  by_cases hr : k ≤ M ∧ b < 2 ^ (M - k)
  · rw [if_pos hr]
    by_cases hin : Inside P E k b
    · rw [if_pos hin]
      split_ifs <;> simp [hin]
    · rw [if_neg hin]
      by_cases hk : k = 0 <;> simp [hr, hin, hk]
      all_goals omega
  · simp [hr]

theorem intervalTag_eq_used :
    intervalTag M P E k b = .used ↔ k = 0 ∧ b < 2 ^ M ∧ ¬Inside P E 0 b := by
  unfold intervalTag
  by_cases hr : k ≤ M ∧ b < 2 ^ (M - k)
  · rw [if_pos hr]
    by_cases hin : Inside P E k b
    · rw [if_pos hin]
      have : ¬(k = 0 ∧ b < 2 ^ M ∧ ¬Inside P E 0 b) := fun ⟨hk, _, hn⟩ => hn (hk ▸ hin)
      split_ifs <;> simp [this]
    · rw [if_neg hin]
      by_cases hk : k = 0
      · subst hk
        have hb : b < 2 ^ M := by simpa using hr.2
        simp [hin, hb]
      · simp [hk]
  · rw [if_neg hr]
    refine ⟨fun h => (nomatch h), fun ⟨hk, hb, _⟩ => absurd ⟨by omega, by rw [hk]; exact hb⟩ hr⟩

theorem intervalTag_eq_free :
    intervalTag M P E k b = .free ↔
      (k ≤ M ∧ b < 2 ^ (M - k)) ∧ Inside P E k b ∧ ¬(k < M ∧ Inside P E (k + 1) (b / 2)) := by
  unfold intervalTag
  by_cases hr : k ≤ M ∧ b < 2 ^ (M - k)
  · rw [if_pos hr]
    by_cases hin : Inside P E k b
    · rw [if_pos hin]
      by_cases hup : k < M ∧ Inside P E (k + 1) (b / 2) <;> simp [hr, hin, hup]
    · rw [if_neg hin]
      split_ifs <;> simp [hin]
  · simp [hr]

/-- **The blocks of an interval form a tree.** -/
theorem intervalTag_tree : Tree M (intervalTag M P E) where
  top b := by
    rw [intervalTag_ne_none]
    simp only [Nat.sub_self, Nat.pow_zero, Nat.lt_irrefl, false_and, not_false_eq_true, and_true]
    omega
  child k b hk := by
    rw [intervalTag_ne_none, intervalTag_eq_split, range_iff_parent hk]
    simp only [hk, true_and]
    exact ⟨fun ⟨hr, hn⟩ => ⟨hr, hn, Nat.succ_pos k⟩, fun ⟨hr, hn, _⟩ => ⟨hr, hn⟩⟩
  leaf b := by
    rw [ne_eq, intervalTag_eq_split]
    omega
  above k b hk := by
    unfold intervalTag
    rw [if_neg (by omega)]

/-- **No two maximal blocks are buddies.** -/
theorem intervalTag_coalesced : Coalesced M (intervalTag M P E) := by
  intro k b hk hf hs
  rw [intervalTag_eq_free] at hf hs
  exact hf.2.2 ⟨hk, hf.2.1.parent hs.2.1⟩

/-! ## The maximal blocks -/

/-- The maximal blocks of size `k` inside `[L, R)`: `L` when its buddy lies
below `L`, and `R - 1` when its buddy lies at or above `R`. -/
def maxList (L R : Nat) : List Nat :=
  (if L < R ∧ L % 2 = 1 then [L] else []) ++ (if L < R ∧ R % 2 = 1 then [R - 1] else [])

theorem mem_maxList {L R x : Nat} :
    x ∈ maxList L R ↔ (L < R ∧ L % 2 = 1 ∧ x = L) ∨ (L < R ∧ R % 2 = 1 ∧ x = R - 1) := by
  unfold maxList
  split_ifs <;> simp_all

theorem maxList_nodup (L R : Nat) : (maxList L R).Nodup := by
  unfold maxList
  split_ifs <;> simp
  all_goals omega

/-- The maximal blocks of a size and the blocks inside the next size fill the
blocks inside. -/
theorem length_maxList_add (L R : Nat) : (maxList L R).length + 2 * (R / 2 - (L + 1) / 2) = R - L := by
  unfold maxList
  split_ifs <;> simp
  all_goals omega

/-- **The free blocks below the top are those of `maxList`.** -/
theorem intervalTag_eq_free_iff (hk : k < M) :
    intervalTag M P E k b = .free ↔ b < 2 ^ (M - k) ∧ b ∈ maxList (lo P k) (hi E k) := by
  rw [intervalTag_eq_free, mem_maxList]
  unfold Inside
  rw [lo_succ, hi_succ]
  constructor
  · rintro ⟨⟨-, hr⟩, hin, hup⟩
    exact ⟨hr, by omega⟩
  · rintro ⟨hr, hm⟩
    exact ⟨⟨Nat.le_of_lt hk, hr⟩, by omega, by omega⟩

/-- The top block is not free when leaf `0` is outside. -/
theorem intervalTag_top_ne_free (hP : 0 < P) : intervalTag M P E M b ≠ .free := by
  rw [ne_eq, intervalTag_eq_free]
  rintro ⟨⟨-, hb⟩, hin, -⟩
  rw [Nat.sub_self, Nat.pow_zero] at hb
  have := le_mul_iff_lo_le.mpr hin.1
  rw [show b = 0 by omega, Nat.zero_mul] at this
  omega

/-- **The maximal blocks add up to the interval**: size after size, the
blocks inside are the maximal ones and the halves of those inside the next
size. -/
theorem sum_maxList (hP : 0 < P) (hE : E ≤ 2 ^ M) :
    ((List.range M).map fun k => (maxList (lo P k) (hi E k)).length * 2 ^ k).sum = E - P := by
  have step : ∀ j, ((List.range j).map fun k => (maxList (lo P k) (hi E k)).length * 2 ^ k).sum +
      2 ^ j * (hi E j - lo P j) = E - P := by
    intro j
    induction j with
    | zero => simp
    | succ j ih =>
      rw [List.range_succ, List.map_append, List.sum_append, List.map_singleton, List.sum_singleton,
        lo_succ, hi_succ, Nat.pow_succ, Nat.mul_assoc, Nat.add_assoc, Nat.mul_comm _ (2 ^ j), ← Nat.mul_add,
        length_maxList_add]
      exact ih
  have htop : hi E M - lo P M = 0 := by
    have h₁ : hi E M ≤ 1 := by
      rw [hi]
      exact Nat.div_le_of_le_mul (by omega)
    have h₂ : ¬lo P M ≤ 0 := fun h => by
      have := le_mul_iff_lo_le.mpr h
      rw [Nat.zero_mul] at this
      omega
    omega
  have := step M
  rwa [htop, Nat.mul_zero, Nat.add_zero] at this

/-- The maximal blocks of `[P, E)` below the top, as pairs of size and index. -/
def maxBlocks (M P E : Nat) : List (Nat × Nat) :=
  (List.range M).flatMap fun k => (maxList (lo P k) (hi E k)).map fun b => (k, b)

theorem mem_maxBlocks : (k, b) ∈ maxBlocks M P E ↔ k < M ∧ b ∈ maxList (lo P k) (hi E k) := by
  simp only [maxBlocks, List.mem_flatMap, List.mem_range, List.mem_map, Prod.mk.injEq]
  constructor
  · rintro ⟨j, hj, c, hc, rfl, rfl⟩
    exact ⟨hj, hc⟩
  · rintro ⟨hk, hb⟩
    exact ⟨k, hk, b, hb, rfl, rfl⟩

theorem maxBlocks_nodup (M P E : Nat) : (maxBlocks M P E).Nodup := by
  rw [maxBlocks, List.nodup_flatMap]
  refine ⟨fun k _ => (maxList_nodup _ _).map fun b b' h => (Prod.mk.inj h).2, ?_⟩
  refine List.nodup_range.imp fun {j k} hjk x hx hx' => hjk ?_
  obtain ⟨b, -, rfl⟩ := List.mem_map.mp hx
  obtain ⟨b', -, h⟩ := List.mem_map.mp hx'
  exact (Prod.mk.inj h).1.symm

/-- **The free blocks are the maximal blocks.** -/
theorem intervalTag_eq_free_iff_mem (hP : 0 < P) (hE : E ≤ 2 ^ M) :
    intervalTag M P E k b = .free ↔ (k, b) ∈ maxBlocks M P E := by
  rw [mem_maxBlocks]
  by_cases hk : k < M
  · rw [intervalTag_eq_free_iff hk]
    refine ⟨fun h => ⟨hk, h.2⟩, fun h => ⟨?_, h.2⟩⟩
    have hR := hi_le_two_pow hE (Nat.le_of_lt hk)
    rcases mem_maxList.mp h.2 with h' | h' <;> omega
  · simp only [hk, false_and, iff_false]
    rcases Nat.eq_or_lt_of_le (Nat.le_of_not_lt hk) with rfl | hk'
    · exact intervalTag_top_ne_free hP
    · rw [intervalTag_eq_free]
      rintro ⟨⟨h, -⟩, -⟩
      omega

/-- A maximal block starts at or after leaf `P`. -/
theorem le_leaf_of_mem_maxBlocks (h : (k, b) ∈ maxBlocks M P E) : P ≤ b * 2 ^ k := by
  rw [le_mul_iff_lo_le]
  rcases mem_maxList.mp (mem_maxBlocks.mp h).2 with h' | h' <;> omega

/-- Two maximal blocks that start at the same leaf are the same block. -/
theorem maxBlocks_leaf_inj (hP : 0 < P) (hE : E ≤ 2 ^ M) {x y : Nat × Nat} (hx : x ∈ maxBlocks M P E)
    (hy : y ∈ maxBlocks M P E) (h : x.2 * 2 ^ x.1 = y.2 * 2 ^ y.1) : x = y := by
  have hfree : ∀ z ∈ maxBlocks M P E, (intervalTag M P E z.1 z.2).IsAtom := fun z hz => by
    rw [(intervalTag_eq_free_iff_mem hP hE).mpr hz]
    trivial
  obtain ⟨h₁, h₂⟩ := intervalTag_tree.eq_of_first_leaf (hfree x hx) (hfree y hy) h
  exact Prod.ext h₁ h₂

end Interval

/-- Termwise bounds give bounded sums. -/
theorem sum_range_le {f g : Nat → Nat} :
    ∀ n, (∀ k < n, f k ≤ g k) → ((List.range n).map f).sum ≤ ((List.range n).map g).sum
  | 0, _ => by simp
  | n + 1, hle => by
    have h₁ := sum_range_le n fun k hk => hle k (by omega)
    have h₂ := hle n (Nat.lt_succ_self n)
    simp only [List.range_succ, List.map_append, List.sum_append, List.map_cons, List.map_nil, List.sum_cons,
      List.sum_nil]
    omega

/-- Termwise bounds and equal sums give equal terms. -/
theorem eq_of_sum_range_eq {f g : Nat → Nat} :
    ∀ n, (∀ k < n, f k ≤ g k) → ((List.range n).map f).sum = ((List.range n).map g).sum → ∀ k < n, f k = g k
  | 0, _, _, k, hk => absurd hk (Nat.not_lt_zero k)
  | n + 1, hle, hsum, k, hk => by
    have h₁ := sum_range_le n fun k hk => hle k (by omega)
    have h₂ := hle n (Nat.lt_succ_self n)
    simp only [List.range_succ, List.map_append, List.sum_append, List.map_cons, List.map_nil, List.sum_cons,
      List.sum_nil] at hsum
    rcases Nat.lt_or_ge k n with hkn | hkn
    · exact eq_of_sum_range_eq n (fun j hj => hle j (by omega)) (by omega) k hkn
    · obtain rfl : k = n := by omega
      omega

end BuddyTree
