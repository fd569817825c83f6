import Mathlib
import Xv6.Buddy.Init
import Xv6.Lib.BuddyInterval

/-!
# `bd_init` builds the buddy tree of `[p_meta, bd_end)`

With `P` the leaf where the metadata ends and `E` the leaf where the usable
heap ends, `bd_init` should leave the allocator representing
`intervalTag MAXSIZE P E`: the metadata and the part past `end` marked, and
the maximal blocks of `[P, E)` on the free lists, each once.

* `initMarked_isAlloc`: after the two `bd_mark`s the alloc bit of a block is
  set exactly when the block does not lie inside `[P, E)`, and so is its split
  bit.
* `maxList_sublist_levelBlocks`: at every size, `bd_initfree` pushes at least
  the maximal blocks, and `levelBlocks_eq` shows it pushes nothing else once the
  final check of `bd_init` passes, since the free bytes it counts then add up
  to `bd_end - p_meta`, the size of the maximal blocks.
* `bd_init_inv`: when `bd_init` returns, the allocator keeps `Inv` with no live
  allocation.
-/

namespace Xv6.Buddy

open Intrusive BuddyTree

/-! ## The layout -/

theorem ROUNDUP_spec (n : Nat) :
    ROUNDUP n LEAF_SIZE % LEAF_SIZE = 0 ∧ n ≤ ROUNDUP n LEAF_SIZE ∧ ROUNDUP n LEAF_SIZE < n + LEAF_SIZE := by
  unfold ROUNDUP LEAF_SIZE
  split_ifs with h
  · omega
  · have := Nat.div_add_mod (n - 1) 16
    have := Nat.mod_lt (n - 1) (show 0 < 16 by decide)
    omega

/-- The leaf where the metadata ends. -/
def initP (base end_ : Nat) : Nat := (initMeta base end_ - initBase base) / LEAF_SIZE

/-- The leaf where the usable heap ends. -/
def initE (base end_ : Nat) : Nat := (initEnd base end_ - initBase base) / LEAF_SIZE

/-- The allocator after the two `bd_mark`s of `bd_init`. -/
def initMarked (base end_ : Nat) : Bd :=
  let s₀ := initLayout base end_
  let s₁ := s₀.markAll (s₀.markedBlocks s₀.bd_base (initMeta base end_))
  s₁.markAll (s₁.markedBlocks (initEnd base end_) (s₁.bd_base + BLK_SIZE s₁.MAXSIZE))

section Layout

variable (base end_ : Nat)

theorem initLayout_nsizes : (initLayout base end_).nsizes = initSizes base end_ := rfl

theorem initLayout_bd_base : (initLayout base end_).bd_base = initBase base := rfl

theorem initSizes_pos : 0 < initSizes base end_ := by
  simp only [initSizes]
  split_ifs <;> omega

theorem initBase_mod : initBase base % LEAF_SIZE = 0 := (ROUNDUP_spec base).1

/-- The metadata holds `bd_sizes` and the bit arrays, and ends on a leaf. -/
theorem initMeta_eq : initMeta base end_ = initBase base + LEAF_SIZE * initP base end_ ∧
    2 * initSizes base end_ ≤ initP base end_ := by
  have hspec := ROUNDUP_spec (splitArr (initSizes base end_) (initBase base) (initSizes base end_))
  have hbase := initBase_mod base
  have hn := initSizes_pos base end_
  -- the split arrays start after the alloc arrays, which start after `bd_sizes`
  have harr := @allocArr_add_le_splitArr (initSizes base end_) (initBase base) 0 (initSizes base end_) hn hn
  rw [allocArr, SZ_INFO] at harr
  unfold initP initMeta
  unfold LEAF_SIZE at *
  omega

theorem initUnavailable_spec : initUnavailable base end_ % LEAF_SIZE = 0 ∧
    initUnavailable base end_ ≤ BLK_SIZE (initSizes base end_ - 1) := by
  have hspec := ROUNDUP_spec (BLK_SIZE (initSizes base end_ - 1) - (end_ - initBase base))
  have hheap : BLK_SIZE (initSizes base end_ - 1) % LEAF_SIZE = 0 := Nat.mul_mod_left _ _
  unfold initUnavailable
  unfold LEAF_SIZE at *
  omega

/-- The usable heap ends on a leaf, inside the heap. -/
theorem initEnd_eq : initEnd base end_ = initBase base + LEAF_SIZE * initE base end_ ∧
    initE base end_ ≤ 2 ^ (initSizes base end_ - 1) := by
  have hU := initUnavailable_spec base end_
  have hbase := initBase_mod base
  unfold initE initEnd
  unfold BLK_SIZE LEAF_SIZE at *
  omega

/-- `log2(n)` is at most the logarithm of `n`: each turn halves `n`. -/
theorem log2_loop_le : ∀ (fuel k n : Nat), 2 ^ log2.loop fuel k n ≤ 2 ^ k * max n 1
  | 0, k, n => Nat.le_mul_of_pos_right _ (by omega)
  | fuel + 1, k, n => by
    unfold log2.loop
    split_ifs with hn
    · have ih := log2_loop_le fuel (k + 1) (n >>> 1)
      have hhalf : 2 * max (n >>> 1) 1 ≤ max n 1 := by
        rw [Nat.shiftRight_one]
        omega
      calc 2 ^ log2.loop fuel (k + 1) (n >>> 1) ≤ 2 ^ (k + 1) * max (n >>> 1) 1 := ih
        _ = 2 ^ k * (2 * max (n >>> 1) 1) := by rw [Nat.pow_succ, Nat.mul_assoc]
        _ ≤ 2 ^ k * max n 1 := Nat.mul_le_mul_left _ hhalf
    · exact Nat.le_mul_of_pos_right _ (by omega)

/-- A heap of less than `2^31` bytes is laid out in at most `2^31` bytes: every
offset into it, which `blk_index` and `addr` compute as an `int`, fits one. -/
theorem initHeap_le (h : end_ - base < 2 ^ 31) : BLK_SIZE (initSizes base end_ - 1) ≤ 2 ^ 31 := by
  have hbase : base ≤ initBase base := (ROUNDUP_spec base).2.1
  unfold initSizes BLK_SIZE
  set L := (end_ - initBase base) / LEAF_SIZE with hL
  have hlog : 2 ^ log2 L ≤ max L 1 := by
    simpa only [log2, Nat.pow_zero, Nat.one_mul] using log2_loop_le L 0 L
  -- fewer than `2^27` leaves, so `log2` is at most `26`
  have hL27 : max L 1 < 2 ^ 27 := by
    simp only [hL, LEAF_SIZE]
    omega
  have hk : log2 L < 27 :=
    (Nat.pow_lt_pow_iff_right (show 1 < 2 by decide)).mp (lt_of_le_of_lt hlog hL27)
  have hpow : 2 ^ (log2 L + 1) * LEAF_SIZE ≤ 2 ^ 31 :=
    calc 2 ^ (log2 L + 1) * LEAF_SIZE ≤ 2 ^ 27 * LEAF_SIZE :=
          Nat.mul_le_mul_right _ (Nat.pow_le_pow_right (by decide) hk)
      _ = 2 ^ 31 := by norm_num [LEAF_SIZE]
  dsimp only
  split_ifs
  · rwa [Nat.add_sub_cancel]
  · rw [Nat.add_sub_cancel]
    exact le_trans (Nat.mul_le_mul_right _ (Nat.pow_le_pow_right (by decide) (Nat.le_succ _))) hpow

end Layout

/-! ## The bits after marking -/

namespace Bd

variable {s : Bd} {k x : Nat}

/-- A block index at a leaf address. -/
theorem blk_index_leaf (s : Bd) (k x : Nat) : s.blk_index k (s.bd_base + LEAF_SIZE * x) = hi x k := by
  rw [blk_index, Nat.add_sub_cancel_left, BLK_SIZE, hi, Nat.mul_comm LEAF_SIZE,
    Nat.mul_div_mul_right _ _ (by decide : 0 < LEAF_SIZE)]

/-- The first block at or after a leaf address. -/
theorem blk_index_next_leaf (s : Bd) (k x : Nat) : s.blk_index_next k (s.bd_base + LEAF_SIZE * x) = lo x k := by
  rw [blk_index_next, Nat.add_sub_cancel_left, BLK_SIZE, Nat.mul_comm LEAF_SIZE,
    Nat.mul_div_mul_right _ _ (by decide : 0 < LEAF_SIZE), Nat.mul_mod_mul_right, lo,
    ← ceil_div_eq x (2 ^ k) (Nat.two_pow_pos k)]
  by_cases h : x % 2 ^ k = 0
  · simp [LEAF_SIZE, h]
  · have h' : ¬x % 2 ^ k * 16 = 0 := by omega
    simp [LEAF_SIZE, h, h']

end Bd

section Marked

variable {base end_ : Nat}

theorem initMarked_nsizes : (initMarked base end_).nsizes = initSizes base end_ := by
  simp [initMarked, initLayout_nsizes]

theorem initMarked_bd_base : (initMarked base end_).bd_base = initBase base := by
  simp [initMarked, initLayout_bd_base]

theorem initMarked_links : (initMarked base end_).links = (initLayout base end_).links := by
  simp [initMarked]

/-- The blocks the first `bd_mark` marks: those below the metadata's end. -/
theorem mem_markedBlocks_meta {j c : Nat} :
    (j, c) ∈ (initLayout base end_).markedBlocks (initLayout base end_).bd_base (initMeta base end_) ↔
      j < initSizes base end_ ∧ c < lo (initP base end_) j := by
  rw [Bd.mem_markedBlocks, (initMeta_eq base end_).1, initLayout_nsizes]
  have h₀ : (initLayout base end_).blk_index j (initLayout base end_).bd_base = 0 := by simp [Bd.blk_index]
  rw [h₀, ← initLayout_bd_base base end_, Bd.blk_index_next_leaf]
  omega

/-- The blocks the second `bd_mark` marks: those from the usable heap's end on. -/
theorem mem_markedBlocks_end {s₁ : Bd} (hn : s₁.nsizes = initSizes base end_) (hb : s₁.bd_base = initBase base)
    {j c : Nat} : (j, c) ∈ s₁.markedBlocks (initEnd base end_) (s₁.bd_base + BLK_SIZE s₁.MAXSIZE) ↔
      j < initSizes base end_ ∧ hi (initE base end_) j ≤ c ∧ c < 2 ^ (initSizes base end_ - 1 - j) := by
  rw [Bd.mem_markedBlocks, (initEnd_eq base end_).1, hn, ← hb, Bd.blk_index_leaf, Bd.MAXSIZE, hn, BLK_SIZE,
    Nat.mul_comm _ LEAF_SIZE, Bd.blk_index_next_leaf]
  constructor
  · rintro ⟨hj, h₁, h₂⟩
    rw [lo_two_pow (by omega)] at h₂
    exact ⟨hj, h₁, h₂⟩
  · rintro ⟨hj, h₁, h₂⟩
    rw [lo_two_pow (by omega)]
    exact ⟨hj, h₁, h₂⟩

/-- **The marks**: an existing block is marked allocated exactly when it does
not lie inside `[P, E)`, when the metadata ends before the heap does; from
size 1 on, its split bit too. -/
theorem initMarked_isAlloc (hPE : initP base end_ ≤ 2 ^ (initSizes base end_ - 1)) {k b : Nat}
    (hkb : (initMarked base end_).InRange k b) :
    (initMarked base end_).isAlloc k b = !decide (Inside (initP base end_) (initE base end_) k b) ∧
      (0 < k → (initMarked base end_).isSplit k b = !decide (Inside (initP base end_) (initE base end_) k b)) := by
  have hn := initSizes_pos base end_
  let s₀ := initLayout base end_
  let s₁ := s₀.markAll (s₀.markedBlocks s₀.bd_base (initMeta base end_))
  have hs₁n : s₁.nsizes = initSizes base end_ := by simp [s₁, s₀, initLayout_nsizes]
  have hs₁b : s₁.bd_base = initBase base := by simp [s₁, s₀, initLayout_bd_base]
  -- every marked block exists
  have hr₁ : ∀ x ∈ s₀.markedBlocks s₀.bd_base (initMeta base end_), s₀.InRange x.1 x.2 := by
    rintro ⟨j, c⟩ hx
    obtain ⟨hj, hc⟩ := mem_markedBlocks_meta.mp hx
    have hlo := lo_mono hPE j
    rw [lo_two_pow (by omega)] at hlo
    exact ⟨hj, Nat.lt_of_lt_of_le hc hlo⟩
  have hr₂ : ∀ x ∈ s₁.markedBlocks (initEnd base end_) (s₁.bd_base + BLK_SIZE s₁.MAXSIZE), s₁.InRange x.1 x.2 := by
    rintro ⟨j, c⟩ hx
    obtain ⟨hj, -, hc⟩ := (mem_markedBlocks_end hs₁n hs₁b).mp hx
    exact ⟨by rw [hs₁n]; exact hj, by rw [hs₁n]; exact hc⟩
  obtain ⟨hk, hb⟩ := hkb
  rw [initMarked_nsizes] at hk hb
  have hb' : b < 2 ^ (initSizes base end_ - 1 - k) := hb
  have hkb₀ : s₀.InRange k b := ⟨hk, hb⟩
  have hkb₁ : s₁.InRange k b := ⟨by rw [hs₁n]; exact hk, by rw [hs₁n]; exact hb⟩
  -- both bits read the two marks over the cleared arrays
  have hinside : ((false || decide ((k, b) ∈ (initLayout base end_).markedBlocks (initLayout base end_).bd_base
      (initMeta base end_))) ||
      decide ((k, b) ∈ s₁.markedBlocks (initEnd base end_) (s₁.bd_base + BLK_SIZE s₁.MAXSIZE))) =
      !decide (Inside (initP base end_) (initE base end_) k b) := by
    rw [Bool.eq_iff_iff]
    simp only [Bool.false_or, Bool.or_eq_true, decide_eq_true_eq, Bool.not_eq_true', decide_eq_false_iff_not,
      mem_markedBlocks_meta, mem_markedBlocks_end hs₁n hs₁b]
    unfold Inside
    omega
  refine ⟨?_, fun hk0 => ?_⟩
  · show (s₁.markAll _).isAlloc k b = _
    rw [Bd.markAll_isAlloc _ _ hr₂ hkb₁, Bd.markAll_isAlloc _ _ hr₁ hkb₀]
    exact hinside
  · show (s₁.markAll _).isSplit k b = _
    rw [Bd.markAll_isSplit hk0 _ _ hr₂ hkb₁, Bd.markAll_isSplit hk0 _ _ hr₁ hkb₀]
    exact hinside

end Marked

/-! ## What `bd_initfree` pushes -/

namespace Bd

/-- The block `bd_initfree_pair(k, bi)` puts on the free list of size `k`, if any. -/
def pairBlock (s : Bd) (k bi : Nat) : List Nat :=
  if s.isAlloc k bi ≠ s.isAlloc k (buddyOf bi) then [if s.isAlloc k bi then buddyOf bi else bi] else []

/-- The blocks one turn of `bd_initfree`'s loop pushes on the list of size `k`. -/
def levelBlocks (s : Bd) (bd_left bd_right k : Nat) : List Nat :=
  s.pairBlock k (s.blk_index_next k bd_left) ++
    if s.blk_index k bd_right ≤ s.blk_index_next k bd_left then [] else s.pairBlock k (s.blk_index k bd_right)

theorem pairPush_eq (s : Bd) (k bi : Nat) : s.pairPush k bi = (s.pairBlock k bi).map (s.addr k) := by
  unfold pairPush pairBlock isAlloc
  split_ifs <;> simp_all

theorem levelPush_eq (s : Bd) (l r k : Nat) : s.levelPush l r k = (s.levelBlocks l r k).map (s.addr k) := by
  unfold levelPush levelBlocks
  split_ifs <;> simp [pairPush_eq]

section Pairs

variable {s : Bd} {P E k : Nat}

/-- Below the top size a size has an even number of blocks. -/
theorem NBLK_even (hk : k < s.MAXSIZE) : NBLK s.nsizes k % 2 = 0 := by
  rw [NBLK, show s.nsizes - 1 - k = s.nsizes - 1 - k - 1 + 1 by unfold MAXSIZE at hk; omega, Nat.pow_succ]
  exact Nat.mul_mod_left _ _

/-- Where the alloc bits of size `k` are those of `[P, E)`, the pair around the
left boundary pushes the first block inside when its buddy is outside: when it
is odd, or when the block after it is already outside. -/
theorem pairBlock_lo (hk : k < s.MAXSIZE) (hA : ∀ b < NBLK s.nsizes k, s.isAlloc k b = !decide (Inside P E k b))
    (hLR : lo P k < hi E k) (hR : hi E k ≤ NBLK s.nsizes k) :
    s.pairBlock k (lo P k) = if lo P k % 2 = 1 ∨ lo P k + 1 = hi E k then [lo P k] else [] := by
  have hN := NBLK_even hk
  have hL : s.isAlloc k (lo P k) = false := by
    rw [hA _ (by omega)]
    simp [Inside, hLR]
  unfold pairBlock buddyOf
  rw [hL]
  by_cases hp : lo P k % 2 = 0
  · rw [if_pos hp, hA _ (by omega)]
    by_cases hR' : lo P k + 1 = hi E k
    · simp [Inside, hR', hp]
    · have hin : Inside P E k (lo P k + 1) := ⟨by omega, by omega⟩
      simp [hin, hp, hR']
  · rw [if_neg hp, hA _ (by omega)]
    have hout : ¬Inside P E k (lo P k - 1) := fun h => by unfold Inside at h; omega
    simp [hout, show lo P k % 2 = 1 by omega]

/-- The pair around the right boundary pushes the last block inside when its
buddy is outside, that is when the boundary is odd; it reads only blocks that
exist when the boundary is odd or below the last block. -/
theorem pairBlock_hi (hk : k < s.MAXSIZE) (hA : ∀ b < NBLK s.nsizes k, s.isAlloc k b = !decide (Inside P E k b))
    (hLR : lo P k < hi E k) (hR : hi E k < NBLK s.nsizes k ∨ hi E k % 2 = 1) (hR' : hi E k ≤ NBLK s.nsizes k) :
    s.pairBlock k (hi E k) = if hi E k % 2 = 1 then [hi E k - 1] else [] := by
  have hN := NBLK_even hk
  have hout : ¬Inside P E k (hi E k) := fun h => by unfold Inside at h; omega
  have hR : s.isAlloc k (hi E k) = true := by
    rw [hA _ (by omega)]
    simp [hout]
  unfold pairBlock buddyOf
  rw [hR]
  by_cases hp : hi E k % 2 = 0
  · rw [if_pos hp, hA _ (by omega)]
    have hout' : ¬Inside P E k (hi E k + 1) := fun h => by unfold Inside at h; omega
    simp [hout', hp]
  · rw [if_neg hp, hA _ (by omega)]
    have hin : Inside P E k (hi E k - 1) := ⟨by omega, by omega⟩
    simp [hin, show hi E k % 2 = 1 by omega]

/-- **`bd_initfree` pushes at least the maximal blocks** of `[P, E)` at every
size below the top, when it is given the boundaries of `[P, E)`. -/
theorem maxList_sublist_levelBlocks (hk : k < s.MAXSIZE)
    (hA : ∀ b < NBLK s.nsizes k, s.isAlloc k b = !decide (Inside P E k b)) (hR : hi E k ≤ NBLK s.nsizes k)
    {l r : Nat} (hl : s.blk_index_next k l = lo P k) (hr : s.blk_index k r = hi E k) :
    (maxList (lo P k) (hi E k)).Sublist (s.levelBlocks l r k) := by
  unfold levelBlocks maxList
  rw [hl, hr]
  by_cases hLR : lo P k < hi E k
  · rw [if_neg (show ¬hi E k ≤ lo P k by omega)]
    refine List.Sublist.append ?_ ?_
    · rw [pairBlock_lo hk hA hLR hR]
      by_cases hp : lo P k % 2 = 1
      · simp [hLR, hp]
      · simp [hp]
    · by_cases hp : hi E k % 2 = 1
      · rw [pairBlock_hi hk hA hLR (Or.inr hp) hR]
        simp [hLR, hp]
      · simp [hp]
  · simp [hLR]

end Pairs

end Bd

/-! ## The final check -/

/-- **`bd_init` in closed form**: the two marks, then `bd_initfree` from the
metadata's end to the usable heap's end; the final check passes when the bytes
it counted are those of `[P, E)`. -/
theorem bd_init_eq (base end_ : Nat) : bd_init base end_ =
    if ((initMarked base end_).bd_initfree (initMeta base end_) (initEnd base end_)).1 =
        LEAF_SIZE * (initE base end_ - initP base end_) ∧ initP base end_ ≤ initE base end_ then
      some ((initMarked base end_).bd_initfree (initMeta base end_) (initEnd base end_)).2
    else none := by
  have hM := initMeta_eq base end_
  have hE := initEnd_eq base end_
  have hU := initUnavailable_spec base end_
  have hb := initBase_mod base
  have hspec := ROUNDUP_spec (splitArr (initSizes base end_) (initBase base) (initSizes base end_))
  have h₁ := (initLayout base end_).bd_mark_eq (show (initLayout base end_).bd_base % LEAF_SIZE = 0 ∧
    initMeta base end_ % LEAF_SIZE = 0 from ⟨hb, hspec.1⟩)
  unfold bd_init
  simp only [h₁, Option.bind_eq_bind, Option.bind_some]
  generalize hs₁ : (initLayout base end_).markAll ((initLayout base end_).markedBlocks
    (initLayout base end_).bd_base (initMeta base end_)) = s₁
  -- the second mark is aligned too: the usable heap and the heap end on leaves
  have h₂ := s₁.bd_mark_eq (show initEnd base end_ % LEAF_SIZE = 0 ∧
      (s₁.bd_base + BLK_SIZE (initLayout base end_).MAXSIZE) % LEAF_SIZE = 0 by
    rw [← hs₁, Bd.markAll_bd_base, initLayout_bd_base, hE.1, BLK_SIZE]
    unfold LEAF_SIZE at *
    omega)
  have hs : s₁.markAll (s₁.markedBlocks (initEnd base end_) (s₁.bd_base + BLK_SIZE (initLayout base end_).MAXSIZE)) =
      initMarked base end_ := by
    subst hs₁
    simp only [initMarked, Bd.MAXSIZE, Bd.markAll_nsizes]
  rw [h₂, Option.bind_some, hs, Bd.bd_initfree_eq]
  -- the bytes that should be free: the heap less the metadata and what lies past `end`
  have hEnd : initEnd base end_ + initUnavailable base end_ = initBase base + BLK_SIZE (initSizes base end_ - 1) := by
    unfold initEnd
    unfold BLK_SIZE at *
    omega
  simp only [initMarked_bd_base, initLayout, Bd.MAXSIZE]
  rw [hM.1] at ⊢
  rw [hE.1] at hEnd
  unfold BLK_SIZE LEAF_SIZE at *
  generalize @List.sum Nat _ _ (List.map _ _) = n
  by_cases hc : n = 16 * (initE base end_ - initP base end_) ∧ initP base end_ ≤ initE base end_
  · rw [if_pos hc, if_neg (by omega)]
  · rw [if_neg hc, if_pos (by omega)]

/-- `bd_init` sets `bd_base` and `nsizes` as the layout has them. -/
theorem bd_init_frame {base end_ : Nat} {s : Bd} (h : bd_init base end_ = some s) :
    s.bd_base = initBase base ∧ s.nsizes = initSizes base end_ := by
  rw [bd_init_eq] at h
  split_ifs at h
  obtain rfl := Option.some.inj h
  rw [Bd.bd_initfree_eq]
  have hb := @initMarked_bd_base base end_
  have hn := @initMarked_nsizes base end_
  generalize initMarked base end_ = s₀ at hb hn ⊢
  exact ⟨hb, hn⟩

/-- The bytes `bd_initfree` counts: `BLK_SIZE(k)` for each block it pushes. -/
theorem bd_initfree_fst (s : Bd) (l r : Nat) :
    (s.bd_initfree l r).1 = LEAF_SIZE * ((List.range s.MAXSIZE).map fun k => (s.levelBlocks l r k).length * 2 ^ k).sum := by
  rw [Bd.bd_initfree_eq, ← List.sum_map_mul_left (List.range s.MAXSIZE)
    (fun k => (s.levelBlocks l r k).length * 2 ^ k) LEAF_SIZE]
  dsimp only
  congr 1
  refine List.map_congr_left fun k _ => ?_
  rw [Bd.levelPush_eq, List.length_map, BLK_SIZE, Nat.mul_comm LEAF_SIZE, Nat.mul_assoc]

section Check

variable {base end_ : Nat}

/-- **Once the final check passes, `bd_initfree` pushed exactly the maximal
blocks** of `[P, E)` at every size below the top: it pushes at least those, and
the bytes it counted are those of `[P, E)`. -/
theorem levelBlocks_eq (hc : ((initMarked base end_).bd_initfree (initMeta base end_) (initEnd base end_)).1 =
      LEAF_SIZE * (initE base end_ - initP base end_) ∧ initP base end_ ≤ initE base end_)
    {k : Nat} (hk : k < initSizes base end_ - 1) :
    (initMarked base end_).levelBlocks (initMeta base end_) (initEnd base end_) k =
      maxList (lo (initP base end_) k) (hi (initE base end_) k) := by
  have hE := (initEnd_eq base end_).2
  have hM := initMeta_eq base end_
  have hn := initSizes_pos base end_
  have hMax : (initMarked base end_).MAXSIZE = initSizes base end_ - 1 := by
    rw [Bd.MAXSIZE, initMarked_nsizes]
  -- at each size the maximal blocks are among the pushed ones
  have hsub : ∀ j < initSizes base end_ - 1, (maxList (lo (initP base end_) j) (hi (initE base end_) j)).Sublist
      ((initMarked base end_).levelBlocks (initMeta base end_) (initEnd base end_) j) := by
    intro j hj
    refine Bd.maxList_sublist_levelBlocks (by rw [hMax]; exact hj) (fun b hb => ?_) ?_ ?_ ?_
    · refine (initMarked_isAlloc (by omega) ⟨?_, hb⟩).1
      rw [initMarked_nsizes]
      omega
    · rw [initMarked_nsizes]
      exact hi_le_two_pow hE (by omega)
    · rw [hM.1, ← initMarked_bd_base, Bd.blk_index_next_leaf]
    · rw [(initEnd_eq base end_).1, ← initMarked_bd_base, Bd.blk_index_leaf]
  -- and both add up to the leaves of `[P, E)`
  have hpushed : ((List.range (initSizes base end_ - 1)).map fun j =>
      ((initMarked base end_).levelBlocks (initMeta base end_) (initEnd base end_) j).length * 2 ^ j).sum =
      initE base end_ - initP base end_ := by
    have h := hc.1
    rw [bd_initfree_fst, hMax] at h
    unfold LEAF_SIZE at h
    omega
  have hmax := sum_maxList (show 0 < initP base end_ by omega) hE
  have hlen := eq_of_sum_range_eq _ (fun j hj => Nat.mul_le_mul_right _ (hsub j hj).length_le)
    (hmax.trans hpushed.symm) k hk
  exact ((hsub k hk).eq_of_length (Nat.eq_of_mul_eq_mul_right (Nat.two_pow_pos k) hlen)).symm

/-- What `bd_initfree` pushes, once the check passes: the maximal blocks, each on
the list of its size. -/
theorem initPushes_eq (hc : ((initMarked base end_).bd_initfree (initMeta base end_) (initEnd base end_)).1 =
      LEAF_SIZE * (initE base end_ - initP base end_) ∧ initP base end_ ≤ initE base end_) :
    (initMarked base end_).initPushes (initMeta base end_) (initEnd base end_) =
      (maxBlocks (initSizes base end_ - 1) (initP base end_) (initE base end_)).map
        fun x => (x.1, (initMarked base end_).addr x.1 x.2) := by
  rw [Bd.initPushes, maxBlocks, List.map_flatMap, Bd.MAXSIZE, initMarked_nsizes]
  refine List.flatMap_congr fun k hk => ?_
  rw [Bd.levelPush_eq, levelBlocks_eq hc (List.mem_range.mp hk), List.map_map, List.map_map]
  rfl

/-- The bits after marking represent the buddy tree of `[P, E)`. -/
theorem initMarked_bitsRepr (hPE : initP base end_ ≤ initE base end_) :
    (initMarked base end_).BitsRepr (intervalTag (initSizes base end_ - 1) (initP base end_) (initE base end_)) := by
  have hn := initSizes_pos base end_
  have hE := (initEnd_eq base end_).2
  refine ⟨fun k b hkb => ?_, fun k b hkb => ?_⟩
  · obtain ⟨⟨hk, hb⟩, -⟩ := intervalTag_ne_none.mp hkb
    rw [Bd.InRange, initMarked_nsizes, NBLK]
    exact ⟨by omega, hb⟩
  · have hbits := initMarked_isAlloc (by omega) hkb
    obtain ⟨hk, hb⟩ := hkb
    rw [initMarked_nsizes] at hk hb
    have hr : k ≤ initSizes base end_ - 1 ∧ b < 2 ^ (initSizes base end_ - 1 - k) := ⟨by omega, hb⟩
    refine ⟨?_, fun hk0 => ?_⟩
    · rw [hbits.1, intervalTag_eq_used, intervalTag_eq_split]
      rcases Nat.eq_zero_or_pos k with rfl | hk0
      · by_cases hin : Inside (initP base end_) (initE base end_) 0 b <;>
          simp [hin, show b < 2 ^ (initSizes base end_ - 1) from hr.2]
      · by_cases hin : Inside (initP base end_) (initE base end_) k b <;> simp [hin, hr, hk0, Nat.pos_iff_ne_zero.mp hk0]
    · rw [hbits.2 hk0, intervalTag_eq_split]
      by_cases hin : Inside (initP base end_) (initE base end_) k b <;> simp [hin, hr, hk0]

/-- Once the check passes, the free lists `bd_initfree` leaves hold the maximal
blocks of `[P, E)`, each on the list of its size and once. -/
theorem initFree_listRepr (hc : ((initMarked base end_).bd_initfree (initMeta base end_) (initEnd base end_)).1 =
      LEAF_SIZE * (initE base end_ - initP base end_) ∧ initP base end_ ≤ initE base end_) :
    ∃ fl, ({ initMarked base end_ with
      links := ((initMarked base end_).initPushes (initMeta base end_) (initEnd base end_)).foldl
        (fun m x => push m ((initMarked base end_).free x.1) x.2) (initMarked base end_).links } : Bd).ListRepr fl
      (intervalTag (initSizes base end_ - 1) (initP base end_) (initE base end_)) := by
  have hn := initSizes_pos base end_
  have hM := initMeta_eq base end_
  have hE := (initEnd_eq base end_).2
  have hP : 0 < initP base end_ := by omega
  -- the list heads `bd_sizes[k].free`, made empty by `lst_init`
  have hfree : (initMarked base end_).free = fun i => initBase base + SZ_INFO * i := by
    funext i
    rw [Bd.free, initMarked_bd_base]
  have hinj : Function.Injective fun i => initBase base + SZ_INFO * i := fun i j h => by
    simp only [SZ_INFO] at h
    omega
  have hfam₀ : Family (fun k => k < initSizes base end_) (initMarked base end_).links
      (fun i => initBase base + SZ_INFO * i) fun _ => [] := by
    rw [initMarked_links]
    exact Family.of_foldl_init hinj (fun i hi => List.mem_range.mpr hi) _
  -- the pushes: distinct maximal blocks, none at a list head
  have hleaf : ∀ x ∈ maxBlocks (initSizes base end_ - 1) (initP base end_) (initE base end_),
      (initMarked base end_).addr x.1 x.2 = initBase base + LEAF_SIZE * (x.2 * 2 ^ x.1) := fun x _ => by
    rw [Bd.addr_eq_leaf, Bd.addr, initMarked_bd_base, BLK_SIZE, Nat.pow_zero, Nat.one_mul, Nat.mul_comm LEAF_SIZE]
  have hI : ∀ x ∈ (maxBlocks (initSizes base end_ - 1) (initP base end_) (initE base end_)).map
      (fun x => (x.1, (initMarked base end_).addr x.1 x.2)), x.1 < initSizes base end_ := by
    intro x hx
    obtain ⟨⟨k, b⟩, hkb, rfl⟩ := List.mem_map.mp hx
    have := (mem_maxBlocks.mp hkb).1
    dsimp only
    omega
  have hnd : (((maxBlocks (initSizes base end_ - 1) (initP base end_) (initE base end_)).map
      (fun x => (x.1, (initMarked base end_).addr x.1 x.2))).map Prod.snd).Nodup := by
    rw [List.map_map]
    refine (maxBlocks_nodup _ _ _).map_on fun x hx y hy hxy => maxBlocks_leaf_inj hP hE hx hy ?_
    simp only [Function.comp, hleaf x hx, hleaf y hy, LEAF_SIZE] at hxy
    omega
  have hfresh : ∀ x ∈ (maxBlocks (initSizes base end_ - 1) (initP base end_) (initE base end_)).map
      (fun x => (x.1, (initMarked base end_).addr x.1 x.2)), ∀ i, i < initSizes base end_ →
      x.2 ∉ (initBase base + SZ_INFO * i) :: [] := by
    intro x hx i hi hmem
    obtain ⟨⟨k, b⟩, hkb, rfl⟩ := List.mem_map.mp hx
    have hle := le_leaf_of_mem_maxBlocks hkb
    rw [List.mem_singleton, hleaf _ hkb] at hmem
    simp only [SZ_INFO, LEAF_SIZE] at hmem
    omega
  refine ⟨fun i => ((((maxBlocks (initSizes base end_ - 1) (initP base end_) (initE base end_)).map
    fun x => (x.1, (initMarked base end_).addr x.1 x.2)).filter fun x => x.1 = i).map Prod.snd).reverse ++ [],
    Bd.ListRepr.of_links ?_ fun k a => ?_⟩
  · rw [initMarked_nsizes, initPushes_eq hc, hfree]
    exact Family.foldl_push _ hfam₀ hI hnd hfresh
  · simp only [List.append_nil, List.mem_reverse, List.mem_map, List.mem_filter, decide_eq_true_eq,
      Prod.exists]
    constructor
    · rintro ⟨k', a', ⟨⟨j, c, hjc, hx⟩, rfl⟩, rfl⟩
      obtain ⟨rfl, rfl⟩ := Prod.mk.inj hx
      exact ⟨c, rfl, (intervalTag_eq_free_iff_mem hP hE).mpr hjc⟩
    · rintro ⟨b, rfl, hb⟩
      exact ⟨k, _, ⟨⟨k, b, (intervalTag_eq_free_iff_mem hP hE).mp hb, rfl⟩, rfl⟩, rfl⟩

/-- **`bd_init` sets the allocator up as the buddy tree of `[P, E)`**: when it
returns, the allocator keeps `Inv` with no live allocation, its free lists
holding the maximal blocks of `[P, E)`. -/
theorem bd_init_inv {s : Bd} (h : bd_init base end_ = some s) :
    ∃ fl, s.Inv fl (intervalTag (initSizes base end_ - 1) (initP base end_) (initE base end_))
      (initP base end_) (initE base end_) [] := by
  rw [bd_init_eq] at h
  split_ifs at h with hc
  obtain rfl := Option.some.inj h
  have hn := initSizes_pos base end_
  have hM := (initMeta_eq base end_).2
  have hE := (initEnd_eq base end_).2
  have hbits := initMarked_bitsRepr hc.2
  have hns := @initMarked_nsizes base end_
  obtain ⟨fl, hl⟩ := initFree_listRepr hc
  rw [Bd.bd_initfree_eq]
  -- from here on only the size count of the marked allocator matters
  generalize initMarked base end_ = s₀ at hbits hns hl ⊢
  refine ⟨fl, hbits.links _, hl, ?_, ?_, fun k b => ?_, List.nodup_nil, fun b hb => absurd hb List.not_mem_nil,
    ?_, ?_, hc.2, ?_⟩
  · show Tree (s₀.nsizes - 1) _
    rw [hns]
    exact intervalTag_tree
  · show Coalesced (s₀.nsizes - 1) _
    rw [hns]
    exact intervalTag_coalesced
  · show _ ↔ (k = 0 ∧ b < NBLK s₀.nsizes 0 ∧ _) ∨ _
    rw [intervalTag_eq_used, hns, NBLK, Nat.sub_zero]
    simp only [Inside, lo_zero, hi_zero, List.not_mem_nil, or_false]
    omega
  · show 0 < s₀.nsizes
    omega
  · show 2 * s₀.nsizes ≤ _
    omega
  · show _ ≤ NBLK s₀.nsizes 0
    rw [hns, NBLK, Nat.sub_zero]
    exact hE

end Check

/-- **`bd_init` can push a block twice, and read past a bit array.** For
`bd_init(0, 320)` the metadata ends at leaf `13` (address `208`) and the usable
heap at leaf `20` (address `320`). At size `2` the pair around the left boundary
(blocks `4` and `5`) and the pair around the right boundary (blocks `5` and `4`)
are the same pair, and block `4`, at address `256`, goes on the free list twice:
the free bytes add up to `176` where `112` are free, and `bd_init` panics. For
`bd_init(0, 4096)` the usable heap is the whole heap, the right boundary at
size `4` is block `NBLK(4)`, and `bd_initfree_pair` reads the alloc bits of
blocks past the array; the check fails again. -/
theorem bd_init_pushes_twice :
    initMeta 0 320 = 208 ∧ initEnd 0 320 = 320 ∧
      (initMarked 0 320).levelPush (initMeta 0 320) (initEnd 0 320) 2 = [256, 256] ∧
      ((initMarked 0 320).bd_initfree (initMeta 0 320) (initEnd 0 320)).1 = 176 ∧ bd_init 0 320 = none ∧
      (initMarked 0 4096).blk_index 4 (initEnd 0 4096) = NBLK (initSizes 0 4096) 4 ∧ bd_init 0 4096 = none := by
  decide +kernel

end Xv6.Buddy
