import Xv6.Lib.Intrusive

/-!
# The buddy allocator

`kernel/buddy.c` manages the heap `[bd_base, bd_base + HEAP_SIZE)` as blocks of
`BLK_SIZE k = 2^k * LEAF_SIZE` bytes for the sizes `k < nsizes`. For each size,
`bd_sizes[k]` holds a free list (a `struct list` of `list.c`), an `alloc` bit
array and, from `k = 1` on, a `split` bit array. `bd_sizes` and the arrays sit
at the start of the heap, in the metadata that `bd_init` marks allocated.

The model keeps the globals `nsizes` and `bd_base`, the link words of every
`struct list` as an `Intrusive.Mem` over addresses (the head of a free list is
`&bd_sizes[k].free`, and a free block's links are its first sixteen bytes), and
the bits of the bit arrays by bit address `8 * byte + bit`, so that a read past
the end of one array reads the array after it, as the code does. Pointers are
addresses; `blk_index` and `addr` compute in `Nat` where the code uses `int`,
which agrees while the heap is smaller than `2^31` bytes.

`firstk` doubles a `uint64`; its loop runs on fuel, and `none` stands for a
loop that does not end (`firstk_eq_none_iff`). `bd_malloc` and `bd_free` return
`none` where the code does not return: `firstk` looping, `lst_pop`'s panic, or
`size` reading past the end of `bd_sizes`.

* `isAlloc_update` and `isSplit_update`: what a bit write does to the bits of the
  arrays, from the layout of `bd_init` (`allocBit_inj`, `splitBit_inj`, `allocBit_ne_splitBit`).
* `Bd.search_spec`: the search finds the first non-empty free list.
* `blk_index_addr_of_le` and `blk_index_addr_of_ge`: block indices across sizes.
-/

namespace Xv6.Buddy

open Intrusive

/-- `LEAF_SIZE`: the smallest block size. -/
def LEAF_SIZE : Nat := 16

/-- `BLK_SIZE(k)`: the size of a block at size `k`. -/
def BLK_SIZE (k : Nat) : Nat := 2 ^ k * LEAF_SIZE

/-- `ROUNDUP(n, sz)`: `n` rounded up to a multiple of `sz`. On the unsigned
operand `bd_init` passes, `n - 1` wraps at `n = 0` and the result is `0`. -/
def ROUNDUP (n sz : Nat) : Nat := if n = 0 then 0 else ((n - 1) / sz + 1) * sz

/-- `sizeof(Sz_info)`: a `struct list` and two pointers. -/
def SZ_INFO : Nat := 32

/-- `NBLK(k)`: the number of blocks at size `k`, `1 << (MAXSIZE - k)`. -/
def NBLK (nsizes k : Nat) : Nat := 2 ^ (nsizes - 1 - k)

/-- The bytes of one bit array of size `k`: `ROUNDUP(NBLK(k), 8) / 8`. -/
def arrBytes (nsizes k : Nat) : Nat := ROUNDUP (NBLK nsizes k) 8 / 8

/-- `bd_sizes[k].alloc`: the alloc arrays follow `bd_sizes`, one after another. -/
def allocArr (nsizes base : Nat) : Nat → Nat
  | 0 => base + SZ_INFO * nsizes
  | k + 1 => allocArr nsizes base k + arrBytes nsizes k

/-- `bd_sizes[k].split`: the split arrays follow the alloc arrays, from `k = 1`
on; `bd_sizes[0].split` stays the null pointer `memset` left. -/
def splitArr (nsizes base : Nat) : Nat → Nat
  | 0 => 0
  | 1 => allocArr nsizes base nsizes
  | k + 2 => splitArr nsizes base (k + 1) + arrBytes nsizes (k + 1)

/-! ## Bit arrays -/

/-- `bit_isset(array, index)`: bit `index % 8` of the byte `array[index / 8]`. -/
def bit_isset (bits : Nat → Bool) (array index : Nat) : Bool :=
  bits (8 * (array + index / 8) + index % 8)

/-- `bit_set(array, index)`. -/
def bit_set (bits : Nat → Bool) (array index : Nat) : Nat → Bool :=
  Function.update bits (8 * (array + index / 8) + index % 8) true

/-- `bit_clear(array, index)`. -/
def bit_clear (bits : Nat → Bool) (array index : Nat) : Nat → Bool :=
  Function.update bits (8 * (array + index / 8) + index % 8) false

/-- The buddy of block `bi`: `(bi % 2 == 0) ? bi + 1 : bi - 1`. -/
def buddyOf (bi : Nat) : Nat := if bi % 2 = 0 then bi + 1 else bi - 1

theorem bitAddr_eq (array index : Nat) : 8 * (array + index / 8) + index % 8 = 8 * array + index := by
  omega

theorem bit_isset_eq (bits : Nat → Bool) (array index : Nat) :
    bit_isset bits array index = bits (8 * array + index) := by
  rw [bit_isset, bitAddr_eq]

theorem bit_set_eq (bits : Nat → Bool) (array index : Nat) :
    bit_set bits array index = Function.update bits (8 * array + index) true := by
  rw [bit_set, bitAddr_eq]

theorem bit_clear_eq (bits : Nat → Bool) (array index : Nat) :
    bit_clear bits array index = Function.update bits (8 * array + index) false := by
  rw [bit_clear, bitAddr_eq]

/-! ## The layout of the bit arrays -/

theorem NBLK_pos (nsizes k : Nat) : 0 < NBLK nsizes k := Nat.two_pow_pos _

/-- An array has a bit for each block of its size. -/
theorem NBLK_le_arrBytes (nsizes k : Nat) : NBLK nsizes k ≤ 8 * arrBytes nsizes k := by
  have hpos := NBLK_pos nsizes k
  rw [arrBytes, ROUNDUP, if_neg (Nat.pos_iff_ne_zero.mp hpos), Nat.mul_div_cancel _ (by decide)]
  omega

/-- An alloc array ends before every later one starts. -/
theorem allocArr_add_le {nsizes base k j : Nat} (h : k < j) :
    allocArr nsizes base k + arrBytes nsizes k ≤ allocArr nsizes base j := by
  induction j with
  | zero => exact absurd h (Nat.not_lt_zero k)
  | succ j ih =>
    rw [allocArr]
    rcases Nat.lt_or_ge k j with hkj | hkj
    · have := ih hkj
      omega
    · obtain rfl : k = j := by omega
      exact Nat.le_refl _

theorem splitArr_succ {nsizes base k : Nat} (hk : 1 ≤ k) :
    splitArr nsizes base (k + 1) = splitArr nsizes base k + arrBytes nsizes k := by
  obtain ⟨k, rfl⟩ : ∃ k', k = k' + 1 := ⟨k - 1, by omega⟩
  rfl

/-- A split array ends before every later one starts. -/
theorem splitArr_add_le {nsizes base k j : Nat} (hk : 1 ≤ k) (h : k < j) :
    splitArr nsizes base k + arrBytes nsizes k ≤ splitArr nsizes base j := by
  induction j with
  | zero => exact absurd h (Nat.not_lt_zero k)
  | succ j ih =>
    rw [splitArr_succ (by omega)]
    rcases Nat.lt_or_ge k j with hkj | hkj
    · have := ih hkj
      omega
    · obtain rfl : k = j := by omega
      exact Nat.le_refl _

/-- The split arrays come after every alloc array. -/
theorem allocArr_add_le_splitArr {nsizes base k j : Nat} (hk : k < nsizes) (hj : 1 ≤ j) :
    allocArr nsizes base k + arrBytes nsizes k ≤ splitArr nsizes base j := by
  have h₁ := @allocArr_add_le nsizes base k nsizes hk
  have h₂ : allocArr nsizes base nsizes ≤ splitArr nsizes base j := by
    rcases Nat.eq_or_lt_of_le hj with rfl | hj
    · exact Nat.le_refl _
    · have := @splitArr_add_le nsizes base 1 j (Nat.le_refl 1) hj
      rw [show splitArr nsizes base 1 = allocArr nsizes base nsizes from rfl] at this
      omega
  omega

/-- Distinct blocks have distinct alloc bits. -/
theorem allocBit_inj {n base k k' b b' : Nat} (hb : b < NBLK n k) (hb' : b' < NBLK n k') : 8 * allocArr n base k + b = 8 * allocArr n base k' + b' ↔ k = k' ∧ b = b' := by
  have hb₁ := NBLK_le_arrBytes n k
  have hb₂ := NBLK_le_arrBytes n k'
  constructor
  · intro heq
    rcases Nat.lt_trichotomy k k' with hlt | rfl | hlt
    · have := @allocArr_add_le n base k k' hlt
      omega
    · exact ⟨rfl, by omega⟩
    · have := @allocArr_add_le n base k' k hlt
      omega
  · rintro ⟨rfl, rfl⟩
    rfl

/-- Distinct blocks of sizes `1 ≤ k < nsizes` have distinct split bits. -/
theorem splitBit_inj {n base k k' b b' : Nat} (hk : 1 ≤ k) (hk' : 1 ≤ k') (hb : b < NBLK n k)
    (hb' : b' < NBLK n k') : 8 * splitArr n base k + b = 8 * splitArr n base k' + b' ↔ k = k' ∧ b = b' := by
  have hb₁ := NBLK_le_arrBytes n k
  have hb₂ := NBLK_le_arrBytes n k'
  constructor
  · intro heq
    rcases Nat.lt_trichotomy k k' with hlt | rfl | hlt
    · have := @splitArr_add_le n base k k' hk hlt
      omega
    · exact ⟨rfl, by omega⟩
    · have := @splitArr_add_le n base k' k hk' hlt
      omega
  · rintro ⟨rfl, rfl⟩
    rfl

/-- No alloc bit of an existing block is a split bit. -/
theorem allocBit_ne_splitBit {n base k j b b' : Nat} (hk : k < n) (hj : 1 ≤ j) (hb : b < NBLK n k) :
    8 * allocArr n base k + b ≠ 8 * splitArr n base j + b' := by
  have := NBLK_le_arrBytes n k
  have := @allocArr_add_le_splitArr n base k j hk hj
  omega

/-! ## Blocks -/

theorem BLK_SIZE_pos (k : Nat) : 0 < BLK_SIZE k := Nat.mul_pos (Nat.two_pow_pos k) (by decide)

theorem BLK_SIZE_add (k d : Nat) : BLK_SIZE (k + d) = 2 ^ d * BLK_SIZE k := by
  rw [BLK_SIZE, BLK_SIZE, Nat.pow_add, Nat.mul_comm (2 ^ k) (2 ^ d), Nat.mul_assoc]

theorem BLK_SIZE_succ (k : Nat) : BLK_SIZE (k + 1) = 2 * BLK_SIZE k := by
  rw [BLK_SIZE_add, Nat.pow_one]

/-! ## `firstk` -/

/-- `firstk`'s loop `while (size < n) { k++; size *= 2; }` on a `uint64`
`size`, for at most `fuel` turns; `none` when the fuel runs out. -/
def firstk.loop (n : UInt64) : Nat → Nat → UInt64 → Option Nat
  | 0, _, _ => none
  | fuel + 1, k, size => if size < n then firstk.loop n fuel (k + 1) (size * 2) else some k

/-- `firstk(n)`: the first `k` with `BLK_SIZE(k) ≥ n`. Sixty-four turns are
more than a loop that ends takes. -/
def firstk (n : UInt64) : Option Nat := firstk.loop n 64 0 16

/-- With `size` at zero the loop never ends: `0 * 2 = 0 < n`. -/
theorem firstk_loop_zero {n : UInt64} (hn : 0 < n) : ∀ fuel k, firstk.loop n fuel k 0 = none
  | 0, _ => rfl
  | fuel + 1, k => by
    rw [firstk.loop, if_pos hn]
    exact firstk_loop_zero hn fuel (k + 1)

/-- `size` is `2^(k+4)` after `k` turns, as a `uint64`. -/
theorem size_toNat_of_le {k : Nat} (hk : k ≤ 59) : (UInt64.ofNat (2 ^ (k + 4))).toNat = 2 ^ (k + 4) := by
  rw [UInt64.toNat_ofNat']
  exact Nat.mod_eq_of_lt (Nat.pow_lt_pow_right (by decide) (by omega))

theorem size_double {k : Nat} (hk : k ≤ 59) :
    UInt64.ofNat (2 ^ (k + 4)) * 2 = UInt64.ofNat (2 ^ (k + 1 + 4)) := by
  apply UInt64.toNat_inj.mp
  rw [UInt64.toNat_mul, size_toNat_of_le hk, UInt64.toNat_ofNat']
  rw [show k + 1 + 4 = k + 4 + 1 by omega, Nat.pow_succ]
  rfl

/-- **`firstk` does not end past `2^63`**: `size` doubles up to `2^63` and
then wraps to `0`, so `size < n` holds forever, whatever the fuel. -/
theorem firstk_loop_of_gt {n : UInt64} (hn : 2 ^ 63 < n.toNat) :
    ∀ fuel k, k ≤ 60 → firstk.loop n fuel k (UInt64.ofNat (2 ^ (k + 4))) = none
  | 0, _, _ => rfl
  | fuel + 1, k, hk => by
    rcases Nat.lt_or_ge k 60 with hk' | hk'
    · have hlt : UInt64.ofNat (2 ^ (k + 4)) < n := by
        rw [UInt64.lt_iff_toNat_lt, size_toNat_of_le (by omega)]
        have : 2 ^ (k + 4) ≤ 2 ^ 63 := Nat.pow_le_pow_right (by decide) (by omega)
        omega
      rw [firstk.loop, if_pos hlt, size_double (by omega)]
      exact firstk_loop_of_gt hn fuel (k + 1) (by omega)
    · obtain rfl : k = 60 := by omega
      have hz : UInt64.ofNat (2 ^ (60 + 4)) = 0 := by decide
      rw [hz]
      exact firstk_loop_zero (UInt64.lt_iff_toNat_lt.mpr (by simp; omega)) (fuel + 1) 60

/-- Up to `2^63` the loop stops at the first `r` with `n ≤ BLK_SIZE(r)`, given
one turn of fuel for each size it passes. -/
theorem firstk_loop_of_le {n : UInt64} (hn : n.toNat ≤ 2 ^ 63) :
    ∀ fuel k, k ≤ 59 → 59 - k < fuel → ∃ r, firstk.loop n fuel k (UInt64.ofNat (2 ^ (k + 4))) = some r ∧
      k ≤ r ∧ n.toNat ≤ BLK_SIZE r ∧ ∀ j, k ≤ j → j < r → BLK_SIZE j < n.toNat
  | 0, _, _, hf => absurd hf (Nat.not_lt_zero _)
  | fuel + 1, k, hk, hf => by
    have hblk : BLK_SIZE k = 2 ^ (k + 4) := by rw [BLK_SIZE, LEAF_SIZE, Nat.pow_add]
    by_cases hlt : UInt64.ofNat (2 ^ (k + 4)) < n
    · rw [UInt64.lt_iff_toNat_lt, size_toNat_of_le hk] at hlt
      have hk59 : k < 59 := by
        by_contra hge
        have : 2 ^ 63 ≤ 2 ^ (k + 4) := Nat.pow_le_pow_right (by decide) (by omega)
        omega
      obtain ⟨r, hr, hkr, hnr, hmin⟩ := firstk_loop_of_le hn fuel (k + 1) (by omega) (by omega)
      refine ⟨r, ?_, by omega, hnr, fun j hj hjr => ?_⟩
      · rw [firstk.loop, if_pos (UInt64.lt_iff_toNat_lt.mpr (by rw [size_toNat_of_le hk]; exact hlt)),
          size_double hk, hr]
      · rcases Nat.eq_or_lt_of_le hj with rfl | hj
        · rw [hblk]; exact hlt
        · exact hmin j hj hjr
    · rw [UInt64.lt_iff_toNat_lt, size_toNat_of_le hk] at hlt
      refine ⟨k, ?_, Nat.le_refl k, by rw [hblk]; omega, fun j hj hjr => absurd hjr (by omega)⟩
      rw [firstk.loop, if_neg (by rw [UInt64.lt_iff_toNat_lt, size_toNat_of_le hk]; exact hlt)]

/-- `firstk` returns exactly when `n ≤ 2^63`. -/
theorem firstk_eq_none_iff (n : UInt64) : firstk n = none ↔ 2 ^ 63 < n.toNat := by
  constructor
  · intro h
    by_contra hle
    obtain ⟨r, hr, -⟩ := firstk_loop_of_le (Nat.le_of_not_lt hle) 64 0 (by omega) (by omega)
    rw [firstk, show (16 : UInt64) = UInt64.ofNat (2 ^ (0 + 4)) by rfl, hr] at h
    cases h
  · intro h
    exact firstk_loop_of_gt h 64 0 (by omega)

/-- What `firstk` returns: the first size whose blocks hold `n` bytes. -/
theorem firstk_spec {n : UInt64} {k : Nat} (h : firstk n = some k) :
    n.toNat ≤ BLK_SIZE k ∧ ∀ j < k, BLK_SIZE j < n.toNat := by
  have hle : n.toNat ≤ 2 ^ 63 := by
    by_contra hgt
    rw [(firstk_eq_none_iff n).mpr (Nat.lt_of_not_le hgt)] at h
    cases h
  obtain ⟨r, hr, -, hnr, hmin⟩ := firstk_loop_of_le hle 64 0 (by omega) (by omega)
  rw [firstk, show (16 : UInt64) = UInt64.ofNat (2 ^ (0 + 4)) by rfl, hr] at h
  cases h
  exact ⟨hnr, fun j hj => hmin j (Nat.zero_le j) hj⟩

/-- `firstk`'s loop run from its start returns, for some amount of fuel,
exactly when `n ≤ 2^63`: past it the code's loop never ends. -/
theorem firstk_terminates_iff (n : UInt64) :
    (∃ fuel, firstk.loop n fuel 0 16 ≠ none) ↔ n.toNat ≤ 2 ^ 63 := by
  have h16 : (16 : UInt64) = UInt64.ofNat (2 ^ (0 + 4)) := rfl
  rw [h16]
  constructor
  · rintro ⟨fuel, hf⟩
    by_contra hgt
    exact hf (firstk_loop_of_gt (Nat.lt_of_not_le hgt) fuel 0 (by omega))
  · intro hle
    obtain ⟨r, hr, -⟩ := firstk_loop_of_le hle 64 0 (by omega) (by omega)
    exact ⟨64, by rw [hr]; exact Option.some_ne_none r⟩

/-! ## The allocator -/

/-- The allocator: its globals `nsizes` and `bd_base`, the link words of the
free lists, and the bits of the `alloc` and `split` arrays. -/
structure Bd where
  nsizes : Nat
  bd_base : Nat
  links : Mem Nat
  bits : Nat → Bool

namespace Bd

/-- `MAXSIZE`: the largest size. -/
def MAXSIZE (s : Bd) : Nat := s.nsizes - 1

/-- `HEAP_SIZE`: the size of the block at `MAXSIZE`. -/
def HEAP_SIZE (s : Bd) : Nat := BLK_SIZE s.MAXSIZE

/-- `&bd_sizes[k].free`: the head of the free list of size `k`. -/
def free (s : Bd) (k : Nat) : Nat := s.bd_base + SZ_INFO * k

/-- `bd_sizes[k].alloc`. -/
def alloc (s : Bd) (k : Nat) : Nat := allocArr s.nsizes s.bd_base k

/-- `bd_sizes[k].split`. -/
def split (s : Bd) (k : Nat) : Nat := splitArr s.nsizes s.bd_base k

/-- `blk_index(k, p)`: the block of size `k` that holds `p`. -/
def blk_index (s : Bd) (k p : Nat) : Nat := (p - s.bd_base) / BLK_SIZE k

/-- `addr(k, bi)`: the address of block `bi` of size `k`. -/
def addr (s : Bd) (k bi : Nat) : Nat := s.bd_base + bi * BLK_SIZE k

/-- The alloc bit of block `b` of size `k`. -/
def isAlloc (s : Bd) (k b : Nat) : Bool := bit_isset s.bits (s.alloc k) b

/-- The split bit of block `b` of size `k`. -/
def isSplit (s : Bd) (k b : Nat) : Bool := bit_isset s.bits (s.split k) b

/-- `bd_malloc`'s search `for (k = fk; k < nsizes; k++) if(!lst_empty(...)) break;`
from size `k`, with `n` sizes left to look at. -/
def search (s : Bd) : Nat → Nat → Nat
  | 0, k => k
  | n + 1, k => if isEmpty s.links (s.free k) then s.search n (k + 1) else k

/-- One turn of `bd_malloc`'s split loop at size `k`: the block of size `k` at
`p` is split, its lower half `p` is allocated at size `k - 1`, and the upper
half `p + BLK_SIZE(k-1)` goes on the free list of size `k - 1`. -/
def splitOne (s : Bd) (p k : Nat) : Bd :=
  { s with
    bits := bit_set (bit_set s.bits (s.split k) (s.blk_index k p)) (s.alloc (k - 1))
      (s.blk_index (k - 1) p)
    links := push s.links (s.free (k - 1)) (p + BLK_SIZE (k - 1)) }

/-- `for(; k > fk; k--)`: the split loop from size `fk + n` down to `fk`. -/
def splitDown (s : Bd) (p fk : Nat) : Nat → Bd
  | 0 => s
  | n + 1 => (s.splitOne p (fk + n + 1)).splitDown p fk n

/-- `size(p)`'s loop from size `k`, with `n` turns left: the first `k` whose
block of size `k + 1` around `p` is split. The turn at `k = nsizes - 1` reads
`bd_sizes[nsizes]`, past the end of the array: `none`. -/
def sizeLoop (s : Bd) (p : Nat) : Nat → Nat → Option Nat
  | 0, _ => some 0
  | n + 1, k =>
    if k + 1 = s.nsizes then none
    else if bit_isset s.bits (s.split (k + 1)) (s.blk_index (k + 1) p) then some k
    else s.sizeLoop p n (k + 1)

/-- `size(p)`: the size of the block that `p` points to. -/
def size (s : Bd) (p : Nat) : Option Nat := s.sizeLoop p s.nsizes 0

/-- `bd_free`'s loop at size `k`, with `n` sizes left below `MAXSIZE`: `p` is
freed at size `k`; if its buddy is free too, the buddy leaves its free list and
the pair, at the lower of the two addresses, is freed at size `k + 1`. The
block where the loop stops goes on the free list of its size. -/
def freeLoop (s : Bd) : Nat → Nat → Nat → Bd
  | 0, k, p => { s with links := push s.links (s.free k) p }
  | n + 1, k, p =>
    let bi := s.blk_index k p
    let buddy := buddyOf bi
    let bits := bit_clear s.bits (s.alloc k) bi
    if bit_isset bits (s.alloc k) buddy then
      { s with bits := bits, links := push s.links (s.free k) p }
    else
      let q := s.addr k buddy
      let p' := if buddy % 2 = 0 then q else p
      freeLoop { s with
          links := remove s.links q
          bits := bit_clear bits (s.split (k + 1)) (s.blk_index (k + 1) p') }
        n (k + 1) p'

end Bd

/-- `bd_malloc(nbytes)`: a block of size `firstk(nbytes)`, split off the first
non-empty free list of that size or larger; `0` when every such list is empty. -/
def bd_malloc (s : Bd) (nbytes : UInt64) : Option (Nat × Bd) := do
  let fk ← firstk nbytes
  let k := s.search (s.nsizes - fk) fk
  if s.nsizes ≤ k then return (0, s)
  let (p, links) ← pop s.links (s.free k)
  let s₁ : Bd := { s with links := links, bits := bit_set s.bits (s.alloc k) (s.blk_index k p) }
  return (p, s₁.splitDown p fk (k - fk))

/-- `bd_free(p)`: free `p` at the size `size(p)` finds, and merge upwards. -/
def bd_free (s : Bd) (p : Nat) : Option Bd :=
  (s.size p).map fun k => s.freeLoop (s.MAXSIZE - k) k p

namespace Bd

variable {s : Bd}

/-- Block `b` of size `k` exists: `k < nsizes` and `b < NBLK(k)`. -/
def InRange (s : Bd) (k b : Nat) : Prop := k < s.nsizes ∧ b < NBLK s.nsizes k

instance (s : Bd) (k b : Nat) : Decidable (s.InRange k b) := inferInstanceAs (Decidable (_ ∧ _))

/-- The halves of an existing block exist. -/
theorem InRange.half {k c b : Nat} (h : s.InRange (k + 1) c) (hb : b / 2 = c) : s.InRange k b := by
  obtain ⟨hk, hc⟩ := h
  refine ⟨by omega, ?_⟩
  unfold NBLK at *
  rw [show s.nsizes - 1 - k = s.nsizes - 1 - (k + 1) + 1 by omega, Nat.pow_succ]
  omega

/-- The parent of an existing block below `MAXSIZE` exists. -/
theorem InRange.parent {k b : Nat} (h : s.InRange k b) (hk : k + 1 < s.nsizes) :
    s.InRange (k + 1) (b / 2) := by
  obtain ⟨-, hb⟩ := h
  refine ⟨hk, ?_⟩
  unfold NBLK at *
  rw [show s.nsizes - 1 - k = s.nsizes - 1 - (k + 1) + 1 by omega, Nat.pow_succ] at hb
  omega

/-- The leaves of an existing block are leaves of the heap. -/
theorem InRange.leaf {k b x : Nat} (h : s.InRange k b) (hx : x / 2 ^ k = b) : s.InRange 0 x := by
  obtain ⟨hk, hb⟩ := h
  refine ⟨by omega, ?_⟩
  unfold NBLK at *
  rw [Nat.sub_zero, show s.nsizes - 1 = s.nsizes - 1 - k + k by omega, Nat.pow_add]
  rw [← hx] at hb
  exact (Nat.div_lt_iff_lt_mul (Nat.two_pow_pos k)).mp hb

theorem isAlloc_eq (s : Bd) (k b : Nat) : s.isAlloc k b = s.bits (8 * s.alloc k + b) :=
  bit_isset_eq _ _ _

theorem isSplit_eq (s : Bd) (k b : Nat) : s.isSplit k b = s.bits (8 * s.split k + b) :=
  bit_isset_eq _ _ _

/-- A write of one bit changes the alloc bit at that address only. -/
theorem isAlloc_update (s : Bd) (x : Nat) (v : Bool) (k b : Nat) :
    ({ s with bits := Function.update s.bits x v } : Bd).isAlloc k b =
      if 8 * s.alloc k + b = x then v else s.isAlloc k b := by
  rw [isAlloc_eq, isAlloc_eq]
  exact Function.update_apply s.bits x v _

/-- A write of one bit changes the split bit at that address only. -/
theorem isSplit_update (s : Bd) (x : Nat) (v : Bool) (k b : Nat) :
    ({ s with bits := Function.update s.bits x v } : Bd).isSplit k b =
      if 8 * s.split k + b = x then v else s.isSplit k b := by
  rw [isSplit_eq, isSplit_eq]
  exact Function.update_apply s.bits x v _

theorem blk_index_addr_of_le (s : Bd) {k j : Nat} (c : Nat) (h : k ≤ j) :
    s.blk_index k (s.addr j c) = c * 2 ^ (j - k) := by
  obtain ⟨d, rfl⟩ := Nat.exists_eq_add_of_le h
  rw [blk_index, addr, Nat.add_sub_cancel_left, BLK_SIZE_add, Nat.add_sub_cancel_left,
    ← Nat.mul_assoc, Nat.mul_div_cancel _ (BLK_SIZE_pos k)]

theorem blk_index_addr_of_ge (s : Bd) {k j : Nat} (c : Nat) (h : j ≤ k) :
    s.blk_index k (s.addr j c) = c / 2 ^ (k - j) := by
  obtain ⟨d, rfl⟩ := Nat.exists_eq_add_of_le h
  rw [blk_index, addr, Nat.add_sub_cancel_left, BLK_SIZE_add, Nat.add_sub_cancel_left,
    Nat.mul_div_mul_right _ _ (BLK_SIZE_pos j)]

@[simp] theorem blk_index_addr (s : Bd) (k c : Nat) : s.blk_index k (s.addr k c) = c := by
  rw [blk_index_addr_of_le s c (Nat.le_refl k), Nat.sub_self, Nat.pow_zero, Nat.mul_one]

theorem addr_succ (s : Bd) (k c : Nat) : s.addr (k + 1) c = s.addr k (2 * c) := by
  rw [addr, addr, BLK_SIZE_succ, Nat.mul_left_comm, Nat.mul_assoc]

theorem addr_add_BLK (s : Bd) (k c : Nat) : s.addr k c + BLK_SIZE k = s.addr k (c + 1) := by
  rw [addr, addr, Nat.succ_mul, Nat.add_assoc]

theorem addr_inj (s : Bd) {k c c' : Nat} : s.addr k c = s.addr k c' ↔ c = c' := by
  rw [addr, addr, Nat.add_left_cancel_iff]
  exact Nat.mul_left_inj (Nat.pos_iff_ne_zero.mp (BLK_SIZE_pos k))

/-- **The search** stops at the first size from `k` on whose free list is not
empty, or after `n` sizes. -/
theorem search_spec (s : Bd) : ∀ n k, k ≤ s.search n k ∧ s.search n k ≤ k + n ∧
    (∀ j, k ≤ j → j < s.search n k → isEmpty s.links (s.free j) = true) ∧
    (s.search n k < k + n → isEmpty s.links (s.free (s.search n k)) = false)
  | 0, k => ⟨Nat.le_refl k, Nat.le_refl k, fun j hj hjk => absurd hjk (by simp [search]; omega),
      fun h => absurd h (by simp [search])⟩
  | n + 1, k => by
    by_cases he : isEmpty s.links (s.free k) = true
    · obtain ⟨h₁, h₂, h₃, h₄⟩ := s.search_spec n (k + 1)
      rw [search, if_pos he]
      refine ⟨by omega, by omega, fun j hj hjr => ?_, fun h => h₄ (by omega)⟩
      rcases Nat.eq_or_lt_of_le hj with rfl | hj
      · exact he
      · exact h₃ j hj hjr
    · rw [search, if_neg he]
      exact ⟨Nat.le_refl k, by omega, fun j hj hjk => absurd hjk (by omega),
        fun _ => Bool.eq_false_iff.mpr he⟩

end Bd

end Xv6.Buddy
