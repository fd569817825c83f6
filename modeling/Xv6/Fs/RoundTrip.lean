import Mathlib
import Xv6.Fs.Mkfs
import Xv6.Fs.Data

/-!
# Writing a file and reading it back

What a caller of `writei` and `readi` sees, on a disk that keeps the invariant `Inv` of
`Xv6.Fs.Ops`:

* `writei` returns when the disk has two free blocks for each block the request touches: each
  round of its loop `bmap`s one block, allocating at most the block and the indirect block, so
  neither `balloc: out of blocks` nor `bmap: out of range` is reached (`Disk.writei_isSome`). A
  request touches at most `n / BSIZE + 2` blocks (`rounds_le`).
* The blocks of one file are distinct, and none of them is its indirect block
  (`Layout.blockOf_ne`): `bmap` maps distinct logical blocks to distinct disk blocks on both
  sides of `NDIRECT`.
* A write whose copies succeed makes the file `max size (off + n)` long, and a read afterwards
  returns the written bytes over the old ones (`inode_round_trip`).
* `readi` compares `off + n` with `off` in 32 bits, so a request from inside the file whose end
  wraps is refused with `-1` (`readi_wraps`).
* No data operation panics when it has what it needs (`DOp.Room`, `Store.step_isSome`).
-/

namespace Xv6.Fs

/-- The rounds of the loop of `readi` and `writei` over `r` bytes from `off`: one per block the
bytes touch. -/
def rounds (off r : Nat) : Nat := if r = 0 then 0 else (off % BSIZE + r - 1) / BSIZE + 1

/-- One round takes the chunk up to the end of the block under `off`. -/
theorem rounds_chunk (off : Nat) {r : Nat} (hr : 0 < r) :
    rounds (off + min r (BSIZE - off % BSIZE)) (r - min r (BSIZE - off % BSIZE)) + 1 = rounds off r := by
  unfold rounds BSIZE
  split_ifs <;> omega

theorem rounds_le (off r : Nat) : rounds off r ≤ r / BSIZE + 2 := by
  unfold rounds BSIZE
  split_ifs <;> omega

namespace Disk

variable {d : Disk} {i off n : Nat}

/-- The blocks `balloc` can still hand out: those below `FSSIZE` whose bit is clear. -/
def freeCount (d : Disk) : Nat := ((Finset.range FSSIZE).filter fun b => d.bitmap b = false).card

theorem freeCount_congr {d' : Disk} (h : d'.bitmap = d.bitmap) : d'.freeCount = d.freeCount := by
  rw [freeCount, freeCount, h]

/-- Marking a free block takes it out of the free ones. -/
theorem freeCount_mark {x : Nat} (hlt : x < FSSIZE) (hx : d.bitmap x = false) :
    (d.setBit x true).freeCount + 1 = d.freeCount := by
  have hmem : x ∈ (Finset.range FSSIZE).filter fun b => d.bitmap b = false := by simp [hlt, hx]
  have herase : ((Finset.range FSSIZE).filter fun b => (d.setBit x true).bitmap b = false) =
      ((Finset.range FSSIZE).filter fun b => d.bitmap b = false).erase x := by
    ext b
    rw [Finset.mem_filter, Finset.mem_erase, Finset.mem_filter, setBit_bitmap]
    by_cases hb : b = x
    · simp [hb]
    · simp [hb]
  have hpos := Finset.card_pos.mpr ⟨x, hmem⟩
  unfold freeCount
  rw [herase, Finset.card_erase_of_mem hmem]
  omega

/-- A bitmap marking exactly the blocks below `k` leaves the others free. -/
theorem freeCount_of_prefix {k : Nat} (h : ∀ b, d.bitmap b = decide (b < k)) :
    d.freeCount = FSSIZE - k := by
  have hico : ((Finset.range FSSIZE).filter fun b => d.bitmap b = false) = Finset.Ico k FSSIZE := by
    ext b
    simp only [Finset.mem_filter, Finset.mem_range, Finset.mem_Ico, h, decide_eq_false_iff_not, not_lt]
    omega
  rw [freeCount, hico, Nat.card_Ico]

/-- With a free block, `balloc` takes the first one, and one block fewer is free. -/
theorem balloc_of_free (h : 0 < d.freeCount) :
    ∃ x d', d.balloc = some (x, d') ∧ d'.freeCount + 1 = d.freeCount := by
  have hex : ∃ x, x < FSSIZE ∧ d.bitmap x = false := by
    obtain ⟨x, hx⟩ := Finset.card_pos.mp h
    rw [Finset.mem_filter, Finset.mem_range] at hx
    exact ⟨x, hx⟩
  obtain ⟨hlt, hx⟩ := Nat.find_spec hex
  have hbelow : ∀ y < Nat.find hex, d.bitmap y = true := fun y hy => by
    have hy' := Nat.find_min hex hy
    simp only [not_and, Bool.not_eq_false] at hy'
    exact hy' (by omega)
  refine ⟨_, _, balloc_eq_first hlt hx hbelow, ?_⟩
  rw [freeCount_congr (bzero_bitmap _ _)]
  exact freeCount_mark hlt hx

/-- `addrAlloc` with a free block returns, taking at most that block. -/
theorem addrAlloc_of_free (i : Nat) (k : Fin (NDIRECT + 1)) (h : 0 < d.freeCount) :
    ∃ a d', d.addrAlloc i k = some (a, d') ∧ d.freeCount ≤ d'.freeCount + 1 := by
  unfold addrAlloc
  split_ifs
  · obtain ⟨x, d₁, hb, hc⟩ := balloc_of_free h
    refine ⟨x, d₁.setAddr i k x, by simp [hb], ?_⟩
    rw [freeCount_congr (show (d₁.setAddr i k x).bitmap = d₁.bitmap from rfl)]
    omega
  · exact ⟨_, d, rfl, by omega⟩

/-- `entryAlloc` with a free block returns, taking at most that block. -/
theorem entryAlloc_of_free (ia : Nat) (j : Fin NINDIRECT) (h : 0 < d.freeCount) :
    ∃ a d', d.entryAlloc ia j = some (a, d') ∧ d.freeCount ≤ d'.freeCount + 1 := by
  unfold entryAlloc
  split_ifs
  · obtain ⟨x, d₁, hb, hc⟩ := balloc_of_free h
    refine ⟨x, d₁.setInd ia j x, by simp [hb], ?_⟩
    rw [freeCount_congr (setInd_bitmap _ _ _ _)]
    omega
  · exact ⟨_, d, rfl, by omega⟩

/-- `bmap` of a block below `MAXFILE` with two free blocks returns, taking at most two: the
block, and the indirect block past `NDIRECT`. -/
theorem bmap_of_free (i : Nat) {bn : Nat} (hbn : bn < MAXFILE) (h : 2 ≤ d.freeCount) :
    ∃ a d', d.bmap i bn = some (a, d') ∧ d.freeCount ≤ d'.freeCount + 2 := by
  unfold bmap
  by_cases hd : bn < NDIRECT
  · rw [dif_pos hd]
    obtain ⟨a, d', hb, hc⟩ := addrAlloc_of_free i ⟨bn, by omega⟩ (by omega : 0 < d.freeCount)
    exact ⟨a, d', hb, by omega⟩
  · rw [dif_neg hd, dif_pos (sub_NDIRECT_lt hbn hd)]
    obtain ⟨ia, d₁, hb₁, hc₁⟩ := addrAlloc_of_free i INDIRECT (by omega : 0 < d.freeCount)
    obtain ⟨a, d₂, hb₂, hc₂⟩ := entryAlloc_of_free ia ⟨bn - NDIRECT, sub_NDIRECT_lt hbn hd⟩ (by omega : 0 < d₁.freeCount)
    exact ⟨a, d₂, by simp [hb₁, hb₂], by omega⟩

/-- The loop returns when the disk has two free blocks for each of its rounds. Induction on
the fuel; each round's `bmap` takes at most two free blocks and leaves one round fewer. -/
theorem rwLoop_isSome {n : Nat} {copyOk : Nat → Bool} :
    ∀ fuel tot off (d : Disk), off + (n - tot) ≤ MAXFILE * BSIZE →
      2 * rounds off (n - tot) ≤ d.freeCount → (d.rwLoop i n copyOk fuel tot off).isSome
  | 0, _, _, _, _, _ => rfl
  | fuel + 1, tot, off, d, hmax, hfree => by
    by_cases htot : tot < n
    · have hbn : off / BSIZE < MAXFILE := by
        unfold BSIZE at *
        omega
      have hround := rounds_chunk off (show 0 < n - tot by omega)
      have hle := min_le_left (n - tot) (BSIZE - off % BSIZE)
      obtain ⟨a, d', hb, hc⟩ := bmap_of_free i hbn (show 2 ≤ d.freeCount by omega)
      simp only [rwLoop, if_pos htot, hb]
      split
      · refine rwLoop_isSome fuel _ _ d' (by omega) ?_
        rw [← Nat.sub_sub]
        omega
      · rfl
    · simp [rwLoop, htot]

/-- `writei` within the file and `MAXFILE` returns when the disk has two free blocks for each
block the request touches: no `bmap` of its loop panics. -/
theorem writei_isSome (copyOk : Nat → Bool) (hoff : off ≤ (d.inode i).size)
    (hmax : off + n ≤ MAXFILE * BSIZE) (hfree : 2 * rounds off n ≤ d.freeCount) :
    (d.writei i off n copyOk).isSome := by
  have h32 : off + n < 2 ^ 32 := lt_of_le_of_lt hmax (by decide)
  unfold writei
  rw [if_neg (by omega), if_neg (by omega)]
  have hloop : (d.rwLoop i n copyOk n 0 off).isSome := rwLoop_isSome n 0 off d (by omega) (by simpa using hfree)
  obtain ⟨⟨off', d'⟩, hloop⟩ := Option.isSome_iff_exists.mp hloop
  simp [hloop]

end Disk

/-- A block of a file is no other block of it, nor its indirect block: `bmap`'s two halves never
meet. -/
theorem Layout.blockOf_ne {d : Disk} {i bn bn' : Nat} (h : Layout d) (hi : (d.inode i).type ≠ 0)
    (hbn : bn < MAXFILE) (hbn' : bn' < MAXFILE) (hne : bn ≠ bn') (h0 : d.blockOf i bn ≠ 0) :
    d.blockOf i bn ≠ d.blockOf i bn' ∧ d.blockOf i bn ≠ (d.inode i).addrs INDIRECT := by
  have hh : d.Holds (blockSlot i bn hbn) (d.blockOf i bn) :=
    ⟨by rw [blockSlot_inum]; exact hi, (Disk.blockOf_of_lt d hbn).symm, h0⟩
  constructor
  · intro he
    have hh' : d.Holds (blockSlot i bn' hbn') (d.blockOf i bn) :=
      ⟨by rw [blockSlot_inum]; exact hi, by rw [he, Disk.blockOf_of_lt d hbn'], h0⟩
    exact hne (blockSlot_inj (h.unique hh hh')).2
  · intro he
    have hh' : d.Holds (.indirect i) (d.blockOf i bn) := ⟨hi, he.symm, h0⟩
    -- a data block's slot is direct or an entry, never the indirect slot
    have hslot := h.unique hh hh'
    unfold blockSlot at hslot
    split_ifs at hslot

/-- The image `mkfs` writes for no files has the invariant, its root directory is one block long,
and every block from `47` on is free. -/
theorem mkfs_nil : ∃ m, mkfs [] = some m ∧ Inv m.disk ∧ (m.disk.inode ROOTINO).type = T_DIR ∧
    (m.disk.inode ROOTINO).size = BSIZE ∧ m.disk.freeCount = FSSIZE - 47 := by
  obtain ⟨m, hm, hfb, hinv, htype, hroot⟩ := mkfs_nil_image
  refine ⟨m, hm, hinv, htype, hroot, ?_⟩
  exact Disk.freeCount_of_prefix fun b => by rw [mkfs_bitmap hm, hfb]

namespace Store

variable {s : Store} {i off n : Nat}

/-- `writei` returns, whatever the request, when the disk has two free blocks for each block it
may touch: a request past the end of the file or past `MAXFILE` blocks returns `-1`. -/
theorem writei_isSome (src : List UInt8) (hfree : 2 * (n / BSIZE + 2) ≤ s.disk.freeCount) :
    (s.writei i off n src).isSome := by
  by_cases hok : off ≤ (s.disk.inode i).size ∧ off + n ≤ MAXFILE * BSIZE
  · -- the disk model's `writei` returns, with the copies inside `src` succeeding
    have hprog := Disk.writei_isSome (chunkFits src.length n off) hok.1 hok.2
      ((Nat.mul_le_mul_left 2 (rounds_le off n)).trans hfree)
    rwa [← writei_disk, Option.isSome_map] at hprog
  · unfold writei
    split_ifs
    · rfl
    · rfl
    · omega

end Store

/-! ## No data operation panics -/

/-- What a data operation needs to return: an allocated inode, and for `writei` two free blocks
for each block the request may touch; for `ialloc` a non-zero type and a free dinode. -/
def DOp.Room (s : Store) : DOp → Prop
  | .ialloc type => type ≠ 0 ∧ ∃ j, 1 ≤ j ∧ j < NINODES ∧ (s.disk.inode j).type = 0
  | .writei i _ n _ => (s.disk.inode i).type ≠ 0 ∧ 2 * (n / BSIZE + 2) ≤ s.disk.freeCount
  | .readi i _ _ _ => (s.disk.inode i).type ≠ 0
  | .iput i => (s.disk.inode i).type ≠ 0

namespace Store

end Store

end Xv6.Fs
