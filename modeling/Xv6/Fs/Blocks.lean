import Xv6.Fs.Basic
import Xv6.Lib.Fallible

/-!
# Every used block is held exactly once

A block number lives in a *slot*: a direct address of a dinode, its indirect
address, or an entry of its indirect block. A slot of an allocated inode that
holds a non-zero number *holds* that block (`Disk.Holds`). `Accounted` is the
accounting of the free bitmap: no two slots hold the same block, held blocks
are data blocks, and the bitmap marks exactly the metadata blocks and the held
ones.

`balloc` leaves a state that is `Pending` on the new block: marked, zeroed and
held by nobody, until `bmap` stores it in an empty slot. `itrunc` clears bits
one at a time while the indirect block's entries still hold them, so its loop
runs on the bitmap clause with the entries already freed left out
(`Disk.Marks`). `Mapped` is the other invariant: the blocks below a file's
size are mapped, so `readi`'s `bmap` never allocates.
-/

namespace Xv6.Fs

/-- Where a dinode keeps a block number. -/
inductive Slot where
  | direct (i : Nat) (j : Fin NDIRECT)
  | indirect (i : Nat)
  | entry (i : Nat) (j : Fin NINDIRECT)
deriving DecidableEq

/-- The inode a slot belongs to. -/
@[simp] def Slot.inum : Slot → Nat
  | .direct i _ => i
  | .indirect i => i
  | .entry i _ => i

namespace Disk

/-- The number in a slot; an entry is read through a non-zero indirect block. -/
def get (d : Disk) : Slot → Nat
  | .direct i j => (d.inode i).addrs j.castSucc
  | .indirect i => (d.inode i).addrs INDIRECT
  | .entry i j =>
    if (d.inode i).addrs INDIRECT = 0 then 0 else d.ind ((d.inode i).addrs INDIRECT) j

@[simp] theorem get_direct (d : Disk) (i : Nat) (j : Fin NDIRECT) :
    d.get (.direct i j) = (d.inode i).addrs j.castSucc := rfl

@[simp] theorem get_indirect (d : Disk) (i : Nat) : d.get (.indirect i) = (d.inode i).addrs INDIRECT :=
  rfl

@[simp] theorem get_entry (d : Disk) (i : Nat) (j : Fin NINDIRECT) :
    d.get (.entry i j) =
      if (d.inode i).addrs INDIRECT = 0 then 0 else d.ind ((d.inode i).addrs INDIRECT) j := rfl

/-- Slot `s`, of an allocated inode, holds block `b`. -/
def Holds (d : Disk) (s : Slot) (b : Nat) : Prop :=
  (d.inode s.inum).type ≠ 0 ∧ d.get s = b ∧ b ≠ 0

/-- Some slot holds block `b`. -/
def Held (d : Disk) (b : Nat) : Prop := ∃ s, d.Holds s b

/-- The bitmap marks the metadata blocks, the blocks held by a slot outside
`E`, and the blocks in `X`. -/
def Marks (d : Disk) (E : Slot → Prop) (X : Nat → Prop) : Prop :=
  ∀ b < FSSIZE, d.bitmap b = true ↔ b < nmeta ∨ (∃ s, ¬ E s ∧ d.Holds s b) ∨ X b

variable {d d' : Disk} {s s' : Slot} {b x : Nat}

@[simp] theorem holds_setBit (v : Bool) : (d.setBit x v).Holds s b ↔ d.Holds s b := Iff.rfl

/-- Zeroing a block nobody holds changes no slot: it is no allocated inode's
indirect block. -/
theorem holds_bzero (hx : ¬ d.Held x) : (d.bzero x).Holds s b ↔ d.Holds s b := by
  cases s with
  | direct i j => exact Iff.rfl
  | indirect i => exact Iff.rfl
  | entry i j =>
    by_cases hty : (d.inode i).type = 0
    · simp [Holds, Slot.inum, hty]
    by_cases hia : (d.inode i).addrs INDIRECT = 0
    · simp [Holds, get, Slot.inum, hia]
    · have hne : (d.inode i).addrs INDIRECT ≠ x := fun h => hx ⟨.indirect i, hty, h, h ▸ hia⟩
      simp [Holds, get, Slot.inum, hia, Function.update_of_ne hne]

end Disk

open Disk

/-- No two slots hold one block, and held blocks are data blocks. -/
structure Layout (d : Disk) : Prop where
  unique : ∀ {s s' b}, d.Holds s b → d.Holds s' b → s = s'
  range : ∀ {s b}, d.Holds s b → nmeta ≤ b ∧ b < FSSIZE

/-- The free bitmap marks a block exactly when it is a metadata block or held
by exactly one slot of an allocated inode. -/
structure Accounted (d : Disk) : Prop extends Layout d where
  marks : ∀ b < FSSIZE, d.bitmap b = true ↔ b < nmeta ∨ d.Held b

/-- After `balloc`: block `x` is marked and zeroed, and nobody holds it yet. -/
structure Pending (d : Disk) (x : Nat) : Prop extends Layout d where
  marks : d.Marks (fun _ => False) (· = x)
  fresh : ¬ d.Held x
  range_x : nmeta ≤ x ∧ x < FSSIZE
  zero : d.ind x = fun _ => 0

variable {d d' : Disk} {s s' : Slot} {b x : Nat}

theorem Accounted.marks_iff (h : Accounted d) : d.Marks (fun _ => False) (fun _ => False) := by
  intro b hb
  rw [h.marks b hb]
  simp [Held]

/-- What `balloc` returns: a block below `FSSIZE` whose bit was clear. -/
theorem balloc_spec (h : d.balloc = some (x, d')) :
    x < FSSIZE ∧ d.bitmap x = false ∧ d' = (d.setBit x true).bzero x := by
  unfold Disk.balloc at h
  split at h
  · cases h
  · next x' hx =>
    cases h
    obtain ⟨b, -, hfind⟩ := List.exists_of_findSome?_eq_some hx
    have hfree := List.find?_some hfind
    obtain ⟨y, hy, rfl⟩ := List.mem_map.mp (List.mem_of_find?_eq_some hfind)
    have hy' := List.mem_range.mp hy
    refine ⟨by omega, by simpa using hfree, rfl⟩

/-- With one bitmap block (`FSSIZE ≤ BPB`), `balloc` scans blocks `0` to
`FSSIZE - 1` in order, and takes the first whose bit is clear. -/
theorem balloc_eq_first (hlt : x < FSSIZE) (hx : d.bitmap x = false)
    (hbelow : ∀ y < x, d.bitmap y = true) : d.balloc = some (x, (d.setBit x true).bzero x) := by
  have hscan : (List.range FSSIZE).find? (fun y => !d.bitmap y) = some x :=
    List.find?_range_eq_some.mpr ⟨by simp [hx], List.mem_range.mpr hlt, fun j hj => by simp [hbelow j hj]⟩
  have hblocks : (List.range ((FSSIZE + BPB - 1) / BPB)).map (· * BPB) = [0] := by decide
  have hbits : (List.range (min BPB (FSSIZE - 0))).map (0 + ·) = List.range FSSIZE := by
    have hmin : min BPB FSSIZE = FSSIZE := by decide
    simp [hmin]
  unfold Disk.balloc
  rw [hblocks, List.findSome?_singleton, hbits, hscan]

/-- The block `balloc` returns is a data block nobody holds. -/
theorem Accounted.balloc_fresh (h : Accounted d) (hb : d.balloc = some (x, d')) :
    ¬ d.Held x ∧ nmeta ≤ x ∧ x < FSSIZE := by
  obtain ⟨hlt, hfree, -⟩ := balloc_spec hb
  have hnot := (h.marks x hlt).not.mp (by simp [hfree])
  refine ⟨fun hh => hnot (.inr hh), ?_, hlt⟩
  by_contra hc
  exact hnot (.inl (by omega))

/-- `balloc` changes no slot: it zeroes a block nobody holds. -/
theorem Accounted.balloc_holds (h : Accounted d) (hb : d.balloc = some (x, d')) (s : Slot) (b : Nat) :
    d'.Holds s b ↔ d.Holds s b := by
  have hx := (h.balloc_fresh hb).1
  obtain ⟨-, -, rfl⟩ := balloc_spec hb
  exact (holds_bzero (show ¬ (d.setBit x true).Held x from hx)).trans (holds_setBit true)

theorem Accounted.balloc (h : Accounted d) (hb : d.balloc = some (x, d')) : Pending d' x := by
  obtain ⟨hx, hmeta, hlt⟩ := h.balloc_fresh hb
  have hsame := h.balloc_holds hb
  obtain ⟨-, -, rfl⟩ := balloc_spec hb
  refine ⟨⟨fun h₁ h₂ => ?_, fun h₁ => ?_⟩, fun c hc => ?_, ?_, ⟨hmeta, hlt⟩, by simp⟩
  · exact h.unique ((hsame _ _).mp h₁) ((hsame _ _).mp h₂)
  · exact h.range ((hsame _ _).mp h₁)
  · simp only [bzero_bitmap, setBit_bitmap, Function.update_apply, hsame]
    by_cases hcx : c = x
    · simp [hcx]
    · simp [hcx, h.marks c hc, Held]
  · intro ⟨s, hs⟩
    exact hx ⟨s, (hsame _ _).mp hs⟩

theorem Pending.ne_zero (h : Pending d x) : x ≠ 0 := by
  have := h.range_x.1
  unfold nmeta at this
  omega

/-- Storing the pending block in one empty slot, with nothing else changed,
gives back the accounting. -/
theorem Pending.store (h : Pending d x) (t : Slot)
    (hnew : ∀ s b, d'.Holds s b ↔ d.Holds s b ∨ s = t ∧ b = x) (hbit : d'.bitmap = d.bitmap) :
    Accounted d' := by
  refine ⟨⟨fun h₁ h₂ => ?_, fun h₁ => ?_⟩, fun c hc => ?_⟩
  · rcases (hnew _ _).mp h₁ with h₁ | ⟨rfl, rfl⟩ <;> rcases (hnew _ _).mp h₂ with h₂ | ⟨rfl, h₂⟩
    · exact h.unique h₁ h₂
    · exact absurd ⟨_, h₂ ▸ h₁⟩ h.fresh
    · exact absurd ⟨_, h₂⟩ h.fresh
    · rfl
  · rcases (hnew _ _).mp h₁ with h₁ | ⟨-, rfl⟩
    · exact h.range h₁
    · exact h.range_x
  · rw [hbit, h.marks c hc]
    simp only [Held, hnew, not_false_eq_true, true_and]
    constructor
    · rintro (hm | ⟨s, hs⟩ | rfl)
      · exact .inl hm
      · exact .inr ⟨s, .inl hs⟩
      · exact .inr ⟨t, .inr ⟨rfl, rfl⟩⟩
    · rintro (hm | ⟨s, hs | ⟨-, rfl⟩⟩)
      · exact .inl hm
      · exact .inr (.inl ⟨s, hs⟩)
      · exact .inr (.inr rfl)

/-- A block stored in an empty direct address. -/
theorem holds_setAddr_direct {i a : Nat} {j : Fin NDIRECT} (hi : (d.inode i).type ≠ 0)
    (h0 : (d.inode i).addrs j.castSucc = 0) (ha : a ≠ 0) (s : Slot) (b : Nat) :
    (d.setAddr i j.castSucc a).Holds s b ↔ d.Holds s b ∨ s = .direct i j ∧ b = a := by
  have hne : INDIRECT ≠ j.castSucc := (Fin.castSucc_lt_last j).ne'
  cases s with
  | direct i' j' =>
    by_cases hii : i' = i
    · subst hii
      by_cases hjj : j' = j
      · subst hjj
        simp only [Holds, Slot.inum, get_direct, setAddr_eq, setInode_inode, Function.update_self, h0]
        grind
      · have hjj' : j'.castSucc ≠ j.castSucc := fun h => hjj (Fin.castSucc_injective _ h)
        simp [Holds, setAddr_eq, hjj]
    · simp [Holds, setAddr_eq, hii]
  | indirect i' =>
    by_cases hii : i' = i
    · subst hii
      simp [Holds, setAddr_eq, Function.update_of_ne hne]
    · simp [Holds, setAddr_eq, Function.update_of_ne hii]
  | entry i' j' =>
    by_cases hii : i' = i
    · subst hii
      simp [Holds, setAddr_eq, Function.update_of_ne hne]
    · simp [Holds, setAddr_eq, Function.update_of_ne hii]

/-- An indirect block stored in an empty indirect address: its entries, all
zero, hold nothing. -/
theorem holds_setAddr_indirect {i a : Nat} (hi : (d.inode i).type ≠ 0)
    (h0 : (d.inode i).addrs INDIRECT = 0) (ha : a ≠ 0) (hz : d.ind a = fun _ => 0) (s : Slot) (b : Nat) :
    (d.setAddr i INDIRECT a).Holds s b ↔ d.Holds s b ∨ s = .indirect i ∧ b = a := by
  cases s with
  | direct i' j' =>
    by_cases hii : i' = i
    · subst hii
      simp [Holds, setAddr_eq]
    · simp [Holds, setAddr_eq, hii]
  | indirect i' =>
    by_cases hii : i' = i
    · subst hii
      simp only [Holds, Slot.inum, get_indirect, setAddr_eq, setInode_inode, Function.update_self, h0]
      grind
    · simp [Holds, setAddr_eq, hii]
  | entry i' j' =>
    by_cases hii : i' = i
    · subst hii
      simp [Holds, setAddr_eq, h0, ha, hz]
    · simp [Holds, setAddr_eq, hii]

/-- A block stored in an empty entry of an indirect block that only inode `i`
holds. -/
theorem holds_setInd {i a : Nat} {j : Fin NINDIRECT} (hia : (d.inode i).addrs INDIRECT ≠ 0)
    (h0 : d.ind ((d.inode i).addrs INDIRECT) j = 0) (ha : a ≠ 0) (hi : (d.inode i).type ≠ 0)
    (huniq : ∀ i', (d.inode i').type ≠ 0 → (d.inode i').addrs INDIRECT = (d.inode i).addrs INDIRECT →
      i' = i) (s : Slot) (b : Nat) :
    (d.setInd ((d.inode i).addrs INDIRECT) j a).Holds s b ↔ d.Holds s b ∨ s = .entry i j ∧ b = a := by
  cases s with
  | direct i' j' => simp [Holds]
  | indirect i' => simp [Holds]
  | entry i' j' =>
    by_cases hty : (d.inode i').type = 0
    · simp [Holds, hty]
      rintro rfl
      exact absurd hi (by simpa using hty)
    by_cases hsame : (d.inode i').addrs INDIRECT = (d.inode i).addrs INDIRECT
    · obtain rfl := huniq i' hty hsame
      by_cases hjj : j' = j
      · subst hjj
        simp only [Holds, Slot.inum, get_entry, setInd_inode, setInd_ind, Function.update_self, hia,
          if_false, h0]
        grind
      · simp [Holds, hia, hjj]
    · have hne : (d.inode i).addrs INDIRECT ≠ (d.inode i').addrs INDIRECT := Ne.symm hsame
      have hsi : ¬ (i' = i) := fun h => hsame (h ▸ rfl)
      simp [Holds, Function.update_of_ne hne.symm, hsi]

theorem Layout.indirect_unique (h : Layout d) {i i' : Nat} (hi : (d.inode i).type ≠ 0)
    (hi' : (d.inode i').type ≠ 0) (hia : (d.inode i).addrs INDIRECT ≠ 0)
    (hsame : (d.inode i').addrs INDIRECT = (d.inode i).addrs INDIRECT) : i' = i := by
  have h₁ : d.Holds (.indirect i) ((d.inode i).addrs INDIRECT) := ⟨hi, rfl, hia⟩
  have h₂ : d.Holds (.indirect i') ((d.inode i).addrs INDIRECT) := ⟨hi', hsame, hia⟩
  cases h.unique h₂ h₁
  rfl

/-- `d'` is `d` with more blocks held, still accounted, and the same types and
sizes: what `bmap` and the loop of `writei` do. -/
structure Grows (d d' : Disk) : Prop where
  acc : Accounted d'
  mono : ∀ {s b}, d.Holds s b → d'.Holds s b
  type : ∀ i, (d'.inode i).type = (d.inode i).type
  size : ∀ i, (d'.inode i).size = (d.inode i).size

theorem Grows.refl (h : Accounted d) : Grows d d := ⟨h, id, fun _ => rfl, fun _ => rfl⟩

theorem Grows.trans {d'' : Disk} (h₁ : Grows d d') (h₂ : Grows d' d'') : Grows d d'' :=
  ⟨h₂.acc, h₂.mono ∘ h₁.mono, fun i => (h₂.type i).trans (h₁.type i),
    fun i => (h₂.size i).trans (h₁.size i)⟩

/-- A direct address, allocated if it is `0`. -/
theorem Accounted.addrAlloc_direct (h : Accounted d) {i a : Nat} {j : Fin NDIRECT}
    (hi : (d.inode i).type ≠ 0) (hb : d.addrAlloc i j.castSucc = some (a, d')) :
    Grows d d' ∧ d'.Holds (.direct i j) a := by
  unfold Disk.addrAlloc at hb
  split_ifs at hb with h0
  · simp only [Option.bind_eq_bind, Option.bind_eq_some_iff] at hb
    obtain ⟨⟨x, d₁⟩, h₁, hb⟩ := hb
    cases hb
    have hp := h.balloc h₁
    have hsame := h.balloc_holds h₁
    have hx0 : x ≠ 0 := hp.ne_zero
    obtain ⟨-, -, rfl⟩ := balloc_spec h₁
    have hnew : ∀ s b, (((d.setBit x true).bzero x).setAddr i j.castSucc x).Holds s b ↔
        ((d.setBit x true).bzero x).Holds s b ∨ s = .direct i j ∧ b = x :=
      holds_setAddr_direct hi h0 hx0
    refine ⟨⟨hp.store _ hnew rfl, fun hs => (hnew _ _).mpr (.inl ((hsame _ _).mpr hs)),
      fun i' => ?_, fun i' => ?_⟩, (hnew _ _).mpr (.inr ⟨rfl, rfl⟩)⟩
    all_goals
      by_cases hii : i' = i
      · subst hii
        simp [setAddr_eq]
      · simp [setAddr_eq, hii]
  · cases hb
    exact ⟨Grows.refl h, hi, rfl, h0⟩

/-- The indirect address, allocated if it is `0`: a new indirect block is
zeroed, so its entries hold nothing. -/
theorem Accounted.addrAlloc_indirect (h : Accounted d) {i a : Nat} (hi : (d.inode i).type ≠ 0)
    (hb : d.addrAlloc i INDIRECT = some (a, d')) : Grows d d' ∧ d'.Holds (.indirect i) a := by
  unfold Disk.addrAlloc at hb
  split_ifs at hb with h0
  · simp only [Option.bind_eq_bind, Option.bind_eq_some_iff] at hb
    obtain ⟨⟨x, d₁⟩, h₁, hb⟩ := hb
    cases hb
    have hp := h.balloc h₁
    have hsame := h.balloc_holds h₁
    have hz := hp.zero
    obtain ⟨-, -, rfl⟩ := balloc_spec h₁
    have hnew : ∀ s b, (((d.setBit x true).bzero x).setAddr i INDIRECT x).Holds s b ↔
        ((d.setBit x true).bzero x).Holds s b ∨ s = .indirect i ∧ b = x :=
      holds_setAddr_indirect hi h0 hp.ne_zero hz
    refine ⟨⟨hp.store _ hnew rfl, fun hs => (hnew _ _).mpr (.inl ((hsame _ _).mpr hs)),
      fun i' => ?_, fun i' => ?_⟩, (hnew _ _).mpr (.inr ⟨rfl, rfl⟩)⟩
    all_goals
      by_cases hii : i' = i
      · subst hii
        simp [setAddr_eq]
      · simp [setAddr_eq, hii]
  · cases hb
    exact ⟨Grows.refl h, hi, rfl, h0⟩

/-- An entry of inode `i`'s indirect block, allocated if it is `0`. -/
theorem Accounted.entryAlloc (h : Accounted d) {i a : Nat} {j : Fin NINDIRECT}
    (hi : (d.inode i).type ≠ 0) (hia : (d.inode i).addrs INDIRECT ≠ 0)
    (hb : d.entryAlloc ((d.inode i).addrs INDIRECT) j = some (a, d')) :
    Grows d d' ∧ d'.Holds (.entry i j) a := by
  unfold Disk.entryAlloc at hb
  split_ifs at hb with h0
  · simp only [Option.bind_eq_bind, Option.bind_eq_some_iff] at hb
    obtain ⟨⟨x, d₁⟩, h₁, hb⟩ := hb
    cases hb
    have hp := h.balloc h₁
    have hsame := h.balloc_holds h₁
    obtain ⟨-, -, rfl⟩ := balloc_spec h₁
    -- the new block is not the indirect block, which inode `i` holds
    have hia' : (d.inode i).addrs INDIRECT ≠ x := fun he =>
      hp.fresh ⟨.indirect i, (hsame _ _).mpr ⟨hi, he, he ▸ hia⟩⟩
    have hnew : ∀ s b,
        (((d.setBit x true).bzero x).setInd ((d.inode i).addrs INDIRECT) j x).Holds s b ↔
          ((d.setBit x true).bzero x).Holds s b ∨ s = .entry i j ∧ b = x :=
      holds_setInd hia (by simpa [Function.update_of_ne hia'] using h0) hp.ne_zero hi
        (fun i' hi' hsame' => hp.toLayout.indirect_unique hi hi' hia hsame')
    exact ⟨⟨hp.store _ hnew rfl, fun hs => (hnew _ _).mpr (.inl ((hsame _ _).mpr hs)),
      fun _ => rfl, fun _ => rfl⟩, (hnew _ _).mpr (.inr ⟨rfl, rfl⟩)⟩
  · cases hb
    exact ⟨Grows.refl h, hi, by simp [hia], h0⟩

/-- The slot `bmap` reads for block `bn` of inode `i`. -/
def blockSlot (i bn : Nat) (h : bn < MAXFILE) : Slot :=
  if hd : bn < NDIRECT then .direct i ⟨bn, hd⟩
  else .entry i ⟨bn - NDIRECT, sub_NDIRECT_lt h hd⟩

/-- `bmap` on an allocated inode keeps the accounting, keeps every held block
held, and leaves the returned block held in the block's slot. -/
theorem Accounted.bmap (h : Accounted d) {i bn a : Nat} (hi : (d.inode i).type ≠ 0)
    (hbn : bn < MAXFILE) (hb : d.bmap i bn = some (a, d')) :
    Grows d d' ∧ d'.Holds (blockSlot i bn hbn) a := by
  unfold Disk.bmap at hb
  by_cases hd : bn < NDIRECT
  · rw [dif_pos hd] at hb
    simp only [blockSlot, dif_pos hd]
    exact h.addrAlloc_direct hi hb
  · have hd' : bn - NDIRECT < NINDIRECT := sub_NDIRECT_lt hbn hd
    rw [dif_neg hd, dif_pos hd'] at hb
    simp only [blockSlot, dif_neg hd]
    simp only [Option.bind_eq_bind, Option.bind_eq_some_iff] at hb
    obtain ⟨⟨ia, d₁⟩, h₁, hb⟩ := hb
    -- the indirect block first, then its entry
    obtain ⟨hg, hti, hget, hia⟩ := h.addrAlloc_indirect hi h₁
    simp only [Slot.inum, get_indirect] at hti hget
    subst hget
    have hB := hg.acc.entryAlloc hti hia hb
    exact ⟨hg.trans hB.1, hB.2⟩


/-! ## Freeing and allocating inodes -/

/-- Slots read only the types, the addresses and the blocks' contents. -/
theorem holds_congr (htype : ∀ i, (d'.inode i).type = (d.inode i).type)
    (haddrs : ∀ i, (d'.inode i).addrs = (d.inode i).addrs) (hind : d'.ind = d.ind) :
    d'.Holds s b ↔ d.Holds s b := by
  cases s <;> simp [Holds, Disk.get, htype, haddrs, hind]

/-- An inode whose addresses are all `0` holds nothing. -/
theorem not_holds_of_addrs {i : Nat} (h : ∀ k, (d.inode i).addrs k = 0) (hs : s.inum = i) :
    ¬ d.Holds s b := by
  rintro ⟨-, hget, hb⟩
  cases s <;> simp only [Slot.inum] at hs <;> subst hs <;> simp [Disk.get, h] at hget <;> omega

/-- Rewriting dinode `i` changes only `i`'s slots. -/
theorem holds_setInode_of_ne {i : Nat} {x : Dinode} (hs : s.inum ≠ i) :
    (d.setInode i x).Holds s b ↔ d.Holds s b := by
  cases s <;> simp only [Slot.inum] at hs <;> simp [Holds, Disk.get, hs]

theorem Layout.mono (h : Layout d) (hsub : ∀ {s b}, d'.Holds s b → d.Holds s b) : Layout d' :=
  ⟨fun h₁ h₂ => h.unique (hsub h₁) (hsub h₂), fun h₁ => h.range (hsub h₁)⟩

theorem Accounted.of_marks (hl : Layout d) (hm : d.Marks (fun _ => False) (fun _ => False)) :
    Accounted d := by
  refine ⟨hl, fun b hb => ?_⟩
  rw [hm b hb]
  simp [Held]

/-- The same slots hold the same blocks, under the same bitmap. -/
theorem Accounted.congr (h : Accounted d) (hh : ∀ s b, d'.Holds s b ↔ d.Holds s b)
    (hbit : d'.bitmap = d.bitmap) : Accounted d' := by
  refine ⟨h.toLayout.mono fun hs => (hh _ _).mp hs, fun b hb => ?_⟩
  rw [hbit, h.marks b hb]
  simp only [Held, hh]

/-- Leaving one more slot out of the marking slots, when it does not hold
block `c`, does not change who marks `c`. -/
theorem exists_holds_or_eq {E E' : Slot → Prop} {t : Slot} {c : Nat}
    (hE : ∀ s, E' s ↔ E s ∨ s = t) (ht : ¬ d.Holds t c) :
    (∃ s, ¬ E' s ∧ d.Holds s c) ↔ ∃ s, ¬ E s ∧ d.Holds s c := by
  refine exists_congr fun s => ⟨fun ⟨hs, hsc⟩ => ⟨fun h => hs ((hE s).mpr (.inl h)), hsc⟩,
    fun ⟨hs, hsc⟩ => ⟨fun h => ?_, hsc⟩⟩
  rcases (hE s).mp h with h | rfl
  · exact hs h
  · exact ht hsc

/-- Clearing the bit of the block that slot `t` holds leaves `t` out of the
marking slots. -/
theorem Disk.Marks.clear {E E' : Slot → Prop} {X : Nat → Prop} {t : Slot} (hl : Layout d)
    (hm : d.Marks E X) (hE : ∀ s, E' s ↔ E s ∨ s = t) (ht : d.Holds t x) (hX : ¬ X x) :
    (d.setBit x false).Marks E' X := by
  intro c hc
  simp only [setBit_bitmap, holds_setBit]
  by_cases hcx : c = x
  · subst hcx
    have hmeta := (hl.range ht).1
    simp only [Function.update_self, Bool.false_eq_true, false_iff]
    rintro (hlt | ⟨s, hs, hsc⟩ | hx)
    · omega
    · exact hs ((hE s).mpr (.inr (hl.unique hsc ht)))
    · exact hX hx
  · -- slot `t` holds `x`, not `c`
    have htc : ¬ d.Holds t c := fun htc => hcx (htc.2.1.symm.trans ht.2.1)
    rw [Function.update_of_ne hcx, hm c hc, exists_holds_or_eq hE htc]

/-- A slot that holds nothing can be left out of the marking slots. -/
theorem Disk.Marks.skip {E E' : Slot → Prop} {X : Nat → Prop} {t : Slot} (hm : d.Marks E X)
    (hE : ∀ s, E' s ↔ E s ∨ s = t) (ht : ∀ b, ¬ d.Holds t b) : d.Marks E' X := by
  intro c hc
  rw [hm c hc, exists_holds_or_eq hE (ht c)]

/-- Emptying the slots left out of the marking, with the bitmap unchanged,
gives a marking with no slot left out. -/
theorem Disk.Marks.drop {E : Slot → Prop} {X : Nat → Prop} (hm : d.Marks E X)
    (hnew : ∀ s b, d'.Holds s b ↔ d.Holds s b ∧ ¬ E s) (hbit : d'.bitmap = d.bitmap) :
    d'.Marks (fun _ => False) X := by
  intro c hc
  rw [hbit, hm c hc]
  simp only [hnew, not_false_eq_true, true_and]
  constructor
  · rintro (hlt | ⟨s, hs, hsc⟩ | hx)
    · exact .inl hlt
    · exact .inr (.inl ⟨s, hsc, hs⟩)
    · exact .inr (.inr hx)
  · rintro (hlt | ⟨s, hsc, hs⟩ | hx)
    · exact .inl hlt
    · exact .inr (.inl ⟨s, hs, hsc⟩)
    · exact .inr (.inr hx)

/-- Freeing the block of one slot and emptying the slot keeps the accounting. -/
theorem Accounted.release (h : Accounted d) {t : Slot} (ht : d.Holds t x)
    (hnew : ∀ s b, d'.Holds s b ↔ d.Holds s b ∧ s ≠ t) (hbit : d'.bitmap = (d.setBit x false).bitmap) :
    Accounted d' := by
  have hm : (d.setBit x false).Marks (· = t) (fun _ => False) :=
    h.marks_iff.clear h.toLayout (fun s => by simp) ht id
  exact Accounted.of_marks (h.toLayout.mono fun hs => ((hnew _ _).mp hs).1)
    (hm.drop (fun s b => by simp [hnew]) hbit)

/-- A block held by a slot has its bit set. -/
theorem Accounted.bitmap_of_holds (h : Accounted d) (ht : d.Holds s x) : d.bitmap x = true :=
  (h.marks x (h.range ht).2).mpr (.inr ⟨s, ht⟩)

/-- `bfree` of a marked block. -/
theorem bfree_of_marked (hx : d.bitmap x = true) : d.bfree x = some (d.setBit x false) := by
  simp [Disk.bfree, hx]

/-- What the steps of `itrunc` keep: every other dinode, the type of inode
`i`, and the blocks' contents. -/
structure Frame (i : Nat) (d d' : Disk) : Prop where
  other : ∀ i', i' ≠ i → d'.inode i' = d.inode i'
  type : (d'.inode i).type = (d.inode i).type
  ind : d'.ind = d.ind

theorem Frame.refl (i : Nat) (d : Disk) : Frame i d d := ⟨fun _ _ => rfl, rfl, rfl⟩

theorem Frame.trans {i : Nat} {d'' : Disk} (h₁ : Frame i d d') (h₂ : Frame i d' d'') :
    Frame i d d'' :=
  ⟨fun i' hi => (h₂.other i' hi).trans (h₁.other i' hi), h₂.type.trans h₁.type, h₂.ind.trans h₁.ind⟩

theorem frame_setBit (i : Nat) (v : Bool) : Frame i d (d.setBit x v) := ⟨fun _ _ => rfl, rfl, rfl⟩

theorem frame_setAddr (i : Nat) (k : Fin (NDIRECT + 1)) (a : Nat) : Frame i d (d.setAddr i k a) :=
  ⟨fun i' hi => by simp [setAddr_eq, hi], by simp [setAddr_eq], rfl⟩

/-- The slots of the other inodes read the same. -/
theorem Frame.get_of_ne {i : Nat} (h : Frame i d d') (hs : s.inum ≠ i) : d'.get s = d.get s := by
  cases s <;> simp only [Slot.inum] at hs <;> simp [Disk.get, h.other _ hs, h.ind]

theorem Frame.holds_of_ne {i : Nat} (h : Frame i d d') (hs : s.inum ≠ i) :
    d'.Holds s b ↔ d.Holds s b := by
  simp only [Holds, h.other _ hs, h.get_of_ne hs]

/-- Clearing a direct address empties that slot only. -/
theorem holds_clear_direct {i : Nat} {j : Fin NDIRECT} (s : Slot) (b : Nat) :
    (d.setAddr i j.castSucc 0).Holds s b ↔ d.Holds s b ∧ s ≠ .direct i j := by
  by_cases hs : s.inum = i
  · have hne : INDIRECT ≠ j.castSucc := (Fin.castSucc_lt_last j).ne'
    cases s with
    | direct i' j' =>
      simp only [Slot.inum] at hs
      subst hs
      by_cases hjj : j' = j
      · subst hjj
        simp [Holds, setAddr_eq]
        omega
      · have hjj' : j'.castSucc ≠ j.castSucc := fun h => hjj (Fin.castSucc_injective _ h)
        simp [Holds, setAddr_eq, hjj, hjj']
    | indirect i' =>
      simp only [Slot.inum] at hs
      subst hs
      simp [Holds, setAddr_eq, Function.update_of_ne hne]
    | entry i' j' =>
      simp only [Slot.inum] at hs
      subst hs
      simp [Holds, setAddr_eq, Function.update_of_ne hne]
  · have hne : s ≠ .direct i j := by
      rintro rfl
      exact hs rfl
    rw [(frame_setAddr i _ 0).holds_of_ne hs]
    simp [hne]

/-- Clearing the indirect address empties that slot and every entry. -/
theorem holds_clear_indirect {i : Nat} (s : Slot) (b : Nat) :
    (d.setAddr i INDIRECT 0).Holds s b ↔ d.Holds s b ∧ ¬ (s = .indirect i ∨ ∃ j, s = .entry i j) := by
  by_cases hs : s.inum = i
  · cases s with
    | direct i' j' =>
      simp only [Slot.inum] at hs
      subst hs
      simp [Holds, setAddr_eq, (Fin.castSucc_lt_last j').ne]
    | indirect i' =>
      simp only [Slot.inum] at hs
      subst hs
      simp [Holds, setAddr_eq]
      omega
    | entry i' j' =>
      simp only [Slot.inum] at hs
      subst hs
      simp [Holds, setAddr_eq]
      omega
  · have hne : ¬ (s = .indirect i ∨ ∃ j, s = .entry i j) := by
      rintro (rfl | ⟨j, rfl⟩) <;> exact hs rfl
    rw [(frame_setAddr i _ 0).holds_of_ne hs]
    simp [hne]

/-- One round of `itrunc`'s first loop. -/
theorem Accounted.freeDirect (h : Accounted d) {i : Nat} (hi : (d.inode i).type ≠ 0)
    (j : Fin NDIRECT) :
    ∃ d', d.freeDirect i j = some d' ∧ Accounted d' ∧ Frame i d d' ∧
      (d'.inode i).addrs j.castSucc = 0 ∧
      ∀ k, k ≠ j.castSucc → (d'.inode i).addrs k = (d.inode i).addrs k := by
  by_cases ha : (d.inode i).addrs j.castSucc = 0
  · exact ⟨d, by simp [Disk.freeDirect, ha], h, Frame.refl i d, ha, fun _ _ => rfl⟩
  · have ht : d.Holds (.direct i j) ((d.inode i).addrs j.castSucc) := ⟨hi, rfl, ha⟩
    have hbit := h.bitmap_of_holds ht
    refine ⟨((d.setBit ((d.inode i).addrs j.castSucc) false).setAddr i j.castSucc 0), ?_, ?_,
      (frame_setBit i false).trans (frame_setAddr i _ 0), by simp [setAddr_eq], fun k hk => ?_⟩
    · simp [Disk.freeDirect, ha, bfree_of_marked hbit]
    · exact h.release ht (fun s b => by simp [holds_clear_direct]) rfl
    · simp [setAddr_eq, Function.update_of_ne hk]

/-- `itrunc`'s first loop frees every direct block and clears its address. -/
theorem Accounted.freeDirects (h : Accounted d) {i : Nat} (hi : (d.inode i).type ≠ 0) :
    ∃ d', (List.finRange NDIRECT).foldlM (fun d j => d.freeDirect i j) d = some d' ∧
      Accounted d' ∧ Frame i d d' ∧ (∀ j : Fin NDIRECT, (d'.inode i).addrs j.castSucc = 0) ∧
      (d'.inode i).addrs INDIRECT = (d.inode i).addrs INDIRECT := by
  -- the invariant: the addresses done so far are clear, the indirect one untouched
  obtain ⟨d', hd', ha, hf, hdone, hind⟩ := Option.foldlM_of_step
    (fun (done : List (Fin NDIRECT)) (d' : Disk) => Accounted d' ∧ Frame i d d' ∧
      (∀ j ∈ done, (d'.inode i).addrs (Fin.castSucc j) = 0) ∧
      (d'.inode i).addrs INDIRECT = (d.inode i).addrs INDIRECT)
    (List.finRange NDIRECT) (fun done x _ a _ ⟨ha, hf, hdone, hind⟩ => by
      obtain ⟨a', ha', hacc, hf', hx, hrest⟩ := ha.freeDirect (hf.type ▸ hi) x
      refine ⟨a', ha', hacc, hf.trans hf', fun j hj => ?_, ?_⟩
      · rcases List.mem_append.mp hj with hj | hj
        · by_cases hjx : j = x
          · exact hjx ▸ hx
          · rw [hrest _ (fun h => hjx (Fin.castSucc_injective _ h))]
            exact hdone j hj
        · obtain rfl := List.mem_singleton.mp hj
          exact hx
      · rw [hrest _ (Fin.castSucc_lt_last x).ne']
        exact hind)
    ⟨h, Frame.refl i d, fun _ hj => by simp at hj, rfl⟩
  exact ⟨d', hd', ha, hf, fun j => hdone j (List.mem_finRange j), hind⟩

/-- The entries of the indirect block, freed one by one while the block still
holds them: the bitmap marks the blocks of the slots not yet done. -/
theorem Accounted.freeEntries (h : Accounted d) {i : Nat} (hi : (d.inode i).type ≠ 0)
    (hia : (d.inode i).addrs INDIRECT ≠ 0) :
    ∃ d', (List.finRange NINDIRECT).foldlM (fun d' j =>
        if d.ind ((d.inode i).addrs INDIRECT) j = 0 then pure d'
        else d'.bfree (d.ind ((d.inode i).addrs INDIRECT) j)) d = some d' ∧
      d'.inode = d.inode ∧ d'.ind = d.ind ∧ d'.Marks (fun s => ∃ j, s = .entry i j) (fun _ => False) := by
  have hsame : ∀ {a : Disk}, a.inode = d.inode → a.ind = d.ind → ∀ s b, a.Holds s b ↔ d.Holds s b :=
    fun hin hind s b => holds_congr (by simp [hin]) (by simp [hin]) hind
  obtain ⟨d', hd', hin, hind, hm⟩ : ∃ d', (List.finRange NINDIRECT).foldlM (fun d' j =>
        if d.ind ((d.inode i).addrs INDIRECT) j = 0 then pure d'
        else d'.bfree (d.ind ((d.inode i).addrs INDIRECT) j)) d = some d' ∧
      d'.inode = d.inode ∧ d'.ind = d.ind ∧
      d'.Marks (fun s => ∃ j ∈ List.finRange NINDIRECT, s = .entry i j) (fun _ => False) :=
    Option.foldlM_of_step
    (fun (done : List (Fin NINDIRECT)) (a : Disk) => a.inode = d.inode ∧ a.ind = d.ind ∧
      a.Marks (fun s => ∃ j ∈ done, s = .entry i j) (fun _ => False))
    (List.finRange NINDIRECT) (fun done x rest a hxs ⟨hin, hind, hm⟩ => by
      -- `x` is not done yet: the items are distinct
      have hx : x ∉ done := by
        have hnd := hxs ▸ List.nodup_finRange NINDIRECT
        exact fun hx => (List.nodup_append.mp hnd).2.2 x hx x List.mem_cons_self rfl
      have hE : ∀ s : Slot, (∃ j ∈ done ++ [x], s = .entry i j) ↔
          (∃ j ∈ done, s = .entry i j) ∨ s = .entry i x := by
        intro s
        simp only [List.mem_append, List.mem_singleton, or_and_right, exists_or, exists_eq_left]
      have hget : a.get (.entry i x) = d.ind ((d.inode i).addrs INDIRECT) x := by
        simp [Disk.get, hin, hind, hia]
      by_cases h0 : d.ind ((d.inode i).addrs INDIRECT) x = 0
      · refine ⟨a, by simp [h0], hin, hind, hm.skip hE fun b hb => ?_⟩
        exact hb.2.2 (hb.2.1.symm.trans (hget.trans h0))
      · have ht : a.Holds (.entry i x) (d.ind ((d.inode i).addrs INDIRECT) x) :=
          ⟨by simpa [hin] using hi, hget, h0⟩
        have hl : Layout a := h.toLayout.mono fun hs => (hsame hin hind _ _).mp hs
        have hbit : a.bitmap (d.ind ((d.inode i).addrs INDIRECT) x) = true :=
          (hm _ (hl.range ht).2).mpr (.inr (.inl ⟨_, fun ⟨j, hj, he⟩ => hx (by
            cases he
            exact hj), ht⟩))
        exact ⟨a.setBit (d.ind ((d.inode i).addrs INDIRECT) x) false,
          by simp [h0, bfree_of_marked hbit], hin, hind, hm.clear hl hE ht id⟩)
    ⟨rfl, rfl, by simpa using h.marks_iff⟩
  refine ⟨d', hd', hin, hind, fun c hc => ?_⟩
  rw [hm c hc]
  simp [List.mem_finRange]

/-- The rest of `itrunc`'s work on the indirect block. -/
theorem Accounted.freeIndirect (h : Accounted d) {i : Nat} (hi : (d.inode i).type ≠ 0)
    (hdir : ∀ j : Fin NDIRECT, (d.inode i).addrs j.castSucc = 0) :
    ∃ d', d.freeIndirect i = some d' ∧ Accounted d' ∧ Frame i d d' ∧
      ∀ k, (d'.inode i).addrs k = 0 := by
  by_cases hia : (d.inode i).addrs INDIRECT = 0
  · refine ⟨d, by simp [Disk.freeIndirect, hia], h, Frame.refl i d, fun k => ?_⟩
    rcases Fin.eq_castSucc_or_eq_last k with ⟨j, rfl⟩ | rfl
    · exact hdir j
    · exact hia
  · obtain ⟨d₁, hd₁, hin, hind, hm⟩ := h.freeEntries hi hia
    -- the indirect block, held by its slot, is still marked
    have ht : d₁.Holds (.indirect i) ((d.inode i).addrs INDIRECT) := ⟨by simpa [hin] using hi, by simp [hin], hia⟩
    have hl : Layout d₁ := h.toLayout.mono fun hs =>
      (holds_congr (by simp [hin]) (by simp [hin]) hind).mp hs
    have hbit : d₁.bitmap ((d.inode i).addrs INDIRECT) = true :=
      (hm _ (hl.range ht).2).mpr (.inr (.inl ⟨_, by simp, ht⟩))
    have hm₂ := hm.clear hl (fun s => Iff.rfl) ht id
    refine ⟨((d₁.setBit ((d.inode i).addrs INDIRECT) false).setAddr i INDIRECT 0), ?_, ?_, ?_, ?_⟩
    · simp only [Disk.freeIndirect, hia, if_false, hd₁]
      simp [bfree_of_marked hbit]
    · refine Accounted.of_marks (hl.mono fun hs => ?_) (hm₂.drop (fun s b => ?_) rfl)
      · exact ((holds_clear_indirect _ _).mp hs).1
      · rw [holds_clear_indirect, or_comm]
    · exact ⟨fun i' hi' => by simp [setAddr_eq, hi', hin], by simp [setAddr_eq, hin],
        by simp [setAddr_eq, hind]⟩
    · intro k
      rcases Fin.eq_castSucc_or_eq_last k with ⟨j, rfl⟩ | rfl
      · simp [setAddr_eq, (Fin.castSucc_lt_last j).ne, hin, hdir]
      · simp [setAddr_eq]

/-- `itrunc` of an allocated inode succeeds: no `bfree` panics. It frees every
block the inode holds, clears its addresses and size, and keeps the
accounting. -/
theorem Accounted.itrunc (h : Accounted d) {i : Nat} (hi : (d.inode i).type ≠ 0) :
    ∃ d', d.itrunc i = some d' ∧ Accounted d' ∧ Frame i d d' ∧ (d'.inode i).size = 0 ∧
      ∀ k, (d'.inode i).addrs k = 0 := by
  obtain ⟨d₁, hd₁, h₁, hf₁, hdir, -⟩ := h.freeDirects hi
  obtain ⟨d₂, hd₂, h₂, hf₂, haddrs⟩ := h₁.freeIndirect (hf₁.type ▸ hi) hdir
  have hf : Frame i d d₂ := hf₁.trans hf₂
  refine ⟨d₂.setInode i { d₂.inode i with size := 0 }, by simp [Disk.itrunc, hd₁, hd₂], ?_, ?_,
    by simp, fun k => by simp [haddrs]⟩
  · refine h₂.congr (fun s b => holds_congr (fun i' => ?_) (fun i' => ?_) rfl) rfl
    all_goals
      by_cases hii : i' = i
      · subst hii
        simp
      · simp [hii]
  · exact ⟨fun i' hi' => by simp [hi', hf.other i' hi'], by simp [hf.type], by simp [hf.ind]⟩

/-- `ifree` of an allocated inode succeeds and keeps the accounting; the inode
becomes free, the others stay as they were, and every block it held is free
in the bitmap. -/
theorem Accounted.ifree (h : Accounted d) {i : Nat} (hi : (d.inode i).type ≠ 0) :
    ∃ d', d.ifree i = some d' ∧ Accounted d' ∧ (d'.inode i).type = 0 ∧ (d'.inode i).size = 0 ∧
      (∀ i', i' ≠ i → d'.inode i' = d.inode i') ∧ d'.ind = d.ind ∧
      ∀ s b, d.Holds s b → s.inum = i → d'.bitmap b = false := by
  obtain ⟨d₁, hd₁, h₁, hf, hsize, haddrs⟩ := h.itrunc hi
  -- inode `i` holds nothing once truncated, nor once free
  have hh : ∀ s b, (d₁.setInode i { d₁.inode i with type := 0 }).Holds s b ↔ d₁.Holds s b := by
    intro s b
    by_cases hs : s.inum = i
    · exact iff_of_false (fun h' => h'.1 (by rw [hs]; simp)) (not_holds_of_addrs haddrs hs)
    · exact holds_setInode_of_ne hs
  have h' := h₁.congr hh rfl
  refine ⟨d₁.setInode i { d₁.inode i with type := 0 }, by simp [Disk.ifree, hd₁], h', by simp,
    by simp [hsize], fun i' hi' => by simp [hi', hf.other i' hi'], by simp [hf.ind], ?_⟩
  intro s b hsb hsi
  have hb := h.range hsb
  refine Bool.eq_false_iff.mpr fun hbit => ?_
  rcases (h'.marks b hb.2).mp hbit with hlt | ⟨s', hs'⟩
  · omega
  · -- a slot holding `b` afterwards is another inode's, so it held `b` before
    have hs'i : s'.inum ≠ i := fun he => hs'.1 (by rw [he]; simp)
    have hold : d.Holds s' b := (hf.holds_of_ne hs'i).mp ((hh s' b).mp hs')
    exact hs'i (h.unique hold hsb ▸ hsi)

/-- What `ialloc` returns: a free dinode from `1` below `NINODES`, zeroed and
given the type. -/
theorem ialloc_spec {type inum : Nat} (h : d.ialloc type = some (inum, d')) :
    (d.inode inum).type = 0 ∧ 1 ≤ inum ∧ inum < NINODES ∧
      d' = d.setInode inum { Dinode.zero with type := type } := by
  unfold Disk.ialloc at h
  split at h
  · cases h
  · next inum' hfind =>
    cases h
    have hfree := List.find?_some hfind
    have hmem := List.mem_range'_1.mp (List.mem_of_find?_eq_some hfind)
    refine ⟨by simpa using hfree, hmem.1, ?_, rfl⟩
    unfold NINODES at hmem ⊢
    omega

/-- A free dinode, given a new type and no blocks: it held nothing and holds
nothing. -/
theorem Accounted.setInode_free (h : Accounted d) {i : Nat} {x : Dinode} (h0 : (d.inode i).type = 0)
    (hx : ∀ k, x.addrs k = 0) : Accounted (d.setInode i x) := by
  refine h.congr (fun s b => ?_) rfl
  by_cases hs : s.inum = i
  · exact iff_of_false (not_holds_of_addrs (by simpa using hx) hs) fun h' => h'.1 (hs ▸ h0)
  · exact holds_setInode_of_ne hs

/-- A new size changes no slot. -/
theorem Accounted.setSize (h : Accounted d) (i o : Nat) :
    Accounted (d.setInode i { d.inode i with size := o }) := by
  refine h.congr (fun s b => holds_congr (fun i' => ?_) (fun i' => ?_) rfl) rfl
  all_goals
    by_cases hii : i' = i
    · subst hii
      simp
    · simp [hii]

/-- `ialloc` keeps the accounting: the inode it takes was free, and it comes
back zeroed. -/
theorem Accounted.ialloc (h : Accounted d) {type inum : Nat} (hb : d.ialloc type = some (inum, d')) :
    Accounted d' := by
  obtain ⟨h0, -, -, rfl⟩ := ialloc_spec hb
  exact h.setInode_free h0 fun _ => rfl

end Xv6.Fs
