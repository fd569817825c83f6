import Xv6.Buddy.Repr

/-!
# `bd_malloc` and `bd_free` as steps of the buddy tree

Each operation of `bd_malloc` and `bd_free` moves the represented tree by one
`BuddyTree` step, and the block the loops carry is kept at the head of `live`:

* `Inv.take`: `lst_pop` and the alloc bit take a free block (`Tree.take`).
* `Inv.splitOne`: one turn of the split loop halves the carried block
  (`Tree.halve`); `Inv.splitDown` is the whole loop.
* `Inv.release`: `bd_free`'s loop stops and pushes the block (`Tree.release`).
* `Inv.merge`: one turn that merges the block with its free buddy
  (`Tree.merge`); `Inv.freeLoop` is the whole loop, whose end at `MAXSIZE` is
  never reached.
* `Inv.size_eq`: `size(p)` finds the size of a live block from the split bits.

`Inv.bd_malloc` and `Inv.bd_free` assemble them: from a state that keeps the
invariant, both calls return, and the state they leave keeps it, with the
allocated block added to `live` or the freed one taken off.
-/

namespace Xv6.Buddy

open Intrusive BuddyTree

theorem buddyOf_eq_sibling (b : Nat) : buddyOf b = sibling b := rfl

namespace Bd

section Blocks

variable {s : Bd} {k c j : Nat}

/-- The buddy of an existing block below `MAXSIZE` exists. -/
theorem InRange.sibling (h : s.InRange k c) (hk : k < s.MAXSIZE) : s.InRange k (BuddyTree.sibling c) :=
  (h.parent (by rw [MAXSIZE] at hk; omega)).half (sibling_div_two c)

/-- The blocks inside an existing block exist. -/
theorem InRange.sub (h : s.InRange k c) (hj : j ≤ k) (b : Nat) (hb : b / 2 ^ (k - j) = c) :
    s.InRange j b := by
  obtain ⟨hk, hc⟩ := h
  refine ⟨by omega, ?_⟩
  unfold NBLK at *
  rw [show s.nsizes - 1 - j = s.nsizes - 1 - k + (k - j) by omega, Nat.pow_add]
  rw [← hb] at hc
  exact (Nat.div_lt_iff_lt_mul (Nat.two_pow_pos _)).mp hc

theorem split_succ_ne_zero (k : Nat) : 0 < k + 1 := Nat.succ_pos k

end Blocks

section Bits

variable {s : Bd} {t : Nat → Nat → Tag} {k b : Nat}

theorem BitsRepr.isAlloc_iff (h : s.BitsRepr t) (hkb : s.InRange k b) :
    s.isAlloc k b = true ↔ t k b = .used ∨ t k b = .split :=
  (h.agree k b hkb).1

theorem BitsRepr.isSplit_iff (h : s.BitsRepr t) (hkb : s.InRange k b) (hk : 0 < k) :
    s.isSplit k b = true ↔ t k b = .split :=
  (h.agree k b hkb).2 hk

/-- A free block and a block that is not there have the same bits. -/
theorem bitsAgree_free_iff_none : s.BitsAgree k b .free ↔ s.BitsAgree k b .none := by
  simp [BitsAgree]

end Bits

/-! ## Moving the carried block -/

section Steps

variable {s : Bd} {fl : Nat → List Nat} {t : Nat → Nat → Tag} {P E : Nat} {live L : List (Nat × Nat)}
  {k b c : Nat}

/-- The invariant reads `live` as a set. -/
theorem Inv.perm (h : s.Inv fl t P E live) {live' : List (Nat × Nat)} (hp : live.Perm live') :
    s.Inv fl t P E live' :=
  { h with
    used := fun k b => by rw [h.used, hp.mem_iff]
    live_nodup := hp.nodup_iff.mp h.live_nodup
    live_unmarked := fun b hb => h.live_unmarked b (hp.mem_iff.mpr hb) }

/-- The carried block `(j, c)` moves to `(j', c')` when the used blocks of the
tree move so. -/
theorem Inv.used_move {j c j' c' : Nat} (h : s.Inv fl t P E ((j, c) :: L)) {t' : Nat → Nat → Tag}
    (ht : ∀ k b, t' k b = .used ↔ (t k b = .used ∧ ¬(k = j ∧ b = c)) ∨ (k = j' ∧ b = c')) :
    ∀ k b, t' k b = .used ↔ (k = 0 ∧ s.Marked P E b) ∨ (k, b) ∈ (j', c') :: L := by
  have hnd := List.nodup_cons.mp h.live_nodup
  intro k b
  rw [ht, h.used, List.mem_cons, List.mem_cons, Prod.mk.injEq, Prod.mk.injEq]
  constructor
  · rintro (⟨hm' | hjc | hL, hne⟩ | hjc')
    · exact Or.inl hm'
    · exact absurd hjc hne
    · exact Or.inr (Or.inr hL)
    · exact Or.inr (Or.inl hjc')
  · rintro (hm' | hjc' | hL)
    · refine Or.inl ⟨Or.inl hm', fun hjc => ?_⟩
      obtain ⟨rfl, rfl⟩ := hjc
      exact h.live_unmarked b (hm'.1 ▸ List.mem_cons_self) hm'.2
    · exact Or.inr hjc'
    · refine Or.inl ⟨Or.inr (Or.inr hL), fun hjc => ?_⟩
      obtain ⟨rfl, rfl⟩ := hjc
      exact hnd.1 hL

/-- **Taking a free block**: `lst_pop` unlinks it and its alloc bit is set. -/
theorem Inv.take (h : s.Inv fl t P E live) (hk : k < s.nsizes) (hf : t k b = .free) :
    ({ s with links := remove s.links (s.addr k b), bits := bit_set s.bits (s.alloc k) b } : Bd).Inv
      (Function.update fl k ((fl k).erase (s.addr k b))) (set t k b .used) P E ((k, b) :: live) := by
  have hkb : s.InRange k b := h.bits.range k b (by rw [hf]; decide)
  have hnotlive : (k, b) ∉ live := fun hl => by rw [h.used_of_live hl] at hf; cases hf
  rw [bit_set_eq]
  refine ⟨(h.bits.writeAlloc hkb (by simp) fun hk0 => ?_).links _, (h.lists.remove hk hf fun k' b' => ?_).bits _,
    h.tree.take hf, h.coalesced.take, fun k' b' => ?_, List.nodup_cons.mpr ⟨hnotlive, h.live_nodup⟩,
    fun b' hb' => ?_, h.nsizes_pos, h.heads, h.meta_le, h.end_le⟩
  · rw [h.bits.isSplit_iff hkb hk0, hf]
    decide
  · by_cases hkb' : k' = k ∧ b' = b
    · obtain ⟨rfl, rfl⟩ := hkb'
      simp
    · rw [set_of_ne hkb']
      exact ⟨fun hf' => ⟨hf', hkb'⟩, And.left⟩
  · by_cases hkb' : k' = k ∧ b' = b
    · obtain ⟨rfl, rfl⟩ := hkb'
      simp
    · rw [set_of_ne hkb', h.used, List.mem_cons, Prod.mk.injEq]
      simp only [hkb', false_or]
      exact Iff.rfl
  · rcases List.mem_cons.mp hb' with hkb' | hl
    · obtain ⟨rfl, rfl⟩ := Prod.mk.injEq _ _ _ _ ▸ hkb'
      exact fun hm => by rw [h.used_of_marked hm] at hf; cases hf
    · exact h.live_unmarked b' hl

/-- One turn of the split loop in closed form. -/
theorem splitOne_eq (s : Bd) (k c : Nat) :
    s.splitOne (s.addr (k + 1) c) (k + 1) =
      { s with
        bits := Function.update (Function.update s.bits (8 * s.split (k + 1) + c) true) (8 * s.alloc k + 2 * c) true
        links := push s.links (s.free k) (s.addr k (2 * c + 1)) } := by
  rw [splitOne, Nat.add_sub_cancel, blk_index_addr, addr_succ, blk_index_addr, addr_add_BLK, bit_set_eq,
    bit_set_eq]

/-- **Halving the carried block**: one turn of `bd_malloc`'s split loop. -/
theorem Inv.splitOne (h : s.Inv fl t P E ((k + 1, c) :: L)) :
    (s.splitOne (s.addr (k + 1) c) (k + 1)).Inv (Function.update fl k (s.addr k (2 * c + 1) :: fl k))
      (splitAt t (k + 1) c) P E ((k, 2 * c) :: L) := by
  have hu := h.used_of_live List.mem_cons_self
  have hc : s.InRange (k + 1) c := h.range_of_live List.mem_cons_self
  have hlo : s.InRange k (2 * c) := hc.half (by omega)
  have hhi : s.InRange k (2 * c + 1) := hc.half (by omega)
  -- the halves were not there
  have hnone : ∀ b', b' / 2 = c → t k b' = .none := fun b' hb' =>
    h.tree.none_below (by rw [hu]; trivial) (Nat.lt_add_one k) (by rwa [Nat.add_sub_cancel_left, Nat.pow_one])
  -- the bits: split the block, allocate the lower half, and the upper half is free already
  have hb₁ : ({ s with bits := Function.update s.bits (8 * s.split (k + 1) + c) true } : Bd).BitsRepr
      (set t (k + 1) c .split) :=
    h.bits.writeSplit (split_succ_ne_zero k) hc (by rw [h.bits.isAlloc_iff hc, hu]; simp) (by simp)
  have hb₂ : ({ s with bits := (Function.update (Function.update s.bits (8 * s.split (k + 1) + c) true)
      (8 * s.alloc k + 2 * c) true) } : Bd).BitsRepr (set (set t (k + 1) c .split) k (2 * c) .used) :=
    hb₁.writeAlloc hlo (by simp) fun hk0 => by
      rw [hb₁.isSplit_iff hlo hk0, set_of_ne (by omega), hnone _ (by omega)]
      decide
  have hb₃ := hb₂.retag hhi (bitsAgree_free_iff_none.mpr (by
    have := hb₂.agree k (2 * c + 1) hhi
    rwa [set_of_ne (by omega), set_of_ne (by omega), hnone _ (by omega)] at this))
  rw [← splitAt_succ] at hb₃
  have hx : (2 * c + 1) * 2 ^ k / 2 ^ (k + 1) = c := by
    rw [Nat.pow_succ, ← Nat.div_div_eq_div_mul, first_leaf_div]
    omega
  rw [splitOne_eq]
  refine ⟨hb₃.links _, (h.lists.push (by have := hc.1; omega) (h.fresh List.mem_cons_self hx)
      fun k' b' => splitAt_eq_free h.tree hu).bits _, h.tree.halve hu, h.coalesced.halve,
    h.used_move fun k' b' => splitAt_eq_used h.tree hu,
    List.nodup_cons.mpr ⟨fun hl => ?_, (List.nodup_cons.mp h.live_nodup).2⟩, fun b' hb' => ?_,
    h.nsizes_pos, h.heads, h.meta_le, h.end_le⟩
  · have := h.used_of_live (List.mem_cons_of_mem _ hl)
    rw [hnone _ (by omega)] at this
    cases this
  · rcases List.mem_cons.mp hb' with hkb' | hl
    · -- the lower half of a live block of size 1 is not a marked leaf
      obtain ⟨rfl, rfl⟩ := Prod.mk.injEq _ _ _ _ ▸ hkb'
      exact h.not_marked_of_live List.mem_cons_self (by omega)
    · exact h.live_unmarked b' (List.mem_cons_of_mem _ hl)

/-- **The split loop** carries the block from size `fk + n` down to `fk`. -/
theorem Inv.splitDown {fk : Nat} :
    ∀ n {s : Bd} {fl : Nat → List Nat} {t : Nat → Nat → Tag} {c : Nat}, s.Inv fl t P E ((fk + n, c) :: L) →
      ∃ fl' t', (s.splitDown (s.addr (fk + n) c) fk n).Inv fl' t' P E ((fk, c * 2 ^ n) :: L)
  | 0, s, fl, t, c, h => ⟨fl, t, by rw [Bd.splitDown, Nat.pow_zero, Nat.mul_one]; exact h⟩
  | n + 1, s, fl, t, c, h => by
    rw [Bd.splitDown, show fk + (n + 1) = fk + n + 1 by omega]
    have h₁ := Inv.splitOne (show s.Inv fl t P E ((fk + n + 1, c) :: L) from h)
    obtain ⟨fl', t', h'⟩ := Inv.splitDown n h₁
    refine ⟨fl', t', ?_⟩
    -- the loop keeps pointing at the lower half
    have hp : (s.splitOne (s.addr (fk + n + 1) c) (fk + n + 1)).addr (fk + n) (2 * c) = s.addr (fk + n + 1) c :=
      (addr_succ s (fk + n) c).symm
    rw [hp] at h'
    rw [show c * 2 ^ (n + 1) = 2 * c * 2 ^ n by
      rw [Nat.pow_succ, Nat.mul_comm (2 ^ n) 2, ← Nat.mul_assoc, Nat.mul_comm c 2]]
    exact h'

/-- **Freeing the carried block**: `bd_free`'s loop stops, its buddy not free,
and pushes it on the list of its size. -/
theorem Inv.release (h : s.Inv fl t P E ((k, c) :: L)) (hsib : k < s.MAXSIZE → t k (sibling c) ≠ .free) :
    ({ s with
        bits := Function.update s.bits (8 * s.alloc k + c) false
        links := push s.links (s.free k) (s.addr k c) } : Bd).Inv
      (Function.update fl k (s.addr k c :: fl k)) (set t k c .free) P E L := by
  have hu := h.used_of_live List.mem_cons_self
  have hc := h.range_of_live List.mem_cons_self
  have hnd := List.nodup_cons.mp h.live_nodup
  have hb : ({ s with bits := Function.update s.bits (8 * s.alloc k + c) false } : Bd).BitsRepr
      (set t k c .free) :=
    h.bits.writeAlloc hc (by simp) fun hk0 => by rw [h.bits.isSplit_iff hc hk0, hu]; decide
  refine ⟨hb.links _, (h.lists.push hc.1 (h.fresh List.mem_cons_self (first_leaf_div c k))
      fun k' b' => ?_).bits _, h.tree.release hu, h.coalesced.release hsib, fun k' b' => ?_, hnd.2,
    fun b' hb' => h.live_unmarked b' (List.mem_cons_of_mem _ hb'), h.nsizes_pos, h.heads, h.meta_le, h.end_le⟩
  · by_cases hkb' : k' = k ∧ b' = c
    · obtain ⟨rfl, rfl⟩ := hkb'
      simp
    · rw [set_of_ne hkb']
      simp [hkb']
  · by_cases hkb' : k' = k ∧ b' = c
    · -- the freed block was live only once, and not a marked leaf
      obtain ⟨rfl, rfl⟩ := hkb'
      rw [set_same]
      refine ⟨fun hfu => (nomatch hfu), ?_⟩
      rintro (⟨rfl, hm⟩ | hl)
      · exact absurd hm (h.live_unmarked b' List.mem_cons_self)
      · exact absurd hl hnd.1
    · rw [set_of_ne hkb', h.used, List.mem_cons, Prod.mk.injEq]
      simp only [hkb', false_or]
      exact Iff.rfl

/-- **Merging the carried block with its free buddy**: one turn of `bd_free`'s
loop that goes on, with the pair carried at the next size. -/
theorem Inv.merge (h : s.Inv fl t P E ((k, c) :: L)) (hk : k < s.MAXSIZE) (hs : t k (sibling c) = .free) :
    ({ s with
        links := remove s.links (s.addr k (sibling c))
        bits := (Function.update (Function.update s.bits (8 * s.alloc k + c) false)
          (8 * s.split (k + 1) + c / 2) false) } : Bd).Inv
      (Function.update fl k ((fl k).erase (s.addr k (sibling c)))) (mergeAt t k c) P E ((k + 1, c / 2) :: L) := by
  have hu := h.used_of_live List.mem_cons_self
  have hc := h.range_of_live List.mem_cons_self
  have hsc := hc.sibling hk
  have hkn : k + 1 < s.nsizes := by rw [MAXSIZE] at hk; omega
  have hpc : s.InRange (k + 1) (c / 2) := hc.parent hkn
  have hP : t (k + 1) (c / 2) = .split := h.tree.parent hk (by rw [hu]; decide)
  have hnd := List.nodup_cons.mp h.live_nodup
  -- the bits: the block leaves, its buddy leaves with no write, the parent is no longer split
  have hb₁ : ({ s with bits := Function.update s.bits (8 * s.alloc k + c) false } : Bd).BitsRepr
      (set t k c .none) :=
    h.bits.writeAlloc hc (by simp) fun hk0 => by rw [h.bits.isSplit_iff hc hk0, hu]; decide
  have hb₂ := hb₁.retag hsc (bitsAgree_free_iff_none.mp (by
    have := hb₁.agree k (sibling c) hsc
    rwa [set_of_ne (fun hkc => sibling_ne c hkc.2), hs] at this))
  have hb₃ := hb₂.writeSplit (split_succ_ne_zero k) hpc
    (by rw [hb₂.isAlloc_iff hpc, set_of_ne (by omega), set_of_ne (by omega), hP]; simp)
    (show (false = true ↔ Tag.used = .split) by simp)
  refine ⟨hb₃.links _, (h.lists.remove (by omega) hs fun k' b' => mergeAt_eq_free hu hs hP).bits _,
    h.tree.merge hk hu hs, h.coalesced.merge, h.used_move fun k' b' => mergeAt_eq_used hu hs,
    List.nodup_cons.mpr ⟨fun hl => ?_, hnd.2⟩, fun b' hb' => ?_, h.nsizes_pos, h.heads, h.meta_le, h.end_le⟩
  · have := h.used_of_live (List.mem_cons_of_mem _ hl)
    rw [hP] at this
    cases this
  · rcases List.mem_cons.mp hb' with hkb' | hl
    · cases (Prod.mk.injEq _ _ _ _ ▸ hkb').1
    · exact h.live_unmarked b' (List.mem_cons_of_mem _ hl)

/-- **`bd_free`'s loop** merges the carried block upwards until its buddy is not
free, and never reaches `MAXSIZE`. -/
theorem Inv.freeLoop :
    ∀ n {s : Bd} {fl : Nat → List Nat} {t : Nat → Nat → Tag} {k c : Nat}, s.Inv fl t P E ((k, c) :: L) →
      n + k = s.MAXSIZE → ∃ fl' t', (s.freeLoop n k (s.addr k c)).Inv fl' t' P E L
  | 0, s, fl, t, k, c, h, hn => absurd (h.live_lt List.mem_cons_self) (by omega)
  | n + 1, s, fl, t, k, c, h, hn => by
    have hk : k < s.MAXSIZE := by omega
    have hu := h.used_of_live List.mem_cons_self
    have hc := h.range_of_live List.mem_cons_self
    have hsc := hc.sibling hk
    -- the buddy's alloc bit, read after clearing the block's own
    have hbud : bit_isset (bit_clear s.bits (s.alloc k) c) (s.alloc k) (sibling c) = s.isAlloc k (sibling c) := by
      rw [bit_clear_eq]
      exact (isAlloc_writeAlloc hc hsc false).trans (if_neg fun hkc => sibling_ne c hkc.2)
    rw [Bd.freeLoop, blk_index_addr, buddyOf_eq_sibling, hbud]
    by_cases hA : s.isAlloc k (sibling c) = true
    · rw [if_pos hA, bit_clear_eq]
      refine ⟨_, _, h.release fun _ hf => ?_⟩
      rcases (h.bits.isAlloc_iff hsc).mp hA with hv | hv <;> rw [hv] at hf <;> cases hf
    · rw [if_neg hA]
      -- the buddy is there, and with its alloc bit clear it is free
      have hthere : t k (sibling c) ≠ .none :=
        (h.tree.child k (sibling c) hk).mpr (by rw [sibling_div_two]; exact h.tree.parent hk (by rw [hu]; decide))
      have hs : t k (sibling c) = .free := by
        rw [h.bits.isAlloc_iff hsc] at hA
        cases hv : t k (sibling c) with
        | none => exact absurd hv hthere
        | free => rfl
        | used => exact absurd (Or.inl hv) hA
        | split => exact absurd (Or.inr hv) hA
      -- the pair starts at the lower of the two addresses
      have hp' : (if sibling c % 2 = 0 then s.addr k (sibling c) else s.addr k c) = s.addr (k + 1) (c / 2) := by
        rw [addr_succ]
        rcases Nat.mod_two_eq_zero_or_one c with h0 | h1
        · rw [sibling, if_pos h0, if_neg (show ¬(c + 1) % 2 = 0 by omega), show 2 * (c / 2) = c by omega]
        · rw [sibling, if_neg (show ¬c % 2 = 0 by omega), if_pos (show (c - 1) % 2 = 0 by omega),
            show 2 * (c / 2) = c - 1 by omega]
      dsimp only
      rw [hp', blk_index_addr, bit_clear_eq, bit_clear_eq]
      exact Inv.freeLoop n (h.merge hk hs) (by show n + (k + 1) = s.MAXSIZE; omega)

/-- `size`'s loop stops at the first size whose parent block is split. -/
theorem sizeLoop_eq (s : Bd) (p k : Nat) (hk : k + 1 < s.nsizes)
    (hclear : ∀ j, j < k → s.isSplit (j + 1) (s.blk_index (j + 1) p) = false)
    (hset : s.isSplit (k + 1) (s.blk_index (k + 1) p) = true) :
    ∀ n j, j ≤ k → k - j < n → s.sizeLoop p n j = some k
  | 0, _, _, hn => absurd hn (Nat.not_lt_zero _)
  | n + 1, j, hj, hn => by
    rw [sizeLoop, if_neg (by omega)]
    rcases Nat.eq_or_lt_of_le hj with rfl | hj
    · have hset' : bit_isset s.bits (s.split (j + 1)) (s.blk_index (j + 1) p) = true := hset
      rw [if_pos hset']
    · have hclear' : ¬bit_isset s.bits (s.split (j + 1)) (s.blk_index (j + 1) p) = true := by
        have := hclear j hj
        simp only [isSplit] at this
        simp [this]
      rw [if_neg hclear']
      exact sizeLoop_eq s p k hk hclear hset n (j + 1) hj (by omega)

/-- **`size(p)` finds the size of a live block**: the blocks around `p` below
its size are not split, the block itself is used, and its parent is split. -/
theorem Inv.size_eq (h : s.Inv fl t P E live) (hl : (k, c) ∈ live) : s.size (s.addr k c) = some k := by
  have hu := h.used_of_live hl
  have hc := h.range_of_live hl
  have hk := h.live_lt hl
  have hkn : k + 1 < s.nsizes := by rw [MAXSIZE] at hk; omega
  refine s.sizeLoop_eq _ k hkn (fun j hj => ?_) ?_ s.nsizes 0 (Nat.zero_le k) (by omega)
  · rw [blk_index_addr_of_le s c (by omega)]
    have hin : s.InRange (j + 1) (c * 2 ^ (k - (j + 1))) := hc.sub (by omega) _ (first_leaf_div c _)
    rw [Bool.eq_false_iff, ne_eq, h.bits.isSplit_iff hin (Nat.succ_pos j)]
    rcases Nat.eq_or_lt_of_le (show j + 1 ≤ k by omega) with hjk | hjk
    · subst hjk
      rw [Nat.sub_self, Nat.pow_zero, Nat.mul_one, hu]
      decide
    · rw [h.tree.none_below (by rw [hu]; trivial) hjk (first_leaf_div c _)]
      decide
  · rw [blk_index_addr_of_ge s c (by omega), show k + 1 - k = 1 by omega, Nat.pow_one]
    exact (h.bits.isSplit_iff (hc.parent hkn) (Nat.succ_pos k)).mpr (h.tree.parent hk (by rw [hu]; decide))

end Steps

/-! ## The two calls -/

section Calls

variable {s : Bd} {fl : Nat → List Nat} {t : Nat → Nat → Tag} {P E : Nat} {live : List (Nat × Nat)}

/-- **`bd_free` of a live block** returns, and the state it leaves represents the
tree without that block. -/
theorem Inv.bd_free {k c : Nat} (h : s.Inv fl t P E live) (hl : (k, c) ∈ live) :
    ∃ s', bd_free s (s.addr k c) = some s' ∧ ∃ fl' t', s'.Inv fl' t' P E (live.erase (k, c)) := by
  refine ⟨_, by rw [Xv6.Buddy.bd_free, h.size_eq hl]; rfl, ?_⟩
  exact Inv.freeLoop (s.MAXSIZE - k) (h.perm (List.perm_cons_erase hl)) (by have := h.live_lt hl; omega)

/-- **`bd_malloc`** returns `0` and leaves the state when every free list from
size `firstk(nbytes)` on is empty, and otherwise a block of that size, which the
state it leaves represents as live. -/
theorem Inv.bd_malloc (h : s.Inv fl t P E live) {nbytes : UInt64} {fk : Nat} (hn : firstk nbytes = some fk) :
    (Xv6.Buddy.bd_malloc s nbytes = some (0, s) ∧ ∀ k, fk ≤ k → k < s.nsizes → fl k = []) ∨
      ∃ b s' fl' t', Xv6.Buddy.bd_malloc s nbytes = some (s.addr fk b, s') ∧
        s'.Inv fl' t' P E ((fk, b) :: live) := by
  obtain ⟨hge, hle, hempty, hne⟩ := s.search_spec (s.nsizes - fk) fk
  by_cases hkn : s.nsizes ≤ s.search (s.nsizes - fk) fk
  · refine Or.inl ⟨by simp only [Xv6.Buddy.bd_malloc, hn, Option.bind_eq_bind, Option.bind_some, if_pos hkn,
      Option.pure_def], fun j hj hjn => ?_⟩
    exact (h.lists.family.circ j hjn).isEmpty_iff.mp (hempty j hj (by omega))
  refine Or.inr ?_
  generalize hk : s.search (s.nsizes - fk) fk = k at hge hkn hne
  have hkn' : k < s.nsizes := by omega
  -- the first non-empty list gives its first block
  have hcirc := h.lists.family.circ k hkn'
  obtain ⟨a, rest, hfl⟩ : ∃ a rest, fl k = a :: rest := by
    cases hfk : fl k with
    | nil => exact absurd (hcirc.isEmpty_iff.mpr hfk) (by rw [hne (by omega)]; decide)
    | cons a rest => exact ⟨a, rest, rfl⟩
  obtain ⟨b, rfl, hfree⟩ := (h.lists.mem k a).mp (by rw [hfl]; exact List.mem_cons_self)
  have hpop := (show Circ s.links (s.free k) (s.addr k b :: rest) from hfl ▸ hcirc).pop_eq
  have h₁ : ({ s with links := remove s.links (s.addr k b), bits := bit_set s.bits (s.alloc k) b } : Bd).Inv
      (Function.update fl k ((fl k).erase (s.addr k b))) (set t k b .used) P E ((fk + (k - fk), b) :: live) := by
    rw [Nat.add_sub_cancel' hge]
    exact h.take hkn' hfree
  obtain ⟨fl', t', h₂⟩ := Inv.splitDown (k - fk) h₁
  rw [Nat.add_sub_cancel' hge] at h₂
  refine ⟨b * 2 ^ (k - fk), _, fl', t', ?_, h₂⟩
  have haddr : s.addr k b = s.addr fk (b * 2 ^ (k - fk)) := by
    rw [addr_eq_leaf, addr_eq_leaf s fk, Nat.mul_assoc, ← Nat.pow_add, Nat.sub_add_cancel hge]
  rw [← haddr]
  simp only [Xv6.Buddy.bd_malloc, hn, Option.bind_eq_bind, Option.bind_some, hk, if_neg hkn, hpop,
    Option.pure_def, blk_index_addr]
  rfl

end Calls

end Bd

end Xv6.Buddy
