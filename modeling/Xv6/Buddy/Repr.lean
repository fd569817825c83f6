import Xv6.Buddy.Basic
import Xv6.Lib.BuddyTree

/-!
# The allocator's state as a buddy tree

The bits and free lists of a `Bd` represent a `BuddyTree` of height `MAXSIZE`,
kept as a ghost `t` beside the ghost contents `fl k` of each free list:

* `BitsRepr s t`: only existing blocks are in the tree; a block's alloc bit is
  set exactly when it is used or split, its split bit (from size 1 on) exactly
  when it is split.
* `ListRepr s fl t`: the free lists are circular lists in one memory, apart from
  each other, and list `k` holds the addresses of the free blocks of size `k`.
* `Inv s fl t P E live`: both, with a coalesced tree whose used blocks are the
  marked leaves (the metadata `[0, P)` and the part `[E, 2^MAXSIZE)` past the
  end) and the blocks of `live`, the allocations that are out.

The write lemmas (`isAlloc_writeAlloc` and its siblings) say what one bit
write does to the bits of every block; `BitsRepr.writeAlloc`,
`BitsRepr.writeSplit`, `ListRepr.push` and `ListRepr.remove` turn each write
and list operation into one retagging of the tree. From `Inv`,
`Inv.fresh` shows that a block pushed from inside a live block is on no list,
which is what a push needs.
-/

namespace Xv6.Buddy

open Intrusive BuddyTree

namespace Bd

/-! ## Writing one bit -/

section Writes

variable {s : Bd} {k b k' b' : Nat}

theorem isAlloc_writeAlloc (hkb : s.InRange k b) (hkb₂ : s.InRange k' b') (v : Bool) :
    ({ s with bits := Function.update s.bits (8 * s.alloc k + b) v } : Bd).isAlloc k' b' =
      if k' = k ∧ b' = b then v else s.isAlloc k' b' := by
  rw [isAlloc_update]
  exact if_congr (allocBit_inj hkb₂.2 hkb.2) rfl rfl

theorem isSplit_writeAlloc (hkb : s.InRange k b) (hk' : 0 < k') (v : Bool) :
    ({ s with bits := Function.update s.bits (8 * s.alloc k + b) v } : Bd).isSplit k' b' =
      s.isSplit k' b' := by
  rw [isSplit_update]
  exact if_neg (allocBit_ne_splitBit hkb.1 hk' hkb.2).symm

theorem isAlloc_writeSplit (hk : 0 < k) (hkb₂ : s.InRange k' b') (v : Bool) :
    ({ s with bits := Function.update s.bits (8 * s.split k + b) v } : Bd).isAlloc k' b' =
      s.isAlloc k' b' := by
  rw [isAlloc_update]
  exact if_neg (allocBit_ne_splitBit hkb₂.1 hk hkb₂.2)

theorem isSplit_writeSplit (hk : 0 < k) (hkb : s.InRange k b) (hk' : 0 < k') (hkb₂ : s.InRange k' b')
    (v : Bool) :
    ({ s with bits := Function.update s.bits (8 * s.split k + b) v } : Bd).isSplit k' b' =
      if k' = k ∧ b' = b then v else s.isSplit k' b' := by
  rw [isSplit_update]
  exact if_congr (splitBit_inj hk' hk hkb₂.2 hkb.2) rfl rfl

end Writes

/-! ## The representation -/

/-- The bits of block `(k, b)` say tag `v`. -/
def BitsAgree (s : Bd) (k b : Nat) (v : Tag) : Prop :=
  (s.isAlloc k b = true ↔ v = .used ∨ v = .split) ∧ (0 < k → (s.isSplit k b = true ↔ v = .split))

/-- The bit arrays represent the tags `t`. -/
structure BitsRepr (s : Bd) (t : Nat → Nat → Tag) : Prop where
  range : ∀ k b, t k b ≠ .none → s.InRange k b
  agree : ∀ k b, s.InRange k b → s.BitsAgree k b (t k b)

/-- The free lists hold the free blocks of `t`: list `k` is `fl k`, and the
lists of the sizes `k < nsizes` share the memory of links without sharing a
node. -/
structure ListRepr (s : Bd) (fl : Nat → List Nat) (t : Nat → Nat → Tag) : Prop where
  family : Family (fun k => k < s.nsizes) s.links s.free fl
  mem : ∀ k a, a ∈ fl k ↔ ∃ b, a = s.addr k b ∧ t k b = .free

section Repr

variable {s : Bd} {t : Nat → Nat → Tag} {fl : Nat → List Nat} {k b : Nat}

/-- The bits do not read the free lists. -/
theorem BitsRepr.links (h : s.BitsRepr t) (m : Mem Nat) : ({ s with links := m } : Bd).BitsRepr t :=
  ⟨h.range, h.agree⟩

/-- The free lists do not read the bits. -/
theorem ListRepr.bits (h : s.ListRepr fl t) (bits : Nat → Bool) :
    ({ s with bits := bits } : Bd).ListRepr fl t :=
  ⟨h.family, h.mem⟩

/-- New links represent the lists when they form the family of lists `fl`. -/
theorem ListRepr.of_links {m : Mem Nat} (hf : Family (fun k => k < s.nsizes) m s.free fl)
    (hm : ∀ k a, a ∈ fl k ↔ ∃ b, a = s.addr k b ∧ t k b = .free) : ({ s with links := m } : Bd).ListRepr fl t :=
  ⟨hf, hm⟩

/-- Retagging one block keeps the representation when the new bits of that
block say the new tag and the bits of every other block are as they were. -/
theorem BitsRepr.set (h : s.BitsRepr t) {bits : Nat → Bool} {v : Tag} (hkb : s.InRange k b)
    (hAlloc : ∀ k' b', s.InRange k' b' → ¬(k' = k ∧ b' = b) →
      ({ s with bits := bits } : Bd).isAlloc k' b' = s.isAlloc k' b')
    (hSplit : ∀ k' b', s.InRange k' b' → 0 < k' → ¬(k' = k ∧ b' = b) →
      ({ s with bits := bits } : Bd).isSplit k' b' = s.isSplit k' b')
    (hv : ({ s with bits := bits } : Bd).BitsAgree k b v) :
    ({ s with bits := bits } : Bd).BitsRepr (BuddyTree.set t k b v) := by
  refine ⟨fun k' b' hne => ?_, fun k' b' hkb₂ => ?_⟩
  · by_cases hkb' : k' = k ∧ b' = b
    · obtain ⟨rfl, rfl⟩ := hkb'
      exact hkb
    · exact h.range k' b' (by rwa [set_of_ne hkb'] at hne)
  · by_cases hkb' : k' = k ∧ b' = b
    · obtain ⟨rfl, rfl⟩ := hkb'
      rw [set_same]
      exact hv
    · rw [set_of_ne hkb']
      obtain ⟨hA, hS⟩ := h.agree k' b' hkb₂
      refine ⟨by rw [hAlloc k' b' hkb₂ hkb']; exact hA, fun hk' => ?_⟩
      rw [hSplit k' b' hkb₂ hk' hkb']
      exact hS hk'

/-- Retagging a block whose bits already say the new tag. -/
theorem BitsRepr.retag (h : s.BitsRepr t) {v : Tag} (hkb : s.InRange k b) (hv : s.BitsAgree k b v) :
    s.BitsRepr (BuddyTree.set t k b v) :=
  h.set hkb (fun _ _ _ _ => rfl) (fun _ _ _ _ _ => rfl) hv

/-- Writing the alloc bit of a block retags that block. -/
theorem BitsRepr.writeAlloc (h : s.BitsRepr t) {v : Bool} {tag : Tag} (hkb : s.InRange k b)
    (hv : v = true ↔ tag = .used ∨ tag = .split) (hs : 0 < k → (s.isSplit k b = true ↔ tag = .split)) :
    ({ s with bits := Function.update s.bits (8 * s.alloc k + b) v } : Bd).BitsRepr
      (BuddyTree.set t k b tag) := by
  refine h.set hkb (fun k' b' hkb₂ hne => ?_) (fun k' b' _ hk' _ => isSplit_writeAlloc hkb hk' v) ⟨?_, ?_⟩
  · rw [isAlloc_writeAlloc hkb hkb₂, if_neg hne]
  · rw [isAlloc_writeAlloc hkb hkb, if_pos ⟨rfl, rfl⟩]
    exact hv
  · intro hk
    rw [isSplit_writeAlloc hkb hk]
    exact hs hk

/-- Writing the split bit of a block from size 1 on retags that block. -/
theorem BitsRepr.writeSplit (h : s.BitsRepr t) {v : Bool} {tag : Tag} (hk : 0 < k) (hkb : s.InRange k b)
    (ha : s.isAlloc k b = true ↔ tag = .used ∨ tag = .split) (hv : v = true ↔ tag = .split) :
    ({ s with bits := Function.update s.bits (8 * s.split k + b) v } : Bd).BitsRepr
      (BuddyTree.set t k b tag) := by
  refine h.set hkb (fun k' b' hkb₂ _ => isAlloc_writeSplit hk hkb₂ v) (fun k' b' hkb₂ hk' hne => ?_) ⟨?_, ?_⟩
  · rw [isSplit_writeSplit hk hkb hk' hkb₂, if_neg hne]
  · rw [isAlloc_writeSplit hk hkb]
    exact ha
  · intro _
    rw [isSplit_writeSplit hk hkb hk hkb, if_pos ⟨rfl, rfl⟩]
    exact hv

/-- A retagging that makes no block free and no free block anything else
keeps the free lists. -/
theorem ListRepr.retag (h : s.ListRepr fl t) {t' : Nat → Nat → Tag}
    (ht : ∀ k b, t' k b = .free ↔ t k b = .free) : s.ListRepr fl t' := by
  refine ⟨h.family, fun k a => ?_⟩
  rw [h.mem]
  simp only [ht]

/-- Pushing the address of a block that becomes free, when it is on no list
and no list head. -/
theorem ListRepr.push (h : s.ListRepr fl t) {t' : Nat → Nat → Tag} (hk : k < s.nsizes)
    (hfresh : ∀ i, i < s.nsizes → s.addr k b ∉ s.free i :: fl i)
    (ht : ∀ k' b', t' k' b' = .free ↔ t k' b' = .free ∨ (k' = k ∧ b' = b)) :
    ({ s with links := Intrusive.push s.links (s.free k) (s.addr k b) } : Bd).ListRepr
      (Function.update fl k (s.addr k b :: fl k)) t' := by
  refine ⟨h.family.push_of_fresh hk hfresh, fun k' a => ?_⟩
  show a ∈ Function.update fl k (s.addr k b :: fl k) k' ↔ ∃ b', a = s.addr k' b' ∧ t' k' b' = .free
  by_cases hk' : k' = k
  · subst hk'
    rw [Function.update_self, List.mem_cons, h.mem]
    constructor
    · rintro (rfl | ⟨b', rfl, hb'⟩)
      · exact ⟨b, rfl, (ht k' b).mpr (Or.inr ⟨rfl, rfl⟩)⟩
      · exact ⟨b', rfl, (ht k' b').mpr (Or.inl hb')⟩
    · rintro ⟨b', rfl, hb'⟩
      rcases (ht k' b').mp hb' with hb' | ⟨-, rfl⟩
      · exact Or.inr ⟨b', rfl, hb'⟩
      · exact Or.inl rfl
  · rw [Function.update_of_ne hk', h.mem]
    simp only [ht, hk', false_and, or_false]

/-- Unlinking the address of a free block that stops being free. -/
theorem ListRepr.remove (h : s.ListRepr fl t) {t' : Nat → Nat → Tag} (hk : k < s.nsizes)
    (hb : t k b = .free) (ht : ∀ k' b', t' k' b' = .free ↔ t k' b' = .free ∧ ¬(k' = k ∧ b' = b)) :
    ({ s with links := Intrusive.remove s.links (s.addr k b) } : Bd).ListRepr
      (Function.update fl k ((fl k).erase (s.addr k b))) t' := by
  have hmem : s.addr k b ∈ fl k := (h.mem k _).mpr ⟨b, rfl, hb⟩
  refine ⟨h.family.remove_of_mem hk hmem, fun k' a => ?_⟩
  show a ∈ Function.update fl k ((fl k).erase (s.addr k b)) k' ↔ ∃ b', a = s.addr k' b' ∧ t' k' b' = .free
  by_cases hk' : k' = k
  · subst hk'
    have hnd : (fl k').Nodup := (List.nodup_cons.mp (h.family.circ k' hk).nodup).2
    rw [Function.update_self, hnd.mem_erase_iff, h.mem]
    constructor
    · rintro ⟨hne, b', rfl, hb'⟩
      exact ⟨b', rfl, (ht k' b').mpr ⟨hb', fun hkb => hne (by rw [hkb.2])⟩⟩
    · rintro ⟨b', rfl, hb'⟩
      obtain ⟨hb', hne⟩ := (ht k' b').mp hb'
      exact ⟨fun heq => hne ⟨rfl, s.addr_inj.mp heq⟩, b', rfl, hb'⟩
  · rw [Function.update_of_ne hk', h.mem]
    simp only [ht, hk', false_and, not_false_eq_true, and_true]

end Repr

/-! ## The invariant -/

/-- Leaf `x` is marked allocated by `bd_init`: it lies in the metadata `[0, P)`
or past the end `[E, NBLK(0))`. -/
def Marked (s : Bd) (P E x : Nat) : Prop := x < NBLK s.nsizes 0 ∧ (x < P ∨ E ≤ x)

instance (s : Bd) (P E x : Nat) : Decidable (s.Marked P E x) := inferInstanceAs (Decidable (_ ∧ _))

/-- The allocator represents a coalesced buddy tree whose used blocks are the
marked leaves and the live allocations `live`, as pairs of size and index. The
metadata `[0, P)` holds the list heads, and `[P, E)` is the memory it manages. -/
structure Inv (s : Bd) (fl : Nat → List Nat) (t : Nat → Nat → Tag) (P E : Nat)
    (live : List (Nat × Nat)) : Prop where
  bits : s.BitsRepr t
  lists : s.ListRepr fl t
  tree : Tree s.MAXSIZE t
  coalesced : Coalesced s.MAXSIZE t
  used : ∀ k b, t k b = .used ↔ (k = 0 ∧ s.Marked P E b) ∨ (k, b) ∈ live
  live_nodup : live.Nodup
  live_unmarked : ∀ b, (0, b) ∈ live → ¬s.Marked P E b
  nsizes_pos : 0 < s.nsizes
  heads : 2 * s.nsizes ≤ P
  meta_le : P ≤ E
  end_le : E ≤ NBLK s.nsizes 0

/-! ## Facts of the invariant -/

theorem addr_eq_leaf (s : Bd) (k b : Nat) : s.addr k b = s.addr 0 (b * 2 ^ k) := by
  rw [addr, addr, BLK_SIZE, BLK_SIZE, Nat.pow_zero, Nat.one_mul, Nat.mul_assoc]

theorem free_eq_addr (s : Bd) (i : Nat) : s.free i = s.addr 0 (2 * i) := by
  rw [free, addr, BLK_SIZE, SZ_INFO, LEAF_SIZE]
  omega

theorem NBLK_zero_eq (s : Bd) : NBLK s.nsizes 0 = 2 ^ s.MAXSIZE := by
  rw [NBLK, Nat.sub_zero, MAXSIZE]

/-- Leaf `x` lies in block `b` of size `k`. -/
theorem first_leaf_div (b k : Nat) : b * 2 ^ k / 2 ^ k = b :=
  Nat.mul_div_cancel b (Nat.two_pow_pos k)

section Facts

variable {s : Bd} {fl : Nat → List Nat} {t : Nat → Nat → Tag} {P E : Nat} {live : List (Nat × Nat)}
  {k b j c x : Nat}

theorem Inv.used_of_live (h : s.Inv fl t P E live) (hl : (k, b) ∈ live) : t k b = .used :=
  (h.used k b).mpr (Or.inr hl)

theorem Inv.used_of_marked (h : s.Inv fl t P E live) (hx : s.Marked P E x) : t 0 x = .used :=
  (h.used 0 x).mpr (Or.inl ⟨rfl, hx⟩)

theorem Inv.range_of_live (h : s.Inv fl t P E live) (hl : (k, b) ∈ live) : s.InRange k b :=
  h.bits.range k b (by rw [h.used_of_live hl]; decide)

/-- A leaf of a used block lies in no other piece. -/
theorem Inv.eq_of_atom (h : s.Inv fl t P E live) (hu : t j c = .used) (hx : x / 2 ^ j = c)
    (ha : (t k (x / 2 ^ k)).IsAtom) : k = j ∧ x / 2 ^ k = c := by
  have hj : (t j (x / 2 ^ j)).IsAtom := by rw [hx, hu]; trivial
  obtain rfl := h.tree.atom_unique ha hj
  exact ⟨rfl, hx⟩

/-- No leaf of a used block lies in a free block. -/
theorem Inv.not_free_of_used (h : s.Inv fl t P E live) (hu : t j c = .used) (hx : x / 2 ^ j = c) :
    t k (x / 2 ^ k) ≠ .free := by
  intro hf
  obtain ⟨rfl, hxc⟩ := h.eq_of_atom hu hx (by rw [hf]; trivial)
  rw [hxc, hu] at hf
  cases hf

/-- The leaves of a live block are not marked. -/
theorem Inv.not_marked_of_live (h : s.Inv fl t P E live) (hl : (j, c) ∈ live) (hx : x / 2 ^ j = c) :
    ¬s.Marked P E x := by
  intro hm
  obtain ⟨rfl, hxc⟩ := h.eq_of_atom (h.used_of_live hl) hx
    (show (t 0 (x / 2 ^ 0)).IsAtom by rw [Nat.pow_zero, Nat.div_one, h.used_of_marked hm]; trivial)
  rw [Nat.pow_zero, Nat.div_one] at hxc
  exact h.live_unmarked x (hxc ▸ hl) hm

/-- Leaf `0` lies in the metadata. -/
theorem Inv.marked_zero (h : s.Inv fl t P E live) : s.Marked P E 0 :=
  ⟨NBLK_pos _ _, Or.inl (by have := h.heads; have := h.nsizes_pos; omega)⟩

/-- A live block is below the top: the top block holds leaf `0`. -/
theorem Inv.live_lt (h : s.Inv fl t P E live) (hl : (k, b) ∈ live) : k < s.MAXSIZE := by
  have hk : k ≤ s.MAXSIZE := h.tree.le_of_ne_none (by rw [h.used_of_live hl]; decide)
  refine Nat.lt_of_le_of_ne hk fun hkM => ?_
  subst hkM
  have hb : b = 0 := (h.tree.top b).mp (by rw [h.used_of_live hl]; decide)
  subst hb
  exact h.not_marked_of_live hl (Nat.zero_div _) h.marked_zero

/-- **A block inside a live block is on no free list and no list head**, so it
can be pushed. -/
theorem Inv.fresh (h : s.Inv fl t P E live) (hl : (j, c) ∈ live) (hx : b * 2 ^ k / 2 ^ j = c) :
    ∀ i, i < s.nsizes → s.addr k b ∉ s.free i :: fl i := by
  intro i hi hmem
  rcases List.mem_cons.mp hmem with heq | hmem
  · -- a list head is the address of a marked leaf
    rw [free_eq_addr, addr_eq_leaf, s.addr_inj] at heq
    have hm : s.Marked P E (2 * i) := ⟨by have := h.heads; have := h.meta_le; have := h.end_le; omega,
      Or.inl (by have := h.heads; omega)⟩
    rw [heq] at hx
    exact h.not_marked_of_live hl hx hm
  · obtain ⟨b', heq, hf⟩ := (h.lists.mem i _).mp hmem
    rw [addr_eq_leaf, addr_eq_leaf s i b', s.addr_inj] at heq
    have : t i (b * 2 ^ k / 2 ^ i) ≠ .free := h.not_free_of_used (h.used_of_live hl) hx
    rw [heq, first_leaf_div] at this
    exact this hf

end Facts

end Bd

end Xv6.Buddy
