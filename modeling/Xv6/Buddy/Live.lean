import Xv6.Buddy.Run

/-!
# Live pointers

What a client holding pointers from `bd_malloc` may count on, all from the
partition of the heap into pieces (`Heap.Inv.partition`): the only piece that
holds the byte of a live pointer is its own block (`Heap.Inv.piece_of_live`),
so two live entries with one pointer are one block (`Heap.Inv.ptr_inj`) and a
new `bd_malloc` result is no live pointer (`Heap.Inv.malloc_fresh`). `bd_free`
of a live pointer returns (`Heap.Inv.free_live`), and after it the freed bytes
lie in a free block, so that a `bd_malloc` of at most a leaf hands out a block
again (`Heap.Inv.malloc_after_free`).
-/

namespace Xv6.Buddy

open BuddyTree

/-- In a list where exactly one entry passes a test, two entries that pass it
are equal. -/
theorem eq_of_length_filter_eq_one {α : Type} {l : List α} {p : α → Bool} (h : (l.filter p).length = 1)
    {y z : α} (hy : y ∈ l) (hpy : p y = true) (hz : z ∈ l) (hpz : p z = true) : y = z := by
  obtain ⟨w, hw⟩ := List.length_eq_one_iff.mp h
  have hy' : y ∈ l.filter p := List.mem_filter.mpr ⟨hy, hpy⟩
  have hz' : z ∈ l.filter p := List.mem_filter.mpr ⟨hz, hpz⟩
  rw [hw, List.mem_singleton] at hy' hz'
  rw [hy', hz']

section Live

variable {base end_ : Nat} {H : Heap}

/-- A live pointer lies in the heap `[bd_base, bd_base + HEAP_SIZE)`. -/
theorem Heap.Inv.live_mem_heap (hI : H.Inv base end_) {x : Nat × UInt64} (hx : x ∈ H.live) :
    H.bd.bd_base ≤ x.1 ∧ x.1 < H.bd.bd_base + H.bd.HEAP_SIZE := by
  obtain ⟨fl, t, hinv⟩ := hI.repr
  obtain ⟨-, hp⟩ := hI.ptr x hx
  have hmem : ((H.bd.liveBlock x).1, (H.bd.liveBlock x).2) ∈ H.live.map H.bd.liveBlock :=
    List.mem_map_of_mem hx
  obtain ⟨hk, hb⟩ := hinv.range_of_live hmem
  generalize H.bd.liveBlock x = kb at hp hk hb
  rw [hp, Bd.addr]
  refine ⟨Nat.le_add_right _ _, Nat.add_lt_add_left ?_ _⟩
  -- the block is one of the `2 ^ (MAXSIZE - k)` blocks of its size
  calc kb.2 * BLK_SIZE kb.1 < NBLK H.bd.nsizes kb.1 * BLK_SIZE kb.1 :=
        Nat.mul_lt_mul_of_pos_right hb (BLK_SIZE_pos _)
    _ = H.bd.HEAP_SIZE := by
      rw [NBLK, Bd.HEAP_SIZE, BLK_SIZE, BLK_SIZE, Bd.MAXSIZE, ← Nat.mul_assoc, ← Nat.pow_add,
        Nat.sub_add_cancel (by omega)]

variable {fl : Nat → List Nat} {t : Nat → Nat → Tag} (hI : H.Inv base end_)
  (hinv : H.bd.Inv fl t (initP base end_) (initE base end_) (H.live.map H.bd.liveBlock))
include hI hinv

/-- **The byte of a live pointer lies in its own block** and in no other piece. -/
theorem Heap.Inv.piece_of_live {x : Nat × UInt64} (hx : x ∈ H.live) {w : Nat × Nat}
    (hw : w ∈ H.pieces fl (initMeta base end_) (initEnd base end_)) (hcw : w.1 ≤ x.1 ∧ x.1 < w.1 + w.2) :
    w = (H.bd.addr (H.bd.liveBlock x).1 (H.bd.liveBlock x).2, BLK_SIZE (H.bd.liveBlock x).1) := by
  obtain ⟨hlo, hhi⟩ := hI.live_mem_heap hx
  obtain ⟨-, hp⟩ := hI.ptr x hx
  have hown : (H.bd.addr (H.bd.liveBlock x).1 (H.bd.liveBlock x).2, BLK_SIZE (H.bd.liveBlock x).1) ∈
      H.pieces fl (initMeta base end_) (initEnd base end_) :=
    (hI.mem_pieces hinv).mpr (Or.inr (Or.inl ⟨_, _, List.mem_map_of_mem hx, rfl⟩))
  refine eq_of_length_filter_eq_one (hI.partition hinv hlo hhi) hw (by simpa using hcw) hown ?_
  have hpos := BLK_SIZE_pos (H.bd.liveBlock x).1
  simp only [← hp, decide_eq_true_eq]
  omega

/-- **Live pointers are distinct blocks**: two live entries with one pointer
stand for one block. -/
theorem Heap.Inv.ptr_inj {x y : Nat × UInt64} (hx : x ∈ H.live) (hy : y ∈ H.live) (hxy : x.1 = y.1) :
    H.bd.liveBlock x = H.bd.liveBlock y := by
  have hyp : (y.1, BLK_SIZE ((firstk y.2).getD 0)) ∈ H.pieces fl (initMeta base end_) (initEnd base end_) :=
    List.mem_append_left _ (List.mem_append_right _ (List.mem_map_of_mem hy))
  have hpos := BLK_SIZE_pos ((firstk y.2).getD 0)
  have h := hI.piece_of_live hinv hx hyp ⟨hxy.ge, by dsimp only; omega⟩
  -- the two blocks have one size, and start at one address
  have hk : (H.bd.liveBlock y).1 = (H.bd.liveBlock x).1 := BLK_SIZE_inj (Prod.mk.inj h).2
  simp only [Bd.liveBlock] at hk ⊢
  rw [hk, hxy]

end Live

variable {base end_ : Nat} {H : Heap}

/-- **A new block is no live pointer**: what `bd_malloc` hands out is not held
already. -/
theorem Heap.Inv.malloc_fresh (hI : H.Inv base end_) {n : UInt64} {p : Nat} {s : Bd}
    (hm : bd_malloc H.bd n = some (p, s)) (hp : p ≠ 0) : ∀ x ∈ H.live, x.1 ≠ p := by
  intro x hx hxp
  have hs : H.step (.malloc n) = some ⟨s, (p, n) :: H.live⟩ := by simp [Heap.step, hm, hp]
  have hI' := hI.malloc hs
  obtain ⟨fl, t, hinv⟩ := hI'.repr
  -- in the heap after the call, `x` and the new entry are one block, listed twice
  have hblk := hI'.ptr_inj hinv (List.mem_cons_of_mem _ hx) List.mem_cons_self hxp
  have hnd := hinv.live_nodup
  rw [List.map_cons] at hnd
  exact (List.nodup_cons.mp hnd).1 (hblk ▸ List.mem_map_of_mem hx)

/-- **`bd_free` of a live pointer returns**, and the heap drops an entry with
that pointer. -/
theorem Heap.Inv.free_live (hI : H.Inv base end_) {x : Nat × UInt64} (hx : x ∈ H.live) :
    ∃ y ∈ H.live, y.1 = x.1 ∧ ∃ s, H.step (.free x.1) = some ⟨s, H.live.erase y⟩ := by
  obtain ⟨fl, t, hinv⟩ := hI.repr
  obtain ⟨y, hy⟩ : ∃ y, H.live.find? (fun z => z.1 = x.1) = some y :=
    Option.isSome_iff_exists.mp (List.find?_isSome.mpr ⟨x, hx, by simp⟩)
  have hyl := List.mem_of_find?_eq_some hy
  have hyx : y.1 = x.1 := by simpa using List.find?_some hy
  obtain ⟨-, hptr⟩ := hI.ptr y hyl
  obtain ⟨s, hf, -⟩ := hinv.bd_free (List.mem_map_of_mem hyl : H.bd.liveBlock y ∈ _)
  have hf' : bd_free H.bd x.1 = some s := by
    rw [← hyx, hptr]
    exact hf
  exact ⟨y, hyl, hyx, s, by rw [Heap.step, hy, Option.bind_some, hf', Option.map_some]⟩

/-- **A freed block can be handed out again**: after `bd_free` of a live
pointer its bytes lie in a free block, so a `bd_malloc` of at most a leaf
returns a block. -/
theorem Heap.Inv.malloc_after_free (hI : H.Inv base end_) {p : Nat} {H' : Heap}
    (hs : H.step (.free p) = some H') {n : UInt64} (hn : firstk n = some 0) :
    ∃ a s, bd_malloc H'.bd n = some (a, s) ∧ a ≠ 0 := by
  have hI' := hI.free hs
  obtain ⟨x, hx, hs⟩ := Option.bind_eq_some_iff.mp hs
  obtain ⟨s', hf, rfl⟩ := Option.map_eq_some_iff.mp hs
  have hxl := List.mem_of_find?_eq_some hx
  obtain ⟨fl, t, hinv⟩ := hI.repr
  obtain ⟨fl', t', hinv'⟩ := hI'.repr
  have hframe := bd_free_frame hf
  have haddr := Bd.addr_congr hframe.2
  have hheap : s'.HEAP_SIZE = H.bd.HEAP_SIZE := by rw [Bd.HEAP_SIZE, Bd.MAXSIZE, hframe.1, ← Bd.MAXSIZE]; rfl
  -- after the free, the byte `x.1` lies in some piece
  obtain ⟨hlo, hhi⟩ := hI.live_mem_heap hxl
  have hlo' : s'.bd_base ≤ x.1 := by rw [hframe.2]; exact hlo
  have hhi' : x.1 < s'.bd_base + s'.HEAP_SIZE := by rw [hframe.2, hheap]; exact hhi
  obtain ⟨z, hz, hcz⟩ := hI'.exists_covers hinv' hlo' hhi'
  -- a piece of the heap before the free holds it only as the block of `x`
  have hold : z ∈ H.pieces fl (initMeta base end_) (initEnd base end_) →
      z = (H.bd.addr (H.bd.liveBlock x).1 (H.bd.liveBlock x).2, BLK_SIZE (H.bd.liveBlock x).1) :=
    fun hzH => hI.piece_of_live hinv hxl hzH hcz
  have hne := hI.block_ne hinv (Or.inr (List.mem_map_of_mem hxl))
  obtain ⟨k, b, hkb⟩ : ∃ k b, t' k b = .free := by
    rcases (hI'.mem_pieces hinv').mp hz with ⟨k, b, hkb, -⟩ | ⟨k, b, hl, rfl⟩ | rfl | rfl
    · exact ⟨k, b, hkb⟩
    · -- a live block after the free was live before, and is not the block of `x`
      exfalso
      have hlive : s'.liveBlock = H.bd.liveBlock := Bd.liveBlock_congr hframe.2
      rw [hlive] at hl
      have hlH : (k, b) ∈ H.live.map H.bd.liveBlock :=
        List.map_subset _ (List.erase_subset) hl
      have hzx := hold ((hI.mem_pieces hinv).mpr (Or.inr (Or.inl ⟨k, b, hlH, by rw [haddr]⟩)))
      rw [haddr] at hzx
      have hk : k = (H.bd.liveBlock x).1 := BLK_SIZE_inj (Prod.mk.inj hzx).2
      subst hk
      have hb : b = (H.bd.liveBlock x).2 := H.bd.addr_inj.mp (Prod.mk.inj hzx).1
      subst hb
      exact hinv.live_nodup.not_mem_erase ((perm_map_erase hxl).mem_iff.mpr hl)
    · exfalso
      dsimp only at hold
      rw [hframe.2] at hold
      exact hne.1 (hold ((hI.mem_pieces hinv).mpr (Or.inr (Or.inr (Or.inl rfl))))).symm
    · exfalso
      dsimp only at hold
      rw [hframe.2, hheap] at hold
      exact hne.2 (hold ((hI.mem_pieces hinv).mpr (Or.inr (Or.inr (Or.inr rfl))))).symm
  -- a free block is on its free list, so `bd_malloc` finds a list that is not empty
  obtain ⟨a, s₁, hm, h0, -⟩ := hI'.bd_malloc_spec hn
  refine ⟨a, s₁, hm, fun ha => ?_⟩
  have hk : k < s'.nsizes := (hinv'.bits.range k b (by rw [hkb]; decide)).1
  have hempty := (hinv'.lists.family.circ k hk).isEmpty_iff.mp (h0 ha k (Nat.zero_le k) hk)
  have hmem := (hinv'.lists.mem k _).mpr ⟨b, rfl, hkb⟩
  rw [hempty] at hmem
  exact List.not_mem_nil hmem

end Xv6.Buddy
