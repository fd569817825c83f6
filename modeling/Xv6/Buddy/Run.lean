import Xv6.Buddy.Steps
import Xv6.Buddy.InitInv

/-!
# Runs of the buddy allocator

`bd_init(base, end)` once, then any sequence of `bd_malloc(n)` and `bd_free(p)`,
each `p` a pointer an earlier `bd_malloc` returned and not freed since. A `Heap`
is the allocator together with the pointers it has handed out, each with the
request it answered. `Heap.Inv` says that the allocator represents the buddy
tree of `[P, E)` whose used blocks are the marked leaves and the blocks of the
live pointers; every call keeps it (`Heap.Inv.step`), so every reachable heap
has it (`Reachable.inv`).
-/

namespace Xv6.Buddy

open Intrusive BuddyTree

/-- A call of the allocator's interface. -/
inductive Call where
  | malloc (nbytes : UInt64)
  | free (p : Nat)
deriving Repr, DecidableEq

/-- The allocator and the pointers it has handed out, each with its request. -/
structure Heap where
  bd : Bd
  live : List (Nat × UInt64)

namespace Heap

/-- One call. A `bd_malloc` that returns `0` hands nothing out. A `bd_free` of
a pointer that is not live is outside the contract of `bd_free`, and is `none`,
as is a call where the code does not return. -/
def step (H : Heap) : Call → Option Heap
  | .malloc n => (bd_malloc H.bd n).map fun r => ⟨r.2, if r.1 = 0 then H.live else (r.1, n) :: H.live⟩
  | .free p => (H.live.find? fun x => x.1 = p).bind fun x =>
      (bd_free H.bd p).map fun s => ⟨s, H.live.erase x⟩

/-- A sequence of calls. -/
def run (H : Heap) : List Call → Option Heap
  | [] => some H
  | c :: cs => (H.step c).bind fun H' => H'.run cs

end Heap

/-- A heap that `bd_init(base, end)` and a sequence of calls lead to. -/
def Reachable (base end_ : Nat) (H : Heap) : Prop :=
  ∃ s cs, bd_init base end_ = some s ∧ Heap.run ⟨s, []⟩ cs = some H

namespace Bd

/-- The block a live pointer stands for: at the size `firstk` gives its request,
the block the pointer starts. -/
def liveBlock (s : Bd) (x : Nat × UInt64) : Nat × Nat :=
  ((firstk x.2).getD 0, s.blk_index ((firstk x.2).getD 0) x.1)

/-! ## What the calls keep -/

theorem splitDown_frame (p fk : Nat) :
    ∀ n (s : Bd), (s.splitDown p fk n).nsizes = s.nsizes ∧ (s.splitDown p fk n).bd_base = s.bd_base
  | 0, _ => ⟨rfl, rfl⟩
  | n + 1, s => splitDown_frame p fk n (s.splitOne p (fk + n + 1))

theorem freeLoop_frame :
    ∀ n (s : Bd) k p, (s.freeLoop n k p).nsizes = s.nsizes ∧ (s.freeLoop n k p).bd_base = s.bd_base
  | 0, _, _, _ => ⟨rfl, rfl⟩
  | n + 1, s, k, p => by
    rw [freeLoop]
    -- the loop stops, or goes on from the lower of the pair
    split_ifs
    · exact ⟨rfl, rfl⟩
    · exact freeLoop_frame n _ (k + 1) _
    · exact freeLoop_frame n _ (k + 1) _

/-- The block of a pointer reads only `bd_base`. -/
theorem liveBlock_congr {s s' : Bd} (h : s'.bd_base = s.bd_base) : s'.liveBlock = s.liveBlock := by
  funext x
  simp only [liveBlock, blk_index, h]

theorem addr_congr {s s' : Bd} (h : s'.bd_base = s.bd_base) : s'.addr = s.addr := by
  funext k b
  simp only [addr, h]

end Bd

theorem bd_malloc_frame {s s' : Bd} {n : UInt64} {p : Nat} (h : bd_malloc s n = some (p, s')) :
    s'.nsizes = s.nsizes ∧ s'.bd_base = s.bd_base := by
  unfold bd_malloc at h
  cases hf : firstk n with
  | none => simp [hf] at h
  | some fk =>
    simp only [hf, Option.bind_eq_bind, Option.bind_some] at h
    split_ifs at h
    · cases h
      exact ⟨rfl, rfl⟩
    · cases hp : pop s.links (s.free (s.search (s.nsizes - fk) fk)) with
      | none => simp [hp] at h
      | some r =>
        simp only [hp, Option.bind_some, Option.pure_def, Option.some.injEq, Prod.mk.injEq] at h
        obtain ⟨-, rfl⟩ := h
        exact Bd.splitDown_frame _ _ _ _

theorem bd_free_frame {s s' : Bd} {p : Nat} (h : bd_free s p = some s') :
    s'.nsizes = s.nsizes ∧ s'.bd_base = s.bd_base := by
  unfold bd_free at h
  obtain ⟨k, -, rfl⟩ := Option.map_eq_some_iff.mp h
  exact Bd.freeLoop_frame _ _ _ _

/-- Erasing an element and mapping commute up to order. -/
theorem perm_map_erase {α β : Type} [BEq α] [LawfulBEq α] [BEq β] [LawfulBEq β] {f : α → β} {l : List α} {a : α}
    (ha : a ∈ l) : ((l.map f).erase (f a)).Perm ((l.erase a).map f) := by
  have h₁ : (l.map f).Perm (f a :: (l.erase a).map f) := by
    simpa using (List.perm_cons_erase ha).map f
  have h₂ := List.perm_cons_erase (List.mem_map_of_mem ha : f a ∈ l.map f)
  exact List.Perm.cons_inv (h₂.symm.trans h₁)

namespace Bd

variable {s : Bd} {fl : Nat → List Nat} {t : Nat → Nat → Tag} {P E : Nat} {live : List (Nat × Nat)}

/-- A live block does not start at address `0`: its first leaf is not in the
metadata, which holds leaf `0`. -/
theorem Inv.addr_ne_zero (h : s.Inv fl t P E live) {k b : Nat} (hl : (k, b) ∈ live) : s.addr k b ≠ 0 := by
  intro h0
  have hb : b = 0 := by
    have := BLK_SIZE_pos k
    rw [addr] at h0
    rcases Nat.eq_zero_or_pos b with hb | hb
    · exact hb
    · have := Nat.mul_pos hb this
      omega
  subst hb
  exact h.not_marked_of_live hl (Nat.zero_div _) h.marked_zero

end Bd

/-! ## The invariant of a run -/

/-- The heap represents the buddy tree of `[P, E)` whose used blocks are the
marked leaves and the blocks of the live pointers; each live pointer starts the
block of the size its request asked for. -/
structure Heap.Inv (base end_ : Nat) (H : Heap) : Prop where
  repr : ∃ fl t, H.bd.Inv fl t (initP base end_) (initE base end_) (H.live.map H.bd.liveBlock)
  ptr : ∀ x ∈ H.live, firstk x.2 = some (H.bd.liveBlock x).1 ∧
    x.1 = H.bd.addr (H.bd.liveBlock x).1 (H.bd.liveBlock x).2
  bd_base : H.bd.bd_base = initBase base
  nsizes : H.bd.nsizes = initSizes base end_

namespace Heap.Inv

variable {base end_ : Nat} {H H' : Heap}

/-- **`bd_malloc` keeps the invariant**: it hands out nothing, or a new block of
size `firstk(n)` that it records as live. -/
theorem malloc (hI : H.Inv base end_) {n : UInt64} (hs : H.step (.malloc n) = some H') : H'.Inv base end_ := by
  obtain ⟨fl, t, hinv⟩ := hI.repr
  obtain ⟨⟨p, s'⟩, hm, rfl⟩ := Option.map_eq_some_iff.mp hs
  have hframe := bd_malloc_frame hm
  cases hf : firstk n with
  | none => simp [bd_malloc, hf] at hm
  | some fk =>
    rcases hinv.bd_malloc hf with ⟨h0, -⟩ | ⟨b, s₁, fl', t', h1, hinv'⟩
    · rw [h0] at hm
      cases hm
      exact hI
    · rw [h1, Option.some.injEq, Prod.mk.injEq] at hm
      obtain ⟨rfl, rfl⟩ := hm
      have haddr := Bd.addr_congr hframe.2
      have hlive := Bd.liveBlock_congr hframe.2
      have hnew : H.bd.liveBlock (H.bd.addr fk b, n) = (fk, b) := by
        rw [Bd.liveBlock, hf, Option.getD_some, Bd.blk_index_addr]
      have hne : H.bd.addr fk b ≠ 0 := by
        rw [← haddr]
        exact hinv'.addr_ne_zero List.mem_cons_self
      refine ⟨⟨fl', t', ?_⟩, fun x hx => ?_, hframe.2.trans hI.bd_base, hframe.1.trans hI.nsizes⟩
      · simp only [if_neg hne, List.map_cons]
        rw [hlive, hnew]
        exact hinv'
      · simp only [if_neg hne, List.mem_cons] at hx
        rcases hx with rfl | hx
        · rw [hlive, hnew, haddr]
          exact ⟨hf, rfl⟩
        · rw [hlive, haddr]
          exact hI.ptr x hx

/-- **`bd_free` of a live pointer keeps the invariant**: the block of the
pointer is no longer live. -/
theorem free (hI : H.Inv base end_) {p : Nat} (hs : H.step (.free p) = some H') : H'.Inv base end_ := by
  obtain ⟨fl, t, hinv⟩ := hI.repr
  obtain ⟨x, hx, hs⟩ := Option.bind_eq_some_iff.mp hs
  obtain ⟨s', hf, rfl⟩ := Option.map_eq_some_iff.mp hs
  have hxl := List.mem_of_find?_eq_some hx
  have hxp : x.1 = p := by simpa using List.find?_some hx
  have hframe := bd_free_frame hf
  have hlive := Bd.liveBlock_congr hframe.2
  obtain ⟨-, hptr⟩ := hI.ptr x hxl
  obtain ⟨s'', hf', fl', t', hinv'⟩ := hinv.bd_free (List.mem_map_of_mem hxl : H.bd.liveBlock x ∈ _)
  have hf'' : bd_free H.bd x.1 = some s'' := by
    rw [hptr]
    exact hf'
  rw [hxp, hf] at hf''
  cases hf''
  refine ⟨⟨fl', t', ?_⟩, fun y hy => ?_, hframe.2.trans hI.bd_base, hframe.1.trans hI.nsizes⟩
  · rw [hlive]
    exact hinv'.perm (perm_map_erase hxl)
  · rw [hlive, Bd.addr_congr hframe.2]
    exact hI.ptr y (List.mem_of_mem_erase hy)

theorem step (hI : H.Inv base end_) {c : Call} (hs : H.step c = some H') : H'.Inv base end_ := by
  cases c with
  | malloc n => exact hI.malloc hs
  | free p => exact hI.free hs

theorem run : ∀ {cs : List Call} {H H' : Heap}, H.Inv base end_ → H.run cs = some H' → H'.Inv base end_
  | [], _, _, hI, hr => by
    cases hr
    exact hI
  | c :: cs, H, H', hI, hr => by
    obtain ⟨H₁, h₁, h₂⟩ := Option.bind_eq_some_iff.mp hr
    exact run (hI.step h₁) h₂

end Heap.Inv

/-- **Every reachable heap keeps the invariant.** -/
theorem Reachable.inv {base end_ : Nat} {H : Heap} (hr : Reachable base end_ H) : H.Inv base end_ := by
  obtain ⟨s, cs, hs, hrun⟩ := hr
  obtain ⟨fl, hinv⟩ := bd_init_inv hs
  have hframe := bd_init_frame hs
  exact Heap.Inv.run ⟨⟨fl, _, hinv⟩, fun _ hx => absurd hx List.not_mem_nil, hframe.1, hframe.2⟩ hrun

/-! ## The heap the invariant describes -/

namespace Heap

/-- Block `b` of size `k` is handed out: a leaf of the metadata
`[bd_base, p_meta)` or of the memory past the end `[bd_end, bd_base + HEAP_SIZE)`,
or a live allocation of that size. -/
def Allocated (H : Heap) (p_meta bd_end k b : Nat) : Prop :=
  (k = 0 ∧ b < NBLK H.bd.nsizes 0 ∧ (H.bd.addr 0 b < p_meta ∨ bd_end ≤ H.bd.addr 0 b)) ∨
    ∃ x ∈ H.live, firstk x.2 = some k ∧ x.1 = H.bd.addr k b

/-- Block `b` of size `k` is split: a block handed out lies strictly inside it. -/
def Split (H : Heap) (p_meta bd_end k b : Nat) : Prop :=
  ∃ j < k, ∃ c, c / 2 ^ (k - j) = b ∧ H.Allocated p_meta bd_end j c

/-- The byte ranges, as pairs `(start, length)`, that the heap is made of: the
blocks on the free lists `fl`, the live blocks, the metadata and the memory
past the end. -/
def pieces (H : Heap) (fl : Nat → List Nat) (p_meta bd_end : Nat) : List (Nat × Nat) :=
  ((List.range H.bd.nsizes).flatMap fun k => (fl k).map fun a => (a, BLK_SIZE k)) ++
    H.live.map (fun x => (x.1, BLK_SIZE ((firstk x.2).getD 0))) ++
    [(H.bd.bd_base, p_meta - H.bd.bd_base), (bd_end, H.bd.bd_base + H.bd.HEAP_SIZE - bd_end)]

end Heap

namespace Bd

variable {s : Bd} {fl : Nat → List Nat} {t : Nat → Nat → Tag} {P E : Nat} {live : List (Nat × Nat)}

/-- **Coalescing is complete**: a block and its buddy are never both free. -/
theorem Inv.buddy_not_free (h : s.Inv fl t P E live) {k b : Nat} (hf : t k b = .free) :
    t k (buddyOf b) ≠ .free := by
  intro hf'
  rw [buddyOf_eq_sibling] at hf'
  by_cases hk : k < s.MAXSIZE
  · exact h.coalesced k b hk hf hf'
  · -- at the top there is one block, and its buddy is not there
    have hkM : k = s.MAXSIZE := Nat.le_antisymm (h.tree.le_of_ne_none (by rw [hf]; decide)) (Nat.le_of_not_lt hk)
    subst hkM
    have hb := (h.tree.top b).mp (by rw [hf]; decide)
    have hb' := (h.tree.top (sibling b)).mp (by rw [hf']; decide)
    subst hb
    cases hb'

/-- The blocks on free list `k` are free blocks of size `k`, each once, and the
buddy of none of them is on the list. -/
theorem Inv.mem_free_list (h : s.Inv fl t P E live) {k a : Nat} (ha : a ∈ fl k) :
    ∃ b, a = s.addr k b ∧ s.InRange k b ∧ s.addr k (buddyOf b) ∉ fl k := by
  obtain ⟨b, rfl, hf⟩ := (h.lists.mem k a).mp ha
  refine ⟨b, rfl, h.bits.range k b (by rw [hf]; decide), fun hb => ?_⟩
  obtain ⟨b', heq, hf'⟩ := (h.lists.mem k _).mp hb
  rw [s.addr_inj] at heq
  rw [← heq] at hf'
  exact h.buddy_not_free hf hf'

end Bd

section Facts

variable {base end_ : Nat} {H : Heap} {fl : Nat → List Nat} {t : Nat → Nat → Tag}

/-- The metadata ends at leaf `P`. -/
theorem Heap.Inv.meta_eq (hI : H.Inv base end_) : initMeta base end_ = H.bd.addr 0 (initP base end_) := by
  rw [(initMeta_eq base end_).1, Bd.addr, hI.bd_base, BLK_SIZE, Nat.pow_zero, Nat.one_mul, Nat.mul_comm]

/-- The usable heap ends at leaf `E`. -/
theorem Heap.Inv.end_eq (hI : H.Inv base end_) : initEnd base end_ = H.bd.addr 0 (initE base end_) := by
  rw [(initEnd_eq base end_).1, Bd.addr, hI.bd_base, BLK_SIZE, Nat.pow_zero, Nat.one_mul, Nat.mul_comm]

/-- The live blocks are those of the live pointers. -/
theorem Heap.Inv.mem_live_iff (hI : H.Inv base end_) {k b : Nat} :
    (k, b) ∈ H.live.map H.bd.liveBlock ↔ ∃ x ∈ H.live, firstk x.2 = some k ∧ x.1 = H.bd.addr k b := by
  rw [List.mem_map]
  constructor
  · rintro ⟨x, hx, hxb⟩
    obtain ⟨hk, hp⟩ := hI.ptr x hx
    rw [hxb] at hk hp
    exact ⟨x, hx, hk, hp⟩
  · rintro ⟨x, hx, hk, hp⟩
    refine ⟨x, hx, ?_⟩
    rw [Bd.liveBlock, hk, Option.getD_some, hp, Bd.blk_index_addr]

variable (hI : H.Inv base end_)
  (hinv : H.bd.Inv fl t (initP base end_) (initE base end_) (H.live.map H.bd.liveBlock))
include hI hinv

/-- The used blocks are the blocks handed out. -/
theorem Heap.Inv.used_iff {k b : Nat} :
    t k b = .used ↔ H.Allocated (initMeta base end_) (initEnd base end_) k b := by
  rw [hinv.used, hI.mem_live_iff, Heap.Allocated, Bd.Marked, hI.meta_eq, hI.end_eq]
  refine or_congr_left (and_congr_right fun _ => and_congr_right fun _ => ?_)
  simp only [Bd.addr, BLK_SIZE, LEAF_SIZE, Nat.pow_zero, Nat.one_mul]
  omega

/-- The split blocks are those with a block handed out strictly inside. -/
theorem Heap.Inv.split_iff {k b : Nat} (hk : k ≤ H.bd.MAXSIZE) :
    t k b = .split ↔ H.Split (initMeta base end_) (initEnd base end_) k b := by
  rw [hinv.tree.split_iff hinv.coalesced hk, Heap.Split]
  constructor
  · rintro ⟨j, c, hj, hc, hu⟩
    exact ⟨j, hj, c, hc, (hI.used_iff hinv).mp hu⟩
  · rintro ⟨j, hj, c, hc, ha⟩
    exact ⟨j, c, hj, hc, (hI.used_iff hinv).mpr ha⟩

/-- **The alloc bit** of an existing block is set exactly when the block is
handed out or split. -/
theorem Heap.Inv.isAlloc_iff {k b : Nat} (hkb : H.bd.InRange k b) :
    H.bd.isAlloc k b = true ↔ H.Allocated (initMeta base end_) (initEnd base end_) k b ∨
      H.Split (initMeta base end_) (initEnd base end_) k b := by
  have hk : k ≤ H.bd.MAXSIZE := by
    have := hkb.1
    unfold Bd.MAXSIZE
    omega
  rw [hinv.bits.isAlloc_iff hkb, hI.used_iff hinv, hI.split_iff hinv hk]

/-- **The split bit** of an existing block above the leaves is set exactly when
the block is split. -/
theorem Heap.Inv.isSplit_iff {k b : Nat} (hkb : H.bd.InRange k b) (hk0 : 0 < k) :
    H.bd.isSplit k b = true ↔ H.Split (initMeta base end_) (initEnd base end_) k b := by
  have hk : k ≤ H.bd.MAXSIZE := by
    have := hkb.1
    unfold Bd.MAXSIZE
    omega
  rw [hinv.bits.isSplit_iff hkb hk0, hI.split_iff hinv hk]

end Facts

/-! ## The heap is partitioned -/

/-- A list without repeats, in which one value passes a test and no other
does, has exactly one entry that passes it. -/
theorem length_filter_eq_one {α : Type} {l : List α} {p : α → Bool} (hnd : l.Nodup) {y : α} (hy : y ∈ l)
    (hpy : p y = true) (huniq : ∀ z ∈ l, p z = true → z = y) : (l.filter p).length = 1 := by
  have hrep : l.filter p = List.replicate (l.filter p).length y :=
    List.eq_replicate_iff.mpr ⟨rfl, fun z hz => huniq z (List.mem_of_mem_filter hz) (List.mem_filter.mp hz).2⟩
  have hle : (l.filter p).length ≤ 1 := by
    have hnd' := hnd.filter p
    rw [hrep, List.nodup_replicate] at hnd'
    exact hnd'
  have hpos : 0 < (l.filter p).length := List.length_pos_of_mem (List.mem_filter.mpr ⟨hy, hpy⟩)
  omega

/-- The piece that holds leaf `x`, when the piece of `x` is at size `j`: the
metadata or the memory past the end for a leaf there, and otherwise the block of
size `j` around `x`. -/
def Heap.pieceAt (H : Heap) (p_meta bd_end x j : Nat) : Nat × Nat :=
  if j = 0 ∧ H.bd.addr 0 x < p_meta then (H.bd.bd_base, p_meta - H.bd.bd_base)
  else if j = 0 ∧ bd_end ≤ H.bd.addr 0 x then (bd_end, H.bd.bd_base + H.bd.HEAP_SIZE - bd_end)
  else (H.bd.addr j (x / 2 ^ j), BLK_SIZE j)

namespace Bd

variable {s : Bd} {fl : Nat → List Nat} {t : Nat → Nat → Tag} {P E : Nat} {live : List (Nat × Nat)}

/-- A block whose first leaf is marked is neither free nor live. -/
theorem Inv.not_block_of_marked (h : s.Inv fl t P E live) {k b : Nat} (hm : s.Marked P E (b * 2 ^ k)) :
    t k b ≠ .free ∧ (k, b) ∉ live := by
  refine ⟨fun hf => ?_, fun hl => h.not_marked_of_live hl (first_leaf_div b k) hm⟩
  have : t k (b * 2 ^ k / 2 ^ k) ≠ .free :=
    h.not_free_of_used (h.used_of_marked hm) (show b * 2 ^ k / 2 ^ 0 = b * 2 ^ k by simp)
  rw [first_leaf_div] at this
  exact this hf

/-- The pieces on the free lists are the free blocks. -/
theorem Inv.mem_freePieces (h : s.Inv fl t P E live) {z : Nat × Nat} :
    z ∈ (List.range s.nsizes).flatMap (fun k => (fl k).map fun a => (a, BLK_SIZE k)) ↔
      ∃ k b, t k b = .free ∧ z = (s.addr k b, BLK_SIZE k) := by
  simp only [List.mem_flatMap, List.mem_range, List.mem_map]
  constructor
  · rintro ⟨k, -, a, ha, rfl⟩
    obtain ⟨b, rfl, hf⟩ := (h.lists.mem k a).mp ha
    exact ⟨k, b, hf, rfl⟩
  · rintro ⟨k, b, hf, rfl⟩
    exact ⟨k, (h.bits.range k b (by rw [hf]; decide)).1, _, (h.lists.mem k _).mpr ⟨b, rfl, hf⟩, rfl⟩

/-- Byte `a` lies in block `b` of size `k` when its leaf lies there. -/
theorem covers_addr_iff {a : Nat} (ha : s.bd_base ≤ a) (k b : Nat) :
    (s.addr k b ≤ a ∧ a < s.addr k b + BLK_SIZE k) ↔ (a - s.bd_base) / LEAF_SIZE / 2 ^ k = b := by
  rw [Nat.div_div_eq_div_mul, Nat.div_eq_iff (Nat.mul_pos (by decide) (Nat.two_pow_pos k)), addr, BLK_SIZE,
    Nat.mul_comm LEAF_SIZE]
  have hm : 0 < 2 ^ k * LEAF_SIZE := Nat.mul_pos (Nat.two_pow_pos k) (by decide)
  generalize 2 ^ k * LEAF_SIZE = m at hm ⊢
  generalize b * m = q
  omega

end Bd

theorem Bd.addr_zero_lt_iff (s : Bd) {x y : Nat} : s.addr 0 x < s.addr 0 y ↔ x < y := by
  simp only [Bd.addr, BLK_SIZE, LEAF_SIZE, Nat.pow_zero, Nat.one_mul]
  omega

theorem Bd.addr_zero_le_iff (s : Bd) {x y : Nat} : s.addr 0 x ≤ s.addr 0 y ↔ x ≤ y := by
  simp only [Bd.addr, BLK_SIZE, LEAF_SIZE, Nat.pow_zero, Nat.one_mul]
  omega

section PieceAt

variable {base end_ : Nat} {H : Heap} (hI : H.Inv base end_)
include hI

theorem Heap.Inv.pieceAt_block {x j : Nat} (h : ¬(j = 0 ∧ (x < initP base end_ ∨ initE base end_ ≤ x))) :
    H.pieceAt (initMeta base end_) (initEnd base end_) x j = (H.bd.addr j (x / 2 ^ j), BLK_SIZE j) := by
  unfold Heap.pieceAt
  rw [hI.meta_eq, hI.end_eq, if_neg, if_neg]
  · rintro ⟨rfl, hx⟩
    exact h ⟨rfl, Or.inr ((Bd.addr_zero_le_iff _).mp hx)⟩
  · rintro ⟨rfl, hx⟩
    exact h ⟨rfl, Or.inl ((Bd.addr_zero_lt_iff _).mp hx)⟩

theorem Heap.Inv.pieceAt_meta {x : Nat} (hx : x < initP base end_) :
    H.pieceAt (initMeta base end_) (initEnd base end_) x 0 =
      (H.bd.bd_base, initMeta base end_ - H.bd.bd_base) := by
  unfold Heap.pieceAt
  rw [if_pos ⟨rfl, by rw [hI.meta_eq]; exact (Bd.addr_zero_lt_iff _).mpr hx⟩]

theorem Heap.Inv.pieceAt_end {x : Nat} (hPE : initP base end_ ≤ initE base end_) (hx : initE base end_ ≤ x) :
    H.pieceAt (initMeta base end_) (initEnd base end_) x 0 =
      (initEnd base end_, H.bd.bd_base + H.bd.HEAP_SIZE - initEnd base end_) := by
  unfold Heap.pieceAt
  rw [if_neg (by rw [hI.meta_eq, Bd.addr_zero_lt_iff]; omega),
    if_pos ⟨rfl, by rw [hI.end_eq]; exact (Bd.addr_zero_le_iff _).mpr hx⟩]

end PieceAt

theorem BLK_SIZE_inj {k k' : Nat} (h : BLK_SIZE k = BLK_SIZE k') : k = k' := by
  rw [BLK_SIZE, BLK_SIZE] at h
  exact Nat.pow_right_injective (Nat.le_refl 2) (Nat.eq_of_mul_eq_mul_right (by decide) h)

section Pieces

variable {base end_ : Nat} {H : Heap} {fl : Nat → List Nat} {t : Nat → Nat → Tag}
  (hI : H.Inv base end_)
  (hinv : H.bd.Inv fl t (initP base end_) (initE base end_) (H.live.map H.bd.liveBlock))
include hI hinv

omit hinv in
/-- The pieces of the live pointers are the live blocks. -/
theorem Heap.Inv.mem_livePieces {z : Nat × Nat} :
    z ∈ H.live.map (fun x => (x.1, BLK_SIZE ((firstk x.2).getD 0))) ↔
      ∃ k b, (k, b) ∈ H.live.map H.bd.liveBlock ∧ z = (H.bd.addr k b, BLK_SIZE k) := by
  simp only [List.mem_map]
  constructor
  · rintro ⟨x, hx, rfl⟩
    obtain ⟨hk, hp⟩ := hI.ptr x hx
    exact ⟨_, _, ⟨x, hx, rfl⟩, Prod.ext hp rfl⟩
  · rintro ⟨k, b, ⟨x, hx, hxb⟩, rfl⟩
    obtain ⟨-, hp⟩ := hI.ptr x hx
    have hk : (firstk x.2).getD 0 = k := congrArg Prod.fst hxb
    refine ⟨x, hx, ?_⟩
    rw [hp, hxb, hk]

/-- The pieces are the free blocks, the live blocks, the metadata and the
memory past the end. -/
theorem Heap.Inv.mem_pieces {z : Nat × Nat} :
    z ∈ H.pieces fl (initMeta base end_) (initEnd base end_) ↔
      (∃ k b, t k b = .free ∧ z = (H.bd.addr k b, BLK_SIZE k)) ∨
      (∃ k b, (k, b) ∈ H.live.map H.bd.liveBlock ∧ z = (H.bd.addr k b, BLK_SIZE k)) ∨
      z = (H.bd.bd_base, initMeta base end_ - H.bd.bd_base) ∨
      z = (initEnd base end_, H.bd.bd_base + H.bd.HEAP_SIZE - initEnd base end_) := by
  rw [Heap.pieces, List.mem_append, List.mem_append, hinv.mem_freePieces, hI.mem_livePieces]
  simp only [List.mem_cons, List.not_mem_nil, or_false, or_assoc]

/-- **Nothing is missing**: every byte of the heap lies in some piece. -/
theorem Heap.Inv.exists_covers {a : Nat} (ha : H.bd.bd_base ≤ a) (ha' : a < H.bd.bd_base + H.bd.HEAP_SIZE) :
    ∃ z ∈ H.pieces fl (initMeta base end_) (initEnd base end_), z.1 ≤ a ∧ a < z.1 + z.2 := by
  have hx : (a - H.bd.bd_base) / LEAF_SIZE < 2 ^ H.bd.MAXSIZE := by
    rw [Bd.HEAP_SIZE, BLK_SIZE] at ha'
    unfold LEAF_SIZE at *
    omega
  obtain ⟨k, hk, hatom⟩ := hinv.tree.atom_exists hx
  generalize hb : (a - H.bd.bd_base) / LEAF_SIZE / 2 ^ k = b at hatom
  have hcov := (Bd.covers_addr_iff ha k b).mpr hb
  cases hkb : t k b with
  | free => exact ⟨_, (hI.mem_pieces hinv).mpr (Or.inl ⟨k, b, hkb, rfl⟩), hcov⟩
  | used =>
    rcases (hinv.used k b).mp hkb with ⟨rfl, hm⟩ | hl
    · -- a marked leaf: in the metadata or past the end
      rw [Nat.pow_zero, Nat.div_one] at hb
      have hP := hI.meta_eq
      have hE := hI.end_eq
      rw [Bd.addr, BLK_SIZE, Nat.pow_zero, Nat.one_mul] at hP hE
      rcases hm.2 with hlt | hge
      · refine ⟨_, (hI.mem_pieces hinv).mpr (Or.inr (Or.inr (Or.inl rfl))), ?_⟩
        dsimp only
        unfold LEAF_SIZE at *
        omega
      · refine ⟨_, (hI.mem_pieces hinv).mpr (Or.inr (Or.inr (Or.inr rfl))), ?_⟩
        dsimp only
        unfold LEAF_SIZE at *
        omega
    · exact ⟨_, (hI.mem_pieces hinv).mpr (Or.inr (Or.inl ⟨k, b, hl, rfl⟩)), hcov⟩
  | none => rw [hkb] at hatom; exact hatom.elim
  | split => rw [hkb] at hatom; exact hatom.elim

/-- A free or live block is neither the metadata nor the memory past the end:
its first leaf is not marked. -/
theorem Heap.Inv.block_ne {k b : Nat} (hb : t k b = .free ∨ (k, b) ∈ H.live.map H.bd.liveBlock) :
    (H.bd.addr k b, BLK_SIZE k) ≠ (H.bd.bd_base, initMeta base end_ - H.bd.bd_base) ∧
      (H.bd.addr k b, BLK_SIZE k) ≠ (initEnd base end_, H.bd.bd_base + H.bd.HEAP_SIZE - initEnd base end_) := by
  have hnb : ¬H.bd.Marked (initP base end_) (initE base end_) (b * 2 ^ k) := fun hm => by
    rcases hb with hf | hl
    · exact (hinv.not_block_of_marked hm).1 hf
    · exact (hinv.not_block_of_marked hm).2 hl
  have hE := hinv.end_le
  rw [Bd.NBLK_zero_eq] at hE
  constructor
  · intro heq
    have h0 : H.bd.addr k b = H.bd.addr 0 0 := by
      rw [(Prod.mk.inj heq).1, Bd.addr, Nat.zero_mul, Nat.add_zero]
    rw [Bd.addr_eq_leaf, H.bd.addr_inj] at h0
    rw [h0] at hnb
    exact hnb hinv.marked_zero
  · intro heq
    obtain ⟨h1, h2⟩ := Prod.mk.inj heq
    rw [hI.end_eq, Bd.addr_eq_leaf, H.bd.addr_inj] at h1
    rw [hI.end_eq, Bd.HEAP_SIZE, BLK_SIZE, BLK_SIZE, Bd.addr, BLK_SIZE, Nat.pow_zero, Nat.one_mul] at h2
    have hpos := Nat.two_pow_pos k
    have hlt : initE base end_ < 2 ^ H.bd.MAXSIZE := by
      unfold LEAF_SIZE at h2
      omega
    refine hnb ⟨?_, Or.inr ?_⟩
    · rw [h1, Bd.NBLK_zero_eq]
      exact hlt
    · rw [h1]

/-- **No piece is listed twice**: the free blocks are on one list each, once,
the live blocks are distinct and none is free, and neither is the metadata or the
memory past the end. -/
theorem Heap.Inv.pieces_nodup : (H.pieces fl (initMeta base end_) (initEnd base end_)).Nodup := by
  have hblock : ∀ {k b k' b'}, (H.bd.addr k b, BLK_SIZE k) = (H.bd.addr k' b', BLK_SIZE k') → k = k' ∧ b = b' := by
    intro k b k' b' h
    obtain ⟨h1, h2⟩ := Prod.mk.inj h
    obtain rfl := BLK_SIZE_inj h2
    exact ⟨rfl, H.bd.addr_inj.mp h1⟩
  -- the free lists
  have hF : ((List.range H.bd.nsizes).flatMap fun k => (fl k).map fun a => (a, BLK_SIZE k)).Nodup := by
    rw [List.nodup_flatMap]
    refine ⟨fun k hk => ?_, ?_⟩
    · exact (List.nodup_cons.mp (hinv.lists.family.circ k (List.mem_range.mp hk)).nodup).2.map
        fun a a' h => (Prod.mk.inj h).1
    · refine List.nodup_range.imp fun {k k'} hkk' z hz hz' => hkk' ?_
      obtain ⟨a, -, rfl⟩ := List.mem_map.mp hz
      obtain ⟨a', -, h⟩ := List.mem_map.mp hz'
      exact BLK_SIZE_inj (Prod.mk.inj h).2.symm
  -- the live pointers
  have hLv : (H.live.map fun x => (x.1, BLK_SIZE ((firstk x.2).getD 0))).Nodup := by
    have hL := hinv.live_nodup
    refine (List.Nodup.of_map _ hL).map_on fun x hx y hy hxy => List.inj_on_of_nodup_map hL hx hy ?_
    obtain ⟨h1, h2⟩ := Prod.mk.inj hxy
    rw [Bd.liveBlock, Bd.liveBlock, BLK_SIZE_inj h2, h1]
  have hFLv : ∀ z ∈ (List.range H.bd.nsizes).flatMap (fun k => (fl k).map fun a => (a, BLK_SIZE k)),
      ∀ z' ∈ H.live.map (fun x => (x.1, BLK_SIZE ((firstk x.2).getD 0))), z ≠ z' := by
    intro z hz z' hz' hzz
    obtain ⟨k, b, hf, rfl⟩ := (hinv.mem_freePieces).mp hz
    obtain ⟨k', b', hl, rfl⟩ := (hI.mem_livePieces).mp hz'
    obtain ⟨rfl, rfl⟩ := hblock hzz
    rw [hinv.used_of_live hl] at hf
    cases hf
  -- the metadata and the memory past the end
  have hmu : (H.bd.bd_base, initMeta base end_ - H.bd.bd_base) ≠
      (initEnd base end_, H.bd.bd_base + H.bd.HEAP_SIZE - initEnd base end_) := by
    intro h
    have h1 := (Prod.mk.inj h).1
    have hP := hinv.heads
    have hPE := hinv.meta_le
    have hn := hinv.nsizes_pos
    rw [hI.end_eq, Bd.addr, BLK_SIZE, Nat.pow_zero, Nat.one_mul] at h1
    unfold LEAF_SIZE at h1
    omega
  unfold Heap.pieces
  rw [List.nodup_append, List.nodup_append]
  refine ⟨⟨hF, hLv, hFLv⟩, by simpa using hmu, fun z hz z' hz' => ?_⟩
  have hb : ∃ k b, (t k b = .free ∨ (k, b) ∈ H.live.map H.bd.liveBlock) ∧ z = (H.bd.addr k b, BLK_SIZE k) := by
    rcases List.mem_append.mp hz with hz | hz
    · obtain ⟨k, b, hf, rfl⟩ := (hinv.mem_freePieces).mp hz
      exact ⟨k, b, Or.inl hf, rfl⟩
    · obtain ⟨k, b, hl, rfl⟩ := (hI.mem_livePieces).mp hz
      exact ⟨k, b, Or.inr hl, rfl⟩
  obtain ⟨k, b, hkb, rfl⟩ := hb
  have hne := hI.block_ne hinv hkb
  simp only [List.mem_cons, List.not_mem_nil, or_false] at hz'
  rcases hz' with rfl | rfl
  · exact hne.1
  · exact hne.2

/-- **No overlap**: a piece that holds a byte is the piece of its leaf at the
size of the leaf's piece in the tree. -/
theorem Heap.Inv.pieceAt_of_covers {a : Nat} (ha : H.bd.bd_base ≤ a) (ha' : a < H.bd.bd_base + H.bd.HEAP_SIZE)
    {z : Nat × Nat} (hz : z ∈ H.pieces fl (initMeta base end_) (initEnd base end_)) (hc : z.1 ≤ a ∧ a < z.1 + z.2) :
    ∃ j, (t j ((a - H.bd.bd_base) / LEAF_SIZE / 2 ^ j)).IsAtom ∧
      z = H.pieceAt (initMeta base end_) (initEnd base end_) ((a - H.bd.bd_base) / LEAF_SIZE) j := by
  have hx : (a - H.bd.bd_base) / LEAF_SIZE < NBLK H.bd.nsizes 0 := by
    rw [Bd.HEAP_SIZE, BLK_SIZE] at ha'
    rw [Bd.NBLK_zero_eq]
    unfold LEAF_SIZE at *
    omega
  have hPE := hinv.meta_le
  have hP := hI.meta_eq
  have hE := hI.end_eq
  rw [Bd.addr, BLK_SIZE, Nat.pow_zero, Nat.one_mul] at hP hE
  generalize hxdef : (a - H.bd.bd_base) / LEAF_SIZE = x at hx ⊢
  -- a leaf in a free or live block is not marked
  have hblock : ∀ {k b}, (t k b = .free ∨ (k, b) ∈ H.live.map H.bd.liveBlock) →
      H.bd.addr k b ≤ a ∧ a < H.bd.addr k b + BLK_SIZE k →
      ∃ j, (t j (x / 2 ^ j)).IsAtom ∧
        (H.bd.addr k b, BLK_SIZE k) = H.pieceAt (initMeta base end_) (initEnd base end_) x j := by
    intro k b hkb hc
    have hb : x / 2 ^ k = b := by
      rw [← hxdef]
      exact (Bd.covers_addr_iff ha k b).mp hc
    have hatom : (t k b).IsAtom := by
      rcases hkb with hf | hl
      · rw [hf]; trivial
      · rw [hinv.used_of_live hl]; trivial
    refine ⟨k, hb ▸ hatom, ?_⟩
    rw [hI.pieceAt_block, hb]
    rintro ⟨rfl, hm⟩
    rw [Nat.pow_zero, Nat.div_one] at hb
    subst hb
    have hm' : H.bd.Marked (initP base end_) (initE base end_) (x * 2 ^ 0) := by
      rw [Nat.pow_zero, Nat.mul_one]
      exact ⟨hx, hm⟩
    rcases hkb with hf | hl
    · exact (hinv.not_block_of_marked hm').1 hf
    · exact (hinv.not_block_of_marked hm').2 hl
  rcases (hI.mem_pieces hinv).mp hz with ⟨k, b, hkb, rfl⟩ | ⟨k, b, hkb, rfl⟩ | rfl | rfl
  · exact hblock (Or.inl hkb) hc
  · exact hblock (Or.inr hkb) hc
  · -- the metadata
    have hxP : x < initP base end_ := by
      obtain ⟨-, h2⟩ := hc
      dsimp only at h2
      unfold LEAF_SIZE at *
      omega
    refine ⟨0, ?_, (hI.pieceAt_meta hxP).symm⟩
    rw [Nat.pow_zero, Nat.div_one, hinv.used_of_marked ⟨hx, Or.inl hxP⟩]
    trivial
  · -- the memory past the end
    have hEx : initE base end_ ≤ x := by
      obtain ⟨h1, -⟩ := hc
      dsimp only at h1
      unfold LEAF_SIZE at *
      omega
    refine ⟨0, ?_, (hI.pieceAt_end hPE hEx).symm⟩
    rw [Nat.pow_zero, Nat.div_one, hinv.used_of_marked ⟨hx, Or.inr hEx⟩]
    trivial

/-- **The pieces partition the heap**: every byte of `[bd_base, bd_base + HEAP_SIZE)`
lies in exactly one of them. -/
theorem Heap.Inv.partition {a : Nat} (ha : H.bd.bd_base ≤ a) (ha' : a < H.bd.bd_base + H.bd.HEAP_SIZE) :
    ((H.pieces fl (initMeta base end_) (initEnd base end_)).filter fun z => z.1 ≤ a ∧ a < z.1 + z.2).length = 1 := by
  obtain ⟨y, hy, hcy⟩ := hI.exists_covers hinv ha ha'
  refine length_filter_eq_one (hI.pieces_nodup hinv) hy (by simpa using hcy) fun z hz hcz => ?_
  obtain ⟨j, hj, rfl⟩ := hI.pieceAt_of_covers hinv ha ha' hz (by simpa using hcz)
  obtain ⟨j', hj', rfl⟩ := hI.pieceAt_of_covers hinv ha ha' hy hcy
  rw [hinv.tree.atom_unique hj hj']

end Pieces

/-! ## What `bd_malloc` returns -/

/-- A live block lies inside the usable heap `[P, E)`: its first and its last
leaf are not marked. -/
theorem Bd.Inv.live_inside {s : Bd} {fl : Nat → List Nat} {t : Nat → Nat → Tag} {P E : Nat}
    {live : List (Nat × Nat)} (h : s.Inv fl t P E live) {k b : Nat} (hl : (k, b) ∈ live) :
    P ≤ b * 2 ^ k ∧ (b + 1) * 2 ^ k ≤ E := by
  have hpos := Nat.two_pow_pos k
  have hb := (h.range_of_live hl).2
  -- the block's leaves exist: it lies below `2^MAXSIZE`
  have hend : (b + 1) * 2 ^ k ≤ NBLK s.nsizes 0 := by
    have hk := h.live_lt hl
    rw [NBLK] at hb
    rw [NBLK, Nat.sub_zero, show s.nsizes - 1 = s.nsizes - 1 - k + k by unfold MAXSIZE at hk; omega, Nat.pow_add]
    exact Nat.mul_le_mul_right _ hb
  have hfirst := h.not_marked_of_live hl (first_leaf_div b k)
  have hlast : ¬s.Marked P E (b * 2 ^ k + (2 ^ k - 1)) :=
    h.not_marked_of_live hl ((Nat.div_eq_iff hpos).mpr ⟨by omega, by omega⟩)
  simp only [Marked, not_and, not_or, Nat.not_lt] at hfirst hlast
  have h₁ := hfirst (by rw [Nat.add_mul, Nat.one_mul] at hend; omega)
  have h₂ := hlast (by rw [Nat.add_mul, Nat.one_mul] at hend; omega)
  rw [Nat.add_mul, Nat.one_mul]
  omega

/-- **`bd_malloc` when `firstk` returns**: `0` only when every free list from size
`firstk(n)` on is empty, and otherwise the start of a block of that size, large
enough for `n` bytes and at least a leaf, inside the usable heap
`[p_meta, bd_end)`. -/
theorem Heap.Inv.bd_malloc_spec {base end_ : Nat} {H : Heap} (hI : H.Inv base end_) {n : UInt64} {fk : Nat}
    (hn : firstk n = some fk) :
    ∃ p s', bd_malloc H.bd n = some (p, s') ∧
      (p = 0 → ∀ k, fk ≤ k → k < H.bd.nsizes → isEmpty H.bd.links (H.bd.free k) = true) ∧
      (p ≠ 0 → (p - H.bd.bd_base) % BLK_SIZE fk = 0 ∧ n.toNat ≤ BLK_SIZE fk ∧ LEAF_SIZE ≤ BLK_SIZE fk ∧
        initMeta base end_ ≤ p ∧ p + BLK_SIZE fk ≤ initEnd base end_) := by
  obtain ⟨fl, t, hinv⟩ := hI.repr
  rcases hinv.bd_malloc hn with ⟨h0, hempty⟩ | ⟨b, s', fl', t', hm, hinv'⟩
  · refine ⟨0, H.bd, h0, fun _ k hk hkn => ?_, fun h => absurd rfl h⟩
    exact (hinv.lists.family.circ k hkn).isEmpty_iff.mpr (hempty k hk hkn)
  · have hframe := bd_malloc_frame hm
    have haddr := Bd.addr_congr hframe.2
    have hne : H.bd.addr fk b ≠ 0 := by
      rw [← haddr]
      exact hinv'.addr_ne_zero List.mem_cons_self
    refine ⟨_, s', hm, fun h => absurd h hne, fun _ => ?_⟩
    obtain ⟨hlo, hhi⟩ := hinv'.live_inside List.mem_cons_self
    have hP := hI.meta_eq
    have hE := hI.end_eq
    simp only [Bd.addr, BLK_SIZE, Nat.pow_zero, Nat.one_mul] at hP hE ⊢
    refine ⟨by rw [Nat.add_sub_cancel_left]; exact Nat.mul_mod_left _ _, (firstk_spec hn).1,
      Nat.le_mul_of_pos_left _ (Nat.two_pow_pos fk), ?_, ?_⟩
    · rw [hP, ← Nat.mul_assoc]
      exact Nat.add_le_add_left (Nat.mul_le_mul_right _ hlo) _
    · have hhi' := Nat.mul_le_mul_right LEAF_SIZE hhi
      rw [Nat.add_mul, Nat.one_mul, Nat.add_mul] at hhi'
      rw [hE, Nat.add_assoc]
      simpa only [Nat.mul_assoc] using Nat.add_le_add_left hhi' H.bd.bd_base

/-- **`bd_malloc` of more than `2^63` bytes does not return**: `firstk`'s `size`
doubles up to `2^63` and then wraps to `0`, and the loop spins with the
allocator's lock held. -/
theorem bd_malloc_past_two_pow_63 (s : Bd) : bd_malloc s (2 ^ 63 + 1 : Nat).toUInt64 = none := by
  have h : firstk (2 ^ 63 + 1 : Nat).toUInt64 = none := (firstk_eq_none_iff _).mpr (by decide)
  unfold bd_malloc
  rw [h]
  rfl

/-- The heap of a reachable state is at most `2^31` bytes when `end - base` is. -/
theorem Heap.Inv.heap_le {base end_ : Nat} {H : Heap} (hI : H.Inv base end_) (hbound : end_ - base < 2 ^ 31) :
    H.bd.HEAP_SIZE ≤ 2 ^ 31 := by
  rw [Bd.HEAP_SIZE, Bd.MAXSIZE, hI.nsizes]
  exact initHeap_le base end_ hbound

/-- With `end - base` below `2^31`, a pointer `bd_malloc` hands out lies less
than `2^31` bytes past `bd_base`: `blk_index` on it computes in `int` without
overflow. -/
theorem Heap.Inv.malloc_offset_lt {base end_ : Nat} {H : Heap} (hI : H.Inv base end_)
    (hbound : end_ - base < 2 ^ 31) {n : UInt64} {p : Nat} {s₁ : Bd} (hm : bd_malloc H.bd n = some (p, s₁))
    (hp : p ≠ 0) : p - H.bd.bd_base < 2 ^ 31 := by
  cases hf : firstk n with
  | none => simp [bd_malloc, hf] at hm
  | some fk =>
    obtain ⟨p', s', hm', -, hspec⟩ := hI.bd_malloc_spec hf
    rw [hm, Option.some.injEq, Prod.mk.injEq] at hm'
    obtain ⟨rfl, -⟩ := hm'
    obtain ⟨-, -, -, -, hend⟩ := hspec hp
    have hheap := hI.heap_le hbound
    -- the usable heap ends inside the heap
    have hE : initEnd base end_ ≤ H.bd.bd_base + H.bd.HEAP_SIZE := by
      rw [initEnd, hI.bd_base, Bd.HEAP_SIZE, Bd.MAXSIZE, hI.nsizes]
      omega
    have := BLK_SIZE_pos fk
    omega

/-! ## Every reachable heap -/

theorem Heap.run_append (H : Heap) (cs : List Call) (c : Call) :
    H.run (cs ++ [c]) = (H.run cs).bind fun H' => H'.step c := by
  induction cs generalizing H with
  | nil => simp [Heap.run]
  | cons c' cs ih =>
    simp only [List.cons_append, Heap.run]
    cases H.step c' with
    | none => rfl
    | some H₁ => exact ih H₁

theorem Reachable.step {base end_ : Nat} {H H' : Heap} (hr : Reachable base end_ H) {c : Call}
    (hs : H.step c = some H') : Reachable base end_ H' := by
  obtain ⟨s, cs, hs₀, hrun⟩ := hr
  exact ⟨s, cs ++ [c], hs₀, by rw [Heap.run_append, hrun, Option.bind_some, hs]⟩

/-- **The buddy allocator's representation invariant.** In every heap that
`bd_init(base, end)`, with `end - base < 2^31` as the code's `int` offsets need,
and a sequence of calls lead to, the heap is at most `2^31` bytes, so that the
offsets fit; each free list in memory holds blocks of its size, each once and
none together with its buddy; the blocks on the free lists, the live blocks, the
metadata and the memory past the end partition the heap; and the alloc bit of a
block is set exactly when the block is handed out or split, its split bit
exactly when it is split. -/
theorem reachable_repr {base end_ : Nat} (hbound : end_ - base < 2 ^ 31) {H : Heap}
    (hr : Reachable base end_ H) :
    H.bd.HEAP_SIZE ≤ 2 ^ 31 ∧ ∃ fl : Nat → List Nat,
      (∀ k < H.bd.nsizes, Circ H.bd.links (H.bd.free k) (fl k) ∧ (fl k).Nodup) ∧
      (∀ k a, a ∈ fl k → ∃ b, a = H.bd.addr k b ∧ H.bd.InRange k b ∧ H.bd.addr k (buddyOf b) ∉ fl k) ∧
      (∀ a, H.bd.bd_base ≤ a → a < H.bd.bd_base + H.bd.HEAP_SIZE →
        ((H.pieces fl (initMeta base end_) (initEnd base end_)).filter
          fun z => z.1 ≤ a ∧ a < z.1 + z.2).length = 1) ∧
      ∀ k b, H.bd.InRange k b →
        (H.bd.isAlloc k b = true ↔ H.Allocated (initMeta base end_) (initEnd base end_) k b ∨
          H.Split (initMeta base end_) (initEnd base end_) k b) ∧
        (0 < k → (H.bd.isSplit k b = true ↔ H.Split (initMeta base end_) (initEnd base end_) k b)) := by
  have hI := hr.inv
  obtain ⟨fl, t, hinv⟩ := hI.repr
  refine ⟨hI.heap_le hbound, fl, fun k hk => ⟨hinv.lists.family.circ k hk, (List.nodup_cons.mp (hinv.lists.family.circ k hk).nodup).2⟩,
    fun k a ha => hinv.mem_free_list ha, fun a ha ha' => hI.partition hinv ha ha',
    fun k b hkb => ⟨hI.isAlloc_iff hinv hkb, hI.isSplit_iff hinv hkb⟩⟩

/-- The heap after `bd_init(0, 1000)`, two allocations and the free of the
first is reachable and so represented. -/
theorem reachable_repr_boot : ∃ H : Heap,
    Reachable 0 1000 H ∧ H.live.length = 1 ∧ H.bd.HEAP_SIZE ≤ 2 ^ 31 ∧ ∃ fl : Nat → List Nat,
      (∀ k < H.bd.nsizes, Circ H.bd.links (H.bd.free k) (fl k) ∧ (fl k).Nodup) ∧
      (∀ k a, a ∈ fl k → ∃ b, a = H.bd.addr k b ∧ H.bd.InRange k b ∧ H.bd.addr k (buddyOf b) ∉ fl k) ∧
      (∀ a, H.bd.bd_base ≤ a → a < H.bd.bd_base + H.bd.HEAP_SIZE →
        ((H.pieces fl (initMeta 0 1000) (initEnd 0 1000)).filter
          fun z => z.1 ≤ a ∧ a < z.1 + z.2).length = 1) ∧
      ∀ k b, H.bd.InRange k b →
        (H.bd.isAlloc k b = true ↔ H.Allocated (initMeta 0 1000) (initEnd 0 1000) k b ∨
          H.Split (initMeta 0 1000) (initEnd 0 1000) k b) ∧
        (0 < k → (H.bd.isSplit k b = true ↔ H.Split (initMeta 0 1000) (initEnd 0 1000) k b)) := by
  have h : (bd_init 0 1000).bind (fun s => (Heap.run ⟨s, []⟩ [.malloc 16, .malloc 64, .free 960]).map
      fun H => H.live.length) = some 1 := by decide +kernel
  obtain ⟨s, hs, hrun⟩ := Option.bind_eq_some_iff.mp h
  obtain ⟨H, hrun, hlen⟩ := Option.map_eq_some_iff.mp hrun
  have hr : Reachable 0 1000 H := ⟨s, _, hs, hrun⟩
  exact ⟨H, hr, hlen, reachable_repr (by decide) hr⟩

/-! ## The abstract state is the multiset of live allocations -/

/-- Two allocator states that hold the same blocks on every free list and the
same alloc and split bits. -/
def Bd.SameBlocks (s s' : Bd) : Prop :=
  (∀ k < s.nsizes, ∀ a, (∃ l, Circ s.links (s.free k) l ∧ a ∈ l) ↔ (∃ l, Circ s'.links (s'.free k) l ∧ a ∈ l)) ∧
    ∀ k b, s.InRange k b → s.isAlloc k b = s'.isAlloc k b ∧ (0 < k → s.isSplit k b = s'.isSplit k b)

/-- The blocks on a free list in memory are those of the list the invariant names. -/
theorem Bd.Inv.mem_circ_iff {s : Bd} {fl : Nat → List Nat} {t : Nat → Nat → Tag} {P E : Nat}
    {live : List (Nat × Nat)} (h : s.Inv fl t P E live) {k : Nat} (hk : k < s.nsizes) (a : Nat) :
    (∃ l, Circ s.links (s.free k) l ∧ a ∈ l) ↔ ∃ b, a = s.addr k b ∧ t k b = .free := by
  rw [← h.lists.mem k a]
  constructor
  · rintro ⟨l, hl, ha⟩
    rwa [hl.unique (h.lists.family.circ k hk)] at ha
  · exact fun ha => ⟨_, h.lists.family.circ k hk, ha⟩

/-- **Heaps with the same live allocations have the same free blocks and bits**:
the tree is determined by its used blocks, which are the marked leaves and the
blocks of the live pointers. -/
theorem Heap.Inv.sameBlocks {base end_ : Nat} {H₁ H₂ : Heap} (h₁ : H₁.Inv base end_) (h₂ : H₂.Inv base end_)
    (hp : H₁.live.Perm H₂.live) : H₁.bd.SameBlocks H₂.bd := by
  obtain ⟨fl₁, t₁, hinv₁⟩ := h₁.repr
  obtain ⟨fl₂, t₂, hinv₂⟩ := h₂.repr
  have hbase : H₂.bd.bd_base = H₁.bd.bd_base := h₂.bd_base.trans h₁.bd_base.symm
  have hn : H₂.bd.nsizes = H₁.bd.nsizes := h₂.nsizes.trans h₁.nsizes.symm
  have hlive := Bd.liveBlock_congr hbase
  have haddr := Bd.addr_congr hbase
  -- the two trees have the same used blocks, so they are one tree
  have hmem : ∀ k b, (k, b) ∈ H₁.live.map H₁.bd.liveBlock ↔ (k, b) ∈ H₂.live.map H₂.bd.liveBlock := by
    intro k b
    rw [hlive]
    exact (hp.map _).mem_iff
  have htree₂ : Tree H₁.bd.MAXSIZE t₂ := by
    have := hinv₂.tree
    rwa [Bd.MAXSIZE, hn] at this
  have hcoal₂ : Coalesced H₁.bd.MAXSIZE t₂ := by
    have := hinv₂.coalesced
    rwa [Bd.MAXSIZE, hn] at this
  have ht : ∀ k b, t₁ k b = t₂ k b := hinv₁.tree.eq_of_used htree₂ hinv₁.coalesced hcoal₂ fun k b => by
    rw [hinv₁.used, hinv₂.used, hmem, Bd.Marked, Bd.Marked, hn]
  refine ⟨fun k hk a => ?_, fun k b hkb => ?_⟩
  · rw [hinv₁.mem_circ_iff hk, hinv₂.mem_circ_iff (hn ▸ hk), haddr]
    simp only [ht]
  · have hkb₂ : H₂.bd.InRange k b := by
      rw [Bd.InRange, hn]
      exact hkb
    refine ⟨Bool.eq_iff_iff.mpr ?_, fun hk0 => Bool.eq_iff_iff.mpr ?_⟩
    · rw [hinv₁.bits.isAlloc_iff hkb, hinv₂.bits.isAlloc_iff hkb₂, ht]
    · rw [hinv₁.bits.isSplit_iff hkb hk0, hinv₂.bits.isSplit_iff hkb₂ hk0, ht]

/-- **Allocating and then freeing is the identity on the free blocks and the
bits**: with `end - base < 2^31`, the pointer a `bd_malloc` returns lies less
than `2^31` bytes into the heap, as `bd_free`'s `int` offset needs, and its
`bd_free` returns to the free lists and bits the heap had; and any two reachable
heaps with the same live allocations have the same free lists and bits. -/
theorem malloc_free_restores {base end_ : Nat} (hbound : end_ - base < 2 ^ 31) {H : Heap}
    (hr : Reachable base end_ H) {n : UInt64} {p : Nat} {s₁ : Bd} (hm : bd_malloc H.bd n = some (p, s₁))
    (hp : p ≠ 0) :
    p - H.bd.bd_base < 2 ^ 31 ∧ (∃ s₂, bd_free s₁ p = some s₂ ∧ s₂.SameBlocks H.bd) ∧
      ∀ H' : Heap, Reachable base end_ H' → H'.live.Perm H.live → H'.bd.SameBlocks H.bd := by
  have hsame : ∀ H' : Heap, Reachable base end_ H' → H'.live.Perm H.live → H'.bd.SameBlocks H.bd :=
    fun H' hr' hperm => hr'.inv.sameBlocks hr.inv hperm
  refine ⟨hr.inv.malloc_offset_lt hbound hm hp, ?_, hsame⟩
  -- the heap after the `bd_malloc`, with `p` live
  have hs₁ : H.step (.malloc n) = some ⟨s₁, (p, n) :: H.live⟩ := by
    simp [Heap.step, hm, hp]
  have hr₁ := hr.step hs₁
  have hI₁ := hr₁.inv
  obtain ⟨fl, t, hinv₁⟩ := hI₁.repr
  obtain ⟨-, hptr⟩ := hI₁.ptr (p, n) List.mem_cons_self
  obtain ⟨s₂, hf, -⟩ := hinv₁.bd_free (List.mem_map_of_mem List.mem_cons_self : s₁.liveBlock (p, n) ∈ _)
  have hf' : bd_free s₁ p = some s₂ := by
    have hptr' : p = s₁.addr (s₁.liveBlock (p, n)).1 (s₁.liveBlock (p, n)).2 := hptr
    rw [hptr']
    exact hf
  -- freeing `p` takes the heap back to the live pointers it had
  have hs₂ : Heap.step ⟨s₁, (p, n) :: H.live⟩ (.free p) = some ⟨s₂, H.live⟩ := by
    simp [Heap.step, hf']
  exact ⟨s₂, hf', hsame _ (hr₁.step hs₂) (List.Perm.refl _)⟩

/-- After `bd_init(0, 1000)`, `bd_malloc(16)` returns `960`, and freeing it
restores the free lists and bits. -/
theorem malloc_free_restores_boot : ∃ (H : Heap) (s₁ : Bd), Reachable 0 1000 H ∧
    bd_malloc H.bd 16 = some (960, s₁) ∧ (960 : Nat) ≠ 0 ∧
    (960 - H.bd.bd_base < 2 ^ 31 ∧ (∃ s₂, bd_free s₁ 960 = some s₂ ∧ s₂.SameBlocks H.bd) ∧
      ∀ H' : Heap, Reachable 0 1000 H' → H'.live.Perm H.live → H'.bd.SameBlocks H.bd) := by
  have h : (bd_init 0 1000).bind (fun s => (bd_malloc s 16).map Prod.fst) = some 960 := by decide +kernel
  obtain ⟨s, hs, hm⟩ := Option.bind_eq_some_iff.mp h
  obtain ⟨⟨p, s₁⟩, hm, hp⟩ := Option.map_eq_some_iff.mp hm
  cases hp
  have hr : Reachable 0 1000 ⟨s, []⟩ := ⟨s, [], hs, rfl⟩
  exact ⟨_, s₁, hr, hm, by decide, malloc_free_restores (by decide) hr hm (by decide)⟩

end Xv6.Buddy
