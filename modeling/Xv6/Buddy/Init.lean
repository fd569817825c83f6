import Xv6.Buddy.Repr

/-!
# Setting the buddy allocator up

`bd_init(base, end)` rounds `base` up to `LEAF_SIZE` as `bd_base`, picks
`nsizes` so that `HEAP_SIZE` covers `[bd_base, end)`, lays `bd_sizes` and the
bit arrays out from `bd_base`, marks the metadata `[bd_base, p)` and the part
`[bd_end, bd_base + HEAP_SIZE)` beyond `end` as allocated (`bd_mark`), and puts
on the free lists the blocks that `bd_initfree` finds next to the two
boundaries `p` and `bd_end`. It panics unless the free lists add up to
`HEAP_SIZE - meta - unavailable`.
-/

namespace Xv6.Buddy

open Intrusive

/-- `log2(n)`'s loop `while (n > 1) { k++; n = n >> 1; }`, with `fuel` turns. -/
def log2.loop : Nat → Nat → Nat → Nat
  | 0, k, _ => k
  | fuel + 1, k, n => if n > 1 then log2.loop fuel (k + 1) (n >>> 1) else k

/-- `log2(n)`: `n` turns are more than the loop takes. -/
def log2 (n : Nat) : Nat := log2.loop n 0 n

namespace Bd

/-- `blk_index_next(k, p)`: the first block of size `k` that does not start
below `p`. -/
def blk_index_next (s : Bd) (k p : Nat) : Nat :=
  if (p - s.bd_base) % BLK_SIZE k ≠ 0 then (p - s.bd_base) / BLK_SIZE k + 1
  else (p - s.bd_base) / BLK_SIZE k

/-- One turn of `bd_mark`'s inner loop: block `bi` of size `k` is marked split
(from size 1 on) and allocated. -/
def markOne (s : Bd) (k bi : Nat) : Bd :=
  { s with bits := bit_set (if 0 < k then bit_set s.bits (s.split k) bi else s.bits) (s.alloc k) bi }

/-- `bd_mark`'s inner loop at size `k`: the blocks `bi ≤ b < bj`. -/
def markSize (s : Bd) (k bi bj : Nat) : Bd :=
  (List.range' bi (bj - bi)).foldl (fun s b => s.markOne k b) s

/-- `bd_mark(start, stop)`: every block of every size that meets
`[start, stop)` is marked allocated, and split from size 1 on. `none` is the
panic on an address that is not a multiple of `LEAF_SIZE`. -/
def bd_mark (s : Bd) (start stop : Nat) : Option Bd :=
  if start % LEAF_SIZE ≠ 0 ∨ stop % LEAF_SIZE ≠ 0 then none
  else some ((List.range s.nsizes).foldl
    (fun s k => s.markSize k (s.blk_index k start) (s.blk_index_next k stop)) s)

/-- `bd_initfree_pair(k, bi)`: if exactly one of `bi` and its buddy is
allocated, the other goes on the free list of size `k` and counts
`BLK_SIZE(k)` free bytes. -/
def bd_initfree_pair (s : Bd) (k bi : Nat) : Nat × Bd :=
  let buddy := buddyOf bi
  if bit_isset s.bits (s.alloc k) bi ≠ bit_isset s.bits (s.alloc k) buddy then
    let q := if bit_isset s.bits (s.alloc k) bi then s.addr k buddy else s.addr k bi
    (BLK_SIZE k, { s with links := push s.links (s.free k) q })
  else (0, s)

/-- One turn of `bd_initfree`'s loop at size `k`: the pair at the first block
not below `bd_left`, then, if it is a different block, the pair at the block
that holds `bd_right`. -/
def initfreeOne (s : Bd) (bd_left bd_right k : Nat) : Nat × Bd :=
  let left := s.blk_index_next k bd_left
  let right := s.blk_index k bd_right
  let (f₁, s₁) := s.bd_initfree_pair k left
  if right ≤ left then (f₁, s₁)
  else
    let (f₂, s₂) := s₁.bd_initfree_pair k right
    (f₁ + f₂, s₂)

/-- `bd_initfree(bd_left, bd_right)`: the loop over the sizes below `MAXSIZE`,
adding up the free bytes. -/
def bd_initfree (s : Bd) (bd_left bd_right : Nat) : Nat × Bd :=
  (List.range s.MAXSIZE).foldl
    (fun (acc : Nat × Bd) k =>
      let r := acc.2.initfreeOne bd_left bd_right k
      (acc.1 + r.1, r.2))
    (0, s)

/-! ### What `bd_mark` writes -/

/-- The blocks `bd_mark(start, stop)` marks: at each size, from
`blk_index(k, start)` up to `blk_index_next(k, stop)`. -/
def markedBlocks (s : Bd) (start stop : Nat) : List (Nat × Nat) :=
  (List.range s.nsizes).flatMap fun k =>
    (List.range' (s.blk_index k start) (s.blk_index_next k stop - s.blk_index k start)).map fun b => (k, b)

/-- `markOne` over a list of blocks, in order. -/
def markAll (s : Bd) (l : List (Nat × Nat)) : Bd := l.foldl (fun s x => s.markOne x.1 x.2) s

section Mark

variable {s : Bd} {k b k' b' : Nat}

@[simp] theorem markAll_nsizes : ∀ (l : List (Nat × Nat)) (s : Bd), (s.markAll l).nsizes = s.nsizes
  | [], _ => rfl
  | x :: l, s => markAll_nsizes l (s.markOne x.1 x.2)

@[simp] theorem markAll_bd_base : ∀ (l : List (Nat × Nat)) (s : Bd), (s.markAll l).bd_base = s.bd_base
  | [], _ => rfl
  | x :: l, s => markAll_bd_base l (s.markOne x.1 x.2)

@[simp] theorem markAll_links : ∀ (l : List (Nat × Nat)) (s : Bd), (s.markAll l).links = s.links
  | [], _ => rfl
  | x :: l, s => markAll_links l (s.markOne x.1 x.2)

theorem markAll_append (s : Bd) (l₁ l₂ : List (Nat × Nat)) :
    s.markAll (l₁ ++ l₂) = (s.markAll l₁).markAll l₂ :=
  List.foldl_append

theorem mem_markedBlocks : (k, b) ∈ s.markedBlocks start stop ↔
    k < s.nsizes ∧ s.blk_index k start ≤ b ∧ b < s.blk_index_next k stop := by
  simp only [markedBlocks, List.mem_flatMap, List.mem_range, List.mem_map, List.mem_range', Prod.mk.injEq]
  constructor
  · rintro ⟨k', hk', b'', ⟨i, hi, rfl⟩, rfl, rfl⟩
    omega
  · rintro ⟨hk, h₁, h₂⟩
    exact ⟨k, hk, b, ⟨b - s.blk_index k start, by omega, by omega⟩, rfl, rfl⟩

/-- **`bd_mark` marks the blocks of `markedBlocks`**, when both ends are
aligned to `LEAF_SIZE`. -/
theorem bd_mark_eq (h : start % LEAF_SIZE = 0 ∧ stop % LEAF_SIZE = 0) :
    s.bd_mark start stop = some (s.markAll (s.markedBlocks start stop)) := by
  rw [bd_mark, if_neg (by omega)]
  congr 1
  -- the loop over the sizes reads `blk_index` of a state whose `bd_base` is the start's
  have key : ∀ (ks : List Nat) (s₀ : Bd), s₀.bd_base = s.bd_base →
      ks.foldl (fun s k => s.markSize k (s.blk_index k start) (s.blk_index_next k stop)) s₀ =
        s₀.markAll (ks.flatMap fun k =>
          (List.range' (s.blk_index k start) (s.blk_index_next k stop - s.blk_index k start)).map fun b => (k, b)) := by
    intro ks
    induction ks with
    | nil => intro s₀ _; rfl
    | cons k ks ih =>
      intro s₀ hs₀
      rw [List.foldl_cons, List.flatMap_cons, markAll_append]
      have hmark : s₀.markSize k (s₀.blk_index k start) (s₀.blk_index_next k stop) =
          s₀.markAll ((List.range' (s.blk_index k start) (s.blk_index_next k stop - s.blk_index k start)).map
            fun b => (k, b)) := by
        simp only [markSize, markAll, List.foldl_map, blk_index, blk_index_next, hs₀]
      rw [hmark]
      exact ih _ (by rw [markAll_bd_base, hs₀])
  exact key _ s rfl

theorem markOne_isAlloc (hx : s.InRange k' b') (hkb : s.InRange k b) :
    (s.markOne k' b').isAlloc k b = (s.isAlloc k b || decide (k = k' ∧ b = b')) := by
  -- the split bit is written first, then the alloc bit
  have inner : ({ s with bits := if 0 < k' then bit_set s.bits (s.split k') b' else s.bits } : Bd).isAlloc k b =
      s.isAlloc k b := by
    split_ifs with hk'
    · rw [bit_set_eq]
      exact isAlloc_writeSplit hk' hkb true
    · rfl
  have outer := isAlloc_writeAlloc (show ({ s with bits := if 0 < k' then bit_set s.bits (s.split k') b'
    else s.bits } : Bd).InRange k' b' from hx) hkb true
  rw [markOne, bit_set_eq]
  refine outer.trans ?_
  rw [inner]
  by_cases hkb' : k = k' ∧ b = b' <;> simp [hkb']

theorem markOne_isSplit (hx : s.InRange k' b') (hkb : s.InRange k b) (hk : 0 < k) :
    (s.markOne k' b').isSplit k b = (s.isSplit k b || decide (k = k' ∧ b = b')) := by
  rw [markOne, bit_set_eq]
  refine (isSplit_writeAlloc (show ({ s with bits := if 0 < k' then bit_set s.bits (s.split k') b'
    else s.bits } : Bd).InRange k' b' from hx) hk true).trans ?_
  split_ifs with hk'
  · rw [bit_set_eq]
    refine (isSplit_writeSplit hk' hx hk hkb true).trans ?_
    by_cases hkb' : k = k' ∧ b = b' <;> simp [hkb']
  · have : ¬(k = k' ∧ b = b') := fun h' => hk' (h'.1 ▸ hk)
    simp only [this, decide_false, Bool.or_false]

/-- **The alloc bits after marking**: those of the marked blocks are set. -/
theorem markAll_isAlloc : ∀ (l : List (Nat × Nat)) (s : Bd), (∀ x ∈ l, s.InRange x.1 x.2) → s.InRange k b →
    (s.markAll l).isAlloc k b = (s.isAlloc k b || decide ((k, b) ∈ l))
  | [], _, _, _ => by simp [markAll]
  | x :: l, s, hl, hkb => by
    have hx := hl x List.mem_cons_self
    have ih := markAll_isAlloc l (s.markOne x.1 x.2) (fun y hy => hl y (List.mem_cons_of_mem _ hy)) hkb
    rw [show s.markAll (x :: l) = (s.markOne x.1 x.2).markAll l from rfl, ih, markOne_isAlloc hx hkb]
    simp [Prod.ext_iff, Bool.or_assoc]

/-- The split bits after marking: those of the marked blocks from size 1 on are set. -/
theorem markAll_isSplit (hk : 0 < k) : ∀ (l : List (Nat × Nat)) (s : Bd), (∀ x ∈ l, s.InRange x.1 x.2) →
    s.InRange k b → (s.markAll l).isSplit k b = (s.isSplit k b || decide ((k, b) ∈ l))
  | [], _, _, _ => by simp [markAll]
  | x :: l, s, hl, hkb => by
    have hx := hl x List.mem_cons_self
    have ih := markAll_isSplit hk l (s.markOne x.1 x.2) (fun y hy => hl y (List.mem_cons_of_mem _ hy)) hkb
    rw [show s.markAll (x :: l) = (s.markOne x.1 x.2).markAll l from rfl, ih, markOne_isSplit hx hkb hk]
    simp [Prod.ext_iff, Bool.or_assoc]

end Mark

/-! ### What `bd_initfree` pushes -/

/-- The address `bd_initfree_pair(k, bi)` pushes, if any: the free one of the
pair, when exactly one of the two is allocated. -/
def pairPush (s : Bd) (k bi : Nat) : List Nat :=
  if bit_isset s.bits (s.alloc k) bi ≠ bit_isset s.bits (s.alloc k) (buddyOf bi) then
    [if bit_isset s.bits (s.alloc k) bi then s.addr k (buddyOf bi) else s.addr k bi]
  else []

/-- The addresses one turn of `bd_initfree`'s loop pushes on the list of size `k`. -/
def levelPush (s : Bd) (bd_left bd_right k : Nat) : List Nat :=
  s.pairPush k (s.blk_index_next k bd_left) ++
    if s.blk_index k bd_right ≤ s.blk_index_next k bd_left then [] else s.pairPush k (s.blk_index k bd_right)

/-- Everything `bd_initfree` pushes, with the size of each list. -/
def initPushes (s : Bd) (bd_left bd_right : Nat) : List (Nat × Nat) :=
  (List.range s.MAXSIZE).flatMap fun k => (s.levelPush bd_left bd_right k).map fun a => (k, a)

/-- Pushing addresses onto the list of size `k`. -/
def pushAll (s : Bd) (k : Nat) (l : List Nat) : Bd :=
  { s with links := l.foldl (fun m a => push m (s.free k) a) s.links }

theorem bd_initfree_pair_eq (s : Bd) (k bi : Nat) :
    s.bd_initfree_pair k bi = ((s.pairPush k bi).length * BLK_SIZE k, s.pushAll k (s.pairPush k bi)) := by
  simp only [bd_initfree_pair, pairPush, pushAll]
  by_cases hne : bit_isset s.bits (s.alloc k) bi ≠ bit_isset s.bits (s.alloc k) (buddyOf bi)
  · simp only [if_pos hne]
    simp
  · simp only [if_neg hne]
    simp

/-- Pushing reads no bit. -/
@[simp] theorem pairPush_pushAll (s : Bd) (j : Nat) (l : List Nat) (k bi : Nat) :
    (s.pushAll j l).pairPush k bi = s.pairPush k bi := rfl

theorem pushAll_pushAll (s : Bd) (k : Nat) (l₁ l₂ : List Nat) :
    (s.pushAll k l₁).pushAll k l₂ = s.pushAll k (l₁ ++ l₂) := by
  unfold pushAll
  rw [List.foldl_append]
  rfl

theorem initfreeOne_eq (s : Bd) (l r k : Nat) :
    s.initfreeOne l r k = ((s.levelPush l r k).length * BLK_SIZE k, s.pushAll k (s.levelPush l r k)) := by
  simp only [initfreeOne, levelPush, bd_initfree_pair_eq, pairPush_pushAll]
  split_ifs with hrl
  · simp
  · rw [pushAll_pushAll]
    simp [Nat.add_mul]

/-- **`bd_initfree` in closed form**: it adds up `BLK_SIZE(k)` for every push, and
pushes, size after size, what `levelPush` says. -/
theorem bd_initfree_eq (s : Bd) (l r : Nat) :
    s.bd_initfree l r = (((List.range s.MAXSIZE).map fun k => (s.levelPush l r k).length * BLK_SIZE k).sum,
      { s with links := (s.initPushes l r).foldl (fun m x => push m (s.free x.1) x.2) s.links }) := by
  -- the loop changes only the links, so every turn reads the bits of `s`
  have key : ∀ (ks : List Nat) (acc : Nat) (m : Mem Nat),
      ks.foldl (fun (acc : Nat × Bd) k => let r' := acc.2.initfreeOne l r k; (acc.1 + r'.1, r'.2))
        (acc, { s with links := m }) =
      (acc + (ks.map fun k => (s.levelPush l r k).length * BLK_SIZE k).sum,
        { s with links := ((ks.flatMap fun k => (s.levelPush l r k).map fun a => (k, a)).foldl
          (fun m x => push m (s.free x.1) x.2) m) }) := by
    intro ks
    induction ks with
    | nil => intro acc m; simp
    | cons k ks ih =>
      intro acc m
      rw [List.foldl_cons, initfreeOne_eq]
      simp only [pushAll]
      rw [show levelPush { s with links := m } l r k = s.levelPush l r k from rfl, ih]
      simp [List.foldl_append, List.foldl_map, Nat.add_assoc]
      rfl
  exact key _ 0 s.links |>.trans (by simp [initPushes])

end Bd

/-! ## `bd_init` -/

/-- `bd_base`: `base` rounded up to `LEAF_SIZE`. -/
def initBase (base : Nat) : Nat := ROUNDUP base LEAF_SIZE

/-- `nsizes`: `log2` of the leaves in `[bd_base, end)`, plus one, plus one
more when that heap is still too small. -/
def initSizes (base end_ : Nat) : Nat :=
  let n := log2 ((end_ - initBase base) / LEAF_SIZE) + 1
  if end_ - initBase base > BLK_SIZE (n - 1) then n + 1 else n

/-- The allocator right after the arrays are laid out and zeroed: every free
list empty (`lst_init`), every bit clear. -/
def initLayout (base end_ : Nat) : Bd :=
  let nsizes := initSizes base end_
  let bd_base := initBase base
  ⟨nsizes, bd_base,
    (List.range nsizes).foldl (fun m k => init m (bd_base + SZ_INFO * k)) (fun _ => ⟨0, 0⟩),
    fun _ => false⟩

/-- The end of the metadata: the address after the last split array, rounded up
to `LEAF_SIZE`. -/
def initMeta (base end_ : Nat) : Nat :=
  ROUNDUP (splitArr (initSizes base end_) (initBase base) (initSizes base end_)) LEAF_SIZE

/-- `bd_mark_unavailable`'s `unavailable`: the bytes of the heap past `end`,
rounded up to `LEAF_SIZE`. -/
def initUnavailable (base end_ : Nat) : Nat :=
  ROUNDUP (BLK_SIZE (initSizes base end_ - 1) - (end_ - initBase base)) LEAF_SIZE

/-- `bd_end`: the end of the usable heap. -/
def initEnd (base end_ : Nat) : Nat :=
  initBase base + BLK_SIZE (initSizes base end_ - 1) - initUnavailable base end_

/-- `bd_init(base, end)`; `none` is a panic, of `bd_mark` or of the final check
that the free lists hold `HEAP_SIZE - meta - unavailable` bytes. -/
def bd_init (base end_ : Nat) : Option Bd := do
  let s := initLayout base end_
  let p := initMeta base end_
  let bd_end := initEnd base end_
  let heap := BLK_SIZE s.MAXSIZE
  let s ← s.bd_mark s.bd_base p
  let s ← s.bd_mark bd_end (s.bd_base + heap)
  let (free, s) := s.bd_initfree p bd_end
  if (free : Int) ≠ heap - (p - s.bd_base) - initUnavailable base end_ then none
  else some s

end Xv6.Buddy
