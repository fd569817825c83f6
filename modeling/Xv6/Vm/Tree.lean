import Xv6.Vm.Basic

/-!
# The tree invariant, and what writes do to the map

A page table is well formed (`WF`) when it is a tree: a valid entry of the root
or of a level-1 table points to a table (its `R`, `W`, `X` bits are clear), no
page sits at two positions of the tree, and no table page is free. The page
allocator's own invariant rides along: its free pages are distinct,
page-aligned addresses.

Every write the code makes to a tree is one of three kinds, and each has its
lemma here:

* a write to a page that is not a table of the tree (`memset` of a page fresh
  from `kalloc`) changes neither the tree nor the map (`translate_congr`,
  `tableAt_congr`);
* a write that links a fresh zeroed table under an invalid interior entry
  adds that table at one position and leaves the map as it was
  (`WF.link`);
* a write to the PTE of a level-0 table changes the map at that PTE's page
  only (`Tree.setPTE_leaf`).

`WF.walk_alloc` is `walk` with allocation put together from them.
-/

namespace Xv6

/-- A position in the tree: the root, the level-1 table under entry `i` of the
root, or the level-0 table under entry `j` of that one. -/
inductive Pos where
  | root
  | l1 (i : Nat)
  | l0 (i j : Nat)
deriving DecidableEq

/-- Indices of a position are those of a 512-entry table. -/
def Pos.Valid : Pos → Prop
  | .root => True
  | .l1 i => i < 512
  | .l0 i j => i < 512 ∧ j < 512

/-- The positions whose tables hold pointers to tables. -/
def Pos.Interior : Pos → Prop
  | .l0 _ _ => False
  | _ => True

/-- The table at a position, following valid entries from the root. -/
def tableAt (m : Mem) (root : Nat) : Pos → Option Nat
  | .root => some root
  | .l1 i => child m root i
  | .l0 i j => (child m root i).bind fun t => child m t j

/-- The pages at `root` form a tree: a valid entry of the root or of a level-1
table points to a table, and no page sits at two positions. -/
structure Tree (m : Mem) (root : Nat) : Prop where
  ptr : ∀ a x, a.Valid → a.Interior → tableAt m root a = some x → ∀ j < 512,
    m.tbl x j &&& PTE_V ≠ 0 → m.tbl x j &&& (PTE_R ||| PTE_W ||| PTE_X) = 0
  inj : ∀ a b x, a.Valid → b.Valid → tableAt m root a = some x → tableAt m root b = some x → a = b

/-- The tree at `root` is well formed, none of its pages is free, and the
allocator's free pages are distinct page-aligned addresses. -/
structure WF (m : Mem) (root : Nat) : Prop extends Tree m root where
  table_not_free : ∀ a x, a.Valid → tableAt m root a = some x → x ∉ m.free
  nodup : m.free.Nodup
  aligned : ∀ x ∈ m.free, x % PGSIZE = 0 ∧ x < 2 ^ 64

variable {m m' : Mem} {root : Nat}

/-! ## Reading the tree -/

theorem leafSlot_eq (m : Mem) (root va : Nat) :
    leafSlot m root va = (tableAt m root (.l0 (PX 2 va) (PX 1 va))).map fun t => (t, PX 0 va) := by
  simp only [leafSlot, tableAt, Option.bind_eq_bind]
  cases child m root (PX 2 va) with
  | none => rfl
  | some t =>
    simp only [Option.bind_some]
    cases child m t (PX 1 va) <;> rfl

theorem Pos.valid_l0 (va : Nat) : (Pos.l0 (PX 2 va) (PX 1 va)).Valid := ⟨PX_lt 2 va, PX_lt 1 va⟩

/-- Two tables agree on the pages of the root and of level 1: they have the same
positions. -/
theorem tableAt_congr
    (h : ∀ a y, a.Valid → a.Interior → tableAt m root a = some y → m'.tbl y = m.tbl y)
    {b : Pos} (hb : b.Valid) : tableAt m' root b = tableAt m root b := by
  have hroot : m'.tbl root = m.tbl root := h .root root trivial trivial rfl
  have hchild : ∀ i, child m' root i = child m root i := fun i => by simp [child, hroot]
  cases b with
  | root => rfl
  | l1 i => exact hchild i
  | l0 i j =>
    simp only [tableAt, hchild]
    cases ht : child m root i with
    | none => rfl
    | some t =>
      have ht' : m'.tbl t = m.tbl t := h (.l1 i) t hb.1 trivial ht
      simp [child, ht']

/-- Two tables agree on every page of the tree: they give the same map. -/
theorem translate_congr (h : ∀ a y, a.Valid → tableAt m root a = some y → m'.tbl y = m.tbl y)
    (va : Nat) : translate m' root va = translate m root va := by
  have hl0 : tableAt m' root (.l0 (PX 2 va) (PX 1 va)) = tableAt m root (.l0 (PX 2 va) (PX 1 va)) :=
    tableAt_congr (fun a y ha _ hy => h a y ha hy) (Pos.valid_l0 va)
  simp only [translate, leafSlot_eq, hl0]
  cases ht : tableAt m root (.l0 (PX 2 va) (PX 1 va)) with
  | none => rfl
  | some t => simp [h _ t (Pos.valid_l0 va) ht]

/-- Changes outside the pages of the root and of level 1 keep the tree. -/
theorem Tree.congr (ht : Tree m root)
    (h : ∀ a y, a.Valid → a.Interior → tableAt m root a = some y → m'.tbl y = m.tbl y) : Tree m' root := by
  have hpos : ∀ b, b.Valid → tableAt m' root b = tableAt m root b := fun b hb => tableAt_congr h hb
  refine ⟨fun a x ha hi hx j hj => ?_, fun a b x ha hb hxa hxb => ?_⟩
  · rw [hpos a ha] at hx
    rw [h a x ha hi hx]
    exact ht.ptr a x ha hi hx j hj
  · rw [hpos a ha] at hxa
    rw [hpos b hb] at hxb
    exact ht.inj a b x ha hb hxa hxb

/-- Changes outside the pages of the root and of level 1, with the free pages as
they were, keep the tree well formed. -/
theorem WF.congr (hw : WF m root)
    (h : ∀ a y, a.Valid → a.Interior → tableAt m root a = some y → m'.tbl y = m.tbl y)
    (hfree : m'.free = m.free) : WF m' root := by
  have hpos : ∀ b, b.Valid → tableAt m' root b = tableAt m root b := fun b hb => tableAt_congr h hb
  refine ⟨hw.toTree.congr h, fun a x ha hx => ?_, ?_, ?_⟩
  · rw [hpos a ha] at hx
    rw [hfree]
    exact hw.table_not_free a x ha hx
  · rw [hfree]
    exact hw.nodup
  · rw [hfree]
    exact hw.aligned

/-- The page `kalloc` hands out is no table, no longer free, and page-aligned;
the tree stays well formed. -/
theorem WF.kalloc (hw : WF m root) {x : Nat} (h : m.kalloc = some (x, m')) :
    WF m' root ∧ (∀ a, a.Valid → tableAt m root a ≠ some x) ∧ x ∉ m'.free ∧ x % PGSIZE = 0 ∧
      x < 2 ^ 64 ∧ m'.tbl = m.tbl ∧ m'.bytes = m.bytes := by
  obtain ⟨hfree, htbl, hbytes⟩ := Mem.kalloc_eq_some h
  have hpos : ∀ b, tableAt m' root b = tableAt m root b := by
    intro b
    cases b <;> simp [tableAt, child, htbl]
  have hnd := hw.nodup
  rw [hfree] at hnd
  have hal := hw.aligned x (by rw [hfree]; exact List.mem_cons_self)
  refine ⟨⟨⟨fun a y ha hi hy j hj => ?_, fun a b y ha hb hya hyb => ?_⟩, fun a y ha hy hmem => ?_, ?_, ?_⟩,
    fun a ha hx => ?_, (List.nodup_cons.mp hnd).1, hal.1, hal.2, htbl, hbytes⟩
  · rw [hpos] at hy
    rw [htbl]
    exact hw.ptr a y ha hi hy j hj
  · rw [hpos] at hya hyb
    exact hw.inj a b y ha hb hya hyb
  · rw [hpos] at hy
    exact hw.table_not_free a y ha hy (by rw [hfree]; exact List.mem_cons_of_mem _ hmem)
  · exact (List.nodup_cons.mp hnd).2
  · exact fun y hy => hw.aligned y (by rw [hfree]; exact List.mem_cons_of_mem _ hy)
  · exact hw.table_not_free a x ha hx (by rw [hfree]; exact List.mem_cons_self)

/-- A zeroed page that is not free is a tree of one table, the root. -/
theorem WF.zero (hz : ∀ j, m.tbl root j = 0) (hroot : root ∉ m.free) (hnd : m.free.Nodup)
    (hal : ∀ x ∈ m.free, x % PGSIZE = 0 ∧ x < 2 ^ 64) : WF m root := by
  have hchild : ∀ i, child m root i = none := fun i => by simp [child, hz]
  have hpos : ∀ a x, tableAt m root a = some x → a = .root ∧ x = root := by
    intro a x h
    cases a with
    | root => exact ⟨rfl, (Option.some.inj h).symm⟩
    | l1 i => simp [tableAt, hchild] at h
    | l0 i j => simp [tableAt, hchild] at h
  refine ⟨⟨fun a x _ _ hx j _ hv => ?_, fun a b x _ _ hxa hxb => ?_⟩, fun a x _ hx => ?_, hnd, hal⟩
  · obtain ⟨-, rfl⟩ := hpos a x hx
    simp [hz] at hv
  · rw [(hpos a x hxa).1, (hpos b x hxb).1]
  · rw [(hpos a x hx).2]
    exact hroot

/-! ## Linking a fresh table -/

namespace Mem

/-- `memset` of the page `x` from `kalloc`, then `*pte = PA2PTE(x) | PTE_V` in entry
`k` of table `t`: the step by which `walk` makes a missing table. -/
def link (m : Mem) (t k x : Nat) : Mem := (m.zeroPage x).setPTE t k (PA2PTE x ||| PTE_V)

theorem tbl_link (m : Mem) (t k x y j : Nat) :
    (m.link t k x).tbl y j =
      if y = t ∧ j = k then PA2PTE x ||| PTE_V else if y = x then 0 else m.tbl y j := by
  simp only [link, setPTE_tbl, zeroPage_tbl]

@[simp] theorem link_free (m : Mem) (t k x : Nat) : (m.link t k x).free = m.free := rfl

@[simp] theorem link_bytes (m : Mem) (t k x : Nat) : (m.link t k x).bytes = m.bytes := rfl

end Mem

/-- The PTE linking a table: valid, with `R`, `W`, `X` clear, naming the table. -/
theorem link_pte {x : Nat} (hx : x % PGSIZE = 0) (hx' : x < 2 ^ 64) :
    (PA2PTE x ||| PTE_V) % 2 = 1 ∧ (PA2PTE x ||| PTE_V) % 16 < 2 ∧ PTE2PA (PA2PTE x ||| PTE_V) = x := by
  rw [PA2PTE_or (show PTE_V < 1024 by decide), PTE2PA_mk (show PTE_V < 1024 by decide)]
  simp only [PTE_V, PGSIZE] at *
  omega

variable {t k x : Nat}

theorem child_link_self (hx : x % PGSIZE = 0) (hx' : x < 2 ^ 64) : child (m.link t k x) t k = some x := by
  obtain ⟨hv, -, hpa⟩ := link_pte hx hx'
  simp [child, Mem.tbl_link, valid_iff, hv, hpa]

theorem child_link_fresh (hxt : x ≠ t) (j : Nat) : child (m.link t k x) x j = none := by
  simp [child, Mem.tbl_link, hxt]

theorem child_link_of_ne (y j : Nat) (h : ¬(y = t ∧ j = k)) (hy : y ≠ x) :
    child (m.link t k x) y j = child m y j := by
  simp [child, Mem.tbl_link, h, hy]

/-- The position under entry `k` of the table at an interior position. -/
def Pos.down : Pos → Nat → Pos
  | .root, k => .l1 k
  | .l1 i, k => .l0 i k
  | .l0 i j, _ => .l0 i j

section Link

variable {a : Pos} (hw : WF m root) (ha : a.Valid) (hai : a.Interior) (ht : tableAt m root a = some t)
  (hx : ∀ b, b.Valid → tableAt m root b ≠ some x) (hxa : x % PGSIZE = 0) (hxl : x < 2 ^ 64)
include hw ha hai ht hx hxa hxl

/-- After linking a fresh table under an invalid entry, the tree has it at one new
position and is otherwise as it was. -/
theorem tableAt_link (hnone : child m t k = none) {b : Pos} (hb : b.Valid) :
    tableAt (m.link t k x) root b = if b = a.down k then some x else tableAt m root b := by
  have hroot : root ≠ x := fun h => hx .root trivial (h ▸ rfl)
  cases a with
  | l0 i j => exact hai.elim
  | root =>
    cases ht
    cases b with
    | root => simp [tableAt, Pos.down]
    | l1 i =>
      by_cases hik : i = k
      · subst hik
        simp [tableAt, Pos.down, child_link_self hxa hxl]
      · have hc : child (m.link root k x) root i = child m root i :=
          child_link_of_ne root i (by simp [hik]) hroot
        simp [tableAt, Pos.down, hik, hc]
    | l0 i j =>
      by_cases hik : i = k
      · subst hik
        simp [tableAt, Pos.down, child_link_self hxa hxl, child_link_fresh hroot.symm, hnone]
      · rw [if_neg (by simp [Pos.down]), tableAt, tableAt, child_link_of_ne root i (by simp [hik]) hroot]
        cases hu : child m root i with
        | none => rfl
        | some u =>
          -- `u` is a level-1 table: neither the root nor the fresh page
          have hur : u ≠ root := fun h => by
            cases hw.inj (.l1 i) .root u hb.1 trivial hu (h ▸ rfl)
          exact child_link_of_ne u j (by simp [hur]) fun h => hx (.l1 i) hb.1 (h ▸ hu)
  | l1 i₀ =>
    have htr : t ≠ root := fun h => by cases hw.inj (.l1 i₀) .root t ha trivial ht (h ▸ rfl)
    cases b with
    | root => simp [tableAt, Pos.down]
    | l1 i =>
      have hc : child (m.link t k x) root i = child m root i :=
        child_link_of_ne root i (by simp [htr.symm]) hroot
      simp [tableAt, Pos.down, hc]
    | l0 i j =>
      rw [tableAt, tableAt, child_link_of_ne root i (by simp [htr.symm]) hroot]
      cases hu : child m root i with
      | none =>
        -- the new position hangs under `i₀`, which has a table
        have hi : i ≠ i₀ := fun h => by
          simp only [tableAt] at ht
          rw [h, ht] at hu
          cases hu
        simp [Pos.down, hi]
      | some u =>
        have hux : u ≠ x := fun h => hx (.l1 i) hb.1 (h ▸ hu)
        by_cases hut : u = t ∧ j = k
        · obtain ⟨rfl, rfl⟩ := hut
          have hi : i = i₀ := by cases hw.inj (.l1 i) (.l1 i₀) u hb.1 ha hu ht; rfl
          subst hi
          simp [Pos.down, child_link_self hxa hxl]
        · have hne : Pos.l0 i j ≠ (Pos.l1 i₀).down k := by
            simp only [Pos.down, ne_eq, Pos.l0.injEq, not_and]
            rintro rfl rfl
            exact hut ⟨by simpa [tableAt, hu] using ht, rfl⟩
          simp [hne, child_link_of_ne u j hut hux]

/-- Linking a fresh zeroed table under an invalid entry keeps the tree well formed,
puts the table at the new position, and leaves the map as it was: every address
under the new table is as unmapped as it was before. -/
theorem WF.link (hxf : x ∉ m.free) (hk : k < 512) (hnone : child m t k = none) :
    WF (m.link t k x) root ∧ tableAt (m.link t k x) root (a.down k) = some x ∧
      ∀ va, translate (m.link t k x) root va = translate m root va := by
  have hpos := fun {b : Pos} (hb : b.Valid) => tableAt_link hw ha hai ht hx hxa hxl hnone hb
  obtain ⟨-, hrwx, -⟩ := link_pte hxa hxl
  have hxt : x ≠ t := fun h => hx a ha (h ▸ ht)
  have hdown : (a.down k).Valid := by
    cases a with
    | root => exact hk
    | l1 i => exact ⟨ha, hk⟩
    | l0 i j => exact hai.elim
  refine ⟨⟨⟨fun b y hb hbi hy j hj hval => ?_, fun b c y hb hc hyb hyc => ?_⟩, fun b y hb hy => ?_,
    hw.nodup, hw.aligned⟩, by rw [hpos hdown, if_pos rfl], fun va => ?_⟩
  · rw [hpos hb] at hy
    split_ifs at hy with hbd
    · -- the new table is all zeros
      cases hy
      simp [Mem.tbl_link, hxt] at hval
    · by_cases h1 : y = t ∧ j = k
      · rw [Mem.tbl_link, if_pos h1]
        exact (rwx_eq_zero_iff _).mpr hrwx
      · have hyx : y ≠ x := fun h => hx b hb (h ▸ hy)
        rw [Mem.tbl_link, if_neg h1, if_neg hyx] at hval ⊢
        exact hw.ptr b y hb hbi hy j hj hval
  · rw [hpos hb] at hyb
    rw [hpos hc] at hyc
    split_ifs at hyb hyc with h1 h2 h2
    · rw [h1, h2]
    · cases hyb
      exact absurd hyc (hx c hc)
    · cases hyc
      exact absurd hyb (hx b hb)
    · exact hw.inj b c y hb hc hyb hyc
  · rw [hpos hb] at hy
    rw [Mem.link_free]
    split_ifs at hy
    · cases hy
      exact hxf
    · exact hw.table_not_free b y hb hy
  · rw [translate, translate, leafSlot_eq, leafSlot_eq, hpos (Pos.valid_l0 va)]
    split_ifs with hd
    · -- the new table is at level 0: the address was unmapped, and is still
      cases a with
      | root => simp [Pos.down] at hd
      | l0 i j => exact hai.elim
      | l1 i₀ =>
        simp only [Pos.down, Pos.l0.injEq] at hd
        obtain ⟨h2, h1⟩ := hd
        have hbefore : tableAt m root (.l0 (PX 2 va) (PX 1 va)) = none := by
          simp only [tableAt] at ht ⊢
          rw [h2, h1, ht, Option.bind_some, hnone]
        simp [hbefore, Mem.tbl_link, hxt, decode, PTE_V]
    · cases hu : tableAt m root (.l0 (PX 2 va) (PX 1 va)) with
      | none => rfl
      | some u =>
        -- `u` is a level-0 table, so neither the fresh page nor the table written
        have hux : u ≠ x := fun h => hx _ (Pos.valid_l0 va) (h ▸ hu)
        have hut : u ≠ t := by
          rintro rfl
          have := hw.inj _ a u (Pos.valid_l0 va) ha hu ht
          subst this
          exact hai
        simp [Mem.tbl_link, hux, hut]

end Link

/-- The table under entry `k` of the table at an interior position. -/
theorem tableAt_down {a : Pos} (hai : a.Interior) (ht : tableAt m root a = some t) (k : Nat) :
    tableAt m root (a.down k) = child m t k := by
  cases a with
  | root =>
    cases ht
    rfl
  | l1 i =>
    simp only [tableAt] at ht
    simp [Pos.down, tableAt, ht]
  | l0 i j => exact hai.elim

/-! ## `walk` with allocation -/

/-- `m'` is `m` with tables added: the same map, the tables of `m` where they
were, and the pages taken from the allocator now tables of the tree. -/
structure Grows (m m' : Mem) (root : Nat) : Prop where
  translate : ∀ va, translate m' root va = translate m root va
  tables : ∀ b y, b.Valid → tableAt m root b = some y → tableAt m' root b = some y
  taken : ∃ l, m.free = l ++ m'.free ∧ ∀ x ∈ l, ∃ b, b.Valid ∧ tableAt m' root b = some x
  bytes : m'.bytes = m.bytes

theorem Grows.refl (m : Mem) (root : Nat) : Grows m m root :=
  ⟨fun _ => rfl, fun _ _ _ h => h, ⟨[], rfl, by simp⟩, rfl⟩

theorem Grows.trans {m₁ m₂ m₃ : Mem} (h₁ : Grows m₁ m₂ root) (h₂ : Grows m₂ m₃ root) :
    Grows m₁ m₃ root := by
  obtain ⟨l₁, hf₁, hl₁⟩ := h₁.taken
  obtain ⟨l₂, hf₂, hl₂⟩ := h₂.taken
  refine ⟨fun va => (h₂.translate va).trans (h₁.translate va), fun b y hb hy => h₂.tables b y hb (h₁.tables b y hb hy),
    ⟨l₁ ++ l₂, by rw [hf₁, hf₂, List.append_assoc], fun x hx => ?_⟩, h₂.bytes.trans h₁.bytes⟩
  rcases List.mem_append.mp hx with hx | hx
  · obtain ⟨b, hb, hxb⟩ := hl₁ x hx
    exact ⟨b, hb, h₂.tables b x hb hxb⟩
  · exact hl₂ x hx

/-- A page from `kalloc` linked under an invalid entry, as `walk` makes a table. -/
theorem WF.alloc_link (hw : WF m root) {a : Pos} (ha : a.Valid) (hai : a.Interior)
    (ht : tableAt m root a = some t) (hk : k < 512) (hnone : child m t k = none) {m₁ : Mem}
    (hal : m.kalloc = some (x, m₁)) :
    WF (m₁.link t k x) root ∧ tableAt (m₁.link t k x) root (a.down k) = some x ∧
      Grows m (m₁.link t k x) root := by
  obtain ⟨hw₁, hx, hxf, hxa, hxl, htbl, hbytes⟩ := hw.kalloc hal
  have hpos₁ : ∀ b, tableAt m₁ root b = tableAt m root b := fun b => by
    cases b <;> simp [tableAt, child, htbl]
  have hnone₁ : child m₁ t k = none := by simpa [child, htbl] using hnone
  obtain ⟨hwl, hdown, htr⟩ := hw₁.link ha hai (by rw [hpos₁]; exact ht)
    (fun b hb => by rw [hpos₁]; exact hx b hb) hxa hxl hxf hk hnone₁
  have hpos := fun {b : Pos} (hb : b.Valid) =>
    tableAt_link hw₁ ha hai (by rw [hpos₁]; exact ht) (fun b hb => by rw [hpos₁]; exact hx b hb) hxa hxl
      hnone₁ hb
  refine ⟨hwl, hdown, ⟨fun va => ?_, fun b y hb hy => ?_, ⟨[x], ?_, ?_⟩, by simp [hbytes]⟩⟩
  · rw [htr va]
    simp [translate, leafSlot, child, htbl]
  · -- the new position held no table before
    have hbd : b ≠ a.down k := by
      rintro rfl
      rw [tableAt_down hai ht, hnone] at hy
      cases hy
    rw [hpos hb, if_neg hbd, hpos₁]
    exact hy
  · obtain ⟨hfree, -⟩ := Mem.kalloc_eq_some hal
    simp [hfree]
  · intro y hy
    rw [List.mem_singleton] at hy
    subst hy
    have hdv : (a.down k).Valid := by
      cases a with
      | root => exact hk
      | l1 i => exact ⟨ha, hk⟩
      | l0 i j => exact hai.elim
    exact ⟨_, hdv, hdown⟩

theorem walkLevels_cons_alloc (va level : Nat) (ls : List Nat) (m : Mem) (t : Nat) :
    walkLevels va true (level :: ls) m t =
      match child m t (PX level va) with
      | some t' => walkLevels va true ls m t'
      | none =>
        match m.kalloc with
        | none => (none, m)
        | some (x, m₁) => walkLevels va true ls (m₁.link t (PX level va) x) x := by
  by_cases hv : m.tbl t (PX level va) &&& PTE_V = 0
  · -- both sides split on `kalloc`; the cases make the two matches one
    cases hk : m.kalloc <;> simp only [walkLevels, child, hv, hk, Mem.link, ne_eq, not_true_eq_false,
      if_false, Bool.not_true, Bool.false_eq_true]
  · simp [walkLevels, child, hv]

/-- One level of `walk` with allocation from the table at an interior position: the
walk stops because `kalloc` has no page, or goes on from the table at the position
below, made from a fresh page if there was none. -/
theorem WF.walk_level (hw : WF m root) {a : Pos} (ha : a.Valid) (hai : a.Interior)
    (ht : tableAt m root a = some t) (level va : Nat) (ls : List Nat) :
    (m.free = [] ∧ walkLevels va true (level :: ls) m t = (none, m)) ∨
      ∃ m₁ t₁, WF m₁ root ∧ Grows m m₁ root ∧ tableAt m₁ root (a.down (PX level va)) = some t₁ ∧
        walkLevels va true (level :: ls) m t = walkLevels va true ls m₁ t₁ := by
  rw [walkLevels_cons_alloc]
  cases hc : child m t (PX level va) with
  | some t₁ => exact .inr ⟨m, t₁, hw, Grows.refl m root, by rw [tableAt_down hai ht, hc], rfl⟩
  | none =>
    cases hal : m.kalloc with
    | none => exact .inl ⟨Mem.kalloc_eq_none.mp hal, rfl⟩
    | some r =>
      obtain ⟨x, m₁⟩ := r
      obtain ⟨hwl, hdown, hg⟩ := hw.alloc_link ha hai ht (PX_lt level va) hc hal
      exact .inr ⟨_, x, hwl, hg, hdown, rfl⟩

/-- `walk` with allocation in a well-formed tree: the tree stays well formed and
its map unchanged, and `walk` returns `va`'s PTE slot, or null because the
allocator ran out. -/
theorem WF.walk_alloc (hw : WF m root) {va : Nat} (hva : va < MAXVA) {r : Option (Nat × Nat)}
    (h : walk m root va true = .ok (r, m')) :
    WF m' root ∧ Grows m m' root ∧ (r = none → m'.free = []) ∧ ∀ s, r = some s → leafSlot m' root va = some s := by
  rw [walk, if_neg (Nat.not_le.mpr hva)] at h
  rcases hw.walk_level (show Pos.Valid .root from trivial) trivial rfl 2 va [1] with ⟨hfree, hl⟩ | ⟨m₁, t₁, hw₁, hg₁, ht₁, hl⟩
  · rw [hl] at h
    cases h
    exact ⟨hw, Grows.refl m root, fun _ => hfree, fun _ h => by cases h⟩
  · rw [hl] at h
    rcases hw₁.walk_level (show Pos.Valid (.l1 (PX 2 va)) from PX_lt 2 va) trivial ht₁ 1 va [] with
      ⟨hfree, hl₁⟩ | ⟨m₂, t₂, hw₂, hg₂, ht₂, hl₁⟩
    · rw [hl₁] at h
      cases h
      exact ⟨hw₁, hg₁, fun _ => hfree, fun _ h => by cases h⟩
    · rw [hl₁, walkLevels] at h
      cases h
      refine ⟨hw₂, hg₁.trans hg₂, (fun h => by cases h), fun s hs => ?_⟩
      cases hs
      rw [leafSlot_eq]
      simp only [Pos.down] at ht₂
      rw [ht₂]
      rfl

/-! ## Writing a leaf -/

section Leaf

variable {va u i : Nat}

theorem leafSlot_some (hs : leafSlot m root va = some (u, i)) :
    tableAt m root (.l0 (PX 2 va) (PX 1 va)) = some u ∧ i = PX 0 va := by
  rw [leafSlot_eq] at hs
  cases h : tableAt m root (.l0 (PX 2 va) (PX 1 va)) <;> simp_all

/-- A level-0 table is none of the pages the tree reads its positions from. -/
theorem Tree.setPTE_leaf_interior (ht : Tree m root) (hs : leafSlot m root va = some (u, i)) (v : Nat) :
    ∀ a y, a.Valid → a.Interior → tableAt m root a = some y → (m.setPTE u i v).tbl y = m.tbl y := by
  intro a y ha hai hy
  have hyu : y ≠ u := by
    rintro rfl
    have := ht.inj a _ y ha (Pos.valid_l0 va) hy (leafSlot_some hs).1
    subst this
    exact hai
  funext j
  simp [Mem.setPTE_tbl, hyu]

/-- A write to the PTE of a level-0 table keeps the tree, which reads no level-0
table, and changes the map at that PTE's page only. -/
theorem Tree.setPTE_leaf (ht : Tree m root) (hs : leafSlot m root va = some (u, i)) (v : Nat) :
    Tree (m.setPTE u i v) root ∧ ∀ va', translate (m.setPTE u i v) root va' =
      if PX 2 va' = PX 2 va ∧ PX 1 va' = PX 1 va ∧ PX 0 va' = PX 0 va then decode v
      else translate m root va' := by
  have hint := ht.setPTE_leaf_interior hs v
  obtain ⟨hu, rfl⟩ := leafSlot_some hs
  refine ⟨ht.congr hint, fun va' => ?_⟩
  rw [translate, translate, leafSlot_eq, leafSlot_eq, tableAt_congr hint (Pos.valid_l0 va')]
  cases hu' : tableAt m root (.l0 (PX 2 va') (PX 1 va')) with
  | none =>
    -- an address with no level-0 table is not under `u`
    have hne : ¬(PX 2 va' = PX 2 va ∧ PX 1 va' = PX 1 va ∧ PX 0 va' = PX 0 va) := by
      rintro ⟨h2, h1, -⟩
      rw [h2, h1, hu] at hu'
      cases hu'
    simp only [Option.map_none, Option.bind_none, if_neg hne]
  | some u' =>
    have hsame : u' = u ↔ PX 2 va' = PX 2 va ∧ PX 1 va' = PX 1 va := by
      constructor
      · rintro rfl
        have := ht.inj _ _ u' (Pos.valid_l0 va') (Pos.valid_l0 va) hu' hu
        simpa using this
      · rintro ⟨h2, h1⟩
        rw [h2, h1, hu] at hu'
        cases hu'
        rfl
    by_cases hp : PX 2 va' = PX 2 va ∧ PX 1 va' = PX 1 va ∧ PX 0 va' = PX 0 va
    · simp [Mem.setPTE_tbl, hsame.mpr ⟨hp.1, hp.2.1⟩, hp]
    · have hne : ¬(u' = u ∧ PX 0 va' = PX 0 va) := fun h => hp ⟨(hsame.mp h.1).1, (hsame.mp h.1).2, h.2⟩
      simp [Mem.setPTE_tbl, hne, hp]

theorem WF.setPTE_leaf (hw : WF m root) (hs : leafSlot m root va = some (u, i)) (v : Nat) :
    WF (m.setPTE u i v) root :=
  hw.congr (hw.toTree.setPTE_leaf_interior hs v) rfl

end Leaf

end Xv6
