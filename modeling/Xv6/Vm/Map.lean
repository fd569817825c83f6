import Xv6.Vm.Tree

/-!
# `mappages` and `uvmunmap` on the map

`mappages` walks the pages from `PGROUNDDOWN(va)` to
`last = PGROUNDDOWN(va + size - 1)`, making missing tables, and writes a leaf PTE
for each; `uvmunmap` walks the same pages without making tables, panics at one
that is not mapped or not a leaf, frees its frame if asked to, and clears its
PTE. Both loops stop at `a == last`, in `uint64` arithmetic; `npages` is the
number of pages that visits, so that a loop over a count is the code's loop.

Read through `translate`, `mappages` on pages none of which is mapped either
returns `-1` or maps exactly those pages, the `i`-th to `pa + i * PGSIZE`, and
nothing else (`WF.mappages`); `uvmunmap` on mapped leaf pages unmaps exactly
those and gives their frames back when asked to (`Tree.uvmunmap`).
-/

namespace Xv6

/-- The number of pages from `PGROUNDDOWN(va)` to `PGROUNDDOWN(va + size - 1)`,
counted in `uint64` arithmetic: a `size` of `0` wraps around the address space. -/
def npages (va size : Nat) : Nat :=
  ((PGROUNDDOWN ((va + size + 2 ^ 64 - 1) % 2 ^ 64) + 2 ^ 64 - PGROUNDDOWN va) % 2 ^ 64) / PGSIZE + 1

/-- `mappages`' loop over `n` pages from `a`, mapping them to `pa` onwards with
the flags `perm | PTE_V`. -/
def mappagesLoop (pagetable perm : Nat) : Nat → Mem → Nat → Nat → Except String (Int × Mem)
  | 0, m, _, _ => .ok (0, m)
  | n + 1, m, a, pa => do
    match ← walk m pagetable a true with
    | (none, m) => pure (-1, m)
    | (some (pt, i), m) =>
      if m.tbl pt i &&& PTE_V ≠ 0 then throw "remap"
      else
        mappagesLoop pagetable perm n (m.setPTE pt i (PA2PTE pa ||| perm ||| PTE_V))
          ((a + PGSIZE) % 2 ^ 64) ((pa + PGSIZE) % 2 ^ 64)

/-- `mappages`: `0`, or `-1` when `walk` could not allocate a table. -/
def mappages (m : Mem) (pagetable va size pa perm : Nat) : Except String (Int × Mem) :=
  mappagesLoop pagetable perm (npages va size) m (PGROUNDDOWN va) pa

/-- `uvmunmap`'s loop over `n` pages from `a`. -/
def uvmunmapLoop (pagetable : Nat) (do_free : Bool) : Nat → Mem → Nat → Except String Mem
  | 0, m, _ => .ok m
  | n + 1, m, a => do
    match ← walk m pagetable a false with
    | (none, _) => throw "uvmunmap: walk"
    | (some (pt, i), m) =>
      if m.tbl pt i &&& PTE_V = 0 then throw "uvmunmap: not mapped"
      else if PTE_FLAGS (m.tbl pt i) = PTE_V then throw "uvmunmap: not a leaf"
      else
        let m := if do_free then m.kfree (PTE2PA (m.tbl pt i)) else m
        uvmunmapLoop pagetable do_free n (m.setPTE pt i 0) ((a + PGSIZE) % 2 ^ 64)

/-- `uvmunmap`: remove the mappings of the pages of `[va, va + size)`, freeing
their frames if `do_free`. -/
def uvmunmap (m : Mem) (pagetable va size : Nat) (do_free : Bool) : Except String Mem :=
  uvmunmapLoop pagetable do_free (npages va size) m (PGROUNDDOWN va)

/-- Below `MAXVA`, `walk` does not panic. -/
theorem walk_ok {m : Mem} {root va : Nat} (hva : va < MAXVA) (alloc : Bool) :
    ∃ r m', walk m root va alloc = .ok (r, m') := by
  rw [walk, if_neg (Nat.not_le.mpr hva)]
  split <;> exact ⟨_, _, rfl⟩

/-- For a non-empty range below `MAXVA`, `npages` counts its pages, from
`PGROUNDDOWN(va)` to `PGROUNDDOWN(va + size - 1)`. -/
theorem npages_eq {va size : Nat} (hs : 0 < size) (hva : va + size ≤ MAXVA) :
    PGROUNDDOWN va + (npages va size - 1) * PGSIZE = PGROUNDDOWN (va + size - 1) ∧
      PGROUNDDOWN va % PGSIZE = 0 ∧ PGROUNDDOWN va + npages va size * PGSIZE ≤ MAXVA := by
  simp only [npages, PGROUNDDOWN, PGSIZE, MAXVA_eq] at *
  omega

/-- The `j`-th page the loops visit is an aligned page of the range. -/
theorem npages_page {va size j : Nat} (hs : 0 < size) (hva : va + size ≤ MAXVA) (hj : j < npages va size) :
    (PGROUNDDOWN va + j * PGSIZE) % PGSIZE = 0 ∧ PGROUNDDOWN va ≤ PGROUNDDOWN va + j * PGSIZE ∧
      PGROUNDDOWN va + j * PGSIZE ≤ PGROUNDDOWN (va + size - 1) := by
  obtain ⟨hlast, hal, -⟩ := npages_eq hs hva
  rw [← hlast]
  simp only [PGSIZE] at hal ⊢
  omega

variable {m : Mem} {root : Nat}

section Mappages

variable {perm : Nat}

/-- `mappages`' loop over unmapped pages below `MAXVA`: `-1`, or the pages mapped one
by one to consecutive frames and nothing else touched; the tree stays well formed. -/
theorem WF.mappagesLoop (hperm : perm < 1024) :
    ∀ (n : Nat) (m : Mem) (a pa : Nat), WF m root → a % PGSIZE = 0 → a + n * PGSIZE ≤ MAXVA →
      pa % PGSIZE = 0 → pa < 2 ^ 64 → (∀ j < n, translate m root (a + j * PGSIZE) = none) →
      ∃ r m', Xv6.mappagesLoop root perm n m a pa = .ok (r, m') ∧ WF m' root ∧
        (r = -1 ∨ r = 0 ∧ ∀ v, v < MAXVA → translate m' root v =
          if a ≤ v ∧ v < a + n * PGSIZE then
            some ((pa + (v - a) / PGSIZE * PGSIZE) % 2 ^ 64, perm ||| PTE_V)
          else translate m root v)
  | 0, m, a, pa, hw, _, _, _, _, _ => ⟨0, m, rfl, hw, .inr ⟨rfl, fun v _ => by rw [if_neg (by omega)]⟩⟩
  | n + 1, m, a, pa, hw, ha, hn, hpa, hpa', hun => by
    have haM : a < MAXVA := by
      simp only [PGSIZE] at hn
      omega
    obtain ⟨r₀, m₁, hwalk⟩ : ∃ r m', walk m root a true = .ok (r, m') := walk_ok haM true
    obtain ⟨hw₁, hg, -, hslot⟩ := hw.walk_alloc haM hwalk
    rw [Xv6.mappagesLoop, hwalk, Except.ok_bind]
    cases r₀ with
    | none => exact ⟨-1, m₁, rfl, hw₁, .inl rfl⟩
    | some s =>
      obtain ⟨pt, i⟩ := s
      have hs := hslot _ rfl
      -- the page is not mapped, so its PTE is invalid and there is no `remap`
      have hinv : m₁.tbl pt i &&& PTE_V = 0 := by
        have h0 := hun 0 (Nat.zero_lt_succ n)
        rw [Nat.zero_mul, Nat.add_zero, ← hg.translate, translate, hs] at h0
        simpa [decode] using h0
      simp only [hinv, ne_eq, not_true_eq_false, if_false]
      have htr₂ := (hw₁.toTree.setPTE_leaf hs (PA2PTE pa ||| perm ||| PTE_V)).2
      have hw₂ := hw₁.setPTE_leaf hs (PA2PTE pa ||| perm ||| PTE_V)
      -- the next page is past this one and still below `MAXVA`
      have hnext : (a + PGSIZE) % 2 ^ 64 = a + PGSIZE := by
        simp only [PGSIZE, MAXVA_eq] at hn ⊢
        omega
      have hother : ∀ v, v < MAXVA → v / PGSIZE ≠ a / PGSIZE →
          translate (m₁.setPTE pt i (PA2PTE pa ||| perm ||| PTE_V)) root v = translate m root v := by
        intro v hv hne
        rw [htr₂ v, if_neg (mt (PX_eq_iff haM hv).mp hne), hg.translate]
      obtain ⟨r, m', hrec, hw', hres⟩ := WF.mappagesLoop hperm n _ ((a + PGSIZE) % 2 ^ 64)
        ((pa + PGSIZE) % 2 ^ 64) hw₂
        (by rw [hnext]; simp only [PGSIZE] at ha ⊢; omega)
        (by rw [hnext]; simp only [PGSIZE] at hn ⊢; omega)
        (by simp only [PGSIZE] at hpa ⊢; omega) (Nat.mod_lt _ (by decide))
        (fun j hj => by
          rw [hnext, hother _ (by simp only [PGSIZE, MAXVA_eq] at hn ⊢; omega)
            (by simp only [PGSIZE] at ha ⊢; omega)]
          have e : a + PGSIZE + j * PGSIZE = a + (j + 1) * PGSIZE := by
            simp only [PGSIZE]
            omega
          rw [e]
          exact hun (j + 1) (by omega))
      refine ⟨r, m', hrec, hw', ?_⟩
      rcases hres with rfl | ⟨rfl, hmap⟩
      · exact .inl rfl
      · refine .inr ⟨rfl, fun v hv => ?_⟩
        rw [hmap v hv, hnext]
        by_cases h1 : a + PGSIZE ≤ v ∧ v < a + PGSIZE + n * PGSIZE
        · -- a later page: its frame counts on from the next one
          rw [if_pos h1, if_pos (by simp only [PGSIZE] at h1 ⊢; omega), Option.some.injEq, Prod.mk.injEq]
          refine ⟨?_, rfl⟩
          simp only [PGSIZE] at h1 ⊢
          omega
        · rw [if_neg h1]
          by_cases h2 : v / PGSIZE = a / PGSIZE
          · -- this page: the leaf just written
            have hin : a ≤ v ∧ v < a + (n + 1) * PGSIZE := by
              simp only [PGSIZE] at h2 ha ⊢
              omega
            rw [htr₂ v, if_pos ((PX_eq_iff haM hv).mpr h2), decode_leaf hpa hpa' hperm, if_pos hin,
              Option.some.injEq, Prod.mk.injEq]
            refine ⟨?_, rfl⟩
            simp only [PGSIZE] at h2 ha ⊢
            omega
          · have hout : ¬(a ≤ v ∧ v < a + (n + 1) * PGSIZE) := by
              simp only [PGSIZE] at h1 h2 ha ⊢
              omega
            rw [if_neg hout, hother v hv h2]

/-- `mappages` on a non-empty range below `MAXVA` none of whose pages is mapped,
with a page-aligned `pa` and flags that fit in a PTE: it returns `-1`, or `0`
with each page from `PGROUNDDOWN(va)` to `PGROUNDDOWN(va + size - 1)` mapped to
the frame as far from `pa` as the page is from `PGROUNDDOWN(va)`, with the flags
`perm | PTE_V`, and every other page as it was; either way the tree stays well
formed. -/
theorem WF.mappages (hw : WF m root) {va size pa : Nat} (hs : 0 < size) (hva : va + size ≤ MAXVA)
    (hpa : pa % PGSIZE = 0) (hpa' : pa < 2 ^ 64) (hperm : perm < 1024)
    (hun : ∀ v, v % PGSIZE = 0 → PGROUNDDOWN va ≤ v → v ≤ PGROUNDDOWN (va + size - 1) →
      translate m root v = none) :
    ∃ r m', Xv6.mappages m root va size pa perm = .ok (r, m') ∧ WF m' root ∧
      (r = -1 ∨ r = 0 ∧ ∀ v, v < MAXVA → v % PGSIZE = 0 → translate m' root v =
        if PGROUNDDOWN va ≤ v ∧ v ≤ PGROUNDDOWN (va + size - 1) then
          some ((pa + (v - PGROUNDDOWN va)) % 2 ^ 64, perm ||| PTE_V)
        else translate m root v) := by
  obtain ⟨hlast, hal, hbound⟩ := npages_eq hs hva
  -- the loop's pages are the aligned addresses from `PGROUNDDOWN(va)` to the last page
  have hpage : ∀ v, v % PGSIZE = 0 →
      (PGROUNDDOWN va ≤ v ∧ v < PGROUNDDOWN va + npages va size * PGSIZE ↔
        PGROUNDDOWN va ≤ v ∧ v ≤ PGROUNDDOWN (va + size - 1)) := by
    intro v hv
    rw [← hlast]
    simp only [PGSIZE] at hv hal ⊢
    have h1 : 1 ≤ npages va size := Nat.le_add_left 1 _
    constructor
    · rintro ⟨h2, h3⟩
      exact ⟨h2, by omega⟩
    · rintro ⟨h2, h3⟩
      exact ⟨h2, by omega⟩
  have hun' : ∀ j < npages va size, translate m root (PGROUNDDOWN va + j * PGSIZE) = none := by
    intro j hj
    obtain ⟨h1, h2, h3⟩ := npages_page hs hva hj
    exact hun _ h1 h2 h3
  obtain ⟨r, m', hloop, hw', hres⟩ :=
    hw.mappagesLoop hperm (npages va size) m (PGROUNDDOWN va) pa hal hbound hpa hpa' hun'
  refine ⟨r, m', hloop, hw', ?_⟩
  rcases hres with rfl | ⟨rfl, hmap⟩
  · exact .inl rfl
  · refine .inr ⟨rfl, fun v hv hva0 => ?_⟩
    rw [hmap v hv]
    by_cases hin : PGROUNDDOWN va ≤ v ∧ v ≤ PGROUNDDOWN (va + size - 1)
    · rw [if_pos ((hpage v hva0).mpr hin), if_pos hin]
      simp only [PGSIZE] at hal hva0 ⊢
      congr 3
      omega
    · rw [if_neg (mt (hpage v hva0).mp hin), if_neg hin]

end Mappages

/-! ## `uvmunmap` -/

/-- The frames of the `n` pages from `a`, in order. -/
def frames (m : Mem) (root a n : Nat) : List Nat :=
  (List.range n).map fun j => ((translate m root (a + j * PGSIZE)).map Prod.fst).getD 0

theorem frames_succ (m : Mem) (root a n : Nat) :
    frames m root a (n + 1) =
      ((translate m root a).map Prod.fst).getD 0 :: frames m root (a + PGSIZE) n := by
  simp only [frames, List.range_succ_eq_map, List.map_cons, List.map_map, Nat.zero_mul, Nat.add_zero]
  congr 1
  refine List.map_congr_left fun j _ => ?_
  simp only [Function.comp, Nat.succ_mul, Nat.add_assoc, Nat.add_comm PGSIZE]

/-- The frames of pages that read the same in two trees are the same. -/
theorem frames_congr {m m' : Mem} {a n : Nat} (h : ∀ j < n, translate m' root (a + j * PGSIZE) = translate m root (a + j * PGSIZE)) :
    frames m' root a n = frames m root a n :=
  List.map_congr_left fun j hj => by rw [h j (List.mem_range.mp hj)]

/-- `uvmunmap`'s loop over mapped leaf pages below `MAXVA`: the pages are
unmapped one by one, each frame given back to the allocator when `do_free`, and
nothing else changes; the tree stays a tree. -/
theorem Tree.uvmunmapLoop (do_free : Bool) :
    ∀ (n : Nat) (m : Mem) (a : Nat), Tree m root → a % PGSIZE = 0 → a + n * PGSIZE ≤ MAXVA →
      (∀ j < n, ∃ fr fl, translate m root (a + j * PGSIZE) = some (fr, fl) ∧ fl ≠ PTE_V) →
      ∃ m', Xv6.uvmunmapLoop root do_free n m a = .ok m' ∧ Tree m' root ∧
        (∀ v, v < MAXVA → translate m' root v =
          if a ≤ v ∧ v < a + n * PGSIZE then none else translate m root v) ∧
        m'.free = (if do_free then (frames m root a n).reverse else []) ++ m.free ∧ m'.bytes = m.bytes
  | 0, m, a, ht, _, _, _ => ⟨m, rfl, ht, fun v _ => by rw [if_neg (by omega)], by simp [frames], rfl⟩
  | n + 1, m, a, ht, ha, hn, hmapped => by
    have haM : a < MAXVA := by
      simp only [PGSIZE] at hn
      omega
    obtain ⟨fr, fl, htr, hfl⟩ := hmapped 0 (Nat.zero_lt_succ n)
    rw [Nat.zero_mul, Nat.add_zero] at htr
    -- the page's PTE is a valid leaf naming `fr`
    obtain ⟨pt, i, hs, hdec⟩ : ∃ pt i, leafSlot m root a = some (pt, i) ∧ decode (m.tbl pt i) = some (fr, fl) := by
      rw [translate] at htr
      cases hs : leafSlot m root a with
      | none => simp [hs] at htr
      | some s => exact ⟨s.1, s.2, rfl, by simpa [hs] using htr⟩
    have hv : ¬(m.tbl pt i &&& PTE_V = 0) := fun h => by simp [decode, h] at hdec
    obtain ⟨hpa, hflags⟩ : PTE2PA (m.tbl pt i) = fr ∧ PTE_FLAGS (m.tbl pt i) = fl := by
      simpa [decode, hv] using hdec
    rw [Xv6.uvmunmapLoop, walk_of_not_alloc haM, Except.ok_bind, hs]
    simp only [hv, if_false, hflags, hfl, hpa]
    -- freeing the frame leaves the tree alone; clearing the PTE unmaps this page only
    set m₀ := if do_free then m.kfree fr else m with hm₀
    have htbl₀ : m₀.tbl = m.tbl := by
      rw [hm₀]
      split <;> rfl
    have ht₀ : Tree m₀ root := ht.congr fun _ _ _ _ _ => by rw [htbl₀]
    have hs₀ : leafSlot m₀ root a = some (pt, i) := by
      rw [← hs]
      simp [leafSlot, child, htbl₀]
    have htr₀ : ∀ v, translate m₀ root v = translate m root v := fun v =>
      translate_congr (fun _ _ _ _ => by rw [htbl₀]) v
    obtain ⟨ht₁, htr₁⟩ := ht₀.setPTE_leaf hs₀ 0
    have hnext : (a + PGSIZE) % 2 ^ 64 = a + PGSIZE := by
      simp only [PGSIZE, MAXVA_eq] at hn ⊢
      omega
    have hother : ∀ v, v < MAXVA → v / PGSIZE ≠ a / PGSIZE →
        translate (m₀.setPTE pt i 0) root v = translate m root v := by
      intro v hv' hne
      rw [htr₁ v, if_neg (mt (PX_eq_iff haM hv').mp hne), htr₀]
    have e : ∀ j, a + PGSIZE + j * PGSIZE = a + (j + 1) * PGSIZE := fun j => by
      simp only [PGSIZE]
      omega
    have hlater : ∀ j < n, translate (m₀.setPTE pt i 0) root (a + PGSIZE + j * PGSIZE) =
        translate m root (a + PGSIZE + j * PGSIZE) := fun j hj =>
      hother _ (by rw [e]; simp only [PGSIZE, MAXVA_eq] at hn ⊢; omega)
        (by rw [e]; simp only [PGSIZE] at ha ⊢; omega)
    obtain ⟨m', hrec, ht', hmap, hfree, hbytes⟩ := Tree.uvmunmapLoop do_free n (m₀.setPTE pt i 0)
      ((a + PGSIZE) % 2 ^ 64) ht₁ (by rw [hnext]; simp only [PGSIZE] at ha ⊢; omega)
      (by rw [hnext]; simp only [PGSIZE] at hn ⊢; omega)
      (fun j hj => by rw [hnext, hlater j hj, e]; exact hmapped (j + 1) (by omega))
    rw [hnext] at hmap hfree
    refine ⟨m', hrec, ht', fun v hv' => ?_, ?_, ?_⟩
    · rw [hmap v hv']
      by_cases h1 : a + PGSIZE ≤ v ∧ v < a + PGSIZE + n * PGSIZE
      · rw [if_pos h1, if_pos (by simp only [PGSIZE] at h1 ⊢; omega)]
      · rw [if_neg h1]
        by_cases h2 : v / PGSIZE = a / PGSIZE
        · have hin : a ≤ v ∧ v < a + (n + 1) * PGSIZE := by
            simp only [PGSIZE] at h2 ha ⊢
            omega
          rw [htr₁ v, if_pos ((PX_eq_iff haM hv').mpr h2), if_pos hin]
          simp [decode]
        · have hout : ¬(a ≤ v ∧ v < a + (n + 1) * PGSIZE) := by
            simp only [PGSIZE] at h1 h2 ha ⊢
            omega
          rw [if_neg hout, hother v hv' h2]
    · rw [hfree, frames_succ, frames_congr (fun j hj => hlater j hj), htr]
      cases do_free <;> simp [hm₀]
    · rw [hbytes]
      cases do_free <;> simp [hm₀]

/-- `uvmunmap` on a non-empty range below `MAXVA` whose pages are all mapped with
leaf PTEs: every address of the pages from `PGROUNDDOWN(va)` to
`PGROUNDDOWN(va + size - 1)` becomes unmapped and every other one reads as
before, the frames go back to the allocator in order when `do_free`, and the
tree stays a tree. -/
theorem Tree.uvmunmap (ht : Tree m root) {va size : Nat} (do_free : Bool) (hs : 0 < size)
    (hva : va + size ≤ MAXVA)
    (hmapped : ∀ v, v % PGSIZE = 0 → PGROUNDDOWN va ≤ v → v ≤ PGROUNDDOWN (va + size - 1) →
      ∃ fr fl, translate m root v = some (fr, fl) ∧ fl ≠ PTE_V) :
    ∃ m', Xv6.uvmunmap m root va size do_free = .ok m' ∧ Tree m' root ∧
      (∀ v, v < MAXVA → translate m' root v =
        if PGROUNDDOWN va ≤ v ∧ v < PGROUNDDOWN (va + size - 1) + PGSIZE then none
        else translate m root v) ∧
      m'.free = (if do_free then (frames m root (PGROUNDDOWN va) (npages va size)).reverse else []) ++
        m.free ∧ m'.bytes = m.bytes := by
  obtain ⟨hlast, hal, hbound⟩ := npages_eq hs hva
  obtain ⟨m', hloop, ht', hmap, hfree, hbytes⟩ :=
    Tree.uvmunmapLoop do_free (npages va size) m (PGROUNDDOWN va) ht hal hbound fun j hj => by
      obtain ⟨h1, h2, h3⟩ := npages_page hs hva hj
      exact hmapped _ h1 h2 h3
  refine ⟨m', hloop, ht', fun v hv => ?_, hfree, hbytes⟩
  -- the loop's last page is `PGROUNDDOWN(va + size - 1)`
  have hend : PGROUNDDOWN va + npages va size * PGSIZE = PGROUNDDOWN (va + size - 1) + PGSIZE := by
    rw [← hlast]
    have h1 : 1 ≤ npages va size := Nat.le_add_left 1 _
    calc PGROUNDDOWN va + npages va size * PGSIZE
        = PGROUNDDOWN va + (npages va size - 1 + 1) * PGSIZE := by rw [Nat.sub_add_cancel h1]
      _ = PGROUNDDOWN va + (npages va size - 1) * PGSIZE + PGSIZE := by rw [Nat.succ_mul, Nat.add_assoc]
  rw [hmap v hv, hend]

end Xv6
