import Xv6.Vm.Map

/-!
# `freewalk`: taking a tree of tables apart

`freewalk` frees the table `pagetable` and, first, every table under it: for each
of its 512 entries, one that points to a table (valid, `R`, `W`, `X` clear) is
freed below and cleared, a valid leaf is the panic `freewalk: leaf`. The code's
recursion has no bound of its own; the model's is a fuel, and a tree of three
levels needs three.

* `subtables` lists the tables under a table in the order `freewalk` frees
  them, and `Leafless` says the tree under it has no leaf;
* `freewalk_leafless` is `freewalk` on such a tree: it returns, and gives back
  exactly those tables, in that order;
* `Tree.freewalk` reads it for a page table: on a tree that maps nothing,
  `freewalk` frees every table of the tree once and nothing else.
-/

namespace Xv6

/-- `freewalk`'s loop over the entries `is` of table `pt`, with `rec` for the
recursive call. -/
def freewalkLoop (rec : Mem → Nat → Option (Except String Mem)) (pt : Nat) :
    List Nat → Mem → Option (Except String Mem)
  | [], m => some (.ok m)
  | i :: is, m =>
    if m.tbl pt i &&& PTE_V ≠ 0 ∧ m.tbl pt i &&& (PTE_R ||| PTE_W ||| PTE_X) = 0 then
      match rec m (PTE2PA (m.tbl pt i)) with
      | some (.ok m) => freewalkLoop rec pt is (m.setPTE pt i 0)
      | r => r
    else if m.tbl pt i &&& PTE_V ≠ 0 then some (.error "freewalk: leaf")
    else freewalkLoop rec pt is m

/-- `freewalk` with `fuel` levels of recursion left; `none` when it runs out. -/
def freewalk : Nat → Mem → Nat → Option (Except String Mem)
  | 0, _, _ => none
  | fuel + 1, m, pagetable =>
    (freewalkLoop (freewalk fuel) pagetable (List.range 512) m).map fun r =>
      r.map fun m => m.kfree pagetable

/-- The tables `d` levels deep under `t`, in the order `freewalk` frees them: the
subtrees under `t`'s valid entries in turn, then `t`. -/
def subtables (m : Mem) : Nat → Nat → List Nat
  | 0, t => [t]
  | d + 1, t => (List.range 512).flatMap (fun i => ((child m t i).map (subtables m d)).getD []) ++ [t]

/-- The subtrees under the entries `is` of `t`. -/
def under (m : Mem) (d t : Nat) (is : List Nat) : List Nat :=
  is.flatMap fun i => ((child m t i).map (subtables m d)).getD []

/-- Under `t` hang `d` levels of tables and no leaf: above the bottom a valid
entry points to a table, and the bottom tables have no valid entry. -/
def Leafless (m : Mem) : Nat → Nat → Prop
  | 0, t => ∀ i < 512, m.tbl t i &&& PTE_V = 0
  | d + 1, t => ∀ i < 512, m.tbl t i &&& PTE_V ≠ 0 →
      m.tbl t i &&& (PTE_R ||| PTE_W ||| PTE_X) = 0 ∧ Leafless m d (PTE2PA (m.tbl t i))

variable {m m' : Mem}

theorem subtables_succ (m : Mem) (d t : Nat) :
    subtables m (d + 1) t = under m d t (List.range 512) ++ [t] := rfl

theorem mem_under {d t y : Nat} {is : List Nat} :
    y ∈ under m d t is ↔ ∃ i ∈ is, ∃ c, child m t i = some c ∧ y ∈ subtables m d c := by
  simp only [under, List.mem_flatMap]
  constructor
  · rintro ⟨i, hi, hy⟩
    cases hc : child m t i with
    | none => simp [hc] at hy
    | some c => exact ⟨i, hi, c, hc, by simpa [hc] using hy⟩
  · rintro ⟨i, hi, c, hc, hy⟩
    exact ⟨i, hi, by simpa [hc] using hy⟩

theorem under_cons (m : Mem) (d t i : Nat) (is : List Nat) :
    under m d t (i :: is) = ((child m t i).map (subtables m d)).getD [] ++ under m d t is :=
  List.flatMap_cons

/-- The tables under `t` read the same in two memories that agree on them. -/
theorem subtables_congr (d t : Nat) (h : ∀ y ∈ subtables m d t, m'.tbl y = m.tbl y) :
    subtables m' d t = subtables m d t ∧ (Leafless m' d t ↔ Leafless m d t) := by
  induction d generalizing t with
  | zero =>
    have ht : m'.tbl t = m.tbl t := h t (List.mem_singleton_self t)
    simp [subtables, Leafless, ht]
  | succ d ih =>
    have ht : m'.tbl t = m.tbl t := h t (by
      rw [subtables_succ]
      exact List.mem_append_right _ (List.mem_singleton_self t))
    have hchild : ∀ i, child m' t i = child m t i := fun i => by simp [child, ht]
    -- every table under a child of `t` is under `t`
    have hsub : ∀ i < 512, ∀ c, child m t i = some c → ∀ y ∈ subtables m d c, m'.tbl y = m.tbl y :=
      fun i hi c hc y hy => h y (by
        rw [subtables_succ]
        exact List.mem_append_left _ (mem_under.mpr ⟨i, List.mem_range.mpr hi, c, hc, hy⟩))
    constructor
    · have hunder : under m' d t (List.range 512) = under m d t (List.range 512) := by
        refine List.flatMap_congr fun i hi => ?_
        rw [hchild]
        cases hc : child m t i with
        | none => simp only [Option.map_none, Option.getD_none]
        | some c => simp [(ih c (hsub i (List.mem_range.mp hi) c hc)).1]
      rw [subtables_succ, subtables_succ, hunder]
    · simp only [Leafless, ht]
      refine forall₂_congr fun i hi => imp_congr_right fun hv => and_congr_right fun _ => ?_
      have hc : child m t i = some (PTE2PA (m.tbl t i)) := by simp [child, hv]
      exact (ih _ (hsub i hi _ hc)).2

section Loop

variable {rec : Mem → Nat → Option (Except String Mem)} {d t : Nat}

/-- The loop over entries that are all invalid changes nothing. -/
theorem freewalkLoop_invalid : ∀ (is : List Nat) (m : Mem), (∀ i ∈ is, m.tbl t i &&& PTE_V = 0) →
    freewalkLoop rec t is m = some (.ok m)
  | [], _, _ => rfl
  | i :: is, m, h => by
    have hi : m.tbl t i &&& PTE_V = 0 := h i List.mem_cons_self
    simp only [freewalkLoop, hi, ne_eq, not_true_eq_false, false_and, if_false]
    exact freewalkLoop_invalid is m fun j hj => h j (List.mem_cons_of_mem i hj)

/-- The loop over the entries `is` of `t`, given that the recursive call frees
a leafless subtree: it frees the subtrees under `is` in turn and changes no
other table but `t`. -/
theorem freewalkLoop_spec
    (hrec : ∀ m c, Leafless m d c → (subtables m d c).Nodup → ∃ m', rec m c = some (.ok m') ∧
      m'.free = (subtables m d c).reverse ++ m.free ∧ m'.bytes = m.bytes ∧
      ∀ y ∉ subtables m d c, m'.tbl y = m.tbl y) :
    ∀ (is : List Nat) (m : Mem), is.Nodup →
      (∀ i ∈ is, m.tbl t i &&& PTE_V ≠ 0 →
        m.tbl t i &&& (PTE_R ||| PTE_W ||| PTE_X) = 0 ∧ Leafless m d (PTE2PA (m.tbl t i))) →
      (under m d t is).Nodup → t ∉ under m d t is →
      ∃ m', freewalkLoop rec t is m = some (.ok m') ∧ m'.free = (under m d t is).reverse ++ m.free ∧
        m'.bytes = m.bytes ∧ ∀ y ∉ under m d t is, y ≠ t → m'.tbl y = m.tbl y
  | [], m, _, _, _, _ => ⟨m, rfl, by simp [under], rfl, fun _ _ _ => rfl⟩
  | i :: is, m, hnd, hL, hN, ht => by
    rw [under_cons] at hN ht ⊢
    obtain ⟨hi, hnd'⟩ := List.nodup_cons.mp hnd
    have hL' : ∀ j ∈ is, m.tbl t j &&& PTE_V ≠ 0 →
        m.tbl t j &&& (PTE_R ||| PTE_W ||| PTE_X) = 0 ∧ Leafless m d (PTE2PA (m.tbl t j)) :=
      fun j hj => hL j (List.mem_cons_of_mem i hj)
    by_cases hv : m.tbl t i &&& PTE_V = 0
    · -- an invalid entry is skipped
      have hc : child m t i = none := by simp [child, hv]
      simp only [hc, Option.map_none, Option.getD_none, List.nil_append] at hN ht ⊢
      simp only [freewalkLoop, hv, ne_eq, not_true_eq_false, false_and, if_false]
      exact freewalkLoop_spec hrec is m hnd' hL' hN ht
    · -- an entry pointing to a table: free the subtree, clear the entry, go on
      obtain ⟨hrwx, hleaf⟩ := hL i List.mem_cons_self hv
      have hc : child m t i = some (PTE2PA (m.tbl t i)) := by simp [child, hv]
      simp only [hc, Option.map_some, Option.getD_some] at hN ht ⊢
      obtain ⟨hNc, hNis, hdisj⟩ := List.nodup_append.mp hN
      obtain ⟨m₁, hr, hfree₁, hbytes₁, htbl₁⟩ := hrec m _ hleaf hNc
      have htc : t ∉ subtables m d (PTE2PA (m.tbl t i)) := fun h => ht (List.mem_append_left _ h)
      have htis : t ∉ under m d t is := fun h => ht (List.mem_append_right _ h)
      -- the rest of the tree is untouched by the subtree's freeing and the cleared entry
      have htbl₂ : ∀ y, y ∉ subtables m d (PTE2PA (m.tbl t i)) → (y ≠ t ∨ ∀ j ∈ is, True) →
          ∀ j, j ≠ i ∨ y ≠ t → (m₁.setPTE t i 0).tbl y j = m.tbl y j := by
        intro y hy _ j hj
        rw [Mem.setPTE_tbl, if_neg (by tauto), htbl₁ y hy]
      have hentry : ∀ j ∈ is, (m₁.setPTE t i 0).tbl t j = m.tbl t j := fun j hj =>
        htbl₂ t htc (.inr fun _ _ => trivial) j (.inl fun h => hi (h ▸ hj))
      have hchild : ∀ j ∈ is, child (m₁.setPTE t i 0) t j = child m t j := fun j hj => by
        simp [child, hentry j hj]
      have hcongr : ∀ j ∈ is, ∀ c', child m t j = some c' →
          ∀ y ∈ subtables m d c', (m₁.setPTE t i 0).tbl y = m.tbl y := by
        intro j hj c' hc' y hy
        have hyis : y ∈ under m d t is := mem_under.mpr ⟨j, hj, c', hc', hy⟩
        funext k
        exact htbl₂ y (fun h => hdisj y h y hyis rfl) (.inr fun _ _ => trivial) k
          (.inr fun h => htis (h ▸ hyis))
      have hunder : under (m₁.setPTE t i 0) d t is = under m d t is := by
        refine List.flatMap_congr fun j hj => ?_
        rw [hchild j hj]
        cases hc' : child m t j with
        | none => simp only [Option.map_none, Option.getD_none]
        | some c' => simp [(subtables_congr d c' (hcongr j hj c' hc')).1]
      have hL₂ : ∀ j ∈ is, (m₁.setPTE t i 0).tbl t j &&& PTE_V ≠ 0 →
          (m₁.setPTE t i 0).tbl t j &&& (PTE_R ||| PTE_W ||| PTE_X) = 0 ∧
            Leafless (m₁.setPTE t i 0) d (PTE2PA ((m₁.setPTE t i 0).tbl t j)) := by
        intro j hj hvj
        rw [hentry j hj] at hvj ⊢
        obtain ⟨hrwx', hleaf'⟩ := hL' j hj hvj
        have hc' : child m t j = some (PTE2PA (m.tbl t j)) := by simp [child, hvj]
        exact ⟨hrwx', (subtables_congr d _ (hcongr j hj _ hc')).2.mpr hleaf'⟩
      obtain ⟨m', hloop, hfree', hbytes', htbl'⟩ := freewalkLoop_spec hrec is (m₁.setPTE t i 0) hnd' hL₂
        (by rw [hunder]; exact hNis) (by rw [hunder]; exact htis)
      rw [hunder] at hfree' htbl'
      refine ⟨m', ?_, ?_, ?_, fun y hy hyt => ?_⟩
      · simp only [freewalkLoop, ne_eq, hv, not_false_eq_true, hrwx, and_self, if_true, hr]
        exact hloop
      · rw [hfree', Mem.setPTE_free, hfree₁, List.reverse_append, List.append_assoc]
      · rw [hbytes', Mem.setPTE_bytes, hbytes₁]
      · rw [htbl' y (fun h => hy (List.mem_append_right _ h)) hyt]
        funext k
        exact htbl₂ y (fun h => hy (List.mem_append_left _ h)) (.inl hyt) k (.inr hyt)

end Loop

/-- `freewalk` on a leafless tree of `d` levels whose tables are distinct, with
more fuel than levels: it returns, gives back exactly the tables of the tree in
the order `subtables` lists them, and changes no other table. -/
theorem freewalk_leafless (d fuel : Nat) (m : Mem) (t : Nat) (hd : d < fuel) (hL : Leafless m d t)
    (hN : (subtables m d t).Nodup) :
    ∃ m', freewalk fuel m t = some (.ok m') ∧ m'.free = (subtables m d t).reverse ++ m.free ∧
      m'.bytes = m.bytes ∧ ∀ y ∉ subtables m d t, m'.tbl y = m.tbl y := by
  obtain ⟨fuel, rfl⟩ : ∃ f, fuel = f + 1 := ⟨fuel - 1, by omega⟩
  induction d generalizing fuel m t with
  | zero =>
    -- a bottom table: nothing under it, only itself to free
    refine ⟨m.kfree t, ?_, rfl, rfl, fun y hy => rfl⟩
    rw [freewalk, freewalkLoop_invalid _ m fun i hi => hL i (List.mem_range.mp hi)]
    rfl
  | succ d ih =>
    rw [subtables_succ] at hN ⊢
    obtain ⟨hNu, -, hdisj⟩ := List.nodup_append.mp hN
    have ht : t ∉ under m d t (List.range 512) := fun h => hdisj t h t (List.mem_singleton_self t) rfl
    obtain ⟨fuel, rfl⟩ : ∃ f, fuel = f + 1 := ⟨fuel - 1, by omega⟩
    obtain ⟨m₁, hloop, hfree, hbytes, htbl⟩ :=
      freewalkLoop_spec (fun m c hL hN => ih m c hL hN fuel (by omega)) (List.range 512) m
        List.nodup_range (fun i hi => hL i (List.mem_range.mp hi)) hNu ht
    refine ⟨m₁.kfree t, ?_, ?_, hbytes, fun y hy => ?_⟩
    · rw [freewalk, hloop]
      rfl
    · simp only [Mem.kfree_free, hfree, List.reverse_append, List.reverse_singleton, List.nil_append,
        List.cons_append]
    · exact htbl y (fun h => hy (List.mem_append_left _ h))
        fun h => hy (h ▸ List.mem_append_right _ (List.mem_singleton_self y))

/-! ## `freewalk` on a page table -/

/-- No level-0 table of the tree has a valid entry: the tree maps nothing. -/
def NoLeaves (m : Mem) (root : Nat) : Prop :=
  ∀ i j t, i < 512 → j < 512 → tableAt m root (.l0 i j) = some t → ∀ k < 512, m.tbl t k &&& PTE_V = 0

variable {root : Nat}

/-- A tree that maps nothing is leafless below its root, two levels deep. -/
theorem Tree.leafless (ht : Tree m root) (hn : NoLeaves m root) : Leafless m 2 root := by
  intro i hi hv
  have hc1 : child m root i = some (PTE2PA (m.tbl root i)) := by simp [child, hv]
  refine ⟨ht.ptr .root root trivial trivial rfl i hi hv, fun j hj hvj => ?_⟩
  have hc0 : child m (PTE2PA (m.tbl root i)) j = some (PTE2PA (m.tbl (PTE2PA (m.tbl root i)) j)) := by
    simp [child, hvj]
  refine ⟨ht.ptr (.l1 i) _ hi trivial hc1 j hj hvj, fun k hk => ?_⟩
  exact hn i j _ hi hj (by simp [tableAt, hc1, hc0]) k hk

/-- The tables `freewalk` frees from the root are the tables of the tree. -/
theorem mem_subtables_two {y : Nat} :
    y ∈ subtables m 2 root ↔ ∃ a : Pos, a.Valid ∧ tableAt m root a = some y := by
  simp only [subtables_succ, List.mem_append, mem_under, List.mem_range, List.mem_singleton]
  constructor
  · rintro (⟨i, hi, t1, h1, (⟨j, hj, t0, h0, hy⟩ | hy)⟩ | rfl)
    · simp only [subtables, List.mem_singleton] at hy
      subst hy
      exact ⟨.l0 i j, ⟨hi, hj⟩, by simp [tableAt, h1, h0]⟩
    · exact ⟨.l1 i, hi, by rw [hy]; exact h1⟩
    · exact ⟨.root, trivial, rfl⟩
  · rintro ⟨a, ha, hy⟩
    cases a with
    | root => exact .inr (Option.some.inj hy).symm
    | l1 i => exact .inl ⟨i, ha, y, hy, .inr rfl⟩
    | l0 i j =>
      simp only [tableAt, Option.bind_eq_some_iff] at hy
      obtain ⟨t1, h1, h0⟩ := hy
      exact .inl ⟨i, ha.1, t1, h1, .inl ⟨j, ha.2, y, h0, List.mem_singleton_self y⟩⟩

/-- The tables under the `i`-th entry of the root sit at positions below it. -/
theorem mem_subtables_child {i t1 y : Nat} (h1 : child m root i = some t1) (hy : y ∈ subtables m 1 t1) :
    tableAt m root (.l1 i) = some y ∨ ∃ j < 512, tableAt m root (.l0 i j) = some y := by
  simp only [subtables_succ, List.mem_append, mem_under, List.mem_range, List.mem_singleton] at hy
  rcases hy with ⟨j, hj, t0, h0, hy⟩ | rfl
  · simp only [subtables, List.mem_singleton] at hy
    subst hy
    exact .inr ⟨j, hj, by simp [tableAt, h1, h0]⟩
  · exact .inl h1

/-- A `flatMap` whose blocks are duplicate-free and name their index. -/
theorem nodup_flatMap_of_owner {l : List Nat} {g : Nat → List Nat} (P : Nat → Nat → Prop)
    (hl : l.Nodup) (hg : ∀ i ∈ l, (g i).Nodup) (hP : ∀ i ∈ l, ∀ y ∈ g i, P i y)
    (huniq : ∀ i i' y, P i y → P i' y → i = i') : (l.flatMap g).Nodup :=
  List.nodup_flatMap.mpr ⟨hg, hl.imp_of_mem fun hi hi' hne => List.disjoint_left.mpr fun _ hy hy' =>
    hne (huniq _ _ _ (hP _ hi _ hy) (hP _ hi' _ hy'))⟩

/-- In a tree no table is freed twice. -/
theorem Tree.subtables_nodup (ht : Tree m root) : (subtables m 2 root).Nodup := by
  -- a table under the root's `i`-th entry sits at `l1 i` or at some `l0 i j`
  let P : Nat → Nat → Prop := fun i y =>
    i < 512 ∧ (tableAt m root (.l1 i) = some y ∨ ∃ j < 512, tableAt m root (.l0 i j) = some y)
  have huniq : ∀ i i' y, P i y → P i' y → i = i' := by
    rintro i i' y ⟨hi, h | ⟨j, hj, h⟩⟩ ⟨hi', h' | ⟨j', hj', h'⟩⟩
    · simpa using ht.inj (.l1 i) (.l1 i') y hi hi' h h'
    · simpa using ht.inj (.l1 i) (.l0 i' j') y hi ⟨hi', hj'⟩ h h'
    · simpa using ht.inj (.l0 i j) (.l1 i') y ⟨hi, hj⟩ hi' h h'
    · exact (Pos.l0.inj (ht.inj (.l0 i j) (.l0 i' j') y ⟨hi, hj⟩ ⟨hi', hj'⟩ h h')).1
  have hsub : ∀ i ∈ List.range 512, (((child m root i).map (subtables m 1)).getD []).Nodup := by
    intro i hi
    have hi' := List.mem_range.mp hi
    cases h1 : child m root i with
    | none => exact List.nodup_nil
    | some t1 =>
      have h1' : tableAt m root (.l1 i) = some t1 := h1
      have hbot : ∀ j y, child m t1 j = some y → tableAt m root (.l0 i j) = some y := fun j y h0 => by
        simp [tableAt, h1, h0]
      rw [Option.map_some, Option.getD_some, subtables_succ, List.nodup_append]
      refine ⟨?_, List.nodup_singleton t1, fun y hy z hz hyz => ?_⟩
      · -- the bottom tables sit at distinct positions `l0 i j`
        refine nodup_flatMap_of_owner (fun j y => j < 512 ∧ tableAt m root (.l0 i j) = some y)
          List.nodup_range (fun j _ => ?_) (fun j hj y hy => ?_) fun j j' y hjy hjy' => ?_
        · cases child m t1 j <;> simp [subtables]
        · cases h0 : child m t1 j with
          | none => simp [h0] at hy
          | some t0 =>
            simp only [h0, Option.map_some, Option.getD_some, subtables, List.mem_singleton] at hy
            exact ⟨List.mem_range.mp hj, hy ▸ hbot j t0 h0⟩
        · exact (Pos.l0.inj (ht.inj (.l0 i j) (.l0 i j') y ⟨hi', hjy.1⟩ ⟨hi', hjy'.1⟩ hjy.2 hjy'.2)).2
      · -- and none of them is the level-1 table above them
        rw [List.mem_singleton] at hz
        obtain ⟨j, hj, t0, h0, hy⟩ := mem_under.mp hy
        simp only [subtables, List.mem_singleton] at hy
        have ht0 : t0 = t1 := hy.symm.trans (hyz.trans hz)
        have := ht.inj (.l0 i j) (.l1 i) t1 ⟨hi', List.mem_range.mp hj⟩ hi' (ht0 ▸ hbot j t0 h0) h1'
        simp at this
  rw [subtables_succ, List.nodup_append]
  refine ⟨nodup_flatMap_of_owner P List.nodup_range hsub (fun i hi y hy => ?_) huniq,
    List.nodup_singleton root, fun y hy z hz hyz => ?_⟩
  · cases h1 : child m root i with
    | none => simp [h1] at hy
    | some t1 =>
      rw [h1, Option.map_some, Option.getD_some] at hy
      exact ⟨List.mem_range.mp hi, mem_subtables_child h1 hy⟩
  · -- the root is no table under one of its entries
    rw [List.mem_singleton] at hz
    obtain ⟨i, hi, t1, h1, hy⟩ := mem_under.mp hy
    rw [hyz, hz] at hy
    rcases mem_subtables_child h1 hy with h | ⟨j, hj, h⟩
    · simpa using ht.inj (.l1 i) .root root (List.mem_range.mp hi) trivial h rfl
    · simpa using ht.inj (.l0 i j) .root root ⟨List.mem_range.mp hi, hj⟩ trivial h rfl

/-- `freewalk` on a page table that maps nothing: it returns, frees every table
of the tree exactly once and no other page, and leaves user memory alone. -/
theorem Tree.freewalk (ht : Tree m root) (hn : NoLeaves m root) :
    ∃ m', Xv6.freewalk 3 m root = some (.ok m') ∧ m'.bytes = m.bytes ∧
      ∃ L : List Nat, m'.free = L ++ m.free ∧ L.Nodup ∧
        ∀ x, x ∈ L ↔ ∃ a : Pos, a.Valid ∧ tableAt m root a = some x := by
  have hnd := ht.subtables_nodup
  obtain ⟨m', hfw, hfree, hbytes, -⟩ := freewalk_leafless 2 3 m root (by decide) (ht.leafless hn) hnd
  refine ⟨m', hfw, hbytes, (subtables m 2 root).reverse, hfree, List.nodup_reverse.mpr hnd, fun x => ?_⟩
  rw [List.mem_reverse, mem_subtables_two]

/-! ## The page table as a map -/

/-- Read through `translate`, on a well-formed tree: `mappages` on unmapped pages
with a page-aligned `pa` and flags that fit in a PTE maps exactly those pages,
to consecutive frames, or returns `-1`; `uvmunmap` on pages mapped with leaf
PTEs unmaps exactly those, handing their frames back in order when asked to;
`walkaddr` is the frame of a user page and `0` otherwise; and `freewalk` on a
tree that maps nothing frees each of its tables once. -/
theorem pagetable_ops_refine_map :
    (∀ (m : Mem) (root va size pa perm : Nat), WF m root → 0 < size → va + size ≤ MAXVA →
      pa % PGSIZE = 0 → pa < 2 ^ 64 → perm < 1024 →
      (∀ v, v % PGSIZE = 0 → PGROUNDDOWN va ≤ v → v ≤ PGROUNDDOWN (va + size - 1) →
        translate m root v = none) →
      ∃ r m', mappages m root va size pa perm = .ok (r, m') ∧ WF m' root ∧
        (r = -1 ∨ r = 0 ∧ ∀ v, v < MAXVA → v % PGSIZE = 0 → translate m' root v =
          if PGROUNDDOWN va ≤ v ∧ v ≤ PGROUNDDOWN (va + size - 1) then
            some ((pa + (v - PGROUNDDOWN va)) % 2 ^ 64, perm ||| PTE_V)
          else translate m root v)) ∧
    (∀ (m : Mem) (root va size : Nat) (do_free : Bool), Tree m root → 0 < size → va + size ≤ MAXVA →
      (∀ v, v % PGSIZE = 0 → PGROUNDDOWN va ≤ v → v ≤ PGROUNDDOWN (va + size - 1) →
        ∃ fr fl, translate m root v = some (fr, fl) ∧ fl ≠ PTE_V) →
      ∃ m', uvmunmap m root va size do_free = .ok m' ∧ Tree m' root ∧
        (∀ v, v < MAXVA → translate m' root v =
          if PGROUNDDOWN va ≤ v ∧ v < PGROUNDDOWN (va + size - 1) + PGSIZE then none
          else translate m root v) ∧
        m'.free = (if do_free then (frames m root (PGROUNDDOWN va) (npages va size)).reverse else []) ++
          m.free) ∧
    (∀ (m : Mem) (root va : Nat), walkaddr m root va =
      if va < MAXVA then
        match translate m root va with
        | some (pa, fl) => if fl &&& PTE_U ≠ 0 then pa else 0
        | none => 0
      else 0) ∧
    (∀ (m : Mem) (root : Nat), Tree m root → NoLeaves m root →
      ∃ m', freewalk 3 m root = some (.ok m') ∧ ∃ L : List Nat, m'.free = L ++ m.free ∧ L.Nodup ∧
        ∀ x, x ∈ L ↔ ∃ a : Pos, a.Valid ∧ tableAt m root a = some x) := by
  refine ⟨fun m root va size pa perm hw hs hva hpa hpa' hperm hun => ?_,
    fun m root va size do_free ht hs hva hmapped => ?_, walkaddr_eq, fun m root ht hn => ?_⟩
  · exact hw.mappages hs hva hpa hpa' hperm hun
  · obtain ⟨m', h, ht', hmap, hfree, -⟩ := ht.uvmunmap do_free hs hva hmapped
    exact ⟨m', h, ht', hmap, hfree⟩
  · obtain ⟨m', h, -, hfree⟩ := ht.freewalk hn
    exact ⟨m', h, hfree⟩

/-- In a tree of RAM pages, two pages mapped from an address in the middle of a
page, then unmapped with their frames freed, and an empty tree torn down. -/
theorem pagetable_ops_refine_map_oneTable :
    ∃ m₁ m₂ m₃,
      mappages ⟨fun _ _ => 0, fun _ => 0, [0x80002000, 0x80003000]⟩ 0x80001000 0x1800 4096 0x80004000
        (PTE_R ||| PTE_U) = .ok (0, m₁) ∧
      translate m₁ 0x80001000 0x1000 = some (0x80004000, PTE_R ||| PTE_U ||| PTE_V) ∧
      translate m₁ 0x80001000 0x2000 = some (0x80005000, PTE_R ||| PTE_U ||| PTE_V) ∧
      uvmunmap m₁ 0x80001000 0x1800 4096 true = .ok m₂ ∧ translate m₂ 0x80001000 0x1000 = none ∧
      translate m₂ 0x80001000 0x2000 = none ∧ m₂.free = 0x80005000 :: 0x80004000 :: m₁.free ∧
      freewalk 3 ⟨fun _ _ => 0, fun _ => 0, [0x80002000, 0x80003000]⟩ 0x80001000 = some (.ok m₃) ∧
      0x80001000 ∈ m₃.free := by
  obtain ⟨hmap, hunmap, -, hfree⟩ := pagetable_ops_refine_map
  have hw : WF ⟨fun _ _ => 0, fun _ => 0, [0x80002000, 0x80003000]⟩ 0x80001000 :=
    WF.zero (fun _ => rfl) (by decide) (by decide) (by decide)
  have hnone : ∀ v, translate ⟨fun _ _ => 0, fun _ => 0, [0x80002000, 0x80003000]⟩ 0x80001000 v = none :=
    fun v => by simp [translate, leafSlot, child]
  obtain ⟨r, m₁, h₁, hw₁, hres⟩ := hmap _ 0x80001000 0x1800 4096 0x80004000 (PTE_R ||| PTE_U) hw
    (by decide) (by decide) (by decide) (by decide) (by decide) fun v _ _ _ => hnone v
  -- the run maps both pages: `mappages` returns `0`
  have hr : r = 0 := by
    have h : (mappages ⟨fun _ _ => 0, fun _ => 0, [0x80002000, 0x80003000]⟩ 0x80001000 0x1800 4096
        0x80004000 (PTE_R ||| PTE_U)).map Prod.fst = .ok 0 := rfl
    rw [h₁] at h
    exact Except.ok.inj h
  subst hr
  obtain ⟨-, hmap₁⟩ := hres.resolve_left (by decide)
  have htr₁ : translate m₁ 0x80001000 0x1000 = some (0x80004000, PTE_R ||| PTE_U ||| PTE_V) := by
    rw [hmap₁ 0x1000 (by decide) (by decide)]
    decide
  have htr₂ : translate m₁ 0x80001000 0x2000 = some (0x80005000, PTE_R ||| PTE_U ||| PTE_V) := by
    rw [hmap₁ 0x2000 (by decide) (by decide)]
    decide
  obtain ⟨m₂, h₂, -, hmap₂, hfree₂⟩ := hunmap m₁ 0x80001000 0x1800 4096 true hw₁.toTree (by decide) (by decide)
    fun v hv h0 hv' => by
      have hv12 : v = 0x1000 ∨ v = 0x2000 := by simp only [PGROUNDDOWN, PGSIZE] at h0 hv' hv; omega
      rcases hv12 with rfl | rfl
      · exact ⟨_, _, htr₁, by decide⟩
      · exact ⟨_, _, htr₂, by decide⟩
  obtain ⟨m₃, h₃, L, hL, -, hmem⟩ := hfree _ 0x80001000 hw.toTree fun i j t _ _ h => by
    simp [tableAt, child] at h
  refine ⟨m₁, m₂, m₃, h₁, htr₁, htr₂, h₂, ?_, ?_, ?_, h₃, ?_⟩
  · rw [hmap₂ 0x1000 (by decide), if_pos (by decide)]
  · rw [hmap₂ 0x2000 (by decide), if_pos (by decide)]
  · have hn : npages 0x1800 4096 = 2 := by decide
    have h0 : PGROUNDDOWN 0x1800 = 0x1000 := rfl
    rw [hfree₂, if_pos rfl, hn, h0, frames_succ, frames_succ, htr₁]
    have h2 : (0x1000 + PGSIZE : Nat) = 0x2000 := rfl
    rw [h2, htr₂]
    rfl
  · rw [hL]
    exact List.mem_append_left _ ((hmem 0x80001000).mpr ⟨.root, trivial, rfl⟩)

/-- Without the side conditions the map is not what the code builds: a frame
address that is not page-aligned loses its low bits in the PTE, and `uvmunmap`
of a page that is not mapped panics. -/
theorem pagetable_ops_refine_map_unaligned :
    ∃ m₁, mappages ⟨fun _ _ => 0, fun _ => 0, [0x80002000, 0x80003000]⟩ 0x80001000 0 4096 0x80004001 PTE_R =
        .ok (0, m₁) ∧
      translate m₁ 0x80001000 0 = some (0x80004000, PTE_R ||| PTE_V) ∧
      uvmunmap ⟨fun _ _ => 0, fun _ => 0, [0x80002000, 0x80003000]⟩ 0x80001000 0 4096 false =
        .error "uvmunmap: walk" :=
  ⟨_, rfl, by decide, rfl⟩

end Xv6
