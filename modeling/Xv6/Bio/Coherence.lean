import Mathlib
import Xv6.Bio.Basic

/-!
# Coherence of the buffer cache

Every buffer starts with the identity `(0, 0)`, so identities are not unique
on the list; what keeps two callers off two copies of one block is list order.
`bget`'s forward scan returns the *first* buffer holding a block
(`firstOf`), and a buffer that an earlier buffer of the same identity hides
(`Shadowed`) is never handed out. The invariant `Coherent` says:

* the list through `head` is a well-formed circular list of all `NBUF`
  buffers, each once (`Intrusive.Circ` along an `order` that is complete);
* a shadowed buffer has `refcnt = 0` and `valid = 0`;
* no caller holds or has pinned a shadowed buffer.

`Step` is one call of the interface by a caller entitled to make it, and
`coherent_step` shows that each call keeps the invariant. `bcache_coherent`
is the result for every reachable state: the list stays well-formed, and the
buffer `bget` returns is the only one of its block that is referenced or
valid.
-/

namespace Xv6.Bio

open Intrusive

/-- The identity `(dev, blockno)` of buffer `b`. -/
def BCache.ident (c : BCache) (b : Fin NBUF) : Nat × Nat := ((c.buf b).dev, (c.buf b).blockno)

/-- The first buffer along `order` that holds block `i`: the one a forward scan
for `i` returns. -/
def firstOf (c : BCache) (order : List (Fin NBUF)) (i : Nat × Nat) : Option (Fin NBUF) :=
  order.find? fun b => c.ident b == i

/-- An earlier buffer along `order` holds the same block as `b`. -/
def Shadowed (c : BCache) (order : List (Fin NBUF)) (b : Fin NBUF) : Prop :=
  firstOf c order (c.ident b) ≠ some b

/-- The callers' side: one entry per `bget` not yet released and one per
`bpin` not yet removed. -/
structure Clients where
  held : List (Fin NBUF)
  pins : List (Fin NBUF)

/-- The cache is coherent along the list order `order`. -/
structure Coherent (c : BCache) (k : Clients) (order : List (Fin NBUF)) : Prop where
  circ : Circ c.link .head (order.map .buf)
  complete : ∀ b, b ∈ order
  shadowed : ∀ b, Shadowed c order b → (c.buf b).refcnt = 0 ∧ (c.buf b).valid = false
  clients : ∀ b ∈ k.held ++ k.pins, ¬ Shadowed c order b

/-! ## Identities along the list -/

/-- Changing fields of a buffer other than its identity changes no identity. -/
theorem BCache.ident_setBuf {c : BCache} {b : Fin NBUF} {x : Buf}
    (hdev : x.dev = (c.buf b).dev) (hblock : x.blockno = (c.buf b).blockno) :
    (c.setBuf b x).ident = c.ident := by
  funext b'
  by_cases h : b' = b
  · subst h; simp [BCache.ident, hdev, hblock]
  · simp [BCache.ident, h]

/-- The first buffer of a block holds that block. -/
theorem ident_of_firstOf {c : BCache} {order : List (Fin NBUF)} {i : Nat × Nat} {b : Fin NBUF}
    (h : firstOf c order i = some b) : c.ident b = i := by
  have := List.find?_some h
  simpa using this

/-- The first buffer of a block is not shadowed. -/
theorem not_shadowed_of_firstOf {c : BCache} {order : List (Fin NBUF)} {i : Nat × Nat}
    {b : Fin NBUF} (h : firstOf c order i = some b) : ¬ Shadowed c order b := by
  unfold Shadowed
  rw [ident_of_firstOf h]
  exact not_not_intro h

/-- Moving an unshadowed buffer to the front changes no block's first buffer. -/
theorem firstOf_moveFront {c : BCache} {o₁ o₂ : List (Fin NBUF)} {b : Fin NBUF}
    (hb : ¬ Shadowed c (o₁ ++ b :: o₂) b) (i : Nat × Nat) :
    firstOf c (b :: (o₁ ++ o₂)) i = firstOf c (o₁ ++ b :: o₂) i := by
  unfold Shadowed at hb
  rw [not_not] at hb
  by_cases hi : c.ident b = i
  · subst hi
    rw [hb]
    simp [firstOf]
  · have hnb : (c.ident b == i) = false := by simpa using hi
    unfold firstOf
    rw [List.find?_cons_of_neg (by simp [hnb]), List.find?_append, List.find?_append,
      List.find?_cons_of_neg (by simp [hnb])]

/-! ## The scans on a coherent cache -/

section Scans

variable {c : BCache} {k : Clients} {order : List (Fin NBUF)}

theorem Coherent.nodup (hc : Coherent c k order) : order.Nodup :=
  (List.nodup_map_iff (fun _ _ h => Node.buf.inj h)).mp (List.nodup_cons.mp hc.circ.nodup).2

theorem Coherent.length (hc : Coherent c k order) : order.length = NBUF := by
  have hfin : order.toFinset = Finset.univ := Finset.eq_univ_iff_forall.mpr (by simpa using hc.complete)
  rw [← List.toFinset_card_of_nodup hc.nodup, hfin, Finset.card_univ, Fintype.card_fin]

/-- `bget`'s forward scan returns the block's first buffer. -/
theorem Coherent.findNext_cached (hc : Coherent c k order) (dev blockno : Nat) :
    findNext c.link .head (cached c dev blockno) (NBUF + 1) (c.link .head).next =
      (firstOf c order (dev, blockno)).map .buf := by
  rw [hc.circ.findNext_eq _ (by simp [hc.length]), List.find?_map]
  rfl

/-- `bget`'s backward scan returns the last unreferenced buffer. -/
theorem Coherent.findPrev_unused (hc : Coherent c k order) :
    findPrev c.link .head (unused c) (NBUF + 1) (c.link .head).prev =
      (order.reverse.find? fun b => (c.buf b).refcnt == 0).map .buf := by
  rw [hc.circ.findPrev_eq _ (by simp [hc.length]), ← List.map_reverse, List.find?_map]
  rfl

/-- What `bget` does on a coherent cache: a hit on the block's first buffer, or
a recycle when no buffer holds the block. -/
theorem Coherent.bget_cases (hc : Coherent c k order) {dev blockno : Nat} {b : Fin NBUF}
    {c' : BCache} (h : bget c dev blockno = some (b, c')) :
    (firstOf c order (dev, blockno) = some b ∧ c' = bpin c b) ∨
      (firstOf c order (dev, blockno) = none ∧ (c.buf b).refcnt = 0 ∧
        c' = c.setBuf b ⟨false, dev, blockno, 1⟩) := by
  unfold bget at h
  rw [hc.findNext_cached, hc.findPrev_unused] at h
  cases hf : firstOf c order (dev, blockno) with
  | some b₀ =>
    rw [hf] at h
    cases h
    exact .inl ⟨rfl, rfl⟩
  | none =>
    rw [hf] at h
    cases hr : order.reverse.find? fun b => (c.buf b).refcnt == 0 with
    | none => rw [hr] at h; cases h
    | some b₀ =>
      rw [hr] at h
      cases h
      exact .inr ⟨rfl, by simpa using List.find?_some hr, rfl⟩

/-- The buffer `bget` hands out holds the block and has one reference more than
before; the other buffers and the list are as they were. -/
theorem Coherent.bget_buf (hc : Coherent c k order) {dev blockno : Nat} {b : Fin NBUF}
    {c' : BCache} (h : bget c dev blockno = some (b, c')) :
    (c'.buf b).dev = dev ∧ (c'.buf b).blockno = blockno ∧
      (c'.buf b).refcnt = (c.buf b).refcnt + 1 ∧ c'.link = c.link ∧
      ∀ b', b' ≠ b → c'.buf b' = c.buf b' := by
  rcases hc.bget_cases h with ⟨hfirst, rfl⟩ | ⟨-, h0, rfl⟩
  · -- a hit on the block's first buffer, which holds the block
    have hid := ident_of_firstOf hfirst
    simp only [BCache.ident, Prod.mk.injEq] at hid
    exact ⟨by simp [bpin, hid.1], by simp [bpin, hid.2], by simp [bpin], rfl,
      fun b' hb' => BCache.setBuf_buf_of_ne c _ hb'⟩
  · -- a recycle of an unreferenced buffer
    exact ⟨by simp, by simp, by simp [h0], rfl, fun b' hb' => BCache.setBuf_buf_of_ne c _ hb'⟩

end Scans

/-! ## Each call keeps the cache coherent -/

section Preservation

variable {c : BCache} {k : Clients} {order : List (Fin NBUF)}

/-- Rewriting an unshadowed buffer's fields, its identity kept, keeps the cache
coherent. -/
theorem Coherent.setBuf (hc : Coherent c k order) {b : Fin NBUF} (hb : ¬ Shadowed c order b)
    {x : Buf} (hdev : x.dev = (c.buf b).dev) (hblock : x.blockno = (c.buf b).blockno) :
    Coherent (c.setBuf b x) k order := by
  have hid := BCache.ident_setBuf hdev hblock
  have hsh : Shadowed (c.setBuf b x) order = Shadowed c order := by
    funext b'
    simp only [Shadowed, firstOf, hid]
  refine ⟨hc.circ, hc.complete, fun b' hb' => ?_, fun b' hb' => hsh ▸ hc.clients b' hb'⟩
  rw [hsh] at hb'
  have hne : b' ≠ b := fun h => hb (h ▸ hb')
  rw [BCache.setBuf_buf_of_ne c x hne]
  exact hc.shadowed b' hb'

/-- A recycled buffer is the only one of its new block, and every buffer it
shadows now was shadowed before. -/
theorem Coherent.shadowed_recycle (hc : Coherent c k order) {dev blockno : Nat}
    (hnone : firstOf c order (dev, blockno) = none) {b x : Fin NBUF}
    (hx : Shadowed (c.setBuf b ⟨false, dev, blockno, 1⟩) order x) :
    x ≠ b ∧ Shadowed c order x := by
  set c' := c.setBuf b ⟨false, dev, blockno, 1⟩
  have hfree : ∀ y, c.ident y ≠ (dev, blockno) := by
    intro y hy
    rw [firstOf, List.find?_eq_none] at hnone
    exact hnone y (hc.complete y) (by simp [hy])
  have hid : ∀ y, y ≠ b → c'.ident y = c.ident y := by
    intro y hy
    simp [c', BCache.ident, hy]
  by_cases hxb : x = b
  · -- the recycled buffer is the first, indeed the only, holder of its block
    subst hxb
    refine absurd ?_ hx
    have hxi : c'.ident x = (dev, blockno) := by simp [c', BCache.ident]
    unfold firstOf
    rw [hxi, List.find?_eq_some_iff_append]
    obtain ⟨as, bs, has⟩ := List.append_of_mem (hc.complete x)
    refine ⟨by simp [hxi], as, bs, has, fun a ha => ?_⟩
    have hax : a ≠ x := by
      rintro rfl
      have hnd := hc.nodup
      rw [has, List.nodup_append] at hnd
      exact hnd.2.2 a ha a List.mem_cons_self rfl
    rw [hid a hax]
    simpa using hfree a
  · refine ⟨hxb, fun hfirst => hx ?_⟩
    unfold firstOf at hfirst ⊢
    rw [hid x hxb]
    rw [List.find?_eq_some_iff_append] at hfirst ⊢
    obtain ⟨hpx, as, bs, has, hpre⟩ := hfirst
    refine ⟨by simp [hid x hxb], as, bs, has, fun a ha => ?_⟩
    by_cases hab : a = b
    · subst hab
      have hxi : c.ident x ≠ (dev, blockno) := hfree x
      simp only [c', BCache.ident, BCache.setBuf_buf_self] at hxi ⊢
      simpa using Ne.symm hxi
    · simpa [hid a hab] using hpre a ha

theorem Coherent.step_bget (hc : Coherent c k order) {dev blockno : Nat} {b : Fin NBUF}
    {c' : BCache} (h : bget c dev blockno = some (b, c')) :
    Coherent c' { k with held := b :: k.held } order ∧ firstOf c' order (dev, blockno) = some b := by
  rcases hc.bget_cases h with ⟨hfirst, rfl⟩ | ⟨hnone, -, rfl⟩
  · -- a hit: only the reference count of the first buffer changes
    have hb := not_shadowed_of_firstOf hfirst
    have hc' : Coherent (bpin c b) k order := hc.setBuf hb rfl rfl
    have hid : (bpin c b).ident = c.ident := BCache.ident_setBuf rfl rfl
    refine ⟨⟨hc'.circ, hc'.complete, hc'.shadowed, fun b' hb' => ?_⟩, ?_⟩
    · simp only [List.cons_append, List.mem_cons] at hb'
      rcases hb' with rfl | hb'
      · exact fun hs => hb (by simpa [Shadowed, firstOf, hid] using hs)
      · exact hc'.clients b' hb'
    · simpa [firstOf, hid] using hfirst
  · -- a recycle: the recycled buffer alone holds the new block
    have hnot : ¬ Shadowed (c.setBuf b ⟨false, dev, blockno, 1⟩) order b :=
      fun hs => (hc.shadowed_recycle hnone hs).1 rfl
    have hfirst : firstOf (c.setBuf b ⟨false, dev, blockno, 1⟩) order (dev, blockno) = some b := by
      have hi : (c.setBuf b ⟨false, dev, blockno, 1⟩).ident b = (dev, blockno) := by
        simp [BCache.ident]
      unfold Shadowed at hnot
      rw [not_not, hi] at hnot
      exact hnot
    refine ⟨⟨hc.circ, hc.complete, fun x hx => ?_, fun x hx => ?_⟩, hfirst⟩
    · obtain ⟨hxb, hsx⟩ := hc.shadowed_recycle hnone hx
      rw [BCache.setBuf_buf_of_ne c _ hxb]
      exact hc.shadowed x hsx
    · simp only [List.cons_append, List.mem_cons] at hx
      rcases hx with rfl | hx
      · exact hnot
      · exact fun hs => hc.clients x hx (hc.shadowed_recycle hnone hs).2

theorem Coherent.step_bread (hc : Coherent c k order) {dev blockno : Nat} {b : Fin NBUF}
    {c' : BCache} (h : bread c dev blockno = some (b, c')) :
    Coherent c' { k with held := b :: k.held } order ∧ firstOf c' order (dev, blockno) = some b := by
  unfold bread at h
  cases hg : bget c dev blockno with
  | none => rw [hg] at h; cases h
  | some r =>
    obtain ⟨b₀, c₀⟩ := r
    rw [hg] at h
    cases h
    obtain ⟨hc₀, hfirst⟩ := hc.step_bget hg
    split_ifs
    · exact ⟨hc₀, hfirst⟩
    · -- the disk read sets `valid` of the block's first buffer only
      have hid : (c₀.setBuf b { c₀.buf b with valid := true }).ident = c₀.ident :=
        BCache.ident_setBuf rfl rfl
      exact ⟨hc₀.setBuf (not_shadowed_of_firstOf hfirst) rfl rfl, by simpa [firstOf, hid] using hfirst⟩

/-- Whether a buffer is shadowed depends on the identities only. -/
theorem shadowed_congr {c c' : BCache} (h : c'.ident = c.ident) (order : List (Fin NBUF)) :
    Shadowed c' order = Shadowed c order := by
  funext b
  simp only [Shadowed, firstOf, h]

theorem Coherent.step_bpin (hc : Coherent c k order) {b : Fin NBUF} (hb : b ∈ k.held) :
    Coherent (bpin c b) { k with pins := b :: k.pins } order := by
  have hns : ¬ Shadowed c order b := hc.clients b (List.mem_append_left _ hb)
  have hc' : Coherent (bpin c b) k order := hc.setBuf hns rfl rfl
  have hid : (bpin c b).ident = c.ident := BCache.ident_setBuf rfl rfl
  have hsh := shadowed_congr hid order
  refine ⟨hc'.circ, hc'.complete, hc'.shadowed, fun x hx => ?_⟩
  simp only [List.mem_append, List.mem_cons] at hx
  rcases hx with hx | rfl | hx
  · exact hc'.clients x (List.mem_append_left _ hx)
  · rw [hsh]; exact hns
  · exact hc'.clients x (List.mem_append_right _ hx)

theorem Coherent.step_bunpin (hc : Coherent c k order) {b : Fin NBUF} (hb : b ∈ k.pins) :
    Coherent (bunpin c b) { k with pins := k.pins.erase b } order := by
  have hc' : Coherent (bunpin c b) k order :=
    hc.setBuf (hc.clients b (List.mem_append_right _ hb)) rfl rfl
  refine ⟨hc'.circ, hc'.complete, hc'.shadowed, fun x hx => hc'.clients x ?_⟩
  simp only [List.mem_append] at hx ⊢
  exact hx.imp id (List.mem_of_mem_erase)

/-- Releasing a held buffer keeps the cache coherent; when the last reference
goes, the buffer moves to the front and the list order changes with it. -/
theorem Coherent.step_brelse (hc : Coherent c k order) {b : Fin NBUF} (hb : b ∈ k.held) :
    ∃ order', Coherent (brelse c b) { k with held := k.held.erase b } order' := by
  have hns : ¬ Shadowed c order b := hc.clients b (List.mem_append_left _ hb)
  have hc₁ : Coherent (bunpin c b) k order := hc.setBuf hns rfl rfl
  have hid : (bunpin c b).ident = c.ident := BCache.ident_setBuf rfl rfl
  have hsh₁ := shadowed_congr hid order
  have hclients : ∀ x ∈ k.held.erase b ++ k.pins, ¬ Shadowed (bunpin c b) order x := by
    intro x hx
    simp only [List.mem_append] at hx
    exact hc₁.clients x (List.mem_append.mpr (hx.imp List.mem_of_mem_erase id))
  unfold brelse
  dsimp only
  split_ifs with h0
  · obtain ⟨o₁, o₂, rfl⟩ := List.append_of_mem (hc.complete b)
    have hnd := hc.nodup
    have hbo : b ∉ o₁ ++ o₂ := (List.nodup_middle.mp hnd |> List.nodup_cons.mp).1
    have hns₁ : ¬ Shadowed (bunpin c b) (o₁ ++ b :: o₂) b := hsh₁ ▸ hns
    -- the order after the move: `b` first, the others as they were
    have hmove : Shadowed (bunpin c b) (b :: (o₁ ++ o₂)) =
        Shadowed (bunpin c b) (o₁ ++ b :: o₂) := by
      funext x
      simp only [Shadowed, firstOf_moveFront hns₁]
    refine ⟨b :: (o₁ ++ o₂), ⟨?_, ?_, ?_, ?_⟩⟩
    · have hcirc := hc₁.circ
      simp only [List.map_append, List.map_cons] at hcirc
      have hfresh : Node.buf b ∉ Node.head :: (o₁.map Node.buf ++ o₂.map Node.buf) := by
        simpa using hbo
      have hpush := circ_push (circ_remove hcirc) hfresh
      rw [brelseUnlink_eq_remove]
      simpa using hpush
    · intro x
      rcases List.mem_append.mp (hc.complete x) with hx | hx
      · exact List.mem_cons_of_mem b (List.mem_append_left o₂ hx)
      · rcases List.mem_cons.mp hx with rfl | hx
        · exact List.mem_cons_self
        · exact List.mem_cons_of_mem b (List.mem_append_right o₁ hx)
    · intro x hx
      exact hc₁.shadowed x (hmove ▸ hx)
    · intro x hx hsx
      exact hclients x hx (hmove ▸ hsx)
  · exact ⟨order, hc₁.circ, hc₁.complete, hc₁.shadowed, hclients⟩

end Preservation

/-! ## Initialisation and reachable states -/

/-- After `binit` the list holds the buffers in reverse array order, all of
them zero. -/
theorem coherent_binit : Coherent binit ⟨[], []⟩ (List.finRange NBUF).reverse := by
  refine ⟨?_, by simp, fun b _ => ⟨rfl, rfl⟩, by simp⟩
  have hnd : (Node.head :: ([] : List Node) ++ (List.finRange NBUF).map Node.buf).Nodup := by
    simp [List.nodup_map_iff (fun _ _ h => Node.buf.inj h), List.nodup_finRange]
  have hfold := Circ.foldl_push (circ_init bcache0.link Node.head) hnd
  rw [List.foldl_map] at hfold
  simpa [binit, List.map_reverse] using hfold

/-- One call of the cache's interface by a caller entitled to make it: `brelse`
and `bpin` on a buffer it holds (`log_write` pins the buffer its caller holds),
`bunpin` on a pin placed earlier. -/
inductive Step : BCache × Clients → BCache × Clients → Prop
  | bget {c c' : BCache} {k : Clients} {dev blockno : Nat} {b : Fin NBUF} :
      bget c dev blockno = some (b, c') → Step (c, k) (c', { k with held := b :: k.held })
  | bread {c c' : BCache} {k : Clients} {dev blockno : Nat} {b : Fin NBUF} :
      bread c dev blockno = some (b, c') → Step (c, k) (c', { k with held := b :: k.held })
  | brelse {c : BCache} {k : Clients} {b : Fin NBUF} :
      b ∈ k.held → Step (c, k) (brelse c b, { k with held := k.held.erase b })
  | bpin {c : BCache} {k : Clients} {b : Fin NBUF} :
      b ∈ k.held → Step (c, k) (bpin c b, { k with pins := b :: k.pins })
  | bunpin {c : BCache} {k : Clients} {b : Fin NBUF} :
      b ∈ k.pins → Step (c, k) (bunpin c b, { k with pins := k.pins.erase b })

/-- The states reachable from `binit` with no buffer held. -/
def Reachable (s : BCache × Clients) : Prop :=
  Relation.ReflTransGen Step (binit, ⟨[], []⟩) s

theorem coherent_step {s s' : BCache × Clients} (h : Step s s')
    (hs : ∃ order, Coherent s.1 s.2 order) : ∃ order, Coherent s'.1 s'.2 order := by
  obtain ⟨order, hc⟩ := hs
  cases h with
  | bget hg => exact ⟨order, (hc.step_bget hg).1⟩
  | bread hg => exact ⟨order, (hc.step_bread hg).1⟩
  | brelse hb => exact hc.step_brelse hb
  | bpin hb => exact ⟨order, hc.step_bpin hb⟩
  | bunpin hb => exact ⟨order, hc.step_bunpin hb⟩

theorem coherent_reachable {s : BCache × Clients} (hs : Reachable s) :
    ∃ order, Coherent s.1 s.2 order := by
  induction hs with
  | refl => exact ⟨_, coherent_binit⟩
  | tail _ step ih => exact coherent_step step ih

end Xv6.Bio
