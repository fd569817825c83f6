import Mathlib
import Xv6.Fs.Dirs

/-!
# Link counts

What `nlink` counts. `create` gives a new directory no link for its `.` entry
(its comment: "avoid cyclic ref count"), and gives its parent one for the
new `..`; `sys_unlink` takes the parent's back when it removes a directory. A
directory removed so keeps its entries while a process has it as current
directory, but they name nothing any more: its `..` entry stays after the
parent's count went down. So the entries that count are those of the
*linked* directories, with links of their own, `.` entries left out
(`Names.links`); counting every allocated directory (`Names.dirLinks`) does
not give `nlink`.

`WF` is the invariant of every state reachable from the image `mkfs` writes
by calls that do not write into a removed directory and keep every count
below `SHRT_MAX`: each allocated inode's `nlink` is its `links`, directories
are `Shaped` with distinct live names, entries of linked directories name
allocated inodes, and the linked directories form a tree along their `..`
entries. The tree is what makes removing an empty directory exact: it has
one link, in its parent, and its parent keeps one more.
-/

namespace Xv6.Fs

/-- A directory whose entries count: allocated as a directory, with links. -/
def Linked (i : Inode) : Prop := i.type = T_DIR ∧ 0 < i.nlink

instance : DecidablePred Linked := fun _ => inferInstanceAs (Decidable (_ ∧ _))

/-- The links an inode gives `x`: a linked directory's entries naming `x`,
its `.` left out. -/
def Inode.links (i : Inode) (x : Nat) : Nat := if Linked i then named i.ents x else 0

theorem Linked.type_ne {i : Inode} (h : Linked i) : i.type ≠ 0 := by
  rw [h.1]
  decide

theorem Inode.links_of_linked {i : Inode} (h : Linked i) (x : Nat) : i.links x = named i.ents x :=
  if_pos h

theorem Inode.links_of_not_linked {i : Inode} (h : ¬ Linked i) (x : Nat) : i.links x = 0 :=
  if_neg h

namespace Names

/-- The links of `x`: entries naming it in linked directories. -/
def links (st : Names) (x : Nat) : Nat := ∑ d ∈ Finset.range NINODES, (st.inode d).links x

/-- Entries naming `x` in every allocated directory, `.` entries left out. -/
def dirLinks (st : Names) (x : Nat) : Nat :=
  ∑ d ∈ Finset.range NINODES, if (st.inode d).type = T_DIR then named (st.inode d).ents x else 0

variable {st : Names} {i d d' x y : Nat} {v : Inode} {e : Dirent}

/-- The count after one inode is replaced: its old links out, its new ones in. -/
theorem links_setInode (hi : i < NINODES) (v : Inode) (x : Nat) :
    (st.setInode i v).links x + (st.inode i).links x = st.links x + v.links x := by
  have hmem : i ∈ Finset.range NINODES := Finset.mem_range.mpr hi
  have h₁ := Finset.add_sum_erase _ (fun d => (Function.update st.inode i v d).links x) hmem
  have h₂ := Finset.add_sum_erase _ (fun d => (st.inode d).links x) hmem
  have h₃ : ∑ d ∈ (Finset.range NINODES).erase i, (Function.update st.inode i v d).links x =
      ∑ d ∈ (Finset.range NINODES).erase i, (st.inode d).links x :=
    Finset.sum_congr rfl fun d hd => by rw [Function.update_of_ne (Finset.ne_of_mem_erase hd)]
  simp only [Function.update_self] at h₁
  simp only [links, setInode_inode]
  omega

/-- Replacing an inode by one that gives the same links keeps every count. -/
theorem links_setInode_of_links (h : v.links = (st.inode i).links) :
    (st.setInode i v).links = st.links := by
  funext x
  refine Finset.sum_congr rfl fun d _ => ?_
  rcases eq_or_ne d i with rfl | hd
  · simp [h]
  · simp [Function.update_of_ne hd]

theorem links_le (hd : d < NINODES) (x : Nat) : (st.inode d).links x ≤ st.links x :=
  @Finset.single_le_sum ℕ ℕ _ _ (fun k => (st.inode k).links x) (Finset.range NINODES) _
    (fun _ _ => Nat.zero_le _) d (Finset.mem_range.mpr hd)

theorem links_pair_le (hd : d < NINODES) (hd' : d' < NINODES) (hne : d ≠ d') (x : Nat) :
    (st.inode d).links x + (st.inode d').links x ≤ st.links x :=
  calc (st.inode d).links x + (st.inode d').links x = ∑ k ∈ {d, d'}, (st.inode k).links x :=
        (@Finset.sum_pair ℕ ℕ _ (fun k => (st.inode k).links x) _ d d' hne).symm
    _ ≤ st.links x := Finset.sum_le_sum_of_subset (by simp [Finset.insert_subset_iff, hd, hd'])

end Names

open Names

/-- The invariant of the namespace. -/
structure WF (st : Names) : Prop where
  /-- `ialloc` hands out inodes `1` to `NINODES - 1`. -/
  range : ∀ x, (st.inode x).type ≠ 0 → 0 < x ∧ x < NINODES
  /-- A free inode has no links and no reference. -/
  free : ∀ x, (st.inode x).type = 0 → (st.inode x).nlink = 0 ∧ st.ref x = 0
  bound : ∀ x, (st.inode x).nlink ≤ 32767
  count : ∀ x, (st.inode x).type ≠ 0 → (st.inode x).nlink = st.links x
  shaped : ∀ d, (st.inode d).type = T_DIR → Shaped d (st.inode d).ents
  unique : ∀ d, (st.inode d).type = T_DIR → (liveNames (st.inode d).ents).Nodup
  alloc : ∀ d, Linked (st.inode d) → ∀ e ∈ (st.inode d).ents, e.inum ≠ 0 → (st.inode e.inum).type ≠ 0
  /-- A linked directory names a directory after `.` and `..` once if it is
  that directory's parent, and never otherwise. -/
  tree : ∀ d y, Linked (st.inode d) → (st.inode y).type = T_DIR →
    restNamed (st.inode d).ents y =
      if Linked (st.inode y) ∧ parentOf (st.inode y).ents = d ∧ y ≠ d then 1 else 0
  up : ∀ y, Linked (st.inode y) → Linked (st.inode (parentOf (st.inode y).ents))
  /-- A removed directory was empty, and nothing is added to it. -/
  dead : ∀ d, (st.inode d).type = T_DIR → (st.inode d).nlink = 0 → ∀ e ∈ (st.inode d).ents.drop 2, e.inum = 0

namespace WF

variable {st : Names} {i d dp ip x y off : Nat} {e : Dirent} {v : Inode}

theorem lt (h : WF st) (hx : (st.inode x).type ≠ 0) : x < NINODES := (h.range x hx).2

/-- An inode no live entry of a linked directory names has no links. -/
theorem links_eq_zero (hx : x ≠ 0)
    (hn : ∀ d, Linked (st.inode d) → ∀ e ∈ (st.inode d).ents, e.inum ≠ 0 → e.inum ≠ x) :
    st.links x = 0 := by
  refine Finset.sum_eq_zero fun d _ => ?_
  by_cases hd : Linked (st.inode d)
  · rw [Inode.links_of_linked hd]
    refine List.countP_eq_zero.mpr fun e he hne => ?_
    have hex : e.inum = x := (of_decide_eq_true hne).1
    exact hn d hd e he (hex ▸ hx) hex
  · exact Inode.links_of_not_linked hd x

/-- No live entry of a linked directory names a free inode. -/
theorem not_named_of_free (h : WF st) (hfree : (st.inode x).type = 0) :
    ∀ d, Linked (st.inode d) → ∀ e ∈ (st.inode d).ents, e.inum ≠ 0 → e.inum ≠ x := by
  rintro d hd e he hlive rfl
  exact h.alloc d hd e he hlive hfree

/-- A live entry of a linked directory, other than its `.`, is a link of the
inode it names. -/
theorem links_pos (h : WF st) (hd : Linked (st.inode d)) (he : e ∈ (st.inode d).ents)
    (hlive : e.inum ≠ 0) (hne : e.inum ≠ d) : 0 < st.links e.inum := by
  have hpos := (h.shaped d hd.1).named_pos he hlive hne
  rw [← Inode.links_of_linked hd] at hpos
  exact Nat.lt_of_lt_of_le hpos (links_le (h.lt hd.type_ne) _)

/-- Every inode a linked directory names has links: `iput` of it frees nothing. -/
theorem nlink_pos (h : WF st) (hd : Linked (st.inode d)) (he : e ∈ (st.inode d).ents)
    (hlive : e.inum ≠ 0) : 0 < (st.inode e.inum).nlink := by
  rcases eq_or_ne e.inum d with hself | hne
  · exact hself ▸ hd.2
  · rw [h.count _ (h.alloc d hd e he hlive)]
    exact_mod_cast h.links_pos hd he hlive hne

theorem nlink_nonneg (h : WF st) (x : Nat) : 0 ≤ (st.inode x).nlink := by
  by_cases hx : (st.inode x).type = 0
  · rw [(h.free x hx).1]
  · rw [h.count x hx]
    exact Int.natCast_nonneg _

/-- Replacing an inode that no linked directory names by one that is not a
directory keeps the invariant, given what the invariant asks of the new one. -/
theorem setInode_unnamed (h : WF st) (hx : ¬ Linked (st.inode x)) (hv : v.type ≠ T_DIR)
    (hnamed : ∀ d, Linked (st.inode d) → ∀ e ∈ (st.inode d).ents, e.inum ≠ 0 → e.inum ≠ x)
    (hused : v.type ≠ 0 → 0 < x ∧ x < NINODES ∧ v.nlink = 0)
    (hfree : v.type = 0 → v.nlink = 0 ∧ st.ref x = 0) (hbound : v.nlink ≤ 32767) :
    WF (st.setInode x v) := by
  have hvl : ¬ Linked v := fun hl => hv hl.1
  -- the replaced inode gives no links before or after
  have hlinks : (st.setInode x v).links = st.links := by
    refine links_setInode_of_links (funext fun y => ?_)
    rw [Inode.links_of_not_linked hx, Inode.links_of_not_linked hvl]
  have hlinked : ∀ y, Linked (Function.update st.inode x v y) ↔ Linked (st.inode y) := by
    intro y
    rcases eq_or_ne y x with rfl | hy
    · simp only [Function.update_self, iff_false_intro hx, iff_false_intro hvl]
    · rw [Function.update_of_ne hy]
  have hdir : ∀ y, (Function.update st.inode x v y).type = T_DIR → y ≠ x := by
    rintro y hy rfl
    exact hv (by simpa using hy)
  refine ⟨fun y hy => ?_, fun y hy => ?_, fun y => ?_, fun y hy => ?_, fun d hd => ?_, fun d hd => ?_,
    fun d hd e he hlive => ?_, fun d y hd hy => ?_, fun y hl => ?_, fun d hd hnl => ?_⟩
  all_goals simp only [setInode_inode, setInode_ref, hlinks] at *
  · rcases eq_or_ne y x with rfl | hyx
    · obtain ⟨h₀, h₁, -⟩ := hused (by simpa using hy)
      exact ⟨h₀, h₁⟩
    · exact h.range y (by rwa [Function.update_of_ne hyx] at hy)
  · rcases eq_or_ne y x with rfl | hyx
    · simpa using hfree (by simpa using hy)
    · rw [Function.update_of_ne hyx] at hy ⊢
      exact h.free y hy
  · rcases eq_or_ne y x with rfl | hyx
    · simpa using hbound
    · rw [Function.update_of_ne hyx]
      exact h.bound y
  · rcases eq_or_ne y x with rfl | hyx
    · obtain ⟨hy₀, -, hnl⟩ := hused (by simpa using hy)
      simp only [Function.update_self, hnl, links_eq_zero (Nat.pos_iff_ne_zero.mp hy₀) hnamed]
      rfl
    · rw [Function.update_of_ne hyx] at hy ⊢
      exact h.count y hy
  · have hdx := hdir d hd
    rw [Function.update_of_ne hdx] at hd ⊢
    exact h.shaped d hd
  · have hdx := hdir d hd
    rw [Function.update_of_ne hdx] at hd ⊢
    exact h.unique d hd
  · have hd' := (hlinked d).mp hd
    rw [Function.update_of_ne (hdir d hd.1)] at he
    rw [Function.update_of_ne (hnamed d hd' e he hlive)]
    exact h.alloc d hd' e he hlive
  · have hd' := (hlinked d).mp hd
    simp only [Function.update_of_ne (hdir d hd.1), Function.update_of_ne (hdir y hy)] at hy ⊢
    exact h.tree d y hd' hy
  · have hy' := (hlinked y).mp hl
    rw [Function.update_of_ne (hdir y hl.1), hlinked]
    exact h.up y hy'
  · have hdx := hdir d hd
    rw [Function.update_of_ne hdx] at hd hnl ⊢
    exact h.dead d hd hnl

/-- `iput` keeps the invariant: it frees only an inode no linked directory
names and no one holds. -/
theorem iput (h : WF st) (x : Nat) : WF (st.iput x) := by
  by_cases hput : st.ref x = 0 ∧ (st.inode x).nlink = 0
  swap
  · unfold Names.iput
    rwa [if_neg hput]
  rw [iput_of_free hput]
  obtain ⟨hrefx, hnlx⟩ := hput
  have hnx : ¬ Linked (st.inode x) := fun hl => absurd hnlx (ne_of_gt hl.2)
  -- a linked directory naming it would give it a link
  have hnamed : ∀ d, Linked (st.inode d) → ∀ e ∈ (st.inode d).ents, e.inum ≠ 0 → e.inum ≠ x := by
    rintro d hd e he hlive rfl
    have hne : e.inum ≠ d := fun hed => hnx (hed ▸ hd)
    have hcount := h.count _ (h.alloc d hd e he hlive)
    have hpos := h.links_pos hd he hlive hne
    omega
  refine h.setInode_unnamed hnx (by simp [T_DIR]) hnamed (fun h0 => absurd rfl h0) ?_ (h.bound x)
  exact fun _ => ⟨hnlx, hrefx⟩

/-- `ialloc` of a file or device. -/
theorem ialloc (h : WF st) (hfree : (st.inode x).type = 0) (hx : 0 < x ∧ x < NINODES) {t : Nat}
    (ht : t ≠ 0) (htd : t ≠ T_DIR) : WF (st.setInode x ⟨t, 0, []⟩) := by
  refine h.setInode_unnamed (fun hl => hl.type_ne hfree) htd (h.not_named_of_free hfree)
    (fun _ => ⟨hx.1, hx.2, rfl⟩) (fun h0 => absurd h0 ht) (by simp)

/-- A reference kept on an allocated inode. -/
theorem hold (h : WF st) (hi : (st.inode i).type ≠ 0) : WF (st.hold i) := by
  refine ⟨h.range, fun y hy => ⟨(h.free y hy).1, ?_⟩, h.bound, h.count, h.shaped, h.unique, h.alloc,
    h.tree, h.up, h.dead⟩
  rcases eq_or_ne y i with rfl | hyi
  · exact absurd hy hi
  · simpa [Function.update_of_ne hyi] using (h.free y hy).2

/-- A kept reference given back. -/
theorem release (h : WF st) : WF (st.release i) := by
  refine ⟨h.range, fun y hy => ⟨(h.free y hy).1, ?_⟩, h.bound, h.count, h.shaped, h.unique, h.alloc,
    h.tree, h.up, h.dead⟩
  rcases eq_or_ne y i with rfl | hyi
  · simp [(h.free y hy).2]
  · simpa [Function.update_of_ne hyi] using (h.free y hy).2

/-- A link of a file or device added to or removed from a linked directory,
its count moved by as much. The new entries keep the directory's shape, its
`..` and the entries naming any other inode. -/
theorem relink (h : WF st) (hdp : Linked (st.inode dp)) (hxt : (st.inode x).type ≠ 0)
    (hxd : (st.inode x).type ≠ T_DIR) {es : List Dirent} (hs : Shaped dp es) (hu : (liveNames es).Nodup)
    (hp : parentOf es = parentOf (st.inode dp).ents)
    (hr : ∀ y, y ≠ 0 → y ≠ x → restNamed es y = restNamed (st.inode dp).ents y)
    (ha : ∀ e ∈ es, e.inum ≠ 0 → (st.inode e.inum).type ≠ 0) {n : Int}
    (hn : n + named (st.inode dp).ents x = (st.inode x).nlink + named es x) (hb : n ≤ 32767) :
    WF ((st.setNlink x n).setEnts dp es) := by
  have hxdp : dp ≠ x := fun hxdp => hxd (hxdp ▸ hdp.1)
  have hdpN := h.lt hdp.type_ne
  set st' := (st.setNlink x n).setEnts dp es with hst'
  have hI_dp : st'.inode dp = { st.inode dp with ents := es } := by
    simp [hst', Function.update_of_ne hxdp]
  have hI_x : st'.inode x = { st.inode x with nlink := n } := by
    simp [hst', Function.update_of_ne hxdp.symm]
  have hI : ∀ y, y ≠ dp → y ≠ x → st'.inode y = st.inode y := by
    intro y hydp hyx
    simp [hst', Function.update_of_ne hydp, Function.update_of_ne hyx]
  have htype : ∀ y, (st'.inode y).type = (st.inode y).type := by
    intro y
    rcases eq_or_ne y dp with rfl | hydp
    · rw [hI_dp]
    rcases eq_or_ne y x with rfl | hyx
    · rw [hI_x]
    · rw [hI y hydp hyx]
  have hlinked : ∀ y, Linked (st'.inode y) ↔ Linked (st.inode y) := by
    intro y
    rcases eq_or_ne y dp with rfl | hydp
    · rw [hI_dp]
      rfl
    rcases eq_or_ne y x with rfl | hyx
    · rw [hI_x]
      exact ⟨fun hl => absurd hl.1 hxd, fun hl => absurd hl.1 hxd⟩
    · rw [hI y hydp hyx]
  have hents : ∀ y, y ≠ dp → (st'.inode y).ents = (st.inode y).ents := by
    intro y hydp
    rcases eq_or_ne y x with rfl | hyx
    · rw [hI_x]
    · rw [hI y hydp hyx]
  have hparent : ∀ y, parentOf (st'.inode y).ents = parentOf (st.inode y).ents := by
    intro y
    rcases eq_or_ne y dp with rfl | hydp
    · rw [hI_dp, hp]
    · rw [hents y hydp]
  have hnl : ∀ y, y ≠ x → (st'.inode y).nlink = (st.inode y).nlink := by
    intro y hyx
    rcases eq_or_ne y dp with rfl | hydp
    · rw [hI_dp]
    · rw [hI y hydp hyx]
  -- the count moves only for `x`, by the entries naming it
  have hlinks : ∀ y, st'.links y + named (st.inode dp).ents y = st.links y + named es y := by
    intro y
    have hxl : ¬ Linked { st.inode x with nlink := n } := fun hl => hxd hl.1
    have h₁ : (st.setNlink x n).links = st.links := by
      refine links_setInode_of_links (funext fun z => ?_)
      rw [Inode.links_of_not_linked hxl, Inode.links_of_not_linked (fun hl => hxd hl.1)]
    have h₂ := @links_setInode (st.setNlink x n) dp hdpN { st.inode dp with ents := es } y
    have hdp₁ : (st.setNlink x n).inode dp = st.inode dp := by
      simp only [setNlink_eq, setInode_inode, Function.update_of_ne hxdp]
    have heq : st' = (st.setNlink x n).setInode dp { st.inode dp with ents := es } := by
      rw [hst', setEnts_eq, hdp₁]
    rw [hdp₁, h₁, Inode.links_of_linked hdp,
      Inode.links_of_linked (show Linked { st.inode dp with ents := es } from hdp), ← heq] at h₂
    exact h₂
  have hnamed : ∀ y, y ≠ 0 → y ≠ x → named es y = named (st.inode dp).ents y := by
    intro y hy0 hyx
    rw [hs.named_eq hy0, (h.shaped dp hdp.1).named_eq hy0, hp, hr y hy0 hyx]
  refine ⟨fun y hy => ?_, fun y hy => ?_, fun y => ?_, fun y hy => ?_, fun d hd => ?_, fun d hd => ?_,
    fun d hd e he hlive => ?_, fun d y hd hy => ?_, fun y hl => ?_, fun d hd hnl => ?_⟩
  · exact h.range y (htype y ▸ hy)
  · have hyx : y ≠ x := by
      rintro rfl
      exact hxt (htype _ ▸ hy)
    rw [hnl y hyx]
    exact h.free y (htype y ▸ hy)
  · rcases eq_or_ne y x with rfl | hyx
    · rw [hI_x]
      exact hb
    · rw [hnl y hyx]
      exact h.bound y
  · have hy0 := (h.range y (htype y ▸ hy)).1
    have hcount := hlinks y
    rcases eq_or_ne y x with rfl | hyx
    · rw [hI_x]
      dsimp only
      have := h.count y hxt
      omega
    · rw [hnl y hyx, h.count y (htype y ▸ hy)]
      rw [hnamed y (Nat.pos_iff_ne_zero.mp hy0) hyx] at hcount
      omega
  · rcases eq_or_ne d dp with rfl | hdp'
    · rw [hI_dp]
      exact hs
    · rw [hents d hdp']
      exact h.shaped d (htype d ▸ hd)
  · rcases eq_or_ne d dp with rfl | hdp'
    · rw [hI_dp]
      exact hu
    · rw [hents d hdp']
      exact h.unique d (htype d ▸ hd)
  · rw [htype]
    rcases eq_or_ne d dp with rfl | hdp'
    · rw [hI_dp] at he
      exact ha e he hlive
    · rw [hents d hdp'] at he
      exact h.alloc d ((hlinked d).mp hd) e he hlive
  · have hy' := htype y ▸ hy
    have hyx : y ≠ x := by
      rintro rfl
      exact hxd hy'
    have hy0 := (h.range y (by rw [hy']; decide)).1
    simp only [hlinked y, hparent y]
    rcases eq_or_ne d dp with rfl | hdp'
    · rw [hI_dp, hr y (Nat.pos_iff_ne_zero.mp hy0) hyx]
      exact h.tree d y hdp hy'
    · rw [hents d hdp']
      exact h.tree d y ((hlinked d).mp hd) hy'
  · rw [hparent, hlinked]
    exact h.up y ((hlinked y).mp hl)
  · have hdp' : d ≠ dp := by
      rintro rfl
      rw [hI_dp] at hnl
      exact absurd hnl (ne_of_gt hdp.2)
    have hdx : d ≠ x := by
      rintro rfl
      exact hxd (htype _ ▸ hd)
    rw [hI d hdp' hdx] at hd hnl ⊢
    exact h.dead d hd hnl

/-- A new link of a file or device, under a name its linked directory does
not have yet. -/
theorem addLink (h : WF st) (hdp : Linked (st.inode dp)) (hxt : (st.inode x).type ≠ 0)
    (hxd : (st.inode x).type ≠ T_DIR) (hb : (st.inode x).nlink < 32767) {name : String}
    (hname : name ∉ liveNames (st.inode dp).ents) :
    WF ((st.setNlink x ((st.inode x).nlink + 1)).setEnts dp (setSlot ⟨x, name⟩ (st.inode dp).ents)) := by
  have hdp0 : dp ≠ 0 := Nat.pos_iff_ne_zero.mp (h.range dp hdp.type_ne).1
  have hx0 : x ≠ 0 := Nat.pos_iff_ne_zero.mp (h.range x hxt).1
  have hsh := h.shaped dp hdp.1
  have hn : (Dirent.mk x name).name ≠ "." ∧ (Dirent.mk x name).name ≠ ".." := by
    show name ≠ "." ∧ name ≠ ".."
    obtain ⟨h₁, h₂⟩ := hsh.dots_mem hdp0
    exact ⟨fun he => hname (he ▸ h₁), fun he => hname (he ▸ h₂)⟩
  obtain ⟨hs, -, hp⟩ := hsh.setSlot hdp0 hn
  have hu : (liveNames (setSlot ⟨x, name⟩ (st.inode dp).ents)).Nodup :=
    (liveNames_setSlot hx0).nodup_iff.mpr (List.nodup_cons.mpr ⟨hname, h.unique dp hdp.1⟩)
  refine h.relink hdp hxt hxd hs hu hp (fun y hy0 hyx => ?_) (fun e he hlive => ?_) ?_ (by omega)
  · rw [restNamed_setSlot hsh hdp0 hn hy0, if_neg (Ne.symm hyx), Nat.add_zero]
  · rcases mem_setSlot he with rfl | he
    · exact hxt
    · exact h.alloc dp hdp e he hlive
  · rw [named_setSlot hx0, if_pos ⟨rfl, hn.1⟩]
    push_cast
    omega

/-- A link of a file or device removed: its slot cleared and its count one
down. -/
theorem removeLink (h : WF st) (hdp : Linked (st.inode dp)) (hoff : 2 ≤ off) {name : String}
    (he : (st.inode dp).ents[off]? = some ⟨x, name⟩) (hn : name ≠ ".") (hxt : (st.inode x).type ≠ 0)
    (hxd : (st.inode x).type ≠ T_DIR) :
    WF ((st.setNlink x ((st.inode x).nlink - 1)).setEnts dp ((st.inode dp).ents.set off ⟨0, ""⟩)) := by
  have hx0 : x ≠ 0 := Nat.pos_iff_ne_zero.mp (h.range x hxt).1
  have hsh := h.shaped dp hdp.1
  obtain ⟨hs, -, hp⟩ := hsh.set_free hoff
  have hu : (liveNames ((st.inode dp).ents.set off ⟨0, ""⟩)).Nodup :=
    liveNames_set_free.nodup (h.unique dp hdp.1)
  refine h.relink hdp hxt hxd hs hu hp (fun y hy0 hyx => ?_) (fun e he' hlive => ?_) ?_ ?_
  · have := restNamed_set_free hsh hoff he hy0
    rwa [if_neg (Ne.symm hyx), Nat.add_zero] at this
  · rcases List.mem_or_eq_of_mem_set he' with he' | rfl
    · exact h.alloc dp hdp e he' hlive
    · exact absurd rfl hlive
  · have := named_set_free hx0 he
    rw [if_pos ⟨rfl, hn⟩] at this
    omega
  · have := h.bound x
    omega

/-- `create` of a directory: a free inode becomes a directory with one link,
its `.` and its `..`, named in a linked parent, which gets one link more for
the new `..`. -/
theorem addDir (h : WF st) (hdp : Linked (st.inode dp)) (hfree : (st.inode ip).type = 0)
    (hip : 0 < ip ∧ ip < NINODES) (hb : (st.inode dp).nlink < 32767) {name : String}
    (hname : name ∉ liveNames (st.inode dp).ents) :
    WF ((st.setInode ip ⟨T_DIR, 1, dots ip dp⟩).setInode dp
      { st.inode dp with nlink := (st.inode dp).nlink + 1, ents := setSlot ⟨ip, name⟩ (st.inode dp).ents }) := by
  have hipdp : ip ≠ dp := fun hi => hdp.type_ne (hi ▸ hfree)
  have hdpN := h.lt hdp.type_ne
  have hdp0 : dp ≠ 0 := Nat.pos_iff_ne_zero.mp (h.range dp hdp.type_ne).1
  have hip0 : ip ≠ 0 := Nat.pos_iff_ne_zero.mp hip.1
  have hsh := h.shaped dp hdp.1
  have hn : name ≠ "." ∧ name ≠ ".." := by
    obtain ⟨h₁, h₂⟩ := hsh.dots_mem hdp0
    exact ⟨fun he => hname (he ▸ h₁), fun he => hname (he ▸ h₂)⟩
  have hn' : (Dirent.mk ip name).name ≠ "." ∧ (Dirent.mk ip name).name ≠ ".." := hn
  obtain ⟨hs', -, hpar⟩ := hsh.setSlot hdp0 hn'
  have hnl : ¬ Linked (st.inode ip) := fun hl => hl.type_ne hfree
  -- no linked directory names the free inode yet
  have hnamed_ip : ∀ d, Linked (st.inode d) → restNamed (st.inode d).ents ip = 0 := by
    intro d hd
    refine List.countP_eq_zero.mpr fun e he hei => ?_
    have hei : e.inum = ip := of_decide_eq_true hei
    exact h.not_named_of_free hfree d hd e (List.mem_of_mem_drop he) (hei ▸ hip0) hei
  set es' := setSlot ⟨ip, name⟩ (st.inode dp).ents
  set I : Inode := ⟨T_DIR, 1, dots ip dp⟩
  set D : Inode := { st.inode dp with nlink := (st.inode dp).nlink + 1, ents := es' }
  set st' := (st.setInode ip I).setInode dp D with hst'
  have hI_ip : st'.inode ip = I := by
    simp [hst', Function.update_of_ne hipdp]
  have hI_dp : st'.inode dp = D := by
    simp [hst']
  have hI : ∀ y, y ≠ dp → y ≠ ip → st'.inode y = st.inode y := by
    intro y hydp hyip
    simp [hst', Function.update_of_ne hydp, Function.update_of_ne hyip]
  have hlI : Linked I := ⟨rfl, show (0 : Int) < 1 by decide⟩
  have hlD : Linked D := ⟨hdp.1, by have := hdp.2; dsimp only [D]; omega⟩
  have hlinked : ∀ y, y ≠ ip → (Linked (st'.inode y) ↔ Linked (st.inode y)) := by
    intro y hyip
    rcases eq_or_ne y dp with rfl | hydp
    · rw [hI_dp]
      exact iff_of_true hlD hdp
    · rw [hI y hydp hyip]
  have hmono : ∀ y, Linked (st.inode y) → Linked (st'.inode y) := by
    intro y hy
    have hyip : y ≠ ip := fun hi => hnl (hi ▸ hy)
    exact (hlinked y hyip).mpr hy
  have htype : ∀ y, y ≠ ip → (st'.inode y).type = (st.inode y).type := by
    intro y hyip
    rcases eq_or_ne y dp with rfl | hydp
    · rw [hI_dp]
    · rw [hI y hydp hyip]
  have htype_ne : ∀ y, (st.inode y).type ≠ 0 → (st'.inode y).type ≠ 0 := by
    intro y hy
    rcases eq_or_ne y ip with rfl | hyip
    · exact absurd hfree hy
    · rwa [htype y hyip]
  have hparent : ∀ y, y ≠ ip → parentOf (st'.inode y).ents = parentOf (st.inode y).ents := by
    intro y hyip
    rcases eq_or_ne y dp with rfl | hydp
    · rw [hI_dp]
      exact hpar
    · rw [hI y hydp hyip]
  -- the new `..` links the parent, the new entry the directory
  have hlinks : ∀ y, y ≠ 0 →
      st'.links y = st.links y + (if dp = y then 1 else 0) + (if ip = y then 1 else 0) := by
    intro y hy0
    have h₁ := @links_setInode st ip hip.2 I y
    have h₂ := @links_setInode (st.setInode ip I) dp hdpN D y
    have hdp₁ : (st.setInode ip I).inode dp = st.inode dp := by
      simp [Function.update_of_ne hipdp.symm]
    rw [Inode.links_of_not_linked hnl, Inode.links_of_linked hlI, named_dots] at h₁
    rw [hdp₁, Inode.links_of_linked hdp, Inode.links_of_linked hlD, ← hst'] at h₂
    have h₃ : named es' y = named (st.inode dp).ents y + if ip = y ∧ name ≠ "." then 1 else 0 :=
      named_setSlot hy0 _
    simp only [ne_eq, hn.1, not_false_eq_true, and_true] at h₃
    dsimp only [D] at h₂
    omega
  refine ⟨fun y hy => ?_, fun y hy => ?_, fun y => ?_, fun y hy => ?_, fun d hd => ?_, fun d hd => ?_,
    fun d hd e he hlive => ?_, fun d y hd hy => ?_, fun y hl => ?_, fun d hd hnl' => ?_⟩
  · rcases eq_or_ne y ip with rfl | hyip
    · exact hip
    · exact h.range y (htype y hyip ▸ hy)
  · have hyip : y ≠ ip := by
      rintro rfl
      rw [hI_ip] at hy
      exact absurd hy (show T_DIR ≠ 0 by decide)
    have hydp : y ≠ dp := by
      rintro rfl
      exact hdp.type_ne (htype _ hyip ▸ hy)
    rw [hI y hydp hyip] at hy ⊢
    exact h.free y hy
  · rcases eq_or_ne y ip with rfl | hyip
    · rw [hI_ip]
      show (1 : Int) ≤ 32767
      decide
    rcases eq_or_ne y dp with rfl | hydp
    · rw [hI_dp]
      dsimp only [D]
      omega
    · rw [hI y hydp hyip]
      exact h.bound y
  · rcases eq_or_ne y ip with rfl | hyip
    · rw [hI_ip, hlinks y hip0, links_eq_zero hip0 (h.not_named_of_free hfree), if_neg hipdp.symm,
        if_pos rfl]
      rfl
    have hy' := htype y hyip ▸ hy
    have hy0 : y ≠ 0 := Nat.pos_iff_ne_zero.mp (h.range y hy').1
    rw [hlinks y hy0, if_neg (Ne.symm hyip)]
    rcases eq_or_ne y dp with rfl | hydp
    · rw [hI_dp, if_pos rfl]
      have hc := h.count y hy'
      dsimp only [D]
      push_cast
      omega
    · rw [hI y hydp hyip, if_neg (Ne.symm hydp), h.count y hy']
      simp only [Nat.add_zero]
  · rcases eq_or_ne d ip with rfl | hdip
    · rw [hI_ip]
      exact ⟨dp, [], hdp0, rfl, by simp⟩
    rcases eq_or_ne d dp with rfl | hddp
    · rw [hI_dp]
      exact hs'
    · rw [hI d hddp hdip] at hd ⊢
      exact h.shaped d hd
  · rcases eq_or_ne d ip with rfl | hdip
    · rw [hI_ip]
      show (liveNames (dots d dp)).Nodup
      simp [dots, liveNames_cons, hdp0, hip0]
    rcases eq_or_ne d dp with rfl | hddp
    · rw [hI_dp]
      exact (liveNames_setSlot hip0).nodup_iff.mpr (List.nodup_cons.mpr ⟨hname, h.unique d hdp.1⟩)
    · rw [hI d hddp hdip] at hd ⊢
      exact h.unique d hd
  · rcases eq_or_ne e.inum ip with hei | hei
    · rw [hei, hI_ip]
      show T_DIR ≠ 0
      decide
    refine htype_ne _ ?_
    rcases eq_or_ne d ip with rfl | hdip
    · rw [hI_ip] at he
      rcases List.mem_pair.mp he with rfl | rfl
      · exact absurd rfl hei
      · exact hdp.type_ne
    rcases eq_or_ne d dp with rfl | hddp
    · rw [hI_dp] at he
      rcases mem_setSlot he with rfl | he
      · exact absurd rfl hei
      · exact h.alloc d hdp e he hlive
    · rw [hI d hddp hdip] at he
      exact h.alloc d ((hlinked d hdip).mp hd) e he hlive
  · rcases eq_or_ne y ip with rfl | hyip
    · -- the new directory: its parent names it once, no one else does
      have hr : (Linked (st'.inode y) ∧ parentOf (st'.inode y).ents = d ∧ y ≠ d) ↔ (dp = d ∧ y ≠ d) := by
        rw [hI_ip]
        exact ⟨fun h' => ⟨h'.2.1, h'.2.2⟩, fun h' => ⟨hlI, h'.1, h'.2⟩⟩
      simp only [hr]
      rcases eq_or_ne d y with rfl | hdy
      · rw [hI_ip, if_neg fun h' => h'.2 rfl]
        rfl
      rcases eq_or_ne d dp with rfl | hddp
      · rw [hI_dp, if_pos ⟨rfl, hdy.symm⟩]
        show restNamed es' y = 1
        rw [restNamed_setSlot hsh hdp0 hn' hip0, hnamed_ip d hdp, if_pos rfl]
      · rw [hI d hddp hdy, if_neg fun h' => hddp h'.1.symm]
        exact hnamed_ip d ((hlinked d hdy).mp hd)
    · have hy' := htype y hyip ▸ hy
      simp only [hlinked y hyip, hparent y hyip]
      rcases eq_or_ne d ip with rfl | hdip
      · rw [hI_ip, if_neg]
        · rfl
        rintro ⟨hl, hp, -⟩
        exact hnl (hp ▸ h.up y hl)
      rcases eq_or_ne d dp with rfl | hddp
      · rw [hI_dp]
        have hy0 : y ≠ 0 := Nat.pos_iff_ne_zero.mp (h.range y (by rw [hy']; decide)).1
        show restNamed es' y = _
        rw [restNamed_setSlot hsh hdp0 hn' hy0, if_neg (Ne.symm hyip), Nat.add_zero]
        exact h.tree d y hdp hy'
      · rw [hI d hddp hdip]
        exact h.tree d y ((hlinked d hdip).mp hd) hy'
  · rcases eq_or_ne y ip with rfl | hyip
    · rw [hI_ip, show parentOf I.ents = dp from rfl, hI_dp]
      exact hlD
    · rw [hparent y hyip]
      exact hmono _ (h.up y ((hlinked y hyip).mp hl))
  · rcases eq_or_ne d ip with rfl | hdip
    · rw [hI_ip] at hnl'
      exact absurd hnl' (show (1 : Int) ≠ 0 by decide)
    rcases eq_or_ne d dp with rfl | hddp
    · rw [hI_dp] at hnl'
      dsimp only [D] at hnl'
      have := hdp.2
      omega
    · rw [hI d hddp hdip] at hd hnl' ⊢
      exact h.dead d hd hnl'

/-- What `sys_unlink` finds under a name other than `.` and `..`: a live
entry after them, in a linked directory (a removed one has none), naming an
allocated inode. -/
theorem lookup_found (h : WF st) (hdpd : (st.inode dp).type = T_DIR) {name : String}
    (hn : name ≠ "." ∧ name ≠ "..") (hl : lookup name (st.inode dp).ents = some (ip, off)) :
    Linked (st.inode dp) ∧ 2 ≤ off ∧ ip ≠ 0 ∧ (st.inode dp).ents[off]? = some ⟨ip, name⟩ ∧
      (st.inode ip).type ≠ 0 ∧ 0 < restNamed (st.inode dp).ents ip := by
  have hoff := (h.shaped dp hdpd).two_le hl hn
  obtain ⟨e, he, rfl, hip0, rfl⟩ := lookup_some hl
  have hdrop : e ∈ (st.inode dp).ents.drop 2 := by
    refine List.mem_of_getElem? (show ((st.inode dp).ents.drop 2)[off - 2]? = some e from ?_)
    rw [List.getElem?_drop, Nat.add_sub_cancel' hoff, he]
  have hlinked : Linked (st.inode dp) := by
    refine ⟨hdpd, lt_of_le_of_ne (h.nlink_nonneg dp) fun h0 => hip0 ?_⟩
    exact h.dead dp hdpd h0.symm e hdrop
  refine ⟨hlinked, hoff, hip0, he, h.alloc dp hlinked e (List.mem_of_getElem? he) hip0, ?_⟩
  exact List.countP_pos_iff.mpr ⟨e, hdrop, by simp⟩

/-- An empty directory found in a linked directory: that directory is its
parent, which names it once, no linked directory has it as parent, it has
one link and its parent at least two. -/
theorem empty_found (h : WF st) (hdp : Linked (st.inode dp)) (hipd : (st.inode ip).type = T_DIR)
    (hpos : 0 < restNamed (st.inode dp).ents ip) (hempty : isdirempty (st.inode ip).ents = true) :
    Linked (st.inode ip) ∧ parentOf (st.inode ip).ents = dp ∧ ip ≠ dp ∧
      restNamed (st.inode dp).ents ip = 1 ∧
      (∀ d, Linked (st.inode d) → parentOf (st.inode d).ents ≠ ip) ∧
      st.links ip = 1 ∧ 2 ≤ st.links dp := by
  have htree := h.tree dp ip hdp hipd
  have hcond : Linked (st.inode ip) ∧ parentOf (st.inode ip).ents = dp ∧ ip ≠ dp := by
    by_contra hc
    rw [if_neg hc] at htree
    omega
  obtain ⟨hlip, hpar, hipdp⟩ := hcond
  rw [if_pos ⟨hlip, hpar, hipdp⟩] at htree
  have hip0 : ip ≠ 0 := Nat.pos_iff_ne_zero.mp (h.range ip hlip.type_ne).1
  have hipN := h.lt hlip.type_ne
  have hdpN := h.lt hdp.type_ne
  -- a linked directory with parent `ip` would be named in `ip`, which is empty
  have hnochild : ∀ d, Linked (st.inode d) → parentOf (st.inode d).ents ≠ ip := by
    intro d hd hdpar
    rcases eq_or_ne d ip with rfl | hdip
    · exact hipdp (hpar.symm.trans hdpar).symm
    · have hd0 : d ≠ 0 := Nat.pos_iff_ne_zero.mp (h.range d hd.type_ne).1
      have ht := h.tree ip d hlip hd.1
      rw [if_pos ⟨hd, hdpar, hdip⟩, restNamed_of_isdirempty hempty hd0] at ht
      exact absurd ht (by decide)
  -- the links of a linked directory `d` to `ip`: only its parent's entry
  have hterm : ∀ d, (st.inode d).links ip = if d = dp then 1 else 0 := by
    intro d
    by_cases hd : Linked (st.inode d)
    · rw [Inode.links_of_linked hd, (h.shaped d hd.1).named_eq hip0, if_neg (hnochild d hd),
        h.tree d ip hd hipd, Nat.zero_add]
      by_cases hdd : d = dp
      · rw [if_pos ⟨hlip, hdd ▸ hpar, hdd ▸ hipdp⟩, if_pos hdd]
      · rw [if_neg fun hc => hdd (hc.2.1.symm.trans hpar), if_neg hdd]
    · rw [Inode.links_of_not_linked hd, if_neg fun (hdd : d = dp) => hd (hdd ▸ hdp)]
  have hlinks_ip : st.links ip = 1 := by
    unfold links
    rw [Finset.sum_eq_single dp (fun d _ hd => by rw [hterm, if_neg hd])
      (fun hn => absurd (Finset.mem_range.mpr hdpN) hn), hterm, if_pos rfl]
  -- the parent has the link of `ip`'s `..`, and one from its own parent or `..`
  have hfrom_ip : (st.inode ip).links dp = 1 := by
    rw [Inode.links_of_linked hlip, (h.shaped ip hipd).named_eq (Nat.pos_iff_ne_zero.mp
      (h.range dp hdp.type_ne).1), if_pos hpar, restNamed_of_isdirempty hempty
      (Nat.pos_iff_ne_zero.mp (h.range dp hdp.type_ne).1)]
  have hdp0 : dp ≠ 0 := Nat.pos_iff_ne_zero.mp (h.range dp hdp.type_ne).1
  have hother : ∃ g, g ≠ ip ∧ g < NINODES ∧ 1 ≤ (st.inode g).links dp := by
    by_cases hself : parentOf (st.inode dp).ents = dp
    · refine ⟨dp, hipdp.symm, hdpN, ?_⟩
      rw [Inode.links_of_linked hdp, (h.shaped dp hdp.1).named_eq hdp0, if_pos hself]
      omega
    · set g := parentOf (st.inode dp).ents
      have hg := h.up dp hdp
      have ht := h.tree g dp hg hdp.1
      rw [if_pos ⟨hdp, rfl, fun hg' => hself hg'.symm⟩] at ht
      have hgip : g ≠ ip := by
        intro hgip
        rw [hgip, restNamed_of_isdirempty hempty hdp0] at ht
        exact absurd ht (by decide)
      refine ⟨g, hgip, h.lt hg.type_ne, ?_⟩
      rw [Inode.links_of_linked hg, (h.shaped g hg.1).named_eq hdp0, ht]
      omega
  obtain ⟨g, hgip, hgN, hg⟩ := hother
  have hpair := @links_pair_le st ip g hipN hgN (Ne.symm hgip) dp
  exact ⟨hlip, hpar, hipdp, htree, hnochild, hlinks_ip, by omega⟩

/-- `sys_unlink` of an empty directory found in a linked directory: its entry
cleared, the parent's count down by the link the directory's `..` gave it,
and the directory's own count down to `0`, so its entries stop counting. -/
theorem removeDir (h : WF st) (hdp : Linked (st.inode dp)) (hipd : (st.inode ip).type = T_DIR)
    (hempty : isdirempty (st.inode ip).ents = true) (hoff : 2 ≤ off) {name : String}
    (he : (st.inode dp).ents[off]? = some ⟨ip, name⟩) (hn : name ≠ ".")
    (hpos : 0 < restNamed (st.inode dp).ents ip) :
    WF ((st.setInode dp
        { st.inode dp with nlink := (st.inode dp).nlink - 1, ents := (st.inode dp).ents.set off ⟨0, ""⟩ }).setInode
        ip { st.inode ip with nlink := 0 }) := by
  obtain ⟨hlip, hpar, hipdp, hrn, hnochild, hlinks_ip, hlinks_dp⟩ := h.empty_found hdp hipd hpos hempty
  have hdpN := h.lt hdp.type_ne
  have hipN := h.lt hlip.type_ne
  have hip0 : ip ≠ 0 := Nat.pos_iff_ne_zero.mp (h.range ip hlip.type_ne).1
  have hnl_dp := h.count dp hdp.type_ne
  have hsh := h.shaped dp hdp.1
  obtain ⟨hs', -, hpar'⟩ := hsh.set_free hoff
  set es' := (st.inode dp).ents.set off ⟨0, ""⟩
  set D : Inode := { st.inode dp with nlink := (st.inode dp).nlink - 1, ents := es' }
  set P : Inode := { st.inode ip with nlink := 0 }
  set st' := (st.setInode dp D).setInode ip P with hst'
  have hI_ip : st'.inode ip = P := by
    simp [hst']
  have hI_dp : st'.inode dp = D := by
    simp [hst', Function.update_of_ne hipdp.symm]
  have hI : ∀ y, y ≠ dp → y ≠ ip → st'.inode y = st.inode y := by
    intro y hydp hyip
    simp [hst', Function.update_of_ne hydp, Function.update_of_ne hyip]
  have hlD : Linked D := ⟨hdp.1, by dsimp only [D]; omega⟩
  have hnP : ¬ Linked P := fun hl => absurd hl.2 (lt_irrefl 0)
  have htype : ∀ y, (st'.inode y).type = (st.inode y).type := by
    intro y
    rcases eq_or_ne y ip with rfl | hyip
    · rw [hI_ip]
    rcases eq_or_ne y dp with rfl | hydp
    · rw [hI_dp]
    · rw [hI y hydp hyip]
  have hlinked : ∀ y, y ≠ ip → (Linked (st'.inode y) ↔ Linked (st.inode y)) := by
    intro y hyip
    rcases eq_or_ne y dp with rfl | hydp
    · rw [hI_dp]
      exact iff_of_true hlD hdp
    · rw [hI y hydp hyip]
  have hents : ∀ y, y ≠ dp → (st'.inode y).ents = (st.inode y).ents := by
    intro y hydp
    rcases eq_or_ne y ip with rfl | hyip
    · rw [hI_ip]
    · rw [hI y hydp hyip]
  have hparent : ∀ y, parentOf (st'.inode y).ents = parentOf (st.inode y).ents := by
    intro y
    rcases eq_or_ne y dp with rfl | hydp
    · rw [hI_dp]
      exact hpar'
    · rw [hents y hydp]
  -- the cleared entry and the directory's `..` were the links that go
  have hlinks : ∀ y, y ≠ 0 →
      st'.links y + (if ip = y then 1 else 0) + (if dp = y then 1 else 0) = st.links y := by
    intro y hy0
    have h₁ := @links_setInode st dp hdpN D y
    have h₂ := @links_setInode (st.setInode dp D) ip hipN P y
    have hip₁ : (st.setInode dp D).inode ip = st.inode ip := by
      simp [Function.update_of_ne hipdp]
    have h₃ : named es' y + _ = _ := named_set_free hy0 he
    have h₄ : named (st.inode ip).ents y = if dp = y then 1 else 0 := by
      rw [(h.shaped ip hipd).named_eq hy0, hpar, restNamed_of_isdirempty hempty hy0, Nat.add_zero]
    rw [Inode.links_of_linked hdp, Inode.links_of_linked hlD] at h₁
    rw [hip₁, Inode.links_of_linked hlip, Inode.links_of_not_linked hnP, ← hst', h₄] at h₂
    simp only [ne_eq, hn, not_false_eq_true, and_true] at h₃
    rw [show D.ents = es' from rfl] at h₁
    omega
  refine ⟨fun y hy => ?_, fun y hy => ?_, fun y => ?_, fun y hy => ?_, fun d hd => ?_, fun d hd => ?_,
    fun d hd e he' hlive => ?_, fun d y hd hy => ?_, fun y hl => ?_, fun d hd hnl' => ?_⟩
  · exact h.range y (htype y ▸ hy)
  · have hy' := htype y ▸ hy
    have hyip : y ≠ ip := fun hyip => hlip.type_ne (hyip ▸ hy')
    have hydp : y ≠ dp := fun hydp => hdp.type_ne (hydp ▸ hy')
    rw [hI y hydp hyip]
    exact h.free y hy'
  · rcases eq_or_ne y ip with rfl | hyip
    · rw [hI_ip]
      show (0 : Int) ≤ 32767
      decide
    rcases eq_or_ne y dp with rfl | hydp
    · rw [hI_dp]
      have := h.bound y
      dsimp only [D]
      omega
    · rw [hI y hydp hyip]
      exact h.bound y
  · have hy' := htype y ▸ hy
    have hy0 : y ≠ 0 := Nat.pos_iff_ne_zero.mp (h.range y hy').1
    have hl := hlinks y hy0
    rcases eq_or_ne y ip with rfl | hyip
    · rw [hI_ip, if_pos rfl, if_neg hipdp.symm] at *
      show (0 : Int) = _
      omega
    rcases eq_or_ne y dp with rfl | hydp
    · rw [hI_dp, if_neg (Ne.symm hyip), if_pos rfl] at *
      dsimp only [D]
      omega
    · rw [hI y hydp hyip, if_neg (Ne.symm hyip), if_neg (Ne.symm hydp), h.count y hy'] at *
      omega
  · rcases eq_or_ne d dp with rfl | hddp
    · rw [hI_dp]
      exact hs'
    · rw [hents d hddp]
      exact h.shaped d (htype d ▸ hd)
  · rcases eq_or_ne d dp with rfl | hddp
    · rw [hI_dp]
      exact liveNames_set_free.nodup (h.unique d hdp.1)
    · rw [hents d hddp]
      exact h.unique d (htype d ▸ hd)
  · have hdip : d ≠ ip := by
      rintro rfl
      exact hnP (hI_ip ▸ hd)
    rw [htype]
    rcases eq_or_ne d dp with rfl | hddp
    · rw [hI_dp] at he'
      rcases List.mem_or_eq_of_mem_set he' with he' | rfl
      · exact h.alloc d hdp e he' hlive
      · exact absurd rfl hlive
    · rw [hents d hddp] at he'
      exact h.alloc d ((hlinked d hdip).mp hd) e he' hlive
  · have hdip : d ≠ ip := by
      rintro rfl
      exact hnP (hI_ip ▸ hd)
    have hd' := (hlinked d hdip).mp hd
    have hy' := htype y ▸ hy
    simp only [hparent y]
    rcases eq_or_ne y ip with rfl | hyip
    · -- the removed directory: no longer linked, and no longer named
      rw [if_neg fun hc => hnP (hI_ip ▸ hc.1)]
      rcases eq_or_ne d dp with rfl | hddp
      · rw [hI_dp]
        have : restNamed es' _ + _ = _ := restNamed_set_free hsh hoff he hip0
        rw [if_pos rfl, hrn] at this
        show restNamed es' y = 0
        omega
      · rw [hents d hddp, h.tree d y hd' hy', if_neg fun hc => hddp (hc.2.1.symm.trans hpar)]
    · simp only [hlinked y hyip]
      rcases eq_or_ne d dp with rfl | hddp
      · rw [hI_dp]
        have : restNamed es' _ + _ = _ :=
          restNamed_set_free hsh hoff he (Nat.pos_iff_ne_zero.mp (h.range y (by rw [hy']; decide)).1)
        rw [if_neg (Ne.symm hyip), Nat.add_zero] at this
        show restNamed es' y = _
        rw [this]
        exact h.tree d y hdp hy'
      · rw [hents d hddp]
        exact h.tree d y hd' hy'
  · have hyip : y ≠ ip := by
      rintro rfl
      exact hnP (hI_ip ▸ hl)
    have hy' := (hlinked y hyip).mp hl
    rw [hparent, hlinked _ (hnochild y hy')]
    exact h.up y hy'
  · rcases eq_or_ne d dp with rfl | hddp
    · rw [hI_dp] at hnl'
      dsimp only [D] at hnl'
      omega
    rw [hents d hddp]
    rcases eq_or_ne d ip with rfl | hdip
    · intro e he'
      have := List.all_eq_true.mp hempty e he'
      simpa using this
    · rw [hI d hddp hdip] at hd hnl'
      exact h.dead d hd hnl'

end WF

end Xv6.Fs
