import Xv6.Fs.Links

/-!
# The namespace calls

What each of `create`, `sys_link` and `sys_unlink` does, as an equation
between states, and that every call keeps `WF` when it writes only into linked
directories and raises no count to `SHRT_MAX` (`Safe`). From the image `mkfs`
writes, every run of such calls then keeps each allocated inode's `nlink`
equal to its links, keeps names distinct, leaves no entry of a linked
directory naming a free inode, and frees only what has neither links nor
references.

The two conditions of `Safe` are where the code goes wrong otherwise. A
process whose current directory has been removed may still `create` or
`link` into it (`nameiparent` of a relative path returns it); the new inode
gets a link no linked directory gives it, and it is never freed once the
directory is. And `nlink` is a `short`: past `SHRT_MAX` links `sys_link` and
`create` wrap it negative, and `sys_unlink` then panics.
-/

namespace Xv6.Fs

namespace Names

variable {st st₁ : Names} {d dp ip ip' off : Nat} {name : String}

theorem dirlink_of_none (h : lookup name (st.inode dp).ents = none) (inum : Nat) :
    st.dirlink dp name inum = (st.setEnts dp (setSlot ⟨inum, name⟩ (st.inode dp).ents), true) := by
  simp [dirlink, dirlookup, h]

theorem dirlink_of_some (h : lookup name (st.inode dp).ents = some (ip', off)) (inum : Nat) :
    st.dirlink dp name inum = (st.iput ip', false) := by
  simp [dirlink, dirlookup, h]

/-- `ialloc` hands out a free inode from `1` to `NINODES - 1`, zeroed and
given the type. -/
theorem ialloc_eq {t : Nat} (h : st.ialloc t = some (ip, st₁)) :
    st₁ = st.setInode ip ⟨t, 0, []⟩ ∧ (st.inode ip).type = 0 ∧ 0 < ip ∧ ip < NINODES := by
  unfold ialloc at h
  split at h
  · cases h
  · rename_i inum hfind
    cases h
    have hp := List.find?_some hfind
    have hmem := List.mem_range'_1.mp (List.mem_of_find?_eq_some hfind)
    refine ⟨rfl, by simpa using hp, by omega, ?_⟩
    unfold NINODES at hmem ⊢
    omega

/-- `create` of a name `dp` has: the inode named is returned for a file to
open, and put back otherwise. -/
theorem create_of_some (h : lookup name (st.inode dp).ents = some (ip, off)) (t : Nat) :
    st.create dp name t =
      if t = T_FILE ∧ (((st.iput dp).inode ip).type = T_FILE ∨ ((st.iput dp).inode ip).type = T_DEVICE)
      then some (some ip, st.iput dp) else some (none, (st.iput dp).iput ip) := by
  simp only [create, dirlookup, h]

theorem create_of_ialloc_none (h : lookup name (st.inode dp).ents = none) {t : Nat}
    (ha : st.ialloc t = none) : st.create dp name t = none := by
  simp [create, dirlookup, h, ha]

/-- `create` of a new file or device: one link, from `dp`. -/
theorem create_file (hdp : (st.inode dp).type = T_DIR) (hl : lookup name (st.inode dp).ents = none)
    {t : Nat} (ht : t ≠ T_DIR) (ha : st.ialloc t = some (ip, st₁)) :
    st.create dp name t =
      some (some ip, ((st₁.setNlink ip 1).setEnts dp (setSlot ⟨ip, name⟩ (st.inode dp).ents)).iput dp) := by
  obtain ⟨rfl, hfree, -, -⟩ := ialloc_eq ha
  have hipdp : ip ≠ dp := fun h' => by
    rw [h', hdp] at hfree
    exact absurd hfree (by decide)
  simp [create, dirlookup, hl, ha, ht, dirlink, Function.update_of_ne hipdp.symm]

/-- `create` of a new directory: one link, from `dp`, its `.` and `..`, and one
link more for `dp`. -/
theorem create_dir (hdp : (st.inode dp).type = T_DIR) (hl : lookup name (st.inode dp).ents = none)
    (ha : st.ialloc T_DIR = some (ip, st₁)) :
    st.create dp name T_DIR = some (some ip, ((st.setInode ip ⟨T_DIR, 1, dots ip dp⟩).setInode dp
      { st.inode dp with nlink := short ((st.inode dp).nlink + 1), ents := setSlot ⟨ip, name⟩ (st.inode dp).ents }).iput dp) := by
  obtain ⟨rfl, hfree, hip0, -⟩ := ialloc_eq ha
  have hipdp : ip ≠ dp := fun h' => by
    rw [h', hdp] at hfree
    exact absurd hfree (by decide)
  have hip0' : ip ≠ 0 := Nat.pos_iff_ne_zero.mp hip0
  simp [create, dirlookup, hl, ha, dirlink, Function.update_of_ne hipdp.symm, Function.update_of_ne hipdp,
    lookup, setSlot, hip0']
  -- the two writes to each inode collapse to one
  congr 1
  ext y : 2
  · rcases eq_or_ne y dp with rfl | hy
    · simp
    rcases eq_or_ne y ip with rfl | hy'
    · simp [hy, dots]
    · simp [hy, hy']
  · rfl

end Names

open Names

/-- A call that writes only into linked directories and raises no count to
`SHRT_MAX`. -/
def Safe (st : Names) : Call → Prop
  | .create dp _ kind _ => (st.inode dp).type = T_DIR →
      0 < (st.inode dp).nlink ∧ (kind = .dir → (st.inode dp).nlink < 32767)
  | .link ip dp _ =>
      (match dp with
        | some d => (st.inode d).type = T_DIR → 0 < (st.inode d).nlink
        | none => True) ∧ ((st.inode ip).type ≠ T_DIR → (st.inode ip).nlink < 32767)
  | _ => True

instance (st : Names) : (c : Call) → Decidable (Safe st c)
  | .create dp _ kind _ => inferInstanceAs (Decidable ((st.inode dp).type = T_DIR →
      0 < (st.inode dp).nlink ∧ (kind = .dir → (st.inode dp).nlink < 32767)))
  | .link _ none _ => inferInstanceAs (Decidable (True ∧ _))
  | .link _ (some d) _ => inferInstanceAs (Decidable (((st.inode d).type = T_DIR → 0 < (st.inode d).nlink) ∧ _))
  | .unlink .. => isTrue trivial
  | .hold _ => isTrue trivial
  | .close _ => isTrue trivial

/-- Every call of a run is `Safe` in the state it starts from. -/
def SafeRun : Names → List Call → Prop
  | _, [] => True
  | st, c :: cs => Safe st c ∧ ∀ st', st.step c = some st' → SafeRun st' cs

/-- The root's entries for the files `mkfs` adds, from inode `2` on. -/
theorem map_inum_mapIdx (m : Nat) : ∀ files : List String,
    (files.mapIdx fun k n => (⟨k + m, n⟩ : Dirent)).map (·.inum) = List.range' m files.length
  | [] => rfl
  | f :: files => by
    have ih := map_inum_mapIdx (m + 1) files
    simp only [List.mapIdx_cons, List.map_cons, List.length_cons, List.range'_succ, Nat.zero_add]
    congr 1
    rw [← ih]
    congr 2
    funext k n
    rw [Nat.add_assoc, Nat.add_comm 1 m]

theorem map_name_mapIdx (m : Nat) : ∀ files : List String,
    (files.mapIdx fun k n => (⟨k + m, n⟩ : Dirent)).map (·.name) = files
  | [] => rfl
  | f :: files => by
    have ih := map_name_mapIdx (m + 1) files
    simp only [List.mapIdx_cons, List.map_cons]
    congr 1
    rw [← ih]
    congr 2
    funext k n
    rw [Nat.add_assoc, Nat.add_comm 1 m]

namespace WF

variable {st st' : Names} {d dp ip off : Nat} {name : String}

/-- `create` in a linked directory keeps the invariant, and the inode it
returns is allocated. -/
theorem create (h : WF st) (hdp : Linked (st.inode dp)) {kind : Kind}
    (hb : kind = .dir → (st.inode dp).nlink < 32767) {r : Option Nat}
    (hc : st.create dp name kind.type = some (r, st')) :
    WF st' ∧ ∀ ip, r = some ip → (st'.inode ip).type ≠ 0 := by
  have hput : st.iput dp = st := iput_of_nlink (ne_of_gt hdp.2)
  cases hl : lookup name (st.inode dp).ents with
  | some found =>
    obtain ⟨ip, off⟩ := found
    obtain ⟨e, he, rfl, hip0, -⟩ := lookup_some hl
    have hip := h.alloc dp hdp e (List.mem_of_getElem? he) hip0
    rw [create_of_some hl, hput] at hc
    split_ifs at hc
    · obtain ⟨rfl, rfl⟩ := Prod.mk.inj (Option.some.inj hc)
      exact ⟨h, fun _ hr => Option.some.inj hr ▸ hip⟩
    · obtain ⟨rfl, rfl⟩ := Prod.mk.inj (Option.some.inj hc)
      exact ⟨h.iput _, fun _ hr => nomatch hr⟩
  | none =>
    cases ha : st.ialloc kind.type with
    | none =>
      rw [create_of_ialloc_none hl ha] at hc
      cases hc
    | some res =>
      obtain ⟨ip, st₁⟩ := res
      have ha' := ha
      obtain ⟨rfl, hfree, hip0, hipN⟩ := ialloc_eq ha'
      have hipdp : ip ≠ dp := fun hi => hdp.type_ne (hi ▸ hfree)
      have hname : name ∉ liveNames (st.inode dp).ents := lookup_eq_none.mp hl
      have hn0 := h.nlink_nonneg dp
      by_cases hk : kind = .dir
      · subst hk
        rw [show Kind.type .dir = T_DIR from rfl, create_dir hdp.1 hl ha] at hc
        obtain ⟨rfl, rfl⟩ := Prod.mk.inj (Option.some.inj hc)
        have hb := hb rfl
        rw [short_of_le (by omega) (by omega)]
        refine ⟨(h.addDir hdp hfree ⟨hip0, hipN⟩ hb hname).iput dp, fun _ hr => ?_⟩
        cases hr
        rw [iput_of_nlink (by simp; omega)]
        simp [Function.update_of_ne hipdp, T_DIR]
      · have htd : kind.type ≠ T_DIR := by
          cases kind <;> simp_all [Kind.type, T_DIR, T_FILE, T_DEVICE]
        have ht0 : kind.type ≠ 0 := by
          cases kind <;> simp [Kind.type, T_DIR, T_FILE, T_DEVICE]
        rw [create_file hdp.1 hl htd ha] at hc
        obtain ⟨rfl, rfl⟩ := Prod.mk.inj (Option.some.inj hc)
        have h₁ := h.ialloc hfree ⟨hip0, hipN⟩ ht0 htd
        have hdp₁ : (st.setInode ip ⟨kind.type, 0, []⟩).inode dp = st.inode dp := by
          simp [Function.update_of_ne hipdp.symm]
        have hxt : ((st.setInode ip ⟨kind.type, 0, []⟩).inode ip).type ≠ 0 := by simpa using ht0
        have hxd : ((st.setInode ip ⟨kind.type, 0, []⟩).inode ip).type ≠ T_DIR := by simpa using htd
        have hxb : ((st.setInode ip ⟨kind.type, 0, []⟩).inode ip).nlink < 32767 := by simp
        have h₂ := h₁.addLink (hdp₁ ▸ hdp) hxt hxd hxb (hdp₁ ▸ hname)
        simp only [setInode_inode, Function.update_self, hdp₁, Int.zero_add] at h₂
        refine ⟨h₂.iput dp, fun _ hr => ?_⟩
        cases hr
        rw [iput_of_nlink (by simpa [Function.update_of_ne hipdp.symm] using ne_of_gt hdp.2)]
        simpa [Function.update_of_ne hipdp] using ht0

/-- `sys_link` of an allocated inode into a linked directory keeps the
invariant: a directory is refused, and a name already taken, or no directory,
gives the count back. -/
theorem sys_link (h : WF st) (hip : (st.inode ip).type ≠ 0)
    (hb : (st.inode ip).type ≠ T_DIR → (st.inode ip).nlink < 32767) {dp : Option Nat}
    (hdp : ∀ d, dp = some d → Linked (st.inode d)) : WF (st.sys_link ip dp name) := by
  unfold Names.sys_link
  split_ifs with hdir
  · exact h.iput ip
  have hb := hb hdir
  have hn0 := h.nlink_nonneg ip
  rw [short_of_le (by omega) (by omega)]
  -- the path `bad:` gives the count back
  have hbad : ((st.setNlink ip ((st.inode ip).nlink + 1)).setNlink ip
      (short (((st.setNlink ip ((st.inode ip).nlink + 1)).inode ip).nlink - 1))).iput ip = st.iput ip := by
    simp only [setNlink_eq, setInode_inode, Function.update_self, setInode_setInode]
    rw [short_of_le (by omega) (by omega), add_sub_cancel_right,
      show { st.inode ip with nlink := (st.inode ip).nlink } = st.inode ip from rfl, setInode_self]
  dsimp only
  cases dp with
  | none => exact hbad ▸ h.iput ip
  | some d =>
    have hd := hdp d rfl
    have hipd : ip ≠ d := fun hi => hdir (hi ▸ hd.1)
    have hents : ((st.setNlink ip ((st.inode ip).nlink + 1)).inode d) = st.inode d := by
      simp [Function.update_of_ne hipd.symm]
    cases hl : lookup name (st.inode d).ents with
    | none =>
      dsimp only
      rw [dirlink_of_none (hents ▸ hl), hents]
      exact ((h.addLink hd hip hdir hb (lookup_eq_none.mp hl)).iput d).iput ip
    | some found =>
      obtain ⟨ip', off⟩ := found
      obtain ⟨e, he, rfl, hip0, -⟩ := lookup_some hl
      -- the inodes it puts back before `bad:` keep their links
      have hput' : (st.setNlink ip ((st.inode ip).nlink + 1)).iput e.inum =
          st.setNlink ip ((st.inode ip).nlink + 1) := by
        refine iput_of_nlink ?_
        rcases eq_or_ne e.inum ip with hei | hei
        · rw [hei]
          simp only [setNlink_eq, setInode_inode, Function.update_self]
          omega
        · simp only [setNlink_eq, setInode_inode, Function.update_of_ne hei]
          exact ne_of_gt (h.nlink_pos hd (List.mem_of_getElem? he) hip0)
      have hput_d : (st.setNlink ip ((st.inode ip).nlink + 1)).iput d =
          st.setNlink ip ((st.inode ip).nlink + 1) := by
        refine iput_of_nlink ?_
        rw [hents]
        exact ne_of_gt hd.2
      dsimp only
      rw [dirlink_of_some (hents ▸ hl)]
      simp only [Bool.false_eq_true, if_false, hput', hput_d]
      exact hbad ▸ h.iput ip

/-- `sys_unlink` keeps the invariant: what it finds is in a linked directory
and has links, so it neither panics here nor frees what is still named. -/
theorem sys_unlink (h : WF st) (hdir : (st.inode dp).type = T_DIR)
    (hu : st.sys_unlink dp name = some st') : WF st' := by
  unfold Names.sys_unlink at hu
  split_ifs at hu with hdots
  · cases hu
    exact h.iput dp
  have hn : name ≠ "." ∧ name ≠ ".." := not_or.mp hdots
  cases hl : lookup name (st.inode dp).ents with
  | none =>
    simp only [dirlookup, hl, Option.some.injEq] at hu
    exact hu ▸ h.iput dp
  | some found =>
    obtain ⟨ip, off⟩ := found
    obtain ⟨hdp, hoff, hip0, he, hip, hpos⟩ := h.lookup_found hdir hn hl
    have hnl := h.nlink_pos hdp (List.mem_of_getElem? he) hip0
    -- an entry after `.` and `..` of `dp` does not name `dp`
    have hipdp : ip ≠ dp := by
      rintro rfl
      have ht := h.tree ip ip hdp hdir
      rw [if_neg fun hc => hc.2.2 rfl] at ht
      omega
    simp only [dirlookup, hl] at hu
    rw [if_neg (not_lt.mpr hnl)] at hu
    split_ifs at hu with hdirip hdirip'
    · cases hu
      exact (h.iput ip).iput dp
    · have hipd : (st.inode ip).type = T_DIR := by simpa [Function.update_of_ne hipdp] using hdirip'
      have hempty : isdirempty (st.inode ip).ents = true := by simpa [hipd] using hdirip
      obtain ⟨-, -, -, -, -, hlinks_ip, hlinks_dp⟩ := h.empty_found hdp hipd hpos hempty
      have hnl_ip : (st.inode ip).nlink = 1 := by
        rw [h.count ip hip, hlinks_ip]
        rfl
      have hnl_dp : 2 ≤ (st.inode dp).nlink := by
        rw [h.count dp hdp.type_ne]
        exact_mod_cast hlinks_dp
      have hb_dp := h.bound dp
      simp only [setEnts_eq, setNlink_eq, setInode_inode, Function.update_self, setInode_setInode,
        Option.some.injEq] at hu
      have hput : ∀ D : Inode, D.nlink = (st.inode dp).nlink - 1 → (st.setInode dp D).iput dp = st.setInode dp D := by
        intro D hD
        refine iput_of_nlink ?_
        simp only [setInode_inode, Function.update_self, hD]
        omega
      rw [short_of_le (by omega) (by omega), hput _ rfl] at hu
      simp only [setInode_inode, Function.update_of_ne hipdp, hnl_ip, sub_self] at hu
      rw [short_of_le (by decide) (by decide)] at hu
      rw [← hu]
      exact (h.removeDir hdp hipd hempty hoff he hn.1 hpos).iput ip
    · have hipd : (st.inode ip).type ≠ T_DIR := by simpa [Function.update_of_ne hipdp] using hdirip'
      have hb_ip := h.bound ip
      set es' := (st.inode dp).ents.set off ⟨0, ""⟩
      have hput : (st.setEnts dp es').iput dp = st.setEnts dp es' := by
        refine iput_of_nlink ?_
        simpa using ne_of_gt hdp.2
      have hnl_ip : ((st.setEnts dp es').inode ip).nlink = (st.inode ip).nlink := by
        simp [Function.update_of_ne hipdp]
      -- the two writes are to different inodes
      have hcomm : (st.setEnts dp es').setNlink ip ((st.inode ip).nlink - 1) =
          (st.setNlink ip ((st.inode ip).nlink - 1)).setEnts dp es' := by
        ext1
        · simp only [setEnts_eq, setNlink_eq, setInode_inode, Function.update_of_ne hipdp,
            Function.update_of_ne hipdp.symm]
          exact Function.update_comm hipdp.symm _ _ _
        · rfl
      have hnl' : 0 < (st.inode ip).nlink := hnl
      have hs : short ((st.inode ip).nlink - 1) = (st.inode ip).nlink - 1 := short_of_le (by omega) (by omega)
      rw [hput, hnl_ip, hs, hcomm] at hu
      rw [← Option.some.inj hu]
      exact (h.removeLink hdp hoff he hn.1 hip hipd).iput ip

/-- One safe call keeps the invariant. -/
theorem step (h : WF st) {c : Call} (hs : Safe st c) (hc : st.step c = some st') : WF st' := by
  cases c with
  | create dp name kind keep =>
    dsimp only [Names.step] at hc
    by_cases hdir : (st.inode dp).type ≠ T_DIR
    · rw [if_pos hdir] at hc
      cases hc
      exact h
    rw [if_neg hdir] at hc
    obtain ⟨⟨r, st₁⟩, hcr, rfl⟩ := Option.map_eq_some_iff.mp hc
    obtain ⟨hpos, hb⟩ := hs (not_not.mp hdir)
    obtain ⟨h₁, hr⟩ := h.create ⟨not_not.mp hdir, hpos⟩ hb hcr
    cases r with
    | none => exact h₁
    | some ip =>
      cases keep
      · simpa using h₁.iput ip
      · simpa using h₁.hold (hr ip rfl)
  | link ip dp name =>
    dsimp only [Names.step] at hc
    split_ifs at hc with hfree
    · cases hc
      exact h
    cases dp with
    | none =>
      cases hc
      exact h.sys_link hfree hs.2 fun _ hd => nomatch hd
    | some d =>
      dsimp only at hc
      split_ifs at hc with hd
      · cases hc
        exact h
      · cases hc
        have hd := not_not.mp hd
        exact h.sys_link hfree hs.2 fun d' hd' => by
          cases hd'
          exact ⟨hd, hs.1 hd⟩
  | unlink dp name =>
    dsimp only [Names.step] at hc
    split_ifs at hc with hdir
    · cases hc
      exact h
    · exact h.sys_unlink (not_not.mp hdir) hc
  | hold ip =>
    dsimp only [Names.step] at hc
    split_ifs at hc with hfree
    · cases hc
      exact h
    · cases hc
      exact h.hold hfree
  | close ip =>
    dsimp only [Names.step] at hc
    split_ifs at hc with href
    cases hc
    exact h.release.iput ip

/-- A run of safe calls keeps the invariant. -/
theorem run (h : WF st) {cs : List Call} (hs : SafeRun st cs) (hr : st.run cs = some st') : WF st' := by
  induction cs generalizing st with
  | nil =>
    cases hr
    exact h
  | cons c cs ih =>
    obtain ⟨hc, hrest⟩ := hs
    obtain ⟨st₁, h₁, h₂⟩ := Option.bind_eq_some_iff.mp hr
    exact ih (h.step hc h₁) (hrest st₁ h₁) h₂

/-- The image `mkfs` writes satisfies the invariant, for distinct file names
other than `.` and `..` that fit the inodes. -/
theorem init {files : List String} (hnd : files.Nodup) (hdots : "." ∉ files ∧ ".." ∉ files)
    (hlen : files.length + 2 ≤ NINODES) : WF (Names.init files) := by
  set E := files.mapIdx fun k n => (⟨k + 2, n⟩ : Dirent) with hE
  set R : List Dirent := ⟨ROOTINO, "."⟩ :: ⟨ROOTINO, ".."⟩ :: E
  have hinum : ∀ e ∈ E, 2 ≤ e.inum ∧ e.inum < files.length + 2 := by
    intro e he
    have hm : e.inum ∈ E.map (·.inum) := List.mem_map.mpr ⟨e, he, rfl⟩
    rw [hE, map_inum_mapIdx] at hm
    have := List.mem_range'_1.mp hm
    omega
  have hname : ∀ e ∈ E, e.name ∈ files := by
    intro e he
    have hm : e.name ∈ E.map (·.name) := List.mem_map.mpr ⟨e, he, rfl⟩
    rwa [hE, map_name_mapIdx] at hm
  have hrest : ∀ x, E.countP (fun e => e.inum = x) = if 2 ≤ x ∧ x < files.length + 2 then 1 else 0 := by
    intro x
    have hc : E.countP (fun e => e.inum = x) = (E.map (·.inum)).count x := by
      rw [List.count, List.countP_map]
      exact List.countP_congr fun e _ => by simp
    rw [hc, hE, map_inum_mapIdx, List.Nodup.count List.nodup_range']
    simp only [List.mem_range'_1]
    congr 1
    exact propext ⟨fun h => ⟨h.1, by omega⟩, fun h => ⟨h.1, by omega⟩⟩
  have hI : ∀ i, (Names.init files).inode i = if i = ROOTINO then ⟨T_DIR, 1, R⟩
      else if 2 ≤ i ∧ i < files.length + 2 then ⟨T_FILE, 1, []⟩ else ⟨0, 0, []⟩ := fun _ => rfl
  have hdir : ∀ d, ((Names.init files).inode d).type = T_DIR → d = ROOTINO := by
    intro d hd
    rw [hI] at hd
    split_ifs at hd with h₁ h₂
    · exact h₁
    · exact absurd hd (by decide)
    · exact absurd hd (by decide)
  have hlinked : ∀ d, Linked ((Names.init files).inode d) ↔ d = ROOTINO := by
    intro d
    refine ⟨fun hl => hdir d hl.1, ?_⟩
    rintro rfl
    exact ⟨rfl, show (0 : Int) < 1 by decide⟩
  have hlinks : ∀ x, (Names.init files).links x = named R x := by
    intro x
    unfold links
    rw [Finset.sum_eq_single ROOTINO]
    · exact Inode.links_of_linked ((hlinked _).mpr rfl) x
    · intro d _ hd
      exact Inode.links_of_not_linked (fun hl => hd ((hlinked d).mp hl)) x
    · intro h
      exact absurd (Finset.mem_range.mpr (by decide)) h
  have hnamedR : ∀ x, named R x = (if x = ROOTINO then 1 else 0) +
      (if 2 ≤ x ∧ x < files.length + 2 then 1 else 0) := by
    intro x
    have hE' : named E x = E.countP (fun e => e.inum = x) := by
      refine List.countP_congr fun e he => ?_
      have hne : e.name ≠ "." := fun h' => hdots.1 (h' ▸ hname e he)
      simp [hne]
    have hR : named R x = (if ROOTINO = x then 1 else 0) + named E x := by
      simp [R, named, List.countP_cons]
      omega
    rw [hR, hE', hrest]
    simp only [eq_comm]
  have hliveE : liveNames E = files := by
    unfold liveNames
    rw [List.filter_eq_self.mpr fun e he => by simpa using by have := hinum e he; omega, hE,
      map_name_mapIdx]
  refine ⟨fun x hx => ?_, fun x hx => ?_, fun x => ?_, fun x hx => ?_, fun d hd => ?_, fun d hd => ?_,
    fun d hd e he hlive => ?_, fun d y hd hy => ?_, fun y hl => ?_, fun d hd hnl => ?_⟩
  · rw [hI] at hx
    split_ifs at hx with h₁ h₂
    · subst h₁
      exact ⟨by decide, by decide⟩
    · exact ⟨by omega, by omega⟩
    · exact absurd rfl hx
  · rw [hI] at hx ⊢
    split_ifs at hx ⊢
    · exact absurd hx (by simp [T_DIR])
    · exact absurd hx (by simp [T_FILE])
    · exact ⟨rfl, rfl⟩
  · rw [hI]
    split_ifs <;> simp
  · rw [hlinks, hnamedR]
    by_cases h₁ : x = ROOTINO
    · rw [hI, if_pos h₁, if_pos h₁, if_neg (by unfold ROOTINO at h₁; omega)]
      rfl
    by_cases h₂ : 2 ≤ x ∧ x < files.length + 2
    · rw [hI, if_neg h₁, if_pos h₂, if_neg h₁, if_pos h₂]
      rfl
    · rw [hI, if_neg h₁, if_neg h₂] at hx
      exact absurd rfl hx
  · rw [hdir d hd]
    refine ⟨ROOTINO, E, by decide, rfl, fun e he _ => ⟨fun h' => hdots.1 (h' ▸ hname e he),
      fun h' => hdots.2 (h' ▸ hname e he)⟩⟩
  · rw [hdir d hd]
    show (liveNames R).Nodup
    simp only [R, liveNames_cons, ne_eq, show ROOTINO ≠ 0 by decide, not_false_eq_true, if_true, hliveE]
    refine List.nodup_cons.mpr ⟨?_, List.nodup_cons.mpr ⟨hdots.2, hnd⟩⟩
    simp [hdots.1]
  · rw [(hlinked d).mp hd] at he
    rw [hI]
    rcases List.mem_cons.mp he with rfl | he
    · simp [T_DIR]
    rcases List.mem_cons.mp he with rfl | he
    · simp [T_DIR]
    · have := hinum e he
      rw [if_neg (by unfold ROOTINO; omega), if_pos this]
      decide
  · rw [(hlinked d).mp hd, hdir y hy]
    rw [if_neg fun hc => hc.2.2 rfl]
    show E.countP (fun e => e.inum = ROOTINO) = 0
    rw [hrest, if_neg (by unfold ROOTINO; omega)]
  · rw [(hlinked y).mp hl]
    exact (hlinked _).mpr rfl
  · rw [hdir d hd] at hnl
    exact absurd hnl (show (1 : Int) ≠ 0 by decide)
end WF

/-- Every state a safe run reaches from the image `mkfs` writes: `nlink` is
the links of every allocated inode, names are distinct so `dirlookup` finds
each entry, linked directories name only allocated inodes, and a free inode
has no links and no reference. -/
theorem links_counted {files : List String} (hnd : files.Nodup) (hdots : "." ∉ files ∧ ".." ∉ files)
    (hlen : files.length + 2 ≤ NINODES) {cs : List Call} (hsafe : SafeRun (Names.init files) cs)
    {st : Names} (hrun : (Names.init files).run cs = some st) :
    (∀ x, (st.inode x).type ≠ 0 → (st.inode x).nlink = st.links x) ∧
    (∀ d, (st.inode d).type = T_DIR → (liveNames (st.inode d).ents).Nodup ∧
      ∀ e ∈ (st.inode d).ents, e.inum ≠ 0 → ∃ off, st.dirlookup d e.name = some (e.inum, off)) ∧
    (∀ d, Linked (st.inode d) → ∀ e ∈ (st.inode d).ents, e.inum ≠ 0 → (st.inode e.inum).type ≠ 0) ∧
    (∀ x, (st.inode x).type = 0 → (st.inode x).nlink = 0 ∧ st.ref x = 0) := by
  have h := (WF.init hnd hdots hlen).run hsafe hrun
  refine ⟨h.count, fun d hd => ⟨h.unique d hd, fun e he hlive => ?_⟩, h.alloc, h.free⟩
  exact lookup_of_mem (h.unique d hd) he hlive

/-- `mkdir /d` on the image with one file. -/
theorem links_counted_mkdir :
    ∃ st, (Names.init ["README"]).run [.create ROOTINO "d" .dir false] = some st ∧
      (∀ x, (st.inode x).type ≠ 0 → (st.inode x).nlink = st.links x) ∧
      (∀ d, (st.inode d).type = T_DIR → (liveNames (st.inode d).ents).Nodup ∧
        ∀ e ∈ (st.inode d).ents, e.inum ≠ 0 → ∃ off, st.dirlookup d e.name = some (e.inum, off)) ∧
      (∀ d, Linked (st.inode d) → ∀ e ∈ (st.inode d).ents, e.inum ≠ 0 → (st.inode e.inum).type ≠ 0) ∧
      (∀ x, (st.inode x).type = 0 → (st.inode x).nlink = 0 ∧ st.ref x = 0) :=
  ⟨_, rfl, @links_counted ["README"] (List.nodup_singleton _) ⟨by decide, by decide⟩ (by decide)
    [.create ROOTINO "d" .dir false] (by unfold SafeRun; exact ⟨by decide, fun _ _ => trivial⟩) _ rfl⟩

/-- The run the count over every allocated directory fails on: `mkdir /d`, a
process makes `/d` its current directory, `unlink /d`. The root keeps one link,
from its own `..`, but `d`'s `..` still names it. -/
theorem dirLinks_ne_nlink :
    ∃ st, (Names.init []).run [.create ROOTINO "d" .dir false, .hold 2, .unlink ROOTINO "d"] = some st ∧
      (st.inode ROOTINO).type ≠ 0 ∧ (st.inode ROOTINO).nlink ≠ st.dirLinks ROOTINO := by
  refine ⟨_, rfl, by decide, by decide +kernel⟩

end Xv6.Fs
