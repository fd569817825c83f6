import Xv6.Fs.Names

/-!
# Directory contents

Lemmas on a directory's list of entries, as `dirlookup`, `dirlink` and
`sys_unlink` read and write it: what `lookup` finds, where `setSlot` writes,
what clearing a slot leaves, and how many entries name an inode (`named`).

A directory is `Shaped` when its first two slots are its own `.` and its `..`,
and no other live entry is named `.` or `..`. `create` makes every directory
so, and neither `dirlink` (which refuses a present name) nor `sys_unlink`
(which refuses `.` and `..`) can change it.
-/

namespace Xv6.Fs

/-- Entries of `es` naming `x`, `.` entries left out. -/
def named (es : List Dirent) (x : Nat) : Nat := es.countP fun e => e.inum = x ∧ e.name ≠ "."

/-- The names of the live entries, in slot order. -/
def liveNames (es : List Dirent) : List String := (es.filter fun e => e.inum ≠ 0).map (·.name)

/-- The i-number in the `..` slot. -/
def parentOf (es : List Dirent) : Nat := (es[1]?.map (·.inum)).getD 0

/-- A directory's entries: its own `.`, then `..` naming a parent, then
entries whose live ones are neither `.` nor `..`. -/
def Shaped (d : Nat) (es : List Dirent) : Prop :=
  ∃ p rest, p ≠ 0 ∧ es = ⟨d, "."⟩ :: ⟨p, ".."⟩ :: rest ∧
    ∀ e ∈ rest, e.inum ≠ 0 → e.name ≠ "." ∧ e.name ≠ ".."

variable {name : String} {e e₀ : Dirent} {es : List Dirent} {x y ip off : Nat}

@[simp] theorem liveNames_nil : liveNames [] = [] := rfl

theorem liveNames_cons : liveNames (e :: es) = if e.inum ≠ 0 then e.name :: liveNames es else liveNames es := by
  by_cases h : e.inum = 0 <;> simp [liveNames, h]

/-- What `lookup` finds: a live entry of that name, in the slot it reports. -/
theorem lookup_some : ∀ {es : List Dirent} {ip off : Nat}, lookup name es = some (ip, off) →
    ∃ e, es[off]? = some e ∧ e.inum = ip ∧ ip ≠ 0 ∧ e.name = name
  | [], _, _, h => nomatch h
  | e :: es, ip, off, h => by
    unfold lookup at h
    split_ifs at h with he
    · cases h
      exact ⟨e, rfl, rfl, he.1, he.2⟩
    · obtain ⟨⟨ip', off'⟩, hl, hr⟩ := Option.map_eq_some_iff.mp h
      cases hr
      obtain ⟨e', h₁, h₂⟩ := lookup_some hl
      exact ⟨e', by simpa using h₁, h₂⟩

/-- `lookup` finds nothing exactly when no live entry has the name. -/
theorem lookup_eq_none : ∀ {es : List Dirent}, lookup name es = none ↔ name ∉ liveNames es
  | [] => by simp [lookup]
  | e :: es => by
    have ih := @lookup_eq_none es
    by_cases he : e.inum = 0
    · simp [lookup, liveNames_cons, he, ih]
    · by_cases hn : e.name = name
      · simp [lookup, liveNames_cons, he, hn]
      · simp [lookup, liveNames_cons, he, hn, ih, Ne.symm hn]

/-- With the names distinct, `lookup` of a live entry's name finds that entry. -/
theorem lookup_of_mem : ∀ {es : List Dirent}, (liveNames es).Nodup → e ∈ es → e.inum ≠ 0 →
    ∃ off, lookup e.name es = some (e.inum, off)
  | [], _, he, _ => nomatch he
  | e' :: es, hnd, he, hlive => by
    rw [liveNames_cons] at hnd
    rcases List.mem_cons.mp he with rfl | he
    · exact ⟨0, by simp [lookup, hlive]⟩
    · by_cases h' : e'.inum = 0
      · rw [if_neg (by simpa using h')] at hnd
        obtain ⟨off, h⟩ := lookup_of_mem hnd he hlive
        exact ⟨off + 1, by simp [lookup, h', h]⟩
      · rw [if_pos h'] at hnd
        -- `e'` has another name: `e`'s is in the rest
        have hne : e'.name ≠ e.name := fun hn => (List.nodup_cons.mp hnd).1
          (hn ▸ List.mem_map.mpr ⟨e, List.mem_filter.mpr ⟨he, by simpa using hlive⟩, rfl⟩)
        obtain ⟨off, h⟩ := lookup_of_mem (List.nodup_cons.mp hnd).2 he hlive
        exact ⟨off + 1, by simp [lookup, hne, h]⟩

theorem mem_setSlot {a : Dirent} : ∀ {es : List Dirent}, a ∈ setSlot e es → a = e ∨ a ∈ es
  | [], h => by simpa [setSlot] using h
  | e' :: es, h => by
    unfold setSlot at h
    split_ifs at h
    · rcases List.mem_cons.mp h with h | h
      · exact .inl h
      · exact .inr (List.mem_cons_of_mem _ h)
    · rcases List.mem_cons.mp h with h | h
      · exact .inr (h ▸ List.mem_cons_self)
      · rcases mem_setSlot h with h | h
        · exact .inl h
        · exact .inr (List.mem_cons_of_mem _ h)

/-- A live entry written by `setSlot` adds its name to the live names. -/
theorem liveNames_setSlot (he : e.inum ≠ 0) : ∀ {es : List Dirent},
    (liveNames (setSlot e es)).Perm (e.name :: liveNames es)
  | [] => by simp [setSlot, liveNames_cons, he]
  | e' :: es => by
    unfold setSlot
    by_cases h' : e'.inum = 0
    · simp [liveNames_cons, h', he]
    · simp only [h', if_false, liveNames_cons, ne_eq, not_false_eq_true, if_true]
      exact (liveNames_setSlot he).cons _ |>.trans (List.Perm.swap _ _ _)

/-- `setSlot` writes one entry more: it only fills a free slot, and a free
slot counts for no predicate that needs a live entry. -/
theorem countP_setSlot {p : Dirent → Bool} (hp : ∀ a, p a → a.inum ≠ 0) : ∀ es : List Dirent,
    (setSlot e es).countP p = es.countP p + if p e then 1 else 0
  | [] => by simp [setSlot]
  | e' :: es => by
    unfold setSlot
    by_cases h' : e'.inum = 0
    · have hfree : p e' = false := by
        cases hq : p e'
        · rfl
        · exact absurd h' (hp e' hq)
      simp [List.countP_cons, h', hfree]
    · simp only [h', if_false, List.countP_cons, countP_setSlot hp es]
      omega

/-- Clearing a slot takes its entry out of the count. -/
theorem countP_set_free (p : Dirent → Bool) (hp : p ⟨0, ""⟩ = false) (h : es[off]? = some e₀) :
    (es.set off ⟨0, ""⟩).countP p + (if p e₀ then 1 else 0) = es.countP p := by
  obtain ⟨hlt, rfl⟩ := List.getElem?_eq_some_iff.mp h
  have hpos : (if p es[off] then 1 else 0) ≤ es.countP p := by
    split_ifs with hq
    · exact List.countP_pos_iff.mpr ⟨_, List.getElem_mem hlt, hq⟩
    · exact Nat.zero_le _
  rw [List.countP_set hlt, hp]
  simp only [Bool.false_eq_true, if_false, Nat.add_zero]
  omega

theorem named_setSlot (hx : x ≠ 0) (es : List Dirent) :
    named (setSlot e es) x = named es x + if e.inum = x ∧ e.name ≠ "." then 1 else 0 := by
  unfold named
  rw [countP_setSlot _ es]
  · simp
  · intro a ha
    exact (of_decide_eq_true ha).1 ▸ hx

theorem named_set_free (hx : x ≠ 0) (h : es[off]? = some e₀) :
    named (es.set off ⟨0, ""⟩) x + (if e₀.inum = x ∧ e₀.name ≠ "." then 1 else 0) = named es x := by
  unfold named
  have := countP_set_free (fun e : Dirent => decide (e.inum = x ∧ e.name ≠ ".")) ?_ h
  · simpa using this
  · simpa using Ne.symm hx

/-- Clearing a slot drops a name from the live names. -/
theorem liveNames_set_free : ∀ {es : List Dirent} {off : Nat},
    (liveNames (es.set off ⟨0, ""⟩)).Sublist (liveNames es)
  | [], _ => by simp
  | e :: es, 0 => by
    simp only [List.set_cons_zero, liveNames_cons, ne_eq, not_true_eq_false, if_false]
    split_ifs
    · exact List.Sublist.refl _
    · exact List.sublist_cons_self _ _
  | e :: es, off + 1 => by
    simp only [List.set_cons_succ, liveNames_cons]
    split_ifs
    · exact liveNames_set_free.cons_cons _
    · exact liveNames_set_free

/-! ## Shaped directories -/

/-- Live entries after `.` and `..` naming `y`: for a directory `y`, the links
its parent gives it. -/
def restNamed (es : List Dirent) (y : Nat) : Nat := (es.drop 2).countP fun e => e.inum = y

variable {d : Nat}

/-- `.` and `..` are live names of a shaped directory with an i-number. -/
theorem Shaped.dots_mem (h : Shaped d es) (hd : d ≠ 0) : "." ∈ liveNames es ∧ ".." ∈ liveNames es := by
  obtain ⟨p, rest, hp, rfl, -⟩ := h
  simp [liveNames_cons, hd, hp]

/-- Only a directory's own `.` entry is named `.`. -/
theorem Shaped.name_ne_dot (h : Shaped d es) (he : e ∈ es) (hlive : e.inum ≠ 0) (hne : e.inum ≠ d) :
    e.name ≠ "." := by
  obtain ⟨p, rest, -, rfl, hrest⟩ := h
  rcases List.mem_cons.mp he with rfl | he
  · exact absurd rfl hne
  rcases List.mem_cons.mp he with rfl | he
  · show ".." ≠ "."
    decide
  · exact (hrest e he hlive).1

/-- A live entry other than `.` counts for the inode it names. -/
theorem Shaped.named_pos (h : Shaped d es) (he : e ∈ es) (hlive : e.inum ≠ 0) (hne : e.inum ≠ d) :
    0 < named es e.inum :=
  List.countP_pos_iff.mpr ⟨e, he, by simpa using h.name_ne_dot he hlive hne⟩

/-- In a shaped directory, `x` is named by the `..` slot and by live entries
after it. -/
theorem Shaped.named_eq (h : Shaped d es) (hx : x ≠ 0) :
    named es x = (if parentOf es = x then 1 else 0) + restNamed es x := by
  obtain ⟨p, rest, hp, rfl, hrest⟩ := h
  have hcount : named rest x = restNamed (⟨d, "."⟩ :: ⟨p, ".."⟩ :: rest) x := by
    refine List.countP_congr fun e he => ?_
    constructor
    · intro h'
      simpa using (of_decide_eq_true h').1
    · intro h'
      have hx' : e.inum = x := by simpa using h'
      simpa [hx'] using (hrest e he (hx' ▸ hx)).1
  rw [← hcount]
  simp [named, List.countP_cons, parentOf]
  omega

/-- The slot `lookup` finds for a name other than `.` and `..` comes after them. -/
theorem Shaped.two_le (h : Shaped d es) (hl : lookup name es = some (ip, off))
    (hn : name ≠ "." ∧ name ≠ "..") : 2 ≤ off := by
  obtain ⟨p, rest, -, rfl, -⟩ := h
  obtain ⟨e, he, -, -, rfl⟩ := lookup_some hl
  match off, he with
  | 0, he => cases he; exact absurd rfl hn.1
  | 1, he => cases he; exact absurd rfl hn.2
  | _ + 2, _ => omega

/-- A name other than `.` and `..` goes after them, and the directory stays shaped. -/
theorem Shaped.setSlot (h : Shaped d es) (hd : d ≠ 0) (hn : e.name ≠ "." ∧ e.name ≠ "..") :
    Shaped d (setSlot e es) ∧ (setSlot e es).drop 2 = setSlot e (es.drop 2) ∧
      parentOf (setSlot e es) = parentOf es := by
  obtain ⟨p, rest, hp, rfl, hrest⟩ := h
  have hset : Xv6.Fs.setSlot e (⟨d, "."⟩ :: ⟨p, ".."⟩ :: rest) = ⟨d, "."⟩ :: ⟨p, ".."⟩ :: Xv6.Fs.setSlot e rest := by
    simp [Xv6.Fs.setSlot, hd, hp]
  rw [hset]
  refine ⟨⟨p, _, hp, rfl, fun a ha hlive => ?_⟩, rfl, rfl⟩
  rcases mem_setSlot ha with rfl | ha
  · exact hn
  · exact hrest a ha hlive

/-- Clearing a slot after `.` and `..` keeps the directory shaped. -/
theorem Shaped.set_free (h : Shaped d es) (hoff : 2 ≤ off) :
    Shaped d (es.set off ⟨0, ""⟩) ∧ (es.set off ⟨0, ""⟩).drop 2 = (es.drop 2).set (off - 2) ⟨0, ""⟩ ∧
      parentOf (es.set off ⟨0, ""⟩) = parentOf es := by
  obtain ⟨p, rest, hp, rfl, hrest⟩ := h
  obtain ⟨k, rfl⟩ := Nat.exists_eq_add_of_le' hoff
  simp only [List.set_cons_succ, Nat.add_sub_cancel]
  refine ⟨⟨p, _, hp, rfl, fun a ha hlive => ?_⟩, rfl, rfl⟩
  rcases List.mem_or_eq_of_mem_set ha with ha | rfl
  · exact hrest a ha hlive
  · exact absurd rfl hlive

theorem restNamed_of_isdirempty (h : isdirempty es = true) (hy : y ≠ 0) : restNamed es y = 0 := by
  unfold isdirempty at h
  refine List.countP_eq_zero.mpr fun e he hey => hy ?_
  have hfree := List.all_eq_true.mp h e he
  simp only [beq_iff_eq] at hfree
  simp only [decide_eq_true_eq] at hey
  omega

theorem restNamed_setSlot (h : Shaped d es) (hd : d ≠ 0) (hn : e.name ≠ "." ∧ e.name ≠ "..")
    (hy : y ≠ 0) : restNamed (setSlot e es) y = restNamed es y + if e.inum = y then 1 else 0 := by
  unfold restNamed
  rw [(h.setSlot hd hn).2.1, countP_setSlot _ _]
  · simp
  · intro a ha
    exact (of_decide_eq_true ha) ▸ hy

theorem restNamed_set_free (h : Shaped d es) (hoff : 2 ≤ off) (he : es[off]? = some e₀) (hy : y ≠ 0) :
    restNamed (es.set off ⟨0, ""⟩) y + (if e₀.inum = y then 1 else 0) = restNamed es y := by
  unfold restNamed
  rw [(h.set_free hoff).2.1]
  have he' : (es.drop 2)[off - 2]? = some e₀ := by
    rw [List.getElem?_drop, Nat.add_sub_cancel' hoff, he]
  have := countP_set_free (fun e : Dirent => decide (e.inum = y)) (by simpa using Ne.symm hy) he'
  simpa using this

/-- A new directory's entries: its `.`, and `..` naming its parent. -/
def dots (ip dp : Nat) : List Dirent := [⟨ip, "."⟩, ⟨dp, ".."⟩]

@[simp] theorem parentOf_dots (ip dp : Nat) : parentOf (dots ip dp) = dp := rfl

@[simp] theorem restNamed_dots (ip dp y : Nat) : restNamed (dots ip dp) y = 0 := rfl

theorem named_dots (ip dp y : Nat) : named (dots ip dp) y = if dp = y then 1 else 0 := by
  simp [named, dots, List.countP_cons]

end Xv6.Fs
