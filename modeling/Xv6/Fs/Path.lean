import Mathlib
import Xv6.Fs.Names

/-!
# Path names: `skipelem` and `namex`

A path is the list of its bytes before the NUL. Its components are the
non-empty runs between slashes (`components`). `skipelem` copies the next
component into the `DIRSIZ`-byte buffer `name` and returns the rest of the path
past the slashes after it; `namex` calls it until it returns `0`, looking each
component up in the directory reached so far.

* `skipelem_none_iff`, `skipelem_some`: one call takes exactly the first
  component, leaves the others, and the rest has no leading slash, so it is
  empty exactly after the last component;
* `Dirs.namexLoop_walk`: `namex` looks up one component per directory, in
  order, as `Dirs.walk` does; with `nameiparent` it stops at the directory of
  the last component (`Dirs.namexLoop_parent`).

Inodes appear through `Dirs`: whether an inode is a directory, and what
`dirlookup` finds in it under a name as `namecmp` reads the buffer. Reference
counts (`idup`, `iput`) and locks are left out.
-/

namespace Xv6.Fs

/-- The components of a path: the non-empty runs between slashes. -/
def components (path : List Char) : List (List Char) :=
  (path.splitOnP (· == '/')).filter (· ≠ [])

/-- The name a `DIRSIZ`-byte buffer holds as `namecmp` reads it: the bytes
before the first NUL, at most `DIRSIZ` of them. -/
def bufName (name : List Char) : List Char := (name.take DIRSIZ).takeWhile (· ≠ '\x00')

/-- `skipelem(path, name)`: `none` for the code's `0` when nothing but slashes
is left; else the path after the next component and the slashes that follow
it, and the buffer with the component copied in: its first `DIRSIZ` bytes, and
a NUL after it when it is shorter. -/
def skipelem (path name : List Char) : Option (List Char × List Char) :=
  let path := path.dropWhile (· == '/')
  if path = [] then none
  else
    let s := path.takeWhile (· != '/')
    let path := path.dropWhile (· != '/')
    let name :=
      if s.length ≥ DIRSIZ then s.take DIRSIZ ++ name.drop DIRSIZ else s ++ '\x00' :: name.drop (s.length + 1)
    some (path.dropWhile (· == '/'), name)

/-! ## Components -/

theorem components_slash (path : List Char) : components ('/' :: path) = components path := by
  simp [components, List.splitOnP_cons_eq_if_modifyHead]

theorem components_dropWhile (path : List Char) :
    components (path.dropWhile (· == '/')) = components path := by
  induction path with
  | nil => rfl
  | cons c path ih =>
    by_cases hc : c = '/'
    · subst hc
      rw [List.dropWhile_cons_of_pos (by decide), ih, components_slash]
    · rw [List.dropWhile_cons_of_neg (by simpa using hc)]

/-- A run without slashes, followed by nothing or by a slash, is the first
component. -/
theorem components_append {w r : List Char} (hw : w ≠ []) (hws : ∀ x ∈ w, x ≠ '/')
    (hr : r = [] ∨ r.head? = some '/') : components (w ++ r) = w :: components r := by
  have hw' : ∀ x ∈ w, (x == '/') = false := fun x hx => by simpa using hws x hx
  rcases hr with rfl | hr
  · simp [components, List.splitOnP_eq_singleton hw', hw]
  · obtain ⟨r', rfl⟩ : ∃ r', r = '/' :: r' := by
      cases r with
      | nil => cases hr
      | cons c r' => exact ⟨r', by simpa using hr⟩
    rw [components_slash]
    simp [components, List.splitOnP_append_cons_of_forall_mem hw' '/' (by decide), hw]

/-! ## One `skipelem` -/

/-- The path past the leading slashes, cut into the first component and the
rest. -/
theorem skipelem_cut {path : List Char} (hp : path.dropWhile (· == '/') ≠ []) :
    let p := path.dropWhile (· == '/')
    p.takeWhile (· != '/') ≠ [] ∧ (∀ x ∈ p.takeWhile (· != '/'), x ≠ '/') ∧
      (p.dropWhile (· != '/') = [] ∨ (p.dropWhile (· != '/')).head? = some '/') ∧
      p = p.takeWhile (· != '/') ++ p.dropWhile (· != '/') := by
  intro p
  obtain ⟨c, q, hcq⟩ : ∃ c q, p = c :: q := List.exists_cons_of_ne_nil hp
  -- the first byte past the slashes is not a slash
  have hc : c ≠ '/' := by
    have h := List.head_dropWhile_not (· == '/') hp
    simp only [p] at hcq
    simp [hcq] at h
    exact h
  refine ⟨?_, fun x hx => by simpa using List.mem_takeWhile_imp hx, ?_, (List.takeWhile_append_dropWhile).symm⟩
  · rw [hcq, List.takeWhile_cons_of_pos (by simpa using hc)]
    exact List.cons_ne_nil _ _
  · by_cases hd : p.dropWhile (· != '/') = []
    · exact .inl hd
    · refine .inr ?_
      have h := List.head_dropWhile_not (· != '/') hd
      rw [List.head?_eq_some_head hd]
      simpa using h

theorem skipelem_length_lt {path name path' name' : List Char}
    (h : skipelem path name = some (path', name')) : path'.length < path.length := by
  by_cases hp : path.dropWhile (· == '/') = []
  · simp [skipelem, hp] at h
  · obtain ⟨hs, -, -, hsplit⟩ := skipelem_cut hp
    simp only [skipelem, if_neg hp, Option.some.injEq, Prod.mk.injEq] at h
    obtain ⟨rfl, -⟩ := h
    have h₁ := List.length_dropWhile_le (· == '/') ((path.dropWhile (· == '/')).dropWhile (· != '/'))
    have h₂ := congrArg List.length hsplit
    have h₃ := List.length_dropWhile_le (· == '/') path
    have h₄ := List.length_pos_of_ne_nil hs
    rw [List.length_append] at h₂
    omega

/-- A path has no component exactly when nothing but slashes is in it. -/
theorem components_eq_nil_iff (path : List Char) :
    components path = [] ↔ path.dropWhile (· == '/') = [] := by
  by_cases hp : path.dropWhile (· == '/') = []
  · rw [← components_dropWhile, hp]
    simp [components]
  · obtain ⟨hs, hws, hr, hsplit⟩ := skipelem_cut hp
    have h := components_append hs hws hr
    rw [← hsplit, components_dropWhile] at h
    rw [h]
    exact iff_of_false (List.cons_ne_nil _ _) hp

/-- `skipelem` returns `0` exactly when the path has no component. -/
theorem skipelem_none_iff (path name : List Char) : skipelem path name = none ↔ components path = [] := by
  rw [components_eq_nil_iff]
  by_cases hp : path.dropWhile (· == '/') = [] <;> simp [skipelem, hp]

theorem dropWhile_slash_head (l : List Char) : (l.dropWhile (· == '/')).head? ≠ some '/' := by
  intro h
  have hne : l.dropWhile (· == '/') ≠ [] := fun h' => by simp [h'] at h
  have hh := List.head_dropWhile_not (· == '/') hne
  rw [List.head?_eq_some_head hne, Option.some.injEq] at h
  simp [h] at hh

/-! ## The name buffer -/

/-- The buffer `name` holds the component `c` as `skipelem` copies it: its
first `min(len, DIRSIZ)` bytes, then a NUL when `len < DIRSIZ`. -/
def Copied (c name : List Char) : Prop :=
  name.take (min c.length DIRSIZ) = c.take DIRSIZ ∧ (c.length < DIRSIZ → name[c.length]? = some '\x00')

theorem copied_copy (c name : List Char) :
    Copied c (if c.length ≥ DIRSIZ then c.take DIRSIZ ++ name.drop DIRSIZ
      else c ++ '\x00' :: name.drop (c.length + 1)) := by
  split_ifs with hlen
  · refine ⟨?_, fun h => absurd h (by omega)⟩
    rw [min_eq_right hlen, List.take_append_of_le_length (by simp; omega), List.take_take, min_self]
  · refine ⟨?_, fun _ => by simp⟩
    rw [min_eq_left (by omega), List.take_left', List.take_of_length_le (by omega)]
    rfl

/-- What `namecmp` reads of the copy of a component without NUL: the
component cut to `DIRSIZ` bytes. -/
theorem bufName_copy {c : List Char} (hc : '\x00' ∉ c) (name : List Char) :
    bufName (if c.length ≥ DIRSIZ then c.take DIRSIZ ++ name.drop DIRSIZ
      else c ++ '\x00' :: name.drop (c.length + 1)) = c.take DIRSIZ := by
  have hc' : ∀ x ∈ c, decide (x ≠ '\x00') = true := fun x hx => by
    simpa using fun h : x = '\x00' => hc (h ▸ hx)
  unfold bufName
  split_ifs with hlen
  · rw [List.take_append_of_le_length (by simp; omega), List.take_take, min_self, List.takeWhile_eq_self_iff]
    exact fun x hx => hc' x (List.mem_of_mem_take hx)
  · -- the copy ends in a NUL inside the buffer
    obtain ⟨k, hk⟩ : ∃ k, DIRSIZ - c.length = k + 1 := ⟨DIRSIZ - c.length - 1, by omega⟩
    rw [List.take_of_length_le (by omega : c.length ≤ DIRSIZ), List.take_append,
      List.take_of_length_le (by omega : c.length ≤ DIRSIZ), hk, List.take_succ_cons,
      List.takeWhile_append_of_pos hc', List.takeWhile_cons_of_neg (by simp), List.append_nil]

/-- One `skipelem` on a path without NUL whose components are `c :: cs`: the
rest is a suffix of the path with the components `cs` and no leading slash, and
the buffer holds `c`, which `namecmp` reads as `c` cut to `DIRSIZ` bytes. -/
theorem skipelem_some {path : List Char} (hnul : '\x00' ∉ path) {c : List Char} {cs : List (List Char)}
    (hc : components path = c :: cs) (name : List Char) :
    ∃ path' name', skipelem path name = some (path', name') ∧ path' <:+ path ∧ components path' = cs ∧
      path'.head? ≠ some '/' ∧ (path' = [] ↔ cs = []) ∧ Copied c name' ∧ bufName name' = c.take DIRSIZ := by
  have hp : path.dropWhile (· == '/') ≠ [] := fun hp => by
    rw [(components_eq_nil_iff path).mpr hp] at hc
    cases hc
  obtain ⟨hs, hws, hr, hsplit⟩ := skipelem_cut hp
  -- the first component is the run before the next slash, the others follow it
  have hcomp := components_append hs hws hr
  rw [← hsplit, components_dropWhile, hc] at hcomp
  obtain ⟨hc₁, hcs⟩ := List.cons.inj hcomp
  have hsuf : ((path.dropWhile (· == '/')).dropWhile (· != '/')).dropWhile (· == '/') <:+ path :=
    (List.dropWhile_suffix _).trans ((List.dropWhile_suffix _).trans (List.dropWhile_suffix _))
  have hnul' : '\x00' ∉ c := fun h =>
    hnul ((List.dropWhile_suffix _).subset ((List.takeWhile_prefix _).subset (hc₁ ▸ h)))
  refine ⟨_, _, by simp only [skipelem, if_neg hp, hc₁], hsuf, by rw [components_dropWhile, hcs],
    dropWhile_slash_head _, ?_, copied_copy c name, bufName_copy hnul' name⟩
  rw [hcs, components_eq_nil_iff]

-- `h` is read by `decreasing_by`, which the unused-variable linter does not see
set_option linter.unusedVariables false in
/-- `skipelem` called until it returns `0`: the path and the buffer after
each call. -/
def skipelems (path name : List Char) : List (List Char × List Char) :=
  match h : skipelem path name with
  | none => []
  | some (path', name') => (path', name') :: skipelems path' name'
termination_by path.length
decreasing_by exact skipelem_length_lt h

/-- The calls of `skipelem` on a path without NUL take its components one by
one, in order: each returns a path with no leading slash and leaves the
component in the buffer. -/
theorem skipelems_components {path : List Char} (hnul : '\x00' ∉ path) (name : List Char) :
    List.Forall₂ (fun c r => r.1.head? ≠ some '/' ∧ Copied c r.2) (components path) (skipelems path name) := by
  -- induction on the components, each call of skipelem taking the first
  induction hc : components path generalizing path name with
  | nil =>
    have hnone := (skipelem_none_iff path name).mpr hc
    rw [skipelems]
    split
    · exact List.Forall₂.nil
    · next h => rw [hnone] at h; cases h
  | cons c cs ih =>
    obtain ⟨path', name', hsk, hsuf, hcs, hhead, -, hcop, -⟩ := skipelem_some hnul hc name
    rw [skipelems]
    split
    · next h => rw [hsk] at h; cases h
    · next p n h =>
      rw [hsk, Option.some.injEq, Prod.mk.injEq] at h
      obtain ⟨rfl, rfl⟩ := h
      exact List.Forall₂.cons ⟨hhead, hcop⟩ (ih (fun h => hnul (hsuf.subset h)) name' hcs)

/-! ## `namex` -/

namespace Names

-- `h` is read by `decreasing_by`, which the unused-variable linter does not see
set_option linter.unusedVariables false in
/-- The loop of `namex` from the inode `ip`: `none` for the code's `0`, else
the inode it returns and the buffer `name` as it leaves it. -/
def namexLoop (st : Names) (nameiparent : Bool) (ip : Nat) (path name : List Char) :
    Option (Nat × List Char) :=
  match h : skipelem path name with
  | none => if nameiparent then none else some (ip, name)
  | some (path', name') =>
    if (st.inode ip).type ≠ T_DIR then none
    -- stop one level early
    else if nameiparent ∧ path' = [] then some (ip, name')
    else (st.dirlookup ip (String.ofList (bufName name'))).bind fun r => st.namexLoop nameiparent r.1 path' name'
termination_by path.length
decreasing_by exact skipelem_length_lt h

/-- Where `namex` starts: the root for an absolute path, else the current
directory `cwd`. -/
def start (cwd : Nat) (path : List Char) : Nat := if path.head? = some '/' then ROOTINO else cwd

/-- `namex(path, nameiparent, name)` in a process whose current directory is
`cwd`. -/
def namex (st : Names) (cwd : Nat) (path : List Char) (nameiparent : Bool) (name : List Char) :
    Option (Nat × List Char) :=
  st.namexLoop nameiparent (start cwd path) path name

/-- `namei(path)`, with `name` the contents of its own buffer. -/
def namei (st : Names) (cwd : Nat) (path name : List Char) : Option Nat :=
  (st.namex cwd path false name).map Prod.fst

/-- `nameiparent(path, name)`. -/
def nameiparent (st : Names) (cwd : Nat) (path name : List Char) : Option (Nat × List Char) :=
  st.namex cwd path true name

/-- The components looked up from `ip`, one directory per component: each inode
on the way is a directory that holds the next component cut to `DIRSIZ` bytes. -/
def walk (st : Names) (ip : Nat) : List (List Char) → Option Nat
  | [] => some ip
  | c :: cs =>
    if (st.inode ip).type ≠ T_DIR then none
    else (st.dirlookup ip (String.ofList (c.take DIRSIZ))).bind fun r => st.walk r.1 cs

variable (st : Names) {nameiparent : Bool} {ip : Nat} {path name : List Char}

theorem namexLoop_of_none (h : skipelem path name = none) :
    st.namexLoop nameiparent ip path name = if nameiparent then none else some (ip, name) := by
  rw [namexLoop]
  split
  · rfl
  · next h' => rw [h] at h'; cases h'

theorem namexLoop_of_some {path' name' : List Char} (h : skipelem path name = some (path', name')) :
    st.namexLoop nameiparent ip path name =
      if (st.inode ip).type ≠ T_DIR then none
      else if nameiparent ∧ path' = [] then some (ip, name')
      else (st.dirlookup ip (String.ofList (bufName name'))).bind fun r => st.namexLoop nameiparent r.1 path' name' := by
  rw [namexLoop]
  split
  · next h' => rw [h] at h'; cases h'
  · next p n h' =>
    rw [h, Option.some.injEq, Prod.mk.injEq] at h'
    obtain ⟨rfl, rfl⟩ := h'
    rfl

/-- Without `nameiparent`, the loop looks the path's components up one per
directory, as `walk` does. -/
theorem namexLoop_walk (hnul : '\x00' ∉ path) (ip : Nat) (name : List Char) :
    (st.namexLoop false ip path name).map Prod.fst = st.walk ip (components path) := by
  induction hc : components path generalizing path ip name with
  | nil => rw [namexLoop_of_none st ((skipelem_none_iff path name).mpr hc)]; rfl
  | cons c cs ih =>
    obtain ⟨path', name', hsk, hsuf, hcs, -, -, -, hbuf⟩ := skipelem_some hnul hc name
    rw [namexLoop_of_some st hsk, walk, hbuf]
    by_cases hd : (st.inode ip).type = T_DIR
    · -- the lookup of the first component, then the rest from the inode it finds
      simp only [hd, ne_eq, not_true_eq_false, if_false, Bool.false_eq_true, false_and]
      cases st.dirlookup ip (String.ofList (c.take DIRSIZ)) with
      | none => rfl
      | some r => exact ih (fun h => hnul (hsuf.subset h)) r.1 name' hcs
    · simp [hd]

theorem namexLoop_parent_nil (h : components path = []) (ip : Nat) (name : List Char) :
    st.namexLoop true ip path name = none := by
  rw [namexLoop_of_none st ((skipelem_none_iff path name).mpr h)]
  rfl

/-- With `nameiparent`, the loop stops at the directory of the last component
and leaves that component in the buffer. -/
theorem namexLoop_parent (hnul : '\x00' ∉ path) {cs : List (List Char)} {c : List Char}
    (h : components path = cs ++ [c]) (name : List Char) :
    ∃ name', Copied c name' ∧ ∀ ip, st.namexLoop true ip path name =
      (st.walk ip cs).bind fun dp => if (st.inode dp).type = T_DIR then some (dp, name') else none := by
  -- induction on the components before the last, each call of skipelem taking one
  induction cs generalizing path name with
  | nil =>
    obtain ⟨path', name', hsk, -, -, -, hnil, hcop, -⟩ := skipelem_some hnul h name
    refine ⟨name', hcop, fun ip => ?_⟩
    rw [namexLoop_of_some st hsk, hnil.mpr rfl]
    by_cases hd : (st.inode ip).type = T_DIR <;> simp [hd, walk]
  | cons d ds ih =>
    obtain ⟨path', name'', hsk, hsuf, hcs, -, hnil, -, hbuf⟩ := skipelem_some hnul h name
    obtain ⟨name', hcop, hip⟩ := ih (fun h => hnul (hsuf.subset h)) hcs name''
    -- the rest still has the last component, so the loop goes on
    have hne : path' ≠ [] := fun h' => List.append_ne_nil_of_right_ne_nil ds (List.cons_ne_nil c []) (hnil.mp h')
    refine ⟨name', hcop, fun ip => ?_⟩
    rw [namexLoop_of_some st hsk, walk, hbuf]
    by_cases hd : (st.inode ip).type = T_DIR
    · simp only [hd, ne_eq, not_true_eq_false, if_false, true_and, hne]
      cases st.dirlookup ip (String.ofList (d.take DIRSIZ)) with
      | none => rfl
      | some r => exact hip r.1
    · simp [hd]

/-- Path splitting: the calls of `skipelem` take the components of a path in
order, each returning a path without leading slash and leaving the component
in the buffer; `namex` without `nameiparent` looks them up one directory each,
and with it stops at the directory of the last one, with that one in `name`. -/
theorem namex_components (hnul : '\x00' ∉ path) (cwd : Nat) (name : List Char) :
    List.Forall₂ (fun c r => r.1.head? ≠ some '/' ∧ Copied c r.2) (components path) (skipelems path name) ∧
    (components path = [] → st.namex cwd path true name = none) ∧
    (∀ cs c, components path = cs ++ [c] → ∃ name', Copied c name' ∧
      st.namex cwd path true name = (st.walk (start cwd path) cs).bind fun dp =>
        if (st.inode dp).type = T_DIR then some (dp, name') else none) ∧
    (st.namex cwd path false name).map Prod.fst = st.walk (start cwd path) (components path) := by
  refine ⟨skipelems_components hnul name, fun h => namexLoop_parent_nil st h _ name, fun cs c h => ?_,
    namexLoop_walk st hnul _ name⟩
  obtain ⟨name', hcop, hip⟩ := namexLoop_parent st hnul h name
  exact ⟨name', hcop, hip _⟩

theorem namex_components_slash_a_b :
    let st : Names := ⟨fun i => if i = ROOTINO then ⟨T_DIR, 1, [⟨1, "."⟩, ⟨1, ".."⟩, ⟨2, "a"⟩]⟩
      else if i = 2 then ⟨T_DIR, 1, [⟨2, "."⟩, ⟨1, ".."⟩, ⟨3, "b"⟩]⟩ else ⟨T_FILE, 1, []⟩, fun _ => 0⟩
    (∃ name', Copied ['b'] name' ∧ st.nameiparent 0 ['/', 'a', '/', 'b'] [] = some (2, name')) ∧
      st.namei 0 ['/', 'a', '/', 'b'] [] = some 3 := by
  intro st
  obtain ⟨-, -, hpar, hwalk⟩ := namex_components st (by decide : '\x00' ∉ ['/', 'a', '/', 'b']) 0 []
  have hc : components ['/', 'a', '/', 'b'] = [['a'], ['b']] := by decide
  obtain ⟨name', hcop, hname'⟩ := hpar [['a']] ['b'] hc
  refine ⟨⟨name', hcop, ?_⟩, ?_⟩
  · rw [nameiparent, hname']
    rfl
  · rw [namei, hwalk, hc]
    decide

end Names

end Xv6.Fs
