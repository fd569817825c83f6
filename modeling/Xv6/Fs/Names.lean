import Xv6.Fs.Basic

/-!
# Directories and link counts

`sysfile.c`'s `create`, `sys_link` and `sys_unlink`, over `fs.c`'s
`dirlookup`, `dirlink` and `iput`. For each inode the model keeps its type,
its link count `nlink` (a `short`) and, for a directory, its entries in slot
order; and the in-memory references held on it between calls, by open files
and current directories. `iput` frees an inode when it drops the last
reference of an inode without links.

Path resolution is left open: a call names the inode `namei` or `nameiparent`
returned, which may be any allocated inode (a directory, for `nameiparent`).
That covers both ways a path reaches an inode: through entries from the root,
and through a process's current directory, which may have been unlinked
since. Each call is one transaction. A panic is `none`. Block contents and
addresses are `Xv6.Fs.Blocks`'s concern and left out here.
-/

namespace Xv6.Fs

/-- `struct dirent`: an i-number, `0` in a free slot, and a name. `namecmp`
compares `DIRSIZ` bytes, and every name a call passes is one `skipelem` has cut
to `DIRSIZ` bytes: names are compared whole here. -/
structure Dirent where
  inum : Nat
  name : String
deriving DecidableEq

/-- What the namespace code reads and writes of an inode. -/
structure Inode where
  type : Nat
  nlink : Int
  ents : List Dirent

/-- The inodes, and the references held on each between calls. -/
@[ext] structure Names where
  inode : Nat → Inode
  ref : Nat → Nat

/-- A `short`: `nlink++` and `nlink--` wrap at 16 bits. -/
def short (x : Int) : Int := (x + 32768) % 65536 - 32768

theorem short_of_le {x : Int} (h₁ : -32768 ≤ x) (h₂ : x ≤ 32767) : short x = x := by
  unfold short
  omega

/-- `dirlookup`'s loop over the slots: the first live entry named `name`, with
its slot. -/
def lookup (name : String) : List Dirent → Option (Nat × Nat)
  | [] => none
  | e :: es =>
    if e.inum ≠ 0 ∧ e.name = name then some (e.inum, 0)
    else (lookup name es).map fun r => (r.1, r.2 + 1)

/-- `dirlink`'s write: into the first free slot, else one past the end. -/
def setSlot (e : Dirent) : List Dirent → List Dirent
  | [] => [e]
  | e' :: es => if e'.inum = 0 then e :: es else e' :: setSlot e es

/-- `isdirempty`: every slot from the third on is free. -/
def isdirempty (es : List Dirent) : Bool := (es.drop 2).all fun e => e.inum == 0

namespace Names

def setInode (st : Names) (i : Nat) (x : Inode) : Names :=
  { st with inode := Function.update st.inode i x }

def setNlink (st : Names) (i : Nat) (n : Int) : Names :=
  st.setInode i { st.inode i with nlink := n }

def setEnts (st : Names) (i : Nat) (es : List Dirent) : Names :=
  st.setInode i { st.inode i with ents := es }

/-- A reference kept past the call: an open file or a current directory. -/
def hold (st : Names) (i : Nat) : Names :=
  { st with ref := Function.update st.ref i (st.ref i + 1) }

/-- A kept reference given back, before its `iput`. -/
def release (st : Names) (i : Nat) : Names :=
  { st with ref := Function.update st.ref i (st.ref i - 1) }

/-- `iput` of the reference a call holds: if no other reference is held and
the inode has no links, `itrunc` empties it and its type becomes `0`. -/
def iput (st : Names) (i : Nat) : Names :=
  if st.ref i = 0 ∧ (st.inode i).nlink = 0 then st.setInode i { st.inode i with type := 0, ents := [] }
  else st

variable {st : Names} {i j : Nat}

@[simp] theorem setInode_inode (x : Inode) : (st.setInode i x).inode = Function.update st.inode i x := rfl
@[simp] theorem setInode_ref (x : Inode) : (st.setInode i x).ref = st.ref := rfl
@[simp] theorem setNlink_eq (n : Int) : st.setNlink i n = st.setInode i { st.inode i with nlink := n } := rfl
@[simp] theorem setEnts_eq (es : List Dirent) : st.setEnts i es = st.setInode i { st.inode i with ents := es } := rfl
@[simp] theorem hold_inode : (st.hold i).inode = st.inode := rfl
@[simp] theorem hold_ref : (st.hold i).ref = Function.update st.ref i (st.ref i + 1) := rfl
@[simp] theorem release_inode : (st.release i).inode = st.inode := rfl
@[simp] theorem release_ref : (st.release i).ref = Function.update st.ref i (st.ref i - 1) := rfl

@[simp] theorem setInode_setInode (a b : Inode) : (st.setInode i a).setInode i b = st.setInode i b := by
  ext1 <;> simp

@[simp] theorem setInode_self : st.setInode i (st.inode i) = st := by
  ext1 <;> simp

theorem iput_of_nlink (h : (st.inode i).nlink ≠ 0) : st.iput i = st := by
  simp [iput, h]

theorem iput_of_free (h : st.ref i = 0 ∧ (st.inode i).nlink = 0) :
    st.iput i = st.setInode i { st.inode i with type := 0, ents := [] } := by
  simp [iput, h]

def dirlookup (st : Names) (dp : Nat) (name : String) : Option (Nat × Nat) :=
  lookup name (st.inode dp).ents

/-- `dirlink`: `-1` (here `false`), after an `iput` of the inode found, if the
name is present; else the entry is written. -/
def dirlink (st : Names) (dp : Nat) (name : String) (inum : Nat) : Names × Bool :=
  match st.dirlookup dp name with
  | some (ip, _) => (st.iput ip, false)
  | none => (st.setEnts dp (setSlot ⟨inum, name⟩ (st.inode dp).ents), true)

/-- `ialloc`: the first inode from `1` with type `0`, zeroed and given the
type; `none` is the panic `ialloc: no inodes`. -/
def ialloc (st : Names) (type : Nat) : Option (Nat × Names) :=
  match (List.range' 1 (NINODES - 1)).find? fun inum => (st.inode inum).type == 0 with
  | none => none
  | some inum => some (inum, st.setInode inum ⟨type, 0, []⟩)

/-- `create` in directory `dp`, which `nameiparent` returned: the inode it
returns (`none` for `0`), and the state. An existing name is returned for a
plain file to open; otherwise a new inode gets one link, and a new directory
its `.` and `..` entries and a link more for its parent. -/
def create (st : Names) (dp : Nat) (name : String) (type : Nat) : Option (Option Nat × Names) :=
  match st.dirlookup dp name with
  | some (ip, _) =>
    let st := st.iput dp
    if type = T_FILE ∧ ((st.inode ip).type = T_FILE ∨ (st.inode ip).type = T_DEVICE) then
      some (some ip, st)
    else some (none, st.iput ip)
  | none => do
    let (ip, st) ← st.ialloc type
    let st := st.setNlink ip 1
    let st ← if type = T_DIR then
        -- `dp->nlink++` for `..`; no `ip->nlink++` for `.`
        let st := st.setNlink dp (short ((st.inode dp).nlink + 1))
        let (st, ok₁) := st.dirlink ip "." ip
        let (st, ok₂) := st.dirlink ip ".." dp
        if ok₁ && ok₂ then some st else none
      else some st
    let (st, ok) := st.dirlink dp name ip
    if ok then some (some ip, st.iput dp) else none

/-- `sys_link` of inode `ip`, which `namei(old)` returned, as `name` in `dp`,
what `nameiparent(new)` returned (`none` when it failed). A directory is
refused; on a failed `dirlink` the count is given back. -/
def sys_link (st : Names) (ip : Nat) (dp : Option Nat) (name : String) : Names :=
  if (st.inode ip).type = T_DIR then st.iput ip
  else
    let st := st.setNlink ip (short ((st.inode ip).nlink + 1))
    -- `bad:` the count back, then `iunlockput(ip)`
    let bad (st : Names) : Names := (st.setNlink ip (short ((st.inode ip).nlink - 1))).iput ip
    match dp with
    | none => bad st
    | some dp =>
      let (st, ok) := st.dirlink dp name ip
      if ok then (st.iput dp).iput ip else bad (st.iput dp)

/-- `sys_unlink` of `name` in `dp`, what `nameiparent` returned. `.` and `..`
are refused, and so is a directory with entries; the entry's slot is cleared,
and an unlinked directory takes its parent's link for `..` with it. `none` is
the panic `unlink: nlink < 1`. -/
def sys_unlink (st : Names) (dp : Nat) (name : String) : Option Names :=
  if name = "." ∨ name = ".." then some (st.iput dp)
  else match st.dirlookup dp name with
    | none => some (st.iput dp)
    | some (ip, off) =>
      if (st.inode ip).nlink < 1 then none
      else if (st.inode ip).type = T_DIR ∧ isdirempty (st.inode ip).ents = false then
        some ((st.iput ip).iput dp)
      else
        let st := st.setEnts dp ((st.inode dp).ents.set off ⟨0, ""⟩)
        let st := if (st.inode ip).type = T_DIR then
            st.setNlink dp (short ((st.inode dp).nlink - 1))
          else st
        let st := st.iput dp
        let st := st.setNlink ip (short ((st.inode ip).nlink - 1))
        some (st.iput ip)

end Names

/-- The inode types `create`'s callers pass: `sys_open` with `O_CREATE`
passes `T_FILE`, `sys_mkdir` `T_DIR` and `sys_mknod` `T_DEVICE`. -/
inductive Kind where
  | file
  | dir
  | device
deriving DecidableEq, Repr

def Kind.type : Kind → Nat
  | .file => T_FILE
  | .dir => T_DIR
  | .device => T_DEVICE

/-- The calls that change names and references. `dp` is the directory
`nameiparent` returned, `ip` the inode `namei` returned. `create` is `open`
with `O_CREATE` (which keeps the reference for the open file, unless no file
or descriptor is left), `mkdir` and `mknod` (which put it back); `hold` is any
call that keeps a reference to an inode it found (`open`, `chdir`); `close`
puts back a kept reference (`close`, `chdir`'s old directory, `exit`). -/
inductive Call where
  | create (dp : Nat) (name : String) (kind : Kind) (keep : Bool)
  | link (ip : Nat) (dp : Option Nat) (name : String)
  | unlink (dp : Nat) (name : String)
  | hold (ip : Nat)
  | close (ip : Nat)

namespace Names

/-- One call. `nameiparent` returns only directories and `namei` only
allocated inodes: a call given anything else leaves the state as it is, as
one whose lookup fails does. Closing a reference that is not held is no
call, and ends the run. -/
def step (st : Names) : Call → Option Names
  | .create dp name kind keep =>
    if (st.inode dp).type ≠ T_DIR then some st
    else (st.create dp name kind.type).map fun (r, st) =>
      match r with
      | none => st
      | some ip => if keep then st.hold ip else st.iput ip
  | .link ip dp name =>
    if (st.inode ip).type = 0 then some st
    else match dp with
      | some d => if (st.inode d).type ≠ T_DIR then some st else some (st.sys_link ip (some d) name)
      | none => some (st.sys_link ip none name)
  | .unlink dp name => if (st.inode dp).type ≠ T_DIR then some st else st.sys_unlink dp name
  | .hold ip => if (st.inode ip).type = 0 then some st else some (st.hold ip)
  | .close ip => if st.ref ip = 0 then none else some ((st.release ip).iput ip)

/-- A sequence of calls; `none` once one panics. -/
def run (st : Names) : List Call → Option Names
  | [] => some st
  | c :: cs => (st.step c).bind fun st' => run st' cs

/-- The namespace of the image `mkfs` writes: the root directory, whose `.`
and `..` name itself, and one file per name, from inode `2` on, each with one
link. -/
def init (files : List String) : Names where
  inode i :=
    if i = ROOTINO then
      ⟨T_DIR, 1, ⟨ROOTINO, "."⟩ :: ⟨ROOTINO, ".."⟩ :: files.mapIdx fun k n => ⟨k + 2, n⟩⟩
    else if 2 ≤ i ∧ i < files.length + 2 then ⟨T_FILE, 1, []⟩
    else ⟨0, 0, []⟩
  ref _ := 0

end Names

end Xv6.Fs
