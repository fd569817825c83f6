import Mathlib
import Xv6.Param

/-!
# The open-file table

`kernel/file.c` keeps the system's open files in `ftable.file[NFILE]`; a slot
is free when its `ref` is zero. `filealloc` takes the first free slot,
`filedup` adds a reference, and `fileclose` drops one; the close that drops
the last reference resets the slot and then finishes closing the pipe or
inode it referred to. `fdalloc` (in `sysfile.c`) puts a file into the first
free slot of the calling process's `ofile[NOFILE]`.

A file keeps the fields that these functions and the system calls on
descriptors read and write: its type, `ref` (an `int`), the `readable` and
`writable` flags, the device numbers `major` and `minor`, the page of a pipe
file's pipe, and the sleep-lock of a mutex file. `fileclose` resets only `ref` and the type, so the other fields
of a slot outlive the file that set them. A process's descriptor table maps
each descriptor to the index of an open file. What `fileclose` does to the pipe or inode is left to its
caller: it returns the closed file's contents when the last reference went,
as the code copies `*f` into `ff`.
-/

namespace Xv6

/-- The types of an open file. -/
inductive FileType where
  | FD_NONE
  | FD_PIPE
  | FD_INODE
  | FD_DEVICE
  | FD_MUTEX
deriving DecidableEq, Repr

/-- The fields of `struct sleeplock` that `acquiresleep`, `releasesleep` and
`holdingsleep` use. -/
structure SleepLock where
  locked : Bool
  pid : Int
deriving DecidableEq, Repr

/-- The fields of `struct file` that the table functions and the descriptor
system calls use; a zeroed slot has the defaults. -/
structure File where
  type : FileType
  ref : Int
  readable : Bool := false
  writable : Bool := false
  major : Int := 0
  minor : Int := 0
  pipe : Nat := 0
  mutex : SleepLock := ⟨false, 0⟩
deriving DecidableEq, Repr

/-- The open-file table `ftable.file`. -/
abbrev FTable := Fin NFILE → File

/-- A process's open-file descriptors `ofile`: `none` is a null pointer. -/
abbrev OFile := Fin NOFILE → Option (Fin NFILE)

/-- The table of a booted kernel: every slot zero. -/
def ftable0 : FTable := fun _ => { type := .FD_NONE, ref := 0 }

/-- `filealloc`: the first slot with `ref == 0`, now with one reference; `none`
when every slot is in use. -/
def filealloc (ft : FTable) : Option (Fin NFILE × FTable) :=
  match (List.finRange NFILE).find? fun f => (ft f).ref == 0 with
  | some f => some (f, Function.update ft f { ft f with ref := 1 })
  | none => none

/-- `fdalloc`: the first descriptor slot that is null now holds `f`; `none`
(the code's `-1`) when all are in use. -/
def fdalloc (of : OFile) (f : Fin NFILE) : Option (Fin NOFILE × OFile) :=
  match (List.finRange NOFILE).find? fun fd => (of fd).isNone with
  | some fd => some (fd, Function.update of fd (some f))
  | none => none

/-- `fileclose`: drop a reference; the last one sets `ref = 0` and `FD_NONE`,
leaving the other fields, and hands back the closed file `ff`. A file without
references is the panic `fileclose`. -/
def fileclose (ft : FTable) (f : Fin NFILE) : Except String (FTable × Option File) :=
  if (ft f).ref < 1 then .error "fileclose"
  else if (ft f).ref - 1 > 0 then .ok (Function.update ft f { ft f with ref := (ft f).ref - 1 }, none)
  else .ok (Function.update ft f { ft f with type := .FD_NONE, ref := 0 }, some { ft f with ref := 0 })

/-- `filedup`: one more reference to an open file; the panic `filedup` on a file
without one. -/
def filedup (ft : FTable) (f : Fin NFILE) : Except String FTable :=
  if (ft f).ref < 1 then .error "filedup"
  else .ok (Function.update ft f { ft f with ref := (ft f).ref + 1 })

/-- What a successful `filealloc` found and did. -/
theorem filealloc_eq_some {ft ft' : FTable} {f : Fin NFILE} (h : filealloc ft = some (f, ft')) :
    (ft f).ref = 0 ∧ ft' = Function.update ft f { ft f with ref := 1 } := by
  unfold filealloc at h
  split at h
  next f' hf =>
    simp only [Option.some.injEq, Prod.mk.injEq] at h
    obtain ⟨rfl, rfl⟩ := h
    exact ⟨by simpa using List.find?_some hf, rfl⟩
  next => cases h

/-- What a successful `fdalloc` found and did. -/
theorem fdalloc_eq_some {of of' : OFile} {f : Fin NFILE} {fd : Fin NOFILE} (h : fdalloc of f = some (fd, of')) :
    of fd = none ∧ of' = Function.update of fd (some f) := by
  unfold fdalloc at h
  split at h
  next fd' hfd =>
    simp only [Option.some.injEq, Prod.mk.injEq] at h
    obtain ⟨rfl, rfl⟩ := h
    exact ⟨by simpa using List.find?_some hfd, rfl⟩
  next => cases h

/-- Closing the only reference frees the slot and hands the file back. -/
theorem fileclose_of_ref_one {ft : FTable} {f : Fin NFILE} (h : (ft f).ref = 1) :
    fileclose ft f = .ok (Function.update ft f { ft f with type := .FD_NONE, ref := 0 },
      some { ft f with ref := 0 }) := by
  unfold fileclose
  rw [if_neg (by omega), if_neg (by omega)]

/-- `fileclose` of a file with another reference drops one. -/
theorem fileclose_of_gt {ft : FTable} {f : Fin NFILE} (h : 1 < (ft f).ref) :
    fileclose ft f = .ok (Function.update ft f { ft f with ref := (ft f).ref - 1 }, none) := by
  unfold fileclose
  rw [if_neg (by omega), if_pos (by omega)]

/-- `fdalloc` fails exactly when every descriptor is in use. -/
theorem fdalloc_eq_none_iff (of : OFile) (f : Fin NFILE) :
    fdalloc of f = none ↔ ∀ fd, of fd ≠ none := by
  unfold fdalloc
  cases h : (List.finRange NOFILE).find? fun fd => (of fd).isNone with
  | some fd =>
    have hfd : of fd = none := by simpa using List.find?_some h
    simp only [reduceCtorEq, false_iff, not_forall, not_not]
    exact ⟨fd, hfd⟩
  | none =>
    rw [List.find?_eq_none] at h
    simp only [true_iff]
    intro fd hfd
    exact h fd (List.mem_finRange fd) (by simp [hfd])

end Xv6
