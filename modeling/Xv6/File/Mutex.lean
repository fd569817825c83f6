import Xv6.Lib.Fallible
import Xv6.File.Basic
import Xv6.Log.Basic

/-!
# Mutex files

`sys_create_mutex` (in `sysfile.c`) makes an open file of type `FD_MUTEX` and
returns a descriptor for it; `sys_acquire_mutex` and `sys_release_mutex` take
and drop the sleep-lock the file carries. Creating a mutex writes nothing to
the disk, and the call opens no transaction; but its failure path, taken when
the file table or the caller's descriptors are full, closes the file it got
and calls `end_op(ROOTDEV)`, as the handlers that did call `begin_op` do.

`sys_create_mutex_log` says what the call does to the root device's log: on
failure an `end_op` with no `begin_op`. On an idle log that leaves
`outstanding = -1`, and the next call's `begin_op`/`end_op` bracket then ends
without a commit (`sys_create_mutex_unbalanced`).

The new file's sleep-lock is the free one `initsleeplock` makes; the lock
registry `initsleeplock` also writes is modelled with the descriptor system
calls (`Locks.sys_create_mutex`).
-/

namespace Xv6

/-- `sys_create_mutex` over the file table, the caller's descriptors and the
root device's log: the new descriptor, or `-1`. -/
def sys_create_mutex (ft : FTable) (of : OFile) (l : Log) :
    Except String (Int × FTable × OFile × Log) :=
  match filealloc ft with
  | none => do
    let l' ← l.end_op
    pure (-1, ft, of, l')
  | some (f, ft₁) =>
    match fdalloc of f with
    | none => do
      -- the closed file is handed back as `ff`; a file fresh from `filealloc`
      -- has no pipe or inode for `fileclose` to release
      let (ft₂, _) ← fileclose ft₁ f
      let l' ← l.end_op
      pure (-1, ft₂, of, l')
    | some (fd, of₁) =>
      pure (fd, Function.update ft₁ f { ft₁ f with type := .FD_MUTEX, mutex := ⟨false, 0⟩ }, of₁, l)

/-- What `sys_create_mutex` does to the log: a failed call ran `end_op`, a
successful one left the log alone. -/
theorem sys_create_mutex_log {ft ft' : FTable} {of of' : OFile} {l l' : Log} {r : Int}
    (h : sys_create_mutex ft of l = .ok (r, ft', of', l')) :
    (r = -1 ∧ l.end_op = .ok l') ∨ (0 ≤ r ∧ l' = l) := by
  unfold sys_create_mutex at h
  split at h
  · -- no free file
    obtain ⟨l₁, hl, hr⟩ := Except.bind_eq_ok.mp h
    simp only [Except.pure_eq_ok, Prod.mk.injEq] at hr
    obtain ⟨rfl, -, -, rfl⟩ := hr
    exact .inl ⟨rfl, hl⟩
  · split at h
    · -- no free descriptor: the file goes back, then the unpaired `end_op`
      obtain ⟨c, -, hr⟩ := Except.bind_eq_ok.mp h
      obtain ⟨l₁, hl, hr⟩ := Except.bind_eq_ok.mp hr
      simp only [Except.pure_eq_ok, Prod.mk.injEq] at hr
      obtain ⟨rfl, -, -, rfl⟩ := hr
      exact .inl ⟨rfl, hl⟩
    · simp only [Except.pure_eq_ok, Prod.mk.injEq] at h
      obtain ⟨rfl, -, -, rfl⟩ := h
      exact .inr ⟨Int.natCast_nonneg _, rfl⟩

/-- A caller with every descriptor open gets `-1`, and the root log goes
through an `end_op`, whether or not the file table had room. -/
theorem sys_create_mutex_of_ofile_full {ft : FTable} {of : OFile} {l : Log}
    (hfd : ∀ fd, of fd ≠ none) :
    (sys_create_mutex ft of l).map (fun r => (r.1, r.2.2.2)) = l.end_op.map fun l' => (-1, l') := by
  unfold sys_create_mutex
  split
  · cases l.end_op <;> rfl
  · next f ft₁ hf =>
    obtain ⟨-, rfl⟩ := filealloc_eq_some hf
    rw [(fdalloc_eq_none_iff of f).mpr hfd]
    dsimp only
    -- the fresh file holds the one reference `filealloc` gave it
    rw [fileclose_of_ref_one (by simp)]
    cases l.end_op <;> rfl

/-- Files `0 … NOFILE - 1` of the table in use, one reference each, the others
free. -/
def ftableLow : FTable := fun f =>
  if f.val < NOFILE then { type := .FD_INODE, ref := 1 } else { type := .FD_NONE, ref := 0 }

/-- A process with all `NOFILE` descriptors open, descriptor `fd` on file `fd`. -/
def ofileFull : OFile := fun fd => some (Fin.castLE (by decide) fd)

/-- A process with all descriptors open calls `create_mutex` on a booted log.
The call fails and leaves `outstanding = -1` with no call inside a bracket; of
the next two calls that overlap, the first `end_op` already commits, while the
second is still inside its bracket. -/
theorem sys_create_mutex_unbalanced :
    ∃ ft' of' l', sys_create_mutex ftableLow ofileFull Log.mkfsLog = .ok (-1, ft', of', l') ∧
      l'.outstanding = -1 ∧
      ∀ l₁ l₂, l'.begin_op = some l₁ → l₁.begin_op = some l₂ →
        ∃ l₃, l₂.endOpLocked = .ok (l₃, true) := by
  have hfull := @sys_create_mutex_of_ofile_full ftableLow ofileFull Log.mkfsLog
    fun fd => Option.some_ne_none _
  have hend : Log.mkfsLog.end_op = .ok { Log.mkfsLog with outstanding := -1 } := rfl
  rw [hend] at hfull
  cases hres : sys_create_mutex ftableLow ofileFull Log.mkfsLog with
  | error e => simp [hres, Except.map] at hfull
  | ok r =>
    obtain ⟨r₁, ft', of', l'⟩ := r
    simp only [hres, Except.map, Except.ok.injEq, Prod.mk.injEq] at hfull
    obtain ⟨rfl, rfl⟩ := hfull
    refine ⟨ft', of', _, rfl, rfl, fun l₁ l₂ h₁ h₂ => ?_⟩
    -- two `begin_op`s from `-1` leave one outstanding call counted, not two
    obtain ⟨-, -, rfl⟩ := Log.begin_op_eq_some h₁
    obtain ⟨-, -, rfl⟩ := Log.begin_op_eq_some h₂
    simp [Log.endOpLocked, Log.mkfsLog]

end Xv6
