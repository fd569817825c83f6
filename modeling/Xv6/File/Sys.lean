import Mathlib
import Xv6.File.Mutex
import Xv6.Fs.Basic

/-!
# System calls on descriptors

`sys_open`, `sys_read`, `sys_write`, `sys_close` and `sys_create_mutex` over the
file table, one process's descriptors, the root log and the spinlock registry
`locks[]` of `spinlock.c`, as the step function `FState.step` of a machine whose
runs are sequences of these calls.

`sys_open` starts where `namei` or `create` has found the inode: its type and
device numbers are the call's arguments (`sys_mknod` stores the numbers it is
given unchecked, through `create`). `fileread` and `filewrite` are modelled up
to the handler they pass a request to; the console's handlers work on
`consoles[f->minor-1]`, whose index the handler carries.

* `sys_create_mutex_read`: `fileclose` leaves `readable` in the slot and
  `sys_create_mutex` does not reset it, so a mutex file in a slot that held a
  readable file panics on `read` (`fileread_readable_mutex`);
* `sys_open_console`: opening a device checks its major number only, so the
  console's handlers get the minor number of the inode, whatever it is;
* `Locks.sys_create_mutex_locks`: each successful `create_mutex` registers the
  spinlock of a sleep-lock on the kernel stack, and `run_rounds` repeats it until
  `initlock` panics.
-/

namespace Xv6

/-- The open-mode bits of `fcntl.h` that `sys_open` tests. -/
def O_WRONLY : Int := 0x001
def O_RDWR : Int := 0x002

/-- `NDEV`: the bound on device major numbers. -/
def NDEV : Int := 10
/-- The major numbers of `file.h` with handlers after boot. -/
def CONSOLE : Int := 1
def WATCHDOG : Int := 2
/-- `NBCONSOLES`: the length of `consoles[]`. -/
def NBCONSOLES : Int := 3
/-- `NLOCK`: the length of the spinlock registry `locks[]`. -/
def NLOCK : Nat := 1000

/-- What `fileread` and `filewrite` pass a request to; `consoleread` and
`consolewrite` carry the index of the console they use. -/
inductive Handler where
  | piperead
  | pipewrite
  | readi
  | writei
  | consoleread (cons : Int)
  | consolewrite (cons : Int)
  | watchdogwrite
deriving DecidableEq, Repr

/-- `devsw[major].read` after boot: only the console's is set. -/
def devswRead (major : Int) : Option (File → Handler) :=
  if major = CONSOLE then some fun f => .consoleread (f.minor - 1) else none

/-- `devsw[major].write` after boot: the console's and the watchdog's. -/
def devswWrite (major : Int) : Option (File → Handler) :=
  if major = CONSOLE then some fun f => .consolewrite (f.minor - 1)
  else if major = WATCHDOG then some fun _ => .watchdogwrite
  else none

/-- `fileread`: `none` for the code's `-1`, else the handler of the request; a
readable file of another type is the panic `fileread`. -/
def fileread (f : File) : Except String (Option Handler) :=
  if !f.readable then pure none
  else
    match f.type with
    | .FD_PIPE => pure (some .piperead)
    | .FD_DEVICE =>
      if f.major < 0 ∨ f.major ≥ NDEV then pure none else pure ((devswRead f.major).map fun h => h f)
    | .FD_INODE => pure (some .readi)
    | _ => throw "fileread"

/-- `filewrite`, the same dispatch for writing, with the panic `filewrite`. -/
def filewrite (f : File) : Except String (Option Handler) :=
  if !f.writable then pure none
  else
    match f.type with
    | .FD_PIPE => pure (some .pipewrite)
    | .FD_DEVICE =>
      if f.major < 0 ∨ f.major ≥ NDEV then pure none else pure ((devswWrite f.major).map fun h => h f)
    | .FD_INODE => pure (some .writei)
    | _ => throw "filewrite"

/-- `argfd`: descriptor `fd` and its open file; `none` (the code's `-1`) for a
descriptor out of range or not open. -/
def argfd (of : OFile) (fd : Int) : Option (Fin NOFILE × Fin NFILE) :=
  if h : 0 ≤ fd ∧ fd < NOFILE then
    (of ⟨fd.toNat, by omega⟩).map fun f => (⟨fd.toNat, by omega⟩, f)
  else none

/-- `sys_read`: `none` for `-1` on a bad descriptor, else `fileread`. -/
def sys_read (ft : FTable) (of : OFile) (fd : Int) : Except String (Option Handler) :=
  match argfd of fd with
  | none => pure none
  | some (_, f) => fileread (ft f)

/-- `sys_write`: `none` for `-1` on a bad descriptor, else `filewrite`. -/
def sys_write (ft : FTable) (of : OFile) (fd : Int) : Except String (Option Handler) :=
  match argfd of fd with
  | none => pure none
  | some (_, f) => filewrite (ft f)

/-- `sys_close`: clear the descriptor and close its file. What the last close
then does to a pipe or an inode is left to those models. -/
def sys_close (ft : FTable) (of : OFile) (fd : Int) : Except String (Int × FTable × OFile) :=
  match argfd of fd with
  | none => pure (-1, ft, of)
  | some (d, f) => do
    let (ft, _) ← fileclose ft f
    pure (0, ft, Function.update of d none)

/-- `sys_open` from the inode `namei` or `create` found, of type `itype` and
device numbers `imajor`, `iminor`: a device's major number is checked, then a
file and a descriptor are taken (the file goes back if there is no
descriptor), and the file gets its type, device numbers and access flags. -/
def sys_open (ft : FTable) (of : OFile) (itype : Nat) (imajor iminor omode : Int) :
    Except String (Int × FTable × OFile) :=
  if itype = Fs.T_DEVICE ∧ (imajor < 0 ∨ imajor ≥ NDEV) then pure (-1, ft, of)
  else
    match filealloc ft with
    | none => pure (-1, ft, of)
    | some (f, ft₁) =>
      match fdalloc of f with
      | none => do
        let (ft₂, _) ← fileclose ft₁ f
        pure (-1, ft₂, of)
      | some (fd, of₁) =>
        let file : File :=
          if itype = Fs.T_DEVICE then { ft₁ f with type := .FD_DEVICE, major := imajor, minor := iminor }
          else { ft₁ f with type := .FD_INODE }
        pure (fd, Function.update ft₁ f
          { file with readable := Int.land omode O_WRONLY = 0,
                      writable := Int.land omode O_WRONLY ≠ 0 ∨ Int.land omode O_RDWR ≠ 0 }, of₁)

/-! ## The spinlock registry -/

/-- Where a spinlock in `locks[]` lives: in the kernel's static data, or in a
local variable on a kernel stack. -/
inductive LockHome where
  | static
  | stack
deriving DecidableEq, Repr

/-- `initlock`: append the lock to `locks[0..nlock)`; the panic `initlock` when
all `NLOCK` entries are taken. -/
def initlock (locks : List LockHome) (lk : LockHome) : Except String (List LockHome) :=
  if locks.length ≥ NLOCK then throw "initlock" else pure (locks ++ [lk])

/-- `initsleeplock`: `initlock` on the sleep-lock's spinlock, and the free
sleep-lock. -/
def initsleeplock (locks : List LockHome) (lk : LockHome) : Except String (List LockHome × SleepLock) := do
  let locks ← initlock locks lk
  pure (locks, ⟨false, 0⟩)

namespace Locks

/-- `sys_create_mutex` with the registry: once the file and descriptor are
taken, `initsleeplock` runs on the local `sl_lk`, which is on the kernel stack. -/
def sys_create_mutex (ft : FTable) (of : OFile) (l : Log) (locks : List LockHome) :
    Except String (Int × FTable × OFile × Log × List LockHome) := do
  let (r, ft, of, l) ← Xv6.sys_create_mutex ft of l
  if r < 0 then pure (r, ft, of, l, locks)
  else
    let (locks, _) ← initsleeplock locks .stack
    pure (r, ft, of, l, locks)

end Locks

/-! ## Runs of descriptor system calls -/

/-- The state these calls work on. -/
structure FState where
  ft : FTable
  ofile : OFile
  log : Log
  locks : List LockHome

/-- The descriptor system calls of one process. -/
inductive FileCall where
  | open (itype : Nat) (imajor iminor omode : Int)
  | read (fd : Int)
  | write (fd : Int)
  | close (fd : Int)
  | create_mutex

/-- One call: the state after it, or a panic. `read` and `write` change no
table state; what their handlers do is outside this model. -/
def FState.step (s : FState) : FileCall → Except String FState
  | .open itype imajor iminor omode => do
    let (_, ft, of) ← sys_open s.ft s.ofile itype imajor iminor omode
    pure { s with ft := ft, ofile := of }
  | .read fd => do
    let _ ← sys_read s.ft s.ofile fd
    pure s
  | .write fd => do
    let _ ← sys_write s.ft s.ofile fd
    pure s
  | .close fd => do
    let (_, ft, of) ← sys_close s.ft s.ofile fd
    pure { s with ft := ft, ofile := of }
  | .create_mutex => do
    let (_, ft, of, l, locks) ← Locks.sys_create_mutex s.ft s.ofile s.log s.locks
    pure ⟨ft, of, l, locks⟩

/-- A run of calls, stopping at the first panic. -/
def FState.run (s : FState) : List FileCall → Except String FState
  | [] => pure s
  | c :: cs => do
    let s ← s.step c
    s.run cs

/-! ## Reading the calls -/

/-- The first slot of a table is what `filealloc` takes when it is free. -/
theorem filealloc_zero {ft : FTable} (h : (ft ⟨0, by decide⟩).ref = 0) :
    filealloc ft = some (⟨0, by decide⟩, Function.update ft ⟨0, by decide⟩ { ft ⟨0, by decide⟩ with ref := 1 }) := by
  have hfind : (List.finRange NFILE).find? (fun f => (ft f).ref == 0) = some ⟨0, by decide⟩ := by
    obtain ⟨t, ht⟩ : ∃ t, List.finRange NFILE = ⟨0, by decide⟩ :: t := ⟨_, @List.finRange_succ 99⟩
    rw [ht, List.find?_cons_of_pos]
    simpa using h
  simp only [filealloc, hfind]

/-- Descriptor `0` is what `fdalloc` takes when it is free. -/
theorem fdalloc_zero {of : OFile} (h : of ⟨0, by decide⟩ = none) (f : Fin NFILE) :
    fdalloc of f = some (⟨0, by decide⟩, Function.update of ⟨0, by decide⟩ (some f)) := by
  have hfind : (List.finRange NOFILE).find? (fun fd => (of fd).isNone) = some ⟨0, by decide⟩ := by
    obtain ⟨t, ht⟩ : ∃ t, List.finRange NOFILE = ⟨0, by decide⟩ :: t := ⟨_, @List.finRange_succ 15⟩
    rw [ht, List.find?_cons_of_pos]
    simpa using h
  simp only [fdalloc, hfind]

/-- `argfd` finds an open descriptor. -/
theorem argfd_of_eq {of : OFile} {d : Fin NOFILE} {f : Fin NFILE} (h : of d = some f) :
    argfd of d = some (d, f) := by
  have hd : (0 : Int) ≤ d ∧ (d : Int) < NOFILE := ⟨Int.natCast_nonneg _, Int.ofNat_lt.mpr d.isLt⟩
  simp [argfd, hd, h]

/-- What a successful `sys_create_mutex` does to the table: the slot becomes a
mutex file with a free sleep-lock, and keeps every other field. -/
theorem sys_create_mutex_eq {ft ft₁ : FTable} {of of₁ : OFile} {f : Fin NFILE} {fd : Fin NOFILE}
    (hf : filealloc ft = some (f, ft₁)) (hfd : fdalloc of f = some (fd, of₁)) (l : Log) :
    sys_create_mutex ft of l =
      .ok (fd, Function.update ft₁ f { ft₁ f with type := .FD_MUTEX, mutex := ⟨false, 0⟩ }, of₁, l) := by
  simp only [sys_create_mutex, hf, hfd]
  rfl

/-! ## Mutex files and `fileread` -/

/-- A readable file of type `FD_MUTEX` is the panic `fileread`. -/
theorem fileread_readable_mutex {f : File} (hr : f.readable = true) (ht : f.type = .FD_MUTEX) :
    fileread f = .error "fileread" := by
  simp only [fileread, hr, ht, Bool.not_true, Bool.false_eq_true, if_false]
  rfl

/-- `sys_create_mutex` in a slot whose last file was readable hands out a
descriptor on which `read` panics: the slot keeps `readable`. -/
theorem sys_create_mutex_read {ft ft₁ : FTable} {of of₁ : OFile} {f : Fin NFILE} {fd : Fin NOFILE}
    (hf : filealloc ft = some (f, ft₁)) (hfd : fdalloc of f = some (fd, of₁)) (hr : (ft f).readable = true)
    (l : Log) :
    ∃ ft', sys_create_mutex ft of l = .ok (fd, ft', of₁, l) ∧ sys_read ft' of₁ fd = .error "fileread" := by
  obtain ⟨-, rfl⟩ := filealloc_eq_some hf
  obtain ⟨-, rfl⟩ := fdalloc_eq_some hfd
  refine ⟨_, sys_create_mutex_eq hf hfd l, ?_⟩
  have hof : Function.update of fd (some f) fd = some f := Function.update_self ..
  simp only [sys_read, argfd_of_eq hof, Function.update_self]
  exact fileread_readable_mutex (by simpa using hr) rfl

/-- A run from a booted table in which a file opened for reading is closed, a
mutex is created in its slot, and the mutex descriptor is read: the read
panics. -/
theorem create_mutex_after_close_read_panics :
    (⟨ftable0, fun _ => none, Log.mkfsLog, []⟩ : FState).run
      [.open Fs.T_FILE 0 0 O_RDWR, .close 0, .create_mutex, .read 0] = .error "fileread" := by
  -- the slot keeps the `readable` of the closed file, which `sys_create_mutex_read` turns into a panic
  rfl

/-! ## Device files -/

/-- What a successful `sys_open` did: descriptor `fd` now holds a file whose
slot has the inode's type, device numbers and the access flags of `omode`. -/
theorem sys_open_eq {ft ft' : FTable} {of of' : OFile} {itype : Nat} {imajor iminor omode fd : Int}
    (h : sys_open ft of itype imajor iminor omode = .ok (fd, ft', of')) (hfd : 0 ≤ fd) :
    ∃ (d : Fin NOFILE) (f : Fin NFILE), fd = d ∧ of' d = some f ∧
      (ft' f).readable = decide (Int.land omode O_WRONLY = 0) ∧
      (ft' f).writable = decide (Int.land omode O_WRONLY ≠ 0 ∨ Int.land omode O_RDWR ≠ 0) ∧
      (itype = Fs.T_DEVICE → (ft' f).type = .FD_DEVICE ∧ (ft' f).major = imajor ∧ (ft' f).minor = iminor) := by
  unfold sys_open at h
  split at h
  · cases h
    omega
  · split at h
    · cases h
      omega
    · next f ft₁ hf =>
      split at h
      · -- no descriptor: the file goes back and the call returns `-1`
        obtain ⟨c, -, hc⟩ := Except.bind_eq_ok.mp h
        cases hc
        omega
      · next d of₁ hd =>
        simp only [Except.pure_eq_ok, Prod.mk.injEq] at h
        obtain ⟨rfl, rfl, rfl⟩ := h
        refine ⟨d, f, rfl, (fdalloc_eq_some hd).2 ▸ Function.update_self .., ?_, ?_, fun hdev => ?_⟩
        · simp
        · simp
        · simp [hdev]

/-- Opening a device checks its major number only: on a console inode of any
minor number, a read of the new descriptor goes to `consoleread` and a write to
`consolewrite`, both on `consoles[minor-1]`. -/
theorem sys_open_console {ft ft' : FTable} {of of' : OFile} {minor omode fd : Int}
    (h : sys_open ft of Fs.T_DEVICE CONSOLE minor omode = .ok (fd, ft', of')) (hfd : 0 ≤ fd) :
    (Int.land omode O_WRONLY = 0 → sys_read ft' of' fd = .ok (some (.consoleread (minor - 1)))) ∧
      (Int.land omode O_WRONLY ≠ 0 ∨ Int.land omode O_RDWR ≠ 0 →
        sys_write ft' of' fd = .ok (some (.consolewrite (minor - 1)))) := by
  obtain ⟨d, f, rfl, hd, hr, hw, hdev⟩ := sys_open_eq h hfd
  obtain ⟨ht, hmaj, hmin⟩ := hdev rfl
  refine ⟨fun hro => ?_, fun hwr => ?_⟩
  · simp only [sys_read, argfd_of_eq hd, fileread, hr, hro, decide_true, Bool.not_true, Bool.false_eq_true,
      if_false, ht, hmaj]
    rw [if_neg (by decide)]
    simp only [devswRead, if_pos, Option.map_some, hmin]
    rfl
  · simp only [sys_write, argfd_of_eq hd, filewrite, hw, hwr, decide_true, Bool.not_true,
      Bool.false_eq_true, if_false, ht, hmaj]
    rw [if_neg (by decide)]
    simp only [devswWrite, if_pos, Option.map_some, hmin]
    rfl

/-- Every minor number opens on a booted table: the console's handlers then
work on `consoles[minor-1]`, out of the array for a minor of `0`, as
`mknod(path, 1, 0)` makes. -/
theorem console_any_minor (minor : Int) :
    ∃ ft of, sys_open ftable0 (fun _ => none) Fs.T_DEVICE CONSOLE minor O_RDWR = .ok (0, ft, of) ∧
      sys_read ft of 0 = .ok (some (.consoleread (minor - 1))) ∧
      sys_write ft of 0 = .ok (some (.consolewrite (minor - 1))) := by
  obtain ⟨ft, of, h⟩ : ∃ ft of, sys_open ftable0 (fun _ => none) Fs.T_DEVICE CONSOLE minor O_RDWR =
      .ok (0, ft, of) := ⟨_, _, rfl⟩
  have hc := sys_open_console h le_rfl
  exact ⟨ft, of, h, hc.1 (by decide), hc.2 (.inr (by decide))⟩

/-! ## The lock registry -/

/-- Every successful `create_mutex` registers one more spinlock, on the kernel
stack. -/
theorem Locks.sys_create_mutex_locks {ft ft' : FTable} {of of' : OFile} {l l' : Log}
    {locks locks' : List LockHome} {r : Int}
    (h : Locks.sys_create_mutex ft of l locks = .ok (r, ft', of', l', locks')) (hr : 0 ≤ r) :
    locks' = locks ++ [.stack] ∧ locks.length < NLOCK := by
  obtain ⟨⟨r₀, ft₀, of₀, l₀⟩, -, h⟩ := Except.bind_eq_ok.mp h
  dsimp only at h
  split at h
  · cases h
    omega
  · obtain ⟨⟨locks₁, sl⟩, hinit, h⟩ := Except.bind_eq_ok.mp h
    cases h
    obtain ⟨locks₂, hl, hl'⟩ := Except.bind_eq_ok.mp hinit
    cases hl'
    unfold initlock at hl
    split at hl
    · cases hl
    · cases hl
      exact ⟨rfl, by omega⟩

/-- One round from a state whose slot `0` and descriptor `0` are free: a mutex
is created there and closed again, which frees them again and leaves the
registry one entry longer. -/
theorem run_round {s : FState} (hft : (s.ft ⟨0, by decide⟩).ref = 0) (hof : s.ofile ⟨0, by decide⟩ = none)
    (hl : s.locks.length < NLOCK) :
    ∃ s', s.run [.create_mutex, .close 0] = .ok s' ∧ (s'.ft ⟨0, by decide⟩).ref = 0 ∧
      s'.ofile ⟨0, by decide⟩ = none ∧ s'.locks = s.locks ++ [.stack] := by
  set z : Fin NFILE := ⟨0, by decide⟩ with hz
  set d : Fin NOFILE := ⟨0, by decide⟩ with hd
  have hc := sys_create_mutex_eq (filealloc_zero hft) (fdalloc_zero hof z) s.log
  have hinit : initlock s.locks .stack = .ok (s.locks ++ [.stack]) := by
    simp only [initlock, if_neg (Nat.not_le.mpr hl)]
    rfl
  set ft₁ : FTable := Function.update (Function.update s.ft z { s.ft z with ref := 1 }) z
    { Function.update s.ft z { s.ft z with ref := 1 } z with type := .FD_MUTEX, mutex := ⟨false, 0⟩ }
  have hrun : s.run [.create_mutex, .close 0] =
      .ok ⟨Function.update ft₁ z { ft₁ z with type := .FD_NONE, ref := 0 },
        Function.update (Function.update s.ofile d (some z)) d none, s.log, s.locks ++ [.stack]⟩ := by
    simp only [FState.run, FState.step, Locks.sys_create_mutex, hc, Except.ok_bind, initsleeplock, hinit,
      sys_close]
    rfl
  exact ⟨_, hrun, by simp, by simp, rfl⟩

theorem FState.run_append (s : FState) (cs cs' : List FileCall) :
    s.run (cs ++ cs') = s.run cs >>= fun s => s.run cs' := by
  induction cs generalizing s with
  | nil => rfl
  | cons c cs ih =>
    simp only [List.cons_append, FState.run]
    cases s.step c with
    | error e => rfl
    | ok s₁ => exact ih s₁

/-- `k` rounds from a state whose slot `0` and descriptor `0` are free, with room
for `k` more locks: `k` more stack locks in the registry, slot and descriptor
free again. -/
theorem run_rounds (k : Nat) : ∀ s : FState, (s.ft ⟨0, by decide⟩).ref = 0 → s.ofile ⟨0, by decide⟩ = none →
    s.locks.length + k ≤ NLOCK →
    ∃ s', s.run (List.replicate k [FileCall.create_mutex, .close 0]).flatten = .ok s' ∧
      (s'.ft ⟨0, by decide⟩).ref = 0 ∧ s'.ofile ⟨0, by decide⟩ = none ∧ s'.locks.length = s.locks.length + k := by
  induction k with
  | zero => exact fun s hft hof _ => ⟨s, rfl, hft, hof, rfl⟩
  | succ k ih =>
    intro s hft hof hl
    obtain ⟨s₁, h₁, hft₁, hof₁, hl₁⟩ := run_round hft hof (by omega)
    obtain ⟨s₂, h₂, hft₂, hof₂, hl₂⟩ := ih s₁ hft₁ hof₁ (by rw [hl₁, List.length_append]; simp; omega)
    refine ⟨s₂, ?_, hft₂, hof₂, by rw [hl₂, hl₁, List.length_append]; simp; omega⟩
    rw [List.replicate_succ, List.flatten_cons, FState.run_append, h₁, Except.ok_bind, h₂]

/-- With slot `0` and descriptor `0` free and the registry full, `create_mutex`
gets its file and descriptor and then panics in `initlock`. -/
theorem run_create_mutex_full {s : FState} (hft : (s.ft ⟨0, by decide⟩).ref = 0)
    (hof : s.ofile ⟨0, by decide⟩ = none) (hl : NLOCK ≤ s.locks.length) :
    s.run [.create_mutex] = .error "initlock" := by
  have hc := sys_create_mutex_eq (filealloc_zero hft) (fdalloc_zero hof ⟨0, by decide⟩) s.log
  have hinit : initlock s.locks .stack = .error "initlock" := by
    simp only [initlock, if_pos hl]
    rfl
  simp only [FState.run, FState.step, Locks.sys_create_mutex, hc, Except.ok_bind, initsleeplock, hinit]
  rfl

/-- From a booted table, `create_mutex` followed by `close` repeated until the
registry is full, and one more `create_mutex`: the panic `initlock`, whatever
the registry held at boot. -/
theorem create_mutex_fills_locks (l : Log) (locks : List LockHome) :
    (⟨ftable0, fun _ => none, l, locks⟩ : FState).run
      ((List.replicate (NLOCK - locks.length) [FileCall.create_mutex, .close 0]).flatten ++ [.create_mutex]) =
      .error "initlock" := by
  by_cases hroom : locks.length ≤ NLOCK
  · obtain ⟨s, hs, hft, hof, hl⟩ := run_rounds (NLOCK - locks.length) ⟨ftable0, fun _ => none, l, locks⟩
      rfl rfl (by dsimp only; omega)
    rw [FState.run_append, hs, Except.ok_bind]
    exact run_create_mutex_full hft hof (by dsimp only at hl; omega)
  · -- a registry already past `NLOCK`: no round, and the first `create_mutex` panics
    rw [Nat.sub_eq_zero_of_le (by omega), List.replicate_zero, List.flatten_nil, List.nil_append]
    exact run_create_mutex_full rfl rfl (by dsimp only; omega)

end Xv6
