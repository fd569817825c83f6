import Mathlib
import Xv6.File.Sys
import Xv6.File.Pipe

/-!
# Processes sharing the open-file table

The descriptor calls of `sysfile.c` made by many processes over one `ftable`, with the parts
of `fork` and `exit` (`proc.c`) that touch descriptors, the pipes of `pipe.c` on their pages
and the sleep-locks of mutex files (`sleeplock.c`).

* `FProc`, `FSys`: each process slot's pid and `ofile`, the table, the pipe on each page,
  `nextpid`, the root log and the spinlock registry. `held` is a ghost list: the processes
  between a returning `acquire_mutex` and its `release_mutex`, each with the file.
* `closeFile` is `fileclose` with what its last close does to a pipe; `pipealloc`,
  `sys_pipe`, `sys_dup`, `sys_close`, `sys_acquire_mutex`, `sys_release_mutex`, `fork` and
  `exit` follow the code; `open` and `create_mutex` are the models of `Xv6/File/Sys.lean`.
* `FSys.step`, `FSys.run`: any interleaving of the calls, one at a time, as the spinlocks of
  the table, the pipes and the sleep-locks order them.
* `FSys.Effect`: what one call can do to the state, and `FSys.step_effect`, that every call
  does one of these; the invariants of the system are proved over `Effect`.

A process leaves the model at `exit`: its zombie has no descriptors and makes no calls. A
call by an unused slot does not happen, and a `fork` into a slot in use is `allocproc`
failing. `kalloc` gives `pipealloc` a page that holds no pipe, so the environment's choice of
a page in use stands for `kalloc` failing; the bytes of a new pipe's page are not modelled.
-/

/-! ## Sums over a function changed at one point -/

namespace Finset

/-- Changing `g` at `i` changes a sum over `h ∘ g` by what `h` gives there. -/
theorem sum_apply_update {ι α : Type} [Fintype ι] [DecidableEq ι] (h : α → ℕ) (g : ι → α) (i : ι)
    (b : α) : ∑ j, h (Function.update g i b j) + h (g i) = ∑ j, h (g j) + h b := by
  have hcomp : (fun j => h (Function.update g i b j)) = Function.update (fun j => h (g j)) i (h b) :=
    Function.comp_update h g i b
  rw [hcomp, sum_update_of_mem (mem_univ i), ← add_sum_erase _ _ (mem_univ i), sdiff_singleton_eq_erase]
  omega

end Finset

namespace Xv6

/-! ## Sleep-locks -/

/-- `acquiresleep` by the process with `pid`: the lock, now held, or `none` while it is
locked, when the caller sleeps and looks again once woken. -/
def acquiresleep (lk : SleepLock) (pid : Int) : Option SleepLock :=
  if lk.locked then none else some { lk with locked := true, pid := pid }

/-- `releasesleep`: the lock is free and names no process. -/
def releasesleep (lk : SleepLock) : SleepLock := { lk with locked := false, pid := 0 }

/-- `holdingsleep`: the lock is held by the process with `pid`. -/
def holdingsleep (lk : SleepLock) (pid : Int) : Bool := lk.locked && lk.pid == pid

/-! ## Pipes on pages and the last close of a file -/

/-- The pipe on each page, `none` for a page that holds none. -/
abbrev Pipes := Nat → Option Pipe

/-- `pipeclose(pi, writable)` on the pipe on page `pa`, with its `kfree` of the page when
neither end is open any more. -/
def pipeclosePage (pipes : Pipes) (pa : Nat) (writable : Bool) : Pipes :=
  match pipes pa with
  | none => pipes
  | some pi =>
    let pi := pipeclose pi writable
    Function.update pipes pa (if pi.readopen || pi.writeopen then some pi else none)

/-- `fileclose` with what its last close does to a pipe: `pipeclose` with the closed file's
`writable`. The `iput` of an inode file is left to the file system's model. -/
def closeFile (ft : FTable) (pipes : Pipes) (f : Fin NFILE) : Except String (FTable × Pipes) := do
  let (ft, ff) ← fileclose ft f
  match ff with
  | some ff => pure (ft, if ff.type = .FD_PIPE then pipeclosePage pipes ff.pipe ff.writable else pipes)
  | none => pure (ft, pipes)

/-- `pipealloc`: two files and the page `kalloc` gives, which holds no pipe, or none when it
fails. On a failure the files taken so far are closed again. -/
def pipealloc (ft : FTable) (pipes : Pipes) (pa : Option Nat) :
    Except String (Option (Fin NFILE × Fin NFILE) × FTable × Pipes) :=
  match filealloc ft with
  | none => pure (none, ft, pipes)
  | some (f0, ft) =>
    match filealloc ft with
    | none => do
      let (ft, pipes) ← closeFile ft pipes f0
      pure (none, ft, pipes)
    | some (f1, ft) =>
      match pa.filter fun a => (pipes a).isNone with
      | none => do
        let (ft, pipes) ← closeFile ft pipes f0
        let (ft, pipes) ← closeFile ft pipes f1
        pure (none, ft, pipes)
      | some pa =>
        let ft := Function.update ft f0
          { ft f0 with type := .FD_PIPE, readable := true, writable := false, pipe := pa }
        let ft := Function.update ft f1
          { ft f1 with type := .FD_PIPE, readable := false, writable := true, pipe := pa }
        pure (some (f0, f1), ft, Function.update pipes pa (some (Pipe.init fun _ => 0)))

/-! ## The system -/

/-- The part of a process that the descriptor calls use. -/
structure FProc where
  pid : Nat
  ofile : OFile

/-- The process slots (`none` for `UNUSED`), the open-file table, the pipes, `nextpid`, the
root log, the spinlock registry, and the ghost list of holds of mutex files. -/
structure FSys where
  procs : Fin NPROC → Option FProc
  ft : FTable
  pipes : Pipes
  nextpid : Nat
  log : Log
  locks : List LockHome
  held : List (Fin NPROC × Fin NFILE)

namespace FSys

/-- Slot `p` now holds `P`. -/
def setProc (s : FSys) (p : Fin NPROC) (P : FProc) : FSys :=
  { s with procs := Function.update s.procs p (some P) }

/-- A call by slot `p`: it does not happen on an unused slot. -/
def byProc (s : FSys) (p : Fin NPROC) (k : FProc → Except String FSys) : Except String FSys :=
  match s.procs p with
  | none => pure s
  | some P => k P

/-- `fileclose` on the system. The close that frees a mutex file ends every hold of it. -/
def fileclose (s : FSys) (f : Fin NFILE) : Except String FSys := do
  let (ft, pipes) ← closeFile s.ft s.pipes f
  pure { s with ft := ft, pipes := pipes,
                held := if (ft f).ref = 0 then s.held.filter (·.2 != f) else s.held }

/-- Clear descriptor `d` of process `p`, which holds `f`, and close `f`: the body of
`sys_close` and of the loop of `exit`. -/
def closeDesc (s : FSys) (p : Fin NPROC) (P : FProc) (d : Fin NOFILE) (f : Fin NFILE) :
    Except String FSys :=
  (s.setProc p { P with ofile := Function.update P.ofile d none }).fileclose f

/-- `sys_close` by process `p`. -/
def sys_close (s : FSys) (p : Fin NPROC) (P : FProc) (fd : Int) : Except String (Int × FSys) :=
  match argfd P.ofile fd with
  | none => pure (-1, s)
  | some (d, f) => do
    let s ← s.closeDesc p P d f
    pure (0, s)

/-- `sys_dup` by process `p`: the descriptor is taken before the reference. -/
def sys_dup (s : FSys) (p : Fin NPROC) (P : FProc) (fd : Int) : Except String (Int × FSys) :=
  match argfd P.ofile fd with
  | none => pure (-1, s)
  | some (_, f) =>
    match fdalloc P.ofile f with
    | none => pure (-1, s)
    | some (fd, of) => do
      let ft ← filedup s.ft f
      pure (fd, { s.setProc p { P with ofile := of } with ft := ft })

/-- `sys_pipe` by process `p`: `kalloc` gives `pa`, and `copyok` says whether both `copyout`s
of the descriptors succeed. A failure after `pipealloc` closes both files. -/
def sys_pipe (s : FSys) (p : Fin NPROC) (P : FProc) (pa : Option Nat) (copyok : Bool) :
    Except String (Int × FSys) := do
  let (r, ft, pipes) ← pipealloc s.ft s.pipes pa
  let s := { s with ft := ft, pipes := pipes }
  match r with
  | none => pure (-1, s)
  | some (rf, wf) =>
    let bad (s : FSys) : Except String (Int × FSys) := do
      let s ← s.fileclose rf
      let s ← s.fileclose wf
      pure (-1, s)
    match fdalloc P.ofile rf with
    | none => bad s
    | some (fd0, of) =>
      match fdalloc of wf with
      | none => bad (s.setProc p { P with ofile := Function.update of fd0 none })
      | some (fd1, of) =>
        if copyok then pure (0, s.setProc p { P with ofile := of })
        else bad (s.setProc p { P with ofile := Function.update (Function.update of fd0 none) fd1 none })

/-- `sys_acquire_mutex` by process `p`: `-1` on a descriptor that is not a mutex file; the
caller sleeps while the lock is held, and holds it once the call returns `0`. -/
def sys_acquire_mutex (s : FSys) (p : Fin NPROC) (P : FProc) (fd : Int) : Outcome × FSys :=
  match argfd P.ofile fd with
  | none => (.returns (-1), s)
  | some (_, f) =>
    if (s.ft f).type ≠ .FD_MUTEX then (.returns (-1), s)
    else
      match acquiresleep (s.ft f).mutex P.pid with
      | none => (.sleeps, s)
      | some lk =>
        (.returns 0, { s with ft := Function.update s.ft f { s.ft f with mutex := lk },
                              held := s.held ++ [(p, f)] })

/-- `sys_release_mutex` by process `p`: `-1` unless the descriptor is a mutex file whose lock
`p` holds. -/
def sys_release_mutex (s : FSys) (p : Fin NPROC) (P : FProc) (fd : Int) : Int × FSys :=
  match argfd P.ofile fd with
  | none => (-1, s)
  | some (_, f) =>
    if (s.ft f).type ≠ .FD_MUTEX ∨ holdingsleep (s.ft f).mutex P.pid = false then (-1, s)
    else
      (0, { s with ft := Function.update s.ft f { s.ft f with mutex := releasesleep (s.ft f).mutex },
                   held := s.held.filter (· != (p, f)) })

/-- The loop of `fork` that gives the child each open descriptor, with `filedup`. -/
def forkFiles (of : OFile) : List (Fin NOFILE) → FTable → Except String FTable
  | [], ft => pure ft
  | d :: ds, ft =>
    match of d with
    | none => forkFiles of ds ft
    | some f => do
      let ft ← filedup ft f
      forkFiles of ds ft

/-- `fork` by a process `P` into slot `np`, `-1` when `np` is in use: `ok` says whether the
rest of `allocproc` and `uvmcopy`, which come after the pid is taken, succeed. The child has
the parent's descriptors. -/
def fork (s : FSys) (P : FProc) (np : Fin NPROC) (ok : Bool) : Except String (Int × FSys) :=
  if (s.procs np).isSome then pure (-1, s)
  else if !ok then pure (-1, { s with nextpid := s.nextpid + 1 })
  else do
    let ft ← forkFiles P.ofile (List.finRange NOFILE) s.ft
    pure (s.nextpid, { s with ft := ft, procs := Function.update s.procs np (some ⟨s.nextpid, P.ofile⟩),
                              nextpid := s.nextpid + 1 })

/-- The loop of `exit` that closes each open descriptor of process `p`. -/
def exitFiles (p : Fin NPROC) : List (Fin NOFILE) → FSys → Except String FSys
  | [], s => pure s
  | d :: ds, s =>
    match s.procs p with
    | none => pure s
    | some P =>
      match P.ofile d with
      | none => exitFiles p ds s
      | some f => do
        let s ← s.closeDesc p P d f
        exitFiles p ds s

/-- `exit` by process `p`: the panic `init exiting` for `initproc`, which `userinit` put in
slot `0`; otherwise every descriptor is closed and the process leaves, with its holds. -/
def exit (s : FSys) (p : Fin NPROC) : Except String FSys :=
  if p = 0 then .error "init exiting"
  else do
    let s ← s.exitFiles p (List.finRange NOFILE)
    pure { s with procs := Function.update s.procs p none, held := s.held.filter (·.1 != p) }

end FSys

/-- The calls, each by the process in slot `p`. -/
inductive FCall where
  | fork (p np : Fin NPROC) (ok : Bool)
  | exit (p : Fin NPROC)
  | open (p : Fin NPROC) (itype : Nat) (imajor iminor omode : Int)
  | dup (p : Fin NPROC) (fd : Int)
  | close (p : Fin NPROC) (fd : Int)
  | pipe (p : Fin NPROC) (pa : Option Nat) (copyok : Bool)
  | create_mutex (p : Fin NPROC)
  | acquire_mutex (p : Fin NPROC) (fd : Int)
  | release_mutex (p : Fin NPROC) (fd : Int)

namespace FSys

/-- One call: the state after it, or a panic. A call that sleeps leaves the state as it is. -/
def step (s : FSys) : FCall → Except String FSys
  | .fork p np ok => s.byProc p fun P => Prod.snd <$> s.fork P np ok
  | .exit p => s.byProc p fun _ => s.exit p
  | .open p itype imajor iminor omode => s.byProc p fun P => do
    let (_, ft, of) ← sys_open s.ft P.ofile itype imajor iminor omode
    pure { s.setProc p { P with ofile := of } with ft := ft }
  | .dup p fd => s.byProc p fun P => Prod.snd <$> s.sys_dup p P fd
  | .close p fd => s.byProc p fun P => Prod.snd <$> s.sys_close p P fd
  | .pipe p pa copyok => s.byProc p fun P => Prod.snd <$> s.sys_pipe p P pa copyok
  | .create_mutex p => s.byProc p fun P => do
    let (_, ft, of, l, locks) ← Locks.sys_create_mutex s.ft P.ofile s.log s.locks
    pure { s.setProc p { P with ofile := of } with ft := ft, log := l, locks := locks }
  | .acquire_mutex p fd => s.byProc p fun P => pure (s.sys_acquire_mutex p P fd).2
  | .release_mutex p fd => s.byProc p fun P => pure (s.sys_release_mutex p P fd).2

/-- A run of calls, stopping at the first panic. -/
def run (s : FSys) : List FCall → Except String FSys
  | [] => pure s
  | c :: cs => do
    let s ← s.step c
    s.run cs

/-- The booted system: `initproc` in slot `0` with pid `1` and no descriptors, a zeroed table
and no pipes, so that `nextpid` is `2`. -/
def boot (l : Log) (locks : List LockHome) : FSys :=
  ⟨fun p => if p = 0 then some ⟨1, fun _ => none⟩ else none, ftable0, fun _ => none, 2, l, locks, []⟩

/-- The states of some run from a booted system. -/
def Reachable (s : FSys) : Prop := ∃ l locks cs, (boot l locks).run cs = .ok s

end FSys

/-! ## Counting references -/

/-- `1` when the descriptor holds `f`. -/
def refOf (o : Option (Fin NFILE)) (f : Fin NFILE) : Nat := if o = some f then 1 else 0

@[simp] theorem refOf_none (f : Fin NFILE) : refOf none f = 0 := rfl

@[simp] theorem refOf_some (f g : Fin NFILE) : refOf (some f) g = if f = g then 1 else 0 := by
  simp [refOf]

/-- How many descriptors of `of` hold `f`. -/
def refsOf (of : OFile) (f : Fin NFILE) : Nat := ∑ d, refOf (of d) f

/-- How many descriptors of a process slot hold `f`. -/
def procRefs (o : Option FProc) (f : Fin NFILE) : Nat :=
  match o with
  | none => 0
  | some P => refsOf P.ofile f

/-- How many (process, descriptor) pairs hold `f`. -/
def nrefs (procs : Fin NPROC → Option FProc) (f : Fin NFILE) : Nat := ∑ p, procRefs (procs p) f

theorem refsOf_update (of : OFile) (d : Fin NOFILE) (v : Option (Fin NFILE)) (f : Fin NFILE) :
    refsOf (Function.update of d v) f + refOf (of d) f = refsOf of f + refOf v f :=
  Finset.sum_apply_update (refOf · f) of d v

theorem nrefs_update (procs : Fin NPROC → Option FProc) (p : Fin NPROC) (o : Option FProc)
    (f : Fin NFILE) : nrefs (Function.update procs p o) f + procRefs (procs p) f = nrefs procs f + procRefs o f :=
  Finset.sum_apply_update (procRefs · f) procs p o

/-- Setting one descriptor of a process changes the count by what the descriptor held. -/
theorem nrefs_setFd {procs : Fin NPROC → Option FProc} {p : Fin NPROC} {P : FProc} (hP : procs p = some P)
    (d : Fin NOFILE) (v : Option (Fin NFILE)) (f : Fin NFILE) :
    nrefs (Function.update procs p (some { P with ofile := Function.update P.ofile d v })) f +
      refOf (P.ofile d) f = nrefs procs f + refOf v f := by
  have hp := nrefs_update procs p (some { P with ofile := Function.update P.ofile d v }) f
  have hd := refsOf_update P.ofile d v f
  rw [hP] at hp
  simp only [procRefs] at hp
  omega

theorem refsOf_pos {of : OFile} {d : Fin NOFILE} {f : Fin NFILE} (h : of d = some f) : 0 < refsOf of f := by
  have hle : refOf (of d) f ≤ refsOf of f :=
    Finset.single_le_sum (fun d _ => Nat.zero_le (refOf (of d) f)) (Finset.mem_univ d)
  simp only [refOf, h, if_true] at hle
  omega

theorem procRefs_le_nrefs (procs : Fin NPROC → Option FProc) (p : Fin NPROC) (f : Fin NFILE) :
    procRefs (procs p) f ≤ nrefs procs f :=
  Finset.single_le_sum (fun q _ => Nat.zero_le (procRefs (procs q) f)) (Finset.mem_univ p)

/-- A file that a descriptor holds is counted. -/
theorem nrefs_pos {procs : Fin NPROC → Option FProc} {p : Fin NPROC} {P : FProc} (hP : procs p = some P)
    {d : Fin NOFILE} {f : Fin NFILE} (h : P.ofile d = some f) : 0 < nrefs procs f := by
  have hle := procRefs_le_nrefs procs p f
  rw [hP] at hle
  exact lt_of_lt_of_le (refsOf_pos h) hle

/-- No descriptor holds a file counted `0` times. -/
theorem nrefs_eq_zero_iff (procs : Fin NPROC → Option FProc) (f : Fin NFILE) :
    nrefs procs f = 0 ↔ ∀ p P d, procs p = some P → P.ofile d ≠ some f := by
  constructor
  · intro h p P d hP hd
    have := nrefs_pos hP hd
    omega
  · intro h
    refine Finset.sum_eq_zero fun p _ => ?_
    cases hP : procs p with
    | none => rfl
    | some P =>
      show refsOf P.ofile f = 0
      refine Finset.sum_eq_zero fun d _ => ?_
      simp [refOf, h p P d hP]

/-! ## What the pieces do -/

/-- The loop of `fork` adds to each file the references of the parent's descriptors it went
over. -/
theorem forkFiles_ok {of : OFile} {ds : List (Fin NOFILE)} {ft ft' : FTable}
    (h : FSys.forkFiles of ds ft = .ok ft') (g : Fin NFILE) :
    ft' g = { ft g with ref := (ft g).ref + ((ds.map fun d => refOf (of d) g).sum : Nat) } := by
  induction ds generalizing ft with
  | nil =>
    cases h
    simp
  | cons d ds ih =>
    cases hd : of d with
    | none =>
      simp only [FSys.forkFiles, hd] at h
      rw [ih h]
      simp [refOf, hd]
    | some f =>
      simp only [FSys.forkFiles, hd] at h
      obtain ⟨ft₁, h₁, h⟩ := Except.bind_eq_ok.mp h
      unfold filedup at h₁
      split at h₁
      · cases h₁
      · cases h₁
        rw [ih h]
        by_cases hg : g = f
        · subst hg
          simp only [Function.update_self, List.map_cons, refOf, hd, if_true, List.sum_cons]
          push_cast
          congr 1
          omega
        · simp [Function.update_of_ne hg, refOf, hd, Ne.symm hg]

/-- The loop of `fork` over every descriptor adds the parent's references. -/
theorem forkFiles_all {of : OFile} {ft ft' : FTable} (h : FSys.forkFiles of (List.finRange NOFILE) ft = .ok ft')
    (g : Fin NFILE) : ft' g = { ft g with ref := (ft g).ref + refsOf of g } := by
  rw [forkFiles_ok h g, refsOf, Fin.sum_univ_def]

theorem closeFile_of_gt {ft : FTable} {f : Fin NFILE} (h : 1 < (ft f).ref) (pipes : Pipes) :
    closeFile ft pipes f = .ok (Function.update ft f { ft f with ref := (ft f).ref - 1 }, pipes) := by
  simp only [closeFile, fileclose_of_gt h]
  rfl

theorem closeFile_of_one {ft : FTable} {f : Fin NFILE} (h : (ft f).ref = 1) (pipes : Pipes) :
    closeFile ft pipes f = .ok (Function.update ft f { ft f with type := .FD_NONE, ref := 0 },
      if (ft f).type = .FD_PIPE then pipeclosePage pipes (ft f).pipe (ft f).writable else pipes) := by
  simp only [closeFile, fileclose_of_ref_one h]
  rfl

/-- A successful `closeFile` found a reference. -/
theorem closeFile_pos {ft ft' : FTable} {pipes pipes' : Pipes} {f : Fin NFILE}
    (h : closeFile ft pipes f = .ok (ft', pipes')) : 1 ≤ (ft f).ref := by
  by_contra hlt
  simp only [closeFile, fileclose, if_pos (show (ft f).ref < 1 by omega)] at h
  cases h

theorem pipeclosePage_of_ne (pipes : Pipes) {pa pa' : Nat} (h : pa' ≠ pa) (w : Bool) :
    pipeclosePage pipes pa w pa' = pipes pa' := by
  cases hpa : pipes pa <;> simp [pipeclosePage, hpa, Function.update_of_ne h]

theorem pipeclosePage_self {pipes : Pipes} {pa : Nat} {pi : Pipe} (h : pipes pa = some pi) (w : Bool) :
    pipeclosePage pipes pa w pa =
      if (pipeclose pi w).readopen || (pipeclose pi w).writeopen then some (pipeclose pi w) else none := by
  simp [pipeclosePage, h]

namespace FSys

@[simp] theorem setProc_procs (s : FSys) (p : Fin NPROC) (P : FProc) :
    (s.setProc p P).procs = Function.update s.procs p (some P) := rfl
@[simp] theorem setProc_ft (s : FSys) (p : Fin NPROC) (P : FProc) : (s.setProc p P).ft = s.ft := rfl
@[simp] theorem setProc_pipes (s : FSys) (p : Fin NPROC) (P : FProc) : (s.setProc p P).pipes = s.pipes := rfl
@[simp] theorem setProc_held (s : FSys) (p : Fin NPROC) (P : FProc) : (s.setProc p P).held = s.held := rfl
@[simp] theorem setProc_nextpid (s : FSys) (p : Fin NPROC) (P : FProc) :
    (s.setProc p P).nextpid = s.nextpid := rfl

/-- `fileclose` of a file with another reference. -/
theorem fileclose_gt {s : FSys} {f : Fin NFILE} (h : 1 < (s.ft f).ref) :
    s.fileclose f = .ok { s with ft := Function.update s.ft f { s.ft f with ref := (s.ft f).ref - 1 } } := by
  simp only [fileclose, closeFile_of_gt h, Except.ok_bind, Function.update_self]
  rw [if_neg (by omega)]
  rfl

/-- `fileclose` of the last reference: the slot is free, a pipe's end is closed, and the
holds of the file end. -/
theorem fileclose_one {s : FSys} {f : Fin NFILE} (h : (s.ft f).ref = 1) :
    s.fileclose f = .ok
      { s with
        ft := Function.update s.ft f { s.ft f with type := .FD_NONE, ref := 0 }
        pipes := if (s.ft f).type = .FD_PIPE then pipeclosePage s.pipes (s.ft f).pipe (s.ft f).writable
          else s.pipes
        held := s.held.filter (·.2 != f) } := by
  simp only [fileclose, closeFile_of_one h, Except.ok_bind, Function.update_self, if_true]
  rfl

theorem fileclose_procs {s s' : FSys} {f : Fin NFILE} (h : s.fileclose f = .ok s') : s'.procs = s.procs := by
  obtain ⟨_, -, h⟩ := Except.bind_eq_ok.mp h
  cases h
  rfl

/-- A successful `fileclose` is one of the two. -/
theorem fileclose_cases {s s' : FSys} {f : Fin NFILE} (h : s.fileclose f = .ok s') :
    1 < (s.ft f).ref ∧
        s.fileclose f = .ok { s with ft := Function.update s.ft f { s.ft f with ref := (s.ft f).ref - 1 } } ∨
      (s.ft f).ref = 1 ∧ s.fileclose f = .ok
        { s with
          ft := Function.update s.ft f { s.ft f with type := .FD_NONE, ref := 0 }
          pipes := if (s.ft f).type = .FD_PIPE then pipeclosePage s.pipes (s.ft f).pipe (s.ft f).writable
            else s.pipes
          held := s.held.filter (·.2 != f) } := by
  obtain ⟨⟨ft, pipes⟩, hc, -⟩ := Except.bind_eq_ok.mp h
  have hpos := closeFile_pos hc
  by_cases h1 : (s.ft f).ref = 1
  · exact .inr ⟨h1, fileclose_one h1⟩
  · exact .inl ⟨by omega, fileclose_gt (by omega)⟩

end FSys

namespace FSys

/-- The loop of `exit` clears the descriptors it goes over and no other slot's. -/
theorem exitFiles_procs {p : Fin NPROC} {ds : List (Fin NOFILE)} {s s₁ : FSys} {P : FProc}
    (hP : s.procs p = some P) (h : s.exitFiles p ds = .ok s₁) :
    (∃ P₁ : FProc, s₁.procs p = some P₁ ∧ P₁.pid = P.pid ∧
      ∀ d, P₁.ofile d = if d ∈ ds then none else P.ofile d) ∧ ∀ q, q ≠ p → s₁.procs q = s.procs q := by
  induction ds generalizing s P with
  | nil =>
    cases h
    exact ⟨⟨P, hP, rfl, fun d => by simp⟩, fun _ _ => rfl⟩
  | cons d ds ih =>
    simp only [exitFiles, hP] at h
    split at h
    · next hd =>
      obtain ⟨⟨P₁, hP₁, hpid, hof⟩, hq⟩ := ih hP h
      refine ⟨⟨P₁, hP₁, hpid, fun d' => ?_⟩, hq⟩
      rw [hof d']
      by_cases hd' : d' = d
      · subst hd'
        simp [hd]
      · simp [hd']
    · next f hd =>
      obtain ⟨s₂, h₂, h⟩ := Except.bind_eq_ok.mp h
      have hprocs := fileclose_procs h₂
      obtain ⟨⟨P₁, hP₁, hpid, hof⟩, hq⟩ :=
        @ih s₂ { P with ofile := Function.update P.ofile d none } (by simp [hprocs]) h
      refine ⟨⟨P₁, hP₁, hpid, fun d' => ?_⟩, fun q hq' => by rw [hq q hq', hprocs]; simp [hq']⟩
      rw [hof d']
      by_cases hd' : d' = d
      · subst hd'
        simp
      · simp [hd']

/-- What clearing a descriptor and closing its file does: one reference less, or the last
one, which frees the slot, closes a pipe's end and ends the holds of the file. -/
theorem closeDesc_cases {s s' : FSys} {p : Fin NPROC} {P : FProc} {d : Fin NOFILE} {f : Fin NFILE}
    (h : s.closeDesc p P d f = .ok s') :
    1 < (s.ft f).ref ∧
        s' = { s with procs := Function.update s.procs p (some { P with ofile := Function.update P.ofile d none }),
                      ft := Function.update s.ft f { s.ft f with ref := (s.ft f).ref - 1 } } ∨
      (s.ft f).ref = 1 ∧
        s' = { s with procs := Function.update s.procs p (some { P with ofile := Function.update P.ofile d none }),
                      ft := Function.update s.ft f { s.ft f with type := .FD_NONE, ref := 0 },
                      pipes := if (s.ft f).type = .FD_PIPE then pipeclosePage s.pipes (s.ft f).pipe (s.ft f).writable
                        else s.pipes,
                      held := s.held.filter (·.2 != f) } := by
  unfold closeDesc at h
  rcases fileclose_cases h with ⟨hgt, h'⟩ | ⟨h1, h'⟩
  · exact .inl ⟨hgt, Except.ok.inj (h.symm.trans h')⟩
  · exact .inr ⟨h1, Except.ok.inj (h.symm.trans h')⟩

end FSys

/-! ## What a call does -/

/-- `argfd` finds a descriptor that holds its file. -/
theorem argfd_eq_some {of : OFile} {fd : Int} {d : Fin NOFILE} {f : Fin NFILE}
    (h : argfd of fd = some (d, f)) : of d = some f := by
  unfold argfd at h
  split at h
  · obtain ⟨f', hf', he⟩ := Option.map_eq_some_iff.mp h
    cases he
    exact hf'
  · cases h

/-- Closing a slot fresh from `filealloc` gives it back free. -/
theorem fileclose_filealloc {ft ft₁ : FTable} {f : Fin NFILE} (hf : filealloc ft = some (f, ft₁)) :
    fileclose ft₁ f = .ok (Function.update ft f { ft f with type := .FD_NONE, ref := 0 }, some { ft f with ref := 0 }) := by
  obtain ⟨-, rfl⟩ := filealloc_eq_some hf
  rw [fileclose_of_ref_one (by simp), Function.update_idem, Function.update_self]

/-- `ft'` has the files of `ft`: a slot is unchanged, or was free and is free, of type
`FD_NONE`, whatever its other fields now hold. -/
def KeepsLive (ft ft' : FTable) : Prop :=
  ∀ g, ft' g = ft g ∨ (ft g).ref = 0 ∧ (ft' g).ref = 0 ∧ (ft' g).type = .FD_NONE

theorem KeepsLive.rfl (ft : FTable) : KeepsLive ft ft := fun _ => .inl (Eq.refl _)

/-- Writing a free slot so that it stays free keeps the files. -/
theorem keepsLive_freed {ft : FTable} {f : Fin NFILE} (hf : (ft f).ref = 0) :
    KeepsLive ft (Function.update ft f { ft f with type := .FD_NONE, ref := 0 }) := by
  intro g
  by_cases hg : g = f
  · subst hg
    simp [hf]
  · simp [Function.update_of_ne hg]

/-- The table after `pipealloc` has made the free slots `f0` and `f1` the read end and the
write end of the pipe on page `pa`. -/
def pipeEnds (ft : FTable) (f0 f1 : Fin NFILE) (pa : Nat) : FTable := fun g =>
  if g = f0 then { ft f0 with type := .FD_PIPE, ref := 1, readable := true, writable := false, pipe := pa }
  else if g = f1 then { ft f1 with type := .FD_PIPE, ref := 1, readable := false, writable := true, pipe := pa }
  else ft g

/-- What `sys_open` and `sys_create_mutex` do to the table and the caller's descriptors: they
write free slots and leave them free, or open one free slot into a new descriptor, as a file
with one reference that is not a pipe and, if it is a mutex, has a free lock. -/
def OpensFile (ft ft' : FTable) (of of' : OFile) : Prop :=
  (of' = of ∧ KeepsLive ft ft') ∨
    ∃ d f F, of d = none ∧ (ft f).ref = 0 ∧ F.ref = 1 ∧ F.type ≠ .FD_PIPE ∧
      (F.type = .FD_MUTEX → F.mutex.locked = false) ∧ of' = Function.update of d (some f) ∧
      ft' = Function.update ft f F

theorem OpensFile.rfl (ft : FTable) (of : OFile) : OpensFile ft ft of of := .inl ⟨Eq.refl _, .rfl ft⟩

theorem sys_open_opensFile {ft ft' : FTable} {of of' : OFile} {itype : Nat} {imajor iminor omode r : Int}
    (h : sys_open ft of itype imajor iminor omode = .ok (r, ft', of')) : OpensFile ft ft' of of' := by
  unfold sys_open at h
  split at h
  · cases h
    exact .rfl ft of
  · split at h
    · cases h
      exact .rfl ft of
    · next f ft₁ hf =>
      split at h
      · -- no descriptor: the slot goes back
        rw [fileclose_filealloc hf] at h
        cases h
        exact .inl ⟨Eq.refl _, keepsLive_freed (filealloc_eq_some hf).1⟩
      · next d of₁ hd =>
        obtain ⟨hf0, rfl⟩ := filealloc_eq_some hf
        obtain ⟨hd0, rfl⟩ := fdalloc_eq_some hd
        simp only [Except.pure_eq_ok, Prod.mk.injEq] at h
        obtain ⟨-, rfl, rfl⟩ := h
        refine .inr ⟨d, f, _, hd0, hf0, ?_, ?_, ?_, Eq.refl _, Function.update_idem ..⟩ <;> split <;> simp

theorem create_mutex_opensFile {ft ft' : FTable} {of of' : OFile} {l l' : Log} {locks locks' : List LockHome}
    {r : Int} (h : Locks.sys_create_mutex ft of l locks = .ok (r, ft', of', l', locks')) :
    OpensFile ft ft' of of' := by
  obtain ⟨⟨r₀, ft₀, of₀, l₀⟩, h₀, h⟩ := Except.bind_eq_ok.mp h
  have hft : ft₀ = ft' ∧ of₀ = of' := by
    dsimp only at h
    split at h
    · cases h
      exact ⟨Eq.refl _, Eq.refl _⟩
    · obtain ⟨_, -, h⟩ := Except.bind_eq_ok.mp h
      cases h
      exact ⟨Eq.refl _, Eq.refl _⟩
  obtain ⟨rfl, rfl⟩ := hft
  unfold sys_create_mutex at h₀
  split at h₀
  · obtain ⟨_, -, h₀⟩ := Except.bind_eq_ok.mp h₀
    cases h₀
    exact .rfl ft of
  · next f ft₁ hf =>
    split at h₀
    · rw [fileclose_filealloc hf, Except.ok_bind] at h₀
      obtain ⟨_, -, h₀⟩ := Except.bind_eq_ok.mp h₀
      cases h₀
      exact .inl ⟨Eq.refl _, keepsLive_freed (filealloc_eq_some hf).1⟩
    · next d of₁ hd =>
      obtain ⟨hf0, rfl⟩ := filealloc_eq_some hf
      obtain ⟨hd0, rfl⟩ := fdalloc_eq_some hd
      cases h₀
      exact .inr ⟨d, f, _, hd0, hf0, by simp, by simp, fun _ => rfl, Eq.refl _, Function.update_idem ..⟩

/-- Closing the only reference of a file of type `FD_NONE` frees its slot and touches no
pipe. -/
theorem closeFile_one_none {ft : FTable} {f : Fin NFILE} (h1 : (ft f).ref = 1)
    (hn : (ft f).type = .FD_NONE) (pipes : Pipes) :
    closeFile ft pipes f = .ok (Function.update ft f { ft f with type := .FD_NONE, ref := 0 }, pipes) := by
  rw [closeFile_of_one h1, if_neg (by simp [hn])]

/-- A `pipealloc` that fails gives back the slots it took, which were free of type
`FD_NONE`, and no pipe. -/
theorem pipealloc_fails {ft ft' : FTable} {pipes pipes' : Pipes} {pa : Option Nat}
    (hfree : ∀ g, (ft g).ref = 0 → (ft g).type = .FD_NONE)
    (h : pipealloc ft pipes pa = .ok (none, ft', pipes')) : KeepsLive ft ft' ∧ pipes' = pipes := by
  unfold pipealloc at h
  split at h
  · cases h
    exact ⟨.rfl ft, rfl⟩
  · next f0 ft₁ hf0 =>
    obtain ⟨hr0, hft₁⟩ := filealloc_eq_some hf0
    split at h
    · obtain ⟨⟨ft₂, pipes₂⟩, h₂, h⟩ := Except.bind_eq_ok.mp h
      rw [hft₁, closeFile_one_none (by simp) (by simp [hfree f0 hr0])] at h₂
      cases h₂
      cases h
      rw [Function.update_idem, Function.update_self]
      exact ⟨keepsLive_freed hr0, rfl⟩
    · next f1 ft₂ hf1 =>
      obtain ⟨hr1, hft₂⟩ := filealloc_eq_some hf1
      have hne : f1 ≠ f0 := by
        rintro rfl
        simp [hft₁] at hr1
      rw [hft₁, Function.update_of_ne hne] at hr1
      split at h
      · -- `kalloc` failed: both slots go back
        obtain ⟨⟨ft₃, pipes₃⟩, h₃, h⟩ := Except.bind_eq_ok.mp h
        rw [closeFile_one_none (by simp [hft₂, hft₁, Function.update_of_ne hne.symm])
          (by simp [hft₂, hft₁, Function.update_of_ne hne.symm, hfree f0 hr0])] at h₃
        cases h₃
        obtain ⟨⟨ft₄, pipes₄⟩, h₄, h⟩ := Except.bind_eq_ok.mp h
        rw [closeFile_one_none (by simp [hft₂, Function.update_of_ne hne])
          (by simp [hft₂, hft₁, Function.update_of_ne hne, hfree f1 hr1])] at h₄
        cases h₄
        cases h
        refine ⟨fun g => ?_, rfl⟩
        by_cases h1 : g = f1
        · subst h1
          simp [hr1]
        · by_cases h0 : g = f0
          · subst h0
            simp [Function.update_of_ne h1, hr0]
          · simp [Function.update_of_ne h1, Function.update_of_ne h0, hft₂, hft₁]
      · cases h

/-- A `pipealloc` that succeeds made two free slots the ends of a new pipe on a page that
held none. -/
theorem pipealloc_ok {ft ft' : FTable} {pipes pipes' : Pipes} {pa : Option Nat} {f0 f1 : Fin NFILE}
    (h : pipealloc ft pipes pa = .ok (some (f0, f1), ft', pipes')) :
    (ft f0).ref = 0 ∧ (ft f1).ref = 0 ∧ f0 ≠ f1 ∧ ∃ a, pipes a = none ∧ ft' = pipeEnds ft f0 f1 a ∧
      pipes' = Function.update pipes a (some (Pipe.init fun _ => 0)) := by
  unfold pipealloc at h
  split at h
  · cases h
  · next g0 ft₁ hf0 =>
    split at h
    · obtain ⟨_, -, h⟩ := Except.bind_eq_ok.mp h
      cases h
    · next g1 ft₂ hf1 =>
      split at h
      · obtain ⟨_, -, h⟩ := Except.bind_eq_ok.mp h
        obtain ⟨_, -, h⟩ := Except.bind_eq_ok.mp h
        cases h
      · next a ha =>
        cases h
        obtain ⟨hr0, rfl⟩ := filealloc_eq_some hf0
        obtain ⟨hr1, rfl⟩ := filealloc_eq_some hf1
        have hne : f1 ≠ f0 := by
          rintro rfl
          simp at hr1
        rw [Function.update_of_ne hne] at hr1
        have hpa : pipes a = none := by simpa using (Option.filter_eq_some_iff.mp ha).2
        refine ⟨hr0, hr1, hne.symm, a, hpa, funext fun g => ?_, rfl⟩
        by_cases h1 : g = f1
        · subst h1
          simp [pipeEnds, hne]
        · by_cases h0 : g = f0
          · subst h0
            simp [pipeEnds, Function.update_of_ne h1]
          · simp [pipeEnds, h0, h1]

/-- Closing the read end and then the write end of a new pipe frees its page. -/
theorem pipeclosePage_init (pipes : Pipes) {pa : Nat} (hpa : pipes pa = none) :
    pipeclosePage (pipeclosePage (Function.update pipes pa (some (Pipe.init fun _ => 0))) pa false) pa true =
      pipes := by
  funext a
  by_cases ha : a = pa
  · subst ha
    simp [pipeclosePage, pipeclose, Pipe.init, hpa]
  · rw [pipeclosePage_of_ne _ ha, pipeclosePage_of_ne _ ha, Function.update_of_ne ha]

namespace FSys

/-- What one call can do to the system. -/
inductive Effect (s : FSys) : FSys → Prop
  /-- No descriptor changes: a call that fails, sleeps or does nothing. Free slots may be
  written but stay free, the holds of free slots may end, and `nextpid` may grow. -/
  | frame {s' : FSys} (hprocs : s'.procs = s.procs) (hpipes : s'.pipes = s.pipes)
      (hft : KeepsLive s.ft s'.ft) (hheld : ∀ e ∈ s'.held, e ∈ s.held) (hkeep : ∀ e ∈ s.held, 0 < (s.ft e.2).ref → e ∈ s'.held)
      (hpid : s.nextpid ≤ s'.nextpid) : Effect s s'
  /-- `open` or `create_mutex`: descriptor `d` of `p` gets the free slot `f`, now the file `F`
  with one reference, not a pipe, and with a free lock if it is a mutex. -/
  | newFile {s' : FSys} {p : Fin NPROC} {P : FProc} {d : Fin NOFILE} {f : Fin NFILE} {F : File}
      (hP : s.procs p = some P) (hd : P.ofile d = none) (hf : (s.ft f).ref = 0) (href : F.ref = 1)
      (htype : F.type ≠ .FD_PIPE) (hmutex : F.type = .FD_MUTEX → F.mutex.locked = false)
      (hprocs : s'.procs =
        Function.update s.procs p (some { P with ofile := Function.update P.ofile d (some f) }))
      (hft : s'.ft = Function.update s.ft f F) (hpipes : s'.pipes = s.pipes) (hheld : s'.held = s.held)
      (hpid : s'.nextpid = s.nextpid) : Effect s s'
  /-- `dup`: descriptor `d` of `p` gets the open file `f`, which has one more reference. -/
  | dup {s' : FSys} {p : Fin NPROC} {P : FProc} {d : Fin NOFILE} {f : Fin NFILE}
      (hP : s.procs p = some P) (hd : P.ofile d = none) (hf : 0 < (s.ft f).ref)
      (hprocs : s'.procs =
        Function.update s.procs p (some { P with ofile := Function.update P.ofile d (some f) }))
      (hft : s'.ft = Function.update s.ft f { s.ft f with ref := (s.ft f).ref + 1 })
      (hpipes : s'.pipes = s.pipes) (hheld : s'.held = s.held) (hpid : s'.nextpid = s.nextpid) :
      Effect s s'
  /-- `close`: descriptor `d` of `p`, which holds `f`, is cleared and `f` closed. -/
  | close {s' : FSys} {p : Fin NPROC} {P : FProc} {d : Fin NOFILE} {f : Fin NFILE}
      (hP : s.procs p = some P) (hd : P.ofile d = some f) (h : s.closeDesc p P d f = .ok s') :
      Effect s s'
  /-- `pipe`: descriptors `fd0` and `fd1` of `p` get the free slots `f0` and `f1`, now the read
  end and the write end of a new pipe on the page `pa`. -/
  | pipe {s' : FSys} {p : Fin NPROC} {P : FProc} {fd0 fd1 : Fin NOFILE} {f0 f1 : Fin NFILE} {pa : Nat}
      (hP : s.procs p = some P) (hd0 : P.ofile fd0 = none) (hd1 : P.ofile fd1 = none) (hfd : fd0 ≠ fd1)
      (hf0 : (s.ft f0).ref = 0) (hf1 : (s.ft f1).ref = 0) (hf : f0 ≠ f1) (hpa : s.pipes pa = none)
      (hprocs : s'.procs = Function.update s.procs p
        (some { P with ofile := Function.update (Function.update P.ofile fd0 (some f0)) fd1 (some f1) }))
      (hft : s'.ft = pipeEnds s.ft f0 f1 pa)
      (hpipes : s'.pipes = Function.update s.pipes pa (some (Pipe.init fun _ => 0)))
      (hheld : s'.held = s.held) (hpid : s'.nextpid = s.nextpid) : Effect s s'
  /-- `fork`: the child, in the unused slot `np`, has the next pid and the descriptors of its
  parent `P`, whose files have that many more references. -/
  | fork {s' : FSys} {p np : Fin NPROC} {P : FProc} (hP : s.procs p = some P) (hnp : s.procs np = none)
      (hprocs : s'.procs = Function.update s.procs np (some ⟨s.nextpid, P.ofile⟩))
      (hft : ∀ g, s'.ft g = { s.ft g with ref := (s.ft g).ref + refsOf P.ofile g })
      (hpipes : s'.pipes = s.pipes) (hheld : s'.held = s.held) (hpid : s'.nextpid = s.nextpid + 1) :
      Effect s s'
  /-- `exit`: each descriptor of `p` is closed, then `p` leaves with its holds. -/
  | exit {s₁ s' : FSys} {p : Fin NPROC} {P : FProc} (hp0 : p ≠ 0) (hP : s.procs p = some P)
      (h : s.exitFiles p (List.finRange NOFILE) = .ok s₁)
      (hs' : s' = { s₁ with procs := Function.update s₁.procs p none,
                            held := s₁.held.filter (·.1 != p) }) : Effect s s'
  /-- An `acquire_mutex` that returns: `p` takes the free lock of the mutex file `f`. -/
  | acquire {s' : FSys} {p : Fin NPROC} {P : FProc} {d : Fin NOFILE} {f : Fin NFILE}
      (hP : s.procs p = some P) (hd : P.ofile d = some f) (htype : (s.ft f).type = .FD_MUTEX)
      (hfree : (s.ft f).mutex.locked = false)
      (hs' : s' = { s with ft := Function.update s.ft f { s.ft f with mutex := ⟨true, P.pid⟩ },
                           held := s.held ++ [(p, f)] }) : Effect s s'
  /-- A `release_mutex` that succeeds: `p` frees the lock it holds on the mutex file `f`. -/
  | release {s' : FSys} {p : Fin NPROC} {P : FProc} {d : Fin NOFILE} {f : Fin NFILE}
      (hP : s.procs p = some P) (hd : P.ofile d = some f) (htype : (s.ft f).type = .FD_MUTEX)
      (hlk : (s.ft f).mutex = ⟨true, P.pid⟩)
      (hs' : s' = { s with ft := Function.update s.ft f { s.ft f with mutex := ⟨false, 0⟩ },
                           held := s.held.filter (· != (p, f)) }) : Effect s s'

theorem Effect.refl (s : FSys) : Effect s s :=
  .frame rfl rfl (.rfl s.ft) (fun _ h => h) (fun _ h _ => h) le_rfl

/-- The slot of `p` written back with its own process. -/
theorem setProc_self {s : FSys} {p : Fin NPROC} {P : FProc} (hP : s.procs p = some P) :
    Function.update s.procs p (some P) = s.procs := by
  rw [← hP, Function.update_eq_self]

theorem opensFile_effect {s : FSys} {p : Fin NPROC} {P : FProc} (hP : s.procs p = some P) {ft : FTable}
    {of : OFile} (l : Log) (locks : List LockHome) (h : OpensFile s.ft ft P.ofile of) :
    Effect s { s.setProc p { P with ofile := of } with ft := ft, log := l, locks := locks } := by
  obtain ⟨rfl, hft⟩ | ⟨d, f, F, hd, hf, href, htype, hmutex, rfl, rfl⟩ := h
  · exact .frame (setProc_self hP) rfl hft (fun _ h => h) (fun _ h _ => h) le_rfl
  · exact .newFile hP hd hf href htype hmutex rfl rfl rfl rfl rfl

theorem fork_effect {s s' : FSys} {p np : Fin NPROC} {P : FProc} {ok : Bool} {r : Int}
    (hP : s.procs p = some P) (h : s.fork P np ok = .ok (r, s')) : Effect s s' := by
  unfold fork at h
  split at h
  · cases h
    exact .refl s
  · next hnp =>
    split at h
    · cases h
      exact .frame rfl rfl (.rfl s.ft) (fun _ h => h) (fun _ h _ => h) (Nat.le_succ _)
    · obtain ⟨ft, hft, h⟩ := Except.bind_eq_ok.mp h
      cases h
      exact .fork hP (Option.not_isSome_iff_eq_none.mp hnp) rfl (forkFiles_all hft) rfl rfl rfl

theorem exit_effect {s s' : FSys} {p : Fin NPROC} {P : FProc} (hP : s.procs p = some P)
    (h : s.exit p = .ok s') : Effect s s' := by
  unfold exit at h
  split at h
  · cases h
  · next hp0 =>
    obtain ⟨s₁, h₁, h⟩ := Except.bind_eq_ok.mp h
    cases h
    exact .exit hp0 hP h₁ rfl

theorem dup_effect {s s' : FSys} {p : Fin NPROC} {P : FProc} {fd r : Int} (hP : s.procs p = some P)
    (h : s.sys_dup p P fd = .ok (r, s')) : Effect s s' := by
  unfold sys_dup at h
  split at h
  · cases h
    exact .refl s
  · split at h
    · cases h
      exact .refl s
    · next f _ d of hfd =>
      obtain ⟨ft, hft, h⟩ := Except.bind_eq_ok.mp h
      cases h
      obtain ⟨hd, rfl⟩ := fdalloc_eq_some hfd
      unfold filedup at hft
      split at hft
      · cases hft
      · cases hft
        exact .dup hP hd (by omega) rfl rfl rfl rfl rfl

theorem close_effect {s s' : FSys} {p : Fin NPROC} {P : FProc} {fd r : Int} (hP : s.procs p = some P)
    (h : s.sys_close p P fd = .ok (r, s')) : Effect s s' := by
  unfold sys_close at h
  split at h
  · cases h
    exact .refl s
  · next d f hfd =>
    obtain ⟨s₁, h₁, h⟩ := Except.bind_eq_ok.mp h
    cases h
    exact .close hP (argfd_eq_some hfd) h₁

theorem acquire_effect {s : FSys} {p : Fin NPROC} {P : FProc} (hP : s.procs p = some P) (fd : Int) :
    Effect s (s.sys_acquire_mutex p P fd).2 := by
  unfold sys_acquire_mutex
  split
  · exact .refl s
  · next d f hfd =>
    split
    · exact .refl s
    · next htype =>
      split
      · exact .refl s
      · next lk hlk =>
        unfold acquiresleep at hlk
        split at hlk
        · cases hlk
        · next hfree =>
          cases hlk
          exact .acquire hP (argfd_eq_some hfd) (not_not.mp htype) (by simpa using hfree) rfl

theorem release_effect {s : FSys} {p : Fin NPROC} {P : FProc} (hP : s.procs p = some P) (fd : Int) :
    Effect s (s.sys_release_mutex p P fd).2 := by
  unfold sys_release_mutex
  split
  · exact .refl s
  · next d f hfd =>
    split
    · exact .refl s
    · next hcond =>
      simp only [not_or, not_not, Bool.not_eq_false, holdingsleep, Bool.and_eq_true, beq_iff_eq] at hcond
      obtain ⟨htype, hlocked, hpid⟩ := hcond
      have hlk : (s.ft f).mutex = ⟨true, P.pid⟩ := by
        rw [← hlocked, ← hpid]
      exact .release hP (argfd_eq_some hfd) htype hlk rfl

end FSys

namespace FSys

/-- The failure path of `sys_pipe` after `pipealloc`: both ends are closed, which frees their
slots and the pipe's page. -/
theorem pipe_bad_effect {s s₁ s' : FSys} {f0 f1 : Fin NFILE} {pa : Nat} {r : Int}
    (h : (do
        let s ← s₁.fileclose f0
        let s ← s.fileclose f1
        pure (-1, s) : Except String (Int × FSys)) = .ok (r, s'))
    (hf0 : (s.ft f0).ref = 0) (hf1 : (s.ft f1).ref = 0) (hf : f0 ≠ f1) (hpa : s.pipes pa = none)
    (hprocs : s₁.procs = s.procs) (hheld : s₁.held = s.held) (hpid : s₁.nextpid = s.nextpid)
    (hft : s₁.ft = pipeEnds s.ft f0 f1 pa)
    (hpipes : s₁.pipes = Function.update s.pipes pa (some (Pipe.init fun _ => 0))) : Effect s s' := by
  have h0 : s₁.ft f0 =
      { s.ft f0 with type := .FD_PIPE, ref := 1, readable := true, writable := false, pipe := pa } := by
    simp [hft, pipeEnds]
  have h1 : s₁.ft f1 =
      { s.ft f1 with type := .FD_PIPE, ref := 1, readable := false, writable := true, pipe := pa } := by
    simp [hft, pipeEnds, Ne.symm hf]
  rw [fileclose_one (by simp [h0]), Except.ok_bind, fileclose_one (by simp [Function.update_of_ne (Ne.symm hf), h1]),
    Except.ok_bind] at h
  cases h
  refine .frame hprocs ?_ (fun g => ?_) ?_ ?_ (le_of_eq hpid.symm)
  · simp only [h0, h1, Function.update_of_ne (Ne.symm hf), if_true, hpipes]
    exact pipeclosePage_init s.pipes hpa
  · by_cases hg1 : g = f1
    · subst hg1
      simp [hf1]
    · by_cases hg0 : g = f0
      · subst hg0
        simp [Function.update_of_ne hg1, hf0]
      · left
        simp [hft, pipeEnds, hg0, hg1]
  · intro e he
    simp only [List.mem_filter, hheld] at he
    exact he.1.1
  · intro e he hpos
    have he0 : e.2 ≠ f0 := fun h => by rw [h] at hpos; omega
    have he1 : e.2 ≠ f1 := fun h => by rw [h] at hpos; omega
    simp [List.mem_filter, hheld, he, he0, he1]

/-- The effect of `sys_pipe`: a new pipe with two new descriptors, or nothing but slots taken
and given back. -/
theorem pipe_effect {s s' : FSys} {p : Fin NPROC} {P : FProc} {pa : Option Nat} {copyok : Bool} {r : Int}
    (hfree : ∀ g, (s.ft g).ref = 0 → (s.ft g).type = .FD_NONE) (hP : s.procs p = some P)
    (h : s.sys_pipe p P pa copyok = .ok (r, s')) : Effect s s' := by
  unfold sys_pipe at h
  obtain ⟨⟨res, ft, pipes⟩, ha, h⟩ := Except.bind_eq_ok.mp h
  cases res with
  | none =>
    obtain ⟨hkeep, rfl⟩ := pipealloc_fails hfree ha
    cases h
    exact .frame rfl rfl hkeep (fun _ h => h) (fun _ h _ => h) le_rfl
  | some fs =>
    obtain ⟨f0, f1⟩ := fs
    obtain ⟨hf0, hf1, hf, a, hpa, rfl, rfl⟩ := pipealloc_ok ha
    dsimp only at h
    split at h
    · exact pipe_bad_effect h hf0 hf1 hf hpa rfl rfl rfl rfl rfl
    · next fd0 of₁ hfd0 =>
      obtain ⟨hd0, rfl⟩ := fdalloc_eq_some hfd0
      split at h
      · refine pipe_bad_effect h hf0 hf1 hf hpa ?_ rfl rfl rfl rfl
        simp only [setProc_procs]
        rw [Function.update_idem, ← hd0, Function.update_eq_self]
        exact setProc_self hP
      · next fd1 of₂ hfd1 =>
        obtain ⟨hd1, rfl⟩ := fdalloc_eq_some hfd1
        have hne : fd0 ≠ fd1 := by
          rintro rfl
          simp at hd1
        rw [Function.update_of_ne (Ne.symm hne)] at hd1
        split at h
        · cases h
          exact .pipe hP hd0 hd1 hne hf0 hf1 hf hpa rfl rfl rfl rfl rfl
        · refine pipe_bad_effect h hf0 hf1 hf hpa ?_ rfl rfl rfl rfl
          have hof : Function.update (Function.update (Function.update (Function.update P.ofile fd0 (some f0))
              fd1 (some f1)) fd0 none) fd1 none = P.ofile := by
            funext d
            by_cases h1 : d = fd1
            · subst h1
              simp [hd1]
            · by_cases h0 : d = fd0
              · subst h0
                simp [Function.update_of_ne h1, hd0]
              · simp [Function.update_of_ne h1, Function.update_of_ne h0]
          simp only [setProc_procs, hof]
          exact setProc_self hP

theorem byProc_effect {s s' : FSys} {p : Fin NPROC} {k : FProc → Except String FSys}
    (h : s.byProc p k = .ok s') (hk : ∀ P, s.procs p = some P → k P = .ok s' → Effect s s') : Effect s s' := by
  unfold byProc at h
  split at h
  · cases h
    exact .refl s
  · next P hP => exact hk P hP h

theorem snd_map_eq_ok {x : Except String (Int × FSys)} {s' : FSys} (h : Prod.snd <$> x = .ok s') :
    ∃ r, x = .ok (r, s') := by
  cases x with
  | error e => cases h
  | ok v =>
    cases h
    exact ⟨v.1, rfl⟩

/-- Every call does one of the things `Effect` lists, from a state whose free slots are of type
`FD_NONE`. -/
theorem step_effect {s s' : FSys} {c : FCall} (hfree : ∀ g, (s.ft g).ref = 0 → (s.ft g).type = .FD_NONE)
    (h : s.step c = .ok s') : Effect s s' := by
  cases c with
  | fork p np ok =>
    refine byProc_effect h fun P hP h => ?_
    obtain ⟨r, h⟩ := snd_map_eq_ok h
    exact fork_effect hP h
  | exit p => exact byProc_effect h fun P hP h => exit_effect hP h
  | «open» p itype imajor iminor omode =>
    refine byProc_effect h fun P hP h => ?_
    obtain ⟨⟨r, ft, of⟩, h₁, h⟩ := Except.bind_eq_ok.mp h
    cases h
    exact opensFile_effect hP s.log s.locks (sys_open_opensFile h₁)
  | dup p fd =>
    refine byProc_effect h fun P hP h => ?_
    obtain ⟨r, h⟩ := snd_map_eq_ok h
    exact dup_effect hP h
  | close p fd =>
    refine byProc_effect h fun P hP h => ?_
    obtain ⟨r, h⟩ := snd_map_eq_ok h
    exact close_effect hP h
  | pipe p pa copyok =>
    refine byProc_effect h fun P hP h => ?_
    obtain ⟨r, h⟩ := snd_map_eq_ok h
    exact pipe_effect hfree hP h
  | create_mutex p =>
    refine byProc_effect h fun P hP h => ?_
    obtain ⟨⟨r, ft, of, l, locks⟩, h₁, h⟩ := Except.bind_eq_ok.mp h
    cases h
    exact opensFile_effect hP l locks (create_mutex_opensFile h₁)
  | acquire_mutex p fd =>
    refine byProc_effect h fun P hP h => ?_
    cases h
    exact acquire_effect hP fd
  | release_mutex p fd =>
    refine byProc_effect h fun P hP h => ?_
    cases h
    exact release_effect hP fd

end FSys

end Xv6
