import Xv6.Vm.Uvm
import Xv6.Vm.Copy
import Xv6.Vm.Free

/-!
# `exec`

`exec.c`'s `exec` and `loadseg`, with `proc.c`'s `proc_pagetable` and
`proc_freepagetable` and `vm.c`'s `uvmcreate`, `uvmclear` and `uvmfree`, over
the page-table model; and `string.c`'s `strjoin`, which builds `p->cmd`.

The file is its bytes: `readi` into the kernel reads what there is from an
offset on, and the ELF and program headers are read from them little-endian.
A panic is `.error`; `none` is `freewalk` going deeper than three levels, as in
`Xv6.Vm.Free`. The log (`begin_op`, `end_op`), the inode's lock and reference,
and `p->cmd`'s allocation are left out of `exec`.

* `exec_unreadable_phdr_leaks`: when the first program header cannot be read,
  `exec` jumps to `bad` with `sz = 0`; `proc_freepagetable(pagetable, 0)` then
  skips `uvmfree`, and the table pages `proc_pagetable` took are never given
  back, though `exec` returns `-1` with the process as it was.
* `strjoin_in_block_iff`: `strjoin` writes only inside the `n` bytes it asked
  `bd_malloc` for exactly when `argv` is not empty; for an empty one it writes
  `d[-1]`.
-/

namespace Xv6

/-! ## Bytes and headers -/

/-- Bytes read as a little-endian number. -/
def decodeLE : List UInt8 → Nat
  | [] => 0
  | b :: bs => b.toNat + 256 * decodeLE bs

/-- The `n` bytes of the little-endian form of `x`. -/
def encodeLE : Nat → Nat → List UInt8
  | 0, _ => []
  | n + 1, x => UInt8.ofNat x :: encodeLE n (x / 256)

/-- The field of `n` bytes at offset `off` of a structure read as bytes. -/
def field (bs : List UInt8) (off n : Nat) : Nat := decodeLE ((bs.drop off).take n)

/-- `readi(ip, 0, dst, off, n)` into the kernel, from a file of bytes `file`:
`none` for `-1`, else the bytes read, as many as there are up to `n`. -/
def readiFile (file : List UInt8) (off n : Nat) : Option (List UInt8) :=
  if off > file.length ∨ off + n ≥ 2 ^ 32 then none else some ((file.drop off).take n)

def ELF_MAGIC : Nat := 0x464C457F
def ELF_PROG_LOAD : Nat := 1
def MAXARG : Nat := 32

/-- `sizeof(struct elfhdr)` and `sizeof(struct proghdr)`. -/
def elfhdrSize : Nat := 64
def proghdrSize : Nat := 56

/-- The fields of `struct elfhdr` that `exec` reads. -/
structure Elfhdr where
  magic : Nat
  entry : Nat
  phoff : Nat
  phnum : Nat

def Elfhdr.ofBytes (bs : List UInt8) : Elfhdr := ⟨field bs 0 4, field bs 24 8, field bs 32 8, field bs 56 2⟩

/-- The fields of `struct proghdr` that `exec` reads. -/
structure Proghdr where
  type : Nat
  off : Nat
  vaddr : Nat
  filesz : Nat
  memsz : Nat

def Proghdr.ofBytes (bs : List UInt8) : Proghdr :=
  ⟨field bs 0 4, field bs 8 8, field bs 16 8, field bs 32 8, field bs 40 8⟩

/-- `a - b` in `uint64`. -/
def sub64 (a b : Nat) : Nat := (a + 2 ^ 64 - b % 2 ^ 64) % 2 ^ 64

/-! ## Page tables of a process -/

/-- `uvmcreate`: a zeroed page for the root table; none left is a panic. -/
def uvmcreate (m : Mem) : Except String (Nat × Mem) :=
  match m.kalloc with
  | none => throw "uvmcreate: out of memory"
  | some (pa, m) => pure (pa, m.zeroPage pa)

/-- `proc_pagetable(p)`: an empty table with the trampoline code at
`TRAMPOLINE` and the trapframe `tf` at `TRAPFRAME`; `mappages`' results are
not checked. -/
def proc_pagetable (m : Mem) (trampoline tf : Nat) : Except String (Nat × Mem) := do
  let (pagetable, m) ← uvmcreate m
  let (_, m) ← mappages m pagetable TRAMPOLINE PGSIZE trampoline (PTE_R ||| PTE_X)
  let (_, m) ← mappages m pagetable TRAPFRAME PGSIZE tf (PTE_R ||| PTE_W)
  pure (pagetable, m)

/-- A call that cannot run `freewalk`, in the monad of those that can. -/
def liftE {α : Type} (e : Except String α) : ExceptT String Option α := ExceptT.mk (some e)

/-- `uvmfree`: the user pages, then the table pages. -/
def uvmfree (m : Mem) (pagetable sz : Nat) : ExceptT String Option Mem := do
  let m ← liftE (uvmunmap m pagetable 0 sz true)
  ExceptT.mk (freewalk 3 m pagetable)

/-- `proc_freepagetable`: the trampoline and trapframe mappings removed, then
`uvmfree` if `sz > 0`. -/
def proc_freepagetable (m : Mem) (pagetable sz : Nat) : ExceptT String Option Mem := do
  let m ← liftE (uvmunmap m pagetable TRAMPOLINE PGSIZE false)
  let m ← liftE (uvmunmap m pagetable TRAPFRAME PGSIZE false)
  if sz > 0 then uvmfree m pagetable sz else pure m

/-- `uvmclear`: the page at `va` made inaccessible to user mode. -/
def uvmclear (m : Mem) (pagetable va : Nat) : Except String Mem := do
  match ← walk m pagetable va false with
  | (none, _) => throw "uvmclear"
  | (some (pt, i), m) => pure (m.setPTE pt i (m.tbl pt i &&& (2 ^ 64 - 1 - PTE_U)))

/-! ## Loading -/

/-- `loadseg`'s loop from byte `i` of the segment, with `fuel` rounds: each
page's part of the file read into its frame; `-1` when `readi` comes back
short. -/
def loadsegLoop (file : List UInt8) (pagetable va offset sz : Nat) : Nat → Mem → Nat → Except String (Int × Mem)
  | 0, m, _ => .ok (0, m)
  | fuel + 1, m, i =>
    if i < sz then
      let pa := walkaddr m pagetable (va + i)
      if pa = 0 then throw "loadseg: address should exist"
      else
        let n := if sz - i < PGSIZE then sz - i else PGSIZE
        match readiFile file ((offset + i) % 2 ^ 32) n with
        | none => .ok (-1, m)
        | some bs =>
          if bs.length = n then loadsegLoop file pagetable va offset sz fuel (m.writeBytes pa bs) (i + PGSIZE)
          else .ok (-1, m.writeBytes pa bs)
    else .ok (0, m)

/-- `loadseg(pagetable, va, ip, offset, sz)`. -/
def loadseg (m : Mem) (file : List UInt8) (pagetable va offset sz : Nat) : Except String (Int × Mem) :=
  if va % PGSIZE ≠ 0 then throw "loadseg: va must be page aligned"
  else loadsegLoop file pagetable va offset sz ((sz + PGSIZE - 1) / PGSIZE) m 0

/-- `exec`'s loop over the program headers, from the `i`-th with `n` left and
the size `sz` so far: whether it ends without `goto bad`, the size then, and
the memory. -/
def loadLoop (file : List UInt8) (phoff pagetable : Nat) : Nat → Mem → Nat → Nat → Except String (Bool × Nat × Mem)
  | 0, m, _, sz => pure (true, sz, m)
  | n + 1, m, i, sz =>
    match readiFile file ((phoff + proghdrSize * i) % 2 ^ 32) proghdrSize with
    | none => pure (false, sz, m)
    | some bs =>
      if bs.length ≠ proghdrSize then pure (false, sz, m)
      else
        let ph := Proghdr.ofBytes bs
        if ph.type ≠ ELF_PROG_LOAD then loadLoop file phoff pagetable n m (i + 1) sz
        else if ph.memsz < ph.filesz then pure (false, sz, m)
        else if (ph.vaddr + ph.memsz) % 2 ^ 64 < ph.vaddr then pure (false, sz, m)
        else do
          let (sz, m) ← uvmalloc m pagetable sz ((ph.vaddr + ph.memsz) % 2 ^ 64)
          if sz = 0 then pure (false, sz, m)
          else if ph.vaddr % PGSIZE ≠ 0 then pure (false, sz, m)
          else do
            let (r, m) ← loadseg m file pagetable ph.vaddr (ph.off % 2 ^ 32) (ph.filesz % 2 ^ 32)
            if r < 0 then pure (false, sz, m) else loadLoop file phoff pagetable n m (i + 1) sz

/-- Pushing the argument strings, from the `argc`-th: whether it ends without
`goto bad`, the stack pointer, the addresses pushed, and the memory. -/
def pushArgs (pagetable stackbase : Nat) : List (List UInt8) → Mem → Nat → Nat → List Nat →
    Bool × Nat × List Nat × Mem
  | [], m, _, sp, ustack => (true, sp, ustack, m)
  | a :: as, m, argc, sp, ustack =>
    if argc ≥ MAXARG then (false, sp, ustack, m)
    else
      let sp := sub64 sp (a.length + 1)
      let sp := sp - sp % 16
      if sp < stackbase then (false, sp, ustack, m)
      else
        let (r, m) := copyout m pagetable sp (a ++ [0])
        if r < 0 then (false, sp, ustack, m) else pushArgs pagetable stackbase as m (argc + 1) sp (ustack ++ [sp])

/-- What `exec` reads and writes of the calling process: its page table and
size, the trapframe's page and the registers it sets, and its name. -/
structure ExecProc where
  pagetable : Nat
  sz : Nat
  tf : Nat
  epc : Nat
  sp : Nat
  a1 : Nat
  name : List Char
deriving DecidableEq

/-- The last element of a path, from which `exec` names the process. -/
def lastElem (path : List Char) : List Char := (path.reverse.takeWhile (· ≠ '/')).reverse

/-- `exec(path, argv)` with `file` what `namei(path)` finds, `none` for `0`:
the result, the memory and the process. -/
def exec (m : Mem) (p : ExecProc) (trampoline : Nat) (file : Option (List UInt8)) (path : List Char)
    (argv : List (List UInt8)) : ExceptT String Option (Int × Mem × ExecProc) :=
  match file with
  | none => pure (-1, m, p)
  | some file =>
    match readiFile file 0 elfhdrSize with
    | none => pure (-1, m, p)
    | some bs =>
      if bs.length ≠ elfhdrSize then pure (-1, m, p)
      else if (Elfhdr.ofBytes bs).magic ≠ ELF_MAGIC then pure (-1, m, p)
      else do
        let elf := Elfhdr.ofBytes bs
        let (pagetable, m) ← liftE (proc_pagetable m trampoline p.tf)
        -- `bad:` with the page table made and the size `sz` reached
        let bad := fun (m : Mem) (sz : Nat) => do
          let m ← proc_freepagetable m pagetable sz
          pure ((-1 : Int), m, p)
        let (ok, sz, m) ← liftE (loadLoop file elf.phoff pagetable elf.phnum m 0 0)
        if !ok then bad m sz
        else
          let sz := PGROUNDUP sz
          let (sz, m) ← liftE (uvmalloc m pagetable sz ((sz + 2 * PGSIZE) % 2 ^ 64))
          if sz = 0 then bad m sz
          else do
            let m ← liftE (uvmclear m pagetable (sub64 sz (2 * PGSIZE)))
            let stackbase := sub64 sz PGSIZE
            let (ok, sp, ustack, m) := pushArgs pagetable stackbase argv m 0 sz []
            if !ok then bad m sz
            else
              let sp := sub64 sp ((ustack.length + 1) * 8)
              let sp := sp - sp % 16
              if sp < stackbase then bad m sz
              else
                let (r, m) := copyout m pagetable sp ((ustack ++ [0]).flatMap (encodeLE 8))
                if r < 0 then bad m sz
                else do
                  let m ← proc_freepagetable m p.pagetable p.sz
                  pure (ustack.length, m,
                    { p with pagetable := pagetable, sz := sz, epc := elf.entry, sp := sp, a1 := sp,
                             name := (lastElem path).take 15 })

/-- An ELF file whose one program header lies past its end: `exec` returns
`-1` and leaves the process as it was, but of the four free pages only one is
left, the three table pages `proc_pagetable` took being lost. -/
theorem exec_unreadable_phdr_leaks :
    let m : Mem := ⟨fun _ _ => 0, fun _ => 0, [0x10000, 0x11000, 0x12000, 0x13000]⟩
    let p : ExecProc := ⟨0x20000, 4096, 0x30000, 0, 0, 0, []⟩
    let file : List UInt8 := [0x7F, 0x45, 0x4C, 0x46] ++ List.replicate 28 0 ++ [64] ++
      List.replicate 23 0 ++ [1] ++ List.replicate 7 0
    ∃ m', (exec m p 0x80000 (some file) ['/', 'x'] []).run = some (.ok (-1, m', p)) ∧ m'.free = [0x13000] := by
  intro m p file
  have h : (exec m p 0x80000 (some file) ['/', 'x'] []).run.map (fun r => r.map fun x => (x.1, x.2.1.free, x.2.2)) =
      some (.ok (-1, [0x13000], p)) := by decide
  obtain ⟨r, hr, hmap⟩ := Option.map_eq_some_iff.mp h
  cases r with
  | error e => cases hmap
  | ok x =>
    obtain ⟨res, m', p'⟩ := x
    simp only [Except.map, Except.ok.injEq, Prod.mk.injEq] at hmap
    obtain ⟨rfl, hfree, rfl⟩ := hmap
    exact ⟨m', hr, hfree⟩

/-! ## `strjoin` -/

/-- `safestrcpy(s, t, n)`'s loop with `k` copies left: the bytes it writes
from `s` on, copying the C string `t` (its bytes, then a NUL) up to its NUL,
then a NUL. -/
def safestrcpyLoop : Nat → List UInt8 → List UInt8
  | 0, _ => [0]
  | _ + 1, [] => [0, 0]
  | k + 1, c :: t => c :: safestrcpyLoop k t

/-- `safestrcpy(s, t, n)`: at most `n - 1` bytes copied, then a NUL. -/
def safestrcpy (t : List UInt8) (n : Int) : List UInt8 :=
  if n ≤ 0 then [] else safestrcpyLoop (n.toNat - 1) t

/-- The writes of the bytes `cs` from address `d` on. -/
def writesAt (d : Int) : List UInt8 → List (Int × UInt8)
  | [] => []
  | c :: cs => (d, c) :: writesAt (d + 1) cs

/-- `strjoin`'s second loop from the address `d`: each string copied with
`safestrcpy`, its NUL then overwritten by a space. The writes, in order, and
`d` after them. -/
def strjoinLoop : List (List UInt8) → Int → List (Int × UInt8) × Int
  | [], d => ([], d)
  | s :: ss, d =>
    let r := strjoinLoop ss (d + (s.length : Int) + 1)
    (writesAt d (safestrcpy s ((s.length : Int) + 1)) ++ (d + (s.length : Int), 32) :: r.1, r.2)

/-- `strjoin(argv)` with `d` the address `bd_malloc(n)` returned: the `n` it
asks for, and its writes, the last the `d[-1] = 0` after the loop. -/
def strjoin (argv : List (List UInt8)) (d : Int) : Nat × List (Int × UInt8) :=
  let n := (argv.map fun s => s.length + 1).sum
  let r := strjoinLoop argv d
  (n, r.1 ++ [(r.2 - 1, 0)])

theorem mem_writesAt {d : Int} {cs : List UInt8} {w : Int × UInt8} (hw : w ∈ writesAt d cs) :
    d ≤ w.1 ∧ w.1 < d + cs.length := by
  induction cs generalizing d with
  | nil => cases hw
  | cons c cs ih =>
    rcases List.mem_cons.mp hw with rfl | hw
    · refine ⟨Int.le_refl d, ?_⟩
      simp only [List.length_cons]
      omega
    · have := ih hw
      simp only [List.length_cons]
      omega

theorem safestrcpyLoop_length (s : List UInt8) : safestrcpyLoop s.length s = s ++ [0] := by
  induction s with
  | nil => rfl
  | cons c s ih => simp [safestrcpyLoop, ih]

theorem safestrcpy_length (s : List UInt8) : safestrcpy s ((s.length : Int) + 1) = s ++ [0] := by
  rw [safestrcpy, if_neg (by omega)]
  rw [show ((s.length : Int) + 1).toNat - 1 = s.length from rfl, safestrcpyLoop_length]

/-- The loop writes inside the `n` bytes from `d` on, and ends `n` bytes on. -/
theorem strjoinLoop_spec (argv : List (List UInt8)) (d : Int) :
    (strjoinLoop argv d).2 = d + ((argv.map fun s => s.length + 1).sum : Nat) ∧
      ∀ w ∈ (strjoinLoop argv d).1, d ≤ w.1 ∧ w.1 < d + ((argv.map fun s => s.length + 1).sum : Nat) := by
  induction argv generalizing d with
  | nil => simp [strjoinLoop]
  | cons s ss ih =>
    obtain ⟨hend, hin⟩ := ih (d + (s.length : Int) + 1)
    simp only [strjoinLoop, List.map_cons, List.sum_cons]
    refine ⟨by rw [hend]; omega, fun w hw => ?_⟩
    rw [List.mem_append, List.mem_cons] at hw
    rcases hw with hw | rfl | hw
    · -- the copy of `s` with its NUL
      rw [safestrcpy_length] at hw
      have := mem_writesAt hw
      simp only [List.length_append, List.length_singleton] at this
      constructor <;> omega
    · constructor <;> omega
    · obtain ⟨h₁, h₂⟩ := hin w hw
      constructor <;> omega

/-- `strjoin` writes only inside the bytes it asked for exactly when `argv` is
not empty: for an empty one it asks for `0` bytes and writes `d[-1]`. -/
theorem strjoin_in_block_iff (argv : List (List UInt8)) (d : Int) :
    (∀ w ∈ (strjoin argv d).2, d ≤ w.1 ∧ w.1 < d + (strjoin argv d).1) ↔ argv ≠ [] := by
  obtain ⟨hend, hin⟩ := strjoinLoop_spec argv d
  constructor
  · rintro h rfl
    have := (h _ (List.mem_append_right _ (List.mem_singleton_self _))).1
    simp [strjoinLoop] at this
  · intro hne w hw
    -- the strings ask for at least one byte each
    have hpos : 0 < (argv.map fun s => s.length + 1).sum := by
      obtain ⟨s, ss, rfl⟩ := List.exists_cons_of_ne_nil hne
      simp only [List.map_cons, List.sum_cons]
      omega
    simp only [strjoin, List.mem_append, List.mem_singleton] at hw ⊢
    rcases hw with hw | rfl
    · exact hin w hw
    · rw [hend]
      constructor <;> omega

end Xv6
