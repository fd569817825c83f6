import Xv6.Vm.Map

/-!
# Growing, shrinking and copying an address space

`vm.c`'s `uvmalloc`, `uvmdealloc` and `uvmcopy`, `proc.c`'s `growproc`, and
`sys_sbrk`, over the page-table model of `Xv6.Vm.Map`. A panic is `.error` with
its message. A data page's bytes are `Mem.bytes`; `memset` and `memmove` of a
page write them.

* `sbrk_below_zero_succeeds`: `growproc` keeps the size in a 32-bit `uint`;
  asked to shrink below `0`, `sz + n` wraps to a size above `sz`, `uvmdealloc`
  leaves the size, and `sbrk` returns the old size with nothing changed, as
  if it had succeeded.
* `uvmcopy_first_kalloc_fails`: when `kalloc` fails on the first page,
  `uvmcopy`'s error path calls `uvmunmap(new, 0, 0, 1)`, whose size `0` wraps
  around the address space, and panics at page `0`, which `new` never mapped.
-/

namespace Xv6

/-- The flags of a user page: `PTE_W|PTE_X|PTE_R|PTE_U`. -/
def userPerm : Nat := PTE_W ||| PTE_X ||| PTE_R ||| PTE_U

/-- A `uint64` read into an `int`: its low 32 bits, signed. -/
def toInt32 (x : Nat) : Int := if x % 2 ^ 32 < 2 ^ 31 then (x % 2 ^ 32 : Nat) else (x % 2 ^ 32 : Nat) - 2 ^ 32

namespace Mem

/-- `memset(mem, 0, PGSIZE)` on a data page. -/
def clearPage (m : Mem) (pa : Nat) : Mem :=
  { m with bytes := fun b => if pa ≤ b ∧ b < pa + PGSIZE then 0 else m.bytes b }

/-- `memmove(dst, src, PGSIZE)`. -/
def copyPage (m : Mem) (dst src : Nat) : Mem :=
  { m with bytes := fun b => if dst ≤ b ∧ b < dst + PGSIZE then m.bytes (src + (b - dst)) else m.bytes b }

@[simp] theorem clearPage_free (m : Mem) (pa : Nat) : (m.clearPage pa).free = m.free := rfl
@[simp] theorem clearPage_tbl (m : Mem) (pa : Nat) : (m.clearPage pa).tbl = m.tbl := rfl
@[simp] theorem copyPage_free (m : Mem) (dst src : Nat) : (m.copyPage dst src).free = m.free := rfl
@[simp] theorem copyPage_tbl (m : Mem) (dst src : Nat) : (m.copyPage dst src).tbl = m.tbl := rfl

end Mem

/-- `uvmdealloc`: the pages from `PGROUNDUP(newsz)` up to `oldsz` unmapped and
freed; the new size, or `oldsz` when it is not a shrink. -/
def uvmdealloc (m : Mem) (pagetable oldsz newsz : Nat) : Except String (Nat × Mem) :=
  if newsz ≥ oldsz then .ok (oldsz, m)
  else
    let newup := PGROUNDUP newsz
    if newup < PGROUNDUP oldsz then do
      let m ← uvmunmap m pagetable newup (oldsz - newup) true
      pure (newsz, m)
    else .ok (newsz, m)

/-- `uvmalloc`'s loop from page `a`, `oldsz` already rounded up, with `n`
rounds of fuel: a zeroed page mapped at each page below `newsz`; on a failed
`kalloc` or `mappages` the pages mapped so far are given back and the result
is `0`. -/
def uvmallocLoop (pagetable oldsz newsz : Nat) : Nat → Mem → Nat → Except String (Nat × Mem)
  | 0, m, _ => .ok (newsz, m)
  | n + 1, m, a =>
    if a < newsz then
      match m.kalloc with
      | none => do
        let (_, m) ← uvmdealloc m pagetable a oldsz
        pure (0, m)
      | some (mem, m) => do
        let (r, m) ← mappages (m.clearPage mem) pagetable a PGSIZE mem userPerm
        if r = 0 then uvmallocLoop pagetable oldsz newsz n m ((a + PGSIZE) % 2 ^ 64)
        else do
          let (_, m) ← uvmdealloc (m.kfree mem) pagetable a oldsz
          pure (0, m)
    else .ok (newsz, m)

/-- `uvmalloc`: grow from `oldsz` to `newsz`; the new size, `oldsz` when it is
not a growth, or `0` on failure. -/
def uvmalloc (m : Mem) (pagetable oldsz newsz : Nat) : Except String (Nat × Mem) :=
  if newsz < oldsz then .ok (oldsz, m)
  else
    let a := PGROUNDUP oldsz
    uvmallocLoop pagetable a newsz ((newsz - a + PGSIZE - 1) / PGSIZE) m a

/-- `growproc(n)` for a process of size `psz`: the result, the memory and the
new `p->sz`. The size is kept in a 32-bit `uint` meanwhile, and `sz + n` is
taken in it. -/
def growproc (m : Mem) (pagetable psz : Nat) (n : Int) : Except String (Int × Mem × Nat) :=
  let sz := psz % 2 ^ 32
  if n > 0 then do
    let (sz', m) ← uvmalloc m pagetable sz ((sz + n) % 2 ^ 32).toNat
    if sz' % 2 ^ 32 = 0 then pure (-1, m, psz) else pure (0, m, sz' % 2 ^ 32)
  else if n < 0 then do
    let (sz', m) ← uvmdealloc m pagetable sz ((sz + n) % 2 ^ 32).toNat
    pure (0, m, sz' % 2 ^ 32)
  else pure (0, m, sz)

/-- `sys_sbrk(n)`: the old size, read into an `int`, or `-1`; with the memory
and the new `p->sz`. -/
def sys_sbrk (m : Mem) (pagetable psz : Nat) (n : Int) : Except String (Int × Mem × Nat) := do
  let addr := toInt32 psz
  let (r, m, sz) ← growproc m pagetable psz n
  if r < 0 then pure (-1, m, sz) else pure (addr, m, sz)

/-- `uvmcopy`'s loop from page `i`, with `n` rounds of fuel: each page of `old`
below `sz` copied into a new page mapped at the same address of `new` with the
same flags; on a failed `kalloc` or `mappages`, `uvmunmap(new, 0, i, 1)` and
`-1`. -/
def uvmcopyLoop (old new sz : Nat) : Nat → Mem → Nat → Except String (Int × Mem)
  | 0, m, _ => .ok (0, m)
  | n + 1, m, i =>
    if i < sz then do
      match ← walk m old i false with
      | (none, _) => throw "uvmcopy: pte should exist"
      | (some (pt, j), m) =>
        let pte := m.tbl pt j
        if pte &&& PTE_V = 0 then throw "uvmcopy: page not present"
        else
          match m.kalloc with
          | none => do
            let m ← uvmunmap m new 0 i true
            pure (-1, m)
          | some (mem, m) => do
            let (r, m) ← mappages (m.copyPage mem (PTE2PA pte)) new i PGSIZE mem (PTE_FLAGS pte)
            if r = 0 then uvmcopyLoop old new sz n m ((i + PGSIZE) % 2 ^ 64)
            else do
              let m ← uvmunmap (m.kfree mem) new 0 i true
              pure (-1, m)
    else .ok (0, m)

/-- `uvmcopy(old, new, sz)`: `0`, or `-1` after giving back what was copied. -/
def uvmcopy (m : Mem) (old new sz : Nat) : Except String (Int × Mem) :=
  uvmcopyLoop old new sz ((sz + PGSIZE - 1) / PGSIZE) m 0

/-! ## `sbrk` below zero -/

theorem toInt32_of_lt {x : Nat} (hx : x < 2 ^ 31) : toInt32 x = x := by
  unfold toInt32
  rw [Nat.mod_eq_of_lt (by omega), if_pos hx]

/-- A shrink of the 32-bit size below `0` wraps to a size above it, which
`uvmdealloc` takes as no shrink. -/
theorem growproc_below_zero (m : Mem) (pagetable sz : Nat) (n : Int) (hsz : sz < 2 ^ 31)
    (hn : -2 ^ 31 ≤ n) (hneg : (sz : Int) + n < 0) :
    growproc m pagetable sz n = .ok (0, m, sz) := by
  have hn0 : ¬ n > 0 := by omega
  have hlt : n < 0 := by omega
  have hsz32 : sz % 2 ^ 32 = sz := Nat.mod_eq_of_lt (by omega)
  -- the wrapped size lies above the old one
  have hwrap : sz ≤ (((sz : Int) + n) % 2 ^ 32).toNat := by omega
  simp only [growproc, hsz32, if_neg hn0, if_pos hlt, uvmdealloc, ge_iff_le, if_pos hwrap]
  simp only [bind, Except.bind, pure, Except.pure, hsz32]

/-- Asked to shrink below `0`, `sbrk` reports success: it returns the old size
and leaves the size and the memory as they were. -/
theorem sbrk_below_zero_succeeds (m : Mem) (pagetable sz : Nat) (n : Int) (hsz : sz < 2 ^ 31)
    (hn : -2 ^ 31 ≤ n) (hneg : (sz : Int) + n < 0) :
    sys_sbrk m pagetable sz n = .ok (sz, m, sz) := by
  simp only [sys_sbrk, growproc_below_zero m pagetable sz n hsz hn hneg, toInt32_of_lt hsz]
  rfl

theorem sbrk_below_zero_succeeds_page :
    sys_sbrk ⟨fun _ _ => 0, fun _ => 0, []⟩ 0 4096 (-8192) = .ok (4096, ⟨fun _ _ => 0, fun _ => 0, []⟩, 4096) :=
  sbrk_below_zero_succeeds _ 0 4096 (-8192) (by decide) (by decide) (by decide)

/-! ## `uvmcopy` out of memory -/

/-- When `kalloc` fails on the first page of a non-empty copy, `uvmcopy`
panics in `uvmunmap`: the size `i = 0` it passes wraps around the address
space, and `new` has no table for page `0`. -/
theorem uvmcopy_first_kalloc_fails (m : Mem) (old new sz : Nat) (hsz : 0 < sz) (hfree : m.free = [])
    (hold : ∃ x, translate m old 0 = some x) (hnew : leafSlot m new 0 = none) :
    uvmcopy m old new sz = .error "uvmunmap: walk" := by
  obtain ⟨⟨pa, fl⟩, hx⟩ := hold
  obtain ⟨⟨pt, j⟩, hslot, hdec⟩ := Option.bind_eq_some_iff.mp hx
  have h0 : (0 : Nat) < MAXVA := by decide
  -- the first page is present in `old`
  have hv : ¬ m.tbl pt j &&& PTE_V = 0 := by
    unfold decode at hdec
    split_ifs at hdec with h
    exact h
  obtain ⟨k, hk⟩ : ∃ k, (sz + PGSIZE - 1) / PGSIZE = k + 1 := ⟨(sz + PGSIZE - 1) / PGSIZE - 1, by
    unfold PGSIZE at *; omega⟩
  rw [uvmcopy, hk, uvmcopyLoop, if_pos hsz, walk_of_not_alloc h0, hslot]
  have hpg : PGROUNDDOWN 0 = 0 := rfl
  simp only [bind, Except.bind, if_neg hv, Mem.kalloc, hfree, uvmunmap, npages, hpg, uvmunmapLoop,
    walk_of_not_alloc h0, hnew]
  rfl

theorem uvmcopy_first_kalloc_fails_fork :
    let m : Mem := ⟨fun pt i => if pt = 4096 ∧ i = 0 then PA2PTE 8192 ||| PTE_V
      else if pt = 8192 ∧ i = 0 then PA2PTE 12288 ||| PTE_V
      else if pt = 12288 ∧ i = 0 then PA2PTE 16384 ||| PTE_R ||| PTE_U ||| PTE_V else 0, fun _ => 0, []⟩
    uvmcopy m 4096 20480 4096 = .error "uvmunmap: walk" := by
  intro m
  exact uvmcopy_first_kalloc_fails m 4096 20480 4096 (by decide) rfl
    (Option.isSome_iff_exists.mp (by decide)) (by decide)

end Xv6
