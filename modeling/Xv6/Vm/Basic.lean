import Mathlib
import Xv6.Lib.Fallible

/-!
# Sv39 page tables

`kernel/vm.c` keeps an address space in a three-level Sv39 radix tree of
page-table pages, each an array of 512 64-bit PTEs. `walk` follows the valid
entries of levels 2 and 1 from the root to the level-0 table of a virtual
address and returns the address of its PTE there, making missing tables from
zeroed pages when asked to; `walkaddr` reads a user page's frame through it.

Physical memory is seen two ways: the PTE words of page-table pages
(`Mem.tbl`, by page and index) and the bytes of data pages (`Mem.bytes`). The
two views are kept apart, which is exact on a premise the code keeps but does
not check: no page is used both ways, and in particular no leaf PTE maps a
page-table page. The kernel's tables and user pages come from separate calls
of `kalloc`, and each page is cleared before its first use. Were a leaf to map
its own level-0 table, `copyout` of a page of zeroes to it would wipe that
table's PTEs in `vm.c` and fail on the next page, while the model keeps the
table as it was; the results here hold of the model, and of the code under the
premise. `kalloc` and `kfree` are the page allocator's
contract, kept in `Mem.free`: `kalloc` hands out a free page or fails, and
`kfree` gives one back.

Addresses and PTEs are `uint64` in the code: here they are `Nat`, with the
arithmetic taken modulo `2^64` where the code's can wrap (`PGROUNDUP`,
`PTE2PA`, and the `va + size - 1` of `mappages` and `uvmunmap`).

`translate` reads the tree as the map the hardware sees, from a virtual
address to the frame and flags of its page; `leafSlot` is where that page's
PTE lives. `walk_of_not_alloc` and `walkaddr_eq` state `walk` and `walkaddr`
through them, so that later proofs never unfold the loop over levels.
-/

namespace Xv6

/-- Bytes per page. -/
def PGSIZE : Nat := 4096

/-- Bits of offset within a page. -/
def PGSHIFT : Nat := 12

/-- `PGROUNDUP`: the next page boundary, in `uint64` arithmetic. -/
def PGROUNDUP (sz : Nat) : Nat := (sz + PGSIZE - 1) % 2 ^ 64 / PGSIZE * PGSIZE

/-- `PGROUNDDOWN`: the page boundary at or below `a`. -/
def PGROUNDDOWN (a : Nat) : Nat := a / PGSIZE * PGSIZE

def PTE_V : Nat := 1
def PTE_R : Nat := 2
def PTE_W : Nat := 4
def PTE_X : Nat := 8
def PTE_U : Nat := 16

/-- `PA2PTE`: a physical address shifted to its place in a PTE. -/
def PA2PTE (pa : Nat) : Nat := (pa >>> 12) <<< 10

/-- `PTE2PA`: the physical address a PTE names. -/
def PTE2PA (pte : Nat) : Nat := ((pte >>> 10) <<< 12) % 2 ^ 64

/-- `PTE_FLAGS`: the low ten bits of a PTE. -/
def PTE_FLAGS (pte : Nat) : Nat := pte &&& 0x3FF

def PXMASK : Nat := 0x1FF

def PXSHIFT (level : Nat) : Nat := PGSHIFT + 9 * level

/-- `PX`: the 9-bit index of `va` at a level of the tree. -/
def PX (level va : Nat) : Nat := (va >>> PXSHIFT level) &&& PXMASK

/-- One beyond the highest virtual address: one bit less than Sv39 allows. -/
def MAXVA : Nat := 1 <<< (9 + 9 + 9 + 12 - 1)

def TRAMPOLINE : Nat := MAXVA - PGSIZE

def TRAPFRAME : Nat := TRAMPOLINE - PGSIZE

/-! ## The PTE encoding -/

section Encoding

theorem PX_eq (level va : Nat) : PX level va = va / 2 ^ (12 + 9 * level) % 512 := by
  simp only [PX, PXSHIFT, PGSHIFT, PXMASK, Nat.shiftRight_eq_div_pow]
  exact Nat.and_two_pow_sub_one_eq_mod _ 9

theorem PX_lt (level va : Nat) : PX level va < 512 := by
  rw [PX_eq]
  exact Nat.mod_lt _ (by decide)

theorem MAXVA_eq : MAXVA = 2 ^ 38 := by decide

/-- Below `MAXVA`, two addresses have the same three indices exactly when they
lie in one page. -/
theorem PX_eq_iff {va va' : Nat} (hva : va < MAXVA) (hva' : va' < MAXVA) :
    (PX 2 va' = PX 2 va ∧ PX 1 va' = PX 1 va ∧ PX 0 va' = PX 0 va) ↔ va' / PGSIZE = va / PGSIZE := by
  simp only [PX_eq, MAXVA_eq, PGSIZE] at *
  omega

@[simp] theorem PTE_FLAGS_eq (pte : Nat) : PTE_FLAGS pte = pte % 1024 :=
  Nat.and_two_pow_sub_one_eq_mod pte 10

theorem PTE2PA_eq (pte : Nat) : PTE2PA pte = pte / 1024 * 4096 % 2 ^ 64 := by
  simp only [PTE2PA, Nat.shiftRight_eq_div_pow, Nat.shiftLeft_eq]

/-- A PTE with the frame of `pa` and the flags `fl`, when `fl` fits in ten bits. -/
theorem PA2PTE_or {pa fl : Nat} (hfl : fl < 1024) : PA2PTE pa ||| fl = pa / 4096 * 1024 + fl := by
  rw [PA2PTE, ← Nat.shiftLeft_add_eq_or_of_lt (show fl < 2 ^ 10 from hfl), Nat.shiftLeft_eq,
    Nat.shiftRight_eq_div_pow]

/-- Reading the fields of a PTE back. -/
theorem PTE2PA_mk {q r : Nat} (hr : r < 1024) : PTE2PA (q * 1024 + r) = q * 4096 % 2 ^ 64 := by
  rw [PTE2PA_eq]
  congr 2
  omega

theorem flags_mk {q r : Nat} (hr : r < 1024) : PTE_FLAGS (q * 1024 + r) = r := by
  rw [PTE_FLAGS_eq]
  omega

theorem valid_iff (pte : Nat) : pte &&& PTE_V ≠ 0 ↔ pte % 2 = 1 := by
  simp only [PTE_V, Nat.and_one_is_mod]
  omega

/-- The bits `R`, `W`, `X` of a PTE are clear: the entry points to a table. -/
theorem rwx_eq_zero_iff (pte : Nat) : pte &&& (PTE_R ||| PTE_W ||| PTE_X) = 0 ↔ pte % 16 < 2 := by
  have h14 : PTE_R ||| PTE_W ||| PTE_X = 14 := by decide
  have hlow : pte &&& 14 = (pte % 16) &&& 14 := by
    rw [← Nat.mod_eq_of_lt (Nat.lt_of_le_of_lt (Nat.and_le_right) (show 14 < 2 ^ 4 by decide)),
      Nat.and_mod_two_pow]
  have hsmall : ∀ y < 16, (y &&& 14 = 0 ↔ y < 2) := by decide
  rw [h14, hlow]
  exact hsmall _ (Nat.mod_lt _ (by decide))

theorem user_iff (pte : Nat) : pte &&& PTE_U ≠ 0 ↔ pte / 16 % 2 = 1 := by
  have hlow : pte &&& 16 = (pte % 32) &&& 16 := by
    rw [← Nat.mod_eq_of_lt (Nat.lt_of_le_of_lt (Nat.and_le_right) (show 16 < 2 ^ 5 by decide)),
      Nat.and_mod_two_pow]
  have hsmall : ∀ y < 32, (y &&& 16 ≠ 0 ↔ y / 16 % 2 = 1) := by decide
  rw [PTE_U, hlow, hsmall _ (Nat.mod_lt _ (by decide))]
  omega

end Encoding

/-! ## Physical memory and the page allocator -/

/-- Physical memory: the PTE words of each page, the bytes, and the pages
`kalloc` can hand out, the next one first. -/
structure Mem where
  tbl : Nat → Nat → Nat
  bytes : Nat → UInt8
  free : List Nat

namespace Mem

/-- `kalloc`: a free page, or `none` for the code's `0`. -/
def kalloc (m : Mem) : Option (Nat × Mem) :=
  match m.free with
  | [] => none
  | pa :: rest => some (pa, { m with free := rest })

/-- `kfree`: the page goes back to the allocator. -/
def kfree (m : Mem) (pa : Nat) : Mem := { m with free := pa :: m.free }

/-- `memset(pagetable, 0, PGSIZE)` on a page-table page. -/
def zeroPage (m : Mem) (pa : Nat) : Mem := { m with tbl := Function.update m.tbl pa fun _ => 0 }

/-- `*pte = x` for the PTE at index `i` of table `pt`. -/
def setPTE (m : Mem) (pt i x : Nat) : Mem :=
  { m with tbl := Function.update m.tbl pt (Function.update (m.tbl pt) i x) }

variable (m : Mem) (pa pt i x : Nat)

@[simp] theorem kfree_tbl : (m.kfree pa).tbl = m.tbl := rfl
@[simp] theorem kfree_free : (m.kfree pa).free = pa :: m.free := rfl
@[simp] theorem kfree_bytes : (m.kfree pa).bytes = m.bytes := rfl
@[simp] theorem zeroPage_free : (m.zeroPage pa).free = m.free := rfl
@[simp] theorem zeroPage_bytes : (m.zeroPage pa).bytes = m.bytes := rfl
@[simp] theorem setPTE_free : (m.setPTE pt i x).free = m.free := rfl
@[simp] theorem setPTE_bytes : (m.setPTE pt i x).bytes = m.bytes := rfl

theorem zeroPage_tbl (q j : Nat) : (m.zeroPage pa).tbl q j = if q = pa then 0 else m.tbl q j := by
  by_cases h : q = pa <;> simp [zeroPage, h]

theorem setPTE_tbl (q j : Nat) :
    (m.setPTE pt i x).tbl q j = if q = pt ∧ j = i then x else m.tbl q j := by
  by_cases hq : q = pt
  · by_cases hj : j = i <;> simp [setPTE, hq, hj]
  · simp [setPTE, hq]

theorem kalloc_eq_some {m m' : Mem} {pa : Nat} (h : m.kalloc = some (pa, m')) :
    m.free = pa :: m'.free ∧ m'.tbl = m.tbl ∧ m'.bytes = m.bytes := by
  unfold kalloc at h
  split at h
  · cases h
  · next pa' rest hfree =>
    simp only [Option.some.injEq, Prod.mk.injEq] at h
    obtain ⟨rfl, rfl⟩ := h
    exact ⟨hfree, rfl, rfl⟩

theorem kalloc_eq_none {m : Mem} : m.kalloc = none ↔ m.free = [] := by
  unfold kalloc
  split <;> simp_all

end Mem

/-! ## Walking the tree -/

/-- The table one level down from entry `i` of table `pt`, when that entry is
valid. -/
def child (m : Mem) (pt i : Nat) : Option Nat :=
  if m.tbl pt i &&& PTE_V ≠ 0 then some (PTE2PA (m.tbl pt i)) else none

/-- Where the level-0 PTE of `va` lives: the table the valid entries of the
root and of level 1 lead to, and `va`'s index in it. -/
def leafSlot (m : Mem) (root va : Nat) : Option (Nat × Nat) := do
  let t1 ← child m root (PX 2 va)
  let t0 ← child m t1 (PX 1 va)
  pure (t0, PX 0 va)

/-- A leaf PTE read as a mapping: its frame and flags when it is valid. -/
def decode (pte : Nat) : Option (Nat × Nat) :=
  if pte &&& PTE_V ≠ 0 then some (PTE2PA pte, PTE_FLAGS pte) else none

/-- The PTE `mappages` writes, read back: a valid entry naming the frame, with
the flags `perm | PTE_V`. -/
theorem decode_leaf {pa perm : Nat} (hpa : pa % PGSIZE = 0) (hpa' : pa < 2 ^ 64) (hperm : perm < 1024) :
    decode (PA2PTE pa ||| perm ||| PTE_V) = some (pa, perm ||| PTE_V) := by
  have hfl : perm ||| PTE_V < 1024 :=
    Nat.or_lt_two_pow (show perm < 2 ^ 10 from hperm) (show PTE_V < 2 ^ 10 by decide)
  have hodd : (perm ||| PTE_V) % 2 = 1 := by
    rw [← Nat.and_one_is_mod, Nat.and_comm, PTE_V]
    simp
  rw [Nat.or_assoc, PA2PTE_or hfl, decode, if_pos ((valid_iff _).mpr (by omega)), PTE2PA_mk hfl,
    flags_mk hfl]
  simp only [PGSIZE] at hpa
  congr 2
  omega

/-- The tree read as the hardware reads it: the frame and flags of `va`'s page,
when its level-0 PTE is valid. -/
def translate (m : Mem) (root va : Nat) : Option (Nat × Nat) :=
  (leafSlot m root va).bind fun s => decode (m.tbl s.1 s.2)

/-- `walk`'s loop over the levels `ls` (`2`, then `1`) from table `pt`: a valid
entry leads down; a missing one ends the walk, unless `alloc`, when a zeroed
page from `kalloc` becomes the table it points to, or the walk ends if there is
none. -/
def walkLevels (va : Nat) (alloc : Bool) : List Nat → Mem → Nat → Option Nat × Mem
  | [], m, pt => (some pt, m)
  | level :: ls, m, pt =>
    if m.tbl pt (PX level va) &&& PTE_V ≠ 0 then walkLevels va alloc ls m (PTE2PA (m.tbl pt (PX level va)))
    else if !alloc then (none, m)
    else
      match m.kalloc with
      | none => (none, m)
      | some (pa, m) =>
        walkLevels va alloc ls ((m.zeroPage pa).setPTE pt (PX level va) (PA2PTE pa ||| PTE_V)) pa

/-- `walk`: the address of `va`'s level-0 PTE, a table page and an index in it,
or `none` for the code's null; a `va` past `MAXVA` is the panic `walk`. -/
def walk (m : Mem) (pagetable va : Nat) (alloc : Bool) : Except String (Option (Nat × Nat) × Mem) :=
  if va ≥ MAXVA then .error "walk"
  else
    match walkLevels va alloc [2, 1] m pagetable with
    | (some pt, m) => .ok (some (pt, PX 0 va), m)
    | (none, m) => .ok (none, m)

/-- `walkaddr`: the frame of a user page, or `0`. -/
def walkaddr (m : Mem) (pagetable va : Nat) : Nat :=
  if va ≥ MAXVA then 0
  else
    match walk m pagetable va false with
    | .ok (some (pt, i), _) =>
      if m.tbl pt i &&& PTE_V = 0 then 0
      else if m.tbl pt i &&& PTE_U = 0 then 0
      else PTE2PA (m.tbl pt i)
    | _ => 0

theorem walkLevels_not_alloc (va : Nat) (m : Mem) (pt l1 l2 : Nat) :
    walkLevels va false [l1, l2] m pt = ((child m pt (PX l1 va)).bind fun t => child m t (PX l2 va), m) := by
  simp only [walkLevels, child]
  by_cases h1 : m.tbl pt (PX l1 va) &&& PTE_V = 0
  · simp [h1]
  · by_cases h2 : m.tbl (PTE2PA (m.tbl pt (PX l1 va))) (PX l2 va) &&& PTE_V = 0 <;> simp [h1, h2]

/-- Without `alloc`, `walk` below `MAXVA` changes nothing and finds `va`'s slot
exactly when the tree has one. -/
theorem walk_of_not_alloc {m : Mem} {root va : Nat} (hva : va < MAXVA) :
    walk m root va false = .ok (leafSlot m root va, m) := by
  rw [walk, if_neg (Nat.not_le.mpr hva), walkLevels_not_alloc]
  simp only [leafSlot, Option.bind_eq_bind]
  cases child m root (PX 2 va) with
  | none => rfl
  | some t1 =>
    simp only [Option.bind_some]
    cases child m t1 (PX 1 va) <;> rfl

/-- `walkaddr` reads `translate`: the frame of a valid user page, `0` otherwise. -/
theorem walkaddr_eq (m : Mem) (root va : Nat) :
    walkaddr m root va =
      if va < MAXVA then
        match translate m root va with
        | some (pa, fl) => if fl &&& PTE_U ≠ 0 then pa else 0
        | none => 0
      else 0 := by
  unfold walkaddr
  by_cases hva : va < MAXVA
  · rw [if_neg (Nat.not_le.mpr hva), if_pos hva, walk_of_not_alloc hva]
    cases hs : leafSlot m root va with
    | none => simp [translate, decode, hs]
    | some s =>
      obtain ⟨t0, i⟩ := s
      -- the flags keep the `U` bit of the PTE
      have hu : m.tbl t0 i % 1024 &&& PTE_U = 0 ↔ m.tbl t0 i &&& PTE_U = 0 := by
        have h := user_iff (m.tbl t0 i % 1024)
        have h' := user_iff (m.tbl t0 i)
        omega
      by_cases hv : m.tbl t0 i &&& PTE_V = 0
      · simp [translate, decode, hs, hv]
      · by_cases hu' : m.tbl t0 i &&& PTE_U = 0
        · simp [translate, decode, hs, hv, hu', hu.mpr hu']
        · simp [translate, decode, hs, hv, hu', mt hu.mp hu']
  · rw [if_pos (Nat.le_of_not_lt hva), if_neg hva]

end Xv6
