import Xv6.Vm.Exec

/-!
# The user allocator

`malloc` and `free` of `user/umalloc.c`, the allocator of Kernighan and Ritchie, over the
process they run in: the heap grows through the kernel's `sys_sbrk`.

* `Header`, `UMem`: the headers written in the heap, `freep`, and the process's memory, page
  table and size.
* `free`, `morecore`, `malloc`: each field write of the source is one update of a header.
* `malloc_past_break`: the size `sbrk` is asked for is taken in an `int`, so a request near
  `2^32` bytes grows the heap by 16 bytes and hands out a block of `2^32` bytes past the
  break.
-/

namespace Xv6.Umalloc

/-- `union header`: the next free block `s.ptr` and the block's size `s.size`, in units of
`sizeof(Header)`. -/
structure Header where
  ptr : Nat
  size : Nat
deriving DecidableEq, Repr

/-- `sizeof(Header)`: a pointer and a `uint`, aligned as a `long`. -/
def HDRSIZE : Nat := 16

/-- The allocator and the process it runs in: the header stored at each address, `freep`
(`0` for the null pointer), and the process's memory, page table and `p->sz`. -/
structure UMem where
  hdr : Nat → Header
  freep : Nat
  mem : Mem
  pagetable : Nat
  sz : Nat

/-- `a->s.size = n`, the size kept in a `uint`. -/
def setSize (hdr : Nat → Header) (a n : Nat) : Nat → Header :=
  Function.update hdr a { hdr a with size := n % 2 ^ 32 }

/-- `a->s.ptr = q`. -/
def setPtr (hdr : Nat → Header) (a q : Nat) : Nat → Header :=
  Function.update hdr a { hdr a with ptr := q }

/-- The search loop of `free` from `p`, with `fuel` rounds: the free block after which `bp`
belongs, the one below it in address order or the last one before the list wraps. -/
def freeSearch (hdr : Nat → Header) (bp : Nat) : Nat → Nat → Option Nat
  | 0, _ => none
  | fuel + 1, p =>
    if bp > p ∧ bp < (hdr p).ptr then some p
    else if p ≥ (hdr p).ptr ∧ (bp > p ∨ bp < (hdr p).ptr) then some p
    else freeSearch hdr bp fuel (hdr p).ptr

/-- `free(ap)`: put the block back after the one the search finds, joined to its upper and
to its lower neighbour when they touch it; `none` when the search does not end. -/
def free (u : UMem) (ap fuel : Nat) : Option UMem := do
  let bp := ap - HDRSIZE
  let p ← freeSearch u.hdr bp fuel u.freep
  let h := u.hdr
  let h :=
    if bp + (h bp).size * HDRSIZE = (h p).ptr then
      let h := setSize h bp ((h bp).size + (h (h p).ptr).size)
      setPtr h bp (h (h p).ptr).ptr
    else setPtr h bp (h p).ptr
  let h :=
    if p + (h p).size * HDRSIZE = bp then
      let h := setSize h p ((h p).size + (h bp).size)
      setPtr h p (h bp).ptr
    else setPtr h p bp
  pure { u with hdr := h, freep := p }

/-- `morecore(nu)`: ask `sbrk` for at least 4096 units and free them into the list; the new
`freep`, or `0` when `sbrk` fails. The byte count `nu * sizeof(Header)` is an `unsigned long`
that `sbrk` takes as an `int`. -/
def morecore (u : UMem) (nu fuel : Nat) : ExceptT String Option (Nat × UMem) := do
  let nu := if nu < 4096 then 4096 else nu
  let (p, mem, sz) ← liftE (sys_sbrk u.mem u.pagetable u.sz (toInt32 (nu * HDRSIZE)))
  if p = -1 then pure (0, { u with mem := mem, sz := sz })
  else
    let hp := p.toNat
    let u := { u with mem := mem, sz := sz, hdr := setSize u.hdr hp nu }
    let u ← ExceptT.lift (free u (hp + HDRSIZE) fuel)
    pure (u.freep, u)

/-- The loop of `malloc` from `prevp` and `p = prevp->s.ptr`, with `fuel` rounds: the first
free block of at least `nunits` units is cut from its end, or taken whole when it fits
exactly; at `freep` the list has been gone round and `morecore` grows it. -/
def mallocLoop (nunits : Nat) : Nat → Nat → Nat → UMem → ExceptT String Option (Nat × UMem)
  | 0, _, _, _ => ExceptT.lift none
  | fuel + 1, prevp, p, u =>
    if nunits ≤ (u.hdr p).size then
      if (u.hdr p).size = nunits then
        pure (p + HDRSIZE, { u with hdr := setPtr u.hdr prevp (u.hdr p).ptr, freep := prevp })
      else
        let h := setSize u.hdr p ((u.hdr p).size - nunits)
        let q := p + (h p).size * HDRSIZE
        pure (q + HDRSIZE, { u with hdr := setSize h q nunits, freep := prevp })
    else if p = u.freep then do
      let (p, u) ← morecore u nunits fuel
      if p = 0 then pure (0, u) else mallocLoop nunits fuel p (u.hdr p).ptr u
    else mallocLoop nunits fuel p (u.hdr p).ptr u

/-- `malloc(nbytes)` with the static `base` at address `base`: on the first call the list is
`base` alone, of size `0`. The units are counted in `unsigned long`, where `nbytes + 15`
cannot wrap, and kept in a `uint`. -/
def malloc (base : Nat) (u : UMem) (nbytes fuel : Nat) : ExceptT String Option (Nat × UMem) :=
  let nunits := ((nbytes + HDRSIZE - 1) / HDRSIZE + 1) % 2 ^ 32
  -- base.s.ptr = freep = prevp = &base; base.s.size = 0
  let u :=
    if u.freep = 0 then { u with hdr := setSize (setPtr u.hdr base base) base 0, freep := base }
    else u
  mallocLoop nunits fuel u.freep (u.hdr u.freep).ptr u

/-- The unit count is right for every `uint` request: `nunits` units hold the header and the
`nbytes` bytes, and the count fits its `uint`. -/
theorem nunits_room (nbytes : Nat) (hn : nbytes < 2 ^ 32) :
    nbytes + HDRSIZE ≤ ((nbytes + HDRSIZE - 1) / HDRSIZE + 1) % 2 ^ 32 * HDRSIZE := by
  have hfit : (nbytes + HDRSIZE - 1) / HDRSIZE + 1 < 2 ^ 32 := by
    unfold HDRSIZE
    omega
  rw [Nat.mod_eq_of_lt hfit]
  unfold HDRSIZE
  omega

/-- The byte count of `morecore` wraps in the `int` that `sbrk` takes: from `2^28` units on,
`sbrk` is asked for `2^32` bytes less than the header it writes says. -/
theorem morecore_request_wraps {nu : Nat} (h1 : 2 ^ 28 ≤ nu) (h2 : nu < 2 ^ 28 + 2 ^ 27) :
    toInt32 (nu * HDRSIZE) = (nu * HDRSIZE - 2 ^ 32 : Nat) := by
  unfold toInt32 HDRSIZE
  have hmod : nu * 16 % 2 ^ 32 = nu * 16 - 2 ^ 32 := by omega
  rw [hmod, if_pos (by omega)]

/-- The first `malloc(2^32 - 1)` of a process whose break is `12304`: `morecore` asks `sbrk`
for 16 bytes, which it grants, and `malloc` returns the new break itself as a block whose
header claims `2^28 + 1` units. -/
theorem malloc_past_break :
    let u : UMem := ⟨fun _ => ⟨0, 0⟩, 0, ⟨fun _ _ => 0, fun _ => 0, []⟩, 0, 12304⟩
    ((malloc 4096 u (2 ^ 32 - 1) 2).run.map fun r =>
      r.map fun (p, u) => (p, u.sz, (u.hdr 12304).size)) = some (.ok (12320, 12320, 2 ^ 28 + 1)) := by
  decide

end Xv6.Umalloc
