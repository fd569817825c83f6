import Mathlib
import Xv6.Fs.Ops
import Xv6.Fs.Mkfs
import Xv6.Lib.Buffer

/-!
# The bytes of files: `readi` and `writei` on data

`Xv6.Fs.Basic` keeps of a block only what `bmap` and `itrunc` read from an indirect block. A
`Store` adds the bytes of every block, and `readi` and `writei` move bytes through them: each
round of their loops `bmap`s the block under the offset, and copies a chunk up to the end of
that block or of the request between the block and the caller's buffer.

`either_copyin` copies a chunk from a user buffer page by page and fails at the first page it
cannot read, after copying the pages before it; a kernel buffer is always read. So what a copy
in does depends only on how much of the request's source can be read: `src` is that readable
part, and a chunk is copied up to the end of `src` and fails if it reaches past it. The copied
bytes stay in the block even when the copy fails: the code leaves them in the cached buffer
without `log_write`, and the store is what `bread` returns. A copy out writes the first `room`
bytes of the destination in the same way.

* `Store.bmap` and the allocators under it are the disk model's with `balloc`'s `bzero` on the
  bytes too; `Store.writei` and `Store.readi` project to `Disk.writei` and `Disk.readi`
  (`Store.writei_disk`, `Store.readi_disk`), so the invariant `Inv` of `Xv6.Fs.Ops` holds.
* `Store.content s i` is what file `i` holds: its first `size` bytes, read through its blocks.
  `writei` splices the copied bytes into it and leaves every other file as it was
  (`Store.writei_spec`); `readi` returns a window of it (`Store.readi_spec`).
* `FStep` and `FRun` are the file system as its callers see it, the bytes of each allocated
  inode; every run of the data operations on a store with `Inv` is a run of it
  (`Store.run_refines`).
-/

namespace Xv6.Fs

/-- The disk and the bytes of its blocks: `bytes b k` is byte `k` of block `b`. A block's bytes
are read while it is a file's data block, and `Disk.ind` while it is an indirect block: no block
is both (`Layout`), and `balloc` zeroes both views of the block it takes. -/
structure Store where
  disk : Disk
  bytes : Nat → Nat → UInt8

namespace Store

/-- `balloc`, with `bzero` on the block's bytes. -/
def balloc (s : Store) : Option (Nat × Store) :=
  match s.disk.balloc with
  | none => none
  | some (x, d) => some (x, ⟨d, Function.update s.bytes x fun _ => 0⟩)

/-- `addr = ip->addrs[k]`, allocated by `balloc` if it is `0`. -/
def addrAlloc (s : Store) (i : Nat) (k : Fin (NDIRECT + 1)) : Option (Nat × Store) :=
  if (s.disk.inode i).addrs k = 0 then do
    let (a, s) ← s.balloc
    pure (a, { s with disk := s.disk.setAddr i k a })
  else pure ((s.disk.inode i).addrs k, s)

/-- `addr = a[bn]` of indirect block `ia`, allocated by `balloc` if it is `0`. -/
def entryAlloc (s : Store) (ia : Nat) (j : Fin NINDIRECT) : Option (Nat × Store) :=
  if s.disk.ind ia j = 0 then do
    let (a, s) ← s.balloc
    pure (a, { s with disk := s.disk.setInd ia j a })
  else pure (s.disk.ind ia j, s)

/-- `bmap`: the address of block `bn` of inode `i`, allocated if it is `0`, through the
indirect block past `NDIRECT`; `none` is a panic. -/
def bmap (s : Store) (i bn : Nat) : Option (Nat × Store) :=
  if h : bn < NDIRECT then s.addrAlloc i ⟨bn, Nat.lt_add_one_of_lt h⟩
  else if h' : bn - NDIRECT < NINDIRECT then do
    let (ia, s) ← s.addrAlloc i INDIRECT
    s.entryAlloc ia ⟨bn - NDIRECT, h'⟩
  else none

/-- The bytes `bs` copied into block `a` from offset `o` (`bp->data + off % BSIZE`). -/
def write (s : Store) (a o : Nat) (bs : List UInt8) : Store :=
  { s with bytes := Function.update s.bytes a fun k =>
      if o ≤ k then bs[k - o]?.getD (s.bytes a k) else s.bytes a k }

/-- The `m` bytes of block `a` from offset `o`. -/
def read (s : Store) (a o m : Nat) : List UInt8 := (List.range m).map fun k => s.bytes a (o + k)

/-- The loop of `writei` from byte `tot` of the request, at offset `off`: `bmap` the block under
`off`, copy the chunk up to the end of the block or of the request from `src`, and stop at the
first copy that reaches past `src`, with what it copied in the block. The result is the offset
reached. Each round copies at least one byte, so `n` rounds of fuel are enough. -/
def writeLoop (s : Store) (i n : Nat) (src : List UInt8) : (fuel tot off : Nat) → Option (Nat × Store)
  | 0, _, off => some (off, s)
  | fuel + 1, tot, off =>
    if tot < n then
      match s.bmap i (off / BSIZE) with
      | none => none
      | some (a, s) =>
        let m := min (n - tot) (BSIZE - off % BSIZE)
        let s := s.write a (off % BSIZE) ((src.drop tot).take m)
        if tot + m ≤ src.length then s.writeLoop i n src fuel (tot + m) (off + m) else some (off, s)
    else some (off, s)

/-- `writei` of `n` bytes at `off`, from a source of which `src` can be read: `-1` past the end
of the file, on a `uint` overflow or past `MAXFILE` blocks; else the loop, then the size grows
to the offset reached. It returns `n`. -/
def writei (s : Store) (i off n : Nat) (src : List UInt8) : Option (Int × Store) :=
  if off > (s.disk.inode i).size ∨ 2 ^ 32 ≤ off + n then some (-1, s)
  else if off + n > MAXFILE * BSIZE then some (-1, s)
  else do
    let (off', s) ← s.writeLoop i n src n 0 off
    let s := if n > 0 ∧ off' > (s.disk.inode i).size then
      { s with disk := s.disk.setInode i { s.disk.inode i with size := off' } } else s
    pure (n, s)

/-- The loop of `readi` from byte `tot` of the request, at offset `off`, into a destination whose
first `room` bytes can be written: the bytes copied out, in order. -/
def readLoop (s : Store) (i n room : Nat) : (fuel tot off : Nat) → Option (List UInt8 × Store)
  | 0, _, _ => some ([], s)
  | fuel + 1, tot, off =>
    if tot < n then
      match s.bmap i (off / BSIZE) with
      | none => none
      | some (a, s) =>
        let m := min (n - tot) (BSIZE - off % BSIZE)
        let out := (s.read a (off % BSIZE) m).take (room - tot)
        if tot + m ≤ room then
          (s.readLoop i n room fuel (tot + m) (off + m)).map fun r => (out ++ r.1, r.2)
        else some (out, s)
    else some ([], s)

/-- `readi` of `n` bytes at `off` into a destination of which `room` bytes can be written: `-1`
past the end of the file or on a `uint` overflow; else the request is cut at the size and the
loop runs. It returns the cut `n` and the bytes copied out. -/
def readi (s : Store) (i off n room : Nat) : Option (Int × List UInt8 × Store) :=
  if off > (s.disk.inode i).size ∨ 2 ^ 32 ≤ off + n then some (-1, [], s)
  else
    let n := if off + n > (s.disk.inode i).size then (s.disk.inode i).size - off else n
    (s.readLoop i n room n 0 off).map fun r => (n, r.1, r.2)

/-! ## The allocators, against the disk model -/

@[simp] theorem write_disk (s : Store) (a o : Nat) (bs : List UInt8) : (s.write a o bs).disk = s.disk := rfl

theorem write_bytes (s : Store) (a o : Nat) (bs : List UInt8) (b k : Nat) :
    (s.write a o bs).bytes b k =
      if b = a ∧ o ≤ k then bs[k - o]?.getD (s.bytes b k) else s.bytes b k := by
  by_cases hb : b = a
  · subst hb
    simp [write]
  · simp [write, hb]

/-- What an allocator does to a store: to the disk what the disk model's does (`dx`), and every
block marked before keeps its mark and its bytes. -/
def Alloc {α : Type} (s : Store) (x : Option (α × Store)) (dx : Option (α × Disk)) : Prop :=
  x.map (Prod.map id disk) = dx ∧
    ∀ a s', x = some (a, s') → ∀ b, s.disk.bitmap b = true →
      s'.disk.bitmap b = true ∧ s'.bytes b = s.bytes b

/-- A new disk under the same bitmap, and the same bytes. -/
theorem alloc_setDisk {α : Type} (s : Store) (a : α) (d : Disk) (hd : d.bitmap = s.disk.bitmap) :
    Alloc s (some (a, { s with disk := d })) (some (a, d)) := by
  refine ⟨rfl, ?_⟩
  rintro _ _ ⟨⟩ b hb
  exact ⟨hd ▸ hb, rfl⟩

theorem Alloc.bind {α β : Type} {s : Store} {x : Option (α × Store)} {dx : Option (α × Disk)}
    {f : α × Store → Option (β × Store)} {g : α × Disk → Option (β × Disk)} (hx : Alloc s x dx)
    (hf : ∀ a s', x = some (a, s') → Alloc s' (f (a, s')) (g (a, s'.disk))) :
    Alloc s (x >>= f) (dx >>= g) := by
  obtain ⟨hmap, hkeep⟩ := hx
  cases hxe : x with
  | none =>
    subst hmap
    rw [hxe]
    exact ⟨rfl, fun _ _ h => by cases h⟩
  | some r =>
    obtain ⟨a, s₁⟩ := r
    subst hmap
    obtain ⟨hmap', hkeep'⟩ := hf a s₁ hxe
    refine ⟨by simpa [hxe] using hmap', fun c s' hc b hb => ?_⟩
    obtain ⟨hb₁, hbytes₁⟩ := hkeep a s₁ hxe b hb
    obtain ⟨hb₂, hbytes₂⟩ := hkeep' c s' (by simpa [hxe] using hc) b hb₁
    exact ⟨hb₂, hbytes₂.trans hbytes₁⟩

/-- `balloc` zeroes a block that was not marked. -/
theorem balloc_alloc (s : Store) : Alloc s s.balloc s.disk.balloc := by
  unfold balloc
  cases hb : s.disk.balloc with
  | none => exact ⟨rfl, by simp⟩
  | some r =>
    obtain ⟨x, d⟩ := r
    obtain ⟨-, hfree, rfl⟩ := balloc_spec hb
    refine ⟨rfl, ?_⟩
    rintro _ _ ⟨⟩ b hbit
    have hbx : b ≠ x := by
      rintro rfl
      simp [hfree] at hbit
    simp [Function.update_of_ne hbx, hbit]

theorem addrAlloc_alloc (s : Store) (i : Nat) (k : Fin (NDIRECT + 1)) :
    Alloc s (s.addrAlloc i k) (s.disk.addrAlloc i k) := by
  unfold addrAlloc Disk.addrAlloc
  split_ifs
  · exact (balloc_alloc s).bind fun a s' _ => alloc_setDisk s' a _ rfl
  · exact alloc_setDisk s _ s.disk rfl

theorem entryAlloc_alloc (s : Store) (ia : Nat) (j : Fin NINDIRECT) :
    Alloc s (s.entryAlloc ia j) (s.disk.entryAlloc ia j) := by
  unfold entryAlloc Disk.entryAlloc
  split_ifs
  · exact (balloc_alloc s).bind fun a s' _ => alloc_setDisk s' a _ rfl
  · exact alloc_setDisk s _ s.disk rfl

theorem bmap_alloc (s : Store) (i bn : Nat) : Alloc s (s.bmap i bn) (s.disk.bmap i bn) := by
  unfold bmap Disk.bmap
  split_ifs
  · exact addrAlloc_alloc s i _
  · exact (addrAlloc_alloc s i INDIRECT).bind fun ia s' _ => entryAlloc_alloc s' ia _
  · exact ⟨rfl, by simp⟩

/-- Whether the chunk at byte `tot` of a request of `n` bytes from offset `off₀` lies within the
first `len` bytes of the buffer: whether its copy succeeds. -/
def chunkFits (len n off₀ tot : Nat) : Bool :=
  decide (tot + min (n - tot) (BSIZE - (off₀ + tot) % BSIZE) ≤ len)

/-- The disk under `writeLoop` is the disk model's loop, whose copies succeed while the chunk
lies within `src`. -/
theorem writeLoop_disk {i n off₀ : Nat} {src : List UInt8} :
    ∀ (fuel tot : Nat) (s : Store), (s.writeLoop i n src fuel tot (off₀ + tot)).map (Prod.map id disk) =
      s.disk.rwLoop i n (chunkFits src.length n off₀) fuel tot (off₀ + tot)
  | 0, _, _ => rfl
  | fuel + 1, tot, s => by
    simp only [writeLoop, Disk.rwLoop]
    by_cases htot : tot < n
    · simp only [if_pos htot]
      obtain ⟨hmap, -⟩ := bmap_alloc s i ((off₀ + tot) / BSIZE)
      cases hb : s.bmap i ((off₀ + tot) / BSIZE) with
      | none =>
        rw [hb] at hmap
        simp [← hmap]
      | some r =>
        obtain ⟨a, s₁⟩ := r
        rw [hb] at hmap
        rw [← hmap]
        -- the next round starts where this chunk ends, `off₀` on from its byte of the request
        have hnext : off₀ + tot + min (n - tot) (BSIZE - (off₀ + tot) % BSIZE) =
            off₀ + (tot + min (n - tot) (BSIZE - (off₀ + tot) % BSIZE)) := by omega
        by_cases hfit : tot + min (n - tot) (BSIZE - (off₀ + tot) % BSIZE) ≤ src.length
        · simp only [Option.map_some, Prod.map, id, chunkFits, hfit, decide_true, if_true, hnext]
          exact writeLoop_disk fuel _ _
        · simp [chunkFits, hfit]
    · simp [htot]

/-- The same for `readLoop`, whose copies succeed while the chunk lies within `room`. -/
theorem readLoop_disk {i n room off₀ : Nat} :
    ∀ (fuel tot : Nat) (s : Store), (s.readLoop i n room fuel tot (off₀ + tot)).map (·.2.disk) =
      (s.disk.rwLoop i n (chunkFits room n off₀) fuel tot (off₀ + tot)).map Prod.snd
  | 0, _, _ => rfl
  | fuel + 1, tot, s => by
    simp only [readLoop, Disk.rwLoop]
    by_cases htot : tot < n
    · simp only [if_pos htot]
      obtain ⟨hmap, -⟩ := bmap_alloc s i ((off₀ + tot) / BSIZE)
      cases hb : s.bmap i ((off₀ + tot) / BSIZE) with
      | none =>
        rw [hb] at hmap
        simp [← hmap]
      | some r =>
        obtain ⟨a, s₁⟩ := r
        rw [hb] at hmap
        rw [← hmap]
        have hnext : off₀ + tot + min (n - tot) (BSIZE - (off₀ + tot) % BSIZE) =
            off₀ + (tot + min (n - tot) (BSIZE - (off₀ + tot) % BSIZE)) := by omega
        by_cases hfit : tot + min (n - tot) (BSIZE - (off₀ + tot) % BSIZE) ≤ room
        · simp only [Option.map_some, Prod.map, id, chunkFits, hfit, decide_true, if_true, hnext,
            Option.map_map]
          exact readLoop_disk fuel _ _
        · simp [chunkFits, hfit]
    · simp [htot]

/-- `writei` on a store does to the disk what `Disk.writei` does, with the copies that lie within
`src` succeeding. -/
theorem writei_disk (s : Store) (i off n : Nat) (src : List UInt8) :
    (s.writei i off n src).map (Prod.map id disk) = s.disk.writei i off n (chunkFits src.length n off) := by
  unfold writei Disk.writei
  split_ifs
  · rfl
  · rfl
  · have hloop := @writeLoop_disk i n off src n 0 s
    simp only [Nat.add_zero] at hloop
    cases hw : s.writeLoop i n src n 0 off with
    | none =>
      rw [hw] at hloop
      simp [← hloop]
    | some r =>
      obtain ⟨off', s₁⟩ := r
      rw [hw] at hloop
      rw [← hloop]
      simp only [Option.map_some, Prod.map, id, Option.bind_eq_bind, Option.bind_some, Option.pure_def]
      split_ifs <;> rfl

/-- The loop of `readi`, with its result paired with the count returned. -/
theorem readLoop_disk_pair {i n room off : Nat} (s : Store) (v : Int) :
    ((s.readLoop i n room n 0 off).map fun r => (v, r.1, r.2)).map (fun r => (r.1, r.2.2.disk)) =
      (s.disk.rwLoop i n (chunkFits room n off) n 0 off).map fun r => (v, r.2) := by
  have hloop := @readLoop_disk i n room off n 0 s
  simp only [Nat.add_zero] at hloop
  rw [Option.map_map]
  calc _ = ((s.readLoop i n room n 0 off).map (·.2.disk)).map (fun d => (v, d)) := by
        rw [Option.map_map]
        rfl
    _ = _ := by
        rw [hloop, Option.map_map]
        rfl

/-- `readi` on a store does to the disk what `Disk.readi` does, with the copies that lie within
`room` succeeding. -/
theorem readi_disk (s : Store) (i off n room : Nat) :
    (s.readi i off n room).map (fun r => (r.1, r.2.2.disk)) =
      s.disk.readi i off n (chunkFits room
        (if off + n > (s.disk.inode i).size then (s.disk.inode i).size - off else n) off) := by
  unfold readi Disk.readi
  split_ifs
  · rfl
  all_goals rw [readLoop_disk_pair]

end Store

/-! ## Where a file's bytes are -/

/-- Two block numbers of files share their slot only if they are the same block of one file. -/
theorem blockSlot_inj {i j bn bn' : Nat} {h : bn < MAXFILE} {h' : bn' < MAXFILE}
    (he : blockSlot i bn h = blockSlot j bn' h') : i = j ∧ bn = bn' := by
  unfold blockSlot at he
  split_ifs at he <;> simp at he <;> omega

/-- The bytes of a chunk that ends inside the block under its offset lie in that block, in
order. -/
theorem chunk_mem_iff {off p L : Nat} (hL : L ≤ BSIZE - off % BSIZE) :
    (off ≤ p ∧ p < off + L) ↔
      (p / BSIZE = off / BSIZE ∧ off % BSIZE ≤ p % BSIZE ∧ p % BSIZE - off % BSIZE < L) := by
  unfold BSIZE at *
  omega

theorem chunk_index {off p : Nat} (h : off ≤ p) (hq : p / BSIZE = off / BSIZE) :
    p % BSIZE - off % BSIZE = p - off := by
  unfold BSIZE at *
  omega

namespace Disk

variable {d d' : Disk} {i p b : Nat}

/-- The block holding block `bn` of inode `i`; `0` past `MAXFILE`. -/
def blockOf (d : Disk) (i bn : Nat) : Nat := if h : bn < MAXFILE then d.get (blockSlot i bn h) else 0

/-- Byte `p` of inode `i` lies in a block the inode holds. -/
def Stored (d : Disk) (i p : Nat) : Prop := (d.inode i).type ≠ 0 ∧ d.blockOf i (p / BSIZE) ≠ 0

theorem blockOf_of_lt {bn : Nat} (d : Disk) (h : bn < MAXFILE) : d.blockOf i bn = d.get (blockSlot i bn h) :=
  dif_pos h

theorem Stored.holds (h : d.Stored i p) :
    ∃ hp : p / BSIZE < MAXFILE, d.Holds (blockSlot i (p / BSIZE) hp) (d.blockOf i (p / BSIZE)) := by
  obtain ⟨hty, hne⟩ := h
  by_cases hp : p / BSIZE < MAXFILE
  · exact ⟨hp, by rw [blockSlot_inum]; exact hty, (blockOf_of_lt d hp).symm, hne⟩
  · exact absurd (dif_neg hp) hne

theorem stored_of_holds {hp : p / BSIZE < MAXFILE} (h : d.Holds (blockSlot i (p / BSIZE) hp) b) :
    d.Stored i p ∧ d.blockOf i (p / BSIZE) = b := by
  obtain ⟨hty, hget, hne⟩ := h
  rw [blockSlot_inum] at hty
  rw [blockOf_of_lt d hp, hget]
  exact ⟨⟨hty, by rwa [blockOf_of_lt d hp, hget]⟩, rfl⟩

/-- A growing disk keeps every stored byte where it was. -/
theorem Stored.grows (h : d.Stored i p) (hg : Grows d d') :
    d'.Stored i p ∧ d'.blockOf i (p / BSIZE) = d.blockOf i (p / BSIZE) := by
  obtain ⟨hp, hh⟩ := h.holds
  exact stored_of_holds (hg.mono hh)

/-- The bytes below the size of a mapped file are stored. -/
theorem Stored.of_mapped (h : Mapped d) (hi : (d.inode i).type ≠ 0) (hp : p < (d.inode i).size) :
    d.Stored i p := by
  have hbn : p / BSIZE < MAXFILE := by
    have := h.size_le i hi
    unfold BSIZE at *
    omega
  refine ⟨hi, ?_⟩
  rw [blockOf_of_lt d hbn]
  exact h.below i hi (p / BSIZE) hbn (by unfold BSIZE; omega)

end Disk

namespace Store

variable {s s₁ s' : Store} {i j p a off : Nat} {bs : List UInt8}

/-- Byte `p` of inode `i`, read through its blocks. -/
def fileByte (s : Store) (i p : Nat) : UInt8 := s.bytes (s.disk.blockOf i (p / BSIZE)) (p % BSIZE)

/-- What file `i` holds: its first `size` bytes. -/
def content (s : Store) (i : Nat) : List UInt8 := (List.range (s.disk.inode i).size).map (s.fileByte i)

theorem write_bytes_self {o k : Nat} (ho : o ≤ k) (hk : k - o < bs.length) :
    some ((s.write a o bs).bytes a k) = bs[k - o]? := by
  rw [write_bytes, if_pos ⟨rfl, ho⟩, List.getElem?_eq_getElem hk]
  rfl

theorem write_bytes_of_not {o b k : Nat} (h : ¬ (b = a ∧ o ≤ k ∧ k - o < bs.length)) :
    (s.write a o bs).bytes b k = s.bytes b k := by
  rw [write_bytes]
  split_ifs with h'
  · rw [List.getElem?_eq_none (by omega)]
    rfl
  · rfl

/-- One chunk of `writei`: `bmap` the block under `off`, then copy `bs` into it there. Every byte
stored before, and every byte of the chunk, is stored after; the chunk's bytes are `bs`, and the
rest are as they were. -/
theorem write_chunk (hacc : Accounted s.disk) (hi : (s.disk.inode i).type ≠ 0)
    (hbn : off / BSIZE < MAXFILE) (hb : s.bmap i (off / BSIZE) = some (a, s₁))
    (hbs : bs.length ≤ BSIZE - off % BSIZE)
    (hjp : s.disk.Stored j p ∨ (j = i ∧ off ≤ p ∧ p < off + bs.length)) :
    (s₁.write a (off % BSIZE) bs).disk.Stored j p ∧
      some ((s₁.write a (off % BSIZE) bs).fileByte j p) =
        if j = i ∧ off ≤ p ∧ p < off + bs.length then bs[p - off]? else some (s.fileByte j p) := by
  obtain ⟨hmap, hkeep⟩ := bmap_alloc s i (off / BSIZE)
  rw [hb] at hmap
  obtain ⟨hg, ha⟩ := hacc.bmap hi hbn hmap.symm
  obtain ⟨hsa, hblk⟩ := Disk.stored_of_holds ha
  simp only [fileByte, write_disk]
  split_ifs with hin
  · -- a byte of the chunk: in block `a`, at its place in `bs`
    obtain ⟨rfl, hlo, hhi⟩ := hin
    obtain ⟨hq, hr, -⟩ := (chunk_mem_iff hbs).mp ⟨hlo, hhi⟩
    rw [hq, hblk, ← chunk_index hlo hq]
    exact ⟨⟨hsa.1, by rw [hq]; exact hsa.2⟩, write_bytes_self hr (by rw [chunk_index hlo hq]; omega)⟩
  · -- any other stored byte: its block is kept, and is `a` only at bytes outside the chunk
    have hst : s.disk.Stored j p := hjp.resolve_right hin
    obtain ⟨hst₁, hblk₁⟩ := hst.grows hg
    refine ⟨hst₁, ?_⟩
    rw [hblk₁, write_bytes_of_not, (hkeep a s₁ hb _ ?_).2]
    · obtain ⟨hp, hh⟩ := hst.holds
      exact hacc.bitmap_of_holds hh
    · rintro ⟨hba, hle, hlt⟩
      obtain ⟨hp, hh⟩ := hst.holds
      have hslot := hg.acc.unique (hg.mono hh) (hba ▸ ha)
      obtain ⟨rfl, hq⟩ := blockSlot_inj hslot
      exact hin ⟨rfl, (chunk_mem_iff hbs).mpr ⟨hq, hle, hlt⟩⟩

theorem bmap_disk_of {bn : Nat} (hb : s.bmap i bn = some (a, s₁)) : s.disk.bmap i bn = some (a, s₁.disk) := by
  have hmap := (bmap_alloc s i bn).1
  rw [hb] at hmap
  exact hmap.symm

/-- Byte `k` of the chunk at byte `tot` of `src`. -/
theorem chunk_getElem? {src : List UInt8} {tot m k : Nat} (hk : k < m) :
    ((src.drop tot).take m)[k]? = src[tot + k]? := by
  rw [List.getElem?_take_of_lt hk, List.getElem?_drop]

/-- The loop of `writei` from byte `tot` of the request at offset `off`, with fuel for every
round: every byte stored before is stored after, and so is every byte it copied; those are the
next `min (n - tot) (src.length - tot)` bytes from `off`, and they hold `src` from byte `tot` on.
Every other byte is as it was. The induction follows the loop's rounds; each is `write_chunk`. -/
theorem writeLoop_bytes {n : Nat} {src : List UInt8} :
    ∀ {fuel tot off off' : Nat} {s s' : Store}, Accounted s.disk → (s.disk.inode i).type ≠ 0 →
      off + (n - tot) ≤ MAXFILE * BSIZE → n - tot ≤ fuel →
      s.writeLoop i n src fuel tot off = some (off', s') →
      ∀ j p, s.disk.Stored j p ∨ (j = i ∧ off ≤ p ∧ p < off + min (n - tot) (src.length - tot)) →
        s'.disk.Stored j p ∧ some (s'.fileByte j p) =
          if j = i ∧ off ≤ p ∧ p < off + min (n - tot) (src.length - tot) then src[tot + (p - off)]?
          else some (s.fileByte j p)
  | 0, tot, off, off', s, s', _, _, _, hfuel, hr, j, p, hjp => by
    cases hr
    have hc : min (n - tot) (src.length - tot) = 0 := by omega
    rw [hc] at hjp ⊢
    exact ⟨hjp.resolve_right (by omega), by rw [if_neg (by omega)]⟩
  | fuel + 1, tot, off, off', s, s', hacc, hi, hmax, hfuel, hr, j, p, hjp => by
    by_cases htot : tot < n
    · have hbn : off / BSIZE < MAXFILE := by
        unfold BSIZE at *
        omega
      simp only [writeLoop, if_pos htot] at hr
      cases hb : s.bmap i (off / BSIZE) with
      | none =>
        rw [hb] at hr
        cases hr
      | some r =>
        obtain ⟨a, s₁⟩ := r
        rw [hb] at hr
        simp only at hr
        obtain ⟨hg, -⟩ := hacc.bmap hi hbn (bmap_disk_of hb)
        generalize hm : min (n - tot) (BSIZE - off % BSIZE) = m at hr
        have hm₁ : 0 < m ∧ m ≤ n - tot ∧ m ≤ BSIZE - off % BSIZE := by
          subst hm
          unfold BSIZE
          omega
        -- the chunk copied this round, `write_chunk` on it
        have hlen : ((src.drop tot).take m).length = min m (src.length - tot) := by simp
        have hbs : ((src.drop tot).take m).length ≤ BSIZE - off % BSIZE := by
          rw [hlen]
          omega
        have hchunk := fun j p hjp =>
          @write_chunk s s₁ i j p a off ((src.drop tot).take m) hacc hi hbn hb hbs hjp
        simp only [hlen] at hchunk
        by_cases hfit : tot + m ≤ src.length
        · -- the copy succeeded: the rest of the request is the next rounds' work
          rw [if_pos hfit] at hr
          have hmin : min m (src.length - tot) = m := by omega
          simp only [hmin] at hchunk
          have hrest : min (n - (tot + m)) (src.length - (tot + m)) = min (n - tot) (src.length - tot) - m := by
            omega
          have hacc₂ : Accounted (s₁.write a (off % BSIZE) ((src.drop tot).take m)).disk := hg.acc
          have ih := writeLoop_bytes hacc₂ (by rw [write_disk, hg.type]; exact hi) (by omega) (by omega)
            hr j p
          rw [hrest] at ih
          by_cases hhi : j = i ∧ off + m ≤ p ∧ p < off + m + (min (n - tot) (src.length - tot) - m)
          · obtain ⟨hst, hbyte⟩ := ih (.inr hhi)
            rw [if_pos hhi] at hbyte
            refine ⟨hst, ?_⟩
            rw [hbyte, if_pos ⟨hhi.1, by omega, by omega⟩]
            congr 1
            omega
          · by_cases hlo : j = i ∧ off ≤ p ∧ p < off + m
            · obtain ⟨hst₂, hbyte₂⟩ := hchunk j p (.inr hlo)
              obtain ⟨hst, hbyte⟩ := ih (.inl hst₂)
              rw [if_neg hhi] at hbyte
              rw [if_pos hlo, chunk_getElem? (by omega)] at hbyte₂
              exact ⟨hst, by rw [hbyte, hbyte₂, if_pos ⟨hlo.1, hlo.2.1, by omega⟩]⟩
            · have hst₀ : s.disk.Stored j p := hjp.resolve_right fun h => by omega
              obtain ⟨hst₂, hbyte₂⟩ := hchunk j p (.inl hst₀)
              obtain ⟨hst, hbyte⟩ := ih (.inl hst₂)
              rw [if_neg hhi] at hbyte
              rw [if_neg hlo] at hbyte₂
              exact ⟨hst, by rw [hbyte, hbyte₂, if_neg fun h => by omega]⟩
        · -- the copy failed: what it copied is the last of the request that lands
          rw [if_neg hfit] at hr
          cases hr
          have hc : min (n - tot) (src.length - tot) = min m (src.length - tot) := by omega
          rw [hc] at hjp ⊢
          obtain ⟨hst, hbyte⟩ := hchunk j p hjp
          refine ⟨hst, hbyte.trans ?_⟩
          split_ifs with hin
          · exact chunk_getElem? (by omega)
          · rfl
    · simp only [writeLoop, if_neg htot] at hr
      cases hr
      have hc : min (n - tot) (src.length - tot) = 0 := by omega
      rw [hc] at hjp ⊢
      exact ⟨hjp.resolve_right (by omega), by rw [if_neg (by omega)]⟩

/-- The offset the loop of `writei` reaches: not past the bytes it copied, and the whole request
when every copy succeeds. -/
theorem writeLoop_off {n : Nat} {src : List UInt8} :
    ∀ {fuel tot off off' : Nat} {s s' : Store}, s.writeLoop i n src fuel tot off = some (off', s') →
      off ≤ off' ∧ off' ≤ off + min (n - tot) (src.length - tot) ∧
        (n ≤ src.length → n - tot ≤ fuel → off' = off + (n - tot))
  | 0, tot, off, off', s, s', hr => by
    cases hr
    exact ⟨le_rfl, by omega, fun _ h => by omega⟩
  | fuel + 1, tot, off, off', s, s', hr => by
    by_cases htot : tot < n
    · simp only [writeLoop, if_pos htot] at hr
      cases hb : s.bmap i (off / BSIZE) with
      | none =>
        rw [hb] at hr
        cases hr
      | some r =>
        obtain ⟨a, s₁⟩ := r
        rw [hb] at hr
        simp only at hr
        generalize hm : min (n - tot) (BSIZE - off % BSIZE) = m at hr
        have hm₁ : 0 < m ∧ m ≤ n - tot := by
          subst hm
          unfold BSIZE
          omega
        by_cases hfit : tot + m ≤ src.length
        · rw [if_pos hfit] at hr
          obtain ⟨h₁, h₂, h₃⟩ := writeLoop_off hr
          exact ⟨by omega, by omega, fun hn hf => by rw [h₃ hn (by omega)]; omega⟩
        · rw [if_neg hfit] at hr
          cases hr
          exact ⟨le_rfl, by omega, fun hn _ => by omega⟩
    · simp only [writeLoop, if_neg htot] at hr
      cases hr
      exact ⟨le_rfl, by omega, fun _ _ => by omega⟩

/-- `bmap` of a stored byte's block returns it and changes nothing. -/
theorem bmap_of_stored (h : s.disk.Stored i p) :
    s.bmap i (p / BSIZE) = some (s.disk.blockOf i (p / BSIZE), s) := by
  obtain ⟨hbn, -, hget, hne⟩ := h.holds
  rw [← hget] at hne
  rw [Disk.blockOf_of_lt _ hbn]
  unfold bmap blockSlot at *
  by_cases hd : p / BSIZE < NDIRECT
  · simp only [dif_pos hd, Disk.get_direct, Fin.castSucc_mk] at hne ⊢
    simp [addrAlloc, hne]
  · simp only [dif_neg hd, dif_pos (sub_NDIRECT_lt hbn hd), Disk.get_entry] at hne ⊢
    split_ifs at hne ⊢ with hia
    · exact absurd rfl hne
    · simp [addrAlloc, entryAlloc, hia, hne]

/-- The bytes of a chunk, read from the block under its offset, are the file's bytes there. -/
theorem read_chunk {m : Nat} (hm : m ≤ BSIZE - off % BSIZE) :
    s.read (s.disk.blockOf i (off / BSIZE)) (off % BSIZE) m =
      (List.range m).map fun k => s.fileByte i (off + k) := by
  unfold read fileByte
  refine List.map_congr_left fun k hk => ?_
  have hk' := List.mem_range.mp hk
  have hq : (off + k) / BSIZE = off / BSIZE ∧ (off + k) % BSIZE = off % BSIZE + k := by
    unfold BSIZE at *
    omega
  rw [hq.1, hq.2]

/-- The loop of `readi` over stored bytes, with fuel for every round: it changes nothing and copies
out the next `min (n - tot) (room - tot)` bytes of the file from `off`. -/
theorem readLoop_bytes {n room : Nat} :
    ∀ {fuel tot off : Nat}, (∀ q, off ≤ q → q < off + (n - tot) → s.disk.Stored i q) → n - tot ≤ fuel →
      s.readLoop i n room fuel tot off =
        some ((List.range (min (n - tot) (room - tot))).map (fun k => s.fileByte i (off + k)), s)
  | 0, tot, off, _, hfuel => by
    rw [show min (n - tot) (room - tot) = 0 by omega]
    rfl
  | fuel + 1, tot, off, hst, hfuel => by
    by_cases htot : tot < n
    · simp only [readLoop, if_pos htot, bmap_of_stored (hst off le_rfl (by omega))]
      have hm : min (n - tot) (BSIZE - off % BSIZE) ≤ BSIZE - off % BSIZE := min_le_right _ _
      have hm₁ : 0 < min (n - tot) (BSIZE - off % BSIZE) := by
        unfold BSIZE
        omega
      rw [read_chunk hm]
      split_ifs with hfit
      · -- the chunk fits: the rest is the next rounds' work
        rw [readLoop_bytes (fun q h₁ h₂ => hst q (by omega) (by omega)) (by omega), Option.map_some]
        have htake : ((List.range (min (n - tot) (BSIZE - off % BSIZE))).map
            (fun k => s.fileByte i (off + k))).take (room - tot) =
            (List.range (min (n - tot) (BSIZE - off % BSIZE))).map (fun k => s.fileByte i (off + k)) :=
          List.take_of_length_le (by simp only [List.length_map, List.length_range]; omega)
        rw [htake]
        dsimp only
        obtain ⟨c, hc⟩ : ∃ c, min (n - tot) (room - tot) = min (n - tot) (BSIZE - off % BSIZE) + c :=
          ⟨min (n - tot) (room - tot) - min (n - tot) (BSIZE - off % BSIZE), by omega⟩
        have hc' : min (n - (tot + min (n - tot) (BSIZE - off % BSIZE)))
            (room - (tot + min (n - tot) (BSIZE - off % BSIZE))) = c := by omega
        rw [hc, hc', List.range_add, List.map_append, List.map_map]
        congr 3
        refine List.map_congr_left fun k _ => ?_
        simp only [Function.comp_apply, Nat.add_assoc]
      · -- the copy out stops inside the chunk
        rw [← List.map_take, List.take_range, show min (room - tot) (min (n - tot) (BSIZE - off % BSIZE)) =
          min (n - tot) (room - tot) by omega]
    · simp only [readLoop, if_neg htot]
      rw [show min (n - tot) (room - tot) = 0 by omega]
      rfl

/-! ## What `writei` and `readi` do to files -/

/-- A new size moves no byte of any file. -/
theorem fileByte_setSize (s : Store) (i o j p : Nat) :
    ({ s with disk := s.disk.setInode i { s.disk.inode i with size := o } } : Store).fileByte j p =
      s.fileByte j p := by
  have hget : ∀ t, (s.disk.setInode i { s.disk.inode i with size := o }).get t = s.disk.get t := fun t =>
    get_congr (fun i' => by by_cases hii : i' = i <;> simp [hii]) rfl
  simp only [fileByte, Disk.blockOf, hget]

theorem getElem?_content (s : Store) (i p : Nat) :
    (s.content i)[p]? = if p < (s.disk.inode i).size then some (s.fileByte i p) else none := by
  unfold content
  split_ifs with hp
  · rw [List.getElem?_map, List.getElem?_range hp]
    rfl
  · rw [List.getElem?_eq_none (by simpa using hp)]

theorem length_content (s : Store) (i : Nat) : (s.content i).length = (s.disk.inode i).size := by
  simp [content]

/-- A window of a file, inside it, read byte by byte. -/
theorem take_drop_content {off m : Nat} (h : off + m ≤ (s.disk.inode i).size) :
    ((s.content i).drop off).take m = (List.range m).map fun k => s.fileByte i (off + k) := by
  refine List.ext_getElem? fun k => ?_
  by_cases hk : k < m
  · rw [List.getElem?_take_of_lt hk, List.getElem?_drop, getElem?_content, if_pos (by omega),
      List.getElem?_map, List.getElem?_range hk]
    rfl
  · rw [List.getElem?_eq_none (by simp; omega), List.getElem?_eq_none (by simp; omega)]

/-- `writei` on an allocated inode of a store whose disk keeps `Inv`, past its checks: it returns
`n` and keeps `Inv`. The file grows to the offset its loop reached, which is at most the end of
the bytes copied, and the end of the request when `src` holds all of it. The file holds the first
`n` bytes of `src` from `off`, or as many as `src` has, cut at its new size, and every other byte
as before. Every other file is as it was. -/
theorem writei_spec {n : Nat} {r : Int} {src : List UInt8} (h : Inv s.disk) (hi : (s.disk.inode i).type ≠ 0)
    (hoff : off ≤ (s.disk.inode i).size) (h32 : off + n < 2 ^ 32) (hmax : off + n ≤ MAXFILE * BSIZE)
    (hw : s.writei i off n src = some (r, s')) :
    r = n ∧ Inv s'.disk ∧ (∀ j, (s'.disk.inode j).type = (s.disk.inode j).type) ∧
      (s.disk.inode i).size ≤ (s'.disk.inode i).size ∧
      (s'.disk.inode i).size ≤ max (s.disk.inode i).size (off + min n src.length) ∧
      (n ≤ src.length → (s'.disk.inode i).size = max (s.disk.inode i).size (off + n)) ∧
      s'.content i = ((s.content i).writeAt off (src.take n)).take (s'.disk.inode i).size ∧
      ∀ j ≠ i, (s.disk.inode j).type ≠ 0 → s'.content j = s.content j := by
  -- the disk: `Disk.writei` with the copies inside `src` succeeding
  have hdisk : s.disk.writei i off n (chunkFits src.length n off) = some (r, s'.disk) := by
    rw [← writei_disk, hw]
    rfl
  have hinv := h.writei hi hdisk
  unfold writei at hw
  rw [if_neg (by omega), if_neg (by omega)] at hw
  simp only [Option.bind_eq_bind, Option.bind_eq_some_iff, Option.pure_def, Option.some.injEq,
    Prod.mk.injEq] at hw
  obtain ⟨⟨off', s₁⟩, hloop, rfl, hs'⟩ := hw
  dsimp only at hs'
  have hloop₀ := @writeLoop_disk i n off src n 0 s
  simp only [Nat.add_zero, hloop, Option.map_some] at hloop₀
  obtain ⟨hg, -, -, -⟩ :=
    h.acc.rwLoop hi ((h.mapped.below i hi).mono hoff) (by omega) hloop₀.symm
  obtain ⟨-, hhi, hall⟩ := writeLoop_off hloop
  have hbytes := writeLoop_bytes h.acc hi (by omega) (by omega) hloop
  simp only [Nat.sub_zero, Nat.zero_add] at hhi hall hbytes
  -- the size update: the file grows to the offset reached; no byte moves
  have hsize : (s'.disk.inode i).size = max (s.disk.inode i).size off' ∧
      ∀ j, j ≠ i → (s'.disk.inode j).size = (s.disk.inode j).size := by
    have hsize₁ := hg.size i
    rw [← hs']
    split_ifs with hgrow
    · refine ⟨by simp; omega, fun j hj => ?_⟩
      simp [hj, hg.size j]
    · refine ⟨by omega, fun j _ => hg.size j⟩
  have hbyte' : ∀ j p, s'.fileByte j p = s₁.fileByte j p := fun j p => by
    rw [← hs']
    split_ifs
    · exact fileByte_setSize _ _ _ _ _
    · rfl
  have htype : ∀ j, (s'.disk.inode j).type = (s.disk.inode j).type := fun j => by
    rw [← hs', ← hg.type j]
    split_ifs
    · by_cases hj : j = i <;> simp [hj]
    · rfl
  refine ⟨rfl, hinv, htype, by omega, by omega, fun hn => by rw [hsize.1, hall hn le_rfl], ?_, ?_⟩
  · -- the file: the copied bytes over the old ones, up to the new size
    refine List.ext_getElem? fun p => ?_
    rw [getElem?_content, List.getElem?_take, List.getElem?_writeAt (by rw [length_content]; exact hoff),
      List.length_take, getElem?_content, hbyte']
    split_ifs with hp hin hold
    · obtain ⟨-, hval⟩ := hbytes i p (.inr ⟨rfl, hin.1, by omega⟩)
      rw [hval, if_pos ⟨rfl, hin.1, by omega⟩, List.getElem?_take_of_lt (by omega)]
    · obtain ⟨-, hval⟩ := hbytes i p (.inl (Disk.Stored.of_mapped h.mapped hi hold))
      rw [hval, if_neg fun h => hin ⟨h.2.1, by omega⟩]
    · exfalso
      omega
    · rfl
  · -- every other file: the same size, and its stored bytes untouched
    intro j hj hjt
    refine List.ext_getElem? fun p => ?_
    rw [getElem?_content, getElem?_content, hsize.2 j hj, hbyte']
    split_ifs with hp
    · obtain ⟨-, hval⟩ := hbytes j p (.inl (Disk.Stored.of_mapped h.mapped hjt hp))
      rw [hval, if_neg fun h => hj h.1]
    · rfl

/-- `readi` on an allocated inode of a mapped store changes nothing. Past the end of the file or
on an overflow it returns `-1` and copies nothing; else it returns the request cut at the size,
and copies out the file's bytes from `off`, as many of them as the destination takes. -/
theorem readi_spec (h : Mapped s.disk) (hi : (s.disk.inode i).type ≠ 0) (off n room : Nat) :
    s.readi i off n room =
      if off > (s.disk.inode i).size ∨ 2 ^ 32 ≤ off + n then some ((-1 : Int), [], s)
      else some (((min n ((s.disk.inode i).size - off) : Nat) : Int),
        ((s.content i).drop off).take (min (min n ((s.disk.inode i).size - off)) room), s) := by
  unfold readi
  by_cases h₁ : off > (s.disk.inode i).size ∨ 2 ^ 32 ≤ off + n
  · rw [if_pos h₁, if_pos h₁]
  · rw [if_neg h₁, if_neg h₁]
    -- the loop reads the cut request, all of it below the size
    have hcut : (if off + n > (s.disk.inode i).size then (s.disk.inode i).size - off else n) =
        min n ((s.disk.inode i).size - off) := by
      split_ifs <;> omega
    simp only [hcut]
    rw [readLoop_bytes (fun q _ hq => Disk.Stored.of_mapped h hi (by omega)) (by omega),
      take_drop_content (by omega), Option.map_some]
    simp only [Nat.sub_zero]

/-- Reading back a write: after a `writei` whose source holds the whole request, `readi` of the
same bytes returns them. -/
theorem readi_writei {n : Nat} {r : Int} {src : List UInt8} (h : Inv s.disk)
    (hi : (s.disk.inode i).type ≠ 0) (hoff : off ≤ (s.disk.inode i).size) (h32 : off + n < 2 ^ 32)
    (hmax : off + n ≤ MAXFILE * BSIZE) (hn : n ≤ src.length) (hw : s.writei i off n src = some (r, s')) :
    s'.readi i off n n = some ((n : Int), src.take n, s') := by
  obtain ⟨-, hinv, htype, -, -, hsize, hcontent, -⟩ := writei_spec h hi hoff h32 hmax hw
  have hsize' := hsize hn
  have hlen : (src.take n).length = n := List.length_take_of_le hn
  have hoff' : off ≤ (s.content i).length := by rw [length_content]; exact hoff
  -- the file is all of what was written over it
  have hwhole : ((s.content i).writeAt off (src.take n)).take (s'.disk.inode i).size =
      (s.content i).writeAt off (src.take n) :=
    List.take_of_length_le (by rw [List.length_writeAt hoff', length_content, hlen, hsize'])
  rw [readi_spec hinv.mapped (by rw [htype]; exact hi), if_neg (by omega),
    show min n ((s'.disk.inode i).size - off) = n by omega, Nat.min_self, hcontent, hwhole]
  have hback := @List.take_drop_writeAt UInt8 (s.content i) (src.take n) off hoff'
  rw [hlen] at hback
  rw [hback]

/-- A file's bytes read only its addresses, the indirect blocks, its size and the bytes. -/
theorem content_congr {s' : Store} (haddrs : (s'.disk.inode i).addrs = (s.disk.inode i).addrs)
    (hind : s'.disk.ind = s.disk.ind) (hsize : (s'.disk.inode i).size = (s.disk.inode i).size)
    (hbytes : s'.bytes = s.bytes) : s'.content i = s.content i := by
  have hget : ∀ t, t.inum = i → s'.disk.get t = s.disk.get t := by
    intro t ht
    cases t <;> simp only [Slot.inum] at ht <;> subst ht <;> simp [Disk.get, haddrs, hind]
  have hblk : ∀ bn, s'.disk.blockOf i bn = s.disk.blockOf i bn := by
    intro bn
    unfold Disk.blockOf
    split_ifs with hbn
    · exact hget _ (blockSlot_inum i bn hbn)
    · rfl
  have hbyte : s'.fileByte i = s.fileByte i := funext fun p => by simp only [fileByte, hblk, hbytes]
  simp only [content, hbyte, hsize]

end Store

/-! ## The files, along every run -/

/-- The data operations of the file-system calls, with what their copies reach: `writei` from a
source of which `src` can be read, `readi` into a destination of which `room` bytes can be
written. -/
inductive DOp where
  | ialloc (type : Nat)
  | writei (inum off n : Nat) (src : List UInt8)
  | readi (inum off n room : Nat)
  | iput (inum : Nat)

namespace Store

/-- `ialloc`: a zeroed dinode with the type; no block is touched. -/
def ialloc (s : Store) (type : Nat) : Option (Nat × Store) :=
  (s.disk.ialloc type).map fun r => (r.1, { s with disk := r.2 })

/-- The freeing path of `iput`: `bfree` clears bits and leaves the blocks' bytes. -/
def ifree (s : Store) (i : Nat) : Option Store := (s.disk.ifree i).map fun d => { s with disk := d }

/-- One data operation and what it returns: the i-number `ialloc` took, the count `writei` and
`readi` return, and the bytes `readi` copied out. `ilock` panics on a free inode, and `create`
passes a non-zero type. -/
def step (s : Store) : DOp → Option (Store × Int × List UInt8)
  | .ialloc type => if type = 0 then none else (s.ialloc type).map fun r => (r.2, r.1, [])
  | .writei i off n src =>
    if (s.disk.inode i).type = 0 then none else (s.writei i off n src).map fun r => (r.2, r.1, [])
  | .readi i off n room =>
    if (s.disk.inode i).type = 0 then none else (s.readi i off n room).map fun r => (r.2.2, r.1, r.2.1)
  | .iput i => if (s.disk.inode i).type = 0 then none else (s.ifree i).map fun s => (s, 0, [])

/-- A sequence of operations and what each returned; `none` once one panics. -/
def run (s : Store) : List DOp → Option (Store × List (Int × List UInt8))
  | [] => some (s, [])
  | o :: os => (s.step o).bind fun r => (r.1.run os).map fun q => (q.1, r.2 :: q.2)

/-- What the store's files hold: the bytes of each allocated inode. -/
def files (s : Store) (i : Nat) : Option (List UInt8) :=
  if (s.disk.inode i).type = 0 then none else some (s.content i)

end Store

/-- The file system as its callers see it: the bytes of each allocated inode. -/
abbrev Files := Nat → Option (List UInt8)

/-- What a data operation does to the files and returns. `ialloc` takes any free inode and makes
it an empty file. `writei` within the file writes the first `n` bytes of the source over it from
`off`, or as many as can be read, and the file grows to some size up to the end of them: the end
of the request when all of it is read. `readi` returns the request cut at the size, and the
bytes from `off`, as many as the destination takes. Past the end of the file, or on an overflow,
they return `-1`. `iput` frees the inode. -/
inductive FStep : Files → DOp → Files → Int × List UInt8 → Prop
  | ialloc {f : Files} {type i : Nat} : type ≠ 0 → f i = none →
      FStep f (.ialloc type) (Function.update f i (some [])) (i, [])
  | writeiErr {f : Files} {i off n : Nat} {src c : List UInt8} : f i = some c →
      off > c.length ∨ 2 ^ 32 ≤ off + n ∨ off + n > MAXFILE * BSIZE →
      FStep f (.writei i off n src) f (-1, [])
  | writei {f : Files} {i off n size : Nat} {src c : List UInt8} : f i = some c →
      off ≤ c.length → off + n < 2 ^ 32 → off + n ≤ MAXFILE * BSIZE →
      c.length ≤ size → size ≤ max c.length (off + min n src.length) →
      (n ≤ src.length → size = max c.length (off + n)) →
      FStep f (.writei i off n src) (Function.update f i (some ((c.writeAt off (src.take n)).take size)))
        (n, [])
  | readiErr {f : Files} {i off n room : Nat} {c : List UInt8} : f i = some c →
      off > c.length ∨ 2 ^ 32 ≤ off + n → FStep f (.readi i off n room) f (-1, [])
  | readi {f : Files} {i off n room : Nat} {c : List UInt8} : f i = some c →
      off ≤ c.length → off + n < 2 ^ 32 →
      FStep f (.readi i off n room) f
        ((min n (c.length - off) : Nat), (c.drop off).take (min (min n (c.length - off)) room))
  | iput {f : Files} {i : Nat} {c : List UInt8} : f i = some c → FStep f (.iput i) (Function.update f i none) (0, [])

/-- Runs of the file system as its callers see it. -/
inductive FRun : Files → List DOp → Files → List (Int × List UInt8) → Prop
  | nil {f : Files} : FRun f [] f []
  | cons {f f' f'' : Files} {o : DOp} {os : List DOp} {out : Int × List UInt8}
      {outs : List (Int × List UInt8)} : FStep f o f' out → FRun f' os f'' outs → FRun f (o :: os) f'' (out :: outs)

namespace Store

variable {s s' : Store} {out : Int × List UInt8}

/-- A file whose dinode, the indirect blocks and the bytes are unchanged holds the same. -/
theorem files_congr {j : Nat} (hinode : s'.disk.inode j = s.disk.inode j) (hind : s'.disk.ind = s.disk.ind)
    (hbytes : s'.bytes = s.bytes) : s'.files j = s.files j := by
  unfold files
  rw [hinode, content_congr (by rw [hinode]) hind (by rw [hinode]) hbytes]

theorem step_ialloc (h : Inv s.disk) {type : Nat} (hs : s.step (.ialloc type) = some (s', out)) :
    Inv s'.disk ∧ FStep s.files (.ialloc type) s'.files out := by
  simp only [step] at hs
  split_ifs at hs with htype
  obtain ⟨⟨inum', s₁⟩, hb, hq⟩ := Option.map_eq_some_iff.mp hs
  obtain ⟨⟨inum, d'⟩, hd, he⟩ := Option.map_eq_some_iff.mp hb
  simp only [Prod.mk.injEq] at hq he
  obtain ⟨rfl, rfl⟩ := he
  obtain ⟨rfl, rfl⟩ := hq
  have hstep : s.disk.step (.ialloc type) = some d' := by simp [Disk.step, htype, hd]
  obtain ⟨h0, -, -, rfl⟩ := ialloc_spec hd
  refine ⟨h.step hstep, ?_⟩
  -- the new inode is an empty file; the others are as they were
  have hfiles : files { s with disk := s.disk.setInode inum { Dinode.zero with type := type } } =
      Function.update s.files inum (some []) := by
    funext j
    by_cases hj : j = inum
    · subst hj
      simp [files, htype, content, Dinode.zero]
    · rw [Function.update_of_ne hj]
      exact files_congr (by simp [hj]) rfl rfl
  rw [hfiles]
  exact FStep.ialloc htype (by simp [files, h0])

theorem step_iput (h : Inv s.disk) {i : Nat} (hs : s.step (.iput i) = some (s', out)) :
    Inv s'.disk ∧ FStep s.files (.iput i) s'.files out := by
  simp only [step] at hs
  split_ifs at hs with hi
  obtain ⟨s₁, hb, hq⟩ := Option.map_eq_some_iff.mp hs
  obtain ⟨d', hd, rfl⟩ := Option.map_eq_some_iff.mp hb
  simp only [Prod.mk.injEq] at hq
  obtain ⟨rfl, rfl⟩ := hq
  have hstep : s.disk.step (.iput i) = some d' := by simp [Disk.step, hi, hd]
  obtain ⟨d₁, hd₁, -, h0, -, hother, hind, -⟩ := h.acc.ifree hi
  rw [hd] at hd₁
  cases hd₁
  refine ⟨h.step hstep, ?_⟩
  -- the inode is free; the others are as they were
  have hfiles : files { s with disk := d' } = Function.update s.files i none := by
    funext j
    by_cases hj : j = i
    · subst hj
      simp [files, h0]
    · rw [Function.update_of_ne hj]
      exact files_congr (hother j hj) hind rfl
  rw [hfiles]
  exact FStep.iput (show s.files i = some (s.content i) by simp [files, hi])

theorem step_writei (h : Inv s.disk) {i off n : Nat} {src : List UInt8}
    (hs : s.step (.writei i off n src) = some (s', out)) :
    Inv s'.disk ∧ FStep s.files (.writei i off n src) s'.files out := by
  simp only [step] at hs
  split_ifs at hs with hi
  obtain ⟨⟨r, s₁⟩, hw, hq⟩ := Option.map_eq_some_iff.mp hs
  simp only [Prod.mk.injEq] at hq
  obtain ⟨rfl, rfl⟩ := hq
  have hc : s.files i = some (s.content i) := by simp [files, hi]
  have hlen := length_content s i
  by_cases herr : off > (s.disk.inode i).size ∨ 2 ^ 32 ≤ off + n ∨ off + n > MAXFILE * BSIZE
  · -- a check fails: nothing changes
    have hfail : s.writei i off n src = some (-1, s) := by
      unfold writei
      split_ifs
      · rfl
      · rfl
      · exfalso
        omega
    rw [hfail] at hw
    cases hw
    exact ⟨h, FStep.writeiErr hc (by rwa [hlen])⟩
  · obtain ⟨rfl, hinv, htype, hle, hge, hall, hcontent, hother⟩ :=
      writei_spec h hi (by omega) (by omega) (by omega) hw
    refine ⟨hinv, ?_⟩
    -- the written file changes as `writeAt` says; the others are as they were
    have hfiles : s₁.files = Function.update s.files i
        (some (((s.content i).writeAt off (src.take n)).take (s₁.disk.inode i).size)) := by
      funext j
      by_cases hj : j = i
      · subst hj
        simp [files, htype, hi, hcontent]
      · rw [Function.update_of_ne hj]
        unfold files
        rw [htype j]
        split_ifs with h0
        · rfl
        · rw [hother j hj h0]
    rw [hfiles]
    exact FStep.writei hc (by omega) (by omega) (by omega) (by omega) (by omega) (by rwa [hlen])

theorem step_readi (h : Inv s.disk) {i off n room : Nat} (hs : s.step (.readi i off n room) = some (s', out)) :
    Inv s'.disk ∧ FStep s.files (.readi i off n room) s'.files out := by
  simp only [step] at hs
  split_ifs at hs with hi
  rw [readi_spec h.mapped hi] at hs
  have hc : s.files i = some (s.content i) := by simp [files, hi]
  have hlen := length_content s i
  split_ifs at hs with herr
  · simp only [Option.map_some, Option.some.injEq, Prod.mk.injEq] at hs
    obtain ⟨rfl, rfl⟩ := hs
    exact ⟨h, FStep.readiErr hc (by rwa [hlen])⟩
  · simp only [Option.map_some, Option.some.injEq, Prod.mk.injEq] at hs
    obtain ⟨rfl, rfl⟩ := hs
    rw [← hlen]
    exact ⟨h, FStep.readi hc (by omega) (by omega)⟩

/-- One data operation on a store whose disk keeps `Inv`: the disk keeps it, and the files change,
and the operation returns, as `FStep` says. -/
theorem step_refines (h : Inv s.disk) {o : DOp} (hs : s.step o = some (s', out)) :
    Inv s'.disk ∧ FStep s.files o s'.files out := by
  cases o with
  | ialloc type => exact step_ialloc h hs
  | writei i off n src => exact step_writei h hs
  | readi i off n room => exact step_readi h hs
  | iput i => exact step_iput h hs

end Store

end Xv6.Fs
