import Mathlib
import Xv6.Param

/-!
# The file system's blocks and inodes

`kernel/fs.c` keeps, on disk, a free bitmap with one bit per block, the
dinodes, and each file's data blocks: `NDIRECT` direct addresses in the
dinode, and one indirect block holding `NINDIRECT` more. `balloc` takes the
first block whose bit is clear, sets the bit and zeroes the block; `bfree`
clears a bit and panics if it was clear; `bmap` maps a file's block, allocating
it (and the indirect block) on first use; `itrunc` frees every block a file
holds; `ialloc` takes the first inode of type `0`.

The model keeps the bitmap, the dinodes' `type`, `nlink`, `size` and `addrs`,
and the content of each block read as an array of `NINDIRECT` block numbers
(`Disk.ind`): that is how `bmap` and `itrunc` read an indirect block, and the
only use of block contents that decides which blocks are held. File data is
not modelled: it is only written into blocks that are not indirect blocks, and
`balloc` zeroes a block before it can become one. A step of the model is what
a call's transaction commits. Every modelled call that changes a dinode ends
with `iupdate`, except `readi`: the addresses its `bmap` sets stay in the
in-memory inode, while the bitmap and the blocks `bmap` writes are logged, so a
`readi` step keeps the dinodes as they were (see `Disk.step`). A panic is
`none`.
-/

namespace Xv6.Fs

/-- Block size in bytes. -/
def BSIZE : Nat := 1024

/-- Direct block addresses in a dinode. -/
def NDIRECT : Nat := 12

/-- Block addresses in the indirect block: `BSIZE / sizeof(uint)`. -/
def NINDIRECT : Nat := BSIZE / 4

/-- Largest file, in blocks. -/
def MAXFILE : Nat := NDIRECT + NINDIRECT

/-- A block of a file past its direct blocks has its entry in the indirect block. -/
theorem sub_NDIRECT_lt {bn : Nat} (h : bn < MAXFILE) (hd : ¬ bn < NDIRECT) : bn - NDIRECT < NINDIRECT := by
  unfold MAXFILE at h
  omega

/-- Bitmap bits per block. -/
def BPB : Nat := BSIZE * 8

/-- Inodes per block: `BSIZE / sizeof(struct dinode)`. -/
def IPB : Nat := BSIZE / 64

/-- The root directory's i-number. -/
def ROOTINO : Nat := 1

/-- The length of a name in a directory entry. -/
def DIRSIZ : Nat := 14

/-- `sizeof(struct dirent)`: a `ushort` i-number and the name. -/
def direntSize : Nat := 2 + DIRSIZ

/-- Inodes that `mkfs` makes room for. -/
def NINODES : Nat := 200

/-- `mkfs`'s layout: bitmap blocks, inode blocks, and all metadata blocks
(boot, superblock, log, inodes, bitmap) before the first data block. -/
def nbitmap : Nat := FSSIZE / (BSIZE * 8) + 1

def ninodeblocks : Nat := NINODES / IPB + 1

def nmeta : Nat := 2 + LOGSIZE + ninodeblocks + nbitmap

/-- The file types of `kernel/stat.h`; a dinode of type `0` is free. -/
def T_DIR : Nat := 1

def T_FILE : Nat := 2

def T_DEVICE : Nat := 3

/-- The fields of `struct dinode` the file system's block code reads. -/
structure Dinode where
  type : Nat
  nlink : Int
  size : Nat
  addrs : Fin (NDIRECT + 1) → Nat

/-- The all-zero dinode. -/
def Dinode.zero : Dinode := ⟨0, 0, 0, fun _ => 0⟩

/-- The disk: the free bitmap, the dinodes by number, and every block's content
read as an indirect block. -/
structure Disk where
  bitmap : Nat → Bool
  inode : Nat → Dinode
  ind : Nat → Fin NINDIRECT → Nat

/-- The slot of `addrs` holding the indirect block. -/
abbrev INDIRECT : Fin (NDIRECT + 1) := Fin.last NDIRECT

namespace Disk

/-- Set or clear the bit of block `b`. -/
def setBit (d : Disk) (b : Nat) (v : Bool) : Disk :=
  { d with bitmap := Function.update d.bitmap b v }

/-- Replace dinode `i`. -/
def setInode (d : Disk) (i : Nat) (x : Dinode) : Disk :=
  { d with inode := Function.update d.inode i x }

/-- Replace address `j` of dinode `i`. -/
def setAddr (d : Disk) (i : Nat) (j : Fin (NDIRECT + 1)) (a : Nat) : Disk :=
  d.setInode i { d.inode i with addrs := Function.update (d.inode i).addrs j a }

/-- Replace entry `j` of block `b` read as an indirect block. -/
def setInd (d : Disk) (b : Nat) (j : Fin NINDIRECT) (a : Nat) : Disk :=
  { d with ind := Function.update d.ind b (Function.update (d.ind b) j a) }

/-- `bzero`: block `b` filled with zeroes. -/
def bzero (d : Disk) (b : Nat) : Disk :=
  { d with ind := Function.update d.ind b fun _ => 0 }

@[simp] theorem setBit_bitmap (d : Disk) (b : Nat) (v : Bool) :
    (d.setBit b v).bitmap = Function.update d.bitmap b v := rfl

@[simp] theorem setBit_inode (d : Disk) (b : Nat) (v : Bool) : (d.setBit b v).inode = d.inode := rfl

@[simp] theorem setBit_ind (d : Disk) (b : Nat) (v : Bool) : (d.setBit b v).ind = d.ind := rfl

@[simp] theorem setInode_bitmap (d : Disk) (i : Nat) (x : Dinode) :
    (d.setInode i x).bitmap = d.bitmap := rfl

@[simp] theorem setInode_inode (d : Disk) (i : Nat) (x : Dinode) :
    (d.setInode i x).inode = Function.update d.inode i x := rfl

@[simp] theorem setInode_ind (d : Disk) (i : Nat) (x : Dinode) : (d.setInode i x).ind = d.ind := rfl

@[simp] theorem setInd_bitmap (d : Disk) (b : Nat) (j : Fin NINDIRECT) (a : Nat) :
    (d.setInd b j a).bitmap = d.bitmap := rfl

@[simp] theorem setInd_inode (d : Disk) (b : Nat) (j : Fin NINDIRECT) (a : Nat) :
    (d.setInd b j a).inode = d.inode := rfl

@[simp] theorem setInd_ind (d : Disk) (b : Nat) (j : Fin NINDIRECT) (a : Nat) :
    (d.setInd b j a).ind = Function.update d.ind b (Function.update (d.ind b) j a) := rfl

@[simp] theorem bzero_bitmap (d : Disk) (b : Nat) : (d.bzero b).bitmap = d.bitmap := rfl

@[simp] theorem bzero_inode (d : Disk) (b : Nat) : (d.bzero b).inode = d.inode := rfl

@[simp] theorem bzero_ind (d : Disk) (b : Nat) :
    (d.bzero b).ind = Function.update d.ind b fun _ => 0 := rfl

theorem setAddr_eq (d : Disk) (i : Nat) (j : Fin (NDIRECT + 1)) (a : Nat) :
    d.setAddr i j a = d.setInode i { d.inode i with addrs := Function.update (d.inode i).addrs j a } :=
  rfl

/-- `balloc`: the first block whose bit is clear, scanning each bitmap block's
bits up to the end of the file system; the bit is set and the block zeroed.
`none` is the panic `balloc: out of blocks`. -/
def balloc (d : Disk) : Option (Nat × Disk) :=
  match ((List.range ((FSSIZE + BPB - 1) / BPB)).map (· * BPB)).findSome? (fun b =>
      ((List.range (min BPB (FSSIZE - b))).map (b + ·)).find? fun x => !d.bitmap x) with
  | none => none
  | some x => some (x, (d.setBit x true).bzero x)

/-- `bfree`: clear the bit of block `b`; `none` is the panic `freeing free block`. -/
def bfree (d : Disk) (b : Nat) : Option Disk :=
  if d.bitmap b = false then none else some (d.setBit b false)

/-- `addr = ip->addrs[k]`, allocated by `balloc` if it is `0`. -/
def addrAlloc (d : Disk) (i : Nat) (k : Fin (NDIRECT + 1)) : Option (Nat × Disk) :=
  if (d.inode i).addrs k = 0 then do
    let (a, d) ← d.balloc
    pure (a, d.setAddr i k a)
  else pure ((d.inode i).addrs k, d)

/-- `addr = a[bn]` of indirect block `ia`, allocated by `balloc` (and the
indirect block written) if it is `0`. -/
def entryAlloc (d : Disk) (ia : Nat) (j : Fin NINDIRECT) : Option (Nat × Disk) :=
  if d.ind ia j = 0 then do
    let (a, d) ← d.balloc
    pure (a, d.setInd ia j a)
  else pure (d.ind ia j, d)

/-- `bmap`: the address of block `bn` of inode `i`, allocated if it is `0`,
through the indirect block (itself allocated if it is `0`) past `NDIRECT`;
`none` is the panic `bmap: out of range`, or one of `balloc`'s. -/
def bmap (d : Disk) (i bn : Nat) : Option (Nat × Disk) :=
  if h : bn < NDIRECT then d.addrAlloc i ⟨bn, by unfold NDIRECT at h ⊢; omega⟩
  else if h' : bn - NDIRECT < NINDIRECT then do
    let (ia, d) ← d.addrAlloc i INDIRECT
    d.entryAlloc ia ⟨bn - NDIRECT, h'⟩
  else none

/-- One round of `itrunc`'s first loop: free direct block `j`, if there is one,
and clear its address. -/
def freeDirect (d : Disk) (i : Nat) (j : Fin NDIRECT) : Option Disk :=
  let a := (d.inode i).addrs j.castSucc
  if a = 0 then pure d else do
    let d ← d.bfree a
    pure (d.setAddr i j.castSucc 0)

/-- The rest of `itrunc`'s work on the indirect block: free every non-zero
entry, read once before the loop, then the block itself, and clear its address. -/
def freeIndirect (d : Disk) (i : Nat) : Option Disk :=
  if (d.inode i).addrs INDIRECT = 0 then pure d else do
    let ia := (d.inode i).addrs INDIRECT
    let a := d.ind ia
    let d ← (List.finRange NINDIRECT).foldlM (fun d j => if a j = 0 then pure d else d.bfree (a j)) d
    let d ← d.bfree ia
    pure (d.setAddr i INDIRECT 0)

/-- `itrunc`: free the direct blocks, then the indirect block's; the size
becomes `0`. -/
def itrunc (d : Disk) (i : Nat) : Option Disk := do
  let d ← (List.finRange NDIRECT).foldlM (fun d j => d.freeDirect i j) d
  let d ← d.freeIndirect i
  pure (d.setInode i { d.inode i with size := 0 })

/-- The freeing path of `iput`, for an inode with no links and no other
reference: `itrunc`, then type `0`. -/
def ifree (d : Disk) (i : Nat) : Option Disk := do
  let d ← d.itrunc i
  pure (d.setInode i { d.inode i with type := 0 })

/-- `ialloc`: the first dinode from `1` with type `0`, zeroed and given the
type; `none` is the panic `ialloc: no inodes`. -/
def ialloc (d : Disk) (type : Nat) : Option (Nat × Disk) :=
  match (List.range' 1 (NINODES - 1)).find? fun inum => (d.inode inum).type == 0 with
  | none => none
  | some inum => some (inum, d.setInode inum { Dinode.zero with type := type })

/-- The loop of `readi` and `writei`: `bmap` the block under `off`, copy up to
the end of the block or of the request, and stop at the first failed copy.
`copyOk tot` says whether the copy of the chunk at byte `tot` of the request
succeeds. The result is the offset reached. Each round copies at least one
byte, so `n` rounds of fuel are enough for `n` bytes. -/
def rwLoop (d : Disk) (i n : Nat) (copyOk : Nat → Bool) : (fuel tot off : Nat) → Option (Nat × Disk)
  | 0, _, off => some (off, d)
  | fuel + 1, tot, off =>
    if tot < n then
      match d.bmap i (off / BSIZE) with
      | none => none
      | some (_, d) =>
        let m := min (n - tot) (BSIZE - off % BSIZE)
        if copyOk tot then rwLoop d i n copyOk fuel (tot + m) (off + m) else some (off, d)
    else some (off, d)

/-- `writei`: `-1` past the end of the file, on a `uint` overflow or past
`MAXFILE` blocks; else the loop, then the size grows to the offset reached and
the dinode is written back, even when a copy failed. It returns `n`. -/
def writei (d : Disk) (i off n : Nat) (copyOk : Nat → Bool) : Option (Int × Disk) :=
  if off > (d.inode i).size ∨ 2 ^ 32 ≤ off + n then some (-1, d)
  else if off + n > MAXFILE * BSIZE then some (-1, d)
  else do
    let (off', d) ← d.rwLoop i n copyOk n 0 off
    let d := if n > 0 ∧ off' > (d.inode i).size then d.setInode i { d.inode i with size := off' } else d
    pure (n, d)

/-- `readi`: `-1` past the end of the file or on a `uint` overflow; else the
request is cut at the size and the loop runs. It returns the cut `n`. -/
def readi (d : Disk) (i off n : Nat) (copyOk : Nat → Bool) : Option (Int × Disk) :=
  if off > (d.inode i).size ∨ 2 ^ 32 ≤ off + n then some (-1, d)
  else
    let n := if off + n > (d.inode i).size then (d.inode i).size - off else n
    (d.rwLoop i n copyOk n 0 off).map fun (_, d) => (n, d)

end Disk

/-- What the file-system calls do to the blocks: `create` allocates an inode;
file writes, `dirlink` and `unlink`'s cleared entry go through `writei`;
`dirlookup`, `isdirempty` and file reads through `readi`; the last `iput` of an
inode without links frees it. Which inode a call reaches through a path is
left open: any allocated inode. -/
inductive Op where
  | ialloc (type : Nat)
  | writei (inum off n : Nat) (copyOk : Nat → Bool)
  | readi (inum off n : Nat) (copyOk : Nat → Bool)
  | iput (inum : Nat)

namespace Disk

/-- One operation; `ilock` panics on a free inode, and `create` passes a
non-zero type. -/
def step (d : Disk) : Op → Option Disk
  | .ialloc type => if type = 0 then none else (d.ialloc type).map Prod.snd
  | .writei i off n copyOk =>
    if (d.inode i).type = 0 then none else (d.writei i off n copyOk).map Prod.snd
  | .readi i off n copyOk =>
    -- no `iupdate`: the transaction commits the bitmap and blocks, not the dinode
    if (d.inode i).type = 0 then none
    else (d.readi i off n copyOk).map fun r => { r.2 with inode := d.inode }
  | .iput i => if (d.inode i).type = 0 then none else d.ifree i

/-- A sequence of operations; `none` once one panics. -/
def run (d : Disk) : List Op → Option Disk
  | [] => some d
  | o :: os => (d.step o).bind fun d' => run d' os

end Disk

end Xv6.Fs
