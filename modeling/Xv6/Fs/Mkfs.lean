import Xv6.Fs.Ops

/-!
# The image `mkfs` writes

`mkfs` zeroes every block, makes the root directory (inode `ROOTINO`) with its
`.` and `..` entries, and adds one root entry and one file per argument. Blocks
come from `freeblock++`, starting at the first data block, and inodes from
`freeinode++`. At the end the root's size is rounded up past its last block,
and the bitmap marks the blocks below `freeblock`.

Read with that bitmap (`Mkfs.image`), `freeblock` is the first free block, the
one the kernel's `balloc` would take: each of `mkfs`'s allocations is the
kernel's `bmap` on the image (`Mkfs.blockAt_sim`). So the kernel's lemmas carry
the accounting through `mkfs`. `mkfs` checks neither that the blocks fit in
`FSSIZE` nor that the root's rounded size stays over mapped blocks; both are
hypotheses on the image here. The dinodes are kept apart from the blocks, so an
image with more files than inodes is not modelled.
-/

namespace Xv6.Fs

/-- The disk after `wsect(i, zeroes)` for every block. -/
def Disk.zero : Disk := ⟨fun _ => false, fun _ => Dinode.zero, fun _ _ => 0⟩

/-- The state of `mkfs`: the image written so far and its two counters. -/
structure Mkfs where
  disk : Disk
  freeinode : Nat
  freeblock : Nat

namespace Mkfs

/-- `ialloc`: inode `freeinode++`, zeroed, with the type and one link. -/
def ialloc (m : Mkfs) (type : Nat) : Nat × Mkfs :=
  let din := { Dinode.zero with type := type, nlink := 1 }
  (m.freeinode, ⟨m.disk.setInode m.freeinode din, m.freeinode + 1, m.freeblock⟩)

/-- `if (addrs[k] == 0) addrs[k] = freeblock++`, then the address. -/
def addrAlloc (m : Mkfs) (inum : Nat) (k : Fin (NDIRECT + 1)) : Nat × Mkfs :=
  if (m.disk.inode inum).addrs k = 0 then
    (m.freeblock, ⟨m.disk.setAddr inum k m.freeblock, m.freeinode, m.freeblock + 1⟩)
  else ((m.disk.inode inum).addrs k, m)

/-- `if (indirect[j] == 0)`, entry `j` of indirect block `ia` becomes
`freeblock++` and the block is written back; then the entry. -/
def entryAlloc (m : Mkfs) (ia : Nat) (j : Fin NINDIRECT) : Nat × Mkfs :=
  if m.disk.ind ia j = 0 then
    (m.freeblock, ⟨m.disk.setInd ia j m.freeblock, m.freeinode, m.freeblock + 1⟩)
  else (m.disk.ind ia j, m)

/-- The block `x` that `iappend` copies into for block `fbn` of inode `inum`,
through the indirect block past `NDIRECT`. -/
def blockAt (m : Mkfs) (inum fbn : Nat) (h : fbn < MAXFILE) : Nat × Mkfs :=
  if hd : fbn < NDIRECT then m.addrAlloc inum ⟨fbn, Nat.lt_add_one_of_lt hd⟩
  else
    let r := m.addrAlloc inum INDIRECT
    r.2.entryAlloc r.1 ⟨fbn - NDIRECT, sub_NDIRECT_lt h hd⟩

/-- The loop of `iappend`, from byte `off` with `n` bytes left: copy up to the
end of block `off / BSIZE`; `none` is the failed `assert(fbn < MAXFILE)`. Each
round copies at least one byte, so `n` rounds of fuel are enough. The result is
the offset reached. -/
def appendLoop (m : Mkfs) (inum : Nat) : (fuel n off : Nat) → Option (Nat × Mkfs)
  | 0, _, off => some (off, m)
  | fuel + 1, n, off =>
    if n > 0 then
      if h : off / BSIZE < MAXFILE then
        let m := (m.blockAt inum (off / BSIZE) h).2
        let n1 := min n ((off / BSIZE + 1) * BSIZE - off)
        m.appendLoop inum fuel (n - n1) (off + n1)
      else none
    else some (off, m)

/-- `iappend`: `n` bytes at the end of inode `inum`; the size becomes the
offset reached. The C code keeps the dinode in a local copy until `winode`;
it is written in place here, as nothing else reads it meanwhile. -/
def iappend (m : Mkfs) (inum n : Nat) : Option Mkfs := do
  let (off, m) ← m.appendLoop inum n n (m.disk.inode inum).size
  pure ⟨m.disk.setInode inum { m.disk.inode inum with size := off }, m.freeinode, m.freeblock⟩

/-- One argument file: its inode, its entry in the root directory, then its
content, as the chunks `read` returns. -/
def addFile (m : Mkfs) (chunks : List Nat) : Option Mkfs := do
  let r := m.ialloc T_FILE
  let m ← r.2.iappend ROOTINO direntSize
  chunks.foldlM (fun m cc => m.iappend r.1 cc) m

/-- The root's size rounded up: `off = ((off/BSIZE) + 1) * BSIZE`. -/
def fixRoot (m : Mkfs) : Mkfs :=
  let off := (m.disk.inode ROOTINO).size
  ⟨m.disk.setInode ROOTINO { m.disk.inode ROOTINO with size := (off / BSIZE + 1) * BSIZE },
    m.freeinode, m.freeblock⟩

/-- The image read with the bitmap `balloc(freeblock)` writes: the blocks
below `freeblock` are in use. -/
def image (m : Mkfs) : Disk := { m.disk with bitmap := fun b => decide (b < m.freeblock) }

end Mkfs

/-- `mkfs` on a list of files, each given by the sizes of the chunks `read`
returns for it: the final state, whose disk has the bitmap that
`balloc(freeblock)` writes. `none` is a failed `assert`. -/
def mkfs (files : List (List Nat)) : Option Mkfs := do
  let r := (⟨Disk.zero, 1, nmeta⟩ : Mkfs).ialloc T_DIR
  if r.1 ≠ ROOTINO then none else
  let m ← r.2.iappend r.1 direntSize
  let m ← m.iappend r.1 direntSize
  let m ← files.foldlM Mkfs.addFile m
  let m := m.fixRoot
  if m.freeblock < BSIZE * 8 then pure ⟨m.image, m.freeinode, m.freeblock⟩ else none

namespace Mkfs

variable {m m' : Mkfs} {i b : Nat}

@[simp] theorem image_inode : m.image.inode = m.disk.inode := rfl

@[simp] theorem image_ind : m.image.ind = m.disk.ind := rfl

@[simp] theorem image_bitmap : m.image.bitmap b = decide (b < m.freeblock) := rfl

@[simp] theorem ialloc_fst (type : Nat) : (m.ialloc type).1 = m.freeinode := rfl

@[simp] theorem ialloc_freeinode (type : Nat) : (m.ialloc type).2.freeinode = m.freeinode + 1 := rfl

@[simp] theorem ialloc_freeblock (type : Nat) : (m.ialloc type).2.freeblock = m.freeblock := rfl

@[simp] theorem ialloc_inode (type : Nat) :
    (m.ialloc type).2.disk.inode =
      Function.update m.disk.inode m.freeinode { Dinode.zero with type := type, nlink := 1 } := rfl

/-- What holds of the image between `mkfs`'s steps: it is accounted and mapped,
fits in the file system, the blocks from `freeblock` on are still zero, and so
are the dinodes from `freeinode` on. -/
structure Inv (m : Mkfs) : Prop where
  acc : Accounted m.image
  mapped : Mapped m.image
  fit : m.freeblock ≤ FSSIZE
  fresh : ∀ b, m.freeblock ≤ b → m.disk.ind b = fun _ => 0
  unused : ∀ i, m.freeinode ≤ i → m.disk.inode i = Dinode.zero

/-- An allocated inode is below `freeinode`. -/
theorem Inv.lt_freeinode (h : m.Inv) (hi : (m.disk.inode i).type ≠ 0) : i < m.freeinode := by
  by_contra hle
  exact hi (by rw [h.unused i (by omega)]; rfl)

/-- A held block is below `freeblock`. -/
theorem Inv.lt_freeblock {s : Slot} (h : m.Inv) (hs : m.image.Holds s b) : b < m.freeblock := by
  simpa using h.acc.bitmap_of_holds hs

/-- `freeblock` is the first block the image leaves free, so the kernel's
`balloc` takes it, and it is zero already. -/
theorem balloc_image (hlt : m.freeblock < FSSIZE) (hz : m.disk.ind m.freeblock = fun _ => 0) :
    m.image.balloc = some (m.freeblock, (⟨m.disk, m.freeinode, m.freeblock + 1⟩ : Mkfs).image) := by
  rw [balloc_eq_first hlt (by simp) (fun y hy => by simpa using hy)]
  simp only [image, Disk.setBit, Disk.bzero, Option.some.injEq, Prod.mk.injEq, true_and]
  congr 1
  · funext c
    by_cases hc : c = m.freeblock
    · simp [hc]
    · simp only [Function.update_of_ne hc]
      congr 1
      exact propext (by omega)
  · rw [← hz]
    exact Function.update_eq_self _ _

theorem addrAlloc_freeblock (k : Fin (NDIRECT + 1)) :
    m.freeblock ≤ (m.addrAlloc i k).2.freeblock := by
  unfold addrAlloc
  split_ifs <;> simp

theorem entryAlloc_freeblock (ia : Nat) (j : Fin NINDIRECT) :
    m.freeblock ≤ (m.entryAlloc ia j).2.freeblock := by
  unfold entryAlloc
  split_ifs <;> simp

theorem blockAt_freeblock (fbn : Nat) (h : fbn < MAXFILE) :
    m.freeblock ≤ (m.blockAt i fbn h).2.freeblock := by
  unfold blockAt
  split_ifs
  · exact addrAlloc_freeblock _
  · exact (addrAlloc_freeblock _).trans (entryAlloc_freeblock _ _)

/-- `mkfs`'s allocation of an address is the kernel's, on the image. -/
theorem addrAlloc_sim (k : Fin (NDIRECT + 1)) (hfit : (m.addrAlloc i k).2.freeblock ≤ FSSIZE)
    (hz : m.disk.ind m.freeblock = fun _ => 0) :
    m.image.addrAlloc i k = some ((m.addrAlloc i k).1, (m.addrAlloc i k).2.image) := by
  unfold addrAlloc at hfit ⊢
  unfold Disk.addrAlloc
  by_cases h0 : (m.disk.inode i).addrs k = 0
  · simp only [h0, if_true] at hfit ⊢
    simp only [image_inode, h0, if_true, balloc_image (by omega) hz]
    rfl
  · simp [h0]

/-- `mkfs`'s allocation of an indirect entry is the kernel's, on the image. -/
theorem entryAlloc_sim (ia : Nat) (j : Fin NINDIRECT) (hfit : (m.entryAlloc ia j).2.freeblock ≤ FSSIZE)
    (hz : m.disk.ind m.freeblock = fun _ => 0) :
    m.image.entryAlloc ia j = some ((m.entryAlloc ia j).1, (m.entryAlloc ia j).2.image) := by
  unfold entryAlloc at hfit ⊢
  unfold Disk.entryAlloc
  by_cases h0 : m.disk.ind ia j = 0
  · simp only [h0, if_true] at hfit ⊢
    simp only [image_ind, h0, if_true, balloc_image (by omega) hz]
    rfl
  · simp [h0]

theorem addrAlloc_ind (k : Fin (NDIRECT + 1)) : (m.addrAlloc i k).2.disk.ind = m.disk.ind := by
  unfold addrAlloc
  split_ifs <;> simp [Disk.setAddr_eq]

/-- `iappend`'s block is the kernel's `bmap` on the image. -/
theorem blockAt_sim {fbn : Nat} (h : m.Inv) (hfbn : fbn < MAXFILE)
    (hfit : (m.blockAt i fbn hfbn).2.freeblock ≤ FSSIZE) :
    m.image.bmap i fbn = some ((m.blockAt i fbn hfbn).1, (m.blockAt i fbn hfbn).2.image) := by
  unfold blockAt at hfit ⊢
  unfold Disk.bmap
  by_cases hd : fbn < NDIRECT
  · simp only [dif_pos hd] at hfit ⊢
    exact addrAlloc_sim _ hfit (h.fresh _ le_rfl)
  · have hd' : fbn - NDIRECT < NINDIRECT := sub_NDIRECT_lt hfbn hd
    simp only [dif_neg hd, dif_pos hd'] at hfit ⊢
    -- the indirect block first: its allocation leaves the next block zero
    have hfit₁ : (m.addrAlloc i INDIRECT).2.freeblock ≤ FSSIZE :=
      le_trans (entryAlloc_freeblock _ _) hfit
    rw [addrAlloc_sim _ hfit₁ (h.fresh _ le_rfl)]
    simp only [Option.bind_eq_bind, Option.bind_some]
    refine entryAlloc_sim _ _ hfit ?_
    rw [addrAlloc_ind]
    exact h.fresh _ (addrAlloc_freeblock _)

theorem addrAlloc_freeinode (k : Fin (NDIRECT + 1)) : (m.addrAlloc i k).2.freeinode = m.freeinode := by
  unfold addrAlloc
  split_ifs <;> rfl

theorem addrAlloc_inode {i' : Nat} (k : Fin (NDIRECT + 1)) (hi : i' ≠ i) :
    (m.addrAlloc i k).2.disk.inode i' = m.disk.inode i' := by
  unfold addrAlloc
  split_ifs <;> simp [Disk.setAddr_eq, hi]

theorem entryAlloc_freeinode (ia : Nat) (j : Fin NINDIRECT) :
    (m.entryAlloc ia j).2.freeinode = m.freeinode := by
  unfold entryAlloc
  split_ifs <;> rfl

theorem entryAlloc_inode (ia : Nat) (j : Fin NINDIRECT) :
    (m.entryAlloc ia j).2.disk.inode = m.disk.inode := by
  unfold entryAlloc
  split_ifs <;> simp

theorem entryAlloc_ind {ia : Nat} (j : Fin NINDIRECT) (hb : b ≠ ia) :
    (m.entryAlloc ia j).2.disk.ind b = m.disk.ind b := by
  unfold entryAlloc
  split_ifs <;> simp [Function.update_of_ne hb]

/-- A step of `mkfs` that grows the image as the kernel's allocation would,
writes no block from the new `freeblock` on and no dinode from `freeinode` on,
keeps the invariant. -/
theorem Inv.grow (h : m.Inv) (hg : Grows m.image m'.image) (hfit : m'.freeblock ≤ FSSIZE)
    (hfb : m.freeblock ≤ m'.freeblock) (hfi : m'.freeinode = m.freeinode)
    (hind : ∀ b, m'.freeblock ≤ b → m'.disk.ind b = m.disk.ind b)
    (hinode : ∀ i', m.freeinode ≤ i' → m'.disk.inode i' = m.disk.inode i') : m'.Inv :=
  ⟨hg.acc, h.mapped.of_grows hg, hfit, fun b hb => (hind b hb).trans (h.fresh b (hfb.trans hb)),
    fun i' hi' => (hinode i' (hfi ▸ hi')).trans (h.unused i' (hfi ▸ hi'))⟩

/-- A direct address of an allocated inode. -/
theorem Inv.addrAlloc_direct (h : m.Inv) (hi : (m.disk.inode i).type ≠ 0) {j : Fin NDIRECT}
    (hfit : (m.addrAlloc i j.castSucc).2.freeblock ≤ FSSIZE) :
    (m.addrAlloc i j.castSucc).2.Inv ∧ Grows m.image (m.addrAlloc i j.castSucc).2.image ∧
      (m.addrAlloc i j.castSucc).2.image.Holds (.direct i j) (m.addrAlloc i j.castSucc).1 := by
  obtain ⟨hg, ht⟩ := h.acc.addrAlloc_direct hi (addrAlloc_sim _ hfit (h.fresh _ le_rfl))
  refine ⟨h.grow hg hfit (addrAlloc_freeblock _) (addrAlloc_freeinode _) (fun b _ => by rw [addrAlloc_ind])
    (fun i' hi' => addrAlloc_inode _ ?_), hg, ht⟩
  have := h.lt_freeinode hi
  omega

/-- The indirect address of an allocated inode. -/
theorem Inv.addrAlloc_indirect (h : m.Inv) (hi : (m.disk.inode i).type ≠ 0)
    (hfit : (m.addrAlloc i INDIRECT).2.freeblock ≤ FSSIZE) :
    (m.addrAlloc i INDIRECT).2.Inv ∧ Grows m.image (m.addrAlloc i INDIRECT).2.image ∧
      (m.addrAlloc i INDIRECT).2.image.Holds (.indirect i) (m.addrAlloc i INDIRECT).1 := by
  obtain ⟨hg, ht⟩ := h.acc.addrAlloc_indirect hi (addrAlloc_sim _ hfit (h.fresh _ le_rfl))
  refine ⟨h.grow hg hfit (addrAlloc_freeblock _) (addrAlloc_freeinode _) (fun b _ => by rw [addrAlloc_ind])
    (fun i' hi' => addrAlloc_inode _ ?_), hg, ht⟩
  have := h.lt_freeinode hi
  omega

/-- An entry of an allocated inode's indirect block, which is held, so below
`freeblock`. -/
theorem Inv.entryAlloc (h : m.Inv) (hi : (m.disk.inode i).type ≠ 0)
    (hia : (m.disk.inode i).addrs INDIRECT ≠ 0) {j : Fin NINDIRECT}
    (hfit : (m.entryAlloc ((m.disk.inode i).addrs INDIRECT) j).2.freeblock ≤ FSSIZE) :
    (m.entryAlloc ((m.disk.inode i).addrs INDIRECT) j).2.Inv ∧
      Grows m.image (m.entryAlloc ((m.disk.inode i).addrs INDIRECT) j).2.image ∧
      (m.entryAlloc ((m.disk.inode i).addrs INDIRECT) j).2.image.Holds (.entry i j)
        (m.entryAlloc ((m.disk.inode i).addrs INDIRECT) j).1 := by
  obtain ⟨hg, ht⟩ := h.acc.entryAlloc hi hia (entryAlloc_sim _ _ hfit (h.fresh _ le_rfl))
  have hlt : (m.disk.inode i).addrs INDIRECT < m.freeblock :=
    h.lt_freeblock (show m.image.Holds (.indirect i) _ from ⟨hi, rfl, hia⟩)
  refine ⟨h.grow hg hfit (entryAlloc_freeblock _ _) (entryAlloc_freeinode _ _)
    (fun b hb => entryAlloc_ind _ ?_) (fun _ _ => by rw [entryAlloc_inode]), hg, ht⟩
  have := @entryAlloc_freeblock m ((m.disk.inode i).addrs INDIRECT) j
  omega

/-- `iappend`'s block: the image grows as under the kernel's `bmap`, and the
block is held in its slot. -/
theorem Inv.blockAt {fbn : Nat} (h : m.Inv) (hi : (m.disk.inode i).type ≠ 0) (hfbn : fbn < MAXFILE)
    (hfit : (m.blockAt i fbn hfbn).2.freeblock ≤ FSSIZE) :
    (m.blockAt i fbn hfbn).2.Inv ∧ Grows m.image (m.blockAt i fbn hfbn).2.image ∧
      (m.blockAt i fbn hfbn).2.image.Holds (blockSlot i fbn hfbn) (m.blockAt i fbn hfbn).1 := by
  unfold Mkfs.blockAt blockSlot at *
  by_cases hd : fbn < NDIRECT
  · simp only [dif_pos hd] at hfit ⊢
    exact h.addrAlloc_direct hi (show (m.addrAlloc i (Fin.castSucc ⟨fbn, hd⟩)).2.freeblock ≤ FSSIZE from hfit)
  · simp only [dif_neg hd] at hfit ⊢
    obtain ⟨h₁, hg₁, hti, hget, hia⟩ :=
      h.addrAlloc_indirect hi (le_trans (entryAlloc_freeblock _ _) hfit)
    simp only [Slot.inum, Disk.get_indirect, image_inode] at hti hget
    rw [← hget] at hfit ⊢
    obtain ⟨h₂, hg₂, ht₂⟩ := h₁.entryAlloc hti (hget ▸ hia) hfit
    exact ⟨h₂, hg₁.trans hg₂, ht₂⟩

theorem blockAt_freeinode {fbn : Nat} (hfbn : fbn < MAXFILE) :
    (m.blockAt i fbn hfbn).2.freeinode = m.freeinode := by
  unfold blockAt
  split_ifs
  · exact addrAlloc_freeinode _
  · exact (entryAlloc_freeinode _ _).trans (addrAlloc_freeinode _)

/-- The chunk `iappend` copies is the kernel's: up to the end of the block. -/
theorem chunk_eq (off : Nat) : (off / BSIZE + 1) * BSIZE - off = BSIZE - off % BSIZE := by
  unfold BSIZE
  omega

/-- Each round of `iappend`'s loop copies at least one byte. -/
theorem appendLoop_off {inum : Nat} :
    ∀ {fuel n off off' : Nat} {m m' : Mkfs}, m.appendLoop inum fuel n off = some (off', m') →
      n ≤ fuel → off' = off + n
  | 0, n, off, off', m, m', hr, hn => by
    cases hr
    omega
  | fuel + 1, n, off, off', m, m', hr, hn => by
    unfold appendLoop at hr
    split_ifs at hr with hpos hbn
    · have hstep : 0 < (off / BSIZE + 1) * BSIZE - off := by
        rw [chunk_eq]
        unfold BSIZE
        omega
      have := appendLoop_off hr (by omega)
      omega
    · cases hr
      omega

/-- The loop of `iappend` on an allocated inode: `freeblock` only grows, and
when the image still fits at the end, the invariant holds there, the image has
grown, and every block below the offset reached is mapped. -/
theorem appendLoop_spec {inum : Nat} :
    ∀ {fuel n off off' : Nat} {m m' : Mkfs}, m.appendLoop inum fuel n off = some (off', m') →
      m.freeblock ≤ m'.freeblock ∧
      (m'.freeblock ≤ FSSIZE → m.Inv → (m.disk.inode inum).type ≠ 0 →
        m.image.MappedBelow inum off → off ≤ MAXFILE * BSIZE →
        m'.Inv ∧ Grows m.image m'.image ∧ m'.image.MappedBelow inum off' ∧
          off' ≤ MAXFILE * BSIZE ∧ m'.freeinode = m.freeinode)
  | 0, n, off, off', m, m', hr => by
    cases hr
    exact ⟨le_rfl, fun _ h _ hm hoff => ⟨h, Grows.refl h.acc, hm, hoff, rfl⟩⟩
  | fuel + 1, n, off, off', m, m', hr => by
    unfold appendLoop at hr
    split_ifs at hr with hpos hbn
    · obtain ⟨hle, hrest⟩ := appendLoop_spec hr
      refine ⟨(blockAt_freeblock _ hbn).trans hle, fun hfit h hi hm hoff => ?_⟩
      obtain ⟨h₁, hg₁, ht₁⟩ := h.blockAt hi hbn (hle.trans hfit)
      -- the block under `off` is mapped now, so is the chunk
      have hm₁ : (m.blockAt inum (off / BSIZE) hbn).2.image.MappedBelow inum
          (off + min n (BSIZE - off % BSIZE)) := (hm.grows hg₁ hi).extend hbn ht₁.get_ne
      rw [← chunk_eq] at hm₁
      have hend : off + min n ((off / BSIZE + 1) * BSIZE - off) ≤ MAXFILE * BSIZE := by
        unfold MAXFILE NINDIRECT NDIRECT BSIZE at *
        omega
      have hi₁ : ((m.blockAt inum (off / BSIZE) hbn).2.disk.inode inum).type ≠ 0 := by
        rw [← image_inode, hg₁.type]
        exact hi
      obtain ⟨h', hg', hm', hoff', hfi'⟩ := hrest hfit h₁ hi₁ hm₁ hend
      exact ⟨h', hg₁.trans hg', hm', hoff', hfi'.trans (blockAt_freeinode hbn)⟩
    · cases hr
      exact ⟨le_rfl, fun _ h _ hm hoff => ⟨h, Grows.refl h.acc, hm, hoff, rfl⟩⟩

/-- `iappend` on an allocated inode: `freeblock` only grows, and when the
image still fits, the invariant holds after it; the inode's size grows by `n`,
and nothing else changes size or type. -/
theorem iappend_spec {inum n : Nat} (hr : m.iappend inum n = some m') :
    m.freeblock ≤ m'.freeblock ∧
    (m'.freeblock ≤ FSSIZE → m.Inv → (m.disk.inode inum).type ≠ 0 →
      m'.Inv ∧ m'.freeinode = m.freeinode ∧ (∀ i, (m'.disk.inode i).type = (m.disk.inode i).type) ∧
        ∀ i, (m'.disk.inode i).size = (m.disk.inode i).size + if i = inum then n else 0) := by
  simp only [iappend, Option.bind_eq_bind, Option.bind_eq_some_iff] at hr
  obtain ⟨⟨off', m₁⟩, hloop, hr⟩ := hr
  cases hr
  have hoff := appendLoop_off hloop le_rfl
  obtain ⟨hle, hcond⟩ := appendLoop_spec hloop
  refine ⟨hle, fun hfit h hi => ?_⟩
  obtain ⟨h₁, hg, hm, hend, hfi⟩ :=
    hcond hfit h hi (h.mapped.below inum hi) (h.mapped.size_le inum hi)
  have htype : ∀ i, (m₁.disk.inode i).type = (m.disk.inode i).type := fun i => by
    simpa using hg.type i
  have hlt := h₁.lt_freeinode (by rw [htype]; exact hi)
  refine ⟨⟨h₁.acc.setSize inum off', h₁.mapped.setSize hend hm, h₁.fit, h₁.fresh, fun i' hi' => ?_⟩,
    hfi, fun i' => ?_, fun i' => ?_⟩
  · have hne : i' ≠ inum := by
      simp only at hi'
      omega
    simpa [hne] using h₁.unused i' hi'
  · by_cases hii : i' = inum
    · subst hii
      simpa using htype i'
    · simpa [hii] using htype i'
  · by_cases hii : i' = inum
    · subst hii
      simpa using hoff
    · simpa [hii] using hg.size i'

/-- `mkfs`'s `ialloc` takes a free dinode: the next one. -/
theorem Inv.ialloc (h : m.Inv) (type : Nat) : (m.ialloc type).2.Inv := by
  have hz := h.unused m.freeinode le_rfl
  refine ⟨h.acc.setInode_free (by simp [hz, Dinode.zero]) fun _ => rfl,
    h.mapped.of_empty (fun i' (hi' : i' ≠ m.freeinode) => by simp [hi']) rfl (by simp [Dinode.zero]),
    h.fit, h.fresh, fun i' hi' => ?_⟩
  have hne : i' ≠ m.freeinode := by
    simp only [ialloc_freeinode] at hi'
    omega
  simpa [hne] using h.unused i' (by simp only [ialloc_freeinode] at hi'; omega)

/-- One argument file: `freeblock` only grows, and when the image still fits,
the invariant holds after it, and the root directory has one entry more. -/
theorem addFile_spec {chunks : List Nat} (hr : m.addFile chunks = some m') :
    m.freeblock ≤ m'.freeblock ∧
    (m'.freeblock ≤ FSSIZE → m.Inv → (m.disk.inode ROOTINO).type ≠ 0 →
      m'.Inv ∧ (m'.disk.inode ROOTINO).type ≠ 0 ∧
        (m'.disk.inode ROOTINO).size = (m.disk.inode ROOTINO).size + direntSize) := by
  simp only [addFile, Option.bind_eq_bind, Option.bind_eq_some_iff] at hr
  obtain ⟨m₂, h₂, hr⟩ := hr
  obtain ⟨hle₂, hcond₂⟩ := iappend_spec h₂
  -- the file's content: the root directory is another inode
  obtain ⟨hle, hcond⟩ := Option.foldlM_inv (fun _ a => m₂.freeblock ≤ a.freeblock ∧
      (a.freeblock ≤ FSSIZE → m₂.Inv → m.Inv → (m.disk.inode ROOTINO).type ≠ 0 →
        a.Inv ∧ (a.disk.inode m.freeinode).type ≠ 0 ∧ (a.disk.inode ROOTINO).type ≠ 0 ∧
          (a.disk.inode ROOTINO).size = (m₂.disk.inode ROOTINO).size))
    (fun _ cc a b ⟨hle, hcond⟩ hab => by
      obtain ⟨hab', hcond'⟩ := iappend_spec hab
      refine ⟨hle.trans hab', fun hfit h₂ h hroot => ?_⟩
      obtain ⟨ha, hfile, hroot', hsize⟩ := hcond (hab'.trans hfit) h₂ h hroot
      obtain ⟨hb, -, htype, hsize'⟩ := hcond' hfit ha hfile
      have hne : ROOTINO ≠ m.freeinode := (h.lt_freeinode hroot).ne
      exact ⟨hb, by rwa [htype], by rwa [htype], by simp [hsize', hne, hsize]⟩)
    ⟨le_rfl, fun hfit h₂ h hroot => by
      obtain ⟨-, -, htype, -⟩ := hcond₂ hfit ((Inv.ialloc h T_FILE)) (by
        have hne : ROOTINO ≠ m.freeinode := (h.lt_freeinode hroot).ne
        simpa [hne] using hroot)
      have hne : ROOTINO ≠ m.freeinode := (h.lt_freeinode hroot).ne
      exact ⟨h₂, by simp [htype, T_FILE], by simpa [htype, hne] using hroot, rfl⟩⟩ hr
  refine ⟨hle₂.trans hle, fun hfit h hroot => ?_⟩
  have hne : ROOTINO ≠ m.freeinode := (h.lt_freeinode hroot).ne
  have hroot₁ : ((m.ialloc T_FILE).2.disk.inode ROOTINO).type ≠ 0 := by simpa [hne] using hroot
  obtain ⟨h₂', -, -, hsize₂⟩ := hcond₂ (hle.trans hfit) (h.ialloc T_FILE) hroot₁
  obtain ⟨h', -, hroot', hsize⟩ := hcond hfit h₂' h hroot
  exact ⟨h', hroot', by simp [hsize, hsize₂, hne]⟩

/-- The disk `mkfs` starts from, before the root directory. -/
theorem inv_zero : (⟨Disk.zero, 1, nmeta⟩ : Mkfs).Inv := by
  -- no dinode is allocated, so no slot holds a block
  have hnone : ∀ s b, ¬ (⟨Disk.zero, 1, nmeta⟩ : Mkfs).image.Holds s b := fun s b hs =>
    hs.1 rfl
  refine ⟨⟨⟨fun h₁ => absurd h₁ (hnone _ _), fun h₁ => absurd h₁ (hnone _ _)⟩, fun b _ => ?_⟩,
    ⟨fun _ hi => absurd rfl hi, fun _ hi => absurd rfl hi⟩, by decide, fun _ _ => rfl, fun _ _ => rfl⟩
  simp [Disk.Held, hnone]

end Mkfs

/-- Rounding a file's size up past its last block keeps it over mapped blocks,
unless the size is already a whole number of blocks. -/
theorem Mapped.roundUp {d : Disk} (h : Mapped d) {i : Nat} (hi : (d.inode i).type ≠ 0)
    (hmod : (d.inode i).size % BSIZE ≠ 0) :
    Mapped (d.setInode i { d.inode i with size := ((d.inode i).size / BSIZE + 1) * BSIZE }) := by
  have hle := h.size_le i hi
  refine h.setSize ?_ fun bn hbn hlt => h.below i hi bn hbn ?_
  · unfold MAXFILE NINDIRECT NDIRECT BSIZE at *
    omega
  · unfold BSIZE at *
    omega

/-- The image `mkfs` writes is its last state with the root's size rounded up;
that state has the invariant, and its root directory holds `.`, `..` and one
entry per file. -/
theorem mkfs_eq {files : List (List Nat)} {m : Mkfs} (hm : mkfs files = some m)
    (hfit : m.freeblock ≤ FSSIZE) :
    ∃ m₃ : Mkfs, m₃.Inv ∧ (m₃.image.inode ROOTINO).type ≠ 0 ∧
      (m₃.image.inode ROOTINO).size = (files.length + 2) * direntSize ∧
      m.disk = m₃.image.setInode ROOTINO { m₃.image.inode ROOTINO with
        size := ((m₃.image.inode ROOTINO).size / BSIZE + 1) * BSIZE } := by
  have hr : ((⟨Disk.zero, 1, nmeta⟩ : Mkfs).ialloc T_DIR).1 = ROOTINO := rfl
  simp only [mkfs, hr, ne_eq, not_true_eq_false, if_false, Option.bind_eq_bind,
    Option.bind_eq_some_iff] at hm
  obtain ⟨m₁, h₁, m₂, h₂, m₃, h₃, hm⟩ := hm
  split_ifs at hm with hsmall
  cases hm
  set r := (⟨Disk.zero, 1, nmeta⟩ : Mkfs).ialloc T_DIR
  have hr₀ : r.2.Inv := Mkfs.inv_zero.ialloc T_DIR
  have hroot₀ : (r.2.disk.inode ROOTINO).type = T_DIR ∧ (r.2.disk.inode ROOTINO).size = 0 := by
    simp [r, ROOTINO, Dinode.zero]
  obtain ⟨hle₁, hcond₁⟩ := Mkfs.iappend_spec h₁
  obtain ⟨hle₂, hcond₂⟩ := Mkfs.iappend_spec h₂
  -- the files, each with its entry in the root directory
  obtain ⟨hle₃, hcond₃⟩ := Option.foldlM_inv (fun (done : List (List Nat)) (a : Mkfs) =>
      m₂.freeblock ≤ a.freeblock ∧
      (a.freeblock ≤ FSSIZE → a.Inv ∧ (a.disk.inode ROOTINO).type ≠ 0 ∧
        (a.disk.inode ROOTINO).size = (2 + done.length) * direntSize))
    (fun done chunks a b ha hab => by
      obtain ⟨hle, hcond⟩ := ha
      obtain ⟨hab', hcond'⟩ := Mkfs.addFile_spec hab
      refine ⟨hle.trans hab', fun hfit => ?_⟩
      obtain ⟨ha, hroot, hsize⟩ := hcond (hab'.trans hfit)
      obtain ⟨hb, hroot', hsize'⟩ := hcond' hfit ha hroot
      refine ⟨hb, hroot', ?_⟩
      rw [hsize', hsize, List.length_append, List.length_singleton]
      unfold direntSize DIRSIZ
      omega)
    ⟨le_rfl, fun hfit₂ => by
      obtain ⟨h₁', -, htype₁, hsize₁⟩ := hcond₁ (hle₂.trans hfit₂) hr₀ (by simp [hroot₀.1, T_DIR])
      obtain ⟨h₂', -, htype₂, hsize₂⟩ := hcond₂ hfit₂ h₁' (by simp [htype₁, hroot₀.1, T_DIR])
      refine ⟨h₂', by simp [htype₂, htype₁, hroot₀.1, T_DIR], ?_⟩
      simp [hsize₂, hsize₁, hroot₀.2, direntSize, DIRSIZ]⟩ h₃
  obtain ⟨h₃', hroot₃, hsize₃⟩ := hcond₃ hfit
  exact ⟨m₃, h₃', hroot₃, by rw [Mkfs.image_inode, hsize₃, Nat.add_comm], rfl⟩

/-- The bitmap of the image marks the blocks below `freeblock`. -/
theorem mkfs_bitmap {files : List (List Nat)} {m : Mkfs} (hm : mkfs files = some m) (b : Nat) :
    m.disk.bitmap b = decide (b < m.freeblock) := by
  have hr : ((⟨Disk.zero, 1, nmeta⟩ : Mkfs).ialloc T_DIR).1 = ROOTINO := rfl
  simp only [mkfs, hr, ne_eq, not_true_eq_false, if_false, Option.bind_eq_bind,
    Option.bind_eq_some_iff] at hm
  obtain ⟨m₁, -, m₂, -, m₃, -, hm⟩ := hm
  split_ifs at hm
  cases hm
  rfl

/-- Every image `mkfs` writes, when its blocks fit, is accounted. -/
theorem mkfs_accounted {files : List (List Nat)} {m : Mkfs} (hm : mkfs files = some m)
    (hfit : m.freeblock ≤ FSSIZE) : Accounted m.disk := by
  obtain ⟨m₃, h, -, -, hd⟩ := mkfs_eq hm hfit
  rw [hd]
  exact h.acc.setSize ROOTINO _

/-- The image `mkfs` writes satisfies the kernel's invariant, when its blocks
fit in the file system and the root directory's entries do not end on a block
boundary. -/
theorem mkfs_inv {files : List (List Nat)} {m : Mkfs} (hm : mkfs files = some m)
    (hfit : m.freeblock ≤ FSSIZE) (hroot : (files.length + 2) * direntSize % BSIZE ≠ 0) :
    Inv m.disk := by
  obtain ⟨m₃, h, htype, hsize, hd⟩ := mkfs_eq hm hfit
  rw [hd]
  refine ⟨h.acc.setSize ROOTINO _, h.mapped.roundUp htype ?_⟩
  rwa [hsize]

/-- The image `mkfs` writes for no files: its blocks end at `47`, it has the invariant, and its
root directory is one block long. -/
theorem mkfs_nil_image : ∃ m, mkfs [] = some m ∧ m.freeblock = 47 ∧ Inv m.disk ∧
    (m.disk.inode ROOTINO).type = T_DIR ∧ (m.disk.inode ROOTINO).size = BSIZE := by
  obtain ⟨m, hm, hval⟩ := Option.map_eq_some_iff.mp
    (show (mkfs []).map (fun m => (m.freeblock, (m.disk.inode ROOTINO).type, (m.disk.inode ROOTINO).size)) =
      some (47, T_DIR, BSIZE) by decide)
  simp only [Prod.mk.injEq] at hval
  obtain ⟨hfb, htype, hroot⟩ := hval
  exact ⟨m, hm, hfb, mkfs_inv hm (by rw [hfb]; decide) (by decide), htype, hroot⟩


/-- With 62 files the root directory's 64 entries end on a block boundary: the
rounding makes its size two blocks over one allocated block, and the image is
not mapped below the root's size. -/
theorem mkfs_root_unmapped :
    ∃ m, mkfs (List.replicate 62 []) = some m ∧ m.freeblock ≤ FSSIZE ∧
      (m.disk.inode ROOTINO).size = 2 * BSIZE ∧ (m.disk.inode ROOTINO).addrs 1 = 0 ∧ ¬ Mapped m.disk := by
  obtain ⟨m, hm, hval⟩ := Option.map_eq_some_iff.mp
    (show (mkfs (List.replicate 62 [])).map (fun m => (m.freeblock, (m.disk.inode ROOTINO).type,
      (m.disk.inode ROOTINO).size, (m.disk.inode ROOTINO).addrs 1)) = some (47, T_DIR, 2048, 0) by decide)
  simp only [Prod.mk.injEq] at hval
  obtain ⟨hfb, htype, hsize, haddr⟩ := hval
  refine ⟨m, hm, by rw [hfb]; decide, hsize, haddr, fun h => ?_⟩
  -- the second block of the root lies below its size
  have hbelow := h.below ROOTINO (by rw [htype]; decide) 1 (by decide) (by rw [hsize]; decide)
  simp only [blockSlot, NDIRECT] at hbelow
  exact hbelow haddr

end Xv6.Fs
