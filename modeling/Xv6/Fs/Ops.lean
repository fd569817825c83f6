import Xv6.Fs.Blocks

/-!
# The file operations keep the accounting

`writei`'s loop calls `bmap` on each block it reaches, and a failed copy stops
the loop after the block is mapped: the new block stays held by the file and
marked. `readi` calls `bmap` too, but only below the file's size, where every
block is mapped (`Mapped`): a file's size only grows over blocks `writei` has
mapped. So `readi` changes nothing, and that it writes no dinode back loses
nothing. Where a block below the size is not mapped, `readi`'s `bmap` allocates
it, and its transaction commits a marked block that no dinode holds
(`Xv6.Fs.mkfs_root_read_leaks`).

`Inv` is the invariant of the file system's blocks: `Accounted` and `Mapped`.
Every operation keeps it (`Inv.step`), hence every run does (`Inv.run`).
-/

namespace Xv6.Fs

open Disk

variable {d d' d₁ : Disk} {s : Slot} {b : Nat}

/-- The slots read only the addresses and the blocks' contents. -/
theorem get_congr (haddrs : ∀ i, (d'.inode i).addrs = (d.inode i).addrs) (hind : d'.ind = d.ind) :
    d'.get s = d.get s := by
  cases s <;> simp [Disk.get, haddrs, hind]

@[simp] theorem blockSlot_inum (i bn : Nat) (h : bn < MAXFILE) : (blockSlot i bn h).inum = i := by
  unfold blockSlot
  split <;> rfl

theorem Disk.Holds.get_ne (h : d.Holds s b) : d.get s ≠ 0 := h.2.1 ▸ h.2.2

/-- Every block of inode `i` below byte `o` is mapped. -/
def Disk.MappedBelow (d : Disk) (i o : Nat) : Prop :=
  ∀ bn (h : bn < MAXFILE), bn * BSIZE < o → d.get (blockSlot i bn h) ≠ 0

/-- Every allocated file is at most `MAXFILE` blocks long, with every block
below its size mapped. -/
structure Mapped (d : Disk) : Prop where
  size_le : ∀ i, (d.inode i).type ≠ 0 → (d.inode i).size ≤ MAXFILE * BSIZE
  below : ∀ i, (d.inode i).type ≠ 0 → d.MappedBelow i (d.inode i).size

/-- The file system's blocks: the bitmap accounts for them, and files are
mapped below their size. -/
structure Inv (d : Disk) : Prop where
  acc : Accounted d
  mapped : Mapped d

theorem Disk.MappedBelow.mono {i o o' : Nat} (h : d.MappedBelow i o') (ho : o ≤ o') : d.MappedBelow i o :=
  fun bn hbn hlt => h bn hbn (by omega)

/-- Mapped blocks stay mapped as the disk grows. -/
theorem Disk.MappedBelow.grows {i o : Nat} (h : d.MappedBelow i o) (hg : Grows d d')
    (hi : (d.inode i).type ≠ 0) : d'.MappedBelow i o := by
  intro bn hbn hlt
  have ht : d.Holds (blockSlot i bn hbn) (d.get (blockSlot i bn hbn)) :=
    ⟨by rw [blockSlot_inum]; exact hi, rfl, h bn hbn hlt⟩
  exact (hg.mono ht).get_ne

/-- The bytes of one chunk of the loop lie in the block under its offset. -/
theorem block_of_chunk {off bn k : Nat} (hle : off ≤ bn * BSIZE)
    (hlt : bn * BSIZE < off + min k (BSIZE - off % BSIZE)) : bn = off / BSIZE := by
  unfold BSIZE at *
  omega

/-- Mapping the block under `off` maps everything below the end of its chunk. -/
theorem Disk.MappedBelow.extend {i off k : Nat} (h : d.MappedBelow i off) (hbn : off / BSIZE < MAXFILE)
    (ha : d.get (blockSlot i (off / BSIZE) hbn) ≠ 0) :
    d.MappedBelow i (off + min k (BSIZE - off % BSIZE)) := by
  intro bn hbn' hlt
  by_cases hle : bn * BSIZE < off
  · exact h bn hbn' hle
  · obtain rfl := block_of_chunk (by omega) hlt
    exact ha

/-- `bmap` of a mapped block returns it and changes nothing. -/
theorem bmap_of_get {i bn : Nat} (hbn : bn < MAXFILE) (h : d.get (blockSlot i bn hbn) ≠ 0) :
    d.bmap i bn = some (d.get (blockSlot i bn hbn), d) := by
  unfold Disk.bmap blockSlot at *
  by_cases hd : bn < NDIRECT
  · simp only [dif_pos hd, get_direct, Fin.castSucc_mk] at h ⊢
    simp [Disk.addrAlloc, h]
  · have hd' : bn - NDIRECT < NINDIRECT := sub_NDIRECT_lt hbn hd
    simp only [dif_neg hd, dif_pos hd', get_entry] at h ⊢
    split_ifs at h ⊢ with hia
    · exact absurd rfl h
    · simp [Disk.addrAlloc, Disk.entryAlloc, hia, h]

/-- The loop over mapped blocks succeeds and changes nothing. -/
theorem rwLoop_of_mapped {i n : Nat} {copyOk : Nat → Bool} :
    ∀ {fuel tot off : Nat}, d.MappedBelow i (off + (n - tot)) → off + (n - tot) ≤ MAXFILE * BSIZE →
      ∃ off', d.rwLoop i n copyOk fuel tot off = some (off', d)
  | 0, _, off, _, _ => ⟨off, rfl⟩
  | fuel + 1, tot, off, hm, hmax => by
    by_cases htot : tot < n
    · have hbn : off / BSIZE < MAXFILE := by
        unfold BSIZE at *
        omega
      have ha := hm (off / BSIZE) hbn (by unfold BSIZE; omega)
      simp only [Disk.rwLoop, if_pos htot, bmap_of_get hbn ha]
      split
      · -- the next chunk starts where this one ends, with as much left to do
        have hm' := min_le_left (n - tot) (BSIZE - off % BSIZE)
        exact rwLoop_of_mapped (hm.mono (by omega)) (by omega)
      · exact ⟨off, rfl⟩
    · exact ⟨off, by simp [Disk.rwLoop, htot]⟩

/-- The loop of `writei` grows the disk, maps every block up to the offset it
reaches, and moves no further than the request. -/
theorem Accounted.rwLoop {i n : Nat} {copyOk : Nat → Bool} :
    ∀ {fuel tot off off' : Nat} {d d' : Disk}, Accounted d → (d.inode i).type ≠ 0 →
      d.MappedBelow i off → off + (n - tot) ≤ MAXFILE * BSIZE →
      d.rwLoop i n copyOk fuel tot off = some (off', d') →
      Grows d d' ∧ d'.MappedBelow i off' ∧ off ≤ off' ∧ off' ≤ off + (n - tot)
  | 0, _, _, _, _, _, h, _, hm, _, hr => by
    cases hr
    exact ⟨Grows.refl h, hm, le_rfl, by omega⟩
  | fuel + 1, tot, off, off', d, d', h, hi, hm, hmax, hr => by
    by_cases htot : tot < n
    · have hbn : off / BSIZE < MAXFILE := by
        unfold BSIZE at *
        omega
      simp only [Disk.rwLoop, if_pos htot] at hr
      split at hr
      · cases hr
      · next a d₁ hb =>
        obtain ⟨hg, ha⟩ := h.bmap hi hbn hb
        -- the block under `off` is mapped now, so is the chunk
        have hm₁ : d₁.MappedBelow i (off + min (n - tot) (BSIZE - off % BSIZE)) :=
          (hm.grows hg hi).extend hbn ha.get_ne
        have hle := min_le_left (n - tot) (BSIZE - off % BSIZE)
        split at hr
        · obtain ⟨hg', hm', h₁, h₂⟩ := Accounted.rwLoop hg.acc (by rwa [hg.type]) hm₁ (by omega) hr
          exact ⟨hg.trans hg', hm', by omega, by omega⟩
        · cases hr
          exact ⟨hg, hm₁.mono (by omega), le_rfl, by omega⟩
    · simp only [Disk.rwLoop, if_neg htot] at hr
      cases hr
      exact ⟨Grows.refl h, hm, le_rfl, by omega⟩

/-- A disk that grew from a mapped one is mapped. -/
theorem Mapped.of_grows (h : Mapped d) (hg : Grows d d') : Mapped d' := by
  refine ⟨fun i hi => ?_, fun i hi => ?_⟩
  · rw [hg.size]
    exact h.size_le i (by rwa [← hg.type])
  · rw [hg.size]
    exact (h.below i (by rwa [← hg.type])).grows hg (by rwa [← hg.type])

/-- Raising the size of a file over blocks that are mapped. -/
theorem Mapped.setSize (h : Mapped d) {i o : Nat} (ho : o ≤ MAXFILE * BSIZE)
    (hmo : d.MappedBelow i o) : Mapped (d.setInode i { d.inode i with size := o }) := by
  have hget : ∀ s, (d.setInode i { d.inode i with size := o }).get s = d.get s := fun s =>
    get_congr (fun i' => by by_cases hii : i' = i <;> simp [hii]) rfl
  refine ⟨fun i' hi' => ?_, fun i' hi' bn hbn hlt => ?_⟩
  · by_cases hii : i' = i
    · subst hii
      simpa using ho
    · simp only [setInode_inode, Function.update_of_ne hii] at hi' ⊢
      exact h.size_le i' hi'
  · rw [hget]
    by_cases hii : i' = i
    · subst hii
      exact hmo bn hbn (by simpa using hlt)
    · simp only [setInode_inode, Function.update_of_ne hii] at hi' hlt
      exact h.below i' hi' bn hbn hlt

/-- `writei` on an allocated inode keeps the invariant. -/
theorem Inv.writei (h : Inv d) {i off n : Nat} {copyOk : Nat → Bool} {r : Int}
    (hi : (d.inode i).type ≠ 0) (hw : d.writei i off n copyOk = some (r, d')) : Inv d' := by
  unfold Disk.writei at hw
  split_ifs at hw with h₁ h₂
  · cases hw
    exact h
  · cases hw
    exact h
  · simp only [Option.bind_eq_bind, Option.bind_eq_some_iff] at hw
    obtain ⟨⟨off', d₁⟩, hr, hw⟩ := hw
    cases hw
    -- the loop starts inside the file, over mapped blocks
    have hoff : off ≤ (d.inode i).size := by omega
    obtain ⟨hg, hm, -, hle⟩ :=
      h.acc.rwLoop hi ((h.mapped.below i hi).mono hoff) (by omega) hr
    have hsize := hg.size i
    have hmap := h.mapped.of_grows hg
    split_ifs with hgrow
    · refine ⟨hg.acc.congr (fun s b => holds_congr (fun i' => ?_) (fun i' => ?_) rfl) rfl,
        hmap.setSize (by omega) hm⟩
      all_goals
        by_cases hii : i' = i
        · subst hii
          simp
        · simp [hii]
    · exact ⟨hg.acc, hmap⟩

/-- On a mapped disk `readi` succeeds and changes nothing: every block it reads
lies below the size, so `bmap` finds it mapped. -/
theorem Mapped.readi (h : Mapped d) {i off n : Nat} (copyOk : Nat → Bool) (hi : (d.inode i).type ≠ 0) :
    ∃ r, d.readi i off n copyOk = some (r, d) := by
  unfold Disk.readi
  by_cases h₁ : off > (d.inode i).size ∨ 2 ^ 32 ≤ off + n
  · exact ⟨-1, by rw [if_pos h₁]⟩
  · rw [if_neg h₁]
    -- a request ending inside the file reads mapped blocks only
    have hread : ∀ n', off + n' ≤ (d.inode i).size → ∃ off', d.rwLoop i n' copyOk n' 0 off = some (off', d) :=
      fun n' hn' => rwLoop_of_mapped ((h.below i hi).mono (by omega)) (by have := h.size_le i hi; omega)
    split_ifs with h₂
    · obtain ⟨off', hr⟩ := hread ((d.inode i).size - off) (by omega)
      exact ⟨((d.inode i).size - off : Nat), by simp [hr]⟩
    · obtain ⟨off', hr⟩ := hread n (by omega)
      exact ⟨(n : Int), by simp [hr]⟩

/-- A write from a buffer that cannot be read: `writei` copies nothing into a
5-byte file, leaves the disk as it was, and returns the 10 bytes asked for; a
read into such a buffer returns 5. -/
theorem writei_reports_uncopied :
    let d : Disk := ⟨fun b => decide (b ≤ 100),
      Function.update (fun _ => Dinode.zero) 2 ⟨T_FILE, 1, 5, Function.update (fun _ => 0) 0 100⟩, fun _ _ => 0⟩
    d.writei 2 5 10 (fun _ => false) = some (10, d) ∧ d.readi 2 0 5 (fun _ => false) = some (5, d) := by
  intro d
  constructor <;> rfl

/-- A disk equal to a mapped one on every inode but `i`, which is empty. -/
theorem Mapped.of_empty (h : Mapped d) {i : Nat} (hother : ∀ i', i' ≠ i → d'.inode i' = d.inode i')
    (hind : d'.ind = d.ind) (hsize : (d'.inode i).size = 0) : Mapped d' := by
  refine ⟨fun i' hi' => ?_, fun i' hi' bn hbn hlt => ?_⟩
  · by_cases hii : i' = i
    · subst hii
      omega
    · rw [hother i' hii] at hi' ⊢
      exact h.size_le i' hi'
  · by_cases hii : i' = i
    · subst hii
      omega
    · have hget : d'.get (blockSlot i' bn hbn) = d.get (blockSlot i' bn hbn) := by
        unfold blockSlot
        split <;> simp [Disk.get, hother i' hii, hind]
      rw [hother i' hii] at hi' hlt
      rw [hget]
      exact h.below i' hi' bn hbn hlt

/-- Every operation keeps the invariant. -/
theorem Inv.step (h : Inv d) {o : Op} (hs : d.step o = some d') : Inv d' := by
  cases o with
  | ialloc type =>
    simp only [Disk.step] at hs
    split_ifs at hs
    obtain ⟨⟨inum, d₁⟩, hb, rfl⟩ := Option.map_eq_some_iff.mp hs
    obtain ⟨h0, -, -, rfl⟩ := ialloc_spec hb
    exact ⟨h.acc.ialloc hb,
      h.mapped.of_empty (fun i' (hi' : i' ≠ inum) => by simp [hi']) rfl (by simp [Dinode.zero])⟩
  | writei i off n copyOk =>
    simp only [Disk.step] at hs
    split_ifs at hs with hi
    obtain ⟨⟨r, d₁⟩, hw, rfl⟩ := Option.map_eq_some_iff.mp hs
    exact h.writei hi hw
  | readi i off n copyOk =>
    simp only [Disk.step] at hs
    split_ifs at hs with hi
    obtain ⟨r, hr⟩ := h.mapped.readi copyOk hi
    rw [hr] at hs
    cases hs
    exact h
  | iput i =>
    simp only [Disk.step] at hs
    split_ifs at hs with hi
    obtain ⟨d₁, hd₁, hacc, -, hsize, hother, hind, -⟩ := h.acc.ifree hi
    rw [hd₁] at hs
    cases hs
    exact ⟨hacc, h.mapped.of_empty hother hind hsize⟩

/-- Every run keeps the invariant. -/
theorem Inv.run (h : Inv d) {os : List Op} (hr : d.run os = some d') : Inv d' := by
  induction os generalizing d with
  | nil =>
    cases hr
    exact h
  | cons o os ih =>
    simp only [Disk.run, Option.bind_eq_some_iff] at hr
    obtain ⟨d₁, h₁, hr⟩ := hr
    exact ih (h.step h₁) hr

end Xv6.Fs
