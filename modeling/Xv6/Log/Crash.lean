import Xv6.Lib.Crash
import Xv6.Log.Basic

/-!
# Crash atomicity of the log

`commit` writes a transaction in four phases: `write_log` copies every logged
block into its slot of the log, `write_head` writes the header (the commit
point), `install_trans` copies each slot to its home block, and a last
`write_head` clears the header. At boot `recover_from_log` reads the header and,
if it names blocks, installs them again and clears it.

The disk is a header block, read as a `struct logheader`, and the contents of
every other block; each `bwrite` is one atomic write, a function of the disk
as the earlier writes left it (`install_trans` writes what it has just read
from a log slot). Reads go through the buffer cache, which here holds what the
disk holds for the log's blocks; the transaction's new contents are the
cache's `cache b` for each logged block `b`. A crash keeps a prefix of the
writes (`Xv6.Lib.Crash`).

`commit_atomic` is the result: whatever prefix of a commit reached the disk,
and however often recovery itself is cut short and re-run, the recovered disk
holds, outside the log region, either the contents from before the
transaction or the contents with all of it installed, and an empty header. It
rests on one classification of the disk (`Recoverable`): still as before,
committed (header written, log slots full), or installed and cleared.
-/

namespace Xv6.Log

/-- The disk as the log sees it: the header block, read as a header, and the
contents of the other blocks. -/
structure Disk (β : Type) where
  hdr : LogHeader
  blk : Nat → β

/-- One `bwrite`: the header block, or block `b` with contents `v`. -/
inductive BWrite (β : Type) where
  | head (h : LogHeader)
  | data (b : Nat) (v : β)

namespace Disk

variable {β : Type}

def write (d : Disk β) : BWrite β → Disk β
  | .head h => { d with hdr := h }
  | .data b v => { d with blk := Function.update d.blk b v }

/-- A step of the code that issues one `bwrite`, computed from the disk as the
earlier writes left it. -/
def bwrite (w : Disk β → BWrite β) (d : Disk β) : Disk β := d.write (w d)

/-! ## The writes of `log.c` -/

/-- `write_log`: slot `tail` of the log gets the cached contents of block
`lh.block[tail]`. -/
def write_log (l : Log) (cache : Nat → β) : List (Disk β → Disk β) :=
  (List.range l.lh.n).map fun tail =>
    bwrite fun _ => .data (l.start + tail + 1) (cache (l.lh.block tail))

/-- `write_head`: the header block gets `n` and the first `n` slots of the
in-memory header. -/
def write_head (l : Log) : Disk β → Disk β :=
  bwrite fun d => .head (l.lh.copyInto d.hdr)

/-- `install_trans`: block `lh.block[tail]` gets the contents of log slot
`tail`, as it reads them. -/
def install_trans (l : Log) : List (Disk β → Disk β) :=
  (List.range l.lh.n).map fun tail =>
    bwrite fun d => .data (l.lh.block tail) (d.blk (l.start + tail + 1))

/-- `commit`: nothing for an empty transaction; else log, commit point,
install, clear. -/
def commit (l : Log) (cache : Nat → β) : List (Disk β → Disk β) :=
  if l.lh.n > 0 then
    write_log l cache ++ [write_head l] ++ install_trans l ++
      [write_head { l with lh := { l.lh with n := 0 } }]
  else []

/-- `recover_from_log` on disk `d`: `read_head` loads the header `d` holds, then
the install and the clearing `write_head`. -/
def recover_from_log (l : Log) (d : Disk β) : List (Disk β → Disk β) :=
  let l := { l with lh := d.hdr.copyInto l.lh }
  install_trans l ++ [write_head { l with lh := { l.lh with n := 0 } }]

/-- Recovery cut short after `k` writes for each `k` of `ks` in turn, each time
re-run on the disk the crash left, and at last run to its end. -/
def recoverAfter (l : Log) (d : Disk β) : List Nat → Disk β
  | [] => Crash.run d (recover_from_log l d)
  | k :: ks => recoverAfter l (Crash.run d ((recover_from_log l d).take k)) ks

@[simp] theorem write_head_hdr (l : Log) (d : Disk β) :
    (write_head l d).hdr = l.lh.copyInto d.hdr := rfl

@[simp] theorem write_head_blk (l : Log) (d : Disk β) : (write_head l d).blk = d.blk := rfl

end Disk

/-! ## What recovery may find -/

section Atomic

variable {β : Type} (l : Log) (cache : Nat → β) (d₀ : Disk β)

/-- Block `b` lies outside the log region `[start, start + size)`. -/
def Outside (b : Nat) : Prop := b < l.start ∨ l.start + l.size ≤ b

/-- The transaction writes block `b`. -/
def Logged (b : Nat) : Prop := ∃ t < l.lh.n, l.lh.block t = b

instance (b : Nat) : Decidable (Logged l b) :=
  inferInstanceAs (Decidable (∃ t, t < l.lh.n ∧ l.lh.block t = b))

/-- The disk with the whole transaction installed: each logged block with its
cached contents, the others as before. -/
def installed (b : Nat) : β := if Logged l b then cache b else d₀.blk b

/-- An empty header, and outside the log the contents from before. -/
def Before (d : Disk β) : Prop := d.hdr.n = 0 ∧ ∀ b, Outside l b → d.blk b = d₀.blk b

/-- An empty header, and outside the log the transaction installed. -/
def After (d : Disk β) : Prop :=
  d.hdr.n = 0 ∧ ∀ b, Outside l b → d.blk b = installed l cache d₀ b

/-- The transaction committed: the header on the disk names its blocks, the log
slots hold their new contents, every home block is old or new, and the first
`j` are installed. -/
structure Committed (j : Nat) (d : Disk β) : Prop where
  hdr_n : d.hdr.n = l.lh.n
  hdr_block : ∀ t < l.lh.n, d.hdr.block t = l.lh.block t
  slot : ∀ t < l.lh.n, d.blk (l.start + t + 1) = cache (l.lh.block t)
  home : ∀ b, Outside l b → d.blk b = d₀.blk b ∨ d.blk b = installed l cache d₀ b
  done : ∀ t < j, d.blk (l.lh.block t) = cache (l.lh.block t)

/-- The disks a crash during a commit, or during recovery, can leave. -/
def Recoverable (d : Disk β) : Prop :=
  Before l d₀ d ∨ Committed l cache d₀ 0 d ∨ After l cache d₀ d

variable {l cache d₀}

theorem Committed.mono {j j' : Nat} {d : Disk β} (h : Committed l cache d₀ j d) (hj : j' ≤ j) :
    Committed l cache d₀ j' d :=
  ⟨h.hdr_n, h.hdr_block, h.slot, h.home, fun t ht => h.done t (by omega)⟩

/-- A write that empties the header leaves a disk as before, or installed, as it
found it. -/
theorem before_write_head {l' : Log} (hn : l'.lh.n = 0) {d : Disk β} (h : Before l d₀ d) :
    Before l d₀ (Disk.write_head l' d) :=
  ⟨by simp [LogHeader.copyInto, hn], h.2⟩

theorem after_write_head {l' : Log} (hn : l'.lh.n = 0) {d : Disk β}
    (h : After l cache d₀ d) : After l cache d₀ (Disk.write_head l' d) :=
  ⟨by simp [LogHeader.copyInto, hn], h.2⟩

/-! ## The phases of a commit -/

/-- The log slots lie inside the log region, apart from every home block. -/
theorem slot_ne_of_outside (hroom : l.lh.n < l.size) {t b : Nat} (ht : t < l.lh.n)
    (hb : Outside l b) : l.start + t + 1 ≠ b := by
  unfold Outside at hb
  omega

variable (l cache d₀) in
/-- `write_log` has filled the first `j` slots and touched nothing else. -/
def Filled (j : Nat) (d : Disk β) : Prop :=
  d.hdr = d₀.hdr ∧ (∀ b, Outside l b → d.blk b = d₀.blk b) ∧
    ∀ t < j, d.blk (l.start + t + 1) = cache (l.lh.block t)

/-- `write_log` writes slot `j`, inside the log region and apart from the
slots already written. -/
theorem Filled.step (hroom : l.lh.n < l.size) {j : Nat} (hj : j < l.lh.n) {d : Disk β}
    (h : Filled l cache d₀ j d) :
    Filled l cache d₀ (j + 1)
      (Disk.bwrite (fun _ => .data (l.start + j + 1) (cache (l.lh.block j))) d) := by
  obtain ⟨hhdr, hhome, hslot⟩ := h
  refine ⟨hhdr, fun b hb => ?_, fun t ht => ?_⟩
  · simp only [Disk.bwrite, Disk.write]
    rw [Function.update_of_ne (slot_ne_of_outside hroom hj hb).symm]
    exact hhome b hb
  · simp only [Disk.bwrite, Disk.write]
    by_cases htj : t = j
    · subst htj
      rw [Function.update_self]
    · rw [Function.update_of_ne (by omega)]
      exact hslot t (by omega)

/-- The commit point: the header written over a filled log. -/
theorem Filled.write_head {d : Disk β} (h : Filled l cache d₀ l.lh.n d) :
    Committed l cache d₀ 0 (Disk.write_head l d) := by
  obtain ⟨-, hhome, hslot⟩ := h
  refine ⟨by simp [LogHeader.copyInto], fun t ht => by simp [LogHeader.copyInto, ht], hslot,
    fun b hb => .inl (hhome b hb), fun t ht => absurd ht (Nat.not_lt_zero t)⟩

/-- `install_trans` copies slot `j` to its home block: the value it reads is
the block's new contents. -/
theorem Committed.install_step (hroom : l.lh.n < l.size)
    (hout : ∀ t < l.lh.n, Outside l (l.lh.block t)) {j : Nat} (hj : j < l.lh.n) {d : Disk β}
    (h : Committed l cache d₀ j d) :
    Committed l cache d₀ (j + 1)
      (Disk.bwrite (fun d => .data (l.lh.block j) (d.blk (l.start + j + 1))) d) := by
  have hv : d.blk (l.start + j + 1) = cache (l.lh.block j) := h.slot j hj
  have hlog : Logged l (l.lh.block j) := ⟨j, hj, rfl⟩
  refine ⟨h.hdr_n, h.hdr_block, fun t ht => ?_, fun b hb => ?_, fun t ht => ?_⟩ <;>
    simp only [Disk.bwrite, Disk.write]
  · rw [Function.update_of_ne (slot_ne_of_outside hroom ht (hout j hj))]
    exact h.slot t ht
  · by_cases hbj : b = l.lh.block j
    · subst hbj
      rw [Function.update_self, hv]
      exact .inr (by simp [installed, hlog])
    · rw [Function.update_of_ne hbj]
      exact h.home b hb
  · by_cases hbt : l.lh.block t = l.lh.block j
    · rw [hbt, Function.update_self, hv]
    · rw [Function.update_of_ne hbt]
      have htj : t ≠ j := fun htj => hbt (htj ▸ rfl)
      exact h.done t (by omega)

/-- The clearing `write_head` after a complete install. -/
theorem Committed.clear {l' : Log} (hn : l'.lh.n = 0) {d : Disk β}
    (h : Committed l cache d₀ l.lh.n d) : After l cache d₀ (Disk.write_head l' d) := by
  refine ⟨by simp [LogHeader.copyInto, hn], fun b hb => ?_⟩
  rw [Disk.write_head_blk]
  by_cases hlog : Logged l b
  · obtain ⟨t, ht, rfl⟩ := hlog
    rw [h.done t ht]
    simp [installed, show Logged l (l.lh.block t) from ⟨t, ht, rfl⟩]
  · rcases h.home b hb with hold | hnew
    · rw [hold]
      simp [installed, hlog]
    · exact hnew

/-! ## Recovery -/

/-- Recovery from a disk whose header is empty only clears it again. -/
theorem recover_from_log_of_clean (l₁ : Log) {d : Disk β} (h : d.hdr.n = 0) :
    ∃ l'' : Log, l''.lh.n = 0 ∧ Disk.recover_from_log l₁ d = [Disk.write_head l''] :=
  ⟨{ l₁ with lh := { d.hdr.copyInto l₁.lh with n := 0 } }, rfl,
    by simp [Disk.recover_from_log, Disk.install_trans, LogHeader.copyInto, h]⟩

/-- Two logs that agree on the start and on the slots below `n` install alike. -/
theorem install_trans_congr {l' : Log} (hstart : l'.start = l.start) (hn : l'.lh.n = l.lh.n)
    (hblock : ∀ t < l.lh.n, l'.lh.block t = l.lh.block t) :
    (Disk.install_trans l' : List (Disk β → Disk β)) = Disk.install_trans l := by
  unfold Disk.install_trans
  rw [hn]
  refine List.map_congr_left fun t ht => ?_
  rw [hblock t (List.mem_range.mp ht), hstart]

/-- Recovery from a committed disk reads the transaction's header back: its
install is the commit's. -/
theorem Committed.recover_from_log {l₁ : Log} (hstart : l₁.start = l.start) {j : Nat}
    {d : Disk β} (h : Committed l cache d₀ j d) :
    ∃ l'' : Log, l''.lh.n = 0 ∧
      Disk.recover_from_log l₁ d = Disk.install_trans l ++ [Disk.write_head l''] := by
  refine ⟨{ l₁ with lh := { d.hdr.copyInto l₁.lh with n := 0 } }, rfl, ?_⟩
  have hcongr : Disk.install_trans { l₁ with lh := d.hdr.copyInto l₁.lh } =
      (Disk.install_trans l : List (Disk β → Disk β)) :=
    install_trans_congr hstart (by simp [LogHeader.copyInto, h.hdr_n])
      fun t ht => by simp [LogHeader.copyInto, h.hdr_n, ht, h.hdr_block t ht]
  unfold Disk.recover_from_log
  dsimp only
  rw [hcongr]

/-! ## Every crash point -/

section CrashPoints

variable (hroom : l.lh.n < l.size) (hout : ∀ t < l.lh.n, Outside l (l.lh.block t))
include hroom

/-- Every crash point of `write_log` is as before; at its end the log is full. -/
theorem filled_write_log (hclean : d₀.hdr.n = 0) :
    (∀ k, Before l d₀ (Crash.run d₀ ((Disk.write_log l cache).take k))) ∧
      Filled l cache d₀ l.lh.n (Crash.run d₀ (Disk.write_log l cache)) := by
  -- the loop invariant, after each number of iterations
  have hloop := Crash.run_range_induction
    (fun tail => Disk.bwrite fun _ => .data (l.start + tail + 1) (cache (l.lh.block tail)))
    (Filled l cache d₀) ⟨rfl, fun _ _ => rfl, fun t ht => absurd ht (Nat.not_lt_zero t)⟩
    (fun j hj d h => h.step hroom hj)
  refine ⟨fun k => ?_, hloop l.lh.n le_rfl⟩
  unfold Disk.write_log
  rw [Crash.take_map_range]
  obtain ⟨hhdr, hhome, -⟩ := hloop (min k l.lh.n) (min_le_right _ _)
  exact ⟨by rw [hhdr, hclean], hhome⟩

include hout

/-- Every crash point of `install_trans` on a committed disk is committed; at its
end every block is installed. -/
theorem committed_install_trans {d : Disk β} (h : Committed l cache d₀ 0 d) :
    (∀ k, Committed l cache d₀ 0 (Crash.run d ((Disk.install_trans l).take k))) ∧
      Committed l cache d₀ l.lh.n (Crash.run d (Disk.install_trans l)) := by
  have hloop := Crash.run_range_induction
    (fun tail => Disk.bwrite fun d => .data (l.lh.block tail) (d.blk (l.start + tail + 1)))
    (Committed l cache d₀) h (fun j hj d h => h.install_step hroom hout hj)
  refine ⟨fun k => ?_, hloop l.lh.n le_rfl⟩
  unfold Disk.install_trans
  rw [Crash.take_map_range]
  exact (hloop (min k l.lh.n) (min_le_right _ _)).mono (Nat.zero_le _)

/-- Every crash point of a commit from a clean log is recoverable. -/
theorem recoverable_commit (hclean : d₀.hdr.n = 0) (k : Nat) :
    Recoverable l cache d₀ (Crash.run d₀ ((Disk.commit l cache).take k)) := by
  unfold Disk.commit
  split_ifs with hn
  · obtain ⟨hlog, hfull⟩ := filled_write_log hroom hclean
    -- the commit point: before it, a filled log; after it, a committed disk
    have hhead : ∀ d, Filled l cache d₀ l.lh.n d →
        ∀ k, Recoverable l cache d₀ (Crash.run d ([Disk.write_head l].take k)) := by
      intro d hd k
      rcases Crash.run_take_singleton d (Disk.write_head l) k with h | h <;> rw [h]
      · exact .inl ⟨by rw [hd.1, hclean], hd.2.1⟩
      · exact .inr (.inl hd.write_head)
    have hcommitted : Committed l cache d₀ 0
        (Crash.run d₀ (Disk.write_log l cache ++ [Disk.write_head l])) := by
      rw [Crash.run_append]
      exact hfull.write_head
    have hinstall : ∀ d, Committed l cache d₀ 0 d →
        ∀ k, Recoverable l cache d₀ (Crash.run d ((Disk.install_trans l).take k)) :=
      fun d hd k => .inr (.inl ((committed_install_trans hroom hout hd).1 k))
    have hinstalled : Committed l cache d₀ l.lh.n
        (Crash.run d₀ (Disk.write_log l cache ++ [Disk.write_head l] ++ Disk.install_trans l)) := by
      rw [Crash.run_append]
      exact (committed_install_trans hroom hout hcommitted).2
    -- the clearing write: before it every block installed, after it an empty header
    have hclear : ∀ d, Committed l cache d₀ l.lh.n d → ∀ k, Recoverable l cache d₀
        (Crash.run d ([Disk.write_head { l with lh := { l.lh with n := 0 } }].take k)) := by
      intro d hd k
      rcases Crash.run_take_singleton d (Disk.write_head { l with lh := { l.lh with n := 0 } }) k
        with h | h <;> rw [h]
      · exact .inr (.inl (hd.mono (Nat.zero_le _)))
      · exact .inr (.inr (hd.clear rfl))
    refine Crash.crash_append (fun k => ?_) hinstalled hclear k
    refine Crash.crash_append (fun k => ?_) hcommitted hinstall k
    exact Crash.crash_append (fun k => .inl (hlog k)) hfull hhead k
  · -- an empty transaction writes nothing
    rw [List.take_nil, Crash.run_nil]
    exact .inl ⟨hclean, fun _ _ => rfl⟩

/-- Every crash point of recovery from a recoverable disk is recoverable, and a
recovery that runs to its end leaves the disk as before or installed. -/
theorem Recoverable.recover {l₁ : Log} (hstart : l₁.start = l.start) {d : Disk β}
    (h : Recoverable l cache d₀ d) :
    (∀ k, Recoverable l cache d₀ (Crash.run d ((Disk.recover_from_log l₁ d).take k))) ∧
      (Before l d₀ (Crash.run d (Disk.recover_from_log l₁ d)) ∨
        After l cache d₀ (Crash.run d (Disk.recover_from_log l₁ d))) := by
  rcases h with hb | hc | ha
  · -- nothing committed: recovery only rewrites the empty header
    obtain ⟨l'', hn, hrec⟩ := recover_from_log_of_clean l₁ hb.1
    rw [hrec]
    refine ⟨fun k => ?_, .inl (before_write_head hn hb)⟩
    rcases Crash.run_take_singleton d (Disk.write_head l'') k with h | h <;> rw [h]
    · exact .inl hb
    · exact .inl (before_write_head hn hb)
  · -- committed: recovery installs what the commit would have
    obtain ⟨l'', hn, hrec⟩ := hc.recover_from_log hstart
    rw [hrec]
    obtain ⟨hcrash, hend⟩ := committed_install_trans hroom hout hc
    refine ⟨fun k => Crash.crash_append (fun k => .inr (.inl (hcrash k))) hend
      (fun d' hd' k => ?_) k, ?_⟩
    · rcases Crash.run_take_singleton d' (Disk.write_head l'') k with h | h <;> rw [h]
      · exact .inr (.inl (hd'.mono (Nat.zero_le _)))
      · exact .inr (.inr (hd'.clear hn))
    · rw [Crash.run_append]
      exact .inr (by simpa using hend.clear hn)
  · -- installed and cleared: recovery only rewrites the empty header
    obtain ⟨l'', hn, hrec⟩ := recover_from_log_of_clean l₁ ha.1
    rw [hrec]
    refine ⟨fun k => ?_, .inr (after_write_head hn ha)⟩
    rcases Crash.run_take_singleton d (Disk.write_head l'') k with h | h <;> rw [h]
    · exact .inr (.inr ha)
    · exact .inr (.inr (after_write_head hn ha))

/-- However often recovery is cut short and re-run, the recovered disk is as
before or installed. -/
theorem recoverAfter_atomic {l₁ : Log} (hstart : l₁.start = l.start) (ks : List Nat) :
    ∀ {d : Disk β}, Recoverable l cache d₀ d →
      Before l d₀ (Disk.recoverAfter l₁ d ks) ∨ After l cache d₀ (Disk.recoverAfter l₁ d ks) := by
  induction ks with
  | nil => exact fun h => (h.recover hroom hout hstart).2
  | cons k ks ih => exact fun h => ih ((h.recover hroom hout hstart).1 k)

end CrashPoints

end Atomic

/-- Crash atomicity of `commit`: from a disk whose header is empty, cut a commit
after any number of writes, run recovery, cut short and re-run as often as
`ks` says, with a boot log at the same place; the disk recovered has an empty
header and, outside the log region, either its contents from before the
transaction or all of the transaction installed. -/
theorem commit_atomic {β : Type} (l l₁ : Log) (cache : Nat → β) (d₀ : Disk β)
    (hclean : d₀.hdr.n = 0) (hroom : l.lh.n < l.size)
    (hout : ∀ t < l.lh.n, Outside l (l.lh.block t)) (hstart : l₁.start = l.start)
    (k : Nat) (ks : List Nat) :
    Before l d₀ (Disk.recoverAfter l₁ (Crash.run d₀ ((Disk.commit l cache).take k)) ks) ∨
      After l cache d₀ (Disk.recoverAfter l₁ (Crash.run d₀ ((Disk.commit l cache).take k)) ks) :=
  recoverAfter_atomic hroom hout hstart ks (recoverable_commit hroom hout hclean k)

/-- A transaction of one block, block 40, in the log at block 2. -/
def oneBlockLog : Log := ⟨2, LOGSIZE, 0, false, ROOTDEV, ⟨1, fun _ => 40⟩⟩

/-- A disk of zeros with an empty header. -/
def zeroDisk : Disk Nat := ⟨⟨0, fun _ => 0⟩, fun _ => 0⟩

/-- The commit of `oneBlockLog` over `zeroDisk`, cut after its third write (the
home block), then a recovery cut after one write and a full one. -/
theorem commit_atomic_one_block :
    Before oneBlockLog zeroDisk
        (Disk.recoverAfter mkfsLog (Crash.run zeroDisk ((Disk.commit oneBlockLog fun _ => 7).take 3)) [1]) ∨
      After oneBlockLog (fun _ => 7) zeroDisk
        (Disk.recoverAfter mkfsLog (Crash.run zeroDisk ((Disk.commit oneBlockLog fun _ => 7).take 3)) [1]) :=
  commit_atomic oneBlockLog mkfsLog (fun _ => 7) zeroDisk rfl (by decide)
    (fun _ _ => Or.inr (show 2 + LOGSIZE ≤ 40 by decide)) rfl 3 [1]

end Xv6.Log
