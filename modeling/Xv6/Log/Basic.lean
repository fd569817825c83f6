import Mathlib
import Xv6.Param

/-!
# The log

`kernel/log.c` groups the updates of concurrent file-system calls into one
transaction per disk. A call brackets its work between `begin_op` and
`end_op`. `begin_op` admits a call only when no commit is running and the log
keeps room for `MAXOPBLOCKS` blocks per outstanding call; `log_write` records a
modified block in the in-memory header, absorbing a second write of a block
already recorded; the `end_op` that leaves no call outstanding commits.

The record `Log` has the fields of `struct log` that the entry points use,
with C's types where they matter: `outstanding` is an `int`, and the header's
`block` array is a function from slot to block number. `begin_op` returns
`none` where the code sleeps on `&log`; a panic is `Except.error` with the
code's message. The disk writes of `commit` and of recovery are in
`Xv6.Log.Crash`, and the buffer-cache calls in `Xv6.Log.Cache`.
-/

namespace Xv6

/-- `struct logheader`: the number of logged blocks and their block numbers. -/
structure LogHeader where
  n : Nat
  block : Nat → Nat

/-- The copy loops of `read_head` and `write_head`: `n` and the first `n`
slots of `src`; the other slots of `dst` stay as they were. -/
def LogHeader.copyInto (src dst : LogHeader) : LogHeader :=
  ⟨src.n, fun i => if i < src.n then src.block i else dst.block i⟩

/-- `struct log`, without its lock. -/
structure Log where
  start : Nat
  size : Nat
  outstanding : Int
  committing : Bool
  dev : Nat
  lh : LogHeader

namespace Log

/-- The log as `initlog` reads it from the image `mkfs` writes: `nlog = LOGSIZE`
blocks from block 2, after the boot block and the superblock; no call
outstanding and, after recovery, an empty header. -/
def mkfsLog : Log := ⟨2, LOGSIZE, 0, false, ROOTDEV, ⟨0, fun _ => 0⟩⟩

/-- `begin_op`: `none` where the code sleeps (a commit is running, or this
call might exhaust the log), else one more outstanding call. -/
def begin_op (l : Log) : Option Log :=
  if l.committing then none
  else if (l.lh.n : Int) + (l.outstanding + 1) * MAXOPBLOCKS > LOGSIZE then none
  else some { l with outstanding := l.outstanding + 1 }

/-- The part of `end_op` under the log lock: one call fewer; `true` in the
result when it was the last, and the caller commits. -/
def endOpLocked (l : Log) : Except String (Log × Bool) :=
  let l₁ := { l with outstanding := l.outstanding - 1 }
  if l₁.committing then .error "log[dev].committing"
  else if l₁.outstanding = 0 then .ok ({ l₁ with committing := true }, true)
  else .ok (l₁, false)

/-- `commit` as it changes the in-memory log: a non-empty transaction is
written and installed, and the header emptied. -/
def commit (l : Log) : Log :=
  if l.lh.n > 0 then { l with lh := { l.lh with n := 0 } } else l

/-- The rest of `end_op` after `commit`: `committing = 0` again. -/
def endCommit (l : Log) : Log := { l with committing := false }

/-- `end_op`: the locked part, then the commit if this was the last call. -/
def end_op (l : Log) : Except String Log := do
  let (l₁, doCommit) ← endOpLocked l
  pure (if doCommit then endCommit (commit l₁) else l₁)

/-- The absorption loop of `log_write`: the first of the `n` slots that holds
`blockno`, or `n` when none does. -/
def absorb (lh : LogHeader) (blockno : Nat) : Nat :=
  ((List.range lh.n).find? fun i => lh.block i == blockno).getD lh.n

/-- `log_write` of a buffer holding `blockno`: record the block in the header.
The flag says that the block is new to the transaction, so the caller's buffer
is pinned (`bpin`). -/
def log_write (l : Log) (blockno : Nat) : Except String (Log × Bool) :=
  if l.lh.n ≥ LOGSIZE ∨ l.lh.n ≥ l.size - 1 then .error "too big a transaction"
  else if l.outstanding < 1 then .error "log_write outside of trans"
  else
    let i := absorb l.lh blockno
    .ok ({ l with lh := ⟨if i = l.lh.n then l.lh.n + 1 else l.lh.n,
                         Function.update l.lh.block i blockno⟩ }, i = l.lh.n)

/-! ## Spec lemmas -/

/-- What an admitted `begin_op` found, and its one change. -/
theorem begin_op_eq_some {l l' : Log} (h : l.begin_op = some l') :
    l.committing = false ∧ (l.lh.n : Int) + (l.outstanding + 1) * MAXOPBLOCKS ≤ LOGSIZE ∧
      l' = { l with outstanding := l.outstanding + 1 } := by
  unfold begin_op at h
  split_ifs at h with hc hn
  cases h
  exact ⟨by simpa using hc, by omega, rfl⟩

/-- A whole `end_op` that does not panic found no commit running, and leaves
one call fewer; the last call's commit empties the header. -/
theorem end_op_eq_ok {l l' : Log} (h : l.end_op = .ok l') :
    l.committing = false ∧
      l' = if l.outstanding - 1 = 0 then { l with outstanding := 0, lh := { l.lh with n := 0 } }
           else { l with outstanding := l.outstanding - 1 } := by
  cases hc : l.committing
  case true => simp [end_op, endOpLocked, hc] at h
  case false =>
    refine ⟨rfl, ?_⟩
    by_cases h0 : l.outstanding - 1 = 0
    · -- the last call commits; an empty header is already `n = 0`
      simp only [end_op, endOpLocked, hc, h0, Bool.false_eq_true, ↓reduceIte, bind, Except.bind,
        pure, Except.pure, Except.ok.injEq] at h
      subst h
      obtain ⟨n, block⟩ := l.lh
      by_cases hn : n > 0
      · simp [commit, endCommit, hn, h0]
      · simp [commit, endCommit, hn, h0]
        omega
    · simp only [end_op, endOpLocked, hc, h0, Bool.false_eq_true, ↓reduceIte, bind, Except.bind,
        pure, Except.pure, Except.ok.injEq] at h
      simp [← h, h0]

/-- A `log_write` that does not panic found room below both bounds and an open
transaction; it records the block at its absorption slot. -/
theorem log_write_eq_ok {l l' : Log} {blockno : Nat} {fresh : Bool}
    (h : l.log_write blockno = .ok (l', fresh)) :
    l.lh.n < LOGSIZE ∧ l.lh.n < l.size - 1 ∧ 1 ≤ l.outstanding ∧
      l' = { l with lh := ⟨if absorb l.lh blockno = l.lh.n then l.lh.n + 1 else l.lh.n,
                           Function.update l.lh.block (absorb l.lh blockno) blockno⟩ } ∧
      fresh = decide (absorb l.lh blockno = l.lh.n) := by
  unfold log_write at h
  split_ifs at h with hbig hout
  simp only [Except.ok.injEq, Prod.mk.injEq] at h
  obtain ⟨rfl, rfl⟩ := h
  refine ⟨by omega, by omega, by omega, rfl, rfl⟩

/-- With `size - 1` blocks recorded the header is full: `log_write` panics,
whatever the block. -/
theorem log_write_of_full {l : Log} {blockno : Nat} (h : l.size - 1 ≤ l.lh.n) :
    l.log_write blockno = .error "too big a transaction" := by
  unfold log_write
  rw [if_pos (Or.inr h)]

theorem absorb_le (lh : LogHeader) (blockno : Nat) : absorb lh blockno ≤ lh.n := by
  unfold absorb
  cases h : (List.range lh.n).find? fun i => lh.block i == blockno with
  | none => exact le_refl _
  | some i =>
    have hi := List.mem_of_find?_eq_some h
    rw [List.mem_range] at hi
    exact Nat.le_of_lt hi

/-- A slot below `n` that absorption returns holds the block. -/
theorem absorb_block {lh : LogHeader} {blockno : Nat} (h : absorb lh blockno < lh.n) :
    lh.block (absorb lh blockno) = blockno := by
  unfold absorb at h ⊢
  cases hf : (List.range lh.n).find? fun i => lh.block i == blockno with
  | none => rw [hf] at h; exact absurd h (lt_irrefl _)
  | some i =>
    have := List.find?_some hf
    simpa using this

/-- Absorption returns `n` exactly when no recorded slot holds the block. -/
theorem absorb_eq_n_iff (lh : LogHeader) (blockno : Nat) :
    absorb lh blockno = lh.n ↔ ∀ i < lh.n, lh.block i ≠ blockno := by
  unfold absorb
  cases hf : (List.range lh.n).find? fun i => lh.block i == blockno with
  | none =>
    rw [List.find?_eq_none] at hf
    simp only [Option.getD_none, true_iff]
    intro i hi hb
    exact hf i (List.mem_range.mpr hi) (by simp [hb])
  | some i =>
    have hi := List.mem_range.mp (List.mem_of_find?_eq_some hf)
    have hb : lh.block i = blockno := by simpa using List.find?_some hf
    simp only [Option.getD_some]
    exact ⟨fun h => absurd h (Nat.ne_of_lt hi), fun h => absurd hb (h i hi)⟩

end Log

end Xv6
