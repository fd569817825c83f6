import Mathlib
import Xv6.Log.Basic

/-!
# Log space admission

`begin_op` admits a call only while `lh.n + (outstanding + 1) * MAXOPBLOCKS ≤
LOGSIZE`: every outstanding call holds `MAXOPBLOCKS` header slots in reserve.
The admitted calls then run interleaved, each passing blocks to `log_write`,
and the last `end_op` commits.

The model is the transaction window as the log sees it: the log, the calls
inside their bracket, and for each of them the distinct blocks it has written
so far. That last field is ghost state, the measure the reservation is about:
a call's `log_write` is enabled only while the call keeps to `MAXOPBLOCKS`
distinct blocks.

`Txn.reserved_of_reachable` proves the reservation invariant: the header's
entries and the slots the running calls still hold fit in `LOGSIZE`. So a call
that writes a block new to it finds `lh.n < LOGSIZE` (`lh_n_lt_of_reachable`),
which is one slot more than `log_write`'s second bound `lh.n < size - 1`
allows: in the image `mkfs` writes, `size = nlog = LOGSIZE`, and the header
block takes one of the `nlog` blocks. `log_write_too_big` is a run of three
calls of ten blocks each that reaches the panic.
-/

namespace Xv6.Log

/-- A slot below `n` keeps its block through `log_write`'s update: a slot that
absorption returns already holds the block. -/
theorem absorb_update_of_lt {lh : LogHeader} {blockno j : Nat} (hj : j < lh.n) :
    Function.update lh.block (absorb lh blockno) blockno j = lh.block j := by
  by_cases hn : absorb lh blockno = lh.n
  · rw [Function.update_of_ne (by omega)]
  · have hlt : absorb lh blockno < lh.n := lt_of_le_of_ne (absorb_le lh blockno) hn
    by_cases hji : j = absorb lh blockno
    · subst hji
      rw [Function.update_self, absorb_block hlt]
    · rw [Function.update_of_ne hji]

/-- The calls of one transaction window as the log sees them. `wr i` holds the
distinct blocks call `i` has passed to `log_write`. -/
structure Txn (ι : Type) where
  log : Log
  active : Finset ι
  wr : ι → Finset Nat

/-- The log calls of a file-system call, by the call that makes them. -/
inductive Act (ι : Type) where
  | begin_op (i : ι)
  | log_write (i : ι) (blockno : Nat)
  | end_op (i : ι)

namespace Txn

variable {ι : Type} [DecidableEq ι]

/-- One log call. A call begins once and ends once, and its `log_write` is
enabled while it keeps to `MAXOPBLOCKS` distinct blocks. `none` where the call
is not enabled, where `begin_op` sleeps, and where the code panics. -/
def step (s : Txn ι) : Act ι → Option (Txn ι)
  | .begin_op i =>
    if i ∈ s.active then none
    else s.log.begin_op.map fun l =>
      { log := l, active := insert i s.active, wr := Function.update s.wr i ∅ }
  | .log_write i b =>
    if i ∈ s.active ∧ (insert b (s.wr i)).card ≤ MAXOPBLOCKS then
      match s.log.log_write b with
      | .ok (l, _) => some { s with log := l, wr := Function.update s.wr i (insert b (s.wr i)) }
      | .error _ => none
    else none
  | .end_op i =>
    if i ∈ s.active then
      match s.log.end_op with
      | .ok l => some { s with log := l, active := s.active.erase i }
      | .error _ => none
    else none

/-- A run of log calls; `none` once a call is not enabled. -/
def run (s : Txn ι) : List (Act ι) → Option (Txn ι)
  | [] => some s
  | a :: as => (s.step a).bind fun s' => run s' as

/-- The window after boot. -/
def init : Txn ι := ⟨mkfsLog, ∅, fun _ => ∅⟩

/-- The windows some run from boot reaches. -/
def Reachable (s : Txn ι) : Prop := ∃ as, run init as = some s

/-- The reservation invariant: no commit in progress between calls, one
outstanding count per running call, every running call within its bound and
its blocks in the header, and the header with the slots still reserved within
`LOGSIZE`. -/
structure Reserved (s : Txn ι) : Prop where
  idle : s.log.committing = false
  count : s.log.outstanding = s.active.card
  bound : ∀ i ∈ s.active, (s.wr i).card ≤ MAXOPBLOCKS
  logged : ∀ i ∈ s.active, ∀ b ∈ s.wr i, ∃ j < s.log.lh.n, s.log.lh.block j = b
  reserve : s.log.lh.n + ∑ i ∈ s.active, (MAXOPBLOCKS - (s.wr i).card) ≤ LOGSIZE

omit [DecidableEq ι] in
theorem reserved_init : Reserved (init : Txn ι) where
  idle := rfl
  count := rfl
  bound := by simp [init]
  logged := by simp [init]
  reserve := by simp [init, mkfsLog, LOGSIZE, MAXOPBLOCKS]

/-- Changing one running call's term of a sum: the other terms are equal, so
the sums differ as that term does. -/
theorem add_sum_le_of_term {A : Finset ι} {f f' : ι → Nat} {i : ι} {n n' : Nat} (hi : i ∈ A)
    (hrest : ∀ j ∈ A, j ≠ i → f' j = f j) (hterm : n' + f' i ≤ n + f i) :
    n' + ∑ j ∈ A, f' j ≤ n + ∑ j ∈ A, f j := by
  have hsum : ∑ j ∈ A.erase i, f' j = ∑ j ∈ A.erase i, f j :=
    Finset.sum_congr rfl fun j hj => hrest j (Finset.mem_of_mem_erase hj) (Finset.ne_of_mem_erase hj)
  rw [← Finset.add_sum_erase A f' hi, ← Finset.add_sum_erase A f hi, hsum]
  omega

/-! ## One step -/

section Step

variable {s s' : Txn ι} {i : ι}

theorem step_begin_op (h : s.step (.begin_op i) = some s') :
    i ∉ s.active ∧ ∃ l, s.log.begin_op = some l ∧
      s' = ⟨l, insert i s.active, Function.update s.wr i ∅⟩ := by
  simp only [step] at h
  split_ifs at h with hi
  obtain ⟨l, hl, rfl⟩ := Option.map_eq_some_iff.mp h
  exact ⟨hi, l, hl, rfl⟩

theorem step_log_write {b : Nat} (h : s.step (.log_write i b) = some s') :
    i ∈ s.active ∧ (insert b (s.wr i)).card ≤ MAXOPBLOCKS ∧ ∃ l fresh,
      s.log.log_write b = .ok (l, fresh) ∧
      s' = { s with log := l, wr := Function.update s.wr i (insert b (s.wr i)) } := by
  simp only [step] at h
  split_ifs at h with hi
  split at h
  next l fresh hl =>
    cases h
    exact ⟨hi.1, hi.2, l, fresh, hl, rfl⟩
  next => cases h

theorem step_end_op (h : s.step (.end_op i) = some s') :
    i ∈ s.active ∧ ∃ l, s.log.end_op = .ok l ∧ s' = { s with log := l, active := s.active.erase i } := by
  simp only [step] at h
  split_ifs at h with hi
  split at h
  next l hl =>
    cases h
    exact ⟨hi, l, hl, rfl⟩
  next => cases h

/-- An admitted call starts with nothing written and reserves `MAXOPBLOCKS`
slots; the admission test is exactly what keeps the reservation in bounds. -/
theorem Reserved.begin_op {l : Log} (hs : Reserved s) (hi : i ∉ s.active)
    (hl : s.log.begin_op = some l) : Reserved ⟨l, insert i s.active, Function.update s.wr i ∅⟩ := by
  obtain ⟨hidle, hadmit, rfl⟩ := begin_op_eq_some hl
  have hwr : ∀ j ∈ s.active, Function.update s.wr i ∅ j = s.wr j := fun j hj =>
    Function.update_of_ne (ne_of_mem_of_not_mem hj hi) _ _
  -- each running call holds at most `MAXOPBLOCKS` slots in reserve
  have hsum : ∑ j ∈ s.active, (MAXOPBLOCKS - (s.wr j).card) ≤ s.active.card * MAXOPBLOCKS := by
    simpa using Finset.sum_le_card_nsmul s.active _ MAXOPBLOCKS fun j _ => Nat.sub_le _ _
  have hcard := Finset.card_insert_of_notMem hi
  refine ⟨?_, ?_, ?_, ?_, ?_⟩ <;> dsimp only
  · exact hidle
  · simp only [hs.count, hcard]
    push_cast
    rfl
  · intro j hj
    rcases Finset.mem_insert.mp hj with rfl | hj
    · simp [MAXOPBLOCKS]
    · rw [hwr j hj]
      exact hs.bound j hj
  · intro j hj b hb
    rcases Finset.mem_insert.mp hj with rfl | hj
    · simp at hb
    · rw [hwr j hj] at hb
      exact hs.logged j hj b hb
  · rw [Finset.sum_insert hi, Finset.sum_congr rfl fun j hj => by rw [hwr j hj]]
    simp only [Function.update_self, Finset.card_empty, Nat.sub_zero]
    rw [hs.count] at hadmit
    simp only [MAXOPBLOCKS, LOGSIZE] at hadmit hsum ⊢
    omega

/-- A write either is absorbed (the block is in the header already, and in the
call's set or now added to it) or takes a new slot out of the call's reserve. -/
theorem Reserved.log_write {b : Nat} {l : Log} {fresh : Bool} (hs : Reserved s)
    (hi : i ∈ s.active) (hb : (insert b (s.wr i)).card ≤ MAXOPBLOCKS)
    (hl : s.log.log_write b = .ok (l, fresh)) :
    Reserved { s with log := l, wr := Function.update s.wr i (insert b (s.wr i)) } := by
  obtain ⟨-, -, -, rfl, -⟩ := log_write_eq_ok hl
  have hwr : ∀ j ∈ s.active, j ≠ i → Function.update s.wr i (insert b (s.wr i)) j = s.wr j :=
    fun j _ hji => Function.update_of_ne hji _ _
  -- the header after the write: old slots kept, and `b` in a slot
  have hkeep : ∀ j < s.log.lh.n, Function.update s.log.lh.block (absorb s.log.lh b) b j =
      s.log.lh.block j := fun j hj => absorb_update_of_lt hj
  have hlogged_b : ∃ j < (if absorb s.log.lh b = s.log.lh.n then s.log.lh.n + 1 else s.log.lh.n),
      Function.update s.log.lh.block (absorb s.log.lh b) b j = b := by
    refine ⟨absorb s.log.lh b, ?_, Function.update_self _ _ _⟩
    have := absorb_le s.log.lh b
    split_ifs with hn <;> omega
  -- the call's term and the header move together
  have hterm : (if absorb s.log.lh b = s.log.lh.n then s.log.lh.n + 1 else s.log.lh.n) +
      (MAXOPBLOCKS - (insert b (s.wr i)).card) ≤ s.log.lh.n + (MAXOPBLOCKS - (s.wr i).card) := by
    by_cases hbi : b ∈ s.wr i
    · obtain ⟨j, hj, hjb⟩ := hs.logged i hi b hbi
      have hn : absorb s.log.lh b ≠ s.log.lh.n := fun h => (absorb_eq_n_iff _ _).mp h j hj hjb
      simp [hn, Finset.insert_eq_of_mem hbi]
    · rw [Finset.card_insert_of_notMem hbi] at hb ⊢
      split_ifs <;> omega
  refine ⟨?_, ?_, ?_, ?_, ?_⟩ <;> dsimp only
  · exact hs.idle
  · exact hs.count
  · intro j hj
    by_cases hji : j = i
    · subst hji
      simpa using hb
    · rw [hwr j hj hji]
      exact hs.bound j hj
  · intro j hj c hc
    by_cases hji : j = i
    · subst hji
      rw [Function.update_self, Finset.mem_insert] at hc
      rcases hc with rfl | hc
      · exact hlogged_b
      · obtain ⟨k, hk, hkc⟩ := hs.logged j hj c hc
        refine ⟨k, ?_, by rw [hkeep k hk, hkc]⟩
        split_ifs <;> omega
    · rw [hwr j hj hji] at hc
      obtain ⟨k, hk, hkc⟩ := hs.logged j hj c hc
      refine ⟨k, ?_, by rw [hkeep k hk, hkc]⟩
      split_ifs <;> omega
  · refine le_trans (add_sum_le_of_term hi (fun j hj hji => ?_) ?_) hs.reserve
    · rw [hwr j hj hji]
    · simpa using hterm

/-- An ending call gives its reserve back; the last one commits, and with no
call left running the emptied header keeps nothing to account for. -/
theorem Reserved.end_op {l : Log} (hs : Reserved s) (hi : i ∈ s.active)
    (hl : s.log.end_op = .ok l) : Reserved { s with log := l, active := s.active.erase i } := by
  obtain ⟨-, hl'⟩ := end_op_eq_ok hl
  have hcard := Finset.card_erase_of_mem hi
  have hpos : 0 < s.active.card := Finset.card_pos.mpr ⟨i, hi⟩
  have hsub : ∑ j ∈ s.active.erase i, (MAXOPBLOCKS - (s.wr j).card) ≤
      ∑ j ∈ s.active, (MAXOPBLOCKS - (s.wr j).card) :=
    Finset.sum_le_sum_of_subset (Finset.erase_subset i s.active)
  have hcount := hs.count
  by_cases h0 : s.log.outstanding - 1 = 0
  · -- the last call: the commit empties the header, and no call is left
    rw [if_pos h0] at hl'
    subst hl'
    have hempty : s.active.erase i = ∅ := Finset.card_eq_zero.mp (by omega)
    refine ⟨hs.idle, ?_, ?_, ?_, ?_⟩ <;> simp [hempty]
  · rw [if_neg h0] at hl'
    subst hl'
    refine ⟨hs.idle, ?_, ?_, ?_, ?_⟩ <;> dsimp only
    · rw [hcount, hcard]
      omega
    · exact fun j hj => hs.bound j (Finset.mem_of_mem_erase hj)
    · exact fun j hj => hs.logged j (Finset.mem_of_mem_erase hj)
    · exact le_trans (Nat.add_le_add_left hsub _) hs.reserve

theorem Reserved.step {a : Act ι} (hs : Reserved s) (h : s.step a = some s') : Reserved s' := by
  cases a with
  | begin_op i =>
    obtain ⟨hi, l, hl, rfl⟩ := step_begin_op h
    exact hs.begin_op hi hl
  | log_write i b =>
    obtain ⟨hi, hb, l, fresh, hl, rfl⟩ := step_log_write h
    exact hs.log_write hi hb hl
  | end_op i =>
    obtain ⟨hi, l, hl, rfl⟩ := step_end_op h
    exact hs.end_op hi hl

end Step

/-! ## Every run -/

theorem Reserved.run {s s' : Txn ι} {as : List (Act ι)} (hs : Reserved s)
    (h : s.run as = some s') : Reserved s' := by
  induction as generalizing s with
  | nil =>
    cases h
    exact hs
  | cons a as ih =>
    obtain ⟨t, ht, hrun⟩ := Option.bind_eq_some_iff.mp h
    exact ih (hs.step ht) hrun

theorem reserved_of_reachable {s : Txn ι} (h : Reachable s) : Reserved s := by
  obtain ⟨as, hrun⟩ := h
  exact reserved_init.run hrun

/-- A running call that writes a block new to it, within its bound, finds the
header below `LOGSIZE`: its own reserve holds a free slot. -/
theorem lh_n_lt_of_reachable {s : Txn ι} {i : ι} {b : Nat} (h : Reachable s)
    (hi : i ∈ s.active) (hb : b ∉ s.wr i) (hbound : (insert b (s.wr i)).card ≤ MAXOPBLOCKS) :
    s.log.lh.n < LOGSIZE := by
  have hs := reserved_of_reachable h
  have hterm : MAXOPBLOCKS - (s.wr i).card ≤ ∑ j ∈ s.active, (MAXOPBLOCKS - (s.wr j).card) :=
    Finset.single_le_sum (fun j _ => Nat.zero_le (MAXOPBLOCKS - (s.wr j).card)) hi
  rw [Finset.card_insert_of_notMem hb] at hbound
  have hres := hs.reserve
  omega

end Txn

/-- Three calls admitted together, each writing ten distinct blocks of its own;
the third is at its tenth. -/
def tooBigRun : List (Act (Fin 3)) :=
  [.begin_op 0, .begin_op 1, .begin_op 2] ++
    (List.range' 100 10).map (.log_write 0) ++ (List.range' 110 10).map (.log_write 1) ++
    (List.range' 120 9).map (.log_write 2)

/-- The reservation admits three calls of `MAXOPBLOCKS` blocks, and the third
call's tenth block finds `lh.n = 29 = size - 1`: `log_write` panics. -/
theorem log_write_too_big :
    ∃ s : Txn (Fin 3), s.Reachable ∧ 2 ∈ s.active ∧ 129 ∉ s.wr 2 ∧
      (insert 129 (s.wr 2)).card ≤ MAXOPBLOCKS ∧
      s.log.log_write 129 = .error "too big a transaction" := by
  -- run the calls once, and read the facts off the window they reach
  have hrun : (Txn.run Txn.init tooBigRun).map (fun s => decide (2 ∈ s.active ∧ 129 ∉ s.wr 2 ∧
      (insert 129 (s.wr 2)).card ≤ MAXOPBLOCKS ∧ s.log.size - 1 ≤ s.log.lh.n)) = some true := by
    decide
  obtain ⟨s, hs, hfacts⟩ := Option.map_eq_some_iff.mp hrun
  obtain ⟨h2, h129, hcard, hfull⟩ := of_decide_eq_true hfacts
  exact ⟨s, ⟨tooBigRun, hs⟩, h2, h129, hcard, log_write_of_full hfull⟩

end Xv6.Log
