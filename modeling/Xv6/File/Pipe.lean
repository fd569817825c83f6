import Mathlib

/-!
# Pipes

`pipewrite`, `piperead` and `pipeclose` of `kernel/pipe.c` over `struct pipe`, whose counters
`nread` and `nwrite` are `uint`s that run freely and wrap at `2^32`.

* `Pipe.contents`: the bytes written and not yet read, the FIFO the buffer stands for;
  `Pipe.put` and `Pipe.take` append to it and pop from it (`contents_put`, `contents_take`).
* `pipewriteLoop`, `piperead`: the code's loops, each run of one under the lock being one
  step; a call that sleeps goes on later as a new run from where it stopped.
* `PipeLog`, `pipeStep`, `pipeRun`: any interleaving of such runs, with the bytes the writes
  appended and the bytes the reads took and copied out; `PipeLog.Inv` holds along every run.
-/

namespace Xv6

/-- `PIPESIZE`. -/
def PIPESIZE : Nat := 512

/-- `struct pipe` without its lock: `data`, the `uint` counters, and which ends are open. -/
structure Pipe where
  data : Nat → UInt8
  nread : Nat
  nwrite : Nat
  readopen : Bool
  writeopen : Bool

namespace Pipe

/-- `nwrite - nread` in `uint`: how many bytes the buffer holds. -/
def count (pi : Pipe) : Nat := (pi.nwrite + 2 ^ 32 - pi.nread) % 2 ^ 32

/-- The bytes written and not yet read, in order. -/
def contents (pi : Pipe) : List UInt8 :=
  (List.range pi.count).map fun j => pi.data ((pi.nread + j) % PIPESIZE)

/-- `pi->data[pi->nwrite++ % PIPESIZE] = ch`. -/
def put (pi : Pipe) (ch : UInt8) : Pipe :=
  { pi with data := Function.update pi.data (pi.nwrite % PIPESIZE) ch,
            nwrite := (pi.nwrite + 1) % 2 ^ 32 }

/-- `ch = pi->data[pi->nread++ % PIPESIZE]`. -/
def take (pi : Pipe) : UInt8 × Pipe :=
  (pi.data (pi.nread % PIPESIZE), { pi with nread := (pi.nread + 1) % 2 ^ 32 })

/-- The counters are `uint`s, and the buffer holds at most `PIPESIZE` bytes. -/
structure Inv (pi : Pipe) : Prop where
  nread_lt : pi.nread < 2 ^ 32
  nwrite_lt : pi.nwrite < 2 ^ 32
  count_le : pi.count ≤ PIPESIZE

variable {pi : Pipe}

theorem Inv.full_iff (h : pi.Inv) : pi.nwrite = (pi.nread + PIPESIZE) % 2 ^ 32 ↔ pi.count = PIPESIZE := by
  have := h.nread_lt
  have := h.nwrite_lt
  have := h.count_le
  unfold count PIPESIZE at *
  omega

theorem Inv.empty_iff (h : pi.Inv) : pi.nread = pi.nwrite ↔ pi.count = 0 := by
  have := h.nread_lt
  have := h.nwrite_lt
  unfold count
  omega

theorem count_put (h : pi.Inv) (hfull : pi.count < PIPESIZE) (ch : UInt8) :
    (pi.put ch).count = pi.count + 1 := by
  have := h.nread_lt
  have := h.nwrite_lt
  simp only [count, put, PIPESIZE] at *
  omega

theorem Inv.put (h : pi.Inv) (hfull : pi.count < PIPESIZE) (ch : UInt8) : (pi.put ch).Inv where
  nread_lt := h.nread_lt
  nwrite_lt := Nat.mod_lt _ (by decide)
  count_le := by rw [count_put h hfull]; omega

/-- A byte put in a buffer that is not full is appended to its contents: the slots of the
bytes held lie below `nwrite` by less than `PIPESIZE`, so the write misses them. -/
theorem contents_put (h : pi.Inv) (hfull : pi.count < PIPESIZE) (ch : UInt8) :
    (pi.put ch).contents = pi.contents ++ [ch] := by
  have hr := h.nread_lt
  have hw := h.nwrite_lt
  unfold contents
  rw [count_put h hfull, List.range_succ, List.map_append, List.map_singleton]
  congr 1
  · apply List.map_congr_left
    intro j hj
    have hj : j < pi.count := List.mem_range.mp hj
    have hne : (pi.nread + j) % PIPESIZE ≠ pi.nwrite % PIPESIZE := by
      unfold count PIPESIZE at *
      omega
    simp only [put, Function.update_of_ne hne]
  · have heq : (pi.nread + pi.count) % PIPESIZE = pi.nwrite % PIPESIZE := by
      unfold count PIPESIZE
      omega
    simp only [put, heq, Function.update_self]

theorem count_take (h : pi.Inv) (hempty : 0 < pi.count) : (pi.take).2.count = pi.count - 1 := by
  have := h.nread_lt
  have := h.nwrite_lt
  simp only [count, take] at *
  omega

theorem Inv.take (h : pi.Inv) (hempty : 0 < pi.count) : (pi.take).2.Inv where
  nread_lt := Nat.mod_lt _ (by decide)
  nwrite_lt := h.nwrite_lt
  count_le := by have := h.count_le; rw [count_take h hempty]; omega

/-- A byte taken from a buffer that is not empty is the first of its contents. -/
theorem contents_take (h : pi.Inv) (hempty : 0 < pi.count) :
    pi.contents = (pi.take).1 :: (pi.take).2.contents := by
  obtain ⟨k, hk⟩ : ∃ k, pi.count = k + 1 := ⟨pi.count - 1, by omega⟩
  have hk' : (pi.take).2.count = k := by rw [count_take h hempty]; omega
  unfold contents
  rw [hk, hk', List.range_succ_eq_map, List.map_cons, List.map_map]
  -- the heads agree at once; the rest is read one slot further on
  congr 1
  apply List.map_congr_left
  intro j _
  have hidx : (pi.nread + (j + 1)) % PIPESIZE = ((pi.nread + 1) % 2 ^ 32 + j) % PIPESIZE := by
    unfold PIPESIZE
    omega
  simp only [Function.comp, Nat.succ_eq_add_one, take, hidx]

end Pipe

/-! ## The code -/

/-- How a run of `pipewrite` or `piperead` under the lock ends: the call sleeps on a full or
empty pipe, to go on later, or returns. -/
inductive Outcome
  | sleeps
  | returns (r : Int)
deriving DecidableEq, Repr

/-- The loop of `pipewrite(pi, addr, n)` under the lock, over the user's bytes from `i` on
(`none` where `copyin` fails): the pipe, how many bytes were copied in, and the outcome. On a
full pipe the call returns `-1` if the read end is closed or the caller was killed, and
sleeps otherwise. -/
def pipewriteLoop (killed : Bool) (n : Int) : List (Option UInt8) → Pipe → Nat → Pipe × Nat × Outcome
  | [], pi, i => (pi, i, .returns n)
  | b :: src, pi, i =>
    if pi.nwrite = (pi.nread + PIPESIZE) % 2 ^ 32 then
      if !pi.readopen || killed then (pi, i, .returns (-1)) else (pi, i, .sleeps)
    else
      match b with
      | none => (pi, i, .returns n)
      | some ch => pipewriteLoop killed n src (pi.put ch) (i + 1)

/-- The copy loop of `piperead`, one entry of `oks` for each byte asked for, `false` where
`copyout` fails: the pipe and the bytes copied out. A byte whose `copyout` fails has
already been taken from the buffer. -/
def pipereadLoop : List Bool → Pipe → Pipe × List UInt8
  | [], pi => (pi, [])
  | ok :: oks, pi =>
    if pi.nread = pi.nwrite then (pi, [])
    else
      let t := pi.take
      if ok then
        let r := pipereadLoop oks t.2
        (r.1, t.1 :: r.2)
      else (t.2, [])

/-- `piperead(pi, addr, n)` under the lock: it sleeps on an empty pipe whose write end is
open (or returns `-1` when killed); else it copies and returns how many bytes it copied out. -/
def piperead (killed : Bool) (oks : List Bool) (pi : Pipe) : Pipe × List UInt8 × Outcome :=
  if pi.nread = pi.nwrite ∧ pi.writeopen then
    if killed then (pi, [], .returns (-1)) else (pi, [], .sleeps)
  else
    let r := pipereadLoop oks pi
    (r.1, r.2, .returns r.2.length)

/-- `pipeclose(pi, writable)`: the end closed. The page is freed when both are. -/
def pipeclose (pi : Pipe) (writable : Bool) : Pipe :=
  if writable then { pi with writeopen := false } else { pi with readopen := false }

theorem contents_pipeclose (pi : Pipe) (writable : Bool) :
    (pipeclose pi writable).contents = pi.contents := by
  cases writable <;> rfl

theorem Pipe.Inv.pipeclose {pi : Pipe} (h : pi.Inv) (writable : Bool) :
    (pipeclose pi writable).Inv := by
  cases writable
  · exact ⟨h.nread_lt, h.nwrite_lt, h.count_le⟩
  · exact ⟨h.nread_lt, h.nwrite_lt, h.count_le⟩

/-- A run of `pipewrite` appends to the buffer the bytes it copied in, which are the first
ones of the user's. -/
theorem pipewriteLoop_spec (killed : Bool) (n : Int) (src : List (Option UInt8)) (pi : Pipe)
    (i : Nat) (h : pi.Inv) :
    i ≤ (pipewriteLoop killed n src pi i).2.1 ∧ (pipewriteLoop killed n src pi i).1.Inv ∧
      (pipewriteLoop killed n src pi i).1.contents =
        pi.contents ++ (src.take ((pipewriteLoop killed n src pi i).2.1 - i)).reduceOption := by
  induction src generalizing pi i with
  | nil => simp [pipewriteLoop, h, List.reduceOption_nil]
  | cons b src ih =>
    by_cases hfull : pi.nwrite = (pi.nread + PIPESIZE) % 2 ^ 32
    · -- the call returns or sleeps with nothing more copied
      simp only [pipewriteLoop, if_pos hfull]
      split <;> simp [h, List.reduceOption_nil]
    · have hlt : pi.count < PIPESIZE :=
        lt_of_le_of_ne h.count_le fun he => hfull (h.full_iff.mpr he)
      cases b with
      | none =>
        simp only [pipewriteLoop, if_neg hfull]
        simp [h, List.reduceOption_nil]
      | some ch =>
        obtain ⟨hle, hinv, hc⟩ := ih (pi.put ch) (i + 1) (h.put hlt ch)
        simp only [pipewriteLoop, if_neg hfull]
        refine ⟨by omega, hinv, ?_⟩
        obtain ⟨k, hk⟩ : ∃ k, (pipewriteLoop killed n src (pi.put ch) (i + 1)).2.1 - i = k + 1 :=
          ⟨_, (Nat.succ_pred_eq_of_pos (by omega)).symm⟩
        have hk' : (pipewriteLoop killed n src (pi.put ch) (i + 1)).2.1 - (i + 1) = k := by omega
        rw [hc, hk, hk', Pipe.contents_put h hlt, List.take_succ_cons,
          List.reduceOption_cons_of_some, List.append_assoc, List.singleton_append]

/-- The copy loop of `piperead` takes bytes from the front of the buffer; it copies out the
ones it took, all of them unless a `copyout` failed, which drops the last. -/
theorem pipereadLoop_spec (oks : List Bool) (pi : Pipe) (h : pi.Inv) :
    (pipereadLoop oks pi).1.Inv ∧ ∃ t, pi.contents = t ++ (pipereadLoop oks pi).1.contents ∧
      List.Sublist (pipereadLoop oks pi).2 t ∧ (oks.all id → (pipereadLoop oks pi).2 = t) := by
  induction oks generalizing pi with
  | nil => exact ⟨h, [], (List.nil_append _).symm, List.Sublist.slnil, fun _ => rfl⟩
  | cons ok oks ih =>
    by_cases he : pi.nread = pi.nwrite
    · simp only [pipereadLoop, if_pos he]
      refine ⟨h, [], (List.nil_append _).symm, List.Sublist.slnil, ?_⟩
      exact fun _ => rfl
    · have hpos : 0 < pi.count := Nat.pos_of_ne_zero fun h0 => he (h.empty_iff.mpr h0)
      have htake := Pipe.contents_take h hpos
      cases ok with
      | false =>
        simp only [pipereadLoop, if_neg he, Bool.false_eq_true, if_false]
        refine ⟨h.take hpos, [pi.take.1], htake, List.nil_sublist _, fun hf => ?_⟩
        rw [List.all_cons] at hf
        exact absurd hf Bool.false_ne_true
      | true =>
        obtain ⟨hinv, t, ht, hsub, hall⟩ := ih pi.take.2 (h.take hpos)
        simp only [pipereadLoop, if_neg he, if_true]
        refine ⟨hinv, pi.take.1 :: t, ?_, hsub.cons_cons _, fun hoks => ?_⟩
        · rw [htake, ht, List.cons_append]
        · rw [List.all_cons] at hoks
          have hrest : oks.all id = true := (Bool.and_eq_true _ _).mp hoks |>.2
          rw [hall hrest]

/-! ## Runs -/

/-- The pipe `pipealloc` sets up: both ends open, both counters `0`, and in `data` what the
page held. -/
def Pipe.init (data : Nat → UInt8) : Pipe := ⟨data, 0, 0, true, true⟩

/-- A step of a run on one pipe: a run of `pipewrite` under the lock (of a new call, or of one
that slept and goes on from where it stopped), a `piperead`, or a `pipeclose`. -/
inductive PipeAct
  | write (killed : Bool) (n : Int) (src : List (Option UInt8))
  | read (killed : Bool) (oks : List Bool)
  | close (writable : Bool)

/-- The step is not a `piperead` whose `copyout` fails. -/
def PipeAct.copiesOut : PipeAct → Bool
  | .read _ oks => oks.all id
  | _ => true

/-- A pipe with every byte the writes copied into it and every byte the reads copied out of
it, in order. -/
structure PipeLog where
  pi : Pipe
  written : List UInt8
  delivered : List UInt8

/-- One step of a run. -/
def pipeStep (s : PipeLog) : PipeAct → PipeLog
  | .write killed n src =>
    let r := pipewriteLoop killed n src s.pi 0
    ⟨r.1, s.written ++ (src.take r.2.1).reduceOption, s.delivered⟩
  | .read killed oks =>
    let r := piperead killed oks s.pi
    ⟨r.1, s.written, s.delivered ++ r.2.1⟩
  | .close writable => ⟨pipeclose s.pi writable, s.written, s.delivered⟩

/-- A run: the steps in order. -/
def pipeRun (s : PipeLog) (acts : List PipeAct) : PipeLog := acts.foldl pipeStep s

/-- What holds along a run: the pipe's invariant; the bytes written are those the reads took
followed by those the buffer holds; the reads copied out some of the bytes they took, in
order, and all of them while no `copyout` failed. -/
structure PipeLog.Inv (s : PipeLog) (nofail : Bool) : Prop where
  pipe : s.pi.Inv
  taken : ∃ t, s.written = t ++ s.pi.contents ∧ List.Sublist s.delivered t ∧ (nofail → s.delivered = t)

theorem PipeLog.Inv.step {s : PipeLog} {nofail : Bool} (h : s.Inv nofail) (a : PipeAct) :
    (pipeStep s a).Inv (nofail && a.copiesOut) := by
  obtain ⟨hpi, t, hw, hsub, hnf⟩ := h
  cases a with
  | write killed n src =>
    obtain ⟨-, hinv, hc⟩ := pipewriteLoop_spec killed n src s.pi 0 hpi
    refine ⟨hinv, t, ?_, hsub, fun h => hnf (by simpa [PipeAct.copiesOut] using h)⟩
    simp only [pipeStep, hc, hw, Nat.sub_zero, List.append_assoc]
  | read killed oks =>
    by_cases hs : s.pi.nread = s.pi.nwrite ∧ s.pi.writeopen
    · -- the reader sleeps, or returns `-1`, with nothing taken
      have hr : (piperead killed oks s.pi).1 = s.pi ∧ (piperead killed oks s.pi).2.1 = [] := by
        unfold piperead
        split_ifs <;> simp
      refine ⟨by simp only [pipeStep, hr.1, hpi], t, by simp only [pipeStep, hr.1, hw],
        by simpa [pipeStep, hr.2] using hsub, fun h => ?_⟩
      simpa [pipeStep, hr.2] using hnf (by simp_all)
    · obtain ⟨hinv, t', ht', hsub', hall⟩ := pipereadLoop_spec oks s.pi hpi
      simp only [pipeStep, piperead, if_neg hs]
      refine ⟨hinv, t ++ t', by rw [hw, ht', List.append_assoc], hsub.append hsub', fun h => ?_⟩
      simp only [PipeAct.copiesOut, Bool.and_eq_true] at h
      rw [hnf h.1, hall h.2]
  | close writable =>
    exact ⟨hpi.pipeclose writable, t, by simp only [pipeStep, contents_pipeclose, hw], hsub,
      fun h => hnf (by simpa [PipeAct.copiesOut] using h)⟩

theorem PipeLog.Inv.run {s : PipeLog} {nofail : Bool} (h : s.Inv nofail) (acts : List PipeAct) :
    (pipeRun s acts).Inv (nofail && acts.all PipeAct.copiesOut) := by
  induction acts generalizing s nofail with
  | nil => simpa [pipeRun] using h
  | cons a acts ih =>
    have := ih (h.step a)
    simpa [pipeRun, Bool.and_assoc] using this

theorem count_pipe_init (data : Nat → UInt8) : (Pipe.init data).count = 0 := by
  simp [Pipe.count, Pipe.init]

theorem pipeLog_inv_init (data : Nat → UInt8) : PipeLog.Inv ⟨Pipe.init data, [], []⟩ true where
  pipe := ⟨Nat.two_pow_pos 32, Nat.two_pow_pos 32, by rw [count_pipe_init]; exact Nat.zero_le _⟩
  taken := ⟨[], by simp [Pipe.contents, count_pipe_init], List.Sublist.slnil, fun _ => rfl⟩

/-- Along any interleaving of `pipewrite`, `piperead` and `pipeclose` on a new pipe, counters
wrapping included: the buffer holds at most `PIPESIZE` bytes; the reads copy out bytes that
were written, in order, none twice; and while no `copyout` fails, what the reads copied out
followed by what the buffer holds is what was written. -/
theorem pipe_fifo (data : Nat → UInt8) (acts : List PipeAct) :
    (pipeRun ⟨Pipe.init data, [], []⟩ acts).pi.count ≤ PIPESIZE ∧
      List.Sublist (pipeRun ⟨Pipe.init data, [], []⟩ acts).delivered
        (pipeRun ⟨Pipe.init data, [], []⟩ acts).written ∧
      (acts.all PipeAct.copiesOut →
        (pipeRun ⟨Pipe.init data, [], []⟩ acts).delivered ++
          (pipeRun ⟨Pipe.init data, [], []⟩ acts).pi.contents =
        (pipeRun ⟨Pipe.init data, [], []⟩ acts).written) := by
  obtain ⟨hpi, t, hw, hsub, hnf⟩ := (pipeLog_inv_init data).run acts
  refine ⟨hpi.count_le, ?_, fun hall => ?_⟩
  · rw [hw]
    exact hsub.trans (List.sublist_append_left _ _)
  · rw [hw, hnf (by simpa using hall)]

theorem pipe_fifo_whole_read :
    (pipeRun ⟨Pipe.init fun _ => 0, [], []⟩
        [.write false 2 [some 97, some 98], .read false [true, true]]).delivered ++
      (pipeRun ⟨Pipe.init fun _ => 0, [], []⟩
        [.write false 2 [some 97, some 98], .read false [true, true]]).pi.contents =
    (pipeRun ⟨Pipe.init fun _ => 0, [], []⟩
        [.write false 2 [some 97, some 98], .read false [true, true]]).written :=
  (pipe_fifo (fun _ => 0) [.write false 2 [some 97, some 98], .read false [true, true]]).2.2
    (by decide)

/-- A `copyout` that fails drops the byte `piperead` took: after `ab` is written, a read whose
copy faults returns `0`, and the next read returns `b` alone. -/
theorem piperead_fault_drops_byte :
    (pipeRun ⟨Pipe.init fun _ => 0, [], []⟩
      [.write false 2 [some 97, some 98], .read false [false], .read false [true, true]]).written =
        [97, 98] ∧
    (pipeRun ⟨Pipe.init fun _ => 0, [], []⟩
      [.write false 2 [some 97, some 98], .read false [false], .read false [true, true]]).delivered =
        [98] := by
  decide

end Xv6
