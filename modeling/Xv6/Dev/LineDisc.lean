import Xv6.Dev.Console

/-!
# The line discipline the console implements

What the console's input is for, over lists: `LineDisc` holds the committed characters no
reader has taken and the line being edited; `edit` says what a typed character does to them and
`takeLine` what a reader's run takes. They are this development's statement of the console's
purpose, not a transcription: the ring, its wrapping indices and the control-U loop are gone.

* `LineDisc.Inv`: at most `INPUT_BUF` characters are held, the line holds no newline and no
  end-of-file, and a full ring holds no line;
* `Cons.abs_intr`, `Cons.abs_consolereadLoop`: the code refines the line discipline; on a console
  whose views satisfy the invariant, `consoleintr` and a run of `consoleread` do to the views
  what `edit` and `takeLine` do, and the reader copies out the same bytes and returns the same;
* `LineSys`, `lineRun`: the line discipline of every console along the consoles' runs, with the
  characters each console committed and what each reader run copied, took and returned;
* `console_line_discipline`: along every run, the indices stay ordered and at most `INPUT_BUF`
  apart, the reads return what the line discipline's reads return, and the readers of a
  console take its committed characters in order.
-/

namespace Xv6

/-- The committed characters no reader has taken yet, and the line being edited. -/
structure LineDisc where
  queue : List UInt8
  line : List UInt8

/-- An accepted character `c` put on a line while `q` committed characters wait: the new line
and the characters committed. The line is committed with `c` if `c` is a newline or an
end-of-file or fills the ring. -/
def put (q : Nat) (line : List UInt8) (c : UInt8) : List UInt8 × List UInt8 :=
  if c = '\n'.toUInt8 ∨ c = C 'D' ∨ q + line.length + 1 = INPUT_BUF then ([], line ++ [c])
  else (line ++ [c], [])

/-- What a typed character does to the line being edited while `q` committed characters wait:
the new line and the characters it commits. Control-P, -Q, -L, -S and NUL change nothing;
control-U empties the line and backspace or delete drops its last character; any other
character is put on the line while fewer than `INPUT_BUF` characters are unread, `\r` as `\n`. -/
def edit (q : Nat) (line : List UInt8) (c : UInt8) : List UInt8 × List UInt8 :=
  if c = C 'P' ∨ c = C 'Q' ∨ c = C 'L' ∨ c = C 'S' then (line, [])
  else if c = C 'U' then ([], [])
  else if c = C 'H' ∨ c = '\x7f'.toUInt8 then (line.dropLast, [])
  else if c ≠ 0 ∧ q + line.length < INPUT_BUF then put q line (if c = '\r'.toUInt8 then '\n'.toUInt8 else c)
  else (line, [])

/-- A reader's run over the committed characters, for a call that asked for `target` bytes and
still wants one for each entry of `oks`: the bytes copied out, the characters taken, and how the
run ends. It stops after a newline, and at an end-of-file, which it takes (returning `0`) only
when its call has copied nothing; a character whose copy fails is taken and lost; with nothing
committed it sleeps, or returns `-1` if killed. -/
def takeLine (killed : Bool) (target : Nat) : List Bool → List UInt8 → List UInt8 × List UInt8 × Outcome
  | [], _ => ([], [], .returns target)
  | _ :: _, [] => if killed then ([], [], .returns (-1)) else ([], [], .sleeps)
  | ok :: oks, c :: q =>
    if c = C 'D' then
      if oks.length + 1 < target then ([], [], .returns (↑target - ↑(oks.length + 1)))
      else ([], [c], .returns (↑target - ↑(oks.length + 1)))
    else if ok then
      if c = '\n'.toUInt8 then ([c], [c], .returns (↑target - ↑oks.length))
      else
        let r := takeLine killed target oks q
        (c :: r.1, c :: r.2.1, r.2.2)
    else ([], [c], .returns (↑target - ↑(oks.length + 1)))

namespace LineDisc

/-- A typed character. -/
def intr (s : LineDisc) (c : UInt8) : LineDisc :=
  ⟨s.queue ++ (edit s.queue.length s.line c).2, (edit s.queue.length s.line c).1⟩

/-- A reader's run: the line discipline without what it took, and what `takeLine` says. -/
def read (s : LineDisc) (killed : Bool) (target : Nat) (oks : List Bool) :
    LineDisc × List UInt8 × List UInt8 × Outcome :=
  let r := takeLine killed target oks s.queue
  (⟨s.queue.drop r.2.1.length, s.line⟩, r)

/-- At most `INPUT_BUF` characters are held; a newline or an end-of-file commits the line it
ends, so the line holds neither; a line that fills the ring is committed. -/
structure Inv (s : LineDisc) : Prop where
  size_le : s.queue.length + s.line.length ≤ INPUT_BUF
  line_open : ∀ c ∈ s.line, c ≠ '\n'.toUInt8 ∧ c ≠ C 'D'
  full : s.queue.length + s.line.length = INPUT_BUF → s.line = []

variable {s : LineDisc}

/-- Taking committed characters keeps the invariant. -/
theorem Inv.drop (h : s.Inv) (n : Nat) : (⟨s.queue.drop n, s.line⟩ : LineDisc).Inv where
  size_le := by
    have := h.size_le
    simp only [List.length_drop]
    omega
  line_open := h.line_open
  full hfull := by
    have := h.size_le
    simp only [List.length_drop] at hfull
    exact h.full (by omega)

/-- Putting an accepted character on the line keeps the invariant. -/
theorem Inv.put (h : s.Inv) (hlt : s.queue.length + s.line.length < INPUT_BUF) (c : UInt8) :
    (⟨s.queue ++ (put s.queue.length s.line c).2, (put s.queue.length s.line c).1⟩ : LineDisc).Inv := by
  unfold Xv6.put
  split_ifs with hcommit
  · exact ⟨by simp; omega, by simp, fun _ => rfl⟩
  · simp only [not_or] at hcommit
    refine ⟨by simp; omega, fun d hd => ?_, fun hfull => ?_⟩
    · rcases List.mem_append.mp hd with hd | hd
      · exact h.line_open d hd
      · rw [List.mem_singleton.mp hd]
        exact ⟨hcommit.1, hcommit.2.1⟩
    · simp only [List.append_nil, List.length_append, List.length_singleton] at hfull
      exact absurd (by omega) hcommit.2.2

theorem Inv.intr (h : s.Inv) (c : UInt8) : (s.intr c).Inv := by
  have hsize := h.size_le
  unfold LineDisc.intr edit
  by_cases hcmd : c = C 'P' ∨ c = C 'Q' ∨ c = C 'L' ∨ c = C 'S'
  · simpa only [if_pos hcmd, List.append_nil] using h
  by_cases hkill : c = C 'U'
  · simp only [if_neg hcmd, if_pos hkill, List.append_nil]
    exact ⟨by simpa using h.size_le.trans' (Nat.le_add_right _ _), by simp, fun _ => rfl⟩
  by_cases herase : c = C 'H' ∨ c = '\x7f'.toUInt8
  · simp only [if_neg hcmd, if_neg hkill, if_pos herase, List.append_nil]
    refine ⟨?_, fun d hd => h.line_open d (List.mem_of_mem_dropLast hd), fun hfull => ?_⟩
    · simp only [List.length_dropLast]
      omega
    · -- a line one shorter than one that fit cannot fill the ring unless it is empty
      simp only [List.length_dropLast] at hfull
      cases hl : s.line with
      | nil => rfl
      | cons d l =>
        rw [hl, List.length_cons] at hsize
        rw [hl, List.length_cons] at hfull
        omega
  by_cases hstore : c ≠ 0 ∧ s.queue.length + s.line.length < INPUT_BUF
  · simp only [if_neg hcmd, if_neg hkill, if_neg herase, if_pos hstore]
    exact h.put hstore.2 _
  · simpa only [if_neg hcmd, if_neg hkill, if_neg herase, if_neg hstore, List.append_nil] using h

end LineDisc

/-! ## What a reader's run takes -/

section TakeLine

variable {killed : Bool} {target : Nat}

/-- A run takes a prefix of the committed characters. -/
theorem taken_prefix_of_takeLine (oks : List Bool) (q : List UInt8) :
    (takeLine killed target oks q).2.1 <+: q := by
  induction oks generalizing q with
  | nil => exact List.nil_prefix
  | cons ok oks ih =>
    cases q with
    | nil => cases killed <;> exact List.nil_prefix
    | cons c q =>
      simp only [takeLine]
      split_ifs
      · exact List.nil_prefix
      · exact List.prefix_cons_inj c |>.mpr List.nil_prefix
      · exact List.prefix_cons_inj c |>.mpr List.nil_prefix
      · exact List.prefix_cons_inj c |>.mpr (ih q)
      · exact List.prefix_cons_inj c |>.mpr List.nil_prefix

/-- No end-of-file is ever copied out. -/
theorem eof_not_mem_takeLine (oks : List Bool) (q : List UInt8) : C 'D' ∉ (takeLine killed target oks q).1 := by
  induction oks generalizing q with
  | nil => simp [takeLine]
  | cons ok oks ih =>
    cases q with
    | nil => cases killed <;> simp [takeLine]
    | cons c q =>
      simp only [takeLine]
      split_ifs with heof
      · simp
      · simp
      · simp [Ne.symm heof]
      · exact List.not_mem_cons_of_ne_of_not_mem (Ne.symm heof) (ih q)
      · simp

/-- A run of a call that has copied bytes, whose copies succeed, copies out all it takes: it
leaves an end-of-file where it stands. -/
theorem takeLine_taken_of_lt (oks : List Bool) (hoks : oks.all id) (hlt : oks.length < target) (q : List UInt8) :
    (takeLine killed target oks q).2.1 = (takeLine killed target oks q).1 := by
  induction oks generalizing q with
  | nil => rfl
  | cons ok oks ih =>
    simp only [List.all_cons, id, Bool.and_eq_true] at hoks
    obtain ⟨hok, hrest⟩ := hoks
    cases q with
    | nil => cases killed <;> rfl
    | cons c q =>
      simp only [List.length_cons] at hlt
      simp only [takeLine, hok, if_pos hlt, if_true]
      split_ifs
      · rfl
      · rfl
      · rw [ih hrest (by omega) q]

/-- A run whose copies succeed copies out all it takes, except an end-of-file met before its
call copied anything, which it takes alone and returns `0` for. -/
theorem takeLine_taken (oks : List Bool) (hoks : oks.all id) (hle : oks.length ≤ target) (q : List UInt8) :
    (takeLine killed target oks q).2.1 = (takeLine killed target oks q).1 ∨
      ((takeLine killed target oks q).1 = [] ∧ (takeLine killed target oks q).2.1 = [C 'D'] ∧
        (takeLine killed target oks q).2.2 = .returns 0) := by
  rcases Nat.lt_or_eq_of_le hle with hlt | heq
  · exact .inl (takeLine_taken_of_lt oks hoks hlt q)
  cases oks with
  | nil => exact .inl rfl
  | cons ok oks =>
    simp only [List.all_cons, id, Bool.and_eq_true] at hoks
    obtain ⟨hok, hrest⟩ := hoks
    cases q with
    | nil => cases killed <;> exact .inl rfl
    | cons c q =>
      simp only [List.length_cons] at heq
      by_cases heof : c = C 'D'
      · -- the call has copied nothing: the end-of-file goes, and the read returns `0`
        subst heof
        refine .inr ⟨?_, ?_, ?_⟩ <;> simp [takeLine, ← heq]
      · left
        simp only [takeLine, if_neg heof, hok, if_true]
        split_ifs
        · rfl
        · rw [takeLine_taken_of_lt oks hrest (by omega) q]

end TakeLine

/-! ## The code refines the line discipline -/

namespace Cons

/-- The line discipline a console's ring stands for. -/
def abs (cn : Cons) : LineDisc := ⟨cn.queue, cn.line⟩

variable {cn : Cons}

/-- Storing an accepted character does to the views what `put` says. -/
theorem abs_store (h : cn.queue.length + cn.line.length < INPUT_BUF) (c : UInt8) :
    (cn.store c).abs = ⟨cn.queue ++ (put cn.queue.length cn.line c).2, (put cn.queue.length cn.line c).1⟩ := by
  have hviews := store_views h c
  unfold Xv6.put
  split_ifs at hviews ⊢ <;> simp only [Prod.mk.injEq] at hviews <;>
    simp only [abs, hviews.1, hviews.2, List.append_nil]

/-- `consoleintr` does to the views what `edit` says. -/
theorem abs_intr (h : cn.abs.Inv) (c : UInt8) : (cn.intr c).abs = cn.abs.intr c := by
  have hsize : cn.queue.length + cn.line.length ≤ INPUT_BUF := h.size_le
  have habs : cn.abs = ⟨cn.queue, cn.line⟩ := rfl
  rw [habs]
  unfold intr LineDisc.intr edit
  by_cases hcmd : c = C 'P' ∨ c = C 'Q' ∨ c = C 'L' ∨ c = C 'S'
  · simp only [if_pos hcmd, List.append_nil]
    rfl
  by_cases hkill : c = C 'U'
  · -- the line holds no newline, so the loop runs back to `w`
    simp only [if_neg hcmd, if_pos hkill, List.append_nil]
    rw [killLine_eq (fun hm => (h.line_open _ hm).1 rfl) (by simp)]
    simp only [abs, line, Ring.sub_toNat_eq_zero.mpr rfl, Ring.view_zero]
    rfl
  by_cases herase : c = C 'H' ∨ c = '\x7f'.toUInt8
  · simp only [if_neg hcmd, if_neg hkill, if_pos herase, List.append_nil]
    split_ifs with he
    · exact congrArg (LineDisc.mk cn.queue) (line_erase he)
    · have hnil : cn.line = [] := List.eq_nil_of_length_eq_zero (by simpa using Ring.sub_toNat_eq_zero.mpr (not_not.mp he))
      simp only [abs, hnil, List.dropLast_nil]
  by_cases hstore : c ≠ 0 ∧ cn.queue.length + cn.line.length < INPUT_BUF
  · have hstore' : c ≠ 0 ∧ cn.e - cn.r < INPUT_BUF.toUInt32 := ⟨hstore.1, (e_sub_r_lt_iff hsize).mpr hstore.2⟩
    simp only [if_neg hcmd, if_neg hkill, if_neg herase, if_pos hstore, if_pos hstore']
    exact abs_store hstore.2 _
  · have hstore' : ¬(c ≠ 0 ∧ cn.e - cn.r < INPUT_BUF.toUInt32) := by rwa [e_sub_r_lt_iff hsize]
    simp only [if_neg hcmd, if_neg hkill, if_neg herase, if_neg hstore, if_neg hstore', List.append_nil]
    rfl

/-- A run of `consoleread`'s loop takes from the views what `takeLine` takes, copies out the same
bytes and ends the same way. -/
theorem abs_consolereadLoop (killed : Bool) (target : Nat) (oks : List Bool) :
    (cn.consolereadLoop killed target oks).1.abs = (cn.abs.read killed target oks).1 ∧
      (cn.consolereadLoop killed target oks).2 =
        ((cn.abs.read killed target oks).2.1, (cn.abs.read killed target oks).2.2.2) := by
  induction oks generalizing cn with
  | nil => exact ⟨rfl, rfl⟩
  | cons ok oks ih =>
    by_cases hrw : cn.r = cn.w
    · have hq : cn.queue = [] := queue_eq_nil_iff.mpr hrw
      cases killed <;> simp [consolereadLoop, LineDisc.read, abs, takeLine, hrw, hq]
    · -- the loop takes `buf[r++]`, the first committed character
      have hq := queue_take hrw
      have hline : ({ cn with r := cn.r + 1 } : Cons).line = cn.line := rfl
      simp only [LineDisc.read, abs, hq]
      simp only [consolereadLoop, if_neg hrw, takeLine]
      by_cases heof : cn.get cn.r = C 'D'
      · by_cases hlt : oks.length + 1 < target
        · -- the end-of-file is put back: `r++` then `r--`
          have hback : ({ cn with r := cn.r + 1 - 1 } : Cons) = cn := by simp
          simp only [if_pos heof, if_pos hlt, hback, List.length_nil, List.drop_zero, ← hq, and_self]
        · simp only [if_pos heof, if_neg hlt, List.length_singleton, List.drop_one, List.tail_cons, hline, and_self]
      · cases ok with
        | false =>
          simp only [if_neg heof, Bool.false_eq_true, if_false, List.length_singleton, List.drop_one,
            List.tail_cons, hline, and_self]
        | true =>
          simp only [if_neg heof, if_true]
          split_ifs
          · simp only [List.length_singleton, List.drop_one, List.tail_cons, hline, and_self]
          · obtain ⟨ih1, ih2⟩ := @ih { cn with r := cn.r + 1 }
            simp only [LineDisc.read, abs, hline] at ih1 ih2
            refine ⟨?_, ?_⟩
            · rw [ih1]
              simp
            · rw [ih2]

end Cons

/-! ## Runs -/

/-- The line discipline of every console along a run of the consoles, with the characters each
committed and, for each run of its readers, what it copied out, took and returned. -/
structure LineSys where
  disc : Fin NBCONSOLES.toNat → LineDisc
  console_number : Fin NBCONSOLES.toNat
  committed : Fin NBCONSOLES.toNat → List UInt8
  reads : Fin NBCONSOLES.toNat → List (List UInt8 × List UInt8 × Outcome)

/-- One step of a run: a typed character goes to the current console, control-S makes the next
one current; a reader's run on console `i` takes from its committed characters, once `i` is
current for a new call. -/
def lineStep (t : LineSys) : ConsAct → LineSys
  | .intr c =>
    let i := t.console_number
    { disc := Function.update t.disc i ((t.disc i).intr c)
      console_number := if c = C 'S' then i + 1 else i
      committed := Function.update t.committed i (t.committed i ++ (edit (t.disc i).queue.length (t.disc i).line c).2)
      reads := t.reads }
  | .read i fresh killed target oks =>
    if fresh ∧ t.console_number ≠ i then
      { t with reads := Function.update t.reads i (t.reads i ++ [([], [], .sleeps)]) }
    else
      let r := (t.disc i).read killed target oks
      { t with disc := Function.update t.disc i r.1, reads := Function.update t.reads i (t.reads i ++ [r.2]) }

/-- A run: the steps in order. -/
def lineRun (t : LineSys) (acts : List ConsAct) : LineSys := acts.foldl lineStep t

/-- Every console empty, console `0` current, nothing committed or read. -/
def LineSys.init : LineSys := ⟨fun _ => ⟨[], []⟩, 0, fun _ => [], fun _ => []⟩

/-- A step is not a reader's run whose copy fails, or whose call wants more than it asked for. -/
def ConsAct.copiesAll : ConsAct → Bool
  | .read _ _ _ target oks => oks.all id && decide (oks.length ≤ target)
  | .intr _ => true

/-- What holds along a run of the line discipline: each console's invariant; its readers took
its committed characters in order, and what they have not taken is its queue; no reader copied
an end-of-file; and while every copy succeeded, each reader run copied out what it took, or took
one end-of-file alone and returned `0`. -/
structure LineSys.Inv (t : LineSys) (nofail : Bool) : Prop where
  disc : ∀ i, (t.disc i).Inv
  taken : ∀ i, (t.reads i).flatMap (fun x => x.2.1) ++ (t.disc i).queue = t.committed i
  no_eof : ∀ i, ∀ x ∈ t.reads i, C 'D' ∉ x.1
  copies : nofail → ∀ i, ∀ x ∈ t.reads i,
    x.2.1 = x.1 ∨ (x.1 = [] ∧ x.2.1 = [C 'D'] ∧ x.2.2 = .returns 0)

/-- The consoles stand for the line discipline: their views are its state, and their readers
got what its readers got. -/
structure ConsRefines (s : ConsoleLog) (t : LineSys) : Prop where
  disc : ∀ i, (s.con.consoles i).abs = t.disc i
  number : s.con.console_number = t.console_number
  reads : ∀ i, s.reads i = (t.reads i).map fun x => (x.1, x.2.2)

/-- An entry of a console's reads after one more run is an earlier one, or the new one. -/
theorem mem_update_append {α : Type} {reads : Fin NBCONSOLES.toNat → List α} {i j : Fin NBCONSOLES.toNat}
    {x y : α} (hx : x ∈ Function.update reads j (reads j ++ [y]) i) : x ∈ reads i ∨ (i = j ∧ x = y) := by
  by_cases hi : i = j
  · subst hi
    simp only [Function.update_self, List.mem_append, List.mem_singleton] at hx
    exact hx.imp id fun h => ⟨rfl, h⟩
  · exact .inl (by simpa [hi] using hx)

namespace LineSys

variable {t : LineSys} {nofail : Bool}

theorem Inv.step (h : t.Inv nofail) (a : ConsAct) : (lineStep t a).Inv (nofail && a.copiesAll) := by
  cases a with
  | intr c =>
    refine ⟨fun i => ?_, fun i => ?_, h.no_eof, fun hnf => h.copies (by simpa [ConsAct.copiesAll] using hnf)⟩
    · by_cases hi : i = t.console_number
      · subst hi
        simpa [lineStep] using (h.disc _).intr c
      · simpa [lineStep, hi] using h.disc i
    · by_cases hi : i = t.console_number
      · subst hi
        simp only [lineStep, Function.update_self, LineDisc.intr, ← h.taken, List.append_assoc]
      · simpa [lineStep, hi] using h.taken i
  | read j fresh killed target oks =>
    -- every run of a reader of console `j` adds one entry to its reads
    by_cases hsleep : fresh = true ∧ t.console_number ≠ j
    · simp only [lineStep, if_pos hsleep]
      refine ⟨h.disc, fun i => ?_, fun i x hx => ?_, fun hnf i x hx => ?_⟩
      · by_cases hi : i = j
        · subst hi
          simpa using h.taken i
        · simpa [hi] using h.taken i
      · rcases mem_update_append hx with hx | ⟨-, rfl⟩
        · exact h.no_eof i x hx
        · simp
      · rcases mem_update_append hx with hx | ⟨-, rfl⟩
        · exact h.copies ((Bool.and_eq_true _ _).mp hnf).1 i x hx
        · exact .inl rfl
    · simp only [lineStep, if_neg hsleep]
      have hpre := @taken_prefix_of_takeLine killed target oks (t.disc j).queue
      refine ⟨fun i => ?_, fun i => ?_, fun i x hx => ?_, fun hnf i x hx => ?_⟩
      · by_cases hi : i = j
        · subst hi
          simpa [LineDisc.read] using (h.disc i).drop _
        · simpa [hi] using h.disc i
      · by_cases hi : i = j
        · -- what the run took is the front of the queue, and it leaves the rest
          subst hi
          simp only [Function.update_self, LineDisc.read, List.flatMap_append, List.flatMap_singleton,
            List.append_assoc]
          rw [List.prefix_iff_eq_append.mp hpre, h.taken i]
        · simpa [hi] using h.taken i
      · rcases mem_update_append hx with hx | ⟨rfl, rfl⟩
        · exact h.no_eof i x hx
        · exact eof_not_mem_takeLine oks _
      · simp only [Bool.and_eq_true, ConsAct.copiesAll, decide_eq_true_eq] at hnf
        rcases mem_update_append hx with hx | ⟨rfl, rfl⟩
        · exact h.copies hnf.1 i x hx
        · exact takeLine_taken oks hnf.2.1 hnf.2.2 _

theorem Inv.run (h : t.Inv nofail) (acts : List ConsAct) :
    (lineRun t acts).Inv (nofail && acts.all ConsAct.copiesAll) := by
  induction acts generalizing t nofail with
  | nil => simpa [lineRun] using h
  | cons a acts ih => simpa [lineRun, Bool.and_assoc] using ih (h.step a)

theorem inv_init : LineSys.init.Inv true where
  disc _ := ⟨by simp [LineSys.init], by simp [LineSys.init], fun _ => rfl⟩
  taken _ := rfl
  no_eof _ _ hx := absurd hx List.not_mem_nil
  copies _ _ _ hx := absurd hx List.not_mem_nil

end LineSys

theorem ConsRefines.step {s : ConsoleLog} {t : LineSys} (hr : ConsRefines s t) (hinv : ∀ i, (t.disc i).Inv)
    (a : ConsAct) : ConsRefines (consoleStep s a) (lineStep t a) := by
  cases a with
  | intr c =>
    refine ⟨fun i => ?_, by simp [consoleStep, lineStep, Console.consoleintr, hr.number], hr.reads⟩
    by_cases hi : i = t.console_number
    · subst hi
      have habs := Cons.abs_intr (hr.disc t.console_number ▸ hinv t.console_number) c
      simp only [consoleStep, lineStep, Console.consoleintr, hr.number, Function.update_self]
      rw [habs, hr.disc]
    · simp [consoleStep, lineStep, Console.consoleintr, hr.number, hi, hr.disc i]
  | read j fresh killed target oks =>
    by_cases hsleep : fresh = true ∧ t.console_number ≠ j
    · have hsleep' : fresh = true ∧ s.con.console_number ≠ j := by rwa [hr.number]
      refine ⟨fun i => ?_, ?_, fun i => ?_⟩
      · simp [consoleStep, lineStep, Console.consoleread, if_pos hsleep', if_pos hsleep, hr.disc i]
      · simp [consoleStep, lineStep, Console.consoleread, if_pos hsleep, hr.number]
      · by_cases hi : i = j
        · subst hi
          simp [consoleStep, lineStep, Console.consoleread, hsleep, hsleep', hr.reads i]
        · simp [consoleStep, lineStep, Console.consoleread, hsleep, hsleep', hi, hr.reads i]
    · have hsleep' : ¬(fresh = true ∧ s.con.console_number ≠ j) := by rwa [hr.number]
      obtain ⟨h1, h2⟩ := @Cons.abs_consolereadLoop (s.con.consoles j) killed target oks
      rw [hr.disc j] at h1 h2
      refine ⟨fun i => ?_, ?_, fun i => ?_⟩
      · by_cases hi : i = j
        · subst hi
          simp [consoleStep, lineStep, Console.consoleread, hsleep, hsleep', h1]
        · simp [consoleStep, lineStep, Console.consoleread, hsleep, hsleep', hi, hr.disc i]
      · simp [consoleStep, lineStep, Console.consoleread, hsleep, hr.number]
      · by_cases hi : i = j
        · subst hi
          simp [consoleStep, lineStep, Console.consoleread, hsleep, hsleep', hr.reads i, h2]
        · simp [consoleStep, lineStep, Console.consoleread, hsleep, hsleep', hi, hr.reads i]

theorem ConsRefines.run {s : ConsoleLog} {t : LineSys} {nofail : Bool} (hr : ConsRefines s t) (hinv : t.Inv nofail)
    (acts : List ConsAct) : ConsRefines (consoleRun s acts) (lineRun t acts) := by
  induction acts generalizing s t nofail with
  | nil => exact hr
  | cons a acts ih => exact ih (hr.step hinv.disc a) (hinv.step a)

theorem consRefines_init : ConsRefines ConsoleLog.init LineSys.init where
  disc _ := by simp [Cons.abs, Cons.queue, Cons.line, ConsoleLog.init, Console.init, LineSys.init]
  number := rfl
  reads _ := rfl

/-- Along every run of the consoles from boot, on every console: `r ≤ w ≤ e ≤ r + INPUT_BUF` as
differences of the `uint` indices; the console's ring holds the line discipline's state, and
its readers' runs copied out and returned what the line discipline's readers did; those took
the characters the console committed in order, what they have not taken being the queue; no
reader copied out an end-of-file; and while every copy succeeded, each reader run copied out
what it took, or took one end-of-file alone and returned `0`. -/
theorem console_line_discipline (acts : List ConsAct) (i : Fin NBCONSOLES.toNat) :
    ((consoleRun ConsoleLog.init acts).con.consoles i).w - ((consoleRun ConsoleLog.init acts).con.consoles i).r
        ≤ ((consoleRun ConsoleLog.init acts).con.consoles i).e - ((consoleRun ConsoleLog.init acts).con.consoles i).r ∧
      (((consoleRun ConsoleLog.init acts).con.consoles i).e -
        ((consoleRun ConsoleLog.init acts).con.consoles i).r).toNat ≤ INPUT_BUF ∧
      ((consoleRun ConsoleLog.init acts).con.consoles i).abs = (lineRun LineSys.init acts).disc i ∧
      (consoleRun ConsoleLog.init acts).reads i = ((lineRun LineSys.init acts).reads i).map (fun x => (x.1, x.2.2)) ∧
      ((lineRun LineSys.init acts).reads i).flatMap (fun x => x.2.1) ++ ((lineRun LineSys.init acts).disc i).queue =
        (lineRun LineSys.init acts).committed i ∧
      ∀ x ∈ (lineRun LineSys.init acts).reads i, C 'D' ∉ x.1 ∧
        (acts.all ConsAct.copiesAll → x.2.1 = x.1 ∨ (x.1 = [] ∧ x.2.1 = [C 'D'] ∧ x.2.2 = .returns 0)) := by
  have hinv := LineSys.inv_init.run acts
  have hr := consRefines_init.run LineSys.inv_init acts
  set cn := (consoleRun ConsoleLog.init acts).con.consoles i
  have hdisc : cn.abs.Inv := (hr.disc i).symm ▸ hinv.disc i
  have her := Cons.e_sub_r hdisc.size_le
  refine ⟨?_, ?_, hr.disc i, hr.reads i, hinv.taken i, fun x hx => ⟨hinv.no_eof i x hx, fun hall => ?_⟩⟩
  · rw [UInt32.le_iff_toNat_le, her]
    simp
  · rw [her]
    exact hdisc.size_le
  · exact hinv.copies (by simpa using hall) i x hx

/-- A line typed and read whole on console `0`: the reader gets it, as the line discipline's
reader does. -/
theorem console_line_discipline_typed_line :
    (consoleRun ConsoleLog.init [.intr 97, .intr 10, .read 0 true false 2 [true, true]]).reads 0 =
        [([97, 10], .returns 2)] ∧
      (consoleRun ConsoleLog.init [.intr 97, .intr 10, .read 0 true false 2 [true, true]]).reads 0 =
        ((lineRun LineSys.init [.intr 97, .intr 10, .read 0 true false 2 [true, true]]).reads 0).map
          (fun x => (x.1, x.2.2)) :=
  ⟨by decide, (console_line_discipline [.intr 97, .intr 10, .read 0 true false 2 [true, true]] 0).2.2.2.1⟩

/-- A copy that faults loses its byte: after `a` and a newline are typed, a read whose first
copy faults returns `0`, as at an end-of-file, and the next read gets the newline alone. -/
theorem consoleread_fault_drops_byte :
    (consoleRun ConsoleLog.init
      [.intr 97, .intr 10, .read 0 true false 2 [false, true], .read 0 true false 2 [true, true]]).reads 0 =
        [([], .returns 0), ([10], .returns 1)] := by
  decide

end Xv6
