import Xv6.Lib.Ring
import Xv6.File.Sys
import Xv6.File.Pipe

/-!
# The console's input

`consoleintr` and `consoleread` of `kernel/console.c` over `struct cons_t`: a ring of
`INPUT_BUF` characters and the `uint` indices `r` (read), `w` (write) and `e` (edit), which run
freely and wrap at `2 ^ 32`. The characters from `r` to `w` are committed and not yet read
(`Cons.queue`), those from `w` to `e` the line being edited (`Cons.line`). Of the `NBCONSOLES`
consoles `consoleintr` edits the current one, `consoles[console_number]`, and control-S makes
the next one current; a new `consoleread` waits until its console is current.

* `Cons.intr`: `consoleintr` on the console it edits, with the control-U loop `killLine` and
  the store of an accepted character `store` as helpers;
* `Cons.consolereadLoop`: the loop of `consoleread` under the console's lock; a run of it ends
  when the reader sleeps on an empty buffer, and the call goes on later from where it stopped;
* `Console`, `ConsAct`, `consoleRun`: the consoles under any interleaving of typed characters
  and reader runs, with what each reader run copied out and how it ended.

The views `Cons.queue` and `Cons.line` read the ring as two lists; the lemmas of the last
section say what each branch of the code does to them while `r`, `w`, `e` stand at most
`INPUT_BUF` apart. The echo through `consputc`, `consolewrite` and the dumps of control-P, -Q
and -L write to the UART only and are left out.
-/

namespace Xv6

/-- `INPUT_BUF`. -/
def INPUT_BUF : Nat := 128

instance : NeZero INPUT_BUF := ⟨by decide⟩

/-- Consoles are numbered from `0`, so numerals name them. -/
instance : NeZero NBCONSOLES.toNat := ⟨by decide⟩

/-- The ring's slots do not move when the indices wrap. -/
theorem INPUT_BUF_dvd : INPUT_BUF ∣ 2 ^ 32 := ⟨2 ^ 25, rfl⟩

/-- `C(x)`: control-`x`. -/
def C (x : Char) : UInt8 := x.toUInt8 - '@'.toUInt8

/-- The input half of `struct cons_t`: the ring `buf` and its indices. -/
structure Cons where
  buf : Fin INPUT_BUF → UInt8
  r : UInt32
  w : UInt32
  e : UInt32

namespace Cons

/-- `buf[x % INPUT_BUF]`. -/
def get (cn : Cons) (x : UInt32) : UInt8 := cn.buf (Ring.slot INPUT_BUF x.toNat)

/-- The loop of control-U, `while(e != w && buf[(e-1) % INPUT_BUF] != '\n') e--`, for at most
`k` rounds; `consoleintr` gives it `e - w`, after which `e = w` ends it. -/
def killLine (cn : Cons) : Nat → Cons
  | 0 => cn
  | k + 1 =>
    if cn.e ≠ cn.w ∧ cn.get (cn.e - 1) ≠ '\n'.toUInt8 then killLine { cn with e := cn.e - 1 } k else cn

/-- The default case of `consoleintr` once `c` is accepted: `buf[e++ % INPUT_BUF] = c`, and the
line is committed (`w = e`) at a newline, an end-of-file or a full buffer. -/
def store (cn : Cons) (c : UInt8) : Cons :=
  let cn := { cn with buf := Function.update cn.buf (Ring.slot INPUT_BUF cn.e.toNat) c, e := cn.e + 1 }
  if c = '\n'.toUInt8 ∨ c = C 'D' ∨ cn.e = cn.r + INPUT_BUF.toUInt32 then { cn with w := cn.e } else cn

/-- `consoleintr(c)` on the console it edits. Control-S leaves every console's input alone: it
changes which console is current (`Console.consoleintr`). -/
def intr (cn : Cons) (c : UInt8) : Cons :=
  if c = C 'P' ∨ c = C 'Q' ∨ c = C 'L' ∨ c = C 'S' then cn
  else if c = C 'U' then cn.killLine (cn.e - cn.w).toNat
  else if c = C 'H' ∨ c = '\x7f'.toUInt8 then
    if cn.e ≠ cn.w then { cn with e := cn.e - 1 } else cn
  else if c ≠ 0 ∧ cn.e - cn.r < INPUT_BUF.toUInt32 then
    cn.store (if c = '\r'.toUInt8 then '\n'.toUInt8 else c)
  else cn

/-- The loop of `consoleread` under the console's lock, for a call that asked for `target` bytes
and still wants one for each entry of `oks` (`false` where `either_copyout` fails): the console,
the bytes copied out, and how the run ends. On an empty buffer the reader returns `-1` if it was
killed and sleeps otherwise. A byte whose copy fails has been taken from the buffer. -/
def consolereadLoop (killed : Bool) (target : Nat) : List Bool → Cons → Cons × List UInt8 × Outcome
  | [], cn => (cn, [], .returns target)
  | ok :: oks, cn =>
    if cn.r = cn.w then
      if killed then (cn, [], .returns (-1)) else (cn, [], .sleeps)
    else
      let c := cn.get cn.r
      let cn := { cn with r := cn.r + 1 }
      if c = C 'D' then
        -- a call that has copied bytes leaves the end-of-file for the next read
        if oks.length + 1 < target then ({ cn with r := cn.r - 1 }, [], .returns (↑target - ↑(oks.length + 1)))
        else (cn, [], .returns (↑target - ↑(oks.length + 1)))
      else if ok then
        if c = '\n'.toUInt8 then (cn, [c], .returns (↑target - ↑oks.length))
        else
          let r := consolereadLoop killed target oks cn
          (r.1, c :: r.2.1, r.2.2)
      else (cn, [], .returns (↑target - ↑(oks.length + 1)))

end Cons

/-- The consoles and `console_number`, the index of the one `consoleintr` edits (`cons`). -/
structure Console where
  consoles : Fin NBCONSOLES.toNat → Cons
  console_number : Fin NBCONSOLES.toNat

namespace Console

/-- After `consoleinit`: the consoles as the zeroed globals leave them, console `0` current. -/
def init : Console := ⟨fun _ => ⟨fun _ => 0, 0, 0, 0⟩, 0⟩

/-- `consoleintr(c)`: the current console edits `c`; control-S makes the next one current,
`console_number = (console_number + 1) % NBCONSOLES`. -/
def consoleintr (s : Console) (c : UInt8) : Console where
  consoles := Function.update s.consoles s.console_number ((s.consoles s.console_number).intr c)
  console_number := if c = C 'S' then s.console_number + 1 else s.console_number

/-- A run of `consoleread` on console `i` (the file's `minor - 1`). A new call first sleeps until
`i` is the current console; a call that slept on an empty buffer goes on with no such check. -/
def consoleread (s : Console) (i : Fin NBCONSOLES.toNat) (fresh killed : Bool) (target : Nat)
    (oks : List Bool) : Console × List UInt8 × Outcome :=
  if fresh ∧ s.console_number ≠ i then (s, [], .sleeps)
  else
    let r := (s.consoles i).consolereadLoop killed target oks
    ({ s with consoles := Function.update s.consoles i r.1 }, r.2.1, r.2.2)

end Console

/-- A step of a run of the consoles: a character from the UART, or a run of a reader of console
`i` whose call asked for `target` bytes and still wants `oks.length`. -/
inductive ConsAct
  | intr (c : UInt8)
  | read (i : Fin NBCONSOLES.toNat) (fresh killed : Bool) (target : Nat) (oks : List Bool)

/-- The consoles with, for each, what every run of its readers copied out and how it ended. -/
structure ConsoleLog where
  con : Console
  reads : Fin NBCONSOLES.toNat → List (List UInt8 × Outcome)

/-- One step of a run. -/
def consoleStep (s : ConsoleLog) : ConsAct → ConsoleLog
  | .intr c => { s with con := s.con.consoleintr c }
  | .read i fresh killed target oks =>
    let r := s.con.consoleread i fresh killed target oks
    ⟨r.1, Function.update s.reads i (s.reads i ++ [r.2])⟩

/-- A run: the steps in order. -/
def consoleRun (s : ConsoleLog) (acts : List ConsAct) : ConsoleLog := acts.foldl consoleStep s

/-- The booted consoles, no reader having run. -/
def ConsoleLog.init : ConsoleLog := ⟨Console.init, fun _ => []⟩

/-! ## The ring as two lists -/

namespace Cons

/-- The committed characters not yet read, `buf[r] … buf[w-1]`. -/
def queue (cn : Cons) : List UInt8 := Ring.view cn.buf cn.r (cn.w - cn.r).toNat

/-- The line being edited, `buf[w] … buf[e-1]`. -/
def line (cn : Cons) : List UInt8 := Ring.view cn.buf cn.w (cn.e - cn.w).toNat

variable {cn : Cons}

@[simp] theorem length_queue : cn.queue.length = (cn.w - cn.r).toNat := Ring.length_view

@[simp] theorem length_line : cn.line.length = (cn.e - cn.w).toNat := Ring.length_view

/-- While the views fit the ring, `e - r` counts the characters of both. -/
theorem e_sub_r (h : cn.queue.length + cn.line.length ≤ INPUT_BUF) :
    (cn.e - cn.r).toNat = cn.queue.length + cn.line.length := by
  rw [length_queue, length_line] at *
  exact Ring.sub_toNat_add (by unfold INPUT_BUF at h; omega)

/-- The test of the default case, `e - r < INPUT_BUF`, is a test on the views. -/
theorem e_sub_r_lt_iff (h : cn.queue.length + cn.line.length ≤ INPUT_BUF) :
    cn.e - cn.r < INPUT_BUF.toUInt32 ↔ cn.queue.length + cn.line.length < INPUT_BUF := by
  rw [UInt32.lt_iff_toNat_lt, e_sub_r h]
  rfl

theorem queue_eq_nil_iff : cn.queue = [] ↔ cn.r = cn.w := by
  rw [← List.length_eq_zero_iff, length_queue, Ring.sub_toNat_eq_zero, eq_comm]

/-- Taking `buf[r++]` from a console with committed characters pops the first of them. -/
theorem queue_take (h : cn.r ≠ cn.w) : cn.queue = cn.get cn.r :: { cn with r := cn.r + 1 }.queue := by
  have hq : (cn.w - cn.r).toNat = (cn.w - (cn.r + 1)).toNat + 1 := by
    rw [Ring.sub_add_one_toNat h]
    have : (cn.w - cn.r).toNat ≠ 0 := fun h0 => h (Ring.sub_toNat_eq_zero.mp h0).symm
    omega
  rw [queue, hq, Ring.view_cons INPUT_BUF_dvd]
  rfl

/-- `e--` on a console with a line being edited drops its last character. -/
theorem line_erase (h : cn.e ≠ cn.w) : { cn with e := cn.e - 1 }.line = cn.line.dropLast := by
  simp only [line, Ring.sub_one_sub_toNat h, Ring.view_pred]

/-- The character before `e` is the last one of the line. -/
theorem get_pred_mem_line (h : cn.e ≠ cn.w) : cn.get (cn.e - 1) ∈ cn.line := by
  have hl : (cn.e - 1 - cn.w).toNat + 1 = (cn.e - cn.w).toNat := by
    rw [Ring.sub_one_sub_toNat h]
    have : (cn.e - cn.w).toNat ≠ 0 := fun h0 => h (Ring.sub_toNat_eq_zero.mp h0)
    omega
  rw [line, ← hl, Ring.view_succ, get, Ring.slot_of_sub INPUT_BUF_dvd rfl]
  exact List.mem_append_right _ (List.mem_singleton_self _)

/-- The control-U loop runs back to `w` over a line with no newline: it never stops early. -/
theorem killLine_eq {k : Nat} (hl : '\n'.toUInt8 ∉ cn.line) (hk : cn.line.length ≤ k) :
    cn.killLine k = { cn with e := cn.w } := by
  induction k generalizing cn with
  | zero =>
    have he : cn.e = cn.w := Ring.sub_toNat_eq_zero.mp (by simpa using hk)
    obtain ⟨buf, r, w, e⟩ := cn
    cases he
    rfl
  | succ k ih =>
    by_cases he : cn.e = cn.w
    · have hstop : ¬(cn.e ≠ cn.w ∧ cn.get (cn.e - 1) ≠ '\n'.toUInt8) := fun h => h.1 he
      obtain ⟨buf, r, w, e⟩ := cn
      cases he
      simp only [killLine, if_neg hstop]
    · -- the last character of the line is not a newline, so the loop goes one round further
      have hlast : cn.get (cn.e - 1) ≠ '\n'.toUInt8 := fun h => hl (h ▸ get_pred_mem_line he)
      have hline := line_erase he
      rw [killLine, if_pos ⟨he, hlast⟩]
      refine ih (fun hm => hl ?_) ?_
      · rw [hline] at hm
        exact List.mem_of_mem_dropLast hm
      · rw [hline, List.length_dropLast]
        omega

/-- What the store of an accepted character does to the views: it appends the character to
the line, and commits the line when the character is a newline or an end-of-file or fills the
ring. -/
theorem store_views (h : cn.queue.length + cn.line.length < INPUT_BUF) (c : UInt8) :
    ((cn.store c).queue, (cn.store c).line) =
      if c = '\n'.toUInt8 ∨ c = C 'D' ∨ cn.queue.length + cn.line.length + 1 = INPUT_BUF then
        (cn.queue ++ (cn.line ++ [c]), [])
      else (cn.queue, cn.line ++ [c]) := by
  have her := e_sub_r h.le
  rw [length_queue, length_line] at h her
  -- the slot of `e` lies `e - w` past `w` and `e - r` past `r`, inside the ring
  have hslot_w : Ring.slot INPUT_BUF cn.e.toNat = Ring.slot INPUT_BUF (cn.w.toNat + (cn.e - cn.w).toNat) :=
    Ring.slot_of_sub INPUT_BUF_dvd rfl
  have hslot_r : Ring.slot INPUT_BUF cn.e.toNat =
      Ring.slot INPUT_BUF (cn.r.toNat + ((cn.w - cn.r).toNat + (cn.e - cn.w).toNat)) :=
    Ring.slot_of_sub INPUT_BUF_dvd her
  have hbuf : INPUT_BUF < 2 ^ 32 := by decide
  have hq : Ring.view (Function.update cn.buf (Ring.slot INPUT_BUF cn.e.toNat) c) cn.r (cn.w - cn.r).toNat =
      cn.queue := by
    rw [hslot_r, Ring.view_update_of_le (Nat.le_add_right _ _) h]
    rfl
  have hl : Ring.view (Function.update cn.buf (Ring.slot INPUT_BUF cn.e.toNat) c) cn.w ((cn.e - cn.w).toNat + 1) =
      cn.line ++ [c] := by
    rw [hslot_w, Ring.view_update_end (by omega)]
    rfl
  have hew : (cn.e + 1 - cn.w).toNat = (cn.e - cn.w).toNat + 1 := Ring.add_one_sub_toNat (by omega)
  have hfull : cn.e + 1 = cn.r + INPUT_BUF.toUInt32 ↔
      (cn.w - cn.r).toNat + (cn.e - cn.w).toNat + 1 = INPUT_BUF := by
    rw [Ring.eq_add_iff_sub_toNat hbuf, Ring.add_one_sub_toNat (by omega), her]
  simp only [length_queue, length_line]
  unfold store
  by_cases hc : c = '\n'.toUInt8 ∨ c = C 'D' ∨ (cn.w - cn.r).toNat + (cn.e - cn.w).toNat + 1 = INPUT_BUF
  · -- committed: `w` moves to the new `e`, so the queue reaches over the whole line
    have hc' : c = '\n'.toUInt8 ∨ c = C 'D' ∨ cn.e + 1 = cn.r + INPUT_BUF.toUInt32 := by rwa [hfull]
    simp only [if_pos hc, if_pos hc']
    refine Prod.ext ?_ ?_
    · show Ring.view _ cn.r (cn.e + 1 - cn.r).toNat = _
      rw [Ring.add_one_sub_toNat (by omega), her, Nat.add_assoc,
        Ring.view_add INPUT_BUF_dvd (rfl : (cn.w - cn.r).toNat = _), hq, hl]
    · show Ring.view _ (cn.e + 1) (cn.e + 1 - (cn.e + 1)).toNat = []
      rw [Ring.sub_toNat_eq_zero.mpr rfl]
      rfl
  · have hc' : ¬(c = '\n'.toUInt8 ∨ c = C 'D' ∨ cn.e + 1 = cn.r + INPUT_BUF.toUInt32) := by rwa [hfull]
    simp only [if_neg hc, if_neg hc']
    refine Prod.ext hq ?_
    show Ring.view _ cn.w (cn.e + 1 - cn.w).toNat = _
    rw [hew, hl]

end Cons

end Xv6
