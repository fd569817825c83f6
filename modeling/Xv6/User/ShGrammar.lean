import Mathlib
import Xv6.User.Sh

/-!
# The tokens of a line, and the parser over them

`gettoken` read again and again splits a line into its tokens, `scan`. Reading the tokens off
that list (`tokenScanner`) gives the parser what reading the line gives it: `parseline` on the
line and `parseline` on its tokens agree at every step (`parseline_scan`), since the parser calls
`peek` only on symbols, where a word never answers.
-/

namespace Xv6.Sh

/-! ## `gettoken` on the line -/

theorem dropWhile_white_idem (s : List Char) :
    (s.dropWhile (· ∈ whitespace)).dropWhile (· ∈ whitespace) = s.dropWhile (· ∈ whitespace) :=
  List.dropWhile_idempotent _ _

/-- What whitespace skipping stops at is no whitespace. -/
theorem not_white_of_dropWhile {s t : List Char} {c : Char} (hd : s.dropWhile (· ∈ whitespace) = c :: t) :
    c ∉ whitespace := by
  induction s with
  | nil => simp at hd
  | cons d s ih =>
    by_cases hdw : d ∈ whitespace
    · rw [List.dropWhile_cons_of_pos (by simpa using hdw)] at hd
      exact ih hd
    · rw [List.dropWhile_cons_of_neg (by simpa using hdw)] at hd
      cases hd
      exact hdw

/-- `gettoken` skips the whitespace first. -/
theorem gettoken_dropWhile (es : Nat) (s : List Char) :
    gettoken es (s.dropWhile (· ∈ whitespace)) = gettoken es s := by
  simp only [gettoken, dropWhile_white_idem]

/-- `gettoken` meets the end of the line exactly when only whitespace is left. -/
theorem gettoken_eq_zero_iff (es : Nat) (s : List Char) :
    (gettoken es s).1 = '\x00' ↔ s.dropWhile (· ∈ whitespace) = [] := by
  unfold gettoken
  cases s.dropWhile (· ∈ whitespace) with
  | nil => simp
  | cons c t =>
    simp only [reduceCtorEq, iff_false]
    split_ifs
    · -- a symbol: its own code, never `0`
      rename_i h
      rcases h with h | h | h | h | h | h <;> subst h <;> simp
    · split <;> simp
    · simp

theorem gettoken_end (es : Nat) (s : List Char) (h : s.dropWhile (· ∈ whitespace) = []) :
    gettoken es s = ('\x00', es, es, []) := by
  simp [gettoken, h]

/-- `gettoken` moves on from a line with a token left. -/
theorem gettoken_length {es : Nat} {s : List Char} (h : (gettoken es s).1 ≠ '\x00') :
    (gettoken es s).2.2.2.length < s.length := by
  have hs : (s.dropWhile (· ∈ whitespace)).length ≤ s.length := (List.dropWhile_suffix _).length_le
  unfold gettoken
  cases hd : s.dropWhile (· ∈ whitespace) with
  | nil => exact absurd ((gettoken_eq_zero_iff es s).mpr hd) h
  | cons c t =>
    rw [hd, List.length_cons] at hs
    -- the text after the token is a suffix of `t`, and what follows it of that
    have hafter : ∀ u : List Char, u.length ≤ t.length → (u.dropWhile (· ∈ whitespace)).length < s.length :=
      fun u hu => by
        have : (u.dropWhile (· ∈ whitespace)).length ≤ u.length := (List.dropWhile_suffix _).length_le
        omega
    dsimp only
    split_ifs with hsym hgt
    · exact hafter t le_rfl
    · split
      · next t' =>
        exact hafter t' (by simp_all)
      · exact hafter t le_rfl
    · apply hafter
      have hword : decide (c ∉ whitespace ∧ c ∉ symbols) = true := by
        have hw := not_white_of_dropWhile hd
        simp only [not_or] at hsym
        simp [hw, symbols, hsym.1, hsym.2.1, hsym.2.2.1, hsym.2.2.2.1, hsym.2.2.2.2.1, hsym.2.2.2.2.2, hgt]
      show ((c :: t).dropWhile fun d => decide (d ∉ whitespace ∧ d ∉ symbols)).length ≤ t.length
      rw [@List.dropWhile_cons_of_pos Char (fun d => decide (d ∉ whitespace ∧ d ∉ symbols)) c t hword]
      exact (List.dropWhile_suffix _).length_le

/-! ## The tokens -/

/-- A token of a line: its code, and the offsets where it starts and ends. -/
abbrev Tok := Char × Nat × Nat

/-- The tokens of the line from `s` on, as `gettoken` reads them one after another. -/
def scan (es : Nat) (s : List Char) : List Tok :=
  if _h : (gettoken es s).1 = '\x00' then []
  else ((gettoken es s).1, (gettoken es s).2.1, (gettoken es s).2.2.1) :: scan es (gettoken es s).2.2.2
termination_by s.length
decreasing_by exact gettoken_length _h

theorem scan_of_end {es : Nat} {s : List Char} (h : s.dropWhile (· ∈ whitespace) = []) : scan es s = [] := by
  rw [scan, dif_pos ((gettoken_eq_zero_iff es s).mpr h)]

theorem scan_dropWhile (es : Nat) (s : List Char) : scan es (s.dropWhile (· ∈ whitespace)) = scan es s := by
  rw [scan.eq_def es (s.dropWhile (· ∈ whitespace)), scan.eq_def es s, gettoken_dropWhile]

/-- The character `peek` sees at a token: `>` for `>>`, and for a word a character that is no
symbol, as `a` is not. -/
def lead (t : Tok) : Char := if t.1 = '+' then '>' else t.1

/-- `gettoken` and `peek` on a list of tokens. -/
def tokenScanner (es : Nat) : Scanner (List Tok) where
  gettoken
    | [] => ('\x00', es, es, [])
    | t :: ts => (t.1, t.2.1, t.2.2, ts)
  peek ts toks := (match ts with
    | [] => false
    | t :: _ => decide (lead t ∈ toks), ts)

/-- `gettoken` on the line reads the first of its tokens. -/
theorem gettoken_scan (es : Nat) (s : List Char) :
    (tokenScanner es).gettoken (scan es s) =
      ((gettoken es s).1, (gettoken es s).2.1, (gettoken es s).2.2.1, scan es (gettoken es s).2.2.2) := by
  by_cases h : (gettoken es s).1 = '\x00'
  · have hend := (gettoken_eq_zero_iff es s).mp h
    rw [scan_of_end hend, gettoken_end es s hend, scan_of_end rfl]
    rfl
  · rw [scan, dif_neg h]
    rfl

/-- `peek` on the line answers as on its tokens, for symbols. -/
theorem peek_scan (es : Nat) (s : List Char) {toks : List Char} (htoks : ∀ c ∈ toks, c ∈ symbols) :
    (tokenScanner es).peek (scan es s) toks = ((peek s toks).1, scan es (peek s toks).2) := by
  simp only [peek, scan_dropWhile, tokenScanner, Prod.mk.injEq, and_true]
  cases hd : s.dropWhile (· ∈ whitespace) with
  | nil => rw [scan_of_end hd]
  | cons c t =>
    have hne : (gettoken es s).1 ≠ '\x00' := fun h => by simp [(gettoken_eq_zero_iff es s).mp h] at hd
    rw [scan, dif_neg hne]
    simp only [decide_eq_decide]
    unfold gettoken
    simp only [hd]
    split_ifs with hsym hgt
    · have hplus : c ≠ '+' := by
        rcases hsym with h | h | h | h | h | h <;> subst h <;> decide
      simp [lead, hplus]
    · subst hgt
      split <;> simp [lead]
    · -- a word: its first character is no symbol, so no call's `toks` holds it
      have hc : c ∉ toks := fun hc => by
        have := htoks c hc
        simp only [symbols, List.mem_cons, List.not_mem_nil, or_false] at this
        simp only [not_or] at hsym
        rcases this with h | h | h | h | h | h | h <;> simp_all
      have ha : 'a' ∉ toks := fun ha => by simpa [symbols] using htoks 'a' ha
      simp [lead, hc, ha]

/-! ## One parser, two scanners -/

section Simulation

variable {σ τ : Type}

/-- A map of cursors under which `T` reads what `S` reads: the same tokens, and the same answers
to `peek` on symbols. -/
structure Scanner.Sim (S : Scanner σ) (T : Scanner τ) (f : σ → τ) : Prop where
  gettoken : ∀ s, T.gettoken (f s) =
    ((S.gettoken s).1, (S.gettoken s).2.1, (S.gettoken s).2.2.1, f (S.gettoken s).2.2.2)
  peek : ∀ s toks, (∀ c ∈ toks, c ∈ symbols) → T.peek (f s) toks = ((S.peek s toks).1, f (S.peek s toks).2)

variable {S : Scanner σ} {T : Scanner τ} {f : σ → τ} (h : Scanner.Sim S T f)
include h

theorem Scanner.Sim.gettoken_rest (s : σ) : (T.gettoken (f s)).2.2.2 = f (S.gettoken s).2.2.2 := by
  rw [h.gettoken]

theorem Scanner.Sim.parseredirs (k : Nat) (s : σ) :
    parseredirs T k (f s) = (parseredirs S k s).map (Prod.map id f) := by
  induction k generalizing s with
  | zero => rfl
  | succ k ih =>
    simp only [Xv6.Sh.parseredirs, h.peek s ['<', '>'] (by simp [symbols])]
    cases (S.peek s ['<', '>']).1
    · rfl
    · simp only [if_true, h.gettoken]
      split_ifs
      · rfl
      · rw [ih]
        cases Xv6.Sh.parseredirs S k (S.gettoken (S.gettoken (S.peek s ['<', '>']).2).2.2.2).2.2.2 <;> rfl

theorem Scanner.Sim.parseback (k : Nat) (cmd : Cmd) (s : σ) :
    parseback T k cmd (f s) = (parseback S k cmd s).map (Prod.map id f) := by
  induction k generalizing cmd s with
  | zero => rfl
  | succ k ih =>
    simp only [Xv6.Sh.parseback, h.peek s ['&'] (by simp [symbols])]
    cases (S.peek s ['&']).1
    · rfl
    · simp only [if_true, h.gettoken_rest, ih]

theorem Scanner.Sim.parseargs (k : Nat) (argv : List (Nat × Nat)) (rs : List Redir) (s : σ) :
    parseargs T k argv rs (f s) =
      (parseargs S k argv rs s).map (Prod.map id (Prod.map id f)) := by
  induction k generalizing argv rs s with
  | zero => rfl
  | succ k ih =>
    simp only [Xv6.Sh.parseargs, h.peek s ['|', ')', '&', ';'] (by simp [symbols])]
    cases (S.peek s ['|', ')', '&', ';']).1
    · simp only [Bool.false_eq_true, if_false, h.gettoken]
      split_ifs
      · rfl
      · rfl
      · rfl
      · rw [h.parseredirs]
        cases Xv6.Sh.parseredirs S k (S.gettoken (S.peek s ['|', ')', '&', ';']).2).2.2.2 with
        | error e => rfl
        | ok r => exact ih _ _ r.2
    · rfl

/-- The parser reads through `T` what it reads through `S`. -/
theorem Scanner.Sim.parse (k : Nat) :
    (∀ s, parseline T k (f s) = (parseline S k s).map (Prod.map id f)) ∧
      (∀ s, parsepipe T k (f s) = (parsepipe S k s).map (Prod.map id f)) ∧
      (∀ s, parseexec T k (f s) = (parseexec S k s).map (Prod.map id f)) ∧
      (∀ s, parseblock T k (f s) = (parseblock S k s).map (Prod.map id f)) := by
  induction k with
  | zero => exact ⟨fun _ => rfl, fun _ => rfl, fun _ => rfl, fun _ => rfl⟩
  | succ k ih =>
    obtain ⟨hline, hpipe, hexec, hblock⟩ := ih
    refine ⟨fun s => ?_, fun s => ?_, fun s => ?_, fun s => ?_⟩
    · simp only [parseline, hpipe]
      cases Xv6.Sh.parsepipe S k s with
      | error e => rfl
      | ok r =>
        simp only [Except.map, Prod.map, id, bind, Except.bind, h.parseback]
        cases Xv6.Sh.parseback S k r.1 r.2 with
        | error e => rfl
        | ok r' =>
          simp only [h.peek r'.2 [';'] (by simp [symbols])]
          cases (S.peek r'.2 [';']).1
          · rfl
          · simp only [if_true, h.gettoken_rest, hline]
            cases Xv6.Sh.parseline S k (S.gettoken (S.peek r'.2 [';']).2).2.2.2 <;> rfl
    · simp only [parsepipe, hexec]
      cases Xv6.Sh.parseexec S k s with
      | error e => rfl
      | ok r =>
        simp only [Except.map, Prod.map, id, bind, Except.bind, h.peek r.2 ['|'] (by simp [symbols])]
        cases (S.peek r.2 ['|']).1
        · rfl
        · simp only [if_true, h.gettoken_rest, hpipe]
          cases Xv6.Sh.parsepipe S k (S.gettoken (S.peek r.2 ['|']).2).2.2.2 <;> rfl
    · simp only [parseexec, h.peek s ['('] (by simp [symbols])]
      cases (S.peek s ['(']).1
      · simp only [Bool.false_eq_true, if_false, h.parseredirs]
        cases Xv6.Sh.parseredirs S k (S.peek s ['(']).2 with
        | error e => rfl
        | ok r =>
          simp only [Except.map, Prod.map, id, bind, Except.bind, h.parseargs]
          cases Xv6.Sh.parseargs S k [] r.1 r.2 <;> rfl
      · simp only [if_true, hblock]
    · simp only [parseblock, h.peek s ['('] (by simp [symbols])]
      cases (S.peek s ['(']).1
      · rfl
      · simp only [Bool.true_eq_false, if_false, h.gettoken_rest, hline]
        cases Xv6.Sh.parseline S k (S.gettoken (S.peek s ['(']).2).2.2.2 with
        | error e => rfl
        | ok r =>
          simp only [Except.map, Prod.map, id, bind, Except.bind, h.peek r.2 [')'] (by simp [symbols])]
          cases (S.peek r.2 [')']).1
          · rfl
          · simp only [Bool.true_eq_false, if_false, h.gettoken_rest, h.parseredirs]
            cases Xv6.Sh.parseredirs S k (S.gettoken (S.peek r.2 [')']).2).2.2.2 <;> rfl

end Simulation

/-- The line and its tokens read alike. -/
theorem lineScanner_sim (es : Nat) : Scanner.Sim (lineScanner es) (tokenScanner es) (scan es) :=
  ⟨gettoken_scan es, peek_scan es⟩

/-- `parseline` on the line does what it does on the line's tokens. -/
theorem parseline_scan (es k : Nat) (s : List Char) :
    parseline (tokenScanner es) k (scan es s) = (parseline (lineScanner es) k s).map (Prod.map id (scan es)) :=
  ((lineScanner_sim es).parse k).1 s

end Xv6.Sh
