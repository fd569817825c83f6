import Mathlib

/-!
# grep

The user program `grep` of `user/grep.c`: its regular-expression matcher (`match`,
`matchhere`, `matchstar`) and the loop that reads the input into a 1024-byte buffer and cuts
it into lines. A C string is modelled by the list of its bytes before the NUL.

* `Here`: what a pattern accepts at the start of a text, by cases on the pattern in the order
  of precedence that `matchhere` tests them; `matchhere_iff_here` and `match_iff_matches` say
  that the matcher decides it, on every pattern and text.
* `grep`: the read loop, with the sizes of the chunks that `read` returns as a parameter;
  `grepLoop_of_full_buffer` says what it does once a line fills the buffer.
-/

namespace Xv6.Grep

/-! ## The matcher -/

/-- `matchstar(c, re, text)`, with `here` standing for `matchhere(re, ·)`: try the rest of the
pattern after each run of characters that `c` accepts. -/
def matchstar (here : List Char → Bool) (c : Char) : List Char → Bool
  | [] => here []
  | d :: text => here (d :: text) || ((d == c || c == '.') && matchstar here c text)

/-- `matchhere(re, text)`: does `re` match at the beginning of `text`. -/
def matchhere : List Char → List Char → Bool
  | [], _ => true
  | c :: '*' :: re, text => matchstar (fun t => matchhere re t) c text
  | ['$'], text => text.isEmpty
  | c :: re, d :: text => (c == '.' || c == d) && matchhere re text
  | _ :: _, [] => false

/-- The loop of `match`: try `matchhere` at each position of the text, its end included. -/
def matchLoop (re : List Char) : List Char → Bool
  | [] => matchhere re []
  | d :: text => matchhere re (d :: text) || matchLoop re text

/-- `match(re, text)`: search for `re` in `text`, only at its start when `re` begins with
`'^'`. -/
def «match» : List Char → List Char → Bool
  | '^' :: re, text => matchhere re text
  | re, text => matchLoop re text

/-! ## What a pattern accepts -/

/-- The pattern character `c` accepts the text character `d`: `'.'` accepts any. -/
def CharMatches (c d : Char) : Prop := c = '.' ∨ c = d

instance (c d : Char) : Decidable (CharMatches c d) := inferInstanceAs (Decidable (_ ∨ _))

/-- `Here re s`: the pattern `re` accepts a prefix of `s`. The cases are those of `matchhere`
in its order: the empty pattern accepts the empty prefix; `c*` followed by `r` accepts a run
of characters that `c` accepts and then what `r` accepts; `$` alone accepts only the end of
the text; any other pattern accepts one character and then what its rest accepts. -/
inductive Here : List Char → List Char → Prop
  | empty (s : List Char) : Here [] s
  | star {c : Char} {r w s : List Char} :
      (∀ d ∈ w, CharMatches c d) → Here r s → Here (c :: '*' :: r) (w ++ s)
  | dollar : Here ['$'] []
  | char {c d : Char} {r s : List Char} :
      (∀ r', r ≠ '*' :: r') → (c = '$' → r ≠ []) → CharMatches c d → Here r s →
      Here (c :: r) (d :: s)

/-- What `match(re, text)` is meant to decide: some suffix of the text (the text itself when
the pattern begins with `'^'`) starts with a prefix that the pattern accepts. -/
def Matches : List Char → List Char → Prop
  | '^' :: re, text => Here re text
  | re, text => ∃ t, t <:+ text ∧ Here re t

theorem here_star_iff {c : Char} {r s : List Char} :
    Here (c :: '*' :: r) s ↔ ∃ w u, s = w ++ u ∧ (∀ d ∈ w, CharMatches c d) ∧ Here r u := by
  constructor
  · intro h
    cases h with
    | star hw hr => exact ⟨_, _, rfl, hw, hr⟩
    | char hr _ _ _ => exact absurd rfl (hr _)
  · rintro ⟨w, u, rfl, hw, hr⟩
    exact Here.star hw hr

theorem here_dollar_iff {s : List Char} : Here ['$'] s ↔ s = [] := by
  constructor
  · intro h
    cases h with
    | dollar => rfl
    | char _ hd _ _ => exact absurd rfl (hd rfl)
  · rintro rfl
    exact Here.dollar

theorem here_char_iff {c : Char} {r s : List Char} (hr : ∀ r', r ≠ '*' :: r')
    (hd : c = '$' → r ≠ []) :
    Here (c :: r) s ↔ ∃ d t, s = d :: t ∧ CharMatches c d ∧ Here r t := by
  constructor
  · intro h
    cases h with
    | star => exact absurd rfl (hr _)
    | dollar => exact absurd rfl (hd rfl)
    | char _ _ hc ht => exact ⟨_, _, rfl, hc, ht⟩
  · rintro ⟨d, t, rfl, hc, ht⟩
    exact Here.char hr hd hc ht

/-! ## The matcher decides it -/

theorem charMatches_iff_star {c d : Char} : (d == c || c == '.') = true ↔ CharMatches c d := by
  rw [Bool.or_eq_true, beq_iff_eq, beq_iff_eq, CharMatches]
  exact or_comm.trans (or_congr_right eq_comm)

theorem charMatches_iff_here {c d : Char} : (c == '.' || c == d) = true ↔ CharMatches c d := by
  simp [CharMatches]

/-- The loop of `matchstar` finds a run of characters that `c` accepts after which `here`
holds, whenever there is one. -/
theorem matchstar_iff {here : List Char → Bool} {c : Char} {s : List Char} :
    matchstar here c s = true ↔
      ∃ w u, s = w ++ u ∧ (∀ d ∈ w, CharMatches c d) ∧ here u = true := by
  induction s with
  | nil =>
    simp only [matchstar]
    constructor
    · intro h
      exact ⟨[], [], rfl, by simp, h⟩
    · rintro ⟨w, u, hwu, -, h⟩
      obtain ⟨rfl, rfl⟩ := List.append_eq_nil_iff.mp hwu.symm
      exact h
  | cons d s ih =>
    rw [matchstar, Bool.or_eq_true, Bool.and_eq_true, charMatches_iff_star, ih]
    constructor
    · rintro (h | ⟨hc, w, u, rfl, hw, h⟩)
      · exact ⟨[], d :: s, rfl, by simp, h⟩
      · refine ⟨d :: w, u, rfl, ?_, h⟩
        simpa using ⟨hc, hw⟩
    · rintro ⟨_ | ⟨e, w⟩, u, hwu, hw, h⟩
      · rw [List.nil_append] at hwu
        subst hwu
        exact Or.inl h
      · obtain ⟨rfl, rfl⟩ := List.cons_eq_cons.mp hwu
        exact Or.inr ⟨hw _ List.mem_cons_self, w, u, rfl,
          fun x hx => hw x (List.mem_cons_of_mem _ hx), h⟩

/-- `matchhere` decides `Here`: the induction follows the cases of `matchhere`, the star
case through `matchstar_iff`. -/
theorem matchhere_iff_here (re s : List Char) : matchhere re s = true ↔ Here re s := by
  induction re, s using matchhere.induct with
  | case1 s =>
    simp only [matchhere, true_iff]
    exact Here.empty s
  | case2 c r s ih =>
    rw [matchhere, matchstar_iff, here_star_iff]
    simp only [ih]
  | case3 s =>
    rw [matchhere, here_dollar_iff]
    simp
  | case4 c r d s hr hd ih =>
    rw [matchhere.eq_4 c r d s hr hd, here_char_iff hr hd]
    simp only [Bool.and_eq_true, charMatches_iff_here, ih]
    constructor
    · rintro ⟨hc, h⟩
      exact ⟨d, s, rfl, hc, h⟩
    · rintro ⟨e, t, h, hc, ht⟩
      obtain ⟨rfl, rfl⟩ := List.cons_eq_cons.mp h
      exact ⟨hc, ht⟩
  | case5 c r hr hd =>
    rw [matchhere.eq_5 c r hr hd, here_char_iff hr hd]
    simp

/-- The loop of `match` tries every suffix of the text, the empty one included. -/
theorem matchLoop_iff {re text : List Char} :
    matchLoop re text = true ↔ ∃ t, t <:+ text ∧ matchhere re t = true := by
  induction text with
  | nil => simp [matchLoop]
  | cons d text ih =>
    simp only [matchLoop, Bool.or_eq_true, ih, List.suffix_cons_iff]
    constructor
    · rintro (h | ⟨t, ht, h⟩)
      · exact ⟨_, Or.inl rfl, h⟩
      · exact ⟨t, Or.inr ht, h⟩
    · rintro ⟨t, rfl | ht, h⟩
      · exact Or.inl h
      · exact Or.inr ⟨t, ht, h⟩

/-- `match` decides its regular-expression language, on every pattern and every text. -/
theorem match_iff_matches (re text : List Char) : «match» re text = true ↔ Matches re text := by
  by_cases hre : ∃ r, re = '^' :: r
  · obtain ⟨r, rfl⟩ := hre
    simp only [«match», Matches]
    exact matchhere_iff_here r text
  · have hne : ∀ r, re ≠ '^' :: r := fun r h => hre ⟨r, h⟩
    rw [«match».eq_2 re text hne, Matches.eq_2 re text hne, matchLoop_iff]
    simp only [matchhere_iff_here]

example : «match» ['^', 'a', '*', '$'] ['a', 'a'] = true ∧ «match» ['b', '$'] ['b', 'a'] = false := by
  decide

/-! ## The read loop -/

/-- `sizeof(buf)` of `grep`'s buffer. -/
def BUFSIZE : Nat := 1024

/-- `strchr(s, c)` of `user/ulib.c`, as an index: the first `c` before the string's NUL. -/
def strchr (c : Char) : List Char → Option Nat
  | [] => none
  | d :: s => if d = '\x00' then none else if d = c then some 0 else (strchr c s).map (· + 1)

/-- What `grep` writes for one line: the line and its newline when the pattern matches it. -/
def lineOut (pattern line : List Char) : List Char :=
  if «match» pattern line then line ++ ['\n'] else []

/-- The inner loop of `grep`: cut the lines off the front of the buffer `p`, each at the first
newline that `strchr` finds, and write those that match; returns the bytes written and the
unfinished rest. `fuel` bounds the number of lines. -/
def grepLines (pattern : List Char) : Nat → List Char → List Char × List Char
  | 0, p => ([], p)
  | fuel + 1, p =>
    match strchr '\n' p with
    | none => ([], p)
    | some q =>
      let r := grepLines pattern fuel (p.drop (q + 1))
      (lineOut pattern (p.take q) ++ r.1, r.2)

/-- How many bytes `read(fd, buf, k)` returns when `avail` bytes of the input remain and the
next chunk of the stream, if the list names one, holds `c + 1` bytes. -/
def readCount (k avail : Nat) : List Nat → Nat
  | [] => min k avail
  | c :: _ => min k (min avail (c + 1))

/-- The read loop of `grep(pattern, fd)`: `buf` holds the `m` bytes kept from the last
iteration, `input` the bytes not read yet and `chunks` the sizes of the chunks that `read`
returns; the result is what is written to standard output. -/
def grepLoop (pattern : List Char) : Nat → List Char → List Char → List Nat → List Char
  | 0, _, _, _ => []
  | fuel + 1, buf, input, chunks =>
    -- read(fd, buf+m, sizeof(buf)-m-1)
    let n := readCount (BUFSIZE - buf.length - 1) input.length chunks
    if n = 0 then []
    else
      -- m > 0 here, so the unfinished line is moved to the front of the buffer
      let buf := buf ++ input.take n
      let r := grepLines pattern buf.length buf
      r.1 ++ grepLoop pattern fuel r.2 (input.drop n) chunks.tail

/-- `grep(pattern, fd)` on the bytes `input`, read in chunks of the sizes `chunks`. Each `read`
returns a byte at least while input remains, so one iteration per byte is enough. -/
def grep (pattern input : List Char) (chunks : List Nat) : List Char :=
  grepLoop pattern (input.length + 1) [] input chunks

theorem readCount_le {k avail : Nat} {chunks : List Nat} : readCount k avail chunks ≤ k := by
  cases chunks <;> simp only [readCount] <;> omega

theorem strchr_of_not_mem {c : Char} {p : List Char} (h : c ∉ p) : strchr c p = none := by
  induction p with
  | nil => rfl
  | cons d p ih =>
    have hdc : d ≠ c := fun hd => h (hd ▸ List.mem_cons_self)
    have hp : c ∉ p := fun hp => h (List.mem_cons_of_mem _ hp)
    simp [strchr, hdc, ih hp]

/-- A buffer without a newline holds no line: nothing is written and it is kept whole. -/
theorem grepLines_of_not_mem {pattern p : List Char} {fuel : Nat} (h : '\n' ∉ p) :
    grepLines pattern fuel p = ([], p) := by
  cases fuel with
  | zero => rfl
  | succ fuel => simp [grepLines, strchr_of_not_mem h]

/-- Once the first `BUFSIZE - 1` bytes hold no newline, `grep` never finds a line: the buffer
fills up, the next `read` asks for no byte, gets none, and the loop ends with nothing
written. The invariant is that the buffer is a prefix of those first bytes. -/
theorem grepLoop_of_full_buffer (pattern : List Char) (fuel : Nat) (buf input : List Char)
    (chunks : List Nat) (hbuf : buf.length ≤ BUFSIZE - 1)
    (hnl : '\n' ∉ (buf ++ input).take (BUFSIZE - 1)) :
    grepLoop pattern fuel buf input chunks = [] := by
  induction fuel generalizing buf input chunks with
  | zero => rfl
  | succ fuel ih =>
    simp only [grepLoop]
    set n := readCount (BUFSIZE - buf.length - 1) input.length chunks
    have hn : n ≤ BUFSIZE - 1 - buf.length := by
      have := @readCount_le (BUFSIZE - buf.length - 1) input.length chunks
      omega
    -- the bytes read so far are the first ones of the input
    have hpre : buf ++ input.take n = (buf ++ input).take (buf.length + n) := by
      simp [List.take_append]
    have hsub : (buf ++ input.take n) <+: (buf ++ input).take (BUFSIZE - 1) := by
      rw [hpre]
      exact List.take_prefix_take_left (by omega)
    by_cases h0 : n = 0
    · simp [h0]
    · have hnl' : '\n' ∉ buf ++ input.take n := fun hm => hnl (hsub.subset hm)
      rw [if_neg h0, grepLines_of_not_mem hnl', List.nil_append]
      apply ih
      · simp only [List.length_append, List.length_take]
        omega
      · rwa [List.append_assoc, List.take_append_drop]

/-- A line of `BUFSIZE - 1` bytes stops `grep`: the line `x` after it matches the pattern `x`,
and yet nothing is written, however `read` splits the input. -/
theorem grep_stops_at_full_buffer (chunks : List Nat) :
    «match» ['x'] ['x'] = true ∧
      grep ['x'] (List.replicate 1023 'a' ++ ['\n', 'x', '\n']) chunks = [] := by
  refine ⟨by decide, ?_⟩
  apply grepLoop_of_full_buffer
  · simp [BUFSIZE]
  · have hlong : (List.replicate 1023 'a').length = BUFSIZE - 1 := List.length_replicate
    rw [List.nil_append, List.take_left' hlong, List.mem_replicate]
    exact fun h => absurd h.2 (by decide)

end Xv6.Grep
