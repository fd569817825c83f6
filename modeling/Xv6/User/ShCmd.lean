import Xv6.User.ShParse
import Xv6.Lib.Buffer

/-!
# What `parsecmd` does

The words of a line: `gettoken` reads a word as a maximal run of characters that are neither
whitespace nor symbols (`scan_words`), and any other token ends in a symbol. With the parser's
grammar (`Xv6.User.ShParse`) this gives what `parsecmd` does on every buffer: it never runs out
of rounds, it returns a command exactly when the line's tokens derive a line, the command is the
derivation's, and after `nulterminate` every word of the command reads as a C string exactly as
it stands in the line.
-/

namespace Xv6.Sh

/-! ## Words -/

/-- The characters words are made of: neither whitespace nor symbols. -/
def wordChar (c : Char) : Bool := decide (c ∉ whitespace ∧ c ∉ symbols)

theorem wordChar_of_white {c : Char} (h : c ∈ whitespace) : wordChar c = false := by
  simp [wordChar, h]

theorem wordChar_of_symbol {c : Char} (h : c ∈ symbols) : wordChar c = false := by
  simp [wordChar, h]

/-- `w` stands in `line` from offset `q` to `eq` as a word: a maximal run of word characters. -/
def IsWord (ln : List Char) (q eq : Nat) (w : List Char) : Prop :=
  ∃ pre post, ln = pre ++ w ++ post ∧ q = pre.length ∧ eq = pre.length + w.length ∧ w ≠ [] ∧
    (∀ c ∈ w, wordChar c) ∧ (∀ c ∈ pre.getLast?, wordChar c = false) ∧ ∀ c ∈ post.head?, wordChar c = false

section IsWord

variable {ln w w' : List Char} {q eq q' eq' : Nat}

/-- A word's characters are the line's from its start. -/
theorem IsWord.getElem? (h : IsWord ln q eq w) {j : Nat} (hj : j < w.length) : ln[q + j]? = w[j]? := by
  obtain ⟨pre, post, rfl, rfl, -, -, -, -, -⟩ := h
  rw [List.append_assoc, List.getElem?_append_right (by omega), Nat.add_sub_cancel_left,
    List.getElem?_append_left hj]

/-- What stands at a word's end is no word character. -/
theorem IsWord.stop (h : IsWord ln q eq w) (c : Char) (hc : ln[eq]? = some c) : wordChar c = false := by
  obtain ⟨pre, post, rfl, -, rfl, -, -, -, hpost⟩ := h
  apply hpost c
  rw [List.getElem?_append_right (by simp), List.length_append, Nat.sub_self] at hc
  simpa [List.head?_eq_getElem?] using hc

theorem IsWord.le_length (h : IsWord ln q eq w) : eq ≤ ln.length := by
  obtain ⟨pre, post, rfl, -, rfl, -, -, -, -⟩ := h
  simp

theorem IsWord.length_eq (h : IsWord ln q eq w) : q + w.length = eq := by
  obtain ⟨pre, post, -, rfl, rfl, -, -, -, -⟩ := h
  rfl

/-- No word ends inside another one: its end is no word character, and a word's are. -/
theorem IsWord.end_not_mem (h : IsWord ln q eq w) (h' : IsWord ln q' eq' w') :
    ¬ (q ≤ eq' ∧ eq' < eq) := by
  rintro ⟨hlo, hhi⟩
  have hlen := h.length_eq
  have hj : eq' - q < w.length := by omega
  have hat : ln[eq']? = w[eq' - q]? := by
    rw [← h.getElem? hj, Nat.add_sub_cancel' hlo]
  obtain ⟨pre, post, -, -, -, -, hw, -, -⟩ := h
  have hc := hw _ (List.getElem_mem hj)
  rw [h'.stop _ (by rw [hat, List.getElem?_eq_getElem hj])] at hc
  cases hc

end IsWord

/-! ## `gettoken`, case by case -/

/-- What `gettoken` reads after the whitespace: the token's text `tok`, then the rest `r`. A word
is a maximal run of word characters; any other token ends in a symbol. -/
theorem gettoken_cases (es : Nat) (s : List Char) :
    ∃ tok r, s.dropWhile (· ∈ whitespace) = tok ++ r ∧
      (gettoken es s).2 = (es - (tok ++ r).length, es - r.length, r.dropWhile (· ∈ whitespace)) ∧
      ((gettoken es s).1 = '\x00' ∧ tok = [] ∧ r = [] ∨
       (gettoken es s).1 = 'a' ∧ tok ≠ [] ∧ (∀ c ∈ tok, wordChar c) ∧ (∀ c ∈ r.head?, wordChar c = false) ∨
       (gettoken es s).1 ≠ '\x00' ∧ (gettoken es s).1 ≠ 'a' ∧ ∃ c, tok.getLast? = some c ∧ wordChar c = false) := by
  unfold gettoken
  cases hd : s.dropWhile (· ∈ whitespace) with
  | nil => exact ⟨[], [], rfl, rfl, .inl ⟨rfl, rfl, rfl⟩⟩
  | cons c t =>
    have hcw : c ∉ whitespace := not_white_of_dropWhile hd
    dsimp only
    split_ifs with hsym hgt
    · -- `|()&;<`: the symbol alone
      refine ⟨[c], t, rfl, rfl, .inr (.inr ⟨?_, ?_, c, rfl, wordChar_of_symbol ?_⟩)⟩ <;>
        rcases hsym with rfl | rfl | rfl | rfl | rfl | rfl <;> simp [symbols]
    · subst hgt
      split
      · exact ⟨['>', '>'], _, rfl, rfl, .inr (.inr ⟨by simp, by simp, '>', rfl, by decide⟩)⟩
      · exact ⟨['>'], t, rfl, rfl, .inr (.inr ⟨by simp, by simp, '>', rfl, by decide⟩)⟩
    · -- a word: the run of word characters from `c`
      have hc : wordChar c = true := by
        simp only [not_or] at hsym
        simp [wordChar, hcw, symbols, hsym.1, hsym.2.1, hsym.2.2.1, hsym.2.2.2.1, hsym.2.2.2.2.1,
          hsym.2.2.2.2.2, hgt]
      refine ⟨(c :: t).takeWhile wordChar, (c :: t).dropWhile wordChar, List.takeWhile_append_dropWhile.symm,
        by rw [List.takeWhile_append_dropWhile]; rfl, .inr (.inl ⟨rfl, ?_, fun d hd => List.mem_takeWhile_imp hd, ?_⟩)⟩
      · simp [List.takeWhile_cons_of_pos hc]
      · intro d hd
        have := List.head?_dropWhile_not wordChar (c :: t)
        rw [hd] at this
        exact this

/-! ## The tokens of a line -/

theorem white_of_mem_takeWhile {s : List Char} {c : Char} (h : c ∈ s.takeWhile (· ∈ whitespace)) :
    c ∈ whitespace := by
  have hp := List.mem_takeWhile_imp h
  exact of_decide_eq_true hp

/-- Where a scan may go on, after `pre`: no word character just before it, or none at it. -/
def Sep (pre s : List Char) : Prop :=
  (∀ c ∈ pre.getLast?, wordChar c = false) ∨ ∀ c ∈ s.head?, wordChar c = false

/-- A word that starts after the whitespace follows no word character. -/
theorem Sep.word_start {pre s tok r : List Char} (hsep : Sep pre s)
    (hs : s.dropWhile (· ∈ whitespace) = tok ++ r) (htok : tok ≠ []) (hword : ∀ c ∈ tok, wordChar c) :
    ∀ c ∈ (pre ++ s.takeWhile (· ∈ whitespace)).getLast?, wordChar c = false := by
  intro c hc
  cases hsp : s.takeWhile (· ∈ whitespace) with
  | cons d ds =>
    -- whitespace was skipped: its last character comes right before the word
    have hlast : (pre ++ s.takeWhile (· ∈ whitespace)).getLast? = (s.takeWhile (· ∈ whitespace)).getLast? := by
      rw [List.getLast?_append, hsp, List.getLast?_cons, Option.some_or]
    rw [hlast] at hc
    exact wordChar_of_white (white_of_mem_takeWhile (List.mem_of_mem_getLast? hc))
  | nil =>
    rw [hsp, List.append_nil] at hc
    rcases hsep with hpre | hhead
    · exact hpre c hc
    · -- nothing was skipped, so `s` starts with the word
      have hs' : s = tok ++ r := by
        have hsplit : s.takeWhile (· ∈ whitespace) ++ s.dropWhile (· ∈ whitespace) = s :=
          List.takeWhile_append_dropWhile
        rw [hsp, hs, List.nil_append] at hsplit
        exact hsplit.symm
      obtain ⟨a, as, rfl⟩ := List.exists_cons_of_ne_nil htok
      have := hhead a (by simp [hs'])
      rw [hword a List.mem_cons_self] at this
      cases this

/-- After a token that ends in no word character, or that none follows, the scan may go on. -/
theorem Sep.after (pre tok r : List Char)
    (h : (∃ c, tok.getLast? = some c ∧ wordChar c = false) ∨ ∀ c ∈ r.head?, wordChar c = false) :
    Sep (pre ++ tok ++ r.takeWhile (· ∈ whitespace)) (r.dropWhile (· ∈ whitespace)) := by
  have hsplit : r.takeWhile (· ∈ whitespace) ++ r.dropWhile (· ∈ whitespace) = r := List.takeWhile_append_dropWhile
  cases hrw : r.takeWhile (· ∈ whitespace) with
  | cons d ds =>
    -- whitespace follows the token: the scan goes on after it
    refine .inl fun c hc => ?_
    have hmem : c ∈ d :: ds := by
      apply List.mem_of_mem_getLast?
      rw [List.getLast?_cons]
      rwa [List.getLast?_append, List.getLast?_cons, Option.some_or] at hc
    exact wordChar_of_white (white_of_mem_takeWhile (by rw [hrw]; exact hmem))
  | nil =>
    rw [hrw, List.nil_append] at hsplit
    rw [hsplit, List.append_nil]
    rcases h with ⟨c, hc, hcw⟩ | hr
    · refine .inl fun c' hc' => ?_
      rw [List.getLast?_append, hc, Option.some_or, Option.mem_some_iff] at hc'
      rw [← hc']
      exact hcw
    · exact .inr hr

/-- The line splits at a token: the whitespace before it, its text, the whitespace after it, and
where the scan goes on. -/
theorem split_at_token {s tok r : List Char} (hs : s.dropWhile (· ∈ whitespace) = tok ++ r) :
    s = s.takeWhile (· ∈ whitespace) ++ tok ++ r.takeWhile (· ∈ whitespace) ++ r.dropWhile (· ∈ whitespace) := by
  have hsplit : s.takeWhile (· ∈ whitespace) ++ s.dropWhile (· ∈ whitespace) = s := List.takeWhile_append_dropWhile
  rw [hs] at hsplit
  simpa [List.append_assoc] using hsplit.symm

/-- Every word token of a line is a maximal run of word characters of it; by induction on what
is left of the line. -/
theorem scan_words_of_length {ln : List Char} (n : Nat) :
    ∀ pre s, s.length ≤ n → ln = pre ++ s → Sep pre s →
      ∀ t ∈ scan ln.length s, t.1 = 'a' → ∃ w, IsWord ln t.2.1 t.2.2 w := by
  induction n with
  | zero =>
    intro pre s hn _ _ t ht _
    rw [List.length_eq_zero_iff.mp (Nat.le_zero.mp hn), scan_of_end rfl] at ht
    cases ht
  | succ n ih =>
    intro pre s hn hline hsep t ht ha
    obtain ⟨tok, r, hs, hg, hcase⟩ := gettoken_cases ln.length s
    have hsplit := split_at_token hs
    have hlen : s.length = (s.takeWhile (· ∈ whitespace)).length + tok.length + r.length := by
      conv_lhs => rw [hsplit]
      simp only [List.length_append]
      have := congrArg List.length (List.takeWhile_append_dropWhile : r.takeWhile (· ∈ whitespace) ++
        r.dropWhile (· ∈ whitespace) = r)
      simp only [List.length_append] at this
      omega
    have hrest : ln = pre ++ s.takeWhile (· ∈ whitespace) ++ tok ++ r.takeWhile (· ∈ whitespace) ++
        r.dropWhile (· ∈ whitespace) := by
      rw [hline]
      conv_lhs => rw [hsplit]
      simp only [List.append_assoc]
    have hshorter : (r.dropWhile (· ∈ whitespace)).length ≤ n := by
      have : (r.dropWhile (· ∈ whitespace)).length ≤ r.length := (List.dropWhile_suffix _).length_le
      have htok : tok ≠ [] := by
        rcases hcase with ⟨h0, -, -⟩ | ⟨-, htok, -⟩ | ⟨-, -, c, hc, -⟩
        · rw [scan, dif_pos h0] at ht
          cases ht
        · exact htok
        · rintro rfl
          cases hc
      have := List.length_pos_of_ne_nil htok
      omega
    rw [scan] at ht
    rcases hcase with ⟨h0, -, -⟩ | ⟨hA, htok, hword, hr⟩ | ⟨h0, hA, hlast⟩
    · rw [dif_pos h0] at ht
      cases ht
    · rw [dif_neg (by rw [hA]; decide), hg] at ht
      rcases List.mem_cons.mp ht with rfl | ht
      · -- the word just read
        refine ⟨tok, pre ++ s.takeWhile (· ∈ whitespace), r, ?_, ?_, ?_, htok, hword,
          hsep.word_start hs htok hword, hr⟩
        · rw [hline]
          conv_lhs => rw [hsplit]
          simp only [List.append_assoc, List.takeWhile_append_dropWhile]
        · simp only [hline, List.length_append] at hlen ⊢
          omega
        · simp only [hline, List.length_append] at hlen ⊢
          omega
      · exact ih _ _ hshorter hrest (.after _ tok r (.inr hr)) t ht ha
    · rw [dif_neg h0, hg] at ht
      rcases List.mem_cons.mp ht with rfl | ht
      · exact absurd ha hA
      · exact ih _ _ hshorter hrest (.after _ tok r (.inl hlast)) t ht ha

theorem scan_words {ln : List Char} {t : Tok} (ht : t ∈ scan ln.length ln) (ha : t.1 = 'a') :
    ∃ w, IsWord ln t.2.1 t.2.2 w :=
  scan_words_of_length ln.length [] ln le_rfl rfl (.inl (by simp)) t ht ha

/-- Every token takes at least a character of the line. -/
theorem scan_length_le (es : Nat) (s : List Char) : (scan es s).length ≤ s.length := by
  fun_induction scan es s with
  | case1 s h => simp
  | case2 s h ih =>
    have := gettoken_length h
    simp only [List.length_cons]
    omega

theorem scan_noEnd (es : Nat) (s : List Char) : NoEnd (scan es s) := by
  fun_induction scan es s with
  | case1 => exact fun t ht => nomatch ht
  | case2 s h ih =>
    intro t ht
    rcases List.mem_cons.mp ht with rfl | ht
    · exact h
    · exact ih t ht

theorem scan_eq_nil_iff (es : Nat) (s : List Char) : scan es s = [] ↔ s.dropWhile (· ∈ whitespace) = [] := by
  refine ⟨fun h => ?_, scan_of_end⟩
  by_contra hne
  rw [scan, dif_neg (mt (gettoken_eq_zero_iff es s).mp hne)] at h
  cases h

/-! ## The words of a command -/

/-- The words of a command: those of every `execcmd`, and the file of every redirection. -/
def Cmd.words : Cmd → List (Nat × Nat)
  | .exec argv => argv
  | .redir cmd r => cmd.words ++ [(r.file, r.efile)]
  | .pipe l r => l.words ++ r.words
  | .list l r => l.words ++ r.words
  | .back cmd => cmd.words

/-- `nulterminate` puts a `0` at the end of every word of the command. -/
theorem nulterminate_eq (cmd : Cmd) (buf : List Char) :
    nulterminate cmd buf = cmd.words.foldl (fun b w => b.set w.2 '\x00') buf := by
  induction cmd generalizing buf with
  | exec argv => rfl
  | redir cmd r ih => simp [nulterminate, Cmd.words, ih]
  | pipe l r ihl ihr => simp [nulterminate, Cmd.words, ihl, ihr]
  | list l r ihl ihr => simp [nulterminate, Cmd.words, ihl, ihr]
  | back cmd ih => exact ih buf

theorem words_wrap (cmd : Cmd) (rs : List Redir) :
    (wrap cmd rs).words = cmd.words ++ rs.map fun r => (r.file, r.efile) := by
  induction rs generalizing cmd with
  | nil => simp [wrap]
  | cons r rs ih =>
    simp only [wrap, List.foldl_cons] at ih ⊢
    rw [ih]
    simp [Cmd.words]

theorem words_back_iterate (n : Nat) (cmd : Cmd) : (Cmd.back^[n] cmd).words = cmd.words := by
  induction n generalizing cmd with
  | zero => rfl
  | succ n ih => rw [Function.iterate_succ_apply', Cmd.words, ih]

theorem redirOf_file {op : Char} {q eq : Nat} {r : Redir} (h : redirOf op q eq = some r) :
    r.file = q ∧ r.efile = eq := by
  unfold redirOf at h
  split_ifs at h <;> cases h <;> exact ⟨rfl, rfl⟩

/-- A word of a derivation is a word token of its line. -/
def WordToks (ws : List (Nat × Nat)) (ts : List Tok) : Prop := ∀ w ∈ ws, ('a', w.1, w.2) ∈ ts

theorem WordToks.append {ws ws' : List (Nat × Nat)} {ts ts' : List Tok} (h : WordToks ws ts)
    (h' : WordToks ws' ts') : WordToks (ws ++ ws') (ts ++ ts') := by
  intro w hw
  rcases List.mem_append.mp hw with hw | hw
  · exact List.mem_append_left _ (h w hw)
  · exact List.mem_append_right _ (h' w hw)

theorem WordToks.mono {ws : List (Nat × Nat)} {ts ts' : List Tok} (h : WordToks ws ts) (hsub : ts ⊆ ts') :
    WordToks ws ts' :=
  fun w hw => hsub (h w hw)

theorem Redirs.wordToks {ts : List Tok} {rs : List Redir} (h : Redirs ts rs) :
    WordToks (rs.map fun r => (r.file, r.efile)) ts := by
  induction h with
  | nil => exact fun _ hw => nomatch hw
  | @cons op w ts r rs hr hw _ ih =>
    intro x hx
    rw [List.map_cons] at hx
    rcases List.mem_cons.mp hx with rfl | hx
    · obtain ⟨hfile, hefile⟩ := redirOf_file hr
      simp only [hfile, hefile]
      rw [← hw]
      exact List.mem_cons_of_mem _ List.mem_cons_self
    · exact List.mem_cons_of_mem _ (List.mem_cons_of_mem _ (ih x hx))

theorem Args.wordToks {ts : List Tok} {ws : List (Nat × Nat)} {rs : List Redir} (h : Args ts ws rs) :
    WordToks ws ts ∧ WordToks (rs.map fun r => (r.file, r.efile)) ts := by
  induction h with
  | nil => exact ⟨fun _ hw => (nomatch hw), fun _ hw => (nomatch hw)⟩
  | @cons w ts₁ ts₂ rs₁ rs₂ ws hw hrs _ ih =>
    refine ⟨fun x hx => ?_, ?_⟩
    · rcases List.mem_cons.mp hx with rfl | hx
      · rw [← hw]
        exact List.mem_cons_self
      · exact List.mem_cons_of_mem _ (List.mem_append_right _ (ih.1 x hx))
    · rw [List.map_append]
      exact (hrs.wordToks.append ih.2).mono (List.subset_cons_self _ _)

mutual

theorem Line.wordToks : {ts : List Tok} → {c : Cmd} → Line ts c → WordToks c.words ts
  | _, _, .pipe hp _ => by
    rw [words_back_iterate]
    exact hp.wordToks.mono (List.subset_append_left _ _)
  | _, _, .list hp _ _ hl => by
    rw [Cmd.words, words_back_iterate]
    exact (hp.wordToks.mono (List.subset_append_left _ _)).append hl.wordToks |>.mono
      (by intro t ht; simp only [List.mem_append, List.mem_cons] at ht ⊢; tauto)

theorem Pipe.wordToks : {ts : List Tok} → {c : Cmd} → Pipe ts c → WordToks c.words ts
  | _, _, .exec he => he.wordToks
  | _, _, .pipe he _ hp =>
    (he.wordToks.append hp.wordToks).mono
      (by intro t ht; simp only [List.mem_append, List.mem_cons] at ht ⊢; tauto)

theorem Exec.wordToks : {ts : List Tok} → {c : Cmd} → Exec ts c → WordToks c.words ts
  | _, _, .block _ hl _ hrs => by
    rw [words_wrap]
    exact (hl.wordToks.append hrs.wordToks).mono
      (by intro t ht; simp only [List.mem_append, List.mem_cons] at ht ⊢; tauto)
  | _, _, .simple hrs hargs _ => by
    rw [words_wrap, Cmd.words, List.map_append]
    exact ((hargs.wordToks.1.mono (List.subset_append_right _ _)).append
      (hrs.wordToks.append hargs.wordToks.2)) |>.mono
      (by intro t ht; simp only [List.mem_append] at ht ⊢; tauto)

end

/-! ## After `nulterminate` -/

/-- The line `parsecmd` reads: the buffer up to its first `0`. -/
def lineOf (buf : List Char) : List Char := buf.takeWhile (· ≠ '\x00')

theorem lineOf_prefix (buf : List Char) {i : Nat} (hi : i < (lineOf buf).length) :
    buf[i]? = (lineOf buf)[i]? := by
  rw [List.getElem?_eq_getElem hi]
  exact List.prefix_iff_getElem?.mp (List.takeWhile_prefix _) i hi

theorem ne_zero_of_mem_lineOf {buf : List Char} {c : Char} (h : c ∈ lineOf buf) : c ≠ '\x00' := by
  have hp := List.mem_takeWhile_imp h
  exact of_decide_eq_true hp

/-- After `nulterminate`, a word of the command reads as a C string exactly as it stands in the
line, when all the command's words are words of the line: no other word ends inside it, and its
own end is cut. -/
theorem cstr_nulterminate {buf : List Char} {cmd : Cmd}
    (hwords : ∀ w ∈ cmd.words, ∃ word, IsWord (lineOf buf) w.1 w.2 word)
    {w : Nat × Nat} (hw : w ∈ cmd.words) {word : List Char} (hword : IsWord (lineOf buf) w.1 w.2 word) :
    cstr (nulterminate cmd buf) w.1 = word := by
  have hlen := hword.length_eq
  rw [cstr, nulterminate_eq]
  apply List.takeWhile_drop_eq
  · intro j hj
    rw [List.getElem?_foldl_set, if_neg ?_]
    · -- the buffer holds the line there
      have hlt : w.1 + j < (lineOf buf).length := by
        have := hword.le_length
        omega
      rw [← hword.getElem? hj]
      exact lineOf_prefix buf hlt
    · -- no word ends inside this one
      intro hmem
      obtain ⟨w', hw', hend⟩ := List.mem_map.mp hmem
      obtain ⟨word', hword'⟩ := hwords w' hw'
      exact hword.end_not_mem hword' ⟨by omega, by omega⟩
  · intro a ha
    obtain ⟨pre, post, hl, -⟩ := hword
    have hmem : a ∈ lineOf buf := by
      rw [hl]
      simp [ha]
    simpa using ne_zero_of_mem_lineOf hmem
  · -- its own end holds a `0`, or the buffer ends there
    intro a ha
    rw [hlen, List.getElem?_foldl_set, if_pos (List.mem_map_of_mem hw)] at ha
    obtain ⟨b, -, rfl⟩ := Option.map_eq_some_iff.mp ha
    simp

/-! ## `parsecmd` -/

section Parsecmd

variable (buf : List Char)

/-- The tokens `parsecmd` reads. -/
def tokensOf : List Tok := scan (lineOf buf).length (lineOf buf)

theorem parseFuel_ge : 4 * (tokensOf buf).length + 4 ≤ parseFuel (lineOf buf) := by
  have := scan_length_le (lineOf buf).length (lineOf buf)
  unfold parseFuel tokensOf
  omega

/-- The parse of the line, on its tokens. -/
theorem parseline_tokensOf :
    parseline (tokenScanner (lineOf buf).length) (parseFuel (lineOf buf)) (tokensOf buf) =
      (parseline (lineScanner (lineOf buf).length) (parseFuel (lineOf buf)) (lineOf buf)).map
        (Prod.map id (scan (lineOf buf).length)) :=
  parseline_scan _ _ _

/-- What is left after the line is whitespace exactly when no token is left. -/
theorem peek_left_eq_nil_iff (es : Nat) (ps : List Char) : (peek ps []).2 = [] ↔ scan es ps = [] :=
  (scan_eq_nil_iff es ps).symm

theorem parsecmd_eq : parsecmd buf =
    parseline (lineScanner (lineOf buf).length) (parseFuel (lineOf buf)) (lineOf buf) >>= fun r =>
      if (peek r.2 []).2 ≠ [] then .error "syntax" else pure (r.1, nulterminate r.1 buf) := rfl

theorem parsecmd_of_error {e : String}
    (h : parseline (lineScanner (lineOf buf).length) (parseFuel (lineOf buf)) (lineOf buf) = .error e) :
    parsecmd buf = .error e := by
  rw [parsecmd_eq, h]
  rfl

theorem parsecmd_of_ok {cmd : Cmd} {ps : List Char}
    (h : parseline (lineScanner (lineOf buf).length) (parseFuel (lineOf buf)) (lineOf buf) = .ok (cmd, ps)) :
    parsecmd buf = if (peek ps []).2 ≠ [] then .error "syntax" else .ok (cmd, nulterminate cmd buf) := by
  rw [parsecmd_eq, h]
  rfl

/-- `parsecmd` never runs out of rounds: it returns, or stops with one of its own errors. -/
theorem parsecmd_ne_fuel : parsecmd buf ≠ .error "fuel" := by
  have hfits := (@parse_fits (lineOf buf).length (parseFuel (lineOf buf))).1 _ (parseFuel_ge buf)
  cases hp : parseline (lineScanner (lineOf buf).length) (parseFuel (lineOf buf)) (lineOf buf) with
  | error e =>
    rw [parsecmd_of_error buf hp]
    rw [parseline_tokensOf, hp] at hfits
    simpa [Except.map] using hfits.1
  | ok r =>
    obtain ⟨cmd, ps⟩ := r
    rw [parsecmd_of_ok buf hp]
    split_ifs <;> simp

theorem parsecmd_sound {cmd : Cmd} {buf' : List Char} (h : parsecmd buf = .ok (cmd, buf')) :
    Line (tokensOf buf) cmd ∧ buf' = nulterminate cmd buf := by
  cases hp : parseline (lineScanner (lineOf buf).length) (parseFuel (lineOf buf)) (lineOf buf) with
  | error e =>
    rw [parsecmd_of_error buf hp] at h
    cases h
  | ok r =>
    obtain ⟨cmd', ps⟩ := r
    rw [parsecmd_of_ok buf hp] at h
    split_ifs at h with hleft
    cases h
    -- nothing but whitespace is left, so the parse took every token
    have hscan : scan (lineOf buf).length ps = [] := (peek_left_eq_nil_iff _ ps).mp (not_not.mp hleft)
    have htok := parseline_tokensOf buf
    rw [hp] at htok
    simp only [Except.map, Prod.map, id, hscan] at htok
    obtain ⟨pre, hpre, hline⟩ := (parse_sound _).1 htok (scan_noEnd _ _)
    rw [List.append_nil] at hpre
    exact ⟨hpre ▸ hline, rfl⟩

theorem parsecmd_complete {cmd : Cmd} (h : Line (tokensOf buf) cmd) :
    parsecmd buf = .ok (cmd, nulterminate cmd buf) := by
  have hparse := @Line.parses (lineOf buf).length _ _ h _ [] (parseFuel_ge buf) (.inl rfl)
  rw [List.append_nil, parseline_tokensOf] at hparse
  cases hp : parseline (lineScanner (lineOf buf).length) (parseFuel (lineOf buf)) (lineOf buf) with
  | error e =>
    rw [hp] at hparse
    cases hparse
  | ok r =>
    obtain ⟨cmd', ps⟩ := r
    rw [hp] at hparse
    simp only [Except.map, Prod.map, id, Except.ok.injEq, Prod.mk.injEq] at hparse
    obtain ⟨rfl, hscan⟩ := hparse
    rw [parsecmd_of_ok buf hp, if_neg (not_not.mpr ((peek_left_eq_nil_iff _ ps).mpr hscan))]

/-- `parsecmd` on any buffer: it never runs out of rounds; it returns a command exactly when the
tokens of its line derive a line, and then the derivation's command; and after `nulterminate`
every word of the command reads, as a C string, as the maximal run of word characters that
stands in the line at its offsets. -/
theorem parsecmd_grammar :
    parsecmd buf ≠ .error "fuel" ∧
    (∀ cmd, (∃ buf', parsecmd buf = .ok (cmd, buf')) ↔ Line (tokensOf buf) cmd) ∧
    ∀ cmd buf', parsecmd buf = .ok (cmd, buf') →
      buf' = nulterminate cmd buf ∧ ∀ w ∈ cmd.words, IsWord (lineOf buf) w.1 w.2 (cstr buf' w.1) := by
  refine ⟨parsecmd_ne_fuel buf, fun cmd => ⟨?_, ?_⟩, ?_⟩
  · rintro ⟨buf', h⟩
    exact (parsecmd_sound buf h).1
  · intro h
    exact ⟨_, parsecmd_complete buf h⟩
  · intro cmd buf' h
    obtain ⟨hline, rfl⟩ := parsecmd_sound buf h
    -- every word of the command is a word token, so a maximal run of word characters
    have hwords : ∀ w ∈ cmd.words, ∃ word, IsWord (lineOf buf) w.1 w.2 word :=
      fun w hw => scan_words (hline.wordToks w hw) rfl
    refine ⟨rfl, fun w hw => ?_⟩
    obtain ⟨word, hword⟩ := hwords w hw
    rw [cstr_nulterminate hwords hw hword]
    exact hword

end Parsecmd

end Xv6.Sh
