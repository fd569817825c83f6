import Xv6.User.ShGrammar
import Xv6.Lib.Fallible

/-!
# The shell's grammar, and what `parsecmd` accepts

The grammar of command lines over their tokens, with the command tree each derivation stands
for:

    line   := pipe {'&'} [';' line]
    pipe   := exec ['|' pipe]
    exec   := '(' line ')' redirs  |  redirs {word redirs}     (fewer than MAXARGS words)
    redirs := {('<' | '>' | '>>') word}

`;` and `|` nest to the right, each `&` sends the pipeline before it to the background, and an
`exec` is wrapped in its redirections in order. The parser run on a list of tokens derives what
it consumes (`parse_sound`), and parses every derivation followed by a token it may stop at
(`Line.parses`); it never runs out of rounds (`parse_fits`). Over the line's tokens, `scan`,
that is what `parsecmd` does (`parsecmd_sound` and `parsecmd_complete` in `Xv6.User.ShCmd`).
-/

namespace Xv6.Sh

/-! ## Reading tokens off a list -/

section TokenScanner

variable {es : Nat}

@[simp] theorem tokenScanner_gettoken_nil : (tokenScanner es).gettoken [] = ('\x00', es, es, []) := rfl

@[simp] theorem tokenScanner_gettoken_cons (t : Tok) (ts : List Tok) :
    (tokenScanner es).gettoken (t :: ts) = (t.1, t.2.1, t.2.2, ts) := rfl

@[simp] theorem tokenScanner_peek_nil (toks : List Char) : (tokenScanner es).peek [] toks = (false, []) := rfl

@[simp] theorem tokenScanner_peek_cons (t : Tok) (ts : List Tok) (toks : List Char) :
    (tokenScanner es).peek (t :: ts) toks = (decide (lead t ∈ toks), t :: ts) := rfl

/-- Whether the next token is one of `toks`, as `peek` sees it. -/
def nextIn (toks : List Char) : List Tok → Bool
  | [] => false
  | t :: _ => decide (lead t ∈ toks)

theorem tokenScanner_peek (ts : List Tok) (toks : List Char) :
    (tokenScanner es).peek ts toks = (nextIn toks ts, ts) := by
  cases ts <;> rfl

theorem nextIn_eq_true {toks : List Char} {ts : List Tok} :
    nextIn toks ts = true ↔ ∃ t ts', ts = t :: ts' ∧ lead t ∈ toks := by
  cases ts <;> simp [nextIn]

/-- `lead` changes only the code of `>>`. -/
theorem eq_of_lead_mem {t : Tok} {c : Char} (h : lead t ∈ [c]) (hc : c ≠ '>') : t.1 = c := by
  unfold lead at h
  split_ifs at h
  · exact absurd (List.mem_singleton.mp h).symm hc
  · exact List.mem_singleton.mp h

end TokenScanner

/-! ## The grammar -/

/-- `redirs := {('<' | '>' | '>>') word}`: the tokens of redirections and the redirections, the
first one first. -/
inductive Redirs : List Tok → List Redir → Prop
  | nil : Redirs [] []
  | cons {op w : Tok} {ts : List Tok} {r : Redir} {rs : List Redir} :
      redirOf op.1 w.2.1 w.2.2 = some r → w.1 = 'a' → Redirs ts rs → Redirs (op :: w :: ts) (r :: rs)

/-- `{word redirs}`: words, each followed by redirections. -/
inductive Args : List Tok → List (Nat × Nat) → List Redir → Prop
  | nil : Args [] [] []
  | cons {w : Tok} {ts₁ ts₂ : List Tok} {rs₁ rs₂ : List Redir} {ws : List (Nat × Nat)} :
      w.1 = 'a' → Redirs ts₁ rs₁ → Args ts₂ ws rs₂ → Args (w :: (ts₁ ++ ts₂)) ((w.2.1, w.2.2) :: ws) (rs₁ ++ rs₂)

mutual

/-- `line := pipe {'&'} [';' line]`. -/
inductive Line : List Tok → Cmd → Prop
  | pipe {ts as : List Tok} {c : Cmd} :
      Pipe ts c → (∀ t ∈ as, t.1 = '&') → Line (ts ++ as) (Cmd.back^[as.length] c)
  | list {ts as ts' : List Tok} {semi : Tok} {c c' : Cmd} :
      Pipe ts c → (∀ t ∈ as, t.1 = '&') → semi.1 = ';' → Line ts' c' →
      Line (ts ++ as ++ semi :: ts') (.list (Cmd.back^[as.length] c) c')

/-- `pipe := exec ['|' pipe]`. -/
inductive Pipe : List Tok → Cmd → Prop
  | exec {ts : List Tok} {c : Cmd} : Exec ts c → Pipe ts c
  | pipe {ts ts' : List Tok} {bar : Tok} {c c' : Cmd} :
      Exec ts c → bar.1 = '|' → Pipe ts' c' → Pipe (ts ++ bar :: ts') (.pipe c c')

/-- `exec := '(' line ')' redirs | redirs {word redirs}`, with fewer than `MAXARGS` words. -/
inductive Exec : List Tok → Cmd → Prop
  | block {op cl : Tok} {ts ts' : List Tok} {c : Cmd} {rs : List Redir} :
      op.1 = '(' → Line ts c → cl.1 = ')' → Redirs ts' rs → Exec (op :: (ts ++ cl :: ts')) (wrap c rs)
  | simple {ts ts' : List Tok} {rs rs' : List Redir} {ws : List (Nat × Nat)} :
      Redirs ts rs → Args ts' ws rs' → ws.length < MAXARGS → Exec (ts ++ ts') (wrap (.exec ws) (rs ++ rs'))

end

/-! ## What the parser consumes derives from the grammar -/

section Sound

variable {es : Nat}

/-- No token is the end's `0`: as in the tokens `scan` reads. -/
def NoEnd (ts : List Tok) : Prop := ∀ t ∈ ts, t.1 ≠ '\x00'

theorem NoEnd.of_suffix {ts ts' : List Tok} (h : NoEnd ts) (hs : ts' <:+ ts) : NoEnd ts' :=
  fun t ht => h t (hs.subset ht)

theorem NoEnd.tail {t : Tok} {ts : List Tok} (h : NoEnd (t :: ts)) : NoEnd ts :=
  h.of_suffix (List.suffix_cons t ts)

/-- `peek` sees `<` or `>` exactly at a redirection's operator. -/
theorem redirOf_isSome {t : Tok} (h : lead t ∈ ['<', '>']) (q e : Nat) : ∃ r, redirOf t.1 q e = some r := by
  unfold lead at h
  unfold redirOf
  split_ifs at h ⊢ <;> simp_all

theorem parseredirs_sound {k : Nat} {ts rest : List Tok} {rs : List Redir}
    (h : parseredirs (tokenScanner es) k ts = .ok (rs, rest)) : ∃ pre, ts = pre ++ rest ∧ Redirs pre rs := by
  induction k generalizing ts rs with
  | zero => cases h
  | succ k ih =>
    cases ts with
    | nil =>
      simp only [parseredirs, tokenScanner_peek_nil, Bool.false_eq_true, if_false, Except.ok.injEq,
        Prod.mk.injEq] at h
      obtain ⟨rfl, rfl⟩ := h
      exact ⟨[], rfl, .nil⟩
    | cons op ts =>
      by_cases hop : lead op ∈ ['<', '>']
      · -- an operator, and the file word after it
        cases ts with
        | nil => simp [parseredirs, hop] at h
        | cons w ts =>
          by_cases hw : w.1 = 'a'
          · simp only [parseredirs, tokenScanner_peek_cons, hop, decide_true, if_true,
              tokenScanner_gettoken_cons, hw, ne_eq, not_true_eq_false, if_false, Except.bind_eq_ok,
              Except.pure_eq_ok, Prod.mk.injEq] at h
            obtain ⟨⟨rs', rest'⟩, hrec, rfl, rfl⟩ := h
            obtain ⟨pre, rfl, hpre⟩ := ih hrec
            obtain ⟨r, hr⟩ := redirOf_isSome hop w.2.1 w.2.2
            refine ⟨op :: w :: pre, rfl, ?_⟩
            rw [hr, Option.toList_some, List.singleton_append]
            exact .cons hr hw hpre
          · simp [parseredirs, hop, hw] at h
      · simp only [parseredirs, tokenScanner_peek_cons, hop, decide_false, Bool.false_eq_true, if_false,
          Except.ok.injEq, Prod.mk.injEq] at h
        obtain ⟨rfl, rfl⟩ := h
        exact ⟨[], rfl, .nil⟩

theorem parseback_sound {k : Nat} {cmd c : Cmd} {ts rest : List Tok}
    (h : parseback (tokenScanner es) k cmd ts = .ok (c, rest)) :
    ∃ as, ts = as ++ rest ∧ (∀ t ∈ as, t.1 = '&') ∧ c = Cmd.back^[as.length] cmd := by
  induction k generalizing cmd ts with
  | zero => cases h
  | succ k ih =>
    cases ts with
    | nil =>
      simp only [parseback, tokenScanner_peek_nil, Bool.false_eq_true, if_false, Except.ok.injEq,
        Prod.mk.injEq] at h
      obtain ⟨rfl, rfl⟩ := h
      exact ⟨[], rfl, by simp, rfl⟩
    | cons t ts =>
      by_cases ht : lead t ∈ ['&']
      · simp only [parseback, tokenScanner_peek_cons, ht, decide_true, if_true, tokenScanner_gettoken_cons] at h
        obtain ⟨as, rfl, has, rfl⟩ := ih h
        have ht' : t.1 = '&' := eq_of_lead_mem ht (by decide)
        exact ⟨t :: as, rfl, by simpa [ht'] using has, by rw [List.length_cons, Function.iterate_succ_apply]⟩
      · simp only [parseback, tokenScanner_peek_cons, ht, decide_false, Bool.false_eq_true, if_false,
          Except.ok.injEq, Prod.mk.injEq] at h
        obtain ⟨rfl, rfl⟩ := h
        exact ⟨[], rfl, by simp, rfl⟩

theorem parseargs_sound {k : Nat} {argv argv' : List (Nat × Nat)} {rs rs' : List Redir} {ts rest : List Tok}
    (h : parseargs (tokenScanner es) k argv rs ts = .ok (argv', rs', rest)) (hz : NoEnd ts)
    (hargv : argv.length < MAXARGS) :
    ∃ pre ws rs'', ts = pre ++ rest ∧ Args pre ws rs'' ∧ argv' = argv ++ ws ∧ rs' = rs ++ rs'' ∧
      argv'.length < MAXARGS := by
  induction k generalizing argv rs ts with
  | zero => cases h
  | succ k ih =>
    cases ts with
    | nil =>
      -- the end of the line stops the words
      simp only [parseargs, tokenScanner_peek_nil, Bool.false_eq_true, if_false, tokenScanner_gettoken_nil,
        if_true, Except.ok.injEq, Prod.mk.injEq] at h
      obtain ⟨rfl, rfl, rfl⟩ := h
      exact ⟨[], [], [], rfl, .nil, by simp, by simp, hargv⟩
    | cons w ts =>
      by_cases hstop : lead w ∈ ['|', ')', '&', ';']
      · simp only [parseargs, tokenScanner_peek_cons, hstop, decide_true, if_true, Except.ok.injEq,
          Prod.mk.injEq] at h
        obtain ⟨rfl, rfl, rfl⟩ := h
        exact ⟨[], [], [], rfl, .nil, by simp, by simp, hargv⟩
      · have hw0 : w.1 ≠ '\x00' := hz w List.mem_cons_self
        by_cases hw : w.1 = 'a'
        · by_cases hmax : MAXARGS ≤ argv.length + 1
          · simp [parseargs, hstop, hw, hmax] at h
          · simp only [parseargs, tokenScanner_peek_cons, hstop, decide_false, Bool.false_eq_true, if_false,
              tokenScanner_gettoken_cons, hw0] at h
            simp only [hw, ne_eq, not_true_eq_false, if_false, hmax, Except.bind_eq_ok] at h
            obtain ⟨⟨rs₁, ts₁⟩, h₁, h₂⟩ := h
            obtain ⟨pre₁, rfl, hpre₁⟩ := parseredirs_sound h₁
            have hz₁ : NoEnd ts₁ := hz.tail.of_suffix (List.suffix_append pre₁ ts₁)
            obtain ⟨pre₂, ws, rs₂, rfl, hpre₂, rfl, rfl, hlen⟩ := ih h₂ hz₁ (by simp; omega)
            exact ⟨w :: (pre₁ ++ pre₂), (w.2.1, w.2.2) :: ws, rs₁ ++ rs₂, by simp, .cons hw hpre₁ hpre₂,
              by simp, by simp, hlen⟩
        · simp [parseargs, hstop, hw, hw0] at h

/-- What `parseline`, `parsepipe`, `parseexec` and `parseblock` consume derives a line, a
pipeline, a command and a command; by induction on the rounds, for the four at once. -/
theorem parse_sound (k : Nat) :
    (∀ {ts c rest}, parseline (tokenScanner es) k ts = .ok (c, rest) → NoEnd ts →
      ∃ pre, ts = pre ++ rest ∧ Line pre c) ∧
    (∀ {ts c rest}, parsepipe (tokenScanner es) k ts = .ok (c, rest) → NoEnd ts →
      ∃ pre, ts = pre ++ rest ∧ Pipe pre c) ∧
    (∀ {ts c rest}, parseexec (tokenScanner es) k ts = .ok (c, rest) → NoEnd ts →
      ∃ pre, ts = pre ++ rest ∧ Exec pre c) ∧
    (∀ {ts c rest}, parseblock (tokenScanner es) k ts = .ok (c, rest) → NoEnd ts →
      ∃ pre, ts = pre ++ rest ∧ Exec pre c) := by
  induction k with
  | zero => refine ⟨?_, ?_, ?_, ?_⟩ <;> intro _ _ _ h <;> cases h
  | succ k ih =>
    obtain ⟨hline, hpipe, hexec, hblock⟩ := ih
    refine ⟨?_, ?_, ?_, ?_⟩
    · -- parseline: a pipeline, its `&`s, and a line after a `;`
      intro ts c rest h hz
      simp only [parseline, Except.bind_eq_ok] at h
      obtain ⟨⟨c₁, ts₁⟩, h₁, ⟨c₂, ts₂⟩, h₂, h⟩ := h
      obtain ⟨pre₁, rfl, hpre₁⟩ := hpipe h₁ hz
      obtain ⟨as, rfl, has, rfl⟩ := parseback_sound h₂
      cases hsemi : nextIn [';'] ts₂ with
      | false =>
        simp only [tokenScanner_peek, hsemi, Bool.false_eq_true, if_false, Except.pure_eq_ok,
          Prod.mk.injEq] at h
        obtain ⟨rfl, rfl⟩ := h
        exact ⟨pre₁ ++ as, by simp, .pipe hpre₁ has⟩
      | true =>
        obtain ⟨semi, ts₃, rfl, hs⟩ := nextIn_eq_true.mp hsemi
        simp only [tokenScanner_peek, hsemi, if_true, tokenScanner_gettoken_cons, Except.bind_eq_ok,
          Except.pure_eq_ok, Prod.mk.injEq] at h
        obtain ⟨⟨c₃, rest'⟩, h₃, rfl, rfl⟩ := h
        have hz₃ : NoEnd ts₃ := fun t ht => hz t (by simp [ht])
        obtain ⟨pre₃, rfl, hpre₃⟩ := hline h₃ hz₃
        exact ⟨pre₁ ++ as ++ semi :: pre₃, by simp,
          .list hpre₁ has (eq_of_lead_mem hs (by decide)) hpre₃⟩
    · -- parsepipe: a command, and a pipeline after a `|`
      intro ts c rest h hz
      simp only [parsepipe, Except.bind_eq_ok] at h
      obtain ⟨⟨c₁, ts₁⟩, h₁, h⟩ := h
      obtain ⟨pre₁, rfl, hpre₁⟩ := hexec h₁ hz
      cases hbar : nextIn ['|'] ts₁ with
      | false =>
        simp only [tokenScanner_peek, hbar, Bool.false_eq_true, if_false, Except.pure_eq_ok,
          Prod.mk.injEq] at h
        obtain ⟨rfl, rfl⟩ := h
        exact ⟨pre₁, by simp, .exec hpre₁⟩
      | true =>
        obtain ⟨bar, ts₂, rfl, hb⟩ := nextIn_eq_true.mp hbar
        simp only [tokenScanner_peek, hbar, if_true, tokenScanner_gettoken_cons, Except.bind_eq_ok,
          Except.pure_eq_ok, Prod.mk.injEq] at h
        obtain ⟨⟨c₂, rest'⟩, h₂, rfl, rfl⟩ := h
        have hz₂ : NoEnd ts₂ := fun t ht => hz t (by simp [ht])
        obtain ⟨pre₂, rfl, hpre₂⟩ := hpipe h₂ hz₂
        exact ⟨pre₁ ++ bar :: pre₂, by simp, .pipe hpre₁ (eq_of_lead_mem hb (by decide)) hpre₂⟩
    · -- parseexec: a block at a `(`, else redirections and words
      intro ts c rest h hz
      cases hparen : nextIn ['('] ts with
      | true =>
        simp only [parseexec, tokenScanner_peek, hparen, if_true] at h
        exact hblock h hz
      | false =>
        simp only [parseexec, tokenScanner_peek, hparen, Bool.false_eq_true, if_false, Except.bind_eq_ok,
          Except.pure_eq_ok, Prod.mk.injEq] at h
        obtain ⟨⟨rs, ts₁⟩, h₁, ⟨argv, rs', rest'⟩, h₂, rfl, rfl⟩ := h
        obtain ⟨pre₁, rfl, hpre₁⟩ := parseredirs_sound h₁
        obtain ⟨pre₂, ws, rs'', rfl, hpre₂, rfl, rfl, hlen⟩ :=
          parseargs_sound h₂ (hz.of_suffix (by simp)) (by decide)
        exact ⟨pre₁ ++ pre₂, by simp, .simple hpre₁ hpre₂ (by simpa using hlen)⟩
    · -- parseblock: `(`, a line, `)` and redirections
      intro ts c rest h hz
      cases hparen : nextIn ['('] ts with
      | false => simp [parseblock, tokenScanner_peek, hparen] at h
      | true =>
        obtain ⟨op, ts₁, rfl, hop⟩ := nextIn_eq_true.mp hparen
        simp only [parseblock, tokenScanner_peek, hparen, Bool.true_eq_false, if_false,
          tokenScanner_gettoken_cons, Except.bind_eq_ok] at h
        obtain ⟨⟨c₁, ts₂⟩, h₁, h⟩ := h
        obtain ⟨pre₁, rfl, hpre₁⟩ := hline h₁ hz.tail
        cases hclose : nextIn [')'] ts₂ with
        | false => simp [hclose] at h
        | true =>
          obtain ⟨cl, ts₃, rfl, hcl⟩ := nextIn_eq_true.mp hclose
          simp only [hclose, Bool.true_eq_false, if_false, tokenScanner_gettoken_cons,
            Except.bind_eq_ok, Except.pure_eq_ok, Prod.mk.injEq] at h
          obtain ⟨⟨rs, rest'⟩, h₂, rfl, rfl⟩ := h
          obtain ⟨pre₂, rfl, hpre₂⟩ := parseredirs_sound h₂
          exact ⟨op :: (pre₁ ++ cl :: pre₂), by simp,
            .block (eq_of_lead_mem hop (by decide)) hpre₁ (eq_of_lead_mem hcl (by decide)) hpre₂⟩

end Sound

/-! ## Every derivation parses -/

section Complete

variable {es : Nat}

/-- What may follow a phrase: the end of the line, or a token `peek` finds in `toks`. -/
def Follows (toks : List Char) (rest : List Tok) : Prop := rest = [] ∨ nextIn toks rest = true

@[simp] theorem nextIn_nil (toks : List Char) : nextIn toks [] = false := rfl

@[simp] theorem nextIn_cons (toks : List Char) (t : Tok) (ts : List Tok) :
    nextIn toks (t :: ts) = decide (lead t ∈ toks) := rfl

theorem Follows.mono {toks toks' : List Char} {rest : List Tok} (h : Follows toks rest)
    (hsub : ∀ c ∈ toks, c ∈ toks') : Follows toks' rest := by
  rcases h with rfl | h
  · exact .inl rfl
  · obtain ⟨t, ts, rfl, ht⟩ := nextIn_eq_true.mp h
    exact .inr (by simpa using hsub _ ht)

/-- After a phrase, `peek` finds none of the tokens that cannot follow it. -/
theorem Follows.nextIn_false {toks toks' : List Char} {rest : List Tok} (h : Follows toks rest)
    (hdis : ∀ c ∈ toks, c ∉ toks') : nextIn toks' rest = false := by
  rcases h with rfl | h
  · rfl
  · obtain ⟨t, ts, rfl, ht⟩ := nextIn_eq_true.mp h
    simpa using hdis _ ht

/-- A redirection's operator is what `peek` looks for at `<>`. -/
theorem lead_of_redirOf {op : Tok} {q e : Nat} {r : Redir} (h : redirOf op.1 q e = some r) :
    lead op ∈ ['<', '>'] := by
  unfold redirOf at h
  unfold lead
  split_ifs at h ⊢ <;> simp_all

/-- A word is never what the parser peeks for. -/
theorem lead_of_word {w : Tok} (hw : w.1 = 'a') : lead w = 'a' := by
  simp [lead, hw]

/-- Redirections start with an operator, which is no `(`. -/
theorem Redirs.nextIn_paren {ts rest : List Tok} {rs : List Redir} (h : Redirs ts rs)
    (hrest : nextIn ['('] rest = false) : nextIn ['('] (ts ++ rest) = false := by
  cases h with
  | nil => exact hrest
  | cons hr _ _ =>
    have hop := lead_of_redirOf hr
    simp only [List.mem_cons, List.not_mem_nil, or_false] at hop
    rcases hop with hop | hop <;> simp [hop]

/-- Words start with a word: `peek` finds none of `toks` there when no stop is among them. -/
theorem Args.nextIn_false {ts rest : List Tok} {ws : List (Nat × Nat)} {rs : List Redir} {toks : List Char}
    (h : Args ts ws rs) (hr : Follows ['|', ')', '&', ';'] rest) (ha : 'a' ∉ toks)
    (hdis : ∀ c ∈ ['|', ')', '&', ';'], c ∉ toks) : nextIn toks (ts ++ rest) = false := by
  cases h with
  | nil => exact hr.nextIn_false hdis
  | cons hw _ _ => simp [lead_of_word hw, ha]

theorem Redirs.parses {ts : List Tok} {rs : List Redir} (h : Redirs ts rs) (k : Nat) (rest : List Tok)
    (hk : ts.length < k) (hr : nextIn ['<', '>'] rest = false) :
    parseredirs (tokenScanner es) k (ts ++ rest) = .ok (rs, rest) := by
  induction h generalizing k with
  | nil =>
    obtain ⟨k, rfl⟩ : ∃ j, k = j + 1 := ⟨k - 1, by simp at hk; omega⟩
    simp [parseredirs, tokenScanner_peek, hr]
  | @cons op w ts r rs hr' hw _ ih =>
    obtain ⟨k, rfl⟩ : ∃ j, k = j + 1 := ⟨k - 1, by simp at hk; omega⟩
    have hop := lead_of_redirOf hr'
    have hrec := ih k (by simp at hk; omega)
    simp only [List.cons_append, parseredirs, tokenScanner_peek_cons, hop, decide_true, if_true,
      tokenScanner_gettoken_cons, hw, ne_eq, not_true_eq_false, if_false, hrec, Except.ok_bind, hr',
      Option.toList_some]
    rfl

theorem parseback_amps {as : List Tok} (has : ∀ t ∈ as, t.1 = '&') (k : Nat) (cmd : Cmd) (rest : List Tok)
    (hk : as.length < k) (hr : nextIn ['&'] rest = false) :
    parseback (tokenScanner es) k cmd (as ++ rest) = .ok (Cmd.back^[as.length] cmd, rest) := by
  induction as generalizing k cmd with
  | nil =>
    obtain ⟨k, rfl⟩ : ∃ j, k = j + 1 := ⟨k - 1, by simp at hk; omega⟩
    simp [parseback, tokenScanner_peek, hr]
  | cons t as ih =>
    obtain ⟨k, rfl⟩ : ∃ j, k = j + 1 := ⟨k - 1, by simp at hk; omega⟩
    have ht : t.1 = '&' := has t List.mem_cons_self
    have hrec := ih (fun t ht => has t (List.mem_cons_of_mem _ ht)) k cmd.back (by simp at hk; omega)
    simp only [List.cons_append, parseback, tokenScanner_peek_cons, lead, ht, if_neg (by decide : '&' ≠ '+'),
      List.mem_singleton, decide_true, if_true, tokenScanner_gettoken_cons, hrec, List.length_cons,
      Function.iterate_succ_apply]

theorem Args.parses {ts : List Tok} {ws : List (Nat × Nat)} {rs' : List Redir} (h : Args ts ws rs') (k : Nat)
    (argv : List (Nat × Nat)) (rs : List Redir) (rest : List Tok) (hk : ts.length < k)
    (hmax : argv.length + ws.length < MAXARGS) (hr : Follows ['|', ')', '&', ';'] rest) :
    parseargs (tokenScanner es) k argv rs (ts ++ rest) = .ok (argv ++ ws, rs ++ rs', rest) := by
  induction h generalizing k argv rs with
  | nil =>
    obtain ⟨k, rfl⟩ : ∃ j, k = j + 1 := ⟨k - 1, by simp at hk; omega⟩
    rcases hr with rfl | hr
    · simp [parseargs]
    · simp [parseargs, tokenScanner_peek, hr]
  | @cons w ts₁ ts₂ rs₁ rs₂ ws hw hrs hargs ih =>
    obtain ⟨k, rfl⟩ : ∃ j, k = j + 1 := ⟨k - 1, by simp at hk; omega⟩
    simp only [List.length_cons, List.length_append] at hk hmax
    -- the redirections after the word stop at the next word or at what follows the words
    have hredirs : parseredirs (tokenScanner es) k (ts₁ ++ (ts₂ ++ rest)) = .ok (rs₁, ts₂ ++ rest) :=
      hrs.parses k (ts₂ ++ rest) (by omega) (hargs.nextIn_false hr (by simp) (by simp))
    have hrec := ih k (argv ++ [(w.2.1, w.2.2)]) (rs ++ rs₁) (by omega) (by simp; omega)
    have hmax' : ¬ MAXARGS ≤ argv.length + 1 := by omega
    have hw0 : w.1 ≠ '\x00' := by rw [hw]; decide
    simp only [List.cons_append, List.append_assoc, parseargs, tokenScanner_peek_cons, lead_of_word hw,
      tokenScanner_gettoken_cons, hw0, if_false]
    simp only [hw, ne_eq, not_true_eq_false, if_false, hmax', hredirs, Except.ok_bind, hrec]
    simp

/-- `peek` sees a token's own code, but for `>>`. -/
theorem lead_eq {t : Tok} {c : Char} (h : t.1 = c) (hc : c ≠ '+') : lead t = c := by
  simp [lead, h, hc]

/-- `&`s, then what may follow them. -/
theorem Follows.amps {as rest : List Tok} {toks : List Char} (has : ∀ t ∈ as, t.1 = '&')
    (hr : Follows toks rest) (hamp : '&' ∈ toks) : Follows toks (as ++ rest) := by
  cases as with
  | nil => exact hr
  | cons t as => exact .inr (by simp [lead_eq (has t List.mem_cons_self) (by decide), hamp])

/-- The token `t`, read by `peek` as one of `toks`. -/
theorem Follows.tok {t : Tok} {c : Char} {toks : List Char} (ts : List Tok) (ht : t.1 = c) (hc : c ≠ '+')
    (hmem : c ∈ toks) : Follows toks (t :: ts) :=
  .inr (by simp [lead_eq ht hc, hmem])

mutual

/-- A line followed by the end or a `)` parses with four rounds a token, and four more. -/
theorem Line.parses {ts : List Tok} {c : Cmd} (h : Line ts c) (k : Nat) (rest : List Tok)
    (hk : 4 * ts.length + 4 ≤ k) (hr : Follows [')'] rest) :
    parseline (tokenScanner es) k (ts ++ rest) = .ok (c, rest) := by
  obtain ⟨k, rfl⟩ : ∃ j, k = j + 1 := ⟨k - 1, by omega⟩
  cases h with
  | @pipe ts as c hp has =>
    simp only [List.length_append] at hk
    have hpipe := hp.parses k (as ++ rest) (by omega) (.amps has (hr.mono (by simp)) (by simp))
    have hback := @parseback_amps es as has k c rest (by omega) (hr.nextIn_false (by simp))
    have hsemi : nextIn [';'] rest = false := hr.nextIn_false (by simp)
    simp only [List.append_assoc, parseline, hpipe, Except.ok_bind, hback, tokenScanner_peek, hsemi,
      Bool.false_eq_true, if_false]
    rfl
  | @list ts as ts' semi c c' hp has hs hl =>
    simp only [List.length_append, List.length_cons] at hk
    have hpipe := hp.parses k (as ++ semi :: (ts' ++ rest)) (by omega)
      (.amps has (.tok _ hs (by decide) (by simp)) (by simp))
    have hback := @parseback_amps es as has k c (semi :: (ts' ++ rest)) (by omega)
      (by simp [lead_eq hs (by decide)])
    have hline := hl.parses k rest (by omega) hr
    simp only [List.append_assoc, List.cons_append, parseline, hpipe, Except.ok_bind, hback,
      tokenScanner_peek_cons, lead_eq hs (by decide), List.mem_singleton, decide_true, if_true,
      tokenScanner_gettoken_cons, hline]
    rfl

/-- A pipeline followed by the end, `)`, `&` or `;` parses with four rounds a token, and three
more. -/
theorem Pipe.parses {ts : List Tok} {c : Cmd} (h : Pipe ts c) (k : Nat) (rest : List Tok)
    (hk : 4 * ts.length + 3 ≤ k) (hr : Follows [')', '&', ';'] rest) :
    parsepipe (tokenScanner es) k (ts ++ rest) = .ok (c, rest) := by
  obtain ⟨k, rfl⟩ : ∃ j, k = j + 1 := ⟨k - 1, by omega⟩
  cases h with
  | @exec ts c he =>
    have hexec := he.parses k rest (by omega) (hr.mono (by simp))
    have hbar : nextIn ['|'] rest = false := hr.nextIn_false (by simp)
    simp only [parsepipe, hexec, Except.ok_bind, tokenScanner_peek, hbar, Bool.false_eq_true, if_false]
    rfl
  | @pipe ts ts' bar c c' he hb hp =>
    simp only [List.length_append, List.length_cons] at hk
    have hexec := he.parses k (bar :: (ts' ++ rest)) (by omega) (.tok _ hb (by decide) (by simp))
    have hpipe := hp.parses k rest (by omega) hr
    simp only [List.append_assoc, List.cons_append, parsepipe, hexec, Except.ok_bind,
      tokenScanner_peek_cons, lead_eq hb (by decide), List.mem_singleton, decide_true, if_true,
      tokenScanner_gettoken_cons, hpipe]
    rfl

/-- A command followed by the end, `|`, `)`, `&` or `;` parses with four rounds a token, and two
more. -/
theorem Exec.parses {ts : List Tok} {c : Cmd} (h : Exec ts c) (k : Nat) (rest : List Tok)
    (hk : 4 * ts.length + 2 ≤ k) (hr : Follows ['|', ')', '&', ';'] rest) :
    parseexec (tokenScanner es) k (ts ++ rest) = .ok (c, rest) := by
  obtain ⟨k, rfl⟩ : ∃ j, k = j + 1 := ⟨k - 1, by omega⟩
  cases h with
  | @block op cl ts ts' c rs hop hl hcl hrs =>
    simp only [List.length_cons, List.length_append] at hk
    obtain ⟨k, rfl⟩ : ∃ j, k = j + 1 := ⟨k - 1, by omega⟩
    have hline := hl.parses k (cl :: (ts' ++ rest)) (by omega) (.tok _ hcl (by decide) (by simp))
    have hredirs := @Redirs.parses es ts' rs hrs k rest (by omega) (hr.nextIn_false (by simp))
    simp only [List.append_assoc, List.cons_append, parseexec, parseblock, tokenScanner_peek_cons,
      lead_eq hop (by decide), List.mem_singleton, decide_true, if_true, Bool.true_eq_false, if_false,
      tokenScanner_gettoken_cons, hline, Except.ok_bind, lead_eq hcl (by decide), hredirs]
    rfl
  | @simple ts ts' rs rs' ws hrs hargs hmax =>
    simp only [List.length_append] at hk
    have hnext : nextIn ['<', '>'] (ts' ++ rest) = false := hargs.nextIn_false hr (by simp) (by simp)
    have hparen : nextIn ['('] (ts ++ (ts' ++ rest)) = false :=
      hrs.nextIn_paren (hargs.nextIn_false hr (by simp) (by simp))
    have hredirs := @Redirs.parses es ts rs hrs k (ts' ++ rest) (by omega) hnext
    have hwords := @Args.parses es ts' ws rs' hargs k [] rs rest (by omega) (by simpa using hmax) hr
    simp only [List.append_assoc, parseexec, tokenScanner_peek, hparen, Bool.false_eq_true, if_false,
      hredirs, Except.ok_bind, hwords, List.nil_append]
    rfl

end

end Complete

/-! ## The rounds never run out -/

section Total

variable {es : Nat} {α β γ δ : Type}

/-- A parse that does not run out of rounds, and leaves at most `n` tokens; `left` reads what is
left off its result. -/
def Fits (x : Except String γ) (left : γ → List Tok) (n : Nat) : Prop :=
  x ≠ .error "fuel" ∧ ∀ r, x = .ok r → (left r).length ≤ n

@[simp] theorem fits_ok_iff {r : γ} {left : γ → List Tok} {n : Nat} :
    Fits (.ok r) left n ↔ (left r).length ≤ n :=
  ⟨fun h => h.2 r rfl, fun h => ⟨nofun, fun _ he => by cases he; exact h⟩⟩

@[simp] theorem fits_pure_iff {r : γ} {left : γ → List Tok} {n : Nat} :
    Fits (pure r : Except String γ) left n ↔ (left r).length ≤ n :=
  fits_ok_iff

theorem Fits.error {e : String} {left : γ → List Tok} {n : Nat} (h : e ≠ "fuel") : Fits (.error e) left n :=
  ⟨fun he => h (by cases he; rfl), fun _ he => nomatch he⟩

theorem Fits.mono {x : Except String γ} {left : γ → List Tok} {n m : Nat} (h : Fits x left n) (hnm : n ≤ m) :
    Fits x left m :=
  ⟨h.1, fun r he => (h.2 r he).trans hnm⟩

/-- A bind fits when its first part does and what follows fits on what that part leaves. -/
theorem Fits.bind {x : Except String (α × List Tok)} {f : α × List Tok → Except String δ}
    {left : δ → List Tok} {n m : Nat} (hx : Fits x Prod.snd n)
    (hf : ∀ a rest, rest.length ≤ n → Fits (f (a, rest)) left m) : Fits (x >>= f) left m := by
  cases x with
  | error e => exact .error fun he => hx.1 (by rw [he])
  | ok p => exact hf p.1 p.2 (hx.2 p rfl)

/-- `Fits.bind` after `parseargs`, which returns two things and the tokens left. -/
theorem Fits.bind₃ {x : Except String (α × β × List Tok)} {f : α × β × List Tok → Except String δ}
    {left : δ → List Tok} {n m : Nat} (hx : Fits x (fun r => r.2.2) n)
    (hf : ∀ a b rest, rest.length ≤ n → Fits (f (a, b, rest)) left m) : Fits (x >>= f) left m := by
  cases x with
  | error e => exact .error fun he => hx.1 (by rw [he])
  | ok p => exact hf p.1 p.2.1 p.2.2 (hx.2 p rfl)

theorem parseredirs_fits (k : Nat) (ts : List Tok) (hk : ts.length < k) :
    Fits (parseredirs (tokenScanner es) k ts) Prod.snd ts.length := by
  induction k generalizing ts with
  | zero => omega
  | succ k ih =>
    cases ts with
    | nil => simp [parseredirs]
    | cons op ts =>
      by_cases hop : lead op ∈ ['<', '>']
      · cases ts with
        | nil =>
          -- the operator is the last token: no file word
          simp only [parseredirs, tokenScanner_peek_cons, hop, decide_true, if_true,
            tokenScanner_gettoken_cons, tokenScanner_gettoken_nil]
          exact .error (by decide)
        | cons w ts =>
          simp only [parseredirs, tokenScanner_peek_cons, hop, decide_true, if_true, tokenScanner_gettoken_cons]
          split_ifs
          · exact .error (by decide)
          · simp only [List.length_cons] at hk
            exact .bind (ih ts (by omega)) fun _ _ hrest => by simp; omega
      · simp [parseredirs, hop]

theorem parseback_fits (k : Nat) (cmd : Cmd) (ts : List Tok) (hk : ts.length < k) :
    Fits (parseback (tokenScanner es) k cmd ts) Prod.snd ts.length := by
  induction k generalizing cmd ts with
  | zero => omega
  | succ k ih =>
    cases ts with
    | nil => simp [parseback]
    | cons t ts =>
      by_cases ht : lead t ∈ ['&']
      · simp only [parseback, tokenScanner_peek_cons, ht, decide_true, if_true, tokenScanner_gettoken_cons]
        simp only [List.length_cons] at hk ⊢
        exact (ih cmd.back ts (by omega)).mono (by omega)
      · simp [parseback, ht]

theorem parseargs_fits (k : Nat) (argv : List (Nat × Nat)) (rs : List Redir) (ts : List Tok)
    (hk : ts.length < k) : Fits (parseargs (tokenScanner es) k argv rs ts) (fun r => r.2.2) ts.length := by
  induction k generalizing argv rs ts with
  | zero => omega
  | succ k ih =>
    cases ts with
    | nil => simp [parseargs]
    | cons w ts =>
      by_cases hstop : lead w ∈ ['|', ')', '&', ';']
      · simp [parseargs, hstop]
      · simp only [parseargs, tokenScanner_peek_cons, hstop, decide_false, Bool.false_eq_true, if_false,
          tokenScanner_gettoken_cons]
        simp only [List.length_cons] at hk
        split_ifs
        · simp
        · exact .error (by decide)
        · exact .error (by decide)
        · -- a word, its redirections, and the words after them
          refine .bind (parseredirs_fits k ts (by omega)) fun _ rest hrest => ?_
          exact (ih _ _ rest (by omega)).mono (by simp; omega)

/-- The four mutually recursive functions never run out of rounds given four a token; by
induction on the rounds. -/
theorem parse_fits (k : Nat) :
    (∀ ts, 4 * ts.length + 4 ≤ k → Fits (parseline (tokenScanner es) k ts) Prod.snd ts.length) ∧
    (∀ ts, 4 * ts.length + 3 ≤ k → Fits (parsepipe (tokenScanner es) k ts) Prod.snd ts.length) ∧
    (∀ ts, 4 * ts.length + 2 ≤ k → Fits (parseexec (tokenScanner es) k ts) Prod.snd ts.length) ∧
    (∀ ts, 4 * ts.length + 1 ≤ k → Fits (parseblock (tokenScanner es) k ts) Prod.snd ts.length) := by
  induction k with
  | zero => refine ⟨?_, ?_, ?_, ?_⟩ <;> intro ts hk <;> omega
  | succ k ih =>
    obtain ⟨hline, hpipe, hexec, hblock⟩ := ih
    refine ⟨?_, ?_, ?_, ?_⟩
    · intro ts hk
      simp only [parseline]
      refine .bind (hpipe ts (by omega)) fun cmd ts₁ h₁ => ?_
      refine .bind (parseback_fits k cmd ts₁ (by omega)) fun cmd ts₂ h₂ => ?_
      cases hsemi : nextIn [';'] ts₂ with
      | false => simp [tokenScanner_peek, hsemi]; omega
      | true =>
        -- the `;` is a token of the line, so the line after it is shorter
        obtain ⟨semi, ts₃, rfl, -⟩ := nextIn_eq_true.mp hsemi
        simp only [tokenScanner_peek, hsemi, if_true, tokenScanner_gettoken_cons]
        simp only [List.length_cons] at h₂
        exact .bind (hline ts₃ (by omega)) fun _ _ h₃ => by simp; omega
    · intro ts hk
      simp only [parsepipe]
      refine .bind (hexec ts (by omega)) fun cmd ts₁ h₁ => ?_
      cases hbar : nextIn ['|'] ts₁ with
      | false => simp [tokenScanner_peek, hbar]; omega
      | true =>
        obtain ⟨bar, ts₂, rfl, -⟩ := nextIn_eq_true.mp hbar
        simp only [tokenScanner_peek, hbar, if_true, tokenScanner_gettoken_cons]
        simp only [List.length_cons] at h₁
        exact .bind (hpipe ts₂ (by omega)) fun _ _ h₂ => by simp; omega
    · intro ts hk
      cases hparen : nextIn ['('] ts with
      | true =>
        simp only [parseexec, tokenScanner_peek, hparen, if_true]
        exact hblock ts (by omega)
      | false =>
        simp only [parseexec, tokenScanner_peek, hparen, Bool.false_eq_true, if_false]
        refine .bind (parseredirs_fits k ts (by omega)) fun rs ts₁ h₁ => ?_
        exact .bind₃ (parseargs_fits k [] rs ts₁ (by omega)) fun _ _ _ h₂ => by simp; omega
    · intro ts hk
      cases hparen : nextIn ['('] ts with
      | false =>
        simp only [parseblock, tokenScanner_peek, hparen, if_true]
        exact .error (by decide)
      | true =>
        obtain ⟨op, ts₁, rfl, -⟩ := nextIn_eq_true.mp hparen
        simp only [List.length_cons] at hk
        simp only [parseblock, tokenScanner_peek, hparen, Bool.true_eq_false, if_false,
          tokenScanner_gettoken_cons]
        refine .bind (hline ts₁ (by omega)) fun cmd ts₂ h₂ => ?_
        cases hclose : nextIn [')'] ts₂ with
        | false =>
          simp only [if_true]
          exact .error (by decide)
        | true =>
          obtain ⟨cl, ts₃, rfl, -⟩ := nextIn_eq_true.mp hclose
          simp only [List.length_cons] at h₂
          simp only [Bool.true_eq_false, if_false, tokenScanner_gettoken_cons]
          exact .bind (parseredirs_fits k ts₃ (by omega)) fun _ _ h₃ => by simp; omega

end Total

end Xv6.Sh
