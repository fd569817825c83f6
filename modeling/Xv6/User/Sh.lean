import Mathlib

/-!
# The shell's parser

`parsecmd` of `user/sh.c` and the recursive descent under it: `parseline`, `parsepipe`,
`parseexec`, `parseblock` and `parseredirs`, reading the line through `gettoken` and `peek`.

A pointer into the line is the text from it to the end of the line (`es`), so that `s < es` is
`s ≠ []`, `*s` is the head and `s++` the tail; the offset of a pointer, which the command tree
keeps, is `es` less the length of that text. The parser reads the line only through `gettoken`
and `peek`, so it is written once over any `Scanner`: `lineScanner` gives it the code's two
functions on the line; `Xv6.Sh.tokenScanner` (in `Xv6.User.ShGrammar`) the same tokens read
off a list, which is where its proofs run.

`parseexec` fills the `execcmd` after wrapping it in the redirections that follow it; here it
gathers the words and the redirections, and wraps the finished `execcmd` in them in order. The
mutually recursive functions and their loops take a number of rounds `k`; `parsecmd` gives them
enough (`Xv6.Sh.parsecmd_ne_fuel`, in `Xv6.User.ShCmd`). A `panic` is an error with its message.
-/

namespace Xv6.Sh

/-- `MAXARGS`. -/
def MAXARGS : Nat := 10

/-- The open modes of `kernel/fcntl.h` that redirections use. -/
def O_RDONLY : Int := 0x000
def O_WRONLY : Int := 0x001
def O_CREATE : Int := 0x200

/-- `whitespace`. -/
def whitespace : List Char := [' ', '\t', '\r', '\n', '\x0b']

/-- `symbols`. -/
def symbols : List Char := ['<', '|', '>', '&', ';', '(', ')']

/-- A `redircmd` without the command it wraps: the file name's pointers, the mode and the
descriptor. -/
structure Redir where
  file : Nat
  efile : Nat
  mode : Int
  fd : Nat
deriving DecidableEq, Repr

/-- `struct cmd` and its five kinds; an `execcmd` keeps `argv[i]` and `eargv[i]` for each of its
words. -/
inductive Cmd where
  | exec (argv : List (Nat × Nat))
  | redir (cmd : Cmd) (r : Redir)
  | pipe (left right : Cmd)
  | list (left right : Cmd)
  | back (cmd : Cmd)
deriving DecidableEq, Repr

/-- A command wrapped in redirections in order, the first one innermost. -/
def wrap (cmd : Cmd) (rs : List Redir) : Cmd := rs.foldl Cmd.redir cmd

/-- `gettoken(ps, es, &q, &eq)` on the line from `s` on: the token's code (the symbol, `+` for
`>>`, `a` for a word, `0` at the end), the offsets where it starts and ends, and the text after
it and the whitespace that follows. -/
def gettoken (es : Nat) (s : List Char) : Char × Nat × Nat × List Char :=
  let s := s.dropWhile (· ∈ whitespace)
  let q := es - s.length
  let r : Char × List Char :=
    match s with
    | [] => ('\x00', [])
    | c :: t =>
      if c = '|' ∨ c = '(' ∨ c = ')' ∨ c = ';' ∨ c = '&' ∨ c = '<' then (c, t)
      else if c = '>' then
        match t with
        | '>' :: t' => ('+', t')
        | _ => ('>', t)
      else ('a', (c :: t).dropWhile fun d => d ∉ whitespace ∧ d ∉ symbols)
  (r.1, q, es - r.2.length, r.2.dropWhile (· ∈ whitespace))

/-- `peek(ps, es, toks)`: whether the next character after the whitespace is one of `toks`, and
the text from it. -/
def peek (s : List Char) (toks : List Char) : Bool × List Char :=
  let s := s.dropWhile (· ∈ whitespace)
  (match s with
    | [] => false
    | c :: _ => decide (c ∈ toks), s)

/-- What the parser reads a line through. -/
structure Scanner (σ : Type) where
  gettoken : σ → Char × Nat × Nat × σ
  peek : σ → List Char → Bool × σ

/-- The code's `gettoken` and `peek` on a line of `es` characters. -/
def lineScanner (es : Nat) : Scanner (List Char) := ⟨gettoken es, peek⟩

/-- The redirection `parseredirs` makes for operator `tok` and the file word at `q … eq`. -/
def redirOf (tok : Char) (q eq : Nat) : Option Redir :=
  if tok = '<' then some ⟨q, eq, O_RDONLY, 0⟩
  else if tok = '>' ∨ tok = '+' then some ⟨q, eq, Int.lor O_WRONLY O_CREATE, 1⟩
  else none

section Parse

variable {σ : Type} (S : Scanner σ)

/-- The loop of `parseredirs`: while the next character is `<` or `>`, the operator and the
word after it, which must be one (`missing file for redirection`). -/
def parseredirs : Nat → σ → Except String (List Redir × σ)
  | 0, _ => .error "fuel"
  | k + 1, ps =>
    let (more, ps) := S.peek ps ['<', '>']
    if more then
      let (tok, _, _, ps) := S.gettoken ps
      let (ftok, q, eq, ps) := S.gettoken ps
      if ftok ≠ 'a' then .error "missing file for redirection"
      else do
        let (rs, ps) ← parseredirs k ps
        pure ((redirOf tok q eq).toList ++ rs, ps)
    else .ok ([], ps)

/-- The loop of `parseline`: while the next character is `&`, the command goes to the
background. -/
def parseback : Nat → Cmd → σ → Except String (Cmd × σ)
  | 0, _, _ => .error "fuel"
  | k + 1, cmd, ps =>
    let (amp, ps) := S.peek ps ['&']
    if amp then parseback k (.back cmd) (S.gettoken ps).2.2.2
    else .ok (cmd, ps)

/-- The loop of `parseexec` after its first redirections: until the next character is one of
`|)&;` or the line ends, a word, which must be one (`syntax`), and the redirections after it;
`MAXARGS - 1` words at most (`too many args`). -/
def parseargs : Nat → List (Nat × Nat) → List Redir → σ → Except String (List (Nat × Nat) × List Redir × σ)
  | 0, _, _, _ => .error "fuel"
  | k + 1, argv, rs, ps =>
    let (stop, ps) := S.peek ps ['|', ')', '&', ';']
    if stop then .ok (argv, rs, ps)
    else
      let (tok, q, eq, ps) := S.gettoken ps
      if tok = '\x00' then .ok (argv, rs, ps)
      else if tok ≠ 'a' then .error "syntax"
      else if MAXARGS ≤ argv.length + 1 then .error "too many args"
      else do
        let (rs', ps) ← parseredirs S k ps
        parseargs k (argv ++ [(q, eq)]) (rs ++ rs') ps

mutual

/-- `parseline`: a pipeline, sent to the background by each `&` after it, and the line after a
`;`. -/
def parseline : Nat → σ → Except String (Cmd × σ)
  | 0, _ => .error "fuel"
  | k + 1, ps => do
    let (cmd, ps) ← parsepipe k ps
    let (cmd, ps) ← parseback S k cmd ps
    let (semi, ps) := S.peek ps [';']
    if semi then
      let (rest, ps) ← parseline k (S.gettoken ps).2.2.2
      pure (.list cmd rest, ps)
    else pure (cmd, ps)

/-- `parsepipe`: a command, and the pipeline after a `|`. -/
def parsepipe : Nat → σ → Except String (Cmd × σ)
  | 0, _ => .error "fuel"
  | k + 1, ps => do
    let (cmd, ps) ← parseexec k ps
    let (bar, ps) := S.peek ps ['|']
    if bar then
      let (right, ps) ← parsepipe k (S.gettoken ps).2.2.2
      pure (.pipe cmd right, ps)
    else pure (cmd, ps)

/-- `parseexec`: a block if a `(` comes next, else redirections and words. -/
def parseexec : Nat → σ → Except String (Cmd × σ)
  | 0, _ => .error "fuel"
  | k + 1, ps =>
    let (paren, ps) := S.peek ps ['(']
    if paren then parseblock k ps
    else do
      let (rs, ps) ← parseredirs S k ps
      let (argv, rs, ps) ← parseargs S k [] rs ps
      pure (wrap (.exec argv) rs, ps)

/-- `parseblock`: `(`, a line, `)` (`syntax - missing )`), and redirections. -/
def parseblock : Nat → σ → Except String (Cmd × σ)
  | 0, _ => .error "fuel"
  | k + 1, ps =>
    let (paren, ps) := S.peek ps ['(']
    if paren = false then .error "parseblock"
    else do
      let (cmd, ps) ← parseline k (S.gettoken ps).2.2.2
      let (close, ps) := S.peek ps [')']
      if close = false then .error "syntax - missing )"
      else
        let (rs, ps) ← parseredirs S k (S.gettoken ps).2.2.2
        pure (wrap cmd rs, ps)

end

end Parse

/-- `nulterminate`: a `0` at the end of every word and every file name of the command. -/
def nulterminate : Cmd → List Char → List Char
  | .exec argv, buf => argv.foldl (fun buf w => buf.set w.2 '\x00') buf
  | .redir cmd r, buf => (nulterminate cmd buf).set r.efile '\x00'
  | .pipe l r, buf => nulterminate r (nulterminate l buf)
  | .list l r, buf => nulterminate r (nulterminate l buf)
  | .back cmd, buf => nulterminate cmd buf

/-- The rounds `parsecmd` gives the parser: four for each character, and four more. -/
def parseFuel (line : List Char) : Nat := 4 * line.length + 4

/-- `parsecmd(s)` on a buffer whose line ends at its first `0`: the command tree, and the buffer
after `nulterminate`; `syntax` when text is left over after the line. -/
def parsecmd (buf : List Char) : Except String (Cmd × List Char) := do
  let line := buf.takeWhile (· ≠ '\x00')
  let (cmd, ps) ← parseline (lineScanner line.length) (parseFuel line) line
  if (peek ps []).2 ≠ [] then .error "syntax"
  else pure (cmd, nulterminate cmd buf)

/-- The C string at offset `p` of a buffer: the characters up to the next `0`. -/
def cstr (buf : List Char) (p : Nat) : List Char := (buf.drop p).takeWhile (· ≠ '\x00')

end Xv6.Sh
