import TrinityXv6.Lib.Command

/-!
# The parser of the shell

`sh` parses a line in place. The parser is five mutually recursive functions on a pointer into the
line, with one character of lookahead, and the tree it builds points back into the line: a word is
a pair of pointers until `nulterminate` puts a NUL after each of them.

The line is the memory the pointers point into, with NULs after its end, and a pointer is an index.
Allocation does not fail. The recursion of the parser is on `fuel`; a parser whose fuel is used up
says so, which no line makes it do if it has four for each of its characters and four more.
-/

namespace TrinityXv6

namespace Shell

open Command (fail)

/-- `struct cmd` and its five kinds, over any type of words. -/
inductive Cmd (ω : Type)
  | exec (argv : List ω)
  | redir (cmd : Cmd ω) (file : ω) (mode fd : ℕ)
  | pipe (left right : Cmd ω)
  | list (left right : Cmd ω)
  | back (cmd : Cmd ω)
deriving DecidableEq

/-- A word in the line: where it starts, and where the character after it is. -/
structure Span where
  q : ℕ
  eq : ℕ
deriving DecidableEq

namespace Cmd

variable {ω ω' : Type}

/-- The same tree with other words. -/
def map (f : ω → ω') : Cmd ω → Cmd ω'
  | exec argv => exec (argv.map f)
  | redir cmd file mode fd => redir (cmd.map f) (f file) mode fd
  | pipe left right => pipe (left.map f) (right.map f)
  | list left right => list (left.map f) (right.map f)
  | back cmd => back (cmd.map f)

/-- Something holds of every word. -/
def All (p : ω → Prop) : Cmd ω → Prop
  | exec argv => ∀ w ∈ argv, p w
  | redir cmd file _ _ => cmd.All p ∧ p file
  | pipe left right => left.All p ∧ right.All p
  | list left right => left.All p ∧ right.All p
  | back cmd => cmd.All p

/-- One more argument. `parseexec` keeps a pointer to the `execcmd` it fills while redirections are
put around it. -/
def addArg (w : ω) : Cmd ω → Cmd ω
  | exec argv => exec (argv ++ [w])
  | redir cmd file mode fd => redir (cmd.addArg w) file mode fd
  | cmd => cmd

end Cmd

/-! ## The lexer -/

/-- The symbols; `append` is `>>`. -/
inductive Symbol
  | lt | gt | append | bar | amp | semi | lpar | rpar
deriving DecidableEq

/-- What `gettoken` returns: `0`, `'a'`, or a symbol (`'+'` is `append`). -/
inductive Tok
  | eof
  | word
  | sym (k : Symbol)
deriving DecidableEq

/-- The byte of a character. -/
def chr (c : Char) : UInt8 := UInt8.ofNat c.toNat

/-- Space, tab, carriage return, newline and vertical tab. -/
def whitespace : List UInt8 := [32, 9, 13, 10, 11]

def symbols : List UInt8 :=
  [chr '<', chr '|', chr '>', chr '&', chr ';', chr '(', chr ')']

/-- The characters of which words are made. -/
def isWord (c : UInt8) : Bool := decide (c ∉ whitespace ∧ c ∉ symbols)

/-- `strlen`. -/
def strlen (buf : List UInt8) : ℕ := (buf.takeWhile (· ≠ 0)).length

/-- The character a pointer points to. -/
def deref (buf : List UInt8) (s : ℕ) : UInt8 := buf.getD s 0

/-- A line in memory, and the address of the NUL that ends it. -/
structure Line where
  buf : List UInt8
  es : ℕ
  nonzero : ∀ s < es, deref buf s ≠ 0
  zero : deref buf es = 0

theorem deref_strlen (buf : List UInt8) :
    (∀ s < strlen buf, deref buf s ≠ 0) ∧ deref buf (strlen buf) = 0 := by
  induction buf with
  | nil => exact ⟨fun s hs => absurd hs (Nat.not_lt_zero s), rfl⟩
  | cons c buf ih =>
    by_cases hc : c = 0
    · have hlen : strlen (c :: buf) = 0 := by simp [strlen, hc]
      rw [hlen]
      exact ⟨fun s hs => absurd hs (Nat.not_lt_zero s), hc⟩
    · have hlen : strlen (c :: buf) = strlen buf + 1 := by simp [strlen, hc]
      rw [hlen]
      refine ⟨fun s hs => ?_, ih.2⟩
      cases s with
      | zero => exact hc
      | succ s => exact ih.1 s (Nat.lt_of_succ_lt_succ hs)

/-- `es = s + strlen(s)`. -/
def Line.of (buf : List UInt8) : Line where
  buf := buf
  es := strlen buf
  nonzero := (deref_strlen buf).1
  zero := (deref_strlen buf).2

/-- Why the parser does not return. -/
inductive Stop
  /-- `panic(msg)`. -/
  | panic (msg : String)
  /-- `leftovers: rest` is printed, and then `panic("syntax")`. -/
  | leftovers (rest : List UInt8)
  /-- The fuel is used up. -/
  | spent
deriving DecidableEq

/-- A parser works on a pointer into the line. -/
abbrev Parser (α : Type) := Command.Cmd ℕ Stop α

namespace Line

variable (L : Line)

/-- Move on, at most `n` times, while `p` holds of the character. -/
def scanFrom (p : UInt8 → Bool) : (n s : ℕ) → ℕ
  | 0, s => s
  | n + 1, s => if p (deref L.buf s) then scanFrom p n (s + 1) else s

/-- `while (s < es && p(*s)) s++`. -/
def scan (p : UInt8 → Bool) (s : ℕ) : ℕ := L.scanFrom p (L.es - s) s

/-- `while (s < es && strchr(whitespace, *s)) s++`. -/
def skip (s : ℕ) : ℕ := L.scan (fun c => decide (c ∈ whitespace)) s

/-- The symbols of one character that cannot be the start of a longer one. -/
def single (c : UInt8) : Option Symbol :=
  if c = chr '|' then some .bar
  else if c = chr '(' then some .lpar
  else if c = chr ')' then some .rpar
  else if c = chr ';' then some .semi
  else if c = chr '&' then some .amp
  else if c = chr '<' then some .lt
  else none

/-- The `switch` of `gettoken`: what stands at `s`, and where it ends. -/
def lexeme (s : ℕ) : Tok × ℕ :=
  if deref L.buf s = 0 then (.eof, s)
  else match single (deref L.buf s) with
    | some k => (.sym k, s + 1)
    | none =>
      if deref L.buf s = chr '>' then
        if deref L.buf (s + 1) = chr '>' then (.sym .append, s + 2) else (.sym .gt, s + 1)
      else (.word, L.scan isWord s)

/-- `gettoken`: the kind of the next token and where it stands. -/
def gettoken : Parser (Tok × Span) := fun s =>
  .ok (((L.lexeme (L.skip s)).1, ⟨L.skip s, (L.lexeme (L.skip s)).2⟩),
    L.skip (L.lexeme (L.skip s)).2)

/-- `peek`: whether the next token starts with one of `toks`. -/
def peek (toks : List UInt8) : Parser Bool := fun s =>
  .ok (decide (deref L.buf (L.skip s) ≠ 0 ∧ deref L.buf (L.skip s) ∈ toks), L.skip s)

/-! ## The parser -/

end Line

def O_RDONLY : ℕ := 0x000
def O_WRONLY : ℕ := 0x001
def O_CREATE : ℕ := 0x200
def O_TRUNC : ℕ := 0x400

/-- The `switch` of `parseredirs`. -/
def redircmd {ω : Type} (tok : Tok) (cmd : Cmd ω) (file : ω) : Cmd ω :=
  match tok with
  | .sym .lt => .redir cmd file O_RDONLY 0
  | .sym .gt => .redir cmd file (O_WRONLY ||| O_CREATE ||| O_TRUNC) 1
  | .sym .append => .redir cmd file (O_WRONLY ||| O_CREATE) 1
  | _ => cmd

def maxargs : ℕ := 10

namespace Line

variable (L : Line)

def parseredirs : ℕ → Cmd Span → Parser (Cmd Span)
  | 0, _ => fail .spent
  | fuel + 1, cmd => do
    if ← L.peek [chr '<', chr '>'] then
      let tok ← L.gettoken
      let file ← L.gettoken
      if file.1 ≠ .word then fail (.panic "missing file for redirection")
      else parseredirs fuel (redircmd tok.1 cmd file.2)
    else pure cmd

/-- The loop of `parseexec`, with `argc` arguments so far. -/
def parseargs : ℕ → ℕ → Cmd Span → Parser (Cmd Span)
  | 0, _, _ => fail .spent
  | fuel + 1, argc, ret => do
    if ← L.peek [chr '|', chr ')', chr '&', chr ';'] then pure ret
    else
      let tok ← L.gettoken
      if tok.1 = .eof then pure ret
      else if tok.1 ≠ .word then fail (.panic "syntax")
      else if maxargs ≤ argc + 1 then fail (.panic "too many args")
      else do
        let ret ← L.parseredirs fuel (ret.addArg tok.2)
        parseargs fuel (argc + 1) ret

/-- The loop of `parseline`. -/
def parsebacks : ℕ → Cmd Span → Parser (Cmd Span)
  | 0, _ => fail .spent
  | fuel + 1, cmd => do
    if ← L.peek [chr '&'] then
      let _ ← L.gettoken
      parsebacks fuel (.back cmd)
    else pure cmd

mutual

def parseline : ℕ → Parser (Cmd Span)
  | 0 => fail .spent
  | fuel + 1 => do
    let cmd ← parsepipe fuel
    let cmd ← L.parsebacks fuel cmd
    if ← L.peek [chr ';'] then
      let _ ← L.gettoken
      let right ← parseline fuel
      pure (.list cmd right)
    else pure cmd

def parsepipe : ℕ → Parser (Cmd Span)
  | 0 => fail .spent
  | fuel + 1 => do
    let cmd ← parseexec fuel
    if ← L.peek [chr '|'] then
      let _ ← L.gettoken
      let right ← parsepipe fuel
      pure (.pipe cmd right)
    else pure cmd

def parseexec : ℕ → Parser (Cmd Span)
  | 0 => fail .spent
  | fuel + 1 => do
    if ← L.peek [chr '('] then parseblock fuel
    else
      let ret ← L.parseredirs fuel (.exec [])
      L.parseargs fuel 0 ret

def parseblock : ℕ → Parser (Cmd Span)
  | 0 => fail .spent
  | fuel + 1 => do
    if ← L.peek [chr '('] then
      let _ ← L.gettoken
      let cmd ← parseline fuel
      if ← L.peek [chr ')'] then
        let _ ← L.gettoken
        L.parseredirs fuel cmd
      else fail (.panic "syntax - missing )")
    else fail (.panic "parseblock")

end

end Line

/-- `nulterminate`: put a NUL after every word of the tree. -/
def nulterminate : Cmd Span → List UInt8 → List UInt8
  | .exec argv, buf => argv.foldl (fun buf w => buf.set w.eq 0) buf
  | .redir cmd file _ _, buf => (nulterminate cmd buf).set file.eq 0
  | .pipe left right, buf => nulterminate right (nulterminate left buf)
  | .list left right, buf => nulterminate right (nulterminate left buf)
  | .back cmd, buf => nulterminate cmd buf

/-- The string a pointer points to. -/
def cstring (buf : List UInt8) (s : ℕ) : List UInt8 := (buf.drop s).takeWhile (· ≠ 0)

/-- `parsecmd`: the tree of a line, and what becomes of the line. -/
def parsecmd (fuel : ℕ) (buf : List UInt8) : Except Stop (Cmd Span × List UInt8) :=
  match (do
    let cmd ← (Line.of buf).parseline fuel
    let _ ← (Line.of buf).peek []
    pure cmd : Parser (Cmd Span)) 0 with
  | .ok (cmd, s) =>
    if s ≠ (Line.of buf).es then .error (.leftovers (cstring buf s))
    else .ok (cmd, nulterminate cmd buf)
  | .error e => .error e

/-- The tree as `runcmd` sees it: every word is the string its pointer points to. -/
def Cmd.read (buf : List UInt8) (cmd : Cmd Span) : Cmd (List UInt8) :=
  cmd.map fun w => cstring buf w.q

end Shell

end TrinityXv6
