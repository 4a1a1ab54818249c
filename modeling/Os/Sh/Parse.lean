/-
The parser of the shell.

The line lies in memory from offset 0 on, and a pointer into it is an offset: `es` is the offset
of its NUL.  The functions that move `*ps` return the new value of it with their result, and
`q` and `eq` of a token are the two offsets between which its text lies.  The recursion of the
parser, like the loops that call `peek`, takes a fuel, and running out of it is kept apart from
the shell's own errors.
-/
import Mathlib.Data.List.Basic

namespace Sh

/-- The characters of a C string. -/
structure CString where
  chars : List UInt8
  noNul : 0 ∉ chars

def char (c : Char) : UInt8 := UInt8.ofNat c.toNat

def bytes (s : String) : List UInt8 := s.toList.map char

def whitespace : List UInt8 := bytes " \t\r\n\x0b"

def symbols : List UInt8 := bytes "<|>&;()"

def maxargs : Nat := 10

abbrev Mem := Nat → UInt8

/-- `strchr` also finds the NUL at the end of the string. -/
def strchr (s : List UInt8) (c : UInt8) : Bool := c = 0 || s.contains c

/-- `while(s < es && p(*s)) s++;` with `es - s` characters to go. -/
def skipWhile (mem : Mem) (p : UInt8 → Bool) : Nat → Nat → Nat
  | 0, s => s
  | n + 1, s => if p (mem s) then skipWhile mem p n (s + 1) else s

def skipBlanks (mem : Mem) (es s : Nat) : Nat := skipWhile mem (strchr whitespace) (es - s) s

/-- What `gettoken` gives back. -/
structure Tok where
  ret : UInt8
  q : Nat
  eq : Nat
  ps : Nat

/-- The `switch` of `gettoken`: the value to return and the end of the token. -/
def scanToken (mem : Mem) (es s : Nat) : UInt8 × Nat :=
  if mem s = 0 then (0, s)
  else if (bytes "|();&<").contains (mem s) then (mem s, s + 1)
  else if mem s = char '>' then
    if mem (s + 1) = char '>' then (char '+', s + 2) else (mem s, s + 1)
  else (char 'a',
    skipWhile mem (fun c => !strchr whitespace c && !strchr symbols c) (es - s) s)

def gettoken (mem : Mem) (es ps : Nat) : Tok where
  ret := (scanToken mem es (skipBlanks mem es ps)).1
  q := skipBlanks mem es ps
  eq := (scanToken mem es (skipBlanks mem es ps)).2
  ps := skipBlanks mem es (scanToken mem es (skipBlanks mem es ps)).2

/-- The new `*ps`, and whether one of `toks` is there. -/
def peek (mem : Mem) (es ps : Nat) (toks : List UInt8) : Nat × Bool :=
  (skipBlanks mem es ps,
    mem (skipBlanks mem es ps) ≠ 0 && strchr toks (mem (skipBlanks mem es ps)))

/-! ### Commands -/

inductive OpenMode
  | rdonly
  | wronlyCreat
  deriving DecidableEq

/-- The trees the parser builds; `α` is how a word of the line is given. -/
inductive Cmd (α : Type)
  | exec (argv : List α)
  | redir (cmd : Cmd α) (file : α) (mode : OpenMode) (fd : Nat)
  | pipe (left right : Cmd α)
  | list (left right : Cmd α)
  | back (cmd : Cmd α)
  deriving DecidableEq

namespace Cmd

variable {α β : Type}

def map (f : α → β) : Cmd α → Cmd β
  | exec argv => exec (argv.map f)
  | redir cmd file mode fd => redir (cmd.map f) (f file) mode fd
  | pipe left right => pipe (left.map f) (right.map f)
  | list left right => list (left.map f) (right.map f)
  | back cmd => back (cmd.map f)

/-- `cmd->argv[argc] = q`, where `cmd` is the `execcmd` that redirections already wrap. -/
def addArg (w : α) : Cmd α → Cmd α
  | exec argv => exec (argv ++ [w])
  | redir cmd file mode fd => redir (addArg w cmd) file mode fd
  | cmd => cmd

end Cmd

/-- A word of the line: `argv[i]` and `eargv[i]`, or `file` and `efile`. -/
structure Span where
  q : Nat
  eq : Nat
  deriving DecidableEq

inductive ParseError
  | panic (msg : String)
  | fuel
  deriving DecidableEq

/-! ### The parser -/

abbrev Parsed := Except ParseError (Cmd Span × Nat)

/-- The `switch` of `parseredirs`. -/
def redirTo (tok : UInt8) (cmd : Cmd Span) (file : Span) : Cmd Span :=
  if tok = char '<' then .redir cmd file .rdonly 0
  else if tok = char '>' then .redir cmd file .wronlyCreat 1
  else if tok = char '+' then .redir cmd file .wronlyCreat 1
  else cmd

def parseredirs (mem : Mem) (es : Nat) : Nat → Cmd Span → Nat → Parsed
  | 0, _, _ => .error .fuel
  | n + 1, cmd, ps =>
    let (ps, more) := peek mem es ps (bytes "<>")
    if more then
      let tok := gettoken mem es ps
      let file := gettoken mem es tok.ps
      if file.ret ≠ char 'a' then .error (.panic "missing file for redirection")
      else parseredirs mem es n (redirTo tok.ret cmd ⟨file.q, file.eq⟩) file.ps
    else .ok (cmd, ps)

/-- The `while` loop of `parseexec`. -/
def parseargs (mem : Mem) (es : Nat) : Nat → Nat → Cmd Span → Nat → Parsed
  | 0, _, _, _ => .error .fuel
  | n + 1, argc, ret, ps => do
    let (ps, stop) := peek mem es ps (bytes "|)&;")
    if stop then
      return (ret, ps)
    let tok := gettoken mem es ps
    if tok.ret = 0 then
      return (ret, tok.ps)
    if tok.ret ≠ char 'a' then
      throw (.panic "syntax")
    if argc + 1 ≥ maxargs then
      throw (.panic "too many args")
    let (ret, ps) ← parseredirs mem es n (ret.addArg ⟨tok.q, tok.eq⟩) tok.ps
    parseargs mem es n (argc + 1) ret ps

/-- The `while` loop of `parseline`. -/
def parsebacks (mem : Mem) (es : Nat) : Nat → Cmd Span → Nat → Parsed
  | 0, _, _ => .error .fuel
  | n + 1, cmd, ps =>
    let (ps, more) := peek mem es ps (bytes "&")
    if more then parsebacks mem es n (.back cmd) (gettoken mem es ps).ps
    else .ok (cmd, ps)

mutual

def parseline (mem : Mem) (es : Nat) : Nat → Nat → Parsed
  | 0, _ => .error .fuel
  | n + 1, ps => do
    let (cmd, ps) ← parsepipe mem es n ps
    let (cmd, ps) ← parsebacks mem es n cmd ps
    let (ps, more) := peek mem es ps (bytes ";")
    if more then
      let (right, ps) ← parseline mem es n (gettoken mem es ps).ps
      return (.list cmd right, ps)
    else
      return (cmd, ps)

def parsepipe (mem : Mem) (es : Nat) : Nat → Nat → Parsed
  | 0, _ => .error .fuel
  | n + 1, ps => do
    let (cmd, ps) ← parseexec mem es n ps
    let (ps, more) := peek mem es ps (bytes "|")
    if more then
      let (right, ps) ← parsepipe mem es n (gettoken mem es ps).ps
      return (.pipe cmd right, ps)
    else
      return (cmd, ps)

def parseblock (mem : Mem) (es : Nat) : Nat → Nat → Parsed
  | 0, _ => .error .fuel
  | n + 1, ps => do
    let (ps, opened) := peek mem es ps (bytes "(")
    if !opened then
      throw (.panic "parseblock")
    let (cmd, ps) ← parseline mem es n (gettoken mem es ps).ps
    let (ps, closed) := peek mem es ps (bytes ")")
    if !closed then
      throw (.panic "syntax - missing )")
    parseredirs mem es n cmd (gettoken mem es ps).ps

def parseexec (mem : Mem) (es : Nat) : Nat → Nat → Parsed
  | 0, _ => .error .fuel
  | n + 1, ps => do
    let (ps, opened) := peek mem es ps (bytes "(")
    if opened then
      parseblock mem es n ps
    else
      let (ret, ps) ← parseredirs mem es n (.exec []) ps
      parseargs mem es n 0 ret ps

end

/-! ### NUL-termination -/

def nulterminate (mem : Mem) : Cmd Span → Mem
  | .exec argv => argv.foldl (fun mem w => Function.update mem w.eq 0) mem
  | .redir cmd file _ _ => Function.update (nulterminate mem cmd) file.eq 0
  | .pipe left right => nulterminate (nulterminate mem left) right
  | .list left right => nulterminate (nulterminate mem left) right
  | .back cmd => nulterminate mem cmd

/-- The string at `q`, of at most `n` characters. -/
def cstr (mem : Mem) : Nat → Nat → List UInt8
  | 0, _ => []
  | n + 1, q => if mem q = 0 then [] else mem q :: cstr mem n (q + 1)

namespace CString

/-- The memory that holds the line. -/
def mem (line : CString) : Mem := fun i => line.chars.getD i 0

def es (line : CString) : Nat := line.chars.length

end CString

/-- The tree, and the memory in which its words are terminated. -/
def parsecmd (line : CString) : Except ParseError (Mem × Cmd Span) := do
  let (cmd, s) ← parseline line.mem line.es (4 * (line.es + 1)) 0
  if (peek line.mem line.es s []).1 ≠ line.es then
    throw (.panic "syntax")
  return (nulterminate line.mem cmd, cmd)

/-- What the words of the tree read as. -/
def Cmd.strings (mem : Mem) (es : Nat) (cmd : Cmd Span) : Cmd (List UInt8) :=
  cmd.map fun w => cstr mem es w.q

end Sh
