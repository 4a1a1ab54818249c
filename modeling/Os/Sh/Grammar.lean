/-
The grammar of the shell.

    line  := pipe '&'* [';' line]
    pipe  := exec ['|' pipe]
    exec  := '(' line ')' redir* | redir* (word redir*)*
    redir := ('<' | '>' | '>>') word

`tokens` says what the tokens of a line are, and the three relations which token lists a
nonterminal derives, each with the tree of the derivation.  Nothing here is computed by the
parser: `Proofs/Sh/Parse.lean` compares the two.
-/
import Mathlib.Logic.Function.Iterate
import Os.Sh.Parse

namespace Sh

inductive RedirOp
  | lt
  | gt
  | gtgt
  deriving DecidableEq

inductive Token
  | redir (op : RedirOp)
  | bar
  | amp
  | semi
  | lparen
  | rparen
  | word (text : List UInt8)
  deriving DecidableEq

/-- The tokens of one character that no other token starts with. -/
def symbolToken (c : UInt8) : Option Token :=
  if c = char '<' then some (.redir .lt)
  else if c = char '|' then some .bar
  else if c = char '&' then some .amp
  else if c = char ';' then some .semi
  else if c = char '(' then some .lparen
  else if c = char ')' then some .rparen
  else none

def isWord (c : UInt8) : Bool := !whitespace.contains c && !symbols.contains c

/-- The tokens of a text. -/
def tokens : List UInt8 → List Token
  | [] => []
  | c :: cs =>
    if whitespace.contains c then tokens cs
    else if c = char '>' then
      if cs.head? = some (char '>') then .redir .gtgt :: tokens cs.tail
      else .redir .gt :: tokens cs
    else
      match symbolToken c with
      | some t => t :: tokens cs
      | none => .word (c :: cs.takeWhile isWord) :: tokens (cs.dropWhile isWord)
  termination_by l => l.length
  decreasing_by
    · simp
    · simp only [List.length_tail, List.length_cons]
      omega
    · simp
    · simp
    · have := (List.dropWhile_sublist isWord (l := cs)).length_le
      simp only [List.length_cons]
      omega

/-- A redirection and its file. -/
structure Redir where
  op : RedirOp
  file : List UInt8

def Redir.tokens (r : Redir) : List Token := [.redir r.op, .word r.file]

def Redir.wrap (cmd : Cmd (List UInt8)) (r : Redir) : Cmd (List UInt8) :=
  match r.op with
  | .lt => .redir cmd r.file .rdonly 0
  | .gt => .redir cmd r.file .wronlyCreat 1
  | .gtgt => .redir cmd r.file .wronlyCreat 1

/-- Redirections are wrapped outside the command in order of appearance. -/
def wrap (cmd : Cmd (List UInt8)) (rs : List Redir) : Cmd (List UInt8) := rs.foldl Redir.wrap cmd

/-- A word of a simple command with the redirections after it. -/
structure Arg where
  word : List UInt8
  redirs : List Redir

def Arg.tokens (a : Arg) : List Token := .word a.word :: a.redirs.flatMap Redir.tokens

mutual

inductive Line : List Token → Cmd (List UInt8) → Prop
  | last {ts c} (k : Nat) : Pipe ts c → Line (ts ++ List.replicate k .amp) (Cmd.back^[k] c)
  | list {ts c us d} (k : Nat) : Pipe ts c → Line us d →
    Line (ts ++ (List.replicate k .amp ++ .semi :: us)) (.list (Cmd.back^[k] c) d)

inductive Pipe : List Token → Cmd (List UInt8) → Prop
  | last {ts c} : Exec ts c → Pipe ts c
  | pipe {ts c us d} : Exec ts c → Pipe us d → Pipe (ts ++ .bar :: us) (.pipe c d)

inductive Exec : List Token → Cmd (List UInt8) → Prop
  | block {ts c} (rs : List Redir) : Line ts c →
    Exec (.lparen :: (ts ++ .rparen :: rs.flatMap Redir.tokens)) (wrap c rs)
  | simple (rs : List Redir) (args : List Arg) : args.length < maxargs →
    Exec (rs.flatMap Redir.tokens ++ args.flatMap Arg.tokens)
      (wrap (.exec (args.map Arg.word)) (rs ++ args.flatMap Arg.redirs))

end

end Sh
