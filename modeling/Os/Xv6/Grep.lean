/-
The user program `grep`: `grep.c`.

A C string is the list of its bytes before the NUL.  `read` gives the input in pieces, and what is
left of the last line stays in the buffer for the next one.
-/
import Mathlib.Data.List.Basic

namespace Grep

def star : UInt8 := '*'.toUInt8
def dot : UInt8 := '.'.toUInt8
def caret : UInt8 := '^'.toUInt8
def dollar : UInt8 := '$'.toUInt8
def newline : UInt8 := '\n'.toUInt8

/-! ### The matcher -/

/-- `*text != '\0' && (c == '.' || c == *text)`, and then the rest. -/
def matchone (c : UInt8) (rest : List UInt8 → Bool) : List UInt8 → Bool
  | [] => false
  | t :: text => (c = dot || c = t) && rest text

/-- `matchstar(c, re, text)`, where `here` is `matchhere(re, ·)`. -/
def matchstar (c : UInt8) (here : List UInt8 → Bool) : List UInt8 → Bool
  | [] => here []
  | t :: text => here (t :: text) || (t = c || c = dot) && matchstar c here text

def matchhere : List UInt8 → List UInt8 → Bool
  | [], _ => true
  | [c], text => if c = dollar then text.isEmpty else matchone c (matchhere []) text
  | c :: d :: re, text =>
    if d = star then matchstar c (matchhere re) text else matchone c (matchhere (d :: re)) text

/-- The loop of `match`. -/
def matchLoop (re : List UInt8) : List UInt8 → Bool
  | [] => matchhere re []
  | t :: text => matchhere re (t :: text) || matchLoop re text

/-- `match` -/
def matchText (re text : List UInt8) : Bool :=
  match re with
  | c :: re' => if c = caret then matchhere re' text else matchLoop re text
  | [] => matchLoop re text

/-! ### Lines -/

/-- The inner loop of `grep`: what is written, and `p` at its end.  `line` is what `strchr` has
passed since `p`; it stops at a NUL too. -/
def grepLines (pattern : List UInt8) : List UInt8 → List UInt8 → List UInt8 × List UInt8
  | line, [] => ([], line)
  | line, c :: cs =>
    if c = 0 then ([], line ++ c :: cs)
    else if c = newline then
      let (out, p) := grepLines pattern [] cs
      ((if matchText pattern line then line ++ [newline] else []) ++ out, p)
    else grepLines pattern (line ++ [c]) cs

/-- `grep`, with the first bytes of `buf` and what each `read` brings. -/
def grep (pattern : List UInt8) : List UInt8 → List (List UInt8) → List UInt8
  | _, [] => []
  | buf, chunk :: chunks =>
    let (out, p) := grepLines pattern [] (buf ++ chunk)
    out ++ grep pattern (if p.length = (buf ++ chunk).length then [] else p) chunks

end Grep
