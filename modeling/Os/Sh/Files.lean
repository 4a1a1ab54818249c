/-
The files behind the redirections of a simple command: `open` and `write` on what they hold.

Such a command is run by one process, so the offset of an open file is kept with its descriptor.
-/
import Os.Sh.Runcmd

namespace Sh

variable {α β : Type} [DecidableEq α]

/-- The descriptors of a process, and what the files hold. -/
structure Holder (α β : Type) where
  table : Table α β
  offset : Nat → Nat
  disk : α → Option (List UInt8)

namespace Holder

/-- `open(file, mode)`; neither mode has `O_TRUNC` or `O_APPEND`. -/
def openFile (nofile : Nat) (s : Holder α β) (file : α) (mode : OpenMode) :
    Option (Holder α β) := do
  let n ← s.table.lowest nofile
  let disk ← match mode with
    | .rdonly => if (s.disk file).isSome then some s.disk else none
    | .wronlyCreat => some (Function.update s.disk file (some ((s.disk file).getD [])))
  return ⟨Function.update s.table n (some (.named file mode)), Function.update s.offset n 0, disk⟩

/-- The calls that `runcmd` makes for a redirection. -/
def instr (nofile : Nat) (s : Holder α β) : Instr α → Option (Holder α β)
  | .op (.close (.num n)) => some { s with table := s.table.close n }
  | .openFile file mode => s.openFile nofile file mode
  | _ => none

/-- `runcmd` of a simple command with redirections, up to its `exec`. -/
def runcmd (nofile : Nat) : Cmd α → Path → Holder α β → Option (Holder α β × List α)
  | .exec argv, _, s => some (s, argv)
  | .redir cmd file mode fd, π, s => do
    let s ← ((Sh.runcmd π (.redir cmd file mode fd)).take 2).foldlM (instr nofile) s
    runcmd nofile cmd (π ++ [.cmd]) s
  | _, _, _ => none

/-- `write(fd, b, n)` to a file, which is never past its end. -/
def write (fd : Nat) (s : Holder α β) (b : List UInt8) : Holder α β :=
  match s.table fd with
  | some (.named file .wronlyCreat) =>
    let old := (s.disk file).getD []
    { s with
      disk := Function.update s.disk file
        (some (old.take (s.offset fd) ++ b ++ old.drop (s.offset fd + b.length)))
      offset := Function.update s.offset fd (s.offset fd + b.length) }
  | _ => s

end Holder

end Sh
