/-
Running a command: `runcmd` of `sh.c`, in the processes that call it.

`runcmd` never returns, and what it does up to there is a fixed sequence of system calls, with a
child that starts elsewhere after a `fork`.  So the code a process has left to run is a list of
instructions, and calling `runcmd` replaces it by the instructions for that command.  A pointer to a
command is the path to it in the tree.  The two shells of the repository differ in how `exec` looks
for the program and in what they pass to `wait`, neither of which matters here.

Each process has its own descriptors.  `open`, `dup` and `pipe` take the lowest numbers that are
free, and `nofile` is how many there are.  Which process goes on next, whether a call fails that may
fail, and which child a `wait` returns, is not up to the shell: a step is given that as a `Choice`.
-/
import Os.Lib.Pool
import Os.Sh.Parse

namespace Sh

open Procs

variable {α β : Type}

/-! ### Commands by their place in the tree -/

/-- The pointers to other commands. -/
inductive Field
  | cmd
  | left
  | right
  deriving DecidableEq

abbrev Path := List Field

def Cmd.field : Cmd α → Field → Option (Cmd α)
  | .redir cmd _ _ _, .cmd => some cmd
  | .back cmd, .cmd => some cmd
  | .pipe left _, .left => some left
  | .pipe _ right, .right => some right
  | .list left _, .left => some left
  | .list _ right, .right => some right
  | _, _ => none

/-- The command at the end of a path. -/
def Cmd.get : Cmd α → Path → Option (Cmd α)
  | c, [] => some c
  | c, f :: π => (c.field f).bind fun c => c.get π

/-! ### Descriptors -/

/-- What a descriptor stands for: something the shell was given, a file, or an end of a pipe. -/
inductive File (α β : Type)
  | given (x : β)
  | named (file : α) (mode : OpenMode)
  | readEnd (pipe : Nat)
  | writeEnd (pipe : Nat)
  deriving DecidableEq

abbrev Table (α β : Type) := Nat → Option (File α β)

namespace Table

/-- The lowest number that is free. -/
def lowest (nofile : Nat) (t : Table α β) : Option Nat :=
  (List.range nofile).find? fun n => (t n).isNone

def close (t : Table α β) (n : Nat) : Table α β := Function.update t n none

/-- `dup`; the shell does not look at what it returns. -/
def dup (nofile : Nat) (t : Table α β) (n : Nat) : Table α β :=
  match t n, t.lowest nofile with
  | some f, some m => Function.update t m (some f)
  | _, _ => t

def opened (nofile : Nat) (t : Table α β) (f : File α β) : Option (Table α β) :=
  match t.lowest nofile with
  | none => none
  | some n => some (Function.update t n (some f))

/-- `pipe(p)` for the pipe `k`: `p[0]`, `p[1]` and the table. -/
def pipe (nofile : Nat) (t : Table α β) (k : Nat) : Option (Nat × Nat × Table α β) :=
  match t.lowest nofile with
  | none => none
  | some n =>
    let t : Table α β := Function.update t n (some (.readEnd k))
    match lowest nofile t with
    | none => none
    | some m => some (n, m, Function.update t m (some (.writeEnd k)))

end Table

/-! ### The code -/

/-- A descriptor in the code: a number, `p[0]` or `p[1]`. -/
inductive Fd
  | num (n : Nat)
  | p0
  | p1
  deriving DecidableEq

/-- What a child does before it calls `runcmd`. -/
inductive Op
  | close (fd : Fd)
  | dup (fd : Fd)
  deriving DecidableEq

inductive Instr (α : Type)
  | op (o : Op)
  /-- `if(open(file, mode) < 0) exit();` -/
  | openFile (file : α) (mode : OpenMode)
  /-- `if(pipe(p) < 0) panic("pipe");` -/
  | pipe
  /-- `if(fork1() == 0) ... runcmd(cmd);` -/
  | fork (setup : List Op) (cmd : Path)
  | wait
  /-- `runcmd(cmd);` -/
  | run (cmd : Path)
  | exec (argv : List α)
  | exit
  deriving DecidableEq

/-- `runcmd` of the command `c`, which is at `π`. -/
def runcmd (π : Path) : Cmd α → List (Instr α)
  | .exec argv => if argv = [] then [.exit] else [.exec argv, .exit]
  | .redir _ file mode fd =>
    [.op (.close (.num fd)), .openFile file mode, .run (π ++ [.cmd]), .exit]
  | .list _ _ => [.fork [] (π ++ [.left]), .wait, .run (π ++ [.right]), .exit]
  | .pipe _ _ =>
    [.pipe,
      .fork [.close (.num 1), .dup .p1, .close .p0, .close .p1] (π ++ [.left]),
      .fork [.close (.num 0), .dup .p0, .close .p0, .close .p1] (π ++ [.right]),
      .op (.close .p0), .op (.close .p1), .wait, .wait, .exit]
  | .back _ => [.fork [] (π ++ [.cmd]), .exit]

/-! ### Processes -/

inductive Status (α : Type)
  /-- In `runcmd`, with this code to go. -/
  | shell (code : List (Instr α))
  /-- Running the program of a simple command. -/
  | program (argv : List α)
  | exited
  deriving DecidableEq

/-- A process but for the code it has to go. -/
structure Frame (α β : Type) where
  table : Table α β
  p0 : Nat
  p1 : Nat
  /-- The children it has not waited for. -/
  kids : List Nat
  /-- The argument of `runcmd`. -/
  cmd : Path

structure Proc (α β : Type) extends Frame α β where
  status : Status α

/-- What has happened so far. -/
structure World where
  /-- The `PIPE` commands that have made their pipe, with the number of the pipe. -/
  pipes : List (Path × Nat)
  /-- The commands a process was forked for, with the process. -/
  forks : List (Path × Nat)
  exited : List Nat

abbrev Sys (α β : Type) := Pool World (Proc α β)

/-- What the rest of the world decides in a step. -/
structure Choice where
  fails : Bool
  child : Nat

def Frame.fd (p : Frame α β) : Fd → Nat
  | .num n => n
  | .p0 => p.p0
  | .p1 => p.p1

/-- The table after a `close` or `dup`. -/
def Frame.apply (nofile : Nat) (p : Frame α β) (t : Table α β) : Op → Table α β
  | .close fd => t.close (p.fd fd)
  | .dup fd => t.dup nofile (p.fd fd)

/-- `exit` closes all descriptors. -/
def exit (s : Sys α β) (a : Nat) (p : Proc α β) : Sys α β :=
  s.move a { s.shared with exited := a :: s.shared.exited }
    { p with table := fun _ => none, status := .exited }

/-- One instruction of process `a`, with the code `k` to follow. -/
def instr (nofile : Nat) (tree : Cmd α) (s : Sys α β) (a : Nat) (p : Proc α β) (x : Choice)
    (k : List (Instr α)) : Instr α → Option (Sys α β)
  | .op o =>
    some (s.move a s.shared { p with table := p.apply nofile p.table o, status := .shell k })
  | .openFile file mode =>
    match (if x.fails then none else p.table.opened nofile (.named file mode)) with
    | none => some (exit s a p)
    | some t => some (s.move a s.shared { p with table := t, status := .shell k })
  | .pipe =>
    match (if x.fails then none else p.table.pipe nofile s.shared.pipes.length) with
    | none => some (exit s a p)
    | some (n, m, t) =>
      let g := { s.shared with pipes := (p.cmd, s.shared.pipes.length) :: s.shared.pipes }
      some (s.move a g { p with table := t, p0 := n, p1 := m, status := .shell k })
  | .fork setup cmd =>
    if x.fails then some (exit s a p)
    else
      let g := { s.shared with forks := (cmd, s.next) :: s.shared.forks }
      let child := { p with kids := [], status := .shell (setup.map .op ++ [.run cmd]) }
      some ((s.move a g { p with kids := s.next :: p.kids, status := .shell k }).spawn child)
  | .wait =>
    if p.kids = [] then some (s.move a s.shared { p with status := .shell k })
    else if x.child ∈ p.kids ∧ x.child ∈ s.shared.exited then
      some (s.move a s.shared { p with kids := p.kids.erase x.child, status := .shell k })
    else none
  | .run cmd =>
    match tree.get cmd with
    | none => none
    | some c => some (s.move a s.shared { p with cmd := cmd, status := .shell (runcmd cmd c) })
  | .exec argv =>
    if x.fails then some (s.move a s.shared { p with status := .shell k })
    else some (s.move a s.shared { p with status := .program argv })
  | .exit => some (exit s a p)

/-- A step of process `a`.  A program ends when it likes. -/
def step (nofile : Nat) (tree : Cmd α) (s : Sys α β) (x : Nat × Choice) : Option (Sys α β) :=
  match s.procs x.1 with
  | none => none
  | some p =>
    match p.status with
    | .shell [] => none
    | .shell (i :: k) => instr nofile tree s x.1 p x.2 k i
    | .program _ => some (exit s x.1 p)
    | .exited => none

/-- One process that is about to run the whole tree, with the descriptors `t`. -/
def start (t : Nat → Option β) : Sys α β where
  shared := { pipes := [], forks := [], exited := [] }
  procs a :=
    if a = 0 then
      some
        { table := fun n => (t n).map .given, p0 := 0, p1 := 0, kids := [], cmd := []
          status := .shell [.run []] }
    else none
  next := 1

end Sh
