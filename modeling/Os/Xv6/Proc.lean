/-
Processes, open files and the size of a process: `proc.h`, `file.h`, `proc.c`.

A `struct proc` keeps the fields that memory management, the process tree and the open
files use.  Saved registers are those some function here reads or sets.
-/
import Os.Xv6.Vm

namespace Xv6

variable {M : Machine}

inductive ProcState
  | unused
  | embryo
  | sleeping
  | runnable
  | running
  | zombie
  deriving DecidableEq

/-- A process that runs, can run or waits for something. -/
def ProcState.alive : ProcState → Bool
  | .sleeping | .runnable | .running => true
  | _ => false

structure Trapframe where
  eax : Word
  eip : Word
  esp : Word
  deriving DecidableEq

structure Proc (M : Machine) where
  sz : Word
  pgdir : Option (Ppn M)
  kstack : Option (Ppn M)
  state : ProcState
  pid : Word
  parent : Option ProcIdx
  tf : Trapframe
  killed : Bool
  ofile : Fd → Option FileIdx
  name : List Byte

/-- Grows or shrinks a process by `n` bytes; `false` is the result -1. -/
def growproc (K : Linker M) (m : Kmem M) (p : Proc M) (n : Word) :
    Option (Bool × Kmem M × Proc M) :=
  match p.pgdir with
  | none => none
  | some pgdir =>
    if (0 : Word).slt n then
      match allocuvm K m pgdir p.sz (p.sz + n) with
      | none => none
      | some (sz, m) => if sz = 0 then some (false, m, p) else some (true, m, { p with sz := sz })
    else if n.slt 0 then
      match deallocuvm K m pgdir p.sz (p.sz + n) with
      | none => none
      | some (sz, m) => if sz = 0 then some (false, m, p) else some (true, m, { p with sz := sz })
    else some (true, m, p)

/-! ### `sysproc.c` -/

/-- The size changes and nothing else: pages come with the first access. -/
def sysSbrk (p : Proc M) (n : Word) : Word × Proc M := (p.sz, { p with sz := p.sz + n })

/-- No lazy page allocation. -/
def oldSysSbrk (K : Linker M) (m : Kmem M) (p : Proc M) (n : Word) :
    Option (Word × Kmem M × Proc M) :=
  match growproc K m p n with
  | none => none
  | some (false, m, p) => some (-1, m, p)
  | some (true, m, p') => some (p.sz, m, p')

end Xv6
