/-
Processes that change their size, use their memory, execute programs and fork.

Beside the process table this has what else `fork` copies: the working directories with the
references the inode cache counts, and the saved registers that no function here reads.  The
arguments of a call have been fetched.  A file may hold anything at the time it is executed.  A
process that is killed is not followed any further.
-/
import Os.Xv6.Inode
import Os.Xv6.Lazy
import Os.Xv6.System

namespace Xv6

variable {M : Machine}

/-- The fields of a `struct trapframe` besides `eax`, `eip` and `esp`. -/
inductive Reg
  | edi | esi | ebp | oesp | ebx | edx | ecx | gs | fs | es | ds | trapno | err | cs | eflags | ss
  deriving DecidableEq

structure Tasks (M : Machine) where
  kern : Kernel M
  /-- `p->cwd`. -/
  cwd : ProcIdx → Option InodePtr
  /-- `icache.inode[].ref`. -/
  iref : InodePtr → Nat
  regs : ProcIdx → Reg → Word

/-- What `fork` does to the child besides: it copies the registers and takes a reference to the
working directory, with `idup`. -/
def Tasks.inherit (s : Tasks M) (kern : Kernel M) (cur np : ProcIdx) (ip : InodePtr) : Tasks M where
  kern := kern
  cwd := Function.update s.cwd np (some ip)
  iref := Function.update s.iref ip (s.iref ip + 1)
  regs := Function.update s.regs np (s.regs cur)

/-- `fork`, with all it copies.  The child is in the slot that `allocproc` has found, if it could
be made. -/
def forkTask (K : Linker M) (s : Tasks M) (cur : ProcIdx) : Option (Word × Tasks M) :=
  match (allocproc s.kern).1, fork K s.kern cur with
  | _, none => none
  | none, some (r, kern) => some (r, { s with kern := kern })
  | some np, some (r, kern) =>
    if (kern.procs np).state = .runnable then
      (s.cwd cur).map fun ip => (r, s.inherit kern cur np ip)
    else some (r, { s with kern := kern })

inductive TaskAct
  | sbrk (k : ProcIdx) (n : Word)
  /-- A load, or a store of a byte, in user mode. -/
  | access (k : ProcIdx) (va : Word) (b : Option Byte)
  /-- `exec` of the program in `file`. -/
  | exec (k : ProcIdx) (file : Option (List Byte)) (path : List Byte) (argv : List (List Byte))
  | fork (k : ProcIdx)

/-- An access that is granted. -/
def touch (m : Kmem M) (pgdir : Ppn M) (va : Word) (b : Option Byte) : Option (Kmem M) :=
  match access pgdir va true b.isSome (M.npages + 1) m with
  | some (some a, m) => some (perform m a b).2
  | _ => none

def Tasks.ret (s : Tasks M) (k : ProcIdx) (w : Word) : Tasks M := { s with kern := s.kern.ret k w }

def taskStep (K : Linker M) (s : Tasks M) : TaskAct → Option (Tasks M)
  | .sbrk k n =>
    if (s.kern.procs k).Ready then
      let r := sysSbrk (s.kern.procs k) n
      some ({ s with kern := s.kern.setProc k r.2 }.ret k r.1)
    else none
  | .access k va b =>
    if (s.kern.procs k).Ready then
      ((s.kern.procs k).pgdir.bind fun pgdir => touch s.kern.km pgdir va b).map fun m =>
        { s with kern := { s.kern with km := m } }
    else none
  | .exec k file path argv =>
    if (s.kern.procs k).Ready then
      (exec K s.kern.km (s.kern.procs k) file path argv).map fun r =>
        { s with kern := { s.kern with km := r.2.1 }.setProc k r.2.2 }.ret k (if r.1 then 0 else -1)
    else none
  | .fork k =>
    if (s.kern.procs k).Ready then (forkTask K s k).map fun r => r.2.ret k r.1 else none

end Xv6
