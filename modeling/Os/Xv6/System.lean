/-
The kernel as a machine: what processes can make it do.

A process loads and stores at any address and makes system calls with any stack pointer,
which the trap saves and the call reads its arguments through.  A file may hold anything
at the time it is executed.
-/
import Os.Xv6.Syscall

namespace Xv6

variable {M : Machine}

def unusedProc : Proc M :=
  ⟨0, none, none, .unused, 0, none, ⟨0, 0, 0⟩, false, fun _ => none, []⟩

/-! ### What processes do -/

inductive Call
  | fork
  | exit
  | wait
  | pipe
  | exec (fs : List Byte → Option (List Byte))
  | sbrk
  | close

inductive Op
  /-- A load, or a store of a byte, in user mode. -/
  | access (k : ProcIdx) (va : Word) (b : Option Byte)
  /-- A system call with the stack pointer at `esp`. -/
  | call (k : ProcIdx) (esp : Word) (c : Call)

/-- The process can run. -/
def Proc.Ready (p : Proc M) : Prop := p.state = .runnable ∨ p.state = .running

instance (p : Proc M) : Decidable p.Ready := inferInstanceAs (Decidable (_ ∨ _))

/-- The call's result goes to `eax`. -/
def Kernel.ret (s : Kernel M) (k : ProcIdx) (w : Word) : Kernel M :=
  s.setProc k { s.procs k with tf := { (s.procs k).tf with eax := w } }

def returning (k : ProcIdx) (r : Option (Word × Kernel M)) : Option (Kernel M) :=
  r.map fun r => r.2.ret k r.1

def syscall (K : Linker M) (s : Kernel M) (k : ProcIdx) : Call → Option (Kernel M)
  | .fork => returning k (fork K s k)
  | .exit => exit K s k
  | .wait => (wait K s k).map fun r =>
    match r.1 with
    | none => r.2
    | some w => r.2.ret k w
  | .pipe => returning k (sysPipe K s k)
  | .exec fs => returning k (sysExec K fs s k)
  | .sbrk => returning k (sysSbrkCall s k)
  | .close => returning k (sysClose K s k)

/-- An access in user mode.  A process whose fault cannot be dealt with is killed. -/
def userAccess (K : Linker M) (s : Kernel M) (k : ProcIdx) (va : Word) (b : Option Byte) :
    Option (Kernel M) :=
  match (s.procs k).pgdir with
  | none => none
  | some pgdir =>
    match access pgdir va true b.isSome (M.npages + 1) s.km with
    | none => none
    | some (none, m) => exit K ({ s with km := m }.setProc k { s.procs k with killed := true }) k
    | some (some a, m) =>
      match b with
      | none => some { s with km := m }
      | some b => some { s with km := m.storeByte a.1 a.2 b }

def step (K : Linker M) (s : Kernel M) : Op → Option (Kernel M)
  | .access k va b => if (s.procs k).Ready then userAccess K s k va b else none
  | .call k esp c =>
    if (s.procs k).Ready then
      syscall K (s.setProc k { s.procs k with tf := { (s.procs k).tf with esp := esp } }) k c
    else none

end Xv6
