/-
The return from a user page fault: `lib/pfentry.S`.

The kernel starts `_pgfault_upcall` with `%esp` pointing at the `struct UTrapframe` it
has pushed.  The instructions are executed here one by one on a processor in user mode,
whose address space is a flat memory of bytes.  Instructions are taken from a list, not
fetched, so `%eip` only matters where `call` and `ret` move it.

The C handler is whatever it is.  What the calling convention promises of a function
that has returned is `CHandler`.
-/
import Os.Jos.Syscall
import Os.Lib.Bytes

namespace Jos

open Bytes

/-- A processor in user mode. -/
structure User where
  edi : Word
  esi : Word
  ebp : Word
  ebx : Word
  edx : Word
  ecx : Word
  eax : Word
  esp : Word
  eip : Word
  eflags : Word
  mem : Mem

/-- The instructions `_pgfault_upcall` is made of. -/
inductive Instr
  /-- `pushl %esp` -/
  | pushEsp
  /-- `movl a, %eax` -/
  | movEax (a : Word)
  /-- `call *%eax`, with the address of the instruction after it -/
  | callEax (next : Word)
  /-- `addl $n, %esp` -/
  | addEsp (n : Word)
  /-- `movl disp(%esp), %eax` -/
  | loadEax (disp : Word)
  /-- `movl disp(%esp), %edx` -/
  | loadEdx (disp : Word)
  /-- `subl $n, disp(%esp)` -/
  | subMem (n disp : Word)
  /-- `movl %eax, (%edx)` -/
  | storeEax
  | popal
  | popfl
  /-- `popl %esp` -/
  | popEsp
  | ret

/-- One instruction.  `alu` is how arithmetic sets the flags, from the old ones and the result. -/
def exec (alu : Word → Word → Word) (u : User) : Instr → User
  | .pushEsp => { u with esp := u.esp - 4, mem := write32 u.mem (u.esp - 4) u.esp }
  | .movEax a => { u with eax := read32 u.mem a }
  | .callEax next =>
    { u with esp := u.esp - 4, mem := write32 u.mem (u.esp - 4) next, eip := u.eax }
  | .addEsp n => { u with esp := u.esp + n, eflags := alu u.eflags (u.esp + n) }
  | .loadEax disp => { u with eax := read32 u.mem (u.esp + disp) }
  | .loadEdx disp => { u with edx := read32 u.mem (u.esp + disp) }
  | .subMem n disp =>
    let w := read32 u.mem (u.esp + disp) - n
    { u with mem := write32 u.mem (u.esp + disp) w, eflags := alu u.eflags w }
  | .storeEax => { u with mem := write32 u.mem u.edx u.eax }
  | .popal =>
    -- the saved `%esp` is passed over
    { u with
      edi := read32 u.mem u.esp
      esi := read32 u.mem (u.esp + 4)
      ebp := read32 u.mem (u.esp + 8)
      ebx := read32 u.mem (u.esp + 16)
      edx := read32 u.mem (u.esp + 20)
      ecx := read32 u.mem (u.esp + 24)
      eax := read32 u.mem (u.esp + 28)
      esp := u.esp + 32 }
  | .popfl => { u with eflags := read32 u.mem u.esp, esp := u.esp + 4 }
  | .popEsp => { u with esp := read32 u.mem u.esp }
  | .ret => { u with eip := read32 u.mem u.esp, esp := u.esp + 4 }

def execAll (alu : Word → Word → Word) (is : List Instr) (u : User) : User :=
  is.foldl (exec alu) u

/-- `_pgfault_upcall` up to the call of the C handler, whose address is in the variable
`_pgfault_handler`; `next` is the address of the instruction after the call. -/
def pgfaultUpcallCall (pgfaultHandler next : Word) : List Instr :=
  [.pushEsp, .movEax pgfaultHandler, .callEax next]

/-- `_pgfault_upcall` after the call. -/
def pgfaultUpcallReturn : List Instr :=
  [.addEsp 4, .loadEax 0x20, .subMem 4 0x28, .loadEdx 0x28, .storeEax, .addEsp 8, .popal,
    .addEsp 4, .popfl, .popEsp, .ret]

/--
A C function that was called in `u` has returned in `v`: to its caller, with the stack
pointer and the registers that are not its to use.  The frame its argument points to is
its caller's, so it is left as it was.
-/
structure CHandler (u v : User) : Prop where
  eip : v.eip = read32 u.mem u.esp
  esp : v.esp = u.esp + 4
  ebx : v.ebx = u.ebx
  esi : v.esi = u.esi
  edi : v.edi = u.edi
  ebp : v.ebp = u.ebp
  frame : ∀ k < 52, v.mem (read32 u.mem (u.esp + 4) + BitVec.ofNat 32 k)
    = u.mem (read32 u.mem (u.esp + 4) + BitVec.ofNat 32 k)

variable {M : Machine}

/-- The processor `env_pop_tf` leaves, or the one a trap frame was saved from. -/
def User.ofTf (tf : Trapframe) (m : Mem) : User where
  edi := tf.tfRegs.regEdi
  esi := tf.tfRegs.regEsi
  ebp := tf.tfRegs.regEbp
  ebx := tf.tfRegs.regEbx
  edx := tf.tfRegs.regEdx
  ecx := tf.tfRegs.regEcx
  eax := tf.tfRegs.regEax
  esp := tf.tfEsp
  eip := tf.tfEip
  eflags := tf.tfEflags
  mem := m

end Jos
