/-
The system-call stubs of the user library: `lib/syscall.c`, and `sys_exofork` of
`inc/lib.h`.

A stub loads registers, executes `int $T_SYSCALL`, and takes its value from `%eax`
when the program goes on.  On the other side of the interrupt is a function of
`kern/syscall.c` of the same name.  `Stub.invoke` is that function called directly,
with the arguments of the stub, which is what the registers, `trap_dispatch` and the
switch of `syscall` are to bring about between them.
-/
import Os.Jos.Syscall

namespace Jos

/-- A call of a stub, with its arguments. -/
inductive Stub
  | cputs (s len : Word)
  | cgetc
  | envDestroy (envid : Word)
  | getenvid
  | yield
  | pageAlloc (envid va perm : Word)
  | pageMap (srcenv srcva dstenv dstva perm : Word)
  | pageUnmap (envid va : Word)
  | exofork
  | envSetStatus (envid status : Word)
  | envSetPgfaultUpcall (envid upcall : Word)
  | ipcTrySend (envid value srcva perm : Word)
  | ipcRecv (dstva : Word)
  deriving DecidableEq

/-- The registers at the `int` instruction of the inline assembly in `syscall`. -/
def syscallRegs (r : PushRegs) (num a1 a2 a3 a4 a5 : Word) : PushRegs :=
  { r with regEax := num, regEdx := a1, regEcx := a2, regEbx := a3, regEdi := a4, regEsi := a5 }

/-- The registers at the `int` instruction, `r` being what the program had in them before. -/
def Stub.regs (r : PushRegs) : Stub → PushRegs
  | .cputs s len => syscallRegs r sysNoCputs s len 0 0 0
  | .cgetc => syscallRegs r sysNoCgetc 0 0 0 0 0
  | .envDestroy envid => syscallRegs r sysNoEnvDestroy envid 0 0 0 0
  | .getenvid => syscallRegs r sysNoGetenvid 0 0 0 0 0
  | .yield => syscallRegs r sysNoYield 0 0 0 0 0
  | .pageAlloc envid va perm => syscallRegs r sysNoPageAlloc envid va perm 0 0
  | .pageMap srcenv srcva dstenv dstva perm =>
    syscallRegs r sysNoPageMap srcenv srcva dstenv dstva perm
  | .pageUnmap envid va => syscallRegs r sysNoPageUnmap envid va 0 0 0
  -- the inlined stub loads the number only
  | .exofork => { r with regEax := sysNoExofork }
  | .envSetStatus envid status => syscallRegs r sysNoEnvSetStatus envid status 0 0 0
  | .envSetPgfaultUpcall envid upcall =>
    syscallRegs r sysNoEnvSetPgfaultUpcall envid upcall 0 0 0
  | .ipcTrySend envid value srcva perm => syscallRegs r sysNoIpcTrySend envid value srcva perm 0
  | .ipcRecv dstva => syscallRegs r sysNoIpcRecv dstva 0 0 0 0

/-- The argument `check` of `syscall`. -/
def Stub.check : Stub → Bool
  | .envDestroy .. | .pageAlloc .. | .pageMap .. | .pageUnmap .. | .envSetStatus ..
  | .envSetPgfaultUpcall .. | .ipcRecv .. => true
  | .cputs .. | .cgetc | .getenvid | .yield | .exofork | .ipcTrySend .. => false

/-- The end of `syscall`: a positive value where there should be none is a panic. -/
def Stub.receive (st : Stub) (eax : Word) : Option Int :=
  if st.check = true ∧ 0 < eax.toInt then none else some eax.toInt

variable {M : Machine}

/-- The kernel function of the same name.  Those without a value count as returning 0. -/
def Stub.invoke (s : Kern M) (c : CpuIdx) (o : Outside) : Stub → Option (Flow M Int)
  | .cputs str len => sysCputs s c o str len
  | .cgetc => some (.ret o.consGetc s)
  | .envDestroy envid => sysEnvDestroy s c envid
  | .getenvid => (sysGetenvid s c).map fun id => .ret id.toInt s
  | .yield => sysYield s c
  | .pageAlloc envid va perm => returns (sysPageAlloc s c envid va perm)
  | .pageMap srcenv srcva dstenv dstva perm =>
    returns (sysPageMap s c srcenv srcva dstenv dstva perm)
  | .pageUnmap envid va => returns (sysPageUnmap s c envid va)
  | .exofork => returns (sysExofork s c)
  | .envSetStatus envid status => returns (sysEnvSetStatus s c envid status)
  | .envSetPgfaultUpcall envid func => returns (sysEnvSetPgfaultUpcall s c envid func)
  -- `panic("... not implemented")`
  | .ipcTrySend .. | .ipcRecv .. => none

/-- The kernel function has a body. -/
def Stub.implemented : Stub → Bool
  | .ipcTrySend .. | .ipcRecv .. => false
  | _ => true

end Jos
