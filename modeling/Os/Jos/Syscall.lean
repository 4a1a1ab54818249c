/-
System calls: `kern/syscall.c`, and the trap path that leads to them.

Every call is made by the current environment of a processor.  `syscall` returns the
value for the caller, or does not return because the processor went on to another
environment; a call that panics or faults is `none`.
-/
import Os.Jos.Trap

namespace Jos

variable {M : Machine}

/-! ### The console -/

/-- What printing a string from user memory comes to. -/
inductive Printed
  | done (out : List (BitVec 8))
  | fault (va : Word)

/--
The loop `for (; (ch = *p++) != '\0' && (precision < 0 || --precision >= 0); ...)` of
`vprintfmt`, with `n` the precision.  The character is read before the precision is
looked at.
-/
def printString (pm : Pmap M) (pgdir : Ppn M) : Nat → Word → Printed
  | n, va =>
    match loadByte pm pgdir va with
    | none => .fault va
    | some ch =>
      if ch = 0 then .done []
      else
        match n with
        | 0 => .done []
        | n + 1 =>
          match printString pm pgdir n (va + 1) with
          | .done out => .done (ch :: out)
          | .fault va => .fault va

/-- A negative precision is no bound: 2^32 characters go once round the address space. -/
def precision (len : Word) : Nat := if len.slt 0 then 2 ^ 32 else len.toNat

/-- The addresses the loop of `printString` reads, in order. -/
def printReads (pm : Pmap M) (pgdir : Ppn M) : Nat → Word → List Word
  | n, va =>
    va ::
      match loadByte pm pgdir va with
      | none => []
      | some ch =>
        if ch = 0 then []
        else
          match n with
          | 0 => []
          | n + 1 => printReads pm pgdir n (va + 1)

/-- The text for a NULL string. -/
def nullText : List (BitVec 8) := [40, 110, 117, 108, 108, 41]

/-- What `cprintf("%.*s", len, s)` reads of the program's memory and puts on the console. -/
structure CputsRun where
  reads : List Word
  printed : Printed

def cputsRun (pm : Pmap M) (pgdir : Ppn M) (str len : Word) : CputsRun :=
  if str = 0 then ⟨[], .done (nullText.take (precision len))⟩
  else ⟨printReads pm pgdir (precision len) str, printString pm pgdir (precision len) str⟩

/-- A page fault in the kernel goes through `trap` to `page_fault_handler` like any other. -/
def kernelFault (s : Kern M) (c : CpuIdx) (o : Outside) (va : Word) : Option (Flow M Int) :=
  match pageFaultHandler s c o.ktf va with
  | some (.left s) => some (.left s)
  | _ => none

def sysCputs (s : Kern M) (c : CpuIdx) (o : Outside) (str len : Word) : Option (Flow M Int) :=
  match s.curenv c with
  | none => none
  | some e =>
    match userMemAssert s c e str len 0 with
    | none => none
    | some (.left s) => some (.left s)
    | some (.ret () s) =>
      -- a NULL string prints "(null)"
      if str = 0 then some (.ret 0 s)
      else
        match (s.envs e).envPgdir with
        | none => none
        | some d =>
          match printString s.pm d (precision len) str with
          | .done _ => some (.ret 0 s)
          | .fault va => kernelFault s c o va

/-! ### Environments -/

/-- `envid2env` with the permission check, for a caller that goes on to use the environment. -/
def lookupEnv (s : Kern M) (c : CpuIdx) (envid : Word) : Option (Except Int EnvIdx) :=
  match envid2env s c envid true with
  | none => none
  | some (r, store) =>
    if r < 0 then some (.error r)
    else
      match store with
      | none => none
      | some e => some (.ok e)

def sysGetenvid (s : Kern M) (c : CpuIdx) : Option Word :=
  match s.curenv c with
  | none => none
  | some k => some (s.envs k).envId

def sysEnvDestroy (s : Kern M) (c : CpuIdx) (envid : Word) : Option (Flow M Int) :=
  match lookupEnv s c envid with
  | none => none
  | some (.error r) => some (.ret r s)
  | some (.ok e) =>
    match envDestroy s c e with
    | none => none
    | some (.left s) => some (.left s)
    | some (.ret () s) => some (.ret 0 s)

def sysYield (s : Kern M) (c : CpuIdx) : Option (Flow M Int) :=
  match schedYield s c with
  | none => none
  | some s => some (.left s)

def sysExofork (s : Kern M) (c : CpuIdx) : Option (Int × Kern M) :=
  match s.curenv c with
  | none => none
  | some k =>
    match envAlloc s (s.envs k).envId with
    | (.error r, s) => some (r, s)
    | (.ok e, s) =>
      let tf := (s.envs k).envTf
      let s := s.modifyEnv e fun v =>
        { v with
          envStatus := .notRunnable
          envTf := { tf with tfRegs := { tf.tfRegs with regEax := 0 } } }
      some ((s.envs e).envId.toInt, s)

/-- The two values of `status` that pass the test of `sys_env_set_status`. -/
def statusArg (status : Word) : Option EnvStatus :=
  if status = 2 then some .runnable else if status = 3 then some .running else none

def sysEnvSetStatus (s : Kern M) (c : CpuIdx) (envid status : Word) : Option (Int × Kern M) :=
  match statusArg status with
  | none => some (-eInval, s)
  | some st =>
    match lookupEnv s c envid with
    | none => none
    | some (.error r) => some (r, s)
    | some (.ok e) => some (0, s.setStatus e st)

/-- `sys_env_set_pgfault_upcall`, which takes any error of `envid2env` for a bad environment. -/
def sysEnvSetPgfaultUpcall (s : Kern M) (c : CpuIdx) (envid func : Word) :
    Option (Int × Kern M) :=
  match envid2env s c envid true with
  | none => none
  | some (r, store) =>
    if r ≠ 0 then some (-eBadEnv, s)
    else
      match store with
      | none => none
      | some e => some (0, s.modifyEnv e fun v => { v with envPgfaultUpcall := func })

/-! ### Memory -/

/-- `(uintptr_t)va >= UTOP || PGOFF(va)` -/
abbrev badVa (va : Word) : Prop := va ≥ utop ∨ pgoff va ≠ 0

def sysPageAlloc (s : Kern M) (c : CpuIdx) (envid va perm : Word) : Option (Int × Kern M) :=
  match lookupEnv s c envid with
  | none => none
  | some (.error _) => some (-eBadEnv, s)
  | some (.ok e) =>
    if badVa va then some (-eInval, s)
    else if perm &&& pteU = 0 ∨ perm &&& pteP = 0 then some (-eInval, s)
    else if perm &&& ~~~pteSyscall ≠ 0 then some (-eInval, s)
    else
      match pageAlloc s.pm allocZero with
      | (none, pm) => some (-eNoMem, { s with pm := pm })
      | (some pp, pm) =>
        match (s.envs e).envPgdir with
        | none => none
        | some d =>
          match pageInsert pm d pp va perm with
          | none => none
          | some (r, pm) =>
            if r < 0 then
              match pageFree pm pp with
              | none => none
              | some pm => some (-eNoMem, { s with pm := pm })
            else some (0, { s with pm := pm })

def sysPageMap (s : Kern M) (c : CpuIdx) (srcenvid srcva dstenvid dstva perm : Word) :
    Option (Int × Kern M) :=
  match lookupEnv s c srcenvid with
  | none => none
  | some (.error _) => some (-eBadEnv, s)
  | some (.ok srcenv) =>
    match lookupEnv s c dstenvid with
    | none => none
    | some (.error _) => some (-eBadEnv, s)
    | some (.ok dstenv) =>
      if badVa srcva ∨ badVa dstva then some (-eInval, s)
      else if perm &&& pteSyscall = 0 ∨ perm &&& ~~~pteSyscall ≠ 0 then some (-eInval, s)
      else
        match (s.envs srcenv).envPgdir with
        | none => none
        | some sd =>
          match pageLookup s.pm sd srcva with
          | none => none
          | some none => some (-eInval, s)
          | some (some (srcpp, pte)) =>
            if perm &&& pteW ≠ 0 ∧ s.pm.load pte &&& pteW = 0 then some (-eInval, s)
            else
              match (s.envs dstenv).envPgdir with
              | none => none
              | some dd =>
                match pageInsert s.pm dd srcpp dstva perm with
                | none => none
                | some (r, pm) => some (if r < 0 then -eNoMem else 0, { s with pm := pm })

def sysPageUnmap (s : Kern M) (c : CpuIdx) (envid va : Word) : Option (Int × Kern M) :=
  match lookupEnv s c envid with
  | none => none
  | some (.error _) => some (-eBadEnv, s)
  | some (.ok e) =>
    if badVa va then some (-eInval, s)
    else
      match (s.envs e).envPgdir with
      | none => none
      | some d =>
        match pageRemove s.pm d va with
        | none => none
        | some pm => some (0, { s with pm := pm })

/-! ### Dispatch -/

/-- A call that always returns. -/
def returns (r : Option (Int × Kern M)) : Option (Flow M Int) :=
  r.map fun x => .ret x.1 x.2

/-- `syscall`.  The numbers the switch leaves out, `SYS_env_set_pgfault_upcall` and the two IPC
calls among them, fall to its default. -/
def syscall (s : Kern M) (c : CpuIdx) (o : Outside) (syscallno a1 a2 a3 a4 a5 : Word) :
    Option (Flow M Int) :=
  if syscallno = sysNoCputs then sysCputs s c o a1 a2
  else if syscallno = sysNoCgetc then some (.ret o.consGetc s)
  else if syscallno = sysNoGetenvid then (sysGetenvid s c).map fun id => .ret id.toInt s
  else if syscallno = sysNoEnvDestroy then sysEnvDestroy s c a1
  else if syscallno = sysNoExofork then returns (sysExofork s c)
  else if syscallno = sysNoPageAlloc then returns (sysPageAlloc s c a1 a2 a3)
  else if syscallno = sysNoPageMap then returns (sysPageMap s c a1 a2 a3 a4 a5)
  else if syscallno = sysNoPageUnmap then returns (sysPageUnmap s c a1 a2)
  else if syscallno = sysNoEnvSetStatus then returns (sysEnvSetStatus s c a1 a2)
  else if syscallno = sysNoYield then sysYield s c
  else some (.ret (-eInval) s)

/-! ### Traps: `kern/trap.c` -/

/-- The frame of a trap from user mode is the environment's `env_tf`, where the return value
of a system call goes; the frame of a trap in the kernel is on the kernel stack. -/
def setEax (s : Kern M) (home : Option EnvIdx) (r : Int) : Kern M :=
  match home with
  | none => s
  | some e => s.modifyEnv e fun v =>
    { v with envTf := { v.envTf with
        tfRegs := { v.envTf.tfRegs with regEax := BitVec.ofInt 32 r } } }

/-- `trap_dispatch`.  The kernel monitor has no command that leaves it, so a breakpoint never
comes back. -/
def trapDispatch (s : Kern M) (c : CpuIdx) (o : Outside) (tf : Trapframe)
    (home : Option EnvIdx) : Option (Flow M Unit) :=
  if tf.tfTrapno = tPgflt then pageFaultHandler s c tf o.cr2
  else if tf.tfTrapno = tBrkpt then none
  else if tf.tfTrapno = tSyscall then
    match syscall s c o tf.tfRegs.regEax tf.tfRegs.regEdx tf.tfRegs.regEcx tf.tfRegs.regEbx
        tf.tfRegs.regEdi tf.tfRegs.regEsi with
    | none => none
    | some (.left s) => some (.left s)
    | some (.ret r s) => some (.ret () (setEax s home r))
  else if tf.tfCs = gdKt then none
  else
    match s.curenv c with
    | none => none
    | some e => envDestroy s c e

/-- The end of `trap`: back to the current environment if that makes sense. -/
def trapReturn (s : Kern M) (c : CpuIdx) : Option (Kern M) :=
  match s.curenv c with
  | none => schedYield s c
  | some e => if (s.envs e).envStatus = .running then envRun s c e else schedYield s c

def afterDispatch (c : CpuIdx) : Option (Flow M Unit) → Option (Kern M)
  | none => none
  | some (.left s) => some s
  | some (.ret () s) => trapReturn s c

/-- `trap`, from the entry of the processor into the kernel until it leaves. -/
def trap (s : Kern M) (c : CpuIdx) (o : Outside) (tf : Trapframe) : Option (Kern M) :=
  let s := s.setCpuStatus c .started
  if tf.tfCs &&& 3 = 3 then
    match s.curenv c with
    | none => none
    | some e =>
      if (s.envs e).envStatus = .dying then
        match envFree s e with
        | none => none
        | some s => schedYield (s.setCurenv c none) c
      else
        let s := s.modifyEnv e fun v => { v with envTf := tf }
        afterDispatch c (trapDispatch s c o tf (some e))
  else afterDispatch c (trapDispatch s c o tf none)

end Jos
