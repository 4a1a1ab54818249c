/-
Page faults: `page_fault_handler` of `kern/trap.c` and `user_mem_assert`.

A fault is delivered by pushing a `struct UTrapframe` on the user exception stack.
The handler ends in `env_run` or in `env_destroy(curenv)`, neither of which comes
back here.
-/
import Os.Jos.Sched

namespace Jos

variable {M : Machine}

/-- `user_mem_assert`; it does not return when it destroys the current environment. -/
def userMemAssert (s : Kern M) (c : CpuIdx) (e : EnvIdx) (va len perm : Word) :
    Option (Flow M Unit) :=
  match userMemCheck s.pm (s.envs e).envPgdir va len (perm ||| pteU) with
  | none => none
  | some none => some (.ret () s)
  | some (some _) => envDestroy s c e

/-! ### The frame of a user fault: `inc/trap.h` -/

structure UTrapframe where
  utfFaultVa : Word
  utfErr : Word
  utfRegs : PushRegs
  utfEip : Word
  utfEflags : Word
  utfEsp : Word
  deriving DecidableEq

def PushRegs.words (r : PushRegs) : List Word :=
  [r.regEdi, r.regEsi, r.regEbp, r.regOesp, r.regEbx, r.regEdx, r.regEcx, r.regEax]

/-- The fields in the order of their addresses. -/
def UTrapframe.words (u : UTrapframe) : List Word :=
  [u.utfFaultVa, u.utfErr] ++ u.utfRegs.words ++ [u.utfEip, u.utfEflags, u.utfEsp]

def sizeofUTrapframe : Word := 52

/-- The bytes of a word, least significant first. -/
def leBytes (w : Word) : List (BitVec 8) :=
  [w.extractLsb' 0 8, w.extractLsb' 8 8, w.extractLsb' 16 8, w.extractLsb' 24 8]

def UTrapframe.bytes (u : UTrapframe) : List (BitVec 8) := u.words.flatMap leBytes

/-- Where the frame goes: below a word of scratch space when already on the exception stack. -/
def utfAddr (tfEsp : Word) : Word :=
  if tfEsp ≥ uxstacktop - pgsize ∧ tfEsp < uxstacktop then tfEsp - sizeofUTrapframe - 4
  else uxstacktop - sizeofUTrapframe

/-- The frame the handler fills in.  The source stores the trap number in `utf_err`. -/
def utfOf (tf : Trapframe) (faultVa : Word) : UTrapframe :=
  { utfFaultVa := faultVa, utfErr := tf.tfTrapno, utfRegs := tf.tfRegs
    utfEip := tf.tfEip, utfEflags := tf.tfEflags, utfEsp := tf.tfEsp }

def pageFaultHandler (s : Kern M) (c : CpuIdx) (tf : Trapframe) (faultVa : Word) :
    Option (Flow M Unit) :=
  -- `tf->tf_cs && 0x01 == 0` as C groups it
  if tf.tfCs ≠ 0 ∧ (0x01 : Word) = 0 then none
  else
    match s.curenv c with
    | none => none
    | some e =>
      if (s.envs e).envPgfaultUpcall ≠ 0 then
        let utf := utfAddr tf.tfEsp
        match userMemAssert s c e utf sizeofUTrapframe (pteP ||| pteW) with
        | none => none
        | some (.left s) => some (.left s)
        | some (.ret () s) =>
          match (s.envs e).envPgdir with
          | none => none
          | some d =>
            match storeBytes s.pm d utf (utfOf tf faultVa).bytes with
            | none => none
            | some pm =>
              let s := { s with pm := pm }
              let s := s.modifyEnv e fun v =>
                { v with envTf := { v.envTf with tfEip := v.envPgfaultUpcall, tfEsp := utf } }
              match envRun s c e with
              | none => none
              | some s => some (.left s)
      else envDestroy s c e

/-- What a trap needs from outside the kernel: `%cr2`, the character `cons_getc` finds, and
the frame the processor pushes should the kernel itself fault. -/
structure Outside where
  cr2 : Word
  consGetc : Int
  ktf : Trapframe

end Jos
