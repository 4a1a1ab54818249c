/-
One process, its memory, and the two ways to allocate it.

A user program sees its memory through `sbrk` and through loads and stores.  In the lazy
kernel `sbrk` is `sys_sbrk` and a page fault allocates; in the eager one it is
`old_sys_sbrk` and a page fault kills the process.
-/
import Os.Xv6.Trap

namespace Xv6

variable {M : Machine}

inductive UserOp
  | sbrk (n : Word)
  | load (va : Word)
  | store (va : Word) (b : Byte)

/-- What the program gets to see. -/
inductive Outcome
  | ret (w : Word)
  | loaded (b : Byte)
  | stored
  | killed
  | panicked
  deriving DecidableEq

/-- The program goes on. -/
def Outcome.Continues : Outcome → Bool
  | .killed => false
  | .panicked => false
  | _ => true

/-- A process and the memory it runs in. -/
structure User (M : Machine) where
  km : Kmem M
  p : Proc M

/-- The access a load or a store has been granted. -/
def perform (m : Kmem M) (a : Ppn M × Fin 4096) : Option Byte → Outcome × Kmem M
  | none => (.loaded (m.byte a.1 a.2), m)
  | some b => (.stored, m.storeByte a.1 a.2 b)

/-- A load, or a store of a byte, under the lazy kernel. -/
def lazyAccess (s : User M) (va : Word) (b : Option Byte) : Outcome × User M :=
  match s.p.pgdir with
  | none => (.panicked, s)
  | some pgdir =>
    match access pgdir va true b.isSome (M.npages + 1) s.km with
    | none => (.panicked, s)
    | some (none, m) => (.killed, { s with km := m })
    | some (some a, m) => ((perform m a b).1, { s with km := (perform m a b).2 })

def lazyStep (s : User M) : UserOp → Outcome × User M
  | .sbrk n => (.ret (sysSbrk s.p n).1, { s with p := (sysSbrk s.p n).2 })
  | .load va => lazyAccess s va none
  | .store va b => lazyAccess s va (some b)

/-- The same access where a page fault kills. -/
def eagerAccess (s : User M) (va : Word) (b : Option Byte) : Outcome × User M :=
  match s.p.pgdir with
  | none => (.panicked, s)
  | some pgdir =>
    match translate s.km pgdir va true b.isSome with
    | none => (.killed, s)
    | some a => ((perform s.km a b).1, { s with km := (perform s.km a b).2 })

def eagerStep (K : Linker M) (s : User M) : UserOp → Outcome × User M
  | .sbrk n =>
    match oldSysSbrk K s.km s.p n with
    | none => (.panicked, s)
    | some (r, m, p) => (.ret r, ⟨m, p⟩)
  | .load va => eagerAccess s va none
  | .store va b => eagerAccess s va (some b)

/-- What a program sees of a kernel, up to its end. -/
def outcomes (step : User M → UserOp → Outcome × User M) : User M → List UserOp → List Outcome
  | _, [] => []
  | s, op :: ops =>
    (step s op).1 :: if (step s op).1.Continues then outcomes step (step s op).2 ops else []

end Xv6
