/-
The kernel's data.

Physical memory is an array of page frames, each of 1024 words.  A pointer to a
`struct PageInfo`, a physical address of a frame and the kernel address of that
frame name the same thing, so all three are `Ppn`, a number below `npages`: the
panics of `pa2page` and `KADDR` are the only places an address can fail to be one.

The state is split along the source files.  `Pmap` is what `kern/pmap.c` works on,
and nothing in that file can touch the environments or the processors.
-/
import Os.Jos.Layout

namespace Jos

/-- The machine: how much physical memory `i386_detect_memory` found.

`mem_init` maps physical memory at `KERNBASE` and `check_kern_pgdir` asserts that all
of it is there, so a kernel that boots has at most 2^28 bytes. -/
structure Machine where
  npages : Nat
  npagesLe : npages ≤ 65536

/-- A physical page: an index of `pages[]`. -/
abbrev Ppn (M : Machine) := Fin M.npages

variable {M : Machine}

structure PageInfo (M : Machine) where
  ppLink : Option (Ppn M)
  ppRef : BitVec 16

/-- The state of `kern/pmap.c`. -/
structure Pmap (M : Machine) where
  mem : Ppn M → Fin nptentries → Word
  pages : Ppn M → PageInfo M
  pageFreeList : Option (Ppn M)
  kernPgdir : Ppn M

/-- The address of a page-table entry: its frame and its index. -/
abbrev PtePtr (M : Machine) := Ppn M × Fin nptentries

structure PushRegs where
  regEdi : Word
  regEsi : Word
  regEbp : Word
  regOesp : Word
  regEbx : Word
  regEdx : Word
  regEcx : Word
  regEax : Word
  deriving DecidableEq

structure Trapframe where
  tfRegs : PushRegs
  tfEs : BitVec 16
  tfDs : BitVec 16
  tfTrapno : Word
  tfErr : Word
  tfEip : Word
  tfCs : BitVec 16
  tfEflags : Word
  tfEsp : Word
  tfSs : BitVec 16
  deriving DecidableEq

/-- What `memset(&e->env_tf, 0, sizeof(e->env_tf))` leaves. -/
def Trapframe.zero : Trapframe :=
  ⟨⟨0, 0, 0, 0, 0, 0, 0, 0⟩, 0, 0, 0, 0, 0, 0, 0, 0, 0⟩

inductive EnvStatus
  | free
  | dying
  | runnable
  | running
  | notRunnable
  deriving DecidableEq, Repr

inductive EnvType
  | user
  deriving DecidableEq

/-- `struct Env`, less the IPC fields no function of this kernel reads or writes. -/
structure Env (M : Machine) where
  envTf : Trapframe
  envLink : Option EnvIdx
  envId : Word
  envParentId : Word
  envType : EnvType
  envStatus : EnvStatus
  envRuns : Word
  envCpunum : CpuIdx
  envPgdir : Option (Ppn M)
  envPgfaultUpcall : Word
  envIpcRecving : Bool

inductive CpuStatus
  | unused
  | started
  | halted
  deriving DecidableEq

structure CpuInfo where
  cpuStatus : CpuStatus
  cpuEnv : Option EnvIdx

/-- The whole kernel. -/
structure Kern (M : Machine) where
  pm : Pmap M
  envs : EnvIdx → Env M
  envFreeList : Option EnvIdx
  cpus : CpuIdx → CpuInfo
  /-- The directory that `env_run` has loaded last on a processor.  What is loaded in between, by
  `env_free` or `sched_halt`, no program runs under. -/
  cr3 : CpuIdx → Option (Ppn M)

namespace Kern

/-- `curenv` on processor `c`. -/
def curenv (s : Kern M) (c : CpuIdx) : Option EnvIdx := (s.cpus c).cpuEnv

/-- The slot holds an environment. -/
abbrev live (s : Kern M) (e : EnvIdx) : Prop := (s.envs e).envStatus ≠ .free

def setCurenv (s : Kern M) (c : CpuIdx) (e : Option EnvIdx) : Kern M :=
  { s with cpus := Function.update s.cpus c { s.cpus c with cpuEnv := e } }

def setCpuStatus (s : Kern M) (c : CpuIdx) (st : CpuStatus) : Kern M :=
  { s with cpus := Function.update s.cpus c { s.cpus c with cpuStatus := st } }

def setCr3 (s : Kern M) (c : CpuIdx) (d : Ppn M) : Kern M :=
  { s with cr3 := Function.update s.cr3 c (some d) }

def modifyEnv (s : Kern M) (e : EnvIdx) (f : Env M → Env M) : Kern M :=
  { s with envs := Function.update s.envs e (f (s.envs e)) }

def setStatus (s : Kern M) (e : EnvIdx) (st : EnvStatus) : Kern M :=
  s.modifyEnv e fun v => { v with envStatus := st }

end Kern

/-- How a kernel function that may switch environments ends.

`env_run` and `sched_halt` never return: the processor has left the kernel.  A panic,
a kernel fault and the kernel monitor are the `none` of the `Option` around this. -/
inductive Flow (M : Machine) (α : Type)
  | ret (a : α) (s : Kern M)
  | left (s : Kern M)

end Jos
