/-
Addresses, page-table entries and the constants of the JOS headers.

Everything here is 32-bit machine arithmetic, so words are `BitVec 32` and the
macros of `inc/mmu.h` and `inc/types.h` are the same shifts and masks.  A page
directory index and a page table index are below 1024 because of their mask, and
`Fin` says so once.
-/
import Mathlib.Algebra.GroupWithZero.Nat
import Mathlib.Data.Fin.Basic

namespace Jos

abbrev Word := BitVec 32

/-! ### `inc/mmu.h` -/

abbrev npdentries : Nat := 1024
abbrev nptentries : Nat := 1024

instance : NeZero nptentries := ⟨by decide⟩

/-- The bytes of a page. -/
instance neZero_pageBytes : NeZero 4096 := ⟨by decide⟩

def pgsize : Word := 4096
def ptsize : Word := 0x400000

def pteP : Word := 0x001
def pteW : Word := 0x002
def pteU : Word := 0x004
def ptePwt : Word := 0x008
def ptePcd : Word := 0x010

/-- The bits hardware and kernel leave to user programs. -/
def pteAvail : Word := 0xE00

/-- The flags a system call may set. -/
def pteSyscall : Word := pteAvail ||| pteP ||| pteW ||| pteU

def pgnum (la : Word) : Nat := (la >>> 12).toNat

def pdx (la : Word) : Fin npdentries := Fin.ofNat npdentries ((la >>> 22) &&& 0x3FF).toNat

def ptx (la : Word) : Fin nptentries := Fin.ofNat nptentries ((la >>> 12) &&& 0x3FF).toNat

def pgoff (la : Word) : Word := la &&& 0xFFF

def pgaddr (d : Fin npdentries) (t : Fin nptentries) (o : Word) : Word :=
  BitVec.ofNat 32 d <<< 22 ||| BitVec.ofNat 32 t <<< 12 ||| o

/-- The physical address in an entry, its flags masked off. -/
def pteAddr (pte : Word) : Word := pte &&& ~~~0xFFF

/-- The entry's present bit is set. -/
abbrev present (pte : Word) : Prop := pte &&& pteP ≠ 0

/-! ### `inc/types.h` -/

def rounddown (a n : Word) : Word := a - a % n

def roundup (a n : Word) : Word := rounddown (a + n - 1) n

/-! ### `inc/memlayout.h` -/

def kernbase : Word := 0xF0000000
def kstacktop : Word := kernbase
def mmiolim : Word := kstacktop - ptsize
def mmiobase : Word := mmiolim - ptsize
def ulim : Word := mmiobase
def uvpt : Word := ulim - ptsize
def upages : Word := uvpt - ptsize
def uenvs : Word := upages - ptsize
def utop : Word := uenvs
def uxstacktop : Word := utop
def ustacktop : Word := utop - 2 * pgsize

def gdKt : BitVec 16 := 0x08
def gdUt : BitVec 16 := 0x18
def gdUd : BitVec 16 := 0x20

/-- `PDX(UTOP)`: how many directory entries belong to the user half. -/
abbrev pdxUtop : Nat := 955

instance : NeZero pdxUtop := ⟨by decide⟩

example : (pdx utop).val = pdxUtop := by decide

/-- A directory index of the user half. -/
abbrev Upde := Fin pdxUtop

/-- The same index in the whole directory. -/
def toPde (i : Upde) : Fin npdentries := Fin.castLE (by decide) i

/-! ### `inc/env.h`, `kern/cpu.h`, `kern/env.c` -/

abbrev nenv : Nat := 1024
abbrev ncpu : Nat := 8

instance : NeZero ncpu := ⟨by decide⟩

def envgenshift : Nat := 12

/-- A slot of `envs[]`. -/
abbrev EnvIdx := Fin nenv

/-- A slot of `cpus[]`, which is what `cpunum()` returns. -/
abbrev CpuIdx := Fin ncpu

def envx (envid : Word) : EnvIdx := Fin.ofNat nenv (envid &&& 0x3FF).toNat

/-! ### `inc/error.h` -/

def eBadEnv : Int := 2
def eInval : Int := 3
def eNoMem : Int := 4
def eNoFreeEnv : Int := 5

/-! ### `inc/syscall.h`, `inc/trap.h` -/

def sysNoCputs : Word := 0
def sysNoCgetc : Word := 1
def sysNoGetenvid : Word := 2
def sysNoEnvDestroy : Word := 3
def sysNoPageAlloc : Word := 4
def sysNoPageMap : Word := 5
def sysNoPageUnmap : Word := 6
def sysNoExofork : Word := 7
def sysNoEnvSetStatus : Word := 8
def sysNoEnvSetPgfaultUpcall : Word := 9
def sysNoYield : Word := 10
def sysNoIpcTrySend : Word := 11
def sysNoIpcRecv : Word := 12

def tBrkpt : Word := 3
def tPgflt : Word := 14
def tSyscall : Word := 48

/-! ### Memory as bytes -/

def wordAt (mem : Word → BitVec 8) (a : Word) : Word :=
  mem (a + 3) ++ mem (a + 2) ++ mem (a + 1) ++ mem a

end Jos
