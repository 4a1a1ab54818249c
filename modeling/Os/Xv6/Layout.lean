/-
Addresses and constants of the xv6 headers.

xv6 and JOS run on the same processor and copy the same `mmu.h`, so the indices of an
address, the flags of an entry and the frame of a physical address are those of the JOS
model.  What differs is the layout: user memory is everything below `KERNBASE`, the
lower half of the address space, and `PHYSTOP` bytes of physical memory are mapped
above it.

`PHYSTOP` is the number of pages of the machine, and `data` and `end` are placed by the
linker, so all three are parameters here.
-/
import Os.Jos.Pmap

namespace Xv6

export Jos (Word Machine Ppn PtePtr npdentries nptentries pgsize pteP pteW pteU pdx ptx pgoff
  pteAddr present page2pa frame)

abbrev Byte := BitVec 8

/-! ### `mmu.h`, `memlayout.h`, `param.h` -/

def pgroundup (sz : Word) : Word := (sz + pgsize - 1) &&& ~~~(pgsize - 1)

def pgrounddown (a : Word) : Word := a &&& ~~~(pgsize - 1)

def pteFlags (pte : Word) : Word := pte &&& 0xFFF

def extmem : Word := 0x100000
def devspace : Word := 0xFE000000
def kernbase : Word := 0x80000000
def kernlink : Word := kernbase + extmem

/-- Top of physical memory. -/
def phystop (M : Machine) : Word := BitVec.ofNat 32 (M.npages * 4096)

abbrev nproc : Nat := 64
abbrev nofile : Nat := 16
abbrev nfile : Nat := 100
abbrev maxarg : Nat := 32

instance : NeZero nproc := ⟨by decide⟩

/-- A slot of `ptable.proc`. -/
abbrev ProcIdx := Fin nproc

/-- A slot of `ftable.file`. -/
abbrev FileIdx := Fin nfile

/-- A file descriptor. -/
abbrev Fd := Fin nofile

/-- Where the linker has put the kernel. -/
structure Linker (M : Machine) where
  data : Word
  kend : Word
  dataAligned : data.toNat % 4096 = 0
  dataAbove : 0x80100000 < data.toNat
  dataBelow : data.toNat < kend.toNat
  endBelow : kend.toNat ≤ 0x80000000 + M.npages * 4096

/-- The number of the first page behind the kernel. -/
def Linker.endPage {M : Machine} (K : Linker M) : Nat := (K.kend.toNat - 0x80000000 + 4095) / 4096

end Xv6
