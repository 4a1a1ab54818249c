/-
Moving memory: `memmove` of the kernel, in `string.c`, and of the programs, in `ulib.c`.

The kernel's is the one in C of `lib/string.c`.
-/
import Os.Jos.Memmove

namespace Xv6

open Jos (Word)

def memmove (mem : Word → BitVec 8) (dst src n : Word) : Word → BitVec 8 :=
  Jos.memmove mem dst src n

/-- `memmove` of `ulib.c`, where `n` is an `int`. -/
def ulibMemmove (mem : Word → BitVec 8) (dst src n : Word) : Word → BitVec 8 :=
  Jos.copyUp n.toInt.toNat mem dst src

end Xv6
