/-
Moving memory: the two `memmove` of `lib/string.c`.
-/
import Os.Jos.Layout

namespace Jos

/-- One `movs` of `unit` bytes, which are all read before the first is written. -/
def movs (unit : Nat) (mem : Word → BitVec 8) (di si : Word) (a : Word) : BitVec 8 :=
  if (a - di).toNat < unit then mem (si + (a - di)) else mem a

/-- `rep movs`, downwards after `std`. -/
def repMovs (unit : Nat) (std : Bool) : Nat → (Word → BitVec 8) → Word → Word → Word → BitVec 8
  | 0, mem, _, _ => mem
  | cx + 1, mem, di, si =>
    let k := BitVec.ofNat 32 unit
    if std then repMovs unit std cx (movs unit mem di si) (di - k) (si - k)
    else repMovs unit std cx (movs unit mem di si) (di + k) (si + k)

/-- `memmove` with string instructions. -/
def memmoveAsm (mem : Word → BitVec 8) (dst src n : Word) : Word → BitVec 8 :=
  if src < dst ∧ dst < src + n then
    let s := src + n
    let d := dst + n
    if s.toNat % 4 = 0 ∧ d.toNat % 4 = 0 ∧ n.toNat % 4 = 0 then
      repMovs 4 true (n.toNat / 4) mem (d - 4) (s - 4)
    else repMovs 1 true n.toNat mem (d - 1) (s - 1)
  else if src.toNat % 4 = 0 ∧ dst.toNat % 4 = 0 ∧ n.toNat % 4 = 0 then
    repMovs 4 false (n.toNat / 4) mem dst src
  else repMovs 1 false n.toNat mem dst src

/-- `while (n-- > 0) *d++ = *s++;` -/
def copyUp : Nat → (Word → BitVec 8) → Word → Word → Word → BitVec 8
  | 0, mem, _, _ => mem
  | n + 1, mem, d, s => copyUp n (Function.update mem d (mem s)) (d + 1) (s + 1)

/-- `while (n-- > 0) *--d = *--s;` -/
def copyDown : Nat → (Word → BitVec 8) → Word → Word → Word → BitVec 8
  | 0, mem, _, _ => mem
  | n + 1, mem, d, s => copyDown n (Function.update mem (d - 1) (mem (s - 1))) (d - 1) (s - 1)

/-- `memmove` in C. -/
def memmove (mem : Word → BitVec 8) (dst src n : Word) : Word → BitVec 8 :=
  if src < dst ∧ dst < src + n then copyDown n.toNat mem (dst + n) (src + n)
  else copyUp n.toNat mem dst src

end Jos
