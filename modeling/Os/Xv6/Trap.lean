/-
Memory accesses and page faults: the processor and `trap.c`.

An access that the page table does not allow traps with `T_PGFLT`, and an instruction
whose fault the kernel has dealt with is executed again.
-/
import Os.Xv6.Proc

namespace Xv6

variable {M : Machine}

/-- An entry lets an access pass.  `CR0_WP` is set, so the kernel needs `PTE_W` as well. -/
abbrev Allows (user wr : Bool) (w : Word) : Prop :=
  present w ∧ (user = true → w &&& pteU ≠ 0) ∧ (wr = true → w &&& pteW ≠ 0)

/-- The processor's walk: the byte of physical memory an access reaches. -/
def translate (m : Kmem M) (pgdir : Ppn M) (va : Word) (user wr : Bool) :
    Option (Ppn M × Fin 4096) :=
  if Allows user wr (m.load (pgdir, pdx va)) then
    match frame M (pteAddr (m.load (pgdir, pdx va))) with
    | none => none
    | some t =>
      if Allows user wr (m.load (t, ptx va)) then
        (frame M (pteAddr (m.load (t, ptx va)))).map fun p =>
          (p, Fin.ofNat 4096 (pgoff va).toNat)
      else none
  else none

/-- The `T_PGFLT` case of `trap`; `true` is its `break`, `false` falls through to `default`.
A page that could not be mapped is not freed. -/
def trapPgflt (m : Kmem M) (pgdir : Ppn M) (cr2 : Word) : Option (Bool × Kmem M) :=
  match kalloc m with
  | (none, m) => some (false, m)
  | (some mem, m) =>
    let va := pgrounddown cr2
    let m := m.fill mem fun _ => 0
    mappages m pgdir va pgsize (page2pa mem) (pteW ||| pteU)

/-- An access with the faults it takes.  Each fault that is dealt with uses up a page, so
there are not more of them than pages; an inner `none` is the `default` case of `trap`. -/
def access (pgdir : Ppn M) (va : Word) (user wr : Bool) : Nat → Kmem M →
    Option (Option (Ppn M × Fin 4096) × Kmem M)
  | 0, _ => none
  | n + 1, m =>
    match translate m pgdir va user wr with
    | some a => some (some a, m)
    | none =>
      match trapPgflt m pgdir va with
      | none => none
      | some (false, m) => some (none, m)
      | some (true, m) => access pgdir va user wr n m

/-! ### The kernel's own accesses -/

/-- A load in kernel mode.  It faults like one in user mode, and a fault that is not dealt
with is a panic. -/
def kload (m : Kmem M) (pgdir : Ppn M) (va : Word) : Option (Byte × Kmem M) :=
  match access pgdir va false false (M.npages + 1) m with
  | some (some a, m) => some (m.byte a.1 a.2, m)
  | _ => none

def kstore (m : Kmem M) (pgdir : Ppn M) (va : Word) (b : Byte) : Option (Kmem M) :=
  match access pgdir va false true (M.npages + 1) m with
  | some (some a, m) => some (m.storeByte a.1 a.2 b)
  | _ => none

def kloadWord (m : Kmem M) (pgdir : Ppn M) (va : Word) : Option (Word × Kmem M) := do
  let (b0, m) ← kload m pgdir va
  let (b1, m) ← kload m pgdir (va + 1)
  let (b2, m) ← kload m pgdir (va + 2)
  let (b3, m) ← kload m pgdir (va + 3)
  some (b3 ++ b2 ++ b1 ++ b0, m)

/-- A word as the bytes it is stored in. -/
def wordBytes (w : Word) : List Byte := [getByte w 0, getByte w 1, getByte w 2, getByte w 3]

def kstores (pgdir : Ppn M) : Kmem M → Word → List Byte → Option (Kmem M)
  | m, _, [] => some m
  | m, va, b :: bs => (kstore m pgdir va b).bind fun m => kstores pgdir m (va + 1) bs

end Xv6
