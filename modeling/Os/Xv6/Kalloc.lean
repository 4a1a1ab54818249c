/-
The page allocator: `kalloc.c`.

Physical memory is an array of page frames of 1024 words.  A free page carries the link
to the next one in its own first word, as a kernel address, so the free list is only a
list while nobody writes to pages that are on it.  The spinlock is not modelled.
-/
import Os.Xv6.Layout

namespace Xv6

variable {M : Machine}

/-- Physical memory and `kmem`. -/
structure Kmem (M : Machine) where
  mem : Ppn M → Fin nptentries → Word
  freelist : Option (Ppn M)

namespace Kmem

def load (m : Kmem M) (pte : PtePtr M) : Word := m.mem pte.1 pte.2

/-- The whole page at once: `memset` and `memmove` of `PGSIZE` bytes. -/
def fill (m : Kmem M) (p : Ppn M) (f : Fin nptentries → Word) : Kmem M :=
  { m with mem := Function.update m.mem p f }

def store (m : Kmem M) (pte : PtePtr M) (w : Word) : Kmem M :=
  m.fill pte.1 (Function.update (m.mem pte.1) pte.2 w)

end Kmem

/-! ### Bytes of a page -/

/-- The word of a page that the byte at an offset lies in. -/
def wordOf (o : Fin 4096) : Fin nptentries := ⟨o.val / 4, Nat.div_lt_of_lt_mul o.isLt⟩

def getByte (w : Word) (lane : Nat) : Byte := w.extractLsb' (8 * lane) 8

def setByte (w : Word) (lane : Nat) (b : Byte) : Word :=
  (w &&& ~~~((0xFF : Word) <<< (8 * lane))) ||| (b.setWidth 32 <<< (8 * lane))

namespace Kmem

def byte (m : Kmem M) (p : Ppn M) (o : Fin 4096) : Byte :=
  getByte (m.mem p (wordOf o)) (o.val % 4)

def storeByte (m : Kmem M) (p : Ppn M) (o : Fin 4096) (b : Byte) : Kmem M :=
  m.store (p, wordOf o) (setByte (m.mem p (wordOf o)) (o.val % 4) b)

/-- `memmove` of a few bytes into one page, from offset `o` on. -/
def storeBytes (m : Kmem M) (p : Ppn M) : Nat → List Byte → Kmem M
  | _, [] => m
  | o, b :: bs => (m.storeByte p (Fin.ofNat 4096 o) b).storeBytes p (o + 1) bs

end Kmem

/-! ### `kalloc.c` -/

/-- The kernel address of a page. -/
def kva (p : Ppn M) : Word := page2pa p + kernbase

/-- `r->next`, kept in the first word of a free page. -/
def runNext (m : Kmem M) (r : Ppn M) : Option (Ppn M) :=
  if m.load (r, 0) = 0 then none else frame M (m.load (r, 0) - kernbase)

/-- Frees a page.  That the address is page-aligned and below `PHYSTOP` is in its type. -/
def kfree (K : Linker M) (m : Kmem M) (v : Ppn M) : Option (Kmem M) :=
  if kva v < K.kend then none
  else
    -- junk, to catch dangling references
    let m := m.fill v fun _ => 0x01010101
    let m := m.store (v, 0) (match m.freelist with | none => 0 | some r => kva r)
    some { m with freelist := some v }

/-- Takes a page off the free list; its contents are whatever they are. -/
def kalloc (m : Kmem M) : Option (Ppn M) × Kmem M :=
  match m.freelist with
  | none => (none, m)
  | some r => (some r, { m with freelist := runNext m r })

end Xv6
