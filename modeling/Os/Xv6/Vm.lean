/-
Page tables and user memory: `vm.c`.

A `panic` stops the kernel, and so does a pointer outside physical memory or the null
pointer; a function that can meet one returns `none` for it.  A returned 0 that the
callers test for is an ordinary value.  The TLB is not modelled.

Loops that run until an address reaches a bound are written with the number of turns
they may take.
-/
import Os.Xv6.Kalloc

namespace Xv6

variable {M : Machine}

/-- The entry for `va`, creating its page table if `alloc` is set; 0 is an inner `none`. -/
def walkpgdir (m : Kmem M) (pgdir : Ppn M) (va : Word) (alloc : Bool) :
    Option (Option (PtePtr M) × Kmem M) :=
  if present (m.load (pgdir, pdx va)) then
    match frame M (pteAddr (m.load (pgdir, pdx va))) with
    | none => none
    | some pgtab => some (some (pgtab, ptx va), m)
  else if alloc then
    match kalloc m with
    | (none, m) => some (none, m)
    | (some pgtab, m) =>
      let m := m.fill pgtab fun _ => 0
      let m := m.store (pgdir, pdx va) (page2pa pgtab ||| pteP ||| pteW ||| pteU)
      some (some (pgtab, ptx va), m)
  else some (none, m)

/-- The loop of `mappages`: the page at `a` and `n` more behind it. -/
def mappagesLoop (pgdir : Ppn M) (perm : Word) : Nat → Kmem M → Word → Word →
    Option (Bool × Kmem M)
  | n, m, a, pa =>
    match walkpgdir m pgdir a true with
    | none => none
    | some (none, m) => some (false, m)
    | some (some pte, m) =>
      -- panic: remap
      if present (m.load pte) then none
      else
        let m := m.store pte (pa ||| perm ||| pteP)
        match n with
        | 0 => some (true, m)
        | n + 1 => mappagesLoop pgdir perm n m (a + pgsize) (pa + pgsize)

/-- `true` is the result 0 and `false` the result -1. -/
def mappages (m : Kmem M) (pgdir : Ppn M) (va size pa perm : Word) : Option (Bool × Kmem M) :=
  let a := pgrounddown va
  let last := pgrounddown (va + size - 1)
  mappagesLoop pgdir perm ((last - a) >>> 12).toNat m a pa

/-! ### Giving memory back -/

def deallocLoop (K : Linker M) (pgdir : Ppn M) (oldsz : Word) : Nat → Kmem M → Word →
    Option (Kmem M)
  | 0, m, a => if a < oldsz then none else some m
  | n + 1, m, a =>
    if a < oldsz then
      match walkpgdir m pgdir a false with
      | none => none
      | some (none, m) =>
        -- on to the next page table
        deallocLoop K pgdir oldsz n m (BitVec.ofNat 32 ((pdx a).val + 1) <<< 22 - pgsize + pgsize)
      | some (some pte, m) =>
        if present (m.load pte) then
          if pteAddr (m.load pte) = 0 then none
          else
            match (frame M (pteAddr (m.load pte))).bind (kfree K m) with
            | none => none
            | some m => deallocLoop K pgdir oldsz n (m.store pte 0) (a + pgsize)
        else deallocLoop K pgdir oldsz n m (a + pgsize)
    else some m

def deallocuvm (K : Linker M) (m : Kmem M) (pgdir : Ppn M) (oldsz newsz : Word) :
    Option (Word × Kmem M) :=
  if oldsz ≤ newsz then some (oldsz, m)
  else
    let turns := (oldsz.toNat + 4095) / 4096 - newsz.toNat / 4096
    (deallocLoop K pgdir oldsz turns m (pgroundup newsz)).map fun m => (newsz, m)

/-- One turn of the second loop of `freevm`. -/
def freeTable (K : Linker M) (pgdir : Ppn M) (m : Kmem M) (i : Fin npdentries) :
    Option (Kmem M) :=
  if present (m.load (pgdir, i)) then
    (frame M (pteAddr (m.load (pgdir, i)))).bind (kfree K m)
  else some m

def freevm (K : Linker M) (m : Kmem M) (pgdir : Ppn M) : Option (Kmem M) := do
  let (_, m) ← deallocuvm K m pgdir kernbase 0
  let m ← (List.finRange npdentries).foldlM (freeTable K pgdir) m
  kfree K m pgdir

/-! ### The kernel's part of a page table -/

structure Kmap where
  virt : Word
  physStart : Word
  physEnd : Word
  perm : Word

def kmap (K : Linker M) : List Kmap :=
  [ ⟨kernbase, 0, extmem, pteW⟩,
    ⟨kernlink, kernlink - kernbase, K.data - kernbase, 0⟩,
    ⟨K.data, K.data - kernbase, phystop M, pteW⟩,
    ⟨devspace, devspace, 0, pteW⟩ ]

def setupLoop (K : Linker M) (pgdir : Ppn M) : List Kmap → Kmem M →
    Option (Option (Ppn M) × Kmem M)
  | [], m => some (some pgdir, m)
  | k :: ks, m =>
    match mappages m pgdir k.virt (k.physEnd - k.physStart) k.physStart k.perm with
    | none => none
    | some (false, m) => (freevm K m pgdir).map fun m => (none, m)
    | some (true, m) => setupLoop K pgdir ks m

def setupkvm (K : Linker M) (m : Kmem M) : Option (Option (Ppn M) × Kmem M) :=
  match kalloc m with
  | (none, m) => some (none, m)
  | (some pgdir, m) =>
    let m := m.fill pgdir fun _ => 0
    -- panic: PHYSTOP too high
    if devspace < phystop M + kernbase then none
    else setupLoop K pgdir (kmap K) m

/-! ### Growing user memory -/

def allocLoop (K : Linker M) (pgdir : Ppn M) (oldsz newsz : Word) : Nat → Kmem M → Word →
    Option (Word × Kmem M)
  | 0, m, a => if a < newsz then none else some (newsz, m)
  | n + 1, m, a =>
    if a < newsz then
      match kalloc m with
      | (none, m) => (deallocuvm K m pgdir newsz oldsz).map fun r => (0, r.2)
      | (some mem, m) =>
        let m := m.fill mem fun _ => 0
        match mappages m pgdir a pgsize (page2pa mem) (pteW ||| pteU) with
        | none => none
        | some (false, m) => do
          let (_, m) ← deallocuvm K m pgdir newsz oldsz
          let m ← kfree K m mem
          some (0, m)
        | some (true, m) => allocLoop K pgdir oldsz newsz n m (a + pgsize)
    else some (newsz, m)

/-- The new size, or 0. -/
def allocuvm (K : Linker M) (m : Kmem M) (pgdir : Ppn M) (oldsz newsz : Word) :
    Option (Word × Kmem M) :=
  if kernbase ≤ newsz then some (0, m)
  else if newsz < oldsz then some (oldsz, m)
  else
    let turns := (newsz.toNat + 4095) / 4096 - oldsz.toNat / 4096
    allocLoop K pgdir oldsz newsz turns m (pgroundup oldsz)

/-- Takes the user's access to a page away: the page below the user stack. -/
def clearpteu (m : Kmem M) (pgdir : Ppn M) (uva : Word) : Option (Kmem M) :=
  match walkpgdir m pgdir uva false with
  | none => none
  | some (none, _) => none
  | some (some pte, m) => some (m.store pte (m.load pte &&& ~~~pteU))

/-! ### Copying -/

def copyLoop (K : Linker M) (pgdir d : Ppn M) (sz : Word) : Nat → Kmem M → Word →
    Option (Option (Ppn M) × Kmem M)
  | 0, m, i => if i < sz then none else some (some d, m)
  | n + 1, m, i =>
    if i < sz then
      match walkpgdir m pgdir i false with
      | none => none
      -- panic: pte should exist
      | some (none, _) => none
      | some (some pte, m) =>
        -- panic: page not present
        if ¬ present (m.load pte) then none
        else
          match frame M (pteAddr (m.load pte)) with
          | none => none
          | some src =>
            let flags := pteFlags (m.load pte)
            match kalloc m with
            | (none, m) => (freevm K m d).map fun m => (none, m)
            | (some mem, m) =>
              let m := m.fill mem (m.mem src)
              match mappages m d i pgsize (page2pa mem) flags with
              | none => none
              | some (false, m) => do
                let m ← kfree K m mem
                let m ← freevm K m d
                some (none, m)
              | some (true, m) => copyLoop K pgdir d sz n m (i + pgsize)
    else some (some d, m)

/-- A copy of the first `sz` bytes of an address space, or 0. -/
def copyuvm (K : Linker M) (m : Kmem M) (pgdir : Ppn M) (sz : Word) :
    Option (Option (Ppn M) × Kmem M) :=
  match setupkvm K m with
  | none => none
  | some (none, m) => some (none, m)
  | some (some d, m) => copyLoop K pgdir d sz ((sz.toNat + 4095) / 4096) m 0

end Xv6
