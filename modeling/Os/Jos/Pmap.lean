/-
The page allocator and the page tables: `kern/pmap.c`.

A failed `assert`, a `panic`, and a `KADDR` or `pa2page` of an address beyond the
last page stop the kernel; a function that can meet one returns `none` for it.  A
returned `NULL` is an ordinary value and stays an inner `none`.

`pgdir` is never `NULL` here: `pgdir_walk` asserts it before anything else and every
function below that takes a directory starts with `pgdir_walk`, so the callers take
the directory out of `env_pgdir` first.  The TLB is not modelled, and with it
`tlb_invalidate` and `lcr3` disappear.
-/
import Os.Jos.State

namespace Jos

variable {M : Machine}

/-! ### Frames and addresses: `kern/pmap.h` -/

def page2pa (pp : Ppn M) : Word := BitVec.ofNat 32 pp <<< 12

/-- The frame a physical address lies in; `none` is beyond the last page. -/
def frame (M : Machine) (pa : Word) : Option (Ppn M) :=
  if h : pgnum pa < M.npages then some ⟨pgnum pa, h⟩ else none

abbrev pa2page (M : Machine) (pa : Word) : Option (Ppn M) := frame M pa

abbrev kaddr (M : Machine) (pa : Word) : Option (Ppn M) := frame M pa

def allocZero : Word := 1

namespace Pmap

def load (pm : Pmap M) (pte : PtePtr M) : Word := pm.mem pte.1 pte.2

def fill (pm : Pmap M) (p : Ppn M) (f : Fin nptentries → Word) : Pmap M :=
  { pm with mem := Function.update pm.mem p f }

def store (pm : Pmap M) (pte : PtePtr M) (w : Word) : Pmap M :=
  pm.fill pte.1 (Function.update (pm.mem pte.1) pte.2 w)

def setRef (pm : Pmap M) (p : Ppn M) (n : BitVec 16) : Pmap M :=
  { pm with pages := Function.update pm.pages p { pm.pages p with ppRef := n } }

def setLink (pm : Pmap M) (p : Ppn M) (q : Option (Ppn M)) : Pmap M :=
  { pm with pages := Function.update pm.pages p { pm.pages p with ppLink := q } }

/-- `pp->pp_ref++` on the 16-bit counter. -/
def incRef (pm : Pmap M) (p : Ppn M) : Pmap M := pm.setRef p ((pm.pages p).ppRef + 1)

end Pmap

/-! ### Physical pages -/

/-- Takes a page off the free list; the reference count is left to the caller. -/
def pageAlloc (pm : Pmap M) (allocFlags : Word) : Option (Ppn M) × Pmap M :=
  match pm.pageFreeList with
  | none => (none, pm)
  | some p =>
    let pm := { pm with pageFreeList := (pm.pages p).ppLink }
    let pm := pm.setLink p none
    (some p, if allocFlags &&& allocZero ≠ 0 then pm.fill p fun _ => 0 else pm)

/-- Puts a page back; both assertions of the source are the guard. -/
def pageFree (pm : Pmap M) (p : Ppn M) : Option (Pmap M) :=
  if (pm.pages p).ppRef = 0 ∧ (pm.pages p).ppLink = none then
    let pm := pm.setLink p pm.pageFreeList
    some { pm with pageFreeList := some p }
  else none

def pageDecref (pm : Pmap M) (p : Ppn M) : Option (Pmap M) :=
  let pm := pm.setRef p ((pm.pages p).ppRef - 1)
  if (pm.pages p).ppRef = 0 then pageFree pm p else some pm

/-! ### Page tables -/

/-- The tail of `pgdir_walk`: the entry for `va` in a page table that is there. -/
def walkTable (pm : Pmap M) (pgdir : Ppn M) (va : Word) : Option (Option (PtePtr M) × Pmap M) :=
  match kaddr M (pteAddr (pm.load (pgdir, pdx va))) with
  | none => none
  | some t => some (some (t, ptx va), pm)

def pgdirWalk (pm : Pmap M) (pgdir : Ppn M) (va : Word) (create : Bool) :
    Option (Option (PtePtr M) × Pmap M) :=
  if present (pm.load (pgdir, pdx va)) then walkTable pm pgdir va
  else if create then
    match pageAlloc pm allocZero with
    | (none, pm) => some (none, pm)
    | (some p, pm) =>
      let pm := pm.incRef p
      let pm := pm.store (pgdir, pdx va) (page2pa p ||| pteP ||| pteW ||| pteU)
      walkTable pm pgdir va
  else some (none, pm)

/-- The page mapped at `va` and the address of its entry. -/
def pageLookup (pm : Pmap M) (pgdir : Ppn M) (va : Word) : Option (Option (Ppn M × PtePtr M)) :=
  match pgdirWalk pm pgdir va false with
  | none => none
  | some (none, _) => some none
  | some (some entry, _) =>
    if present (pm.load entry) then
      match pa2page M (pteAddr (pm.load entry)) with
      | none => none
      | some p => some (some (p, entry))
    else some none

def pageRemove (pm : Pmap M) (pgdir : Ppn M) (va : Word) : Option (Pmap M) :=
  match pageLookup pm pgdir va with
  | none => none
  | some none => some pm
  | some (some (page, entry)) =>
    match pageDecref pm page with
    | none => none
    | some pm => some (pm.store entry 0)

def pageInsert (pm : Pmap M) (pgdir : Ppn M) (pp : Ppn M) (va perm : Word) :
    Option (Int × Pmap M) :=
  match pgdirWalk pm pgdir va true with
  | none => none
  | some (none, pm) => some (-eNoMem, pm)
  | some (some pte, pm) =>
    -- the count goes up first, so that re-inserting the same page cannot free it
    let pm := pm.incRef pp
    match (if present (pm.load pte) then pageRemove pm pgdir va else some pm) with
    | none => none
    | some pm =>
      let pm := pm.store pte (page2pa pp ||| perm ||| pteP)
      let pm := pm.store (pgdir, pdx va) (pm.load (pgdir, pdx va) ||| perm)
      some (0, pm)

/-! ### Checking user memory

`env->env_pgdir` may be `NULL` here, and `pgdir_walk` then fails its assertion, but
only once the loop reaches it.
-/

/-- One page of `user_mem_check`: the test on the entry for `start`. -/
def userPageOk (pm : Pmap M) (pgdir : Option (Ppn M)) (perm start : Word) : Option Bool :=
  match pgdir with
  | none => none
  | some d =>
    match pgdirWalk pm d start false with
    | none => none
    | some (none, _) => some false
    | some (some cur, _) => some (decide (¬ start > ulim ∧ pm.load cur &&& perm = perm))

/-- The loop of `user_mem_check` over `n` pages from `start`: the first page that fails. -/
def userMemLoop (pm : Pmap M) (pgdir : Option (Ppn M)) (perm : Word) :
    Nat → Word → Option (Option Word)
  | 0, _ => some none
  | n + 1, start =>
    match userPageOk pm pgdir perm start with
    | none => none
    | some false => some (some start)
    | some true => userMemLoop pm pgdir perm n (start + pgsize)

/-- How often `for (; start < end; start += PGSIZE)` goes round, both ends page-aligned. -/
def pageSteps (start finish : Word) : Nat :=
  if start < finish then (finish - start).toNat / 4096 else 0

/-- `user_mem_check`: `none` when the range is accessible, else `user_mem_check_addr`. -/
def userMemCheck (pm : Pmap M) (pgdir : Option (Ppn M)) (va len perm : Word) :
    Option (Option Word) :=
  let start := rounddown va pgsize
  let finish := roundup (va + len) pgsize
  match userMemLoop pm pgdir perm (pageSteps start finish) start with
  | none => none
  | some none => some none
  | some (some bad) => some (some (if bad = start then va else bad))

/-! ### The kernel using an environment's page tables

`sys_cputs` reads user addresses, and `load_icode` and `page_fault_handler` write
them, while the environment's directory is loaded.  A read needs both levels
present; `CR0_WP` is set, so a write needs both writable as well.  Anything else is a
page fault in the kernel.
-/

/-- The frame `va` translates to when both levels have the bits of `need`. -/
def translate (pm : Pmap M) (pgdir : Ppn M) (need va : Word) : Option (Ppn M) :=
  let pde := pm.load (pgdir, pdx va)
  if pde &&& need = need then
    match frame M (pteAddr pde) with
    | none => none
    | some t =>
      let pte := pm.load (t, ptx va)
      if pte &&& need = need then frame M (pteAddr pte) else none
  else none

/-- The word of its frame that holds the byte at `va`. -/
def wordIdx (va : Word) : Fin nptentries := Fin.ofNat nptentries (pgoff va >>> 2).toNat

/-- A word with byte `k` replaced, little-endian. -/
def setByte (w : Word) (k : Nat) (b : BitVec 8) : Word :=
  (w &&& ~~~(0xFF#32 <<< (8 * k))) ||| (b.setWidth 32 <<< (8 * k))

def loadByte (pm : Pmap M) (pgdir : Ppn M) (va : Word) : Option (BitVec 8) :=
  match translate pm pgdir pteP va with
  | none => none
  | some p => some ((pm.load (p, wordIdx va)).extractLsb' (8 * (va &&& 3).toNat) 8)

/-- The memory under a directory; addresses that are not mapped read as zero. -/
def userMem (pm : Pmap M) (pgdir : Ppn M) (a : Word) : BitVec 8 := (loadByte pm pgdir a).getD 0

def storeByte (pm : Pmap M) (pgdir : Ppn M) (va : Word) (b : BitVec 8) : Option (Pmap M) :=
  match translate pm pgdir (pteP ||| pteW) va with
  | none => none
  | some p =>
    let w := pm.load (p, wordIdx va)
    some (pm.store (p, wordIdx va) (setByte w (va &&& 3).toNat b))

/-- Stores a run of bytes from `va` upwards. -/
def storeBytes (pm : Pmap M) (pgdir : Ppn M) : Word → List (BitVec 8) → Option (Pmap M)
  | _, [] => some pm
  | va, b :: bs =>
    match storeByte pm pgdir va b with
    | none => none
    | some pm => storeBytes pm pgdir (va + 1) bs

end Jos
