/-
Setting up memory: `mem_init` of `kern/pmap.c`.

Until there is a free list, `boot_alloc` hands out memory from the end of the kernel
image upwards.  `page_init` then puts on the list what nobody has claimed, and
`boot_map_region` fills the kernel's directory, taking page tables from that list.

`mem_init` is in two parts here, before and after `check_page_free_list`,
`check_page_alloc` and `check_page`.  Those are tests.  They sort the free list, write on
free pages and leave a page table for the memory-mapped devices behind, but give back
everything else they take.
-/
import Os.Jos.Pmap

namespace Jos

variable {M : Machine}

/-! ### What the boot loader and the linker leave -/

def iophysmem : Word := 0x0A0000
def extphysmem : Word := 0x100000
def mpentryPaddr : Word := 0x7000
def kstksize : Word := 8 * pgsize
def kstkgap : Word := 8 * pgsize

/-- `sizeof(struct PageInfo)` -/
def sizeofPageInfo : Word := 8

/-- `sizeof(struct Env)` -/
def sizeofEnv : Word := 124

/-- The kernel in memory.  Base memory ends at `IOPHYSMEM`; the kernel is linked above
`KERNBASE + EXTPHYSMEM`, and runs in the 4MB that `entry_pgdir` maps. -/
structure Boot (M : Machine) where
  npagesBasemem : Nat
  /-- The linker's symbol `end`. -/
  kernEnd : Word
  bootstack : Word
  percpuKstacks : Word
  mem : Ppn M → Fin nptentries → Word
  basememLe : npagesBasemem ≤ 160
  linked : kernbase.toNat + extphysmem.toNat ≤ percpuKstacks.toNat
  stacksBelow : percpuKstacks.toNat + 8 * kstksize.toNat ≤ kernEnd.toNat
  endLe : kernEnd.toNat ≤ kernbase.toNat + ptsize.toNat
  stacksAligned : pgoff percpuKstacks = 0
  bootstackIn : kernbase ≤ bootstack

/-- `PADDR`, which panics on an address below `KERNBASE`. -/
def paddr (kva : Word) : Option Word := if kva < kernbase then none else some (kva - kernbase)

/-! ### Before the free list -/

/-- `boot_alloc`: the memory, and the static variable `nextfree` afterwards. -/
def bootAlloc (M : Machine) (kernEnd nextfree n : Word) : Option (Word × Word) :=
  let nextfree := if nextfree = 0 then roundup kernEnd pgsize else nextfree
  let result := nextfree
  let nextfree := roundup (nextfree + n) pgsize
  if nextfree - kernbase > BitVec.ofNat 32 M.npages * pgsize then none
  else some (result, nextfree)

/-- One turn of the loop in `page_init`, with `b` the pages of base memory and `n` those the
kernel has used of extended memory. -/
def pageInitStep (b n : Nat) (pm : Pmap M) (i : Ppn M) : Pmap M :=
  if i.val = 0 then
    { pm with pages := Function.update pm.pages i { ppLink := none, ppRef := 1 } }
  else if i.val = mpentryPaddr.toNat / pgsize.toNat then pm
  else if b ≤ i.val ∧ i.val < b + (extphysmem - iophysmem).toNat / pgsize.toNat + n then
    { pm with pages := Function.update pm.pages i { ppLink := none, ppRef := 1 } }
  else
    { pm with
      pages := Function.update pm.pages i { ppLink := pm.pageFreeList, ppRef := 0 }
      pageFreeList := some i }

def pageInit (b n : Nat) (pm : Pmap M) : Pmap M :=
  (List.finRange M.npages).foldl (pageInitStep b n) { pm with pageFreeList := none }

/-! `page_init` reads nothing but its counts and touches nothing but `pages[]` and the list.  On
those alone it runs for any number of pages, also where the kernel could not go on to map them. -/

structure PageArray (npages : Nat) where
  ppLink : Fin npages → Option (Fin npages)
  ppRef : Fin npages → BitVec 16
  pageFreeList : Option (Fin npages)

namespace PageArray

variable {npages : Nat}

def set (a : PageArray npages) (i : Fin npages) (link : Option (Fin npages)) (ref : BitVec 16) :
    PageArray npages :=
  { a with ppLink := Function.update a.ppLink i link, ppRef := Function.update a.ppRef i ref }

/-- `pageInitStep` on the array. -/
def initStep (b n : Nat) (a : PageArray npages) (i : Fin npages) : PageArray npages :=
  if i.val = 0 then a.set i none 1
  else if i.val = mpentryPaddr.toNat / pgsize.toNat then a
  else if b ≤ i.val ∧ i.val < b + (extphysmem - iophysmem).toNat / pgsize.toNat + n then
    a.set i none 1
  else { a.set i a.pageFreeList 0 with pageFreeList := some i }

def init (b n : Nat) (a : PageArray npages) : PageArray npages :=
  (List.finRange npages).foldl (initStep b n) { a with pageFreeList := none }

end PageArray

/-- What `mem_init` has when `page_init` returns: the kernel's addresses of the two arrays,
and the number of pages `page_init` takes to be in use from `KERNBASE` on. -/
structure BootMem (M : Machine) where
  pm : Pmap M
  pages : Word
  envs : Word
  numExtmemAlloc : Nat

/-- The kernel's directory to begin with: it maps itself at `UVPT`. -/
def emptyPgdir (pa : Word) : Fin npdentries → Word :=
  Function.update (fun _ => 0) (pdx uvpt) (pa ||| pteU ||| pteP)

/-- `mem_init` up to and including `page_init`. -/
def memInitPages (B : Boot M) : Option (BootMem M) := do
  let (kernPgdir, nextfree) ← bootAlloc M B.kernEnd 0 pgsize
  let pa ← paddr kernPgdir
  let d ← kaddr M pa
  let (pages, nextfree) ← bootAlloc M B.kernEnd nextfree (BitVec.ofNat 32 M.npages * sizeofPageInfo)
  let (envs, nextfree) ← bootAlloc M B.kernEnd nextfree (sizeofEnv * BitVec.ofNat 32 nenv)
  let (top, _) ← bootAlloc M B.kernEnd nextfree 0
  let n := ((top - kernbase) / pgsize).toNat
  let pm : Pmap M :=
    { mem := Function.update B.mem d (emptyPgdir pa)
      pages := fun _ => { ppLink := none, ppRef := 0 }
      pageFreeList := none
      kernPgdir := d }
  return { pm := pageInit B.npagesBasemem n pm, pages := pages, envs := envs, numExtmemAlloc := n }

/-! ### The kernel's address space -/

/-- The loop of `boot_map_region`, over `n` pages. -/
def bootMapLoop (pgdir : Ppn M) (perm : Word) : Nat → Word → Word → Pmap M → Option (Pmap M)
  | 0, _, _, pm => some pm
  | n + 1, va, pa, pm =>
    match pgdirWalk pm pgdir va true with
    | some (some pte, pm) =>
      bootMapLoop pgdir perm n (va + pgsize) (pa + pgsize) (pm.store pte (pa ||| perm ||| pteP))
    | _ => none

def bootMapRegion (pm : Pmap M) (pgdir : Ppn M) (va size pa perm : Word) : Option (Pmap M) :=
  bootMapLoop pgdir perm (size / pgsize).toNat va pa pm

/-- The top of the kernel stack of CPU `i`. -/
def kstacktopOf (i : CpuIdx) : Word := kstacktop - BitVec.ofNat 32 i * (kstkgap + kstksize)

/-- `&percpu_kstacks[i]` -/
def Boot.kstack (B : Boot M) (i : CpuIdx) : Word := B.percpuKstacks + BitVec.ofNat 32 i * kstksize

/-- One turn of the loop in `mem_init_mp`. -/
def memInitCpu (B : Boot M) (pm : Pmap M) (i : CpuIdx) : Option (Pmap M) := do
  let pa ← paddr (B.kstack i)
  bootMapRegion pm pm.kernPgdir (kstacktopOf i - kstksize) kstksize pa (pteW ||| pteP)

def memInitMp (B : Boot M) (pm : Pmap M) : Option (Pmap M) :=
  (List.finRange ncpu).foldlM (memInitCpu B) pm

/-- `mem_init` after the tests, up to and including `mem_init_mp`. -/
def memInitMap (B : Boot M) (pages envs : Word) (pm : Pmap M) : Option (Pmap M) := do
  let pagesPa ← paddr pages
  let pm ← bootMapRegion pm pm.kernPgdir upages ptsize pagesPa pteU
  let envsPa ← paddr envs
  let pm ← bootMapRegion pm pm.kernPgdir uenvs ptsize envsPa pteU
  let stackPa ← paddr B.bootstack
  let pm ← bootMapRegion pm pm.kernPgdir (kstacktop - kstksize) kstksize stackPa pteW
  let pm ← bootMapRegion pm pm.kernPgdir kernbase (0xffffffff - kernbase) 0 pteW
  memInitMp B pm

/-- Memory, with the `base` that `mmio_map_region` keeps between its calls. -/
structure Mmio (M : Machine) where
  base : Word
  pm : Pmap M

/-- `mmio_map_region`: the address of the region, or the panic. -/
def mmioMapRegion (m : Mmio M) (pa size : Word) : Option (Word × Mmio M) :=
  let ret := m.base
  let size := roundup size pgsize
  if m.base + size > mmiolim ∨ m.base + size < m.base then none
  else
    match bootMapRegion m.pm m.pm.kernPgdir m.base size pa (pteW ||| ptePcd ||| ptePwt) with
    | none => none
    | some pm => some (ret, { base := m.base + size, pm := pm })

/-! ### What the processor makes of it -/

/-- Where an address leads, and who may do what there. -/
structure Mapping where
  pa : Word
  user : Bool
  write : Bool
  deriving DecidableEq

/-- The processor's walk of a two-level table; it takes the flags of both levels together. -/
def hwTranslate (pm : Pmap M) (pgdir : Ppn M) (va : Word) : Option Mapping :=
  let pde := pm.load (pgdir, pdx va)
  if present pde then
    match frame M (pteAddr pde) with
    | none => none
    | some t =>
      let pte := pm.load (t, ptx va)
      if present pte then
        some
          { pa := pteAddr pte + pgoff va
            user := pde &&& pte &&& pteU ≠ 0
            write := pde &&& pte &&& pteW ≠ 0 }
      else none
  else none

end Jos
