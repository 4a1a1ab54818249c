/-
Environments: `kern/env.c`.

`env_destroy` ends in the scheduler and is in `Jos/Sched.lean`.  Console output is
left out, and so is `lcr3`; `PADDR(curenv->env_pgdir)` panics on a `NULL` directory
and that panic stays.
-/
import Os.Jos.Pmap

namespace Jos

variable {M : Machine}

/--
`envid2env`: the return code and what is stored in `*env_store`.

The permission test reads `curenv->env_id`, which is a fault when there is no
current environment.
-/
def envid2env (s : Kern M) (c : CpuIdx) (envid : Word) (checkperm : Bool) :
    Option (Int × Option EnvIdx) :=
  if envid = 0 then some (0, s.curenv c)
  else
    let e := envx envid
    if (s.envs e).envStatus = .free ∨ (s.envs e).envId ≠ envid then some (-eBadEnv, none)
    else if checkperm ∧ some e ≠ s.curenv c then
      match s.curenv c with
      | none => none
      | some k =>
        if (s.envs e).envParentId ≠ (s.envs k).envId then some (-eBadEnv, none)
        else some (0, some e)
    else some (0, some e)

/-- One turn of the loop in `env_init`. -/
def envInitSlot (i : EnvIdx) (s : Kern M) : Kern M :=
  let s := s.modifyEnv i fun v =>
    { v with envId := 0, envStatus := .free, envLink := s.envFreeList }
  { s with envFreeList := some i }

/-- The loop runs from the last slot down, so that the list starts with slot 0. -/
def envInit (s : Kern M) : Kern M :=
  (List.finRange nenv).foldr envInitSlot { s with envFreeList := none }

/-- The directory `env_setup_vm` builds in frame `p`. -/
def newPgdir (pm : Pmap M) (p : Ppn M) (i : Fin npdentries) : Word :=
  if i = pdx uvpt then page2pa p ||| pteP ||| pteU
  else if i.val < pdxUtop then 0
  else pm.load (pm.kernPgdir, i)

def envSetupVm (s : Kern M) (e : EnvIdx) : Int × Kern M :=
  match pageAlloc s.pm allocZero with
  | (none, pm) => (-eNoMem, { s with pm := pm })
  | (some p, pm) =>
    let s := { s with pm := pm }
    let s := s.modifyEnv e fun v => { v with envPgdir := some p }
    let s := { s with pm := s.pm.incRef p }
    (0, { s with pm := s.pm.fill p (newPgdir s.pm p) })

/-- The id `env_alloc` gives to slot `e` whose last id was `old`. -/
def nextEnvId (old : Word) (e : EnvIdx) : Word :=
  let generation := (old + 1#32 <<< envgenshift) &&& ~~~0x3FF
  let generation := if generation.sle 0 then 1#32 <<< envgenshift else generation
  generation ||| BitVec.ofNat 32 e

/-- The saved registers of a fresh environment. -/
def newTf : Trapframe :=
  { Trapframe.zero with
    tfDs := gdUd ||| 3, tfEs := gdUd ||| 3, tfSs := gdUd ||| 3,
    tfEsp := ustacktop, tfCs := gdUt ||| 3 }

def envAlloc (s : Kern M) (parentId : Word) : Except Int EnvIdx × Kern M :=
  match s.envFreeList with
  | none => (.error (-eNoFreeEnv), s)
  | some e =>
    match envSetupVm s e with
    | (r, s) =>
      if r < 0 then (.error r, s)
      else
        let s := s.modifyEnv e fun v =>
          { v with
            envId := nextEnvId v.envId e
            envParentId := parentId
            envType := .user
            envStatus := .runnable
            envRuns := 0
            envTf := newTf
            envPgfaultUpcall := 0
            envIpcRecving := false }
        (.ok e, { s with envFreeList := (s.envs e).envLink })

/-! ### Loading a program -/

/-- The loop of `region_alloc` over `n` pages from `i`; running out of memory panics. -/
def regionLoop (pgdir : Ppn M) : Nat → Word → Pmap M → Option (Pmap M)
  | 0, _, pm => some pm
  | n + 1, i, pm =>
    match pageAlloc pm 0 with
    | (none, _) => none
    | (some p, pm) =>
      match pageInsert pm pgdir p i (pteW ||| pteU) with
      | none => none
      | some (r, pm) => if r ≠ 0 then none else regionLoop pgdir n (i + pgsize) pm

def regionAlloc (s : Kern M) (e : EnvIdx) (va len : Word) : Option (Kern M) :=
  let start := rounddown va pgsize
  let finish := roundup (va + len) pgsize
  match (s.envs e).envPgdir with
  | none => if pageSteps start finish = 0 then some s else none
  | some d =>
    match regionLoop d (pageSteps start finish) start s.pm with
    | none => none
    | some pm => some { s with pm := pm }

structure Proghdr where
  pType : Word
  pOffset : Word
  pVa : Word
  pFilesz : Word
  pMemsz : Word

/-- A program image: the header fields `load_icode` reads, and the bytes of the file. -/
structure Elf where
  eMagic : Word
  eEntry : Word
  phdrs : List Proghdr
  binary : Nat → BitVec 8

def elfMagic : Word := 0x464C457F
def elfProgLoad : Word := 1

/-- `memmove` and `memset` of a segment, with the environment's directory loaded. -/
def copySegment (pm : Pmap M) (pgdir : Ppn M) (elf : Elf) (ph : Proghdr) : Option (Pmap M) :=
  match storeBytes pm pgdir ph.pVa
      ((List.range ph.pFilesz.toNat).map fun k => elf.binary (ph.pOffset.toNat + k)) with
  | none => none
  | some pm =>
    storeBytes pm pgdir (ph.pVa + ph.pFilesz) (List.replicate (ph.pMemsz - ph.pFilesz).toNat 0)

def loadSegment (e : EnvIdx) (elf : Elf) (s : Kern M) (ph : Proghdr) : Option (Kern M) :=
  if ph.pType ≠ elfProgLoad then some s
  -- the source compares the unsigned difference with 0
  else if ph.pMemsz - ph.pFilesz < 0 then none
  else
    match regionAlloc s e ph.pVa ph.pMemsz with
    | none => none
    | some s =>
      match (s.envs e).envPgdir with
      | none => none
      | some d =>
        match copySegment s.pm d elf ph with
        | none => none
        | some pm => some { s with pm := pm }

def loadIcode (s : Kern M) (e : EnvIdx) (elf : Elf) : Option (Kern M) :=
  if elf.eMagic ≠ elfMagic then none
  else if elf.eEntry = 0 then none
  else
    let s := s.modifyEnv e fun v => { v with envTf := { v.envTf with tfEip := elf.eEntry } }
    match elf.phdrs.foldlM (loadSegment e elf) s with
    | none => none
    | some s => regionAlloc s e (ustacktop - pgsize) pgsize

def envCreate (s : Kern M) (elf : Elf) (type : EnvType) : Option (Kern M) :=
  match envAlloc s 0 with
  | (.error _, _) => none
  | (.ok e, s) =>
    match loadIcode s e elf with
    | none => none
    | some s => some (s.modifyEnv e fun v => { v with envType := type })

/-! ### Tearing an environment down -/

/-- The inner loop of `env_free`, one entry of the page table in frame `t`. -/
def freePte (d t : Ppn M) (i : Fin npdentries) (pm : Pmap M) (j : Fin nptentries) :
    Option (Pmap M) :=
  if present (pm.load (t, j)) then pageRemove pm d (pgaddr i j 0) else some pm

/-- The outer loop, one directory entry: unmap what the table maps, then drop the table. -/
def freePde (d : Ppn M) (pm : Pmap M) (i : Upde) : Option (Pmap M) :=
  if ¬ present (pm.load (d, toPde i)) then some pm
  else
    match kaddr M (pteAddr (pm.load (d, toPde i))) with
    | none => none
    | some t =>
      match (List.finRange nptentries).foldlM (freePte d t (toPde i)) pm with
      | none => none
      | some pm => pageDecref (pm.store (d, toPde i) 0) t

def envFree (s : Kern M) (e : EnvIdx) : Option (Kern M) :=
  match (s.envs e).envPgdir with
  | none => none
  | some d =>
    match (List.finRange pdxUtop).foldlM (freePde d) s.pm with
    | none => none
    | some pm =>
      match pageDecref pm d with
      | none => none
      | some pm =>
        let s := { s with pm := pm }
        let s := s.modifyEnv e fun v =>
          { v with envPgdir := none, envStatus := .free, envLink := s.envFreeList }
        some { s with envFreeList := some e }

end Jos
