/-
Memory before the free list, and the list.

`boot_alloc` hands out memory upwards: the directory, `pages[]` and `envs[]` come one
after the other behind the kernel image, in whole pages.  With the kernel where
`entry_pgdir` reaches it none of the sums wraps around, and everything can be counted in
pages from `KERNBASE` on.

`page_init` then lists every page it does not take to be in use, as `Proofs/Jos/PageInit.lean`
has it for `pages[]` alone.
-/
import Os.Proofs.Jos.Ledger
import Os.Proofs.Jos.PageInit

namespace Jos

variable {M : Machine}

/-! ### `boot_alloc` -/

theorem toNat_kernbase : kernbase.toNat = 4026531840 := by decide

/-- `a` is the kernel's address of the start of page `q`. -/
abbrev IsKva (a : Word) (q : Nat) : Prop := a.toNat = 4026531840 + 4096 * q

theorem IsKva.toNat_sub {a : Word} {q : Nat} (h : IsKva a q) : (a - kernbase).toNat = 4096 * q := by
  have hlt := a.isLt
  rw [BitVec.toNat_sub, toNat_kernbase, h]
  omega

/-- How many pages `n` bytes take. -/
def pagesFor (n : Nat) : Nat := (n + 4095) / 4096

theorem toNat_memSize (M : Machine) :
    (BitVec.ofNat 32 M.npages * pgsize).toNat = M.npages * 4096 := by
  have hle := M.npagesLe
  rw [BitVec.toNat_mul, BitVec.toNat_ofNat]
  show M.npages % 2 ^ 32 * 4096 % 2 ^ 32 = _
  omega

/-- **`boot_alloc`** gives the next page and moves on by what was asked for. -/
theorem bootAlloc_of_page {kernEnd nextfree n : Word} {q : Nat} {x : Word × Word}
    (hq : IsKva nextfree q) (hn : 4096 * q + n.toNat + 4096 ≤ 2 ^ 28)
    (h : bootAlloc M kernEnd nextfree n = some x) :
    x.1 = nextfree ∧ IsKva x.2 (q + pagesFor n.toNat) ∧ q + pagesFor n.toNat ≤ M.npages := by
  have hne : nextfree ≠ 0 := by
    intro hc
    rw [hc] at hq
    have hzero : (0 : Word).toNat = 0 := rfl
    omega
  have hsum : (nextfree + n).toNat = 4026531840 + 4096 * q + n.toNat := by
    rw [BitVec.toNat_add, hq]
    omega
  have hround : IsKva (roundup (nextfree + n) pgsize) (q + pagesFor n.toNat) := by
    unfold IsKva pagesFor
    rw [toNat_roundup (by omega), hsum]
    omega
  unfold bootAlloc at h
  simp only [if_neg hne] at h
  split at h
  · simp at h
  rename_i hfits
  cases h
  have hfits' := BitVec.le_def.mp (BitVec.not_lt.mp hfits)
  rw [hround.toNat_sub, toNat_memSize] at hfits'
  exact ⟨rfl, hround, by omega⟩

theorem bootAlloc_zero (M : Machine) (kernEnd n : Word) (hne : roundup kernEnd pgsize ≠ 0) :
    bootAlloc M kernEnd 0 n = bootAlloc M kernEnd (roundup kernEnd pgsize) n := by
  unfold bootAlloc
  rw [if_pos rfl, if_neg hne]

/-! ### `page_init` -/

/-- What `page_init` works on. -/
def Pmap.pageArray (pm : Pmap M) : PageArray M.npages where
  ppLink := links pm
  ppRef p := (pm.pages p).ppRef
  pageFreeList := pm.pageFreeList

theorem pageArray_setPage (pm : Pmap M) (i : Ppn M) (x : PageInfo M) (head : Option (Ppn M)) :
    Pmap.pageArray { pm with pages := Function.update pm.pages i x, pageFreeList := head }
      = { pm.pageArray.set i x.ppLink x.ppRef with pageFreeList := head } := by
  have hlink := Function.apply_update (fun _ (y : PageInfo M) => y.ppLink) pm.pages i x
  have href := Function.apply_update (fun _ (y : PageInfo M) => y.ppRef) pm.pages i x
  simp only [Pmap.pageArray, PageArray.set, PageArray.mk.injEq, and_true]
  exact ⟨funext hlink, funext href⟩

theorem pageInitStep_pageArray (b n : Nat) (pm : Pmap M) (i : Ppn M) :
    (pageInitStep b n pm i).pageArray = pm.pageArray.initStep b n i := by
  unfold pageInitStep PageArray.initStep
  split_ifs
  · exact pageArray_setPage pm i _ _
  · rfl
  · exact pageArray_setPage pm i _ _
  · exact pageArray_setPage pm i _ _

theorem pageInitStep_mem (b n : Nat) (pm : Pmap M) (i : Ppn M) :
    (pageInitStep b n pm i).mem = pm.mem ∧
      (pageInitStep b n pm i).kernPgdir = pm.kernPgdir := by
  unfold pageInitStep
  split_ifs <;> exact ⟨rfl, rfl⟩

/-- **`page_init`** lists exactly the pages it takes to be free, and writes nothing else. -/
theorem pageInit_spec (b n : Nat) (pm : Pmap M) :
    (pageInit b n pm).mem = pm.mem ∧ (pageInit b n pm).kernPgdir = pm.kernPgdir ∧
    ∃ l, FreeList (pageInit b n pm) l ∧ ∀ p, p ∈ l ↔ FreeAtBoot b n p.val := by
  have harray : (pageInit b n pm).pageArray = pm.pageArray.init b n :=
    (List.foldl_hom Pmap.pageArray fun pm i => (pageInitStep_pageArray b n pm i).symm).symm
  have hkeep : (pageInit b n pm).mem = pm.mem ∧ (pageInit b n pm).kernPgdir = pm.kernPgdir := by
    refine List.foldlRecOn (motive := fun pm' : Pmap M =>
      pm'.mem = pm.mem ∧ pm'.kernPgdir = pm.kernPgdir) _ _ ⟨rfl, rfl⟩ ?_
    intro pm' hkeep i _
    obtain ⟨hmem, hkern⟩ := pageInitStep_mem b n pm' i
    exact ⟨hmem.trans hkeep.1, hkern.trans hkeep.2⟩
  obtain ⟨l, hl, hiff⟩ := pm.pageArray.init_lists b n
  rw [← harray] at hl
  exact ⟨hkeep.1, hkeep.2, l, hl.chain, hiff⟩

/-! ### `mem_init` up to `page_init` -/

/-- The page of the kernel's directory. -/
def Boot.dirPage (B : Boot M) : Nat := pagesFor (B.kernEnd.toNat - 4026531840)

/-- Where `pages[]` and `envs[]` are, what the directory holds and which pages are free. -/
structure BootPages (B : Boot M) (bm : BootMem M) (l : List (Ppn M)) : Prop where
  dir : bm.pm.kernPgdir.val = B.dirPage
  pages : IsKva bm.pages (B.dirPage + 1)
  envs : IsKva bm.envs (B.dirPage + 1 + pagesFor (M.npages * 8))
  used : bm.numExtmemAlloc = B.dirPage + 1 + pagesFor (M.npages * 8) + 31
  fits : bm.numExtmemAlloc ≤ M.npages
  load : ∀ i, i ≠ pdx uvpt → bm.pm.load (bm.pm.kernPgdir, i) = 0
  uvpt : bm.pm.load (bm.pm.kernPgdir, pdx uvpt) = (page2pa bm.pm.kernPgdir ||| pteU ||| pteP)
  list : FreeList bm.pm l
  free : ∀ p, p ∈ l ↔ FreeAtBoot B.npagesBasemem bm.numExtmemAlloc p.val

theorem Boot.kernEnd_bounds (B : Boot M) :
    4027580416 ≤ B.kernEnd.toNat ∧ B.kernEnd.toNat ≤ 4030726144 := by
  have hlinked := B.linked
  have hbelow := B.stacksBelow
  have hend := B.endLe
  have hext : extphysmem.toNat = 1048576 := by decide
  have hpt : ptsize.toNat = 4194304 := by decide
  rw [toNat_kernbase] at hlinked hend
  omega

theorem memInitPages_spec {B : Boot M} {bm : BootMem M} (h : memInitPages B = some bm) :
    ∃ l, BootPages B bm l := by
  have hbounds := B.kernEnd_bounds
  have hnp := M.npagesLe
  have hfirst : IsKva (roundup B.kernEnd pgsize) B.dirPage := by
    unfold IsKva Boot.dirPage pagesFor
    rw [toNat_roundup (by omega)]
    omega
  have hne : roundup B.kernEnd pgsize ≠ 0 := by
    intro hc
    rw [hc] at hfirst
    have hzero : (0 : Word).toNat = 0 := rfl
    omega
  have hdir : B.dirPage ≤ 1024 := by
    unfold Boot.dirPage pagesFor
    omega
  simp only [memInitPages, Option.bind_eq_bind, Option.bind_eq_some_iff, bootAlloc_zero _ _ _ hne]
    at h
  obtain ⟨⟨kernPgdir, next1⟩, h1, pa, hpa, d, hd, ⟨pages, next2⟩, h2, ⟨envs, next3⟩, h3,
    ⟨top, next4⟩, h4, hbm⟩ := h
  have hsize1 : pgsize.toNat = 4096 := rfl
  have hsize2 : (BitVec.ofNat 32 M.npages * sizeofPageInfo).toNat = M.npages * 8 := by
    rw [BitVec.toNat_mul, BitVec.toNat_ofNat]
    show M.npages % 2 ^ 32 * 8 % 2 ^ 32 = _
    omega
  have hsize3 : (sizeofEnv * BitVec.ofNat 32 nenv).toNat = 126976 := by decide
  have hfor1 : pagesFor 4096 = 1 := by decide
  have hfor2 : pagesFor (M.npages * 8) ≤ 128 := by
    unfold pagesFor
    omega
  have hfor3 : pagesFor 126976 = 31 := by decide
  have hfor4 : pagesFor 0 = 0 := by decide
  obtain ⟨rfl, hnext1, -⟩ := bootAlloc_of_page hfirst (by omega) h1
  rw [hsize1, hfor1] at hnext1
  obtain ⟨rfl, hnext2, -⟩ := bootAlloc_of_page hnext1 (by omega) h2
  rw [hsize2] at hnext2
  obtain ⟨rfl, hnext3, -⟩ := bootAlloc_of_page hnext2 (by omega) h3
  rw [hsize3, hfor3] at hnext3
  obtain ⟨rfl, -, hfits⟩ := bootAlloc_of_page hnext3 (by show _ + 0 + _ ≤ _; omega) h4
  have hpa' : pa.toNat = 4096 * B.dirPage := by
    have hsome : some (roundup B.kernEnd pgsize - kernbase) = some pa := by
      rw [← hpa, paddr, if_neg]
      intro hlt
      have hlt' := BitVec.lt_def.mp hlt
      rw [toNat_kernbase, hfirst] at hlt'
      omega
    rw [← Option.some.inj hsome]
    exact hfirst.toNat_sub
  have hd' : d.val = B.dirPage := by
    unfold kaddr frame pgnum at hd
    split at hd
    · cases hd
      show (pa >>> 12).toNat = _
      rw [BitVec.toNat_ushiftRight, Nat.shiftRight_eq_div_pow, hpa']
      omega
    · simp at hd
  have hused : ((top - kernbase) / pgsize).toNat
      = B.dirPage + 1 + pagesFor (M.npages * 8) + 31 := by
    rw [BitVec.toNat_udiv, hnext3.toNat_sub, hsize1]
    omega
  have hpage : page2pa d = pa := by
    apply BitVec.eq_of_toNat_eq
    rw [toNat_page2pa, hd', hpa']
    omega
  cases hbm
  generalize hn : ((top - kernbase) / pgsize).toNat = n at hused ⊢
  obtain ⟨hmem, hkern, l, hl, hiff⟩ := pageInit_spec B.npagesBasemem n
    ({ mem := Function.update B.mem d (emptyPgdir pa)
       pages := fun _ => { ppLink := none, ppRef := 0 }
       pageFreeList := none
       kernPgdir := d } : Pmap M)
  refine ⟨l, (congrArg Fin.val hkern).trans hd', hnext1, hnext2, hused, ?_, ?_, ?_, hl, hiff⟩
  · have hzero : pagesFor (0 : Word).toNat = 0 := hfor4
    rw [hzero] at hfits
    show n ≤ M.npages
    omega
  · intro i hi
    rw [Pmap.load, hkern, hmem]
    simp [emptyPgdir, Function.update_of_ne hi]
  · rw [Pmap.load, hkern, hmem]
    simp [emptyPgdir, hpage]

end Jos
