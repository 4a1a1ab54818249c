/-
What user programs see of the kernel's memory.

`UPAGES` and `UENVS` are windows of 4MB each, mapped for user programs to read, and
`env_setup_vm` copies them into every address space.  The arrays behind them are much
smaller.  `boot_map_region` is given the size of the window, not of the array, so the rest
of each window shows whatever comes after the array in physical memory: first pages that
`page_init` skips, and then pages on the free list, which will belong to some environment.

The one other part user programs can read is `UVPT`, which shows page tables.  They come
from the free list as well, and are meant to be seen there.
-/
import Os.Proofs.Jos.KernMap

namespace Jos

variable {M : Machine} {pm pm' : Pmap M} {l l' l0 : List (Ppn M)} {va : Word}
variable {B : Boot M} {bm : BootMem M} {d p : Ppn M}

/-- A user program under the directory `d` can read page `p` at `va`. -/
def Exposes (pm : Pmap M) (d : Ppn M) (va : Word) (p : Ppn M) : Prop :=
  ∃ m, hwTranslate pm d va = some m ∧ m.user = true ∧ frame M m.pa = some p

/-- A directory with the kernel's entries above `UTOP`. -/
def SharesKernel (pm : Pmap M) (d : Ppn M) : Prop :=
  ∀ i : Fin npdentries, pdxUtop ≤ i.val → i ≠ pdx uvpt →
    pm.load (d, i) = pm.load (pm.kernPgdir, i)

theorem SharesKernel.refl (pm : Pmap M) : SharesKernel pm pm.kernPgdir := fun _ _ _ => rfl

theorem SharesKernel.exposes_iff (h : SharesKernel pm d) (hva : utop ≤ va)
    (hne : pdx va ≠ pdx uvpt) : Exposes pm d va p ↔ Exposes pm pm.kernPgdir va p := by
  have hlow := BitVec.le_def.mp hva
  rw [toNat_utop] at hlow
  have hload : pm.load (d, pdx va) = pm.load (pm.kernPgdir, pdx va) := by
    refine h _ ?_ hne
    rw [val_pdx]
    show 955 ≤ _
    omega
  unfold Exposes hwTranslate
  rw [hload]

/-! ### The windows -/

theorem ofPte_user {w a : Word} {m : Mapping} (h : ofPte w a = some m) (hu : m.user = true) :
    w &&& pteU ≠ 0 := by
  unfold ofPte at h
  split at h
  · cases h
    simpa using hu
  · simp at h

/-- Before the kernel is mapped nothing is for user programs. -/
theorem Checked.leaf_and_user (h : BootPages B bm l0) (hc : Checked bm.pm l0 pm l)
    (hne : pdx va ≠ pdx uvpt) : leaf pm va &&& pteU = 0 := by
  by_cases hdev : pdx va = pdx mmiobase
  · rcases hc.devices with hzero | ⟨t, -, -, hload, huser⟩
    · rw [leaf_of_none]
      · decide
      · rw [entry, hdev, hzero, entryOf_zero]
    · have hentry : entry pm pm.kernPgdir (pdx va) = some t := by
        rw [entry, hdev, hload, entryOf_pde]
      rw [leaf_of_entry hentry, huser]
  · rw [hc.leaf_eq_zero h hne hdev]
    decide

theorem KernMapped.lt_of_user {m : Mapping} (h : BootPages B bm l0)
    (hc : Checked bm.pm l0 pm l) (hm : KernMapped B bm pm l pm' l') (hva : utop ≤ va)
    (hne : pdx va ≠ pdx uvpt) (ht : Jos.hwTranslate pm' pm'.kernPgdir va = some m)
    (hu : m.user = true) : va.toNat < 4013948928 := by
  have hlow := BitVec.le_def.mp hva
  by_contra hout
  by_cases hkern : 4026531840 ≤ va.toNat ∧ va.toNat < 4294963200
  · have hdoc := (hm.documented h hc hkern.2).kern (by rw [BitVec.le_def, toNat_kernbase]; omega)
    rw [ht] at hdoc
    cases hdoc
    cases hu
  · by_cases hstack : ∃ i, InPages (kstacktopOf i - kstksize) 8 va
    · obtain ⟨i, hi⟩ := hstack
      rw [inPages_kstack] at hi
      have hdocs : Documented B bm pm' va := hm.documented h hc (by omega)
      have hdoc := hdocs.stack i (by rw [BitVec.le_def, toNat_kstackBase]; omega)
        (by rw [BitVec.lt_def, toNat_kstacktopOf]; omega)
      rw [ht] at hdoc
      cases hdoc
      cases hu
    · have hother := hm.hwTranslate hne
      rw [kernLeaf_other (by omega) hkern (fun i hi => hstack ⟨i, hi⟩), ht] at hother
      exact ofPte_user hother.symm hu (hc.leaf_and_user h hne)

theorem frame_eq_some_iff {w : Word} : frame M w = some p ↔ w.toNat / 4096 = p.val := by
  have hnum : pgnum w = w.toNat / 4096 := by
    unfold pgnum
    rw [BitVec.toNat_ushiftRight, Nat.shiftRight_eq_div_pow]
  unfold frame
  rw [← hnum]
  constructor
  · intro h
    split at h
    · cases h
      rfl
    · simp at h
  · intro h
    rw [dif_pos (by omega)]
    exact congrArg some (Fin.ext h)

/-- Where an address as far from `v` as `pa` is from `base` leads. -/
theorem toNat_add_sub {base v pa : Word} {q : Nat} (hpa : IsKva pa q) (hq : q ≤ 1200)
    (hle : base.toNat ≤ v.toNat) (hlt : v.toNat < base.toNat + 4194304) :
    (pa - kernbase + (v - base)).toNat = 4096 * q + (v.toNat - base.toNat) := by
  rw [BitVec.toNat_add, hpa.toNat_sub, BitVec.toNat_sub]
  omega

theorem BootPages.dirPage_bounds (B : Boot M) : 256 ≤ B.dirPage ∧ B.dirPage ≤ 1024 := by
  have hend := B.kernEnd_bounds
  unfold Boot.dirPage pagesFor
  omega

theorem pagesFor_npages_le (M : Machine) : pagesFor (M.npages * 8) ≤ 128 := by
  have hle := M.npagesLe
  unfold pagesFor
  omega

/-- The `UPAGES` window shows the 1024 pages from `pages[]` on. -/
theorem KernMapped.exposes_window {k : Nat} (h : BootPages B bm l0)
    (hc : Checked bm.pm l0 pm l) (hm : KernMapped B bm pm l pm' l')
    (hp : B.dirPage + 1 + k = p.val) (hk : k < 1024) :
    Exposes pm' pm'.kernPgdir (upages + BitVec.ofNat 32 (4096 * k)) p := by
  have hdir := BootPages.dirPage_bounds B
  have hupages : upages.toNat = 4009754624 := by decide
  have hend : (upages + ptsize).toNat = 4013948928 := by decide
  have hva : (upages + BitVec.ofNat 32 (4096 * k)).toNat = 4009754624 + 4096 * k := by
    rw [BitVec.toNat_add, BitVec.toNat_ofNat, hupages]
    omega
  have hdocs : Documented B bm pm' (upages + BitVec.ofNat 32 (4096 * k)) :=
    hm.documented h hc (by omega)
  refine ⟨_, hdocs.pages (by rw [BitVec.le_def, hva, hupages]; omega)
    (by rw [BitVec.lt_def, hva, hend]; omega), rfl, ?_⟩
  rw [frame_eq_some_iff, toNat_add_sub h.pages (by omega) (by omega) (by omega), hva, hupages]
  omega

theorem KernMapped.le_of_exposes (h : BootPages B bm l0) (hc : Checked bm.pm l0 pm l)
    (hm : KernMapped B bm pm l pm' l') (hva : utop ≤ va) (hne : pdx va ≠ pdx uvpt)
    (he : Exposes pm' pm'.kernPgdir va p) : B.dirPage < p.val := by
  obtain ⟨m, ht, hu, hframe⟩ := he
  have hdir := BootPages.dirPage_bounds B
  have hfor := pagesFor_npages_le M
  have hlow := BitVec.le_def.mp hva
  have hlt := hm.lt_of_user h hc hva hne ht hu
  have hdocs : Documented B bm pm' va := hm.documented h hc (by omega)
  obtain ⟨hupages, huenvs, hupagesEnd, huenvsEnd⟩ := toNat_windows
  rw [toNat_utop] at hlow
  rw [frame_eq_some_iff] at hframe
  by_cases hpages : 4009754624 ≤ va.toNat
  · have hdoc := hdocs.pages (by rw [BitVec.le_def, hupages]; omega)
      (by rw [BitVec.lt_def, hupagesEnd]; omega)
    rw [ht] at hdoc
    cases hdoc
    rw [toNat_add_sub h.pages (by omega) (by omega) (by omega)] at hframe
    omega
  · have hdoc := hdocs.envs (by rw [BitVec.le_def, huenvs]; omega)
      (by rw [BitVec.lt_def, huenvsEnd]; omega)
    rw [ht] at hdoc
    cases hdoc
    rw [toNat_add_sub h.envs (by omega) (by omega) (by omega)] at hframe
    omega

/-! ### Free pages in the windows -/

/-- The first page `page_init` lists behind the kernel. -/
def firstExt (B : Boot M) (bm : BootMem M) : Nat := B.npagesBasemem + 96 + bm.numExtmemAlloc

section

variable (h : BootPages B bm l0)
include h

theorem BootPages.firstExt_eq :
    firstExt B bm = B.dirPage + 1 + (B.npagesBasemem + 96 + pagesFor (M.npages * 8) + 31) := by
  rw [firstExt, h.used]
  omega

theorem BootPages.mem_firstExt (hp : p.val = firstExt B bm) : p ∈ l0 := by
  have hext : firstExt B bm = B.npagesBasemem + 96 + bm.numExtmemAlloc := rfl
  rw [h.free]
  exact ⟨by omega, by omega, by omega⟩

/-- The windows are clear of free pages exactly when memory ends before the first of them. -/
theorem KernMapped.windows_iff (hc : Checked bm.pm l0 pm l)
    (hm : KernMapped B bm pm l pm' l') :
    (∀ d va p, SharesKernel pm' d → utop ≤ va → pdx va ≠ pdx uvpt → Exposes pm' d va p →
      p ∉ l0) ↔ M.npages ≤ firstExt B bm := by
  have hbase := B.basememLe
  have hdir := BootPages.dirPage_bounds B
  have hfor := pagesFor_npages_le M
  have hfirst := h.firstExt_eq
  constructor
  · intro hclear
    by_contra hlt
    have hpage : B.dirPage + 1 + (B.npagesBasemem + 96 + pagesFor (M.npages * 8) + 31)
        = firstExt B bm := hfirst.symm
    have hexposes := hm.exposes_window h hc (p := ⟨firstExt B bm, Nat.not_le.mp hlt⟩) hpage
      (by omega)
    generalize hk : B.npagesBasemem + 96 + pagesFor (M.npages * 8) + 31 = k at hexposes
    have hva : (upages + BitVec.ofNat 32 (4096 * k)).toNat = 4009754624 + 4096 * k := by
      have hupages : upages.toNat = 4009754624 := by decide
      rw [BitVec.toNat_add, BitVec.toNat_ofNat, hupages]
      omega
    refine hclear _ _ _ (SharesKernel.refl pm') ?_ ?_ hexposes (h.mem_firstExt rfl)
    · rw [BitVec.le_def, toNat_utop, hva]
      omega
    · rw [pdx_ne_uvpt_iff, hva]
      omega
  · intro hle d va p hshares hva hne he hp
    have hlow := hm.le_of_exposes h hc hva hne ((hshares.exposes_iff hva hne).mp he)
    have hext : firstExt B bm = B.npagesBasemem + 96 + bm.numExtmemAlloc := rfl
    exact ((h.free p).mp hp).2.2 ⟨by omega, by omega⟩

/-- Through `UVPT` every page table can be read, and all of them come from the free list. -/
theorem KernMapped.exposes_uvpt {i : Fin npdentries} {t : Ppn M}
    (hc : Checked bm.pm l0 pm l) (hm : KernMapped B bm pm l pm' l') (hi : i ≠ pdx uvpt)
    (ht : entry pm' pm'.kernPgdir i = some t) :
    t ∈ l0 ∧ Exposes pm' pm'.kernPgdir (uvpt + BitVec.ofNat 32 (4096 * i.val)) t := by
  constructor
  · rcases hm.tables i t hi ht with hold | hnew
    · by_cases hdev : i = pdx mmiobase
      · rw [hdev] at hold
        rcases hc.devices with hzero | ⟨t', ht', -, hload, -⟩
        · rw [entry, hzero, entryOf_zero] at hold
          cases hold
        · rw [entry, hload, entryOf_pde] at hold
          cases hold
          exact ht'
      · rw [entry, hc.load_zero h hi hdev, entryOf_zero] at hold
        cases hold
    · exact hc.sub t hnew
  · have huvpt : uvpt.toNat = 4013948928 := by decide
    have hilt : i.val < 1024 := i.isLt
    have hva : (uvpt + BitVec.ofNat 32 (4096 * i.val)).toNat = 4013948928 + 4096 * i.val := by
      rw [BitVec.toNat_add, BitVec.toNat_ofNat, huvpt]
      omega
    have hpdx : pdx (uvpt + BitVec.ofNat 32 (4096 * i.val)) = pdx uvpt := by
      rw [Fin.ext_iff, val_pdx, val_pdx, hva, huvpt]
      omega
    have hptx : ptx (uvpt + BitVec.ofNat 32 (4096 * i.val)) = i := by
      rw [Fin.ext_iff, val_ptx, hva]
      omega
    have hoff : pgoff (uvpt + BitVec.ofNat 32 (4096 * i.val)) = 0 := by
      rw [pgoff_eq_zero_iff, hva]
      omega
    have hself : pm'.load (pm'.kernPgdir, pdx uvpt)
        = (page2pa pm'.kernPgdir ||| (pteU ||| pteP)) := by
      rw [hm.self, hc.dir _ (by decide), hm.kern, hc.kern, h.uvpt, BitVec.or_assoc]
    have hpde : present (page2pa pm'.kernPgdir ||| (pteU ||| pteP)) :=
      present_or_right (by decide)
    obtain ⟨hpte, hframe⟩ := entryOf_eq_some.mp ht
    refine ⟨{
      pa := pteAddr (pm'.load (pm'.kernPgdir, i)) + pgoff (uvpt + BitVec.ofNat 32 (4096 * i.val))
      user := (page2pa pm'.kernPgdir ||| (pteU ||| pteP))
        &&& pm'.load (pm'.kernPgdir, i) &&& pteU ≠ 0
      write := (page2pa pm'.kernPgdir ||| (pteU ||| pteP))
        &&& pm'.load (pm'.kernPgdir, i) &&& pteW ≠ 0 }, ?_, ?_, ?_⟩
    · unfold Jos.hwTranslate
      rw [hpdx, hself, hptx]
      simp only
        [if_pos hpde, frame_page2pa_or pm'.kernPgdir (show FlagsOnly (pteU ||| pteP) by decide),
        if_pos hpte]
    · have hall := (hm.space.entry_spec hi ht).2.2
      have hbits : pm'.load (pm'.kernPgdir, i) &&& pteU = pteU := by
        rw [show pteU = 7 &&& pteU by decide, ← BitVec.and_assoc, hall]
      simp only [BitVec.and_assoc, hbits]
      rw [BitVec.and_or_distrib_right, page2pa_and_flags _ (by decide)]
      decide
    · rw [hoff, ← hframe]
      exact congrArg (frame M) (BitVec.add_zero _)

end

/--
**What the windows show.**  Whatever the tests leave of the free list `l0`, once the kernel
is mapped a user program, whose directory has the kernel's entries above `UTOP`, reads
there no page that `page_init` has listed exactly when memory ends before the first page
listed behind the kernel.  (Then `check_page_free_list` fails, so no machine that boots is
like that.)  At `UVPT` it reads page tables, which are from that list.
-/
theorem free_pages_hidden_iff (hboot : memInitPages B = some bm) (hl0 : FreeList bm.pm l0)
    (hc : Checked bm.pm l0 pm l) (hroom : 67 ≤ l.length) :
    ∃ pm', memInitMap B bm.pages bm.envs pm = some pm' ∧
      ((∀ d va p, SharesKernel pm' d → utop ≤ va → pdx va ≠ pdx uvpt → Exposes pm' d va p →
        p ∉ l0) ↔ M.npages ≤ B.npagesBasemem + 96 +
          (B.dirPage + 1 + pagesFor (M.npages * 8) + 31)) ∧
      ∀ i t, i ≠ pdx uvpt → entry pm' pm'.kernPgdir i = some t →
        t ∈ l0 ∧ Exposes pm' pm'.kernPgdir (uvpt + BitVec.ofNat 32 (4096 * i.val)) t := by
  obtain ⟨l1, h⟩ := memInitPages_spec hboot
  have heq : l1 = l0 := h.list.unique hl0
  rw [heq] at h
  obtain ⟨pm', l', hmap, hm⟩ := hc.memInitMap h hroom
  rw [← h.used]
  exact ⟨pm', hmap, hm.windows_iff h hc, fun i t hi ht => hm.exposes_uvpt h hc hi ht⟩

/-- A machine whose memory ends right behind the kernel, if it could do without the tests. -/
theorem free_pages_hidden_iff_small : ∃ bm l pm', memInitPages (bootOn 399) = some bm ∧
    FreeList bm.pm l ∧ memInitMap (bootOn 399) bm.pages bm.envs bm.pm = some pm' ∧
    ∀ d va p, SharesKernel pm' d → utop ≤ va → pdx va ≠ pdx uvpt → Exposes pm' d va p → p ∉ l := by
  have hsome : (memInitPages (bootOn 399)).isSome = true := by decide +kernel
  obtain ⟨bm, hbm⟩ := Option.isSome_iff_exists.mp hsome
  obtain ⟨l, h⟩ := memInitPages_spec hbm
  have hlen : 67 ≤ l.length := le_trans (by decide) (h.length_le (by decide))
  obtain ⟨pm', hmap, hiff, -⟩ := free_pages_hidden_iff hbm h.list h.checked hlen
  exact ⟨bm, l, pm', hbm, h.list, hmap, hiff.mpr (by decide)⟩

/-- With 700 pages of memory a program reads the free page 610 behind the array of pages. -/
theorem free_page_exposed : ∃ bm l pm', memInitPages (bootOn 699) = some bm ∧
    FreeList bm.pm l ∧ memInitMap (bootOn 699) bm.pages bm.envs bm.pm = some pm' ∧
    ∃ p ∈ l, p.val = 610 ∧
      Exposes pm' pm'.kernPgdir (upages + BitVec.ofNat 32 (4096 * 289)) p := by
  obtain ⟨bm, l, hbm, h, hlen⟩ := bootOn_boots
  obtain ⟨pm', l', hmap, hm⟩ := h.checked.memInitMap h hlen
  have hfirst : firstExt (bootOn 699) bm = 610 := by
    rw [h.firstExt_eq]
    decide
  refine ⟨bm, l, pm', hbm, h.list, hmap, ⟨610, by decide⟩, ?_, rfl, ?_⟩
  · exact h.mem_firstExt hfirst.symm
  · exact hm.exposes_window h h.checked (by decide) (by decide)

end Jos
