/-
The kernel's address space.

`mem_init` lays five kinds of regions over one another, and what an address leads to is
read off the last region it is in.  The map comes out as documented, up to the very last
page: the size of the region at `KERNBASE` is given as `0xffffffff - KERNBASE`, one byte
short of the 65536 pages there are, and `boot_map_region` rounds that down.
-/
import Os.Proofs.Jos.BootPages
import Os.Proofs.Jos.KernTables
import Os.Proofs.Jos.Start

namespace Jos

open List Option

variable {M : Machine} {pm pm' : Pmap M} {l : List (Ppn M)} {va : Word}

/-! ### The whole map -/

theorem mem_kernPdes_iff {a : Word} : pdx a ∈ kernPdes ↔
    a.toNat / 4194304 = 955 ∨ a.toNat / 4194304 = 956 ∨ 959 ≤ a.toNat / 4194304 := by
  unfold kernPdes
  rw [Finset.mem_filter, val_pdx]
  simp

/-- The pages of a region that stays clear of `UVPT` and of the devices. -/
theorem mem_kernPdes_of_region {v n : Nat} {a : Word} (hv : va.toNat = v)
    (hlow : 955 * 1024 ≤ v / 4096) (hclear : v / 4096 + n ≤ 957 * 1024 ∨ 959 * 1024 ≤ v / 4096)
    (ha : InPages va n a) : pdx a ∈ kernPdes := by
  rw [mem_kernPdes_iff]
  omega

theorem paddr_of_le {kva : Word} (h : kernbase ≤ kva) : paddr kva = some (kva - kernbase) :=
  if_neg (BitVec.not_lt.mpr h)

theorem toNat_ptsize_div : (ptsize / pgsize).toNat = 1024 := by decide

theorem toNat_kstksize_div : (kstksize / pgsize).toNat = 8 := by decide

theorem toNat_kernbase_div : ((0xffffffff - kernbase) / pgsize).toNat = 65535 := by decide

theorem bootMapRegion_eq {d : Ppn M} {size pa perm : Word} {n : Nat}
    (hn : (size / pgsize).toNat = n) :
    bootMapRegion pm d va size pa perm = bootMapLoop d perm n va pa pm := by
  rw [bootMapRegion, hn]

/-- The entry of `a` after the CPUs of a list have got their stacks. -/
def cpuLeaf (B : Boot M) (a : Word) (cs : List CpuIdx) (x : Word) : Word :=
  cs.foldl (fun x i => overlay x (kstacktopOf i - kstksize) 8 (B.kstack i - kernbase)
    (pteW ||| pteP) a) x

theorem cpuLeaf_cons (B : Boot M) (a : Word) (i : CpuIdx) (cs : List CpuIdx) (x : Word) :
    cpuLeaf B a (i :: cs) x = cpuLeaf B a cs (overlay x (kstacktopOf i - kstksize) 8
      (B.kstack i - kernbase) (pteW ||| pteP) a) := by
  exact foldl_cons

/-- The entry of `a` after `mem_init`, when it was `x` before. -/
def kernLeaf (B : Boot M) (pages envs a x : Word) : Word :=
  let x := overlay x upages 1024 (pages - kernbase) pteU a
  let x := overlay x uenvs 1024 (envs - kernbase) pteU a
  let x := overlay x (kstacktop - kstksize) 8 (B.bootstack - kernbase) pteW a
  let x := overlay x kernbase 65535 0 pteW a
  cpuLeaf B a (finRange ncpu) x

theorem Boot.toNat_kstack (B : Boot M) (i : CpuIdx) :
    (B.kstack i).toNat = B.percpuKstacks.toNat + i.val * 32768 := by
  have hi : i.val < 8 := i.isLt
  have hbelow := B.stacksBelow
  have hk : kstksize.toNat = 32768 := by decide
  have hmul : (BitVec.ofNat 32 i.val * kstksize).toNat = i.val * 32768 := by
    rw [BitVec.toNat_mul, BitVec.toNat_ofNat, hk]
    omega
  unfold Boot.kstack
  rw [BitVec.toNat_add, hmul]
  omega

theorem Boot.kernbase_le_kstack (B : Boot M) (i : CpuIdx) : kernbase ≤ B.kstack i := by
  show kernbase.toNat ≤ (B.kstack i).toNat
  have hlinked := B.linked
  rw [B.toNat_kstack]
  omega

theorem toNat_kstackBase (i : CpuIdx) :
    (kstacktopOf i - kstksize).toNat = 4026531840 - 65536 * i.val - 32768 := by
  have hi : i.val < 8 := i.isLt
  have hk : kstksize.toNat = 32768 := by decide
  have htop : kstacktop.toNat = 4026531840 := by decide
  have hboth : (kstkgap + kstksize).toNat = 65536 := by decide
  have hmul : (BitVec.ofNat 32 i.val * (kstkgap + kstksize)).toNat = i.val * 65536 := by
    rw [BitVec.toNat_mul, BitVec.toNat_ofNat, hboth]
    omega
  unfold kstacktopOf
  rw [BitVec.toNat_sub, BitVec.toNat_sub, hmul, hk, htop]
  omega

theorem KernSpace.memInitCpus (B : Boot M) (cs : List CpuIdx) : ∀ {pm : Pmap M}
    {l : List (Ppn M)}, KernSpace pm l →
    ∃ pm' l', cs.foldlM (memInitCpu B) pm = some pm' ∧ Maps pm l pm' l' ∧
      ∀ a, pdx a ≠ pdx uvpt → leaf pm' a = cpuLeaf B a cs (leaf pm a) := by
  induction cs with
  | nil =>
    intro pm l h
    exact ⟨pm, l, rfl, .refl h, fun _ _ => rfl⟩
  | cons i cs ih =>
    intro pm l h
    have hbase := toNat_kstackBase i
    have hi : i.val < 8 := i.isLt
    obtain ⟨pm1, l1, hloop, hmaps, hleaf⟩ := h.bootMapLoop (pteW ||| pteP) 8
      (kstacktopOf i - kstksize) (B.kstack i - kernbase) (by omega)
      (fun a ha => mem_kernPdes_iff.mpr (by omega))
    obtain ⟨pm', l', hrest, hmaps', hleaf'⟩ := ih hmaps.space
    refine ⟨pm', l', ?_, hmaps.trans hmaps', fun a ha => ?_⟩
    · have hstep : memInitCpu B pm i = some pm1 := by
        unfold memInitCpu
        rw [paddr_of_le (B.kernbase_le_kstack i), bind_eq_bind, bind_some,
          bootMapRegion_eq toNat_kstksize_div, hloop]
      rw [foldlM_cons, hstep]
      exact hrest
    · rw [hleaf' a ha, hleaf a ha, cpuLeaf_cons]

/-- The regions one after the other.  A `simp` through the binds would compare the sizes of the
regions by counting them down. -/
theorem memInitMap_eq (B : Boot M) {pages envs pa1 pa2 pa3 : Word} {pm1 pm2 pm3 pm4 : Pmap M}
    (hpages : paddr pages = some pa1) (henvs : paddr envs = some pa2)
    (hstack : paddr B.bootstack = some pa3)
    (h1 : bootMapRegion pm pm.kernPgdir upages ptsize pa1 pteU = some pm1)
    (h2 : bootMapRegion pm1 pm1.kernPgdir uenvs ptsize pa2 pteU = some pm2)
    (h3 : bootMapRegion pm2 pm2.kernPgdir (kstacktop - kstksize) kstksize pa3 pteW = some pm3)
    (h4 : bootMapRegion pm3 pm3.kernPgdir kernbase (0xffffffff - kernbase) 0 pteW = some pm4) :
    memInitMap B pages envs pm = memInitMp B pm4 := by
  unfold memInitMap
  simp only [bind_eq_bind]
  rw [hpages, bind_some, h1, bind_some, henvs, bind_some, h2,
    bind_some, hstack, bind_some, h3, bind_some, h4, bind_some]

/-- **`mem_init`** after the tests: it succeeds, and every address outside `UVPT` leads where
the regions laid over one another say. -/
theorem KernSpace.memInitMap (B : Boot M) {pages envs : Word} (h : KernSpace pm l)
    (hpages : kernbase ≤ pages) (henvs : kernbase ≤ envs) :
    ∃ pm' l', Jos.memInitMap B pages envs pm = some pm' ∧ Maps pm l pm' l' ∧
      ∀ a, pdx a ≠ pdx uvpt → leaf pm' a = kernLeaf B pages envs a (leaf pm a) := by
  have hupages : upages.toNat = 4009754624 := by decide
  have huenvs : uenvs.toNat = 4005560320 := by decide
  have hkern : kernbase.toNat = 4026531840 := by decide
  have hstack : (kstacktop - kstksize).toNat = 4026499072 := by decide
  obtain ⟨pm1, l1, hloop1, hmaps1, hleaf1⟩ := h.bootMapLoop pteU 1024 upages (pages - kernbase)
    (by rw [hupages]; decide) fun _ => mem_kernPdes_of_region hupages (by decide) (by decide)
  obtain ⟨pm2, l2, hloop2, hmaps2, hleaf2⟩ := hmaps1.space.bootMapLoop pteU 1024 uenvs
    (envs - kernbase) (by rw [huenvs]; decide) fun _ =>
      mem_kernPdes_of_region huenvs (by decide) (by decide)
  obtain ⟨pm3, l3, hloop3, hmaps3, hleaf3⟩ := hmaps2.space.bootMapLoop pteW 8
    (kstacktop - kstksize) (B.bootstack - kernbase) (by rw [hstack]; decide) fun _ =>
      mem_kernPdes_of_region hstack (by decide) (by decide)
  obtain ⟨pm4, l4, hloop4, hmaps4, hleaf4⟩ := hmaps3.space.bootMapLoop pteW 65535 kernbase 0
    (by rw [hkern]; decide) fun _ => mem_kernPdes_of_region hkern (by decide) (by decide)
  obtain ⟨pm5, l5, hloop5, hmaps5, hleaf5⟩ := hmaps4.space.memInitCpus B (finRange ncpu)
  refine ⟨pm5, l5, ?_,
    (((hmaps1.trans hmaps2).trans hmaps3).trans hmaps4).trans hmaps5, fun a ha => ?_⟩
  · have hmap1 := (bootMapRegion_eq toNat_ptsize_div).trans hloop1
    have hmap2 := (bootMapRegion_eq toNat_ptsize_div).trans hloop2
    have hmap3 := (bootMapRegion_eq toNat_kstksize_div).trans hloop3
    have hmap4 := (bootMapRegion_eq toNat_kernbase_div).trans hloop4
    have hmap := memInitMap_eq B (paddr_of_le hpages) (paddr_of_le henvs)
      (paddr_of_le B.bootstackIn) hmap1 hmap2 hmap3 hmap4
    exact hmap.trans hloop5
  · rw [hleaf5 a ha, hleaf4 a ha, hleaf3 a ha, hleaf2 a ha, hleaf1 a ha, kernLeaf]

/-! ### Where an address leads -/

/-- What the processor makes of a page-table entry under a directory entry with all rights. -/
def ofPte (w va : Word) : Option Mapping :=
  if present w then
    some { pa := pteAddr w + pgoff va, user := w &&& pteU ≠ 0, write := w &&& pteW ≠ 0 }
  else none

theorem ofPte_zero (va : Word) : ofPte 0 va = none := if_neg not_present_zero

/-- Under a directory entry with all rights the entry of an address is all that matters. -/
theorem hwTranslate_eq_ofPte {a : Word} (h : present (pm.load (pm.kernPgdir, pdx a)) →
    ∃ t, entry pm pm.kernPgdir (pdx a) = some t ∧ pm.load (pm.kernPgdir, pdx a) &&& 7 = 7) :
    hwTranslate pm pm.kernPgdir a = ofPte (leaf pm a) a := by
  unfold hwTranslate
  by_cases hpres : present (pm.load (pm.kernPgdir, pdx a))
  · obtain ⟨t, ht, hall⟩ := h hpres
    have hand : ∀ f w : Word, f &&& 7 = f →
        pm.load (pm.kernPgdir, pdx a) &&& w &&& f = w &&& f := by
      intro f w hf
      have hsub : pm.load (pm.kernPgdir, pdx a) &&& f = f := by
        rw [← hf, BitVec.and_comm f 7, ← BitVec.and_assoc, hall]
      rw [BitVec.and_comm _ w, BitVec.and_assoc, hsub]
    simp only [if_pos hpres, (entryOf_eq_some.mp ht).2]
    rw [leaf_of_entry ht, ofPte, hand pteU _ (by decide), hand pteW _ (by decide)]
  · simp only [if_neg hpres]
    rw [leaf_of_none (entryOf_of_not_present hpres), ofPte_zero]

theorem KernSpace.hwTranslate (h : KernSpace pm l) {a : Word} (ha : pdx a ≠ pdx uvpt) :
    Jos.hwTranslate pm pm.kernPgdir a = ofPte (leaf pm a) a := by
  refine hwTranslate_eq_ofPte fun hpres => ?_
  obtain ⟨t, ht, -, -, hall⟩ := h.table _ ha hpres
  exact ⟨t, ht, hall⟩

theorem and_not_mask12_of_aligned {w : Word} (h : pgoff w = 0) : w &&& ~~~0xFFF = w := by
  have hall : w &&& (0xFFF ||| ~~~0xFFF) = w := by
    rw [show (0xFFF ||| ~~~0xFFF : Word) = BitVec.allOnes 32 by decide, BitVec.and_allOnes]
  rw [BitVec.and_or_distrib_left, show w &&& 0xFFF = 0 from h] at hall
  simpa using hall

theorem and_not_mask12_of_flags {f : Word} (h : FlagsOnly f) : f &&& ~~~0xFFF = 0 := by
  have hself : f &&& 0xFFF = f := by
    apply BitVec.eq_of_toNat_eq
    show f.toNat &&& (2 ^ 12 - 1) = _
    rw [Nat.and_two_pow_sub_one_eq_mod]
    exact Nat.mod_eq_of_lt h
  rw [← hself, BitVec.and_assoc, show (0xFFF &&& ~~~0xFFF : Word) = 0 by decide]
  simp

theorem ofPte_aligned {pa perm : Word} (hpa : pgoff pa = 0) (hperm : FlagsOnly perm) (a : Word) :
    ofPte (pa ||| perm ||| pteP) a
      = some { pa := pa + pgoff a, user := perm &&& pteU ≠ 0, write := perm &&& pteW ≠ 0 } := by
  have haddr : pteAddr (pa ||| perm ||| pteP) = pa := by
    rw [pteAddr, BitVec.and_or_distrib_right, BitVec.and_or_distrib_right,
      and_not_mask12_of_aligned hpa, and_not_mask12_of_flags hperm,
      and_not_mask12_of_flags flagsOnly_pteP]
    simp
  have hbits : ∀ f : Word, f &&& 0xFFF = f → pteP &&& f = 0 →
      (pa ||| perm ||| pteP) &&& f = perm &&& f := by
    intro f hf hp
    have hpaf : pa &&& f = 0 := by
      rw [← hf, BitVec.and_comm f, ← BitVec.and_assoc, show pa &&& 0xFFF = 0 from hpa]
      simp
    rw [BitVec.and_or_distrib_right, BitVec.and_or_distrib_right, hpaf, hp]
    simp
  rw [ofPte, if_pos (present_or_right present_pteP), haddr, hbits pteU (by decide) (by decide),
    hbits pteW (by decide) (by decide)]

theorem toNat_pageDist {a : Word} (h : va.toNat / 4096 ≤ a.toNat / 4096) :
    (pageDist va a).toNat = 4096 * (a.toNat / 4096 - va.toNat / 4096) := by
  rw [pageDist, BitVec.toNat_ofNat]
  omega

theorem pgoff_eq_zero_iff {w : Word} : pgoff w = 0 ↔ w.toNat % 4096 = 0 := by
  rw [← toNat_pgoff]
  constructor
  · intro h
    rw [h]
    rfl
  · intro h
    exact BitVec.eq_of_toNat_eq h

/-- **Inside a region** an address leads as far into physical memory as into the region. -/
theorem ofPte_region {pa perm a : Word} {n : Nat} (hin : InPages va n a) (hva : pgoff va = 0)
    (hpa : pgoff pa = 0) (hperm : FlagsOnly perm) :
    ofPte (pa + pageDist va a ||| perm ||| pteP) a
      = some { pa := pa + (a - va), user := perm &&& pteU ≠ 0, write := perm &&& pteW ≠ 0 } := by
  have hdist := toNat_pageDist hin.1
  rw [pgoff_eq_zero_iff] at hva hpa
  have haligned : pgoff (pa + pageDist va a) = 0 := by
    rw [pgoff_eq_zero_iff, BitVec.toNat_add, hdist]
    omega
  have hsum : pageDist va a + pgoff a = a - va := by
    apply BitVec.eq_of_toNat_eq
    rw [BitVec.toNat_add, hdist, toNat_pgoff, BitVec.toNat_sub]
    omega
  rw [ofPte_aligned haligned hperm, BitVec.add_assoc, hsum]

/-! ### Which region an address is in -/

theorem inPages_iff {a : Word} {v n : Nat} (hv : va.toNat = v) (haligned : v % 4096 = 0) :
    InPages va n a ↔ v ≤ a.toNat ∧ a.toNat < v + 4096 * n := by
  omega

theorem inPages_upages {a : Word} :
    InPages upages 1024 a ↔ 4009754624 ≤ a.toNat ∧ a.toNat < 4013948928 :=
  inPages_iff (by decide) (by decide)

theorem inPages_uenvs {a : Word} :
    InPages uenvs 1024 a ↔ 4005560320 ≤ a.toNat ∧ a.toNat < 4009754624 :=
  inPages_iff (by decide) (by decide)

theorem inPages_bootstack {a : Word} :
    InPages (kstacktop - kstksize) 8 a ↔ 4026499072 ≤ a.toNat ∧ a.toNat < 4026531840 :=
  inPages_iff (by decide) (by decide)

theorem inPages_kernbase {a : Word} :
    InPages kernbase 65535 a ↔ 4026531840 ≤ a.toNat ∧ a.toNat < 4294963200 :=
  inPages_iff (by decide) (by decide)

theorem inPages_kstack {a : Word} (i : CpuIdx) : InPages (kstacktopOf i - kstksize) 8 a ↔
    4026499072 ≤ a.toNat + 65536 * i.val ∧ a.toNat + 65536 * i.val < 4026531840 := by
  have hi : i.val < 8 := i.isLt
  rw [inPages_iff (toNat_kstackBase i) (by omega)]
  omega

theorem cpuLeaf_of_out {B : Boot M} {a : Word} (cs : List CpuIdx) : ∀ {x : Word},
    (∀ i ∈ cs, ¬ InPages (kstacktopOf i - kstksize) 8 a) → cpuLeaf B a cs x = x := by
  induction cs with
  | nil =>
    intro x _
    rfl
  | cons i cs ih =>
    intro x h
    rw [cpuLeaf_cons, ih fun j hj => h j (mem_cons_of_mem i hj),
      overlay_of_out (h i mem_cons_self)]

/-- The stacks do not overlap, so the last of them to be mapped at `a` is the only one. -/
theorem cpuLeaf_of_in {B : Boot M} {a : Word} {i : CpuIdx}
    (ha : InPages (kstacktopOf i - kstksize) 8 a) (cs : List CpuIdx) : ∀ {x : Word}, i ∈ cs →
    cpuLeaf B a cs x = (B.kstack i - kernbase + pageDist (kstacktopOf i - kstksize) a
      ||| (pteW ||| pteP) ||| pteP) := by
  induction cs with
  | nil =>
    intro x hi
    simp at hi
  | cons j cs ih =>
    intro x hi
    by_cases hic : i ∈ cs
    · rw [cpuLeaf_cons, ih hic]
    have hij : i = j := by
      rcases mem_cons.mp hi with hij | hc
      · exact hij
      · exact absurd hc hic
    have hout : ∀ k ∈ cs, ¬ InPages (kstacktopOf k - kstksize) 8 a := by
      intro k hk hc
      rw [inPages_kstack] at ha hc
      have hne : i.val ≠ k.val := by
        intro hv
        rw [Fin.ext hv] at hic
        exact hic hk
      omega
    rw [cpuLeaf_cons, cpuLeaf_of_out cs hout, ← hij, overlay_of_in ha]

section Regions

variable {B : Boot M} {pages envs a x : Word}

/-- All of the stacks are below `KERNBASE`, in the last 4MB. -/
theorem cpuLeaf_of_far (h : a.toNat < 4022337536 ∨ 4026531840 ≤ a.toNat) (cs : List CpuIdx) :
    cpuLeaf B a cs x = x := by
  refine cpuLeaf_of_out cs fun i _ hc => ?_
  have hi : i.val < 8 := i.isLt
  rw [inPages_kstack] at hc
  omega

theorem kernLeaf_kern (hlow : 4026531840 ≤ a.toNat) (hhigh : a.toNat < 4294963200) :
    kernLeaf B pages envs a x = (0 + pageDist kernbase a ||| pteW ||| pteP) := by
  unfold kernLeaf
  rw [cpuLeaf_of_far (.inr hlow), overlay_of_in (inPages_kernbase.mpr ⟨hlow, hhigh⟩)]

theorem kernLeaf_pages (hlow : 4009754624 ≤ a.toNat) (hhigh : a.toNat < 4013948928) :
    kernLeaf B pages envs a x = (pages - kernbase + pageDist upages a ||| pteU ||| pteP) := by
  unfold kernLeaf
  rw [cpuLeaf_of_far (.inl (by omega)), overlay_of_out (by rw [inPages_kernbase]; omega),
    overlay_of_out (by rw [inPages_bootstack]; omega),
    overlay_of_out (by rw [inPages_uenvs]; omega),
    overlay_of_in (inPages_upages.mpr ⟨hlow, hhigh⟩)]

theorem kernLeaf_envs (hlow : 4005560320 ≤ a.toNat) (hhigh : a.toNat < 4009754624) :
    kernLeaf B pages envs a x = (envs - kernbase + pageDist uenvs a ||| pteU ||| pteP) := by
  unfold kernLeaf
  rw [cpuLeaf_of_far (.inl (by omega)), overlay_of_out (by rw [inPages_kernbase]; omega),
    overlay_of_out (by rw [inPages_bootstack]; omega),
    overlay_of_in (inPages_uenvs.mpr ⟨hlow, hhigh⟩)]

theorem kernLeaf_stack {i : CpuIdx} (h : InPages (kstacktopOf i - kstksize) 8 a) :
    kernLeaf B pages envs a x = (B.kstack i - kernbase + pageDist (kstacktopOf i - kstksize) a
      ||| (pteW ||| pteP) ||| pteP) := by
  exact cpuLeaf_of_in h _ (mem_finRange i)

/-- What `mem_init` does not map keeps the entry it had. -/
theorem kernLeaf_other (hpages : ¬ (4005560320 ≤ a.toNat ∧ a.toNat < 4013948928))
    (hkern : ¬ (4026531840 ≤ a.toNat ∧ a.toNat < 4294963200))
    (hstack : ∀ i, ¬ InPages (kstacktopOf i - kstksize) 8 a) : kernLeaf B pages envs a x = x := by
  have hboot : ¬ InPages (kstacktop - kstksize) 8 a := by
    have hzero := hstack 0
    rw [inPages_kstack] at hzero
    rw [inPages_bootstack]
    simpa using hzero
  unfold kernLeaf
  rw [cpuLeaf_of_out _ fun i _ => hstack i, overlay_of_out (by rw [inPages_kernbase]; exact hkern),
    overlay_of_out hboot, overlay_of_out (by rw [inPages_uenvs]; omega),
    overlay_of_out (by rw [inPages_upages]; omega)]

end Regions

/-! ### The map as documented -/

/-- The state after the tests: some of the pages of `l0` are still free, and the directory has
at most a table for the devices more, with nothing in it for user programs. -/
structure Checked (pm0 : Pmap M) (l0 : List (Ppn M)) (pm : Pmap M) (l : List (Ppn M)) : Prop where
  kern : pm.kernPgdir = pm0.kernPgdir
  list : FreeList pm l
  sub : ∀ p ∈ l, p ∈ l0
  dir : ∀ i, i ≠ pdx mmiobase → pm.load (pm.kernPgdir, i) = pm0.load (pm.kernPgdir, i)
  devices : pm.load (pm.kernPgdir, pdx mmiobase) = 0 ∨
    ∃ t, t ∈ l0 ∧ t ∉ l ∧ pm.load (pm.kernPgdir, pdx mmiobase)
      = (page2pa t ||| pteP ||| pteW ||| pteU) ∧ ∀ j, pm.load (t, j) &&& pteU = 0

section Booted

variable {B : Boot M} {bm : BootMem M} {l0 : List (Ppn M)}

theorem BootPages.notMem (h : BootPages B bm l0) {p : Ppn M} (hlow : B.dirPage ≤ p.val)
    (hhigh : p.val < bm.numExtmemAlloc) : p ∉ l0 := by
  have hbase := B.basememLe
  have hdir : 256 ≤ B.dirPage := by
    have hend := B.kernEnd_bounds.1
    unfold Boot.dirPage pagesFor
    omega
  rw [h.free]
  intro hfree
  exact hfree.2.2 ⟨by omega, by omega⟩

theorem BootPages.dir_notMem (h : BootPages B bm l0) : bm.pm.kernPgdir ∉ l0 := by
  have hused := h.used
  have hdir := h.dir
  exact h.notMem (by omega) (by omega)

theorem card_kernPdes : kernPdes.card = 67 := by decide +kernel

section

variable (h : BootPages B bm l0) (hc : Checked bm.pm l0 pm l)
include h hc

theorem Checked.load_zero
    {i : Fin npdentries} (hi : i ≠ pdx uvpt) (hm : i ≠ pdx mmiobase) :
    pm.load (pm.kernPgdir, i) = 0 := by
  rw [hc.dir i hm, hc.kern, h.load i hi]

theorem Checked.kernSpace
    (hroom : 67 ≤ l.length) : KernSpace pm l := by
  have hnotMem : pm.kernPgdir ∉ l0 := by
    rw [hc.kern]
    exact h.dir_notMem
  -- the only table there can be is the one for the devices
  have honly : ∀ i, i ≠ pdx uvpt → present (pm.load (pm.kernPgdir, i)) → i = pdx mmiobase := by
    intro i hi hpres
    by_contra hm
    rw [hc.load_zero h hi hm] at hpres
    exact not_present_zero hpres
  refine ⟨hc.list, fun hd => hnotMem (hc.sub _ hd), ?_, ?_, ?_⟩
  · intro i hi hpres
    have him := honly i hi hpres
    subst him
    rcases hc.devices with hzero | ⟨t, ht0, ht, hload, -⟩
    · rw [hzero] at hpres
      exact absurd hpres not_present_zero
    · refine ⟨t, ?_, ht, fun hd => hnotMem (hd ▸ ht0), ?_⟩
      · rw [entry, hload, entryOf_pde]
      · rw [hload, pde_and_seven]
  · intro i j t hi hj hti htj
    rw [honly i hi (entryOf_eq_some.mp hti).1, honly j hj (entryOf_eq_some.mp htj).1]
  · calc (missing pm).card ≤ kernPdes.card := Finset.card_filter_le _ _
      _ = 67 := card_kernPdes
      _ ≤ l.length := hroom

/-- Where `mem_init` has nothing to map, nothing is mapped. -/
theorem Checked.leaf_eq_zero {a : Word}
    (ha : pdx a ≠ pdx uvpt) (hm : pdx a ≠ pdx mmiobase) : leaf pm a = 0 := by
  refine leaf_of_none (entryOf_of_not_present ?_)
  rw [hc.load_zero h ha hm]
  exact not_present_zero

end

/-- The kernel part of the address space as `inc/memlayout.h` draws it, at one address. -/
structure Documented (B : Boot M) (bm : BootMem M) (pm : Pmap M) (va : Word) : Prop where
  kern : kernbase ≤ va → hwTranslate pm pm.kernPgdir va
    = some { pa := va - kernbase, user := false, write := true }
  pages : upages ≤ va → va < upages + ptsize → hwTranslate pm pm.kernPgdir va
    = some { pa := bm.pages - kernbase + (va - upages), user := true, write := false }
  envs : uenvs ≤ va → va < uenvs + ptsize → hwTranslate pm pm.kernPgdir va
    = some { pa := bm.envs - kernbase + (va - uenvs), user := true, write := false }
  stack : ∀ i, kstacktopOf i - kstksize ≤ va → va < kstacktopOf i →
    hwTranslate pm pm.kernPgdir va
      = some { pa := B.kstack i - kernbase + (va - (kstacktopOf i - kstksize))
               user := false, write := true }
  guard : ∀ i, kstacktopOf i - kstksize - kstkgap ≤ va → va < kstacktopOf i - kstksize →
    hwTranslate pm pm.kernPgdir va = none

theorem toNat_kstacktopOf (i : CpuIdx) : (kstacktopOf i).toNat = 4026531840 - 65536 * i.val := by
  have hi : i.val < 8 := i.isLt
  have hbase := toNat_kstackBase i
  have hk : kstksize.toNat = 32768 := by decide
  rw [BitVec.toNat_sub, hk] at hbase
  omega

theorem toNat_guardBase (i : CpuIdx) :
    (kstacktopOf i - kstksize - kstkgap).toNat = 4026531840 - 65536 * i.val - 65536 := by
  have hi : i.val < 8 := i.isLt
  have hk : kstkgap.toNat = 32768 := by decide
  rw [BitVec.toNat_sub, hk, toNat_kstackBase]
  omega

theorem pdx_ne_uvpt_iff {a : Word} :
    pdx a ≠ pdx uvpt ↔ a.toNat < 4013948928 ∨ 4018143232 ≤ a.toNat := by
  have huvpt : (pdx uvpt).val = 957 := by decide
  rw [ne_eq, Fin.ext_iff, val_pdx, huvpt]
  omega

theorem pdx_ne_mmiobase_iff {a : Word} :
    pdx a ≠ pdx mmiobase ↔ a.toNat < 4018143232 ∨ 4022337536 ≤ a.toNat := by
  have hmmio : (pdx mmiobase).val = 958 := by decide
  rw [ne_eq, Fin.ext_iff, val_pdx, hmmio]
  omega

theorem pgoff_sub_kernbase {a : Word} (h : pgoff a = 0) (hle : kernbase ≤ a) :
    pgoff (a - kernbase) = 0 := by
  have hle' := BitVec.le_def.mp hle
  rw [pgoff_eq_zero_iff] at h ⊢
  rw [BitVec.toNat_sub, toNat_kernbase]
  omega

theorem IsKva.pgoff {a : Word} {q : Nat} (h : IsKva a q) : Jos.pgoff (a - kernbase) = 0 := by
  rw [pgoff_eq_zero_iff, h.toNat_sub]
  omega

theorem IsKva.le {a : Word} {q : Nat} (h : IsKva a q) : kernbase ≤ a := by
  rw [BitVec.le_def, toNat_kernbase, h]
  omega

theorem Boot.pgoff_kstack (B : Boot M) (i : CpuIdx) : Jos.pgoff (B.kstack i - kernbase) = 0 := by
  refine pgoff_sub_kernbase ?_ (B.kernbase_le_kstack i)
  have haligned := pgoff_eq_zero_iff.mp B.stacksAligned
  rw [pgoff_eq_zero_iff, B.toNat_kstack]
  omega

/-- `pm'` is `pm` with the kernel's regions mapped. -/
structure KernMapped (B : Boot M) (bm : BootMem M) (pm : Pmap M) (l : List (Ppn M))
    (pm' : Pmap M) (l' : List (Ppn M)) : Prop extends Maps pm l pm' l' where
  leaf : ∀ a, pdx a ≠ pdx uvpt → leaf pm' a = kernLeaf B bm.pages bm.envs a (Jos.leaf pm a)

theorem Checked.memInitMap (h : BootPages B bm l0) (hc : Checked bm.pm l0 pm l)
    (hroom : 67 ≤ l.length) :
    ∃ pm' l', Jos.memInitMap B bm.pages bm.envs pm = some pm' ∧ KernMapped B bm pm l pm' l' := by
  obtain ⟨pm', l', hmap, hmaps, hleaf⟩ :=
    (hc.kernSpace h hroom).memInitMap B h.pages.le h.envs.le
  exact ⟨pm', l', hmap, hmaps, hleaf⟩

theorem KernMapped.hwTranslate {pm' : Pmap M} {l' : List (Ppn M)}
    (hm : KernMapped B bm pm l pm' l') {a : Word}
    (ha : pdx a ≠ pdx uvpt) : Jos.hwTranslate pm' pm'.kernPgdir a
      = ofPte (kernLeaf B bm.pages bm.envs a (Jos.leaf pm a)) a := by
  rw [hm.space.hwTranslate ha, hm.leaf a ha]

theorem toNat_windows : upages.toNat = 4009754624 ∧ uenvs.toNat = 4005560320 ∧
    (upages + ptsize).toNat = 4013948928 ∧ (uenvs + ptsize).toNat = 4009754624 := by decide

theorem KernMapped.documented {pm' : Pmap M} {l' : List (Ppn M)} (h : BootPages B bm l0)
    (hc : Checked bm.pm l0 pm l) (hm : KernMapped B bm pm l pm' l')
    (hlast : va.toNat < 4294963200) :
    Documented B bm pm' va := by
  obtain ⟨hupages, huenvs, hupagesEnd, huenvsEnd⟩ := toNat_windows
  constructor
  · intro hle
    have hlow := BitVec.le_def.mp hle
    rw [toNat_kernbase] at hlow
    rw [hm.hwTranslate (pdx_ne_uvpt_iff.mpr (by omega)), kernLeaf_kern hlow hlast,
      ofPte_region (inPages_kernbase.mpr ⟨hlow, hlast⟩) (by decide) (by decide) (by decide)]
    have hzero : (0 : Word) + (va - kernbase) = va - kernbase := BitVec.zero_add _
    rw [hzero]
    rfl
  · intro hle hlt
    have hlow := BitVec.le_def.mp hle
    have hhigh := BitVec.lt_def.mp hlt
    rw [hm.hwTranslate (pdx_ne_uvpt_iff.mpr (by omega)), kernLeaf_pages hlow hhigh,
      ofPte_region (inPages_upages.mpr ⟨hlow, hhigh⟩) (by decide) h.pages.pgoff (by decide)]
    rfl
  · intro hle hlt
    have hlow := BitVec.le_def.mp hle
    have hhigh := BitVec.lt_def.mp hlt
    rw [hm.hwTranslate (pdx_ne_uvpt_iff.mpr (by omega)), kernLeaf_envs hlow hhigh,
      ofPte_region (inPages_uenvs.mpr ⟨hlow, hhigh⟩) (by decide) h.envs.pgoff (by decide)]
    rfl
  · intro i hle hlt
    have hi : i.val < 8 := i.isLt
    have hlow := BitVec.le_def.mp hle
    have hhigh := BitVec.lt_def.mp hlt
    rw [toNat_kstackBase] at hlow
    rw [toNat_kstacktopOf] at hhigh
    have hin : InPages (kstacktopOf i - kstksize) 8 va := (inPages_kstack i).mpr (by omega)
    have haligned : pgoff (kstacktopOf i - kstksize) = 0 := by
      rw [pgoff_eq_zero_iff, toNat_kstackBase]
      omega
    rw [hm.hwTranslate (pdx_ne_uvpt_iff.mpr (by omega)), kernLeaf_stack hin,
      ofPte_region hin haligned (B.pgoff_kstack i) (by decide)]
    rfl
  · intro i hle hlt
    have hi : i.val < 8 := i.isLt
    have hlow := BitVec.le_def.mp hle
    have hhigh := BitVec.lt_def.mp hlt
    rw [toNat_guardBase] at hlow
    rw [toNat_kstackBase] at hhigh
    have hout : ∀ j, ¬ InPages (kstacktopOf j - kstksize) 8 va := by
      intro j hin
      rw [inPages_kstack] at hin
      omega
    have hne : pdx va ≠ pdx uvpt := pdx_ne_uvpt_iff.mpr (by omega)
    rw [hm.hwTranslate hne, kernLeaf_other (by omega) (by omega) hout,
      hc.leaf_eq_zero h hne (pdx_ne_mmiobase_iff.mpr (by omega)), ofPte_zero]

theorem KernMapped.last_none {pm' : Pmap M} {l' : List (Ppn M)} (h : BootPages B bm l0)
    (hc : Checked bm.pm l0 pm l) (hm : KernMapped B bm pm l pm' l')
    (hlast : 4294963200 ≤ va.toNat) :
    Jos.hwTranslate pm' pm'.kernPgdir va = none := by
  have hne : pdx va ≠ pdx uvpt := pdx_ne_uvpt_iff.mpr (by omega)
  have hout : ∀ j, ¬ InPages (kstacktopOf j - kstksize) 8 va := by
    intro j hin
    rw [inPages_kstack] at hin
    omega
  rw [hm.hwTranslate hne, kernLeaf_other (by omega) (by omega) hout,
    hc.leaf_eq_zero h hne (pdx_ne_mmiobase_iff.mpr (by omega)), ofPte_zero]

/--
**The kernel's address map.**  Whatever the tests have left of the free list, if there are
pages enough for the page tables then `mem_init` maps the kernel, and at every address
below the last page, and at no address of the last page, the map is as documented.
-/
theorem kernel_map_iff (hboot : memInitPages B = some bm) (hl0 : FreeList bm.pm l0)
    (hc : Checked bm.pm l0 pm l) (hroom : 67 ≤ l.length) :
    ∃ pm', Jos.memInitMap B bm.pages bm.envs pm = some pm' ∧
      ∀ va, Documented B bm pm' va ↔ va < 0xFFFFF000 := by
  obtain ⟨l1, h⟩ := memInitPages_spec hboot
  have heq : l1 = l0 := h.list.unique hl0
  rw [heq] at h
  obtain ⟨pm', l', hmap, hm⟩ := hc.memInitMap h hroom
  have hlastNat : (0xFFFFF000 : Word).toNat = 4294963200 := rfl
  refine ⟨pm', hmap, fun va => ?_⟩
  rw [BitVec.lt_def, hlastNat]
  constructor
  · intro hdoc
    by_contra hlast
    have hle : kernbase ≤ va := by
      rw [BitVec.le_def, toNat_kernbase]
      omega
    have hnone := hm.last_none h hc (Nat.not_lt.mp hlast)
    rw [hdoc.kern hle] at hnone
    cases hnone
  · intro hlast
    exact hm.documented h hc hlast

theorem BootPages.length_le (h : BootPages B bm l0) (hb : B.npagesBasemem ≤ M.npages) :
    B.npagesBasemem - 8 ≤ l0.length := by
  let low : List (Ppn M) := (finRange (B.npagesBasemem - 8)).map fun i =>
    ⟨i.val + 8, by have hi := i.isLt; omega⟩
  have hnodup : low.Nodup := by
    refine (nodup_finRange _).map fun i j hij => Fin.ext ?_
    have hval : i.val + 8 = j.val + 8 := congrArg Fin.val hij
    omega
  have hsub : low ⊆ l0 := by
    intro p hp
    obtain ⟨i, -, rfl⟩ := mem_map.mp hp
    rw [h.free]
    exact ⟨by simp, by show i.val + 8 ≠ 7; omega, by show ¬ (_ ≤ i.val + 8 ∧ _); omega⟩
  have hlen := (subperm_of_subset hnodup hsub).length_le
  rw [length_map, length_finRange] at hlen
  exact hlen

theorem BootPages.checked (h : BootPages B bm l0) : Checked bm.pm l0 bm.pm l0 where
  kern := rfl
  list := h.list
  sub _ hp := hp
  dir _ _ := rfl
  devices := .inl (h.load _ (by decide))

end Booted

/-! ### A machine that boots -/

/-- The kernel ends 256K into extended memory, on a machine with `n` pages. -/
def bootOn (n : Fin 65536) : Boot (Machine.withFree n) where
  npagesBasemem := 160
  kernEnd := 0xF0140000
  bootstack := 0xF0100000
  percpuKstacks := 0xF0100000
  mem _ _ := 0
  basememLe := by decide
  linked := by decide
  stacksBelow := by decide
  endLe := by decide
  stacksAligned := by decide
  bootstackIn := by decide

theorem bootOn_boots : ∃ bm l, memInitPages (bootOn 699) = some bm ∧
    BootPages (bootOn 699) bm l ∧ 67 ≤ l.length := by
  have hsome : (memInitPages (bootOn 699)).isSome = true := by decide +kernel
  obtain ⟨bm, hbm⟩ := isSome_iff_exists.mp hsome
  obtain ⟨l, h⟩ := memInitPages_spec hbm
  exact ⟨bm, l, hbm, h, le_trans (by decide) (h.length_le (by decide))⟩

theorem kernel_map_iff_booted : ∃ bm pm', memInitPages (bootOn 699) = some bm ∧
    memInitMap (bootOn 699) bm.pages bm.envs bm.pm = some pm' ∧
    ∀ va, Documented (bootOn 699) bm pm' va ↔ va < 0xFFFFF000 := by
  obtain ⟨bm, l, hbm, h, hlen⟩ := bootOn_boots
  obtain ⟨pm', hmap, hdoc⟩ := kernel_map_iff hbm h.list h.checked hlen
  exact ⟨bm, pm', hbm, hmap, hdoc⟩

/-- The last page of the address space is not mapped. -/
theorem last_page_unmapped : ∃ bm pm', memInitPages (bootOn 699) = some bm ∧
    memInitMap (bootOn 699) bm.pages bm.envs bm.pm = some pm' ∧
    hwTranslate pm' pm'.kernPgdir 0xFFFFF000 = none := by
  obtain ⟨bm, l, hbm, h, hlen⟩ := bootOn_boots
  obtain ⟨pm', l', hmap, hm⟩ := h.checked.memInitMap h hlen
  exact ⟨bm, pm', hbm, hmap, hm.last_none h h.checked (by decide)⟩

end Jos
