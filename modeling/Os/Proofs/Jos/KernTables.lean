/-
The page tables under the kernel's directory.

`boot_map_region` writes one page-table entry after the other, and makes a page table
whenever it comes to a directory entry that has none.  A new table is zeroed, so making
one changes no address; all that a turn of the loop changes is where one page leads.
That is said in terms of `leaf`, the entry an address of the kernel's directory ends at.

Tables are never taken back here, and no two directory entries share one.  The entry for
`UVPT` is the exception, since it makes the directory a table of itself, and is left out.
-/
import Os.Jos.Boot
import Os.Proofs.Jos.PageOps

namespace Jos

open Linked List BitVec Finset

variable {M : Machine} {pm pm' : Pmap M} {l : List (Ppn M)} {va : Word}

/-! ### Page tables under the kernel's directory -/

/-- The directory entries `mem_init` needs page tables for. -/
def kernPdes : Finset (Fin npdentries) :=
  Finset.univ.filter fun i => i.val = 955 ∨ i.val = 956 ∨ 959 ≤ i.val

/-- Those that have none yet. -/
def missing (pm : Pmap M) : Finset (Fin npdentries) :=
  kernPdes.filter fun i => ¬ present (pm.load (pm.kernPgdir, i))

/-- The kernel's directory, with the pages `l` on the free list.  Every table belongs to one
entry, and the list is long enough for those that are missing. -/
structure KernSpace (pm : Pmap M) (l : List (Ppn M)) : Prop where
  list : FreeList pm l
  dir : pm.kernPgdir ∉ l
  table : ∀ i, i ≠ pdx uvpt → present (pm.load (pm.kernPgdir, i)) →
    ∃ t, entry pm pm.kernPgdir i = some t ∧ t ∉ l ∧ t ≠ pm.kernPgdir ∧
      pm.load (pm.kernPgdir, i) &&& 7 = 7
  inj : ∀ i j t, i ≠ pdx uvpt → j ≠ pdx uvpt → entry pm pm.kernPgdir i = some t →
    entry pm pm.kernPgdir j = some t → i = j
  room : (missing pm).card ≤ l.length

theorem KernSpace.entry_spec (h : KernSpace pm l) {i : Fin npdentries} {t : Ppn M}
    (hi : i ≠ pdx uvpt) (ht : entry pm pm.kernPgdir i = some t) :
    t ∉ l ∧ t ≠ pm.kernPgdir ∧ pm.load (pm.kernPgdir, i) &&& 7 = 7 := by
  obtain ⟨t', ht', hspec⟩ := h.table i hi (entryOf_eq_some.mp ht).1
  rw [ht] at ht'
  cases ht'
  exact hspec

/-- The page-table entry an address ends at; 0 where there is no table. -/
def leaf (pm : Pmap M) (va : Word) : Word :=
  match entry pm pm.kernPgdir (pdx va) with
  | none => 0
  | some t => pm.load (t, ptx va)

theorem leaf_of_entry {t : Ppn M} (h : entry pm pm.kernPgdir (pdx va) = some t) :
    leaf pm va = pm.load (t, ptx va) := by
  unfold leaf
  rw [h]

theorem leaf_of_none (h : entry pm pm.kernPgdir (pdx va) = none) : leaf pm va = 0 := by
  unfold leaf
  rw [h]

/-- Two addresses of one page. -/
abbrev SamePage (a b : Word) : Prop := a.toNat / 4096 = b.toNat / 4096

theorem samePage_iff {a b : Word} : SamePage a b ↔ pdx a = pdx b ∧ ptx a = ptx b := by
  rw [Fin.ext_iff, Fin.ext_iff, val_pdx, val_pdx, val_ptx, val_ptx]
  constructor
  · intro h
    omega
  · rintro ⟨hd, ht⟩
    omega

/-- The entry that an address ends at under a directory, 0 where there is no table. -/
def pteAt (pm : Pmap M) (d : Ppn M) (a : Word) : Word :=
  match entry pm d (pdx a) with
  | none => 0
  | some t => pm.load (t, ptx a)

theorem pteAt_of_entry {d t : Ppn M} {a : Word} (h : entry pm d (pdx a) = some t) :
    pteAt pm d a = pm.load (t, ptx a) := by
  unfold pteAt
  rw [h]

theorem pteAt_of_none {d : Ppn M} {a : Word} (h : entry pm d (pdx a) = none) :
    pteAt pm d a = 0 := by
  unfold pteAt
  rw [h]

/-- A write to the table for `va` changes where one page leads, if no other entry has the table. -/
theorem pteAt_store {d d' t : Ppn M} {a w : Word} (ht : entry pm d (pdx va) = some t) (hd' : d' ≠ t)
    (hown : entry pm d' (pdx a) = some t → d' = d ∧ pdx a = pdx va) :
    pteAt (pm.store (t, ptx va) w) d' a = if d' = d ∧ SamePage a va then w else pteAt pm d' a := by
  have hentry : entry (pm.store (t, ptx va) w) d' (pdx a) = entry pm d' (pdx a) := by
    rw [entry, load_store_of_ne fun hc => hd' (congrArg Prod.fst hc), ← entry]
  cases hta : entry pm d' (pdx a) with
  | none =>
    rw [if_neg, pteAt_of_none (hentry.trans hta), pteAt_of_none hta]
    rintro ⟨rfl, hsame⟩
    rw [(samePage_iff.mp hsame).1, ht] at hta
    cases hta
  | some t' =>
    rw [pteAt_of_entry (hentry.trans hta), pteAt_of_entry hta]
    by_cases hsame : d' = d ∧ SamePage a va
    · obtain ⟨rfl, hpage⟩ := hsame
      obtain ⟨hi, hj⟩ := samePage_iff.mp hpage
      rw [hi, ht] at hta
      cases hta
      rw [if_pos ⟨rfl, hpage⟩, hj, load_store_self]
    · rw [if_neg hsame, load_store_of_ne]
      intro hc
      obtain ⟨rfl, hj⟩ := Prod.mk.inj hc
      obtain ⟨hd, hi⟩ := hown hta
      exact hsame ⟨hd, samePage_iff.mpr ⟨hi, hj⟩⟩

section Store

variable {t : Ppn M}

theorem KernSpace.load_dir (h : KernSpace pm l) {i : Fin npdentries} (hi : i ≠ pdx uvpt)
    (ht : entry pm pm.kernPgdir i = some t) (j : Fin nptentries) (w : Word)
    (k : Fin npdentries) :
    (pm.store (t, j) w).load (pm.kernPgdir, k) = pm.load (pm.kernPgdir, k) := by
  refine load_store_of_ne (fun hc => ?_) w
  exact (h.entry_spec hi ht).2.1 (congrArg Prod.fst hc).symm

theorem KernSpace.store (h : KernSpace pm l) {i : Fin npdentries} (hi : i ≠ pdx uvpt)
    (ht : entry pm pm.kernPgdir i = some t) (j : Fin nptentries) (w : Word) :
    KernSpace (pm.store (t, j) w) l := by
  have hload := h.load_dir hi ht j w
  have hentry : ∀ k, entry (pm.store (t, j) w) pm.kernPgdir k = entry pm pm.kernPgdir k := by
    intro k
    rw [entry, hload]
  refine ⟨h.list, h.dir, ?_, ?_, ?_⟩
  · intro k hk hpres
    have hpres' : present ((pm.store (t, j) w).load (pm.kernPgdir, k)) := hpres
    rw [hload] at hpres'
    obtain ⟨t', ht', hspec⟩ := h.table k hk hpres'
    refine ⟨t', (hentry k).trans ht', hspec.1, hspec.2.1, ?_⟩
    show (pm.store (t, j) w).load (pm.kernPgdir, k) &&& 7 = 7
    rw [hload]
    exact hspec.2.2
  · intro k k' t' hk hk' ht1 ht2
    exact h.inj k k' t' hk hk' ((hentry k).symm.trans ht1) ((hentry k').symm.trans ht2)
  · have hmissing : missing (pm.store (t, j) w) = missing pm := by
      refine filter_congr fun k _ => ?_
      show ¬ present ((pm.store (t, j) w).load (pm.kernPgdir, k)) ↔ _
      rw [hload]
    rw [hmissing]
    exact h.room

theorem KernSpace.leaf_store (h : KernSpace pm l) (hva : pdx va ≠ pdx uvpt)
    (ht : entry pm pm.kernPgdir (pdx va) = some t) (w : Word) {a : Word}
    (ha : pdx a ≠ pdx uvpt) :
    leaf (pm.store (t, ptx va) w) a = if SamePage a va then w else leaf pm a := by
  have hpte := pteAt_store (w := w) ht (h.entry_spec hva ht).2.1.symm fun hta =>
    ⟨rfl, h.inj _ _ t ha hva hta ht⟩
  simp only [true_and] at hpte
  exact hpte

end Store

/-! ### Making a page table -/

section Install

variable {p : Ppn M} {pm1 : Pmap M}

theorem pdx_uvpt_notMem : pdx uvpt ∉ kernPdes := by decide +kernel

theorem load_installTable (halloc : pageAlloc pm allocZero = (some p, pm1)) {d q : Ppn M}
    {k : Fin nptentries} (hne : (q, k) ≠ (d, pdx va)) :
    (installTable pm1 d va p).load (q, k) = if q = p then 0 else pm.load (q, k) := by
  rw [installTable, load_store_of_ne hne]
  show pm1.mem q k = _
  rw [(pageAlloc_zero_mem halloc).2.1]
  by_cases hq : q = p
  · rw [if_pos hq, hq]
    simp [Pmap.fill]
  · rw [if_neg hq]
    simp [Pmap.fill, Pmap.load, Function.update_of_ne hq]

section Elsewhere

variable {d d' : Ppn M} (halloc : pageAlloc pm allocZero = (some p, pm1)) (hd' : d' ≠ p)
include halloc hd'

theorem entry_installTable (k : Fin npdentries) : entry (installTable pm1 d va p) d' k
    = if (d', k) = (d, pdx va) then some p else entry pm d' k := by
  split_ifs with hk
  · cases hk
    rw [entry, installTable, load_store_self, entryOf_pde]
  · rw [entry, load_installTable halloc hk, if_neg hd', ← entry]

/-- A new table is empty, so that no address leads elsewhere. -/
theorem pteAt_installTable (hd : d ≠ p) (hnew : ¬ present (pm.load (d, pdx va))) {a : Word}
    (htable : ∀ t, entry pm d' (pdx a) = some t → t ≠ p ∧ t ≠ d) :
    pteAt (installTable pm1 d va p) d' a = pteAt pm d' a := by
  have hentry : entry (installTable pm1 d va p) d' (pdx a) = _ :=
    entry_installTable halloc hd' (pdx a)
  by_cases hcell : (d', pdx a) = (d, pdx va)
  · rw [if_pos hcell] at hentry
    obtain ⟨rfl, hi⟩ := Prod.mk.inj hcell
    have hnone : entry pm d' (pdx a) = none := by
      rw [hi]
      exact entryOf_of_not_present hnew
    rw [pteAt_of_none hnone, pteAt_of_entry hentry,
      load_installTable halloc (fun hc => hd (Prod.mk.inj hc).1.symm), if_pos rfl]
  · rw [if_neg hcell] at hentry
    cases ht : entry pm d' (pdx a) with
    | none => rw [pteAt_of_none ht, pteAt_of_none (hentry.trans ht)]
    | some t =>
      obtain ⟨htp, htd⟩ := htable t ht
      rw [pteAt_of_entry ht, pteAt_of_entry (hentry.trans ht),
        load_installTable halloc (fun hc => htd (Prod.mk.inj hc).1), if_neg htp]

end Elsewhere

theorem freeList_installTable (hlist : FreeList pm (p :: l))
    (halloc : pageAlloc pm allocZero = (some p, pm1)) (d : Ppn M) :
    FreeList (installTable pm1 d va p) l := by
  rcases pageAlloc_cases halloc with ⟨hc, -, -⟩ | ⟨q, hq, -, hhead, hpages, -, -⟩
  · simp at hc
  cases hq
  have hlinks : links (installTable pm1 d va p) = Function.update (links pm) p none := by
    show links (pm1.incRef p) = _
    rw [Pmap.incRef, links_setRef, links_of_pages hpages, links_setLink]
  show Chain (links (installTable pm1 d va p)) pm1.pageFreeList l
  rw [hlinks, hhead]
  exact hlist.pop

/-- A directory entry `pgdir_walk` makes has all rights. -/
theorem pde_and_seven (p : Ppn M) : (page2pa p ||| pteP ||| pteW ||| pteU) &&& 7 = 7 := by
  rw [BitVec.or_assoc, BitVec.or_assoc, and_or_distrib_right,
    page2pa_and_flags p (by decide)]
  decide

/-- **A new table** comes from the head of the free list, and no address leads elsewhere. -/
theorem KernSpace.install (h : KernSpace pm (p :: l)) (hva : pdx va ∈ kernPdes)
    (hnew : ¬ present (pm.load (pm.kernPgdir, pdx va)))
    (halloc : pageAlloc pm allocZero = (some p, pm1)) :
    KernSpace (installTable pm1 pm.kernPgdir va p) l ∧
      entry (installTable pm1 pm.kernPgdir va p) pm.kernPgdir (pdx va) = some p ∧
      (∀ k, k ≠ pdx va → (installTable pm1 pm.kernPgdir va p).load (pm.kernPgdir, k)
        = pm.load (pm.kernPgdir, k)) ∧
      ∀ a, pdx a ≠ pdx uvpt → leaf (installTable pm1 pm.kernPgdir va p) a = leaf pm a := by
  have hkern : (installTable pm1 pm.kernPgdir va p).kernPgdir = pm.kernPgdir :=
    (pageAlloc_zero_mem halloc).2.2
  have hpd : pm.kernPgdir ≠ p := fun hc => h.dir (by rw [hc]; exact mem_cons_self)
  have hself : (installTable pm1 pm.kernPgdir va p).load (pm.kernPgdir, pdx va)
      = page2pa p ||| pteP ||| pteW ||| pteU := by
    rw [installTable, load_store_self]
  have hother : ∀ k, k ≠ pdx va → (installTable pm1 pm.kernPgdir va p).load (pm.kernPgdir, k)
      = pm.load (pm.kernPgdir, k) := by
    intro k hk
    rw [load_installTable halloc (fun hc => hk (Prod.mk.inj hc).2), if_neg hpd]
  have hentry' : ∀ k, entry (installTable pm1 pm.kernPgdir va p) pm.kernPgdir k
      = if k = pdx va then some p else entry pm pm.kernPgdir k := by
    intro k
    rw [entry_installTable halloc hpd]
    simp only [Prod.mk.injEq, true_and]
  have hentry : entry (installTable pm1 pm.kernPgdir va p) pm.kernPgdir (pdx va) = some p := by
    rw [hentry', if_pos rfl]
  -- the new table is none of the old ones
  have hfresh : ∀ k, k ≠ pdx uvpt → entry pm pm.kernPgdir k ≠ some p := by
    intro k hk hc
    exact (h.entry_spec hk hc).1 mem_cons_self
  refine ⟨⟨freeList_installTable h.list halloc _, ?_, ?_, ?_, ?_⟩, hentry, hother, ?_⟩
  · rw [hkern]
    exact fun hc => h.dir (mem_cons_of_mem p hc)
  · rw [hkern]
    intro k hk hpres
    by_cases hkv : k = pdx va
    · rw [hkv]
      refine ⟨p, hentry, (nodup_cons.mp h.list.nodup).1, hpd.symm, ?_⟩
      rw [hself, pde_and_seven]
    · rw [hother k hkv] at hpres ⊢
      rw [hentry', if_neg hkv]
      obtain ⟨t, ht, hnot, hspec⟩ := h.table k hk hpres
      exact ⟨t, ht, fun hc => hnot (mem_cons_of_mem p hc), hspec⟩
  · rw [hkern]
    intro k k' t hk hk' ht ht'
    rw [hentry'] at ht ht'
    split_ifs at ht ht' with hkv hkv' hkv'
    · rw [hkv, hkv']
    · cases ht
      exact absurd ht' (hfresh k' hk')
    · cases ht'
      exact absurd ht (hfresh k hk)
    · exact h.inj k k' t hk hk' ht ht'
  · have hmissing : missing (installTable pm1 pm.kernPgdir va p) = (missing pm).erase (pdx va) := by
      ext k
      unfold missing
      rw [mem_erase, Finset.mem_filter, Finset.mem_filter, hkern]
      by_cases hkv : k = pdx va
      · rw [hkv, hself]
        have hpres : present (page2pa p ||| pteP ||| pteW ||| pteU) :=
          present_or_left (present_or_left (present_or_right present_pteP))
        exact ⟨fun hc => absurd hpres hc.2, fun hc => absurd rfl hc.1⟩
      · rw [hother k hkv]
        simp [hkv]
    have hmem : pdx va ∈ missing pm := Finset.mem_filter.mpr ⟨hva, hnew⟩
    have hroom := h.room
    rw [length_cons] at hroom
    rw [hmissing, card_erase_of_mem hmem]
    omega
  · intro a ha
    show pteAt _ (installTable pm1 pm.kernPgdir va p).kernPgdir a = pteAt pm pm.kernPgdir a
    rw [hkern]
    refine pteAt_installTable halloc hpd hpd hnew fun t ht => ⟨?_, (h.entry_spec ha ht).2.1⟩
    rintro rfl
    exact hfresh _ ha ht

end Install

/-- `pm'` has come out of `pm` by mapping pages: some of the free list is used up, for tables. -/
structure Maps (pm : Pmap M) (l : List (Ppn M)) (pm' : Pmap M) (l' : List (Ppn M)) : Prop where
  space : KernSpace pm' l'
  kern : pm'.kernPgdir = pm.kernPgdir
  rest : l' <:+ l
  self : pm'.load (pm'.kernPgdir, pdx uvpt) = pm.load (pm.kernPgdir, pdx uvpt)
  tables : ∀ i t, i ≠ pdx uvpt → entry pm' pm'.kernPgdir i = some t →
    entry pm pm.kernPgdir i = some t ∨ t ∈ l

theorem Maps.refl (h : KernSpace pm l) : Maps pm l pm l :=
  ⟨h, rfl, suffix_refl l, rfl, fun _ _ _ ht => .inl ht⟩

theorem Maps.trans {pm1 pm2 pm3 : Pmap M} {l1 l2 l3 : List (Ppn M)} (h : Maps pm1 l1 pm2 l2)
    (h' : Maps pm2 l2 pm3 l3) : Maps pm1 l1 pm3 l3 where
  space := h'.space
  kern := h'.kern.trans h.kern
  rest := h'.rest.trans h.rest
  self := h'.self.trans h.self
  tables := by
    intro i t hi ht
    rcases h'.tables i t hi ht with hold | hnew
    · exact h.tables i t hi hold
    · exact .inr (h.rest.subset hnew)

theorem KernSpace.maps_store (h : KernSpace pm l) {i : Fin npdentries} {t : Ppn M}
    (hi : i ≠ pdx uvpt) (ht : entry pm pm.kernPgdir i = some t) (j : Fin nptentries) (w : Word) :
    Maps pm l (pm.store (t, j) w) l where
  space := h.store hi ht j w
  kern := rfl
  rest := suffix_refl l
  self := h.load_dir hi ht j w _
  tables := by
    intro k t' _ ht'
    have hload : (pm.store (t, j) w).load ((pm.store (t, j) w).kernPgdir, k)
        = pm.load (pm.kernPgdir, k) := h.load_dir hi ht j w k
    rw [entry, hload] at ht'
    exact .inl ht'

theorem pageAlloc_of_cons {p : Ppn M} (h : FreeList pm (p :: l)) :
    ∃ pm1, pageAlloc pm allocZero = (some p, pm1) := by
  have hhead : pm.pageFreeList = some p := h.1
  unfold pageAlloc
  rw [hhead]
  exact ⟨_, rfl⟩

/-- **`pgdir_walk`** finds the table for an address of the kernel, or makes it. -/
theorem KernSpace.walk (h : KernSpace pm l) (hva : pdx va ∈ kernPdes) :
    ∃ t pm1 l1, pgdirWalk pm pm.kernPgdir va true = some (some (t, ptx va), pm1) ∧
      Maps pm l pm1 l1 ∧ entry pm1 pm.kernPgdir (pdx va) = some t ∧
      ∀ a, pdx a ≠ pdx uvpt → leaf pm1 a = leaf pm a := by
  have hne : pdx va ≠ pdx uvpt := fun hc => pdx_uvpt_notMem (hc ▸ hva)
  by_cases hpres : present (pm.load (pm.kernPgdir, pdx va))
  · obtain ⟨t, ht, -⟩ := h.table _ hne hpres
    refine ⟨t, pm, l, ?_, .refl h, ht, fun _ _ => rfl⟩
    unfold pgdirWalk walkTable
    rw [if_pos hpres, kaddr, (entryOf_eq_some.mp ht).2]
  · have hmem : pdx va ∈ missing pm := Finset.mem_filter.mpr ⟨hva, hpres⟩
    have hpos := card_pos.mpr ⟨_, hmem⟩
    have hroom := h.room
    cases l with
    | nil =>
      rw [length_nil] at hroom
      omega
    | cons p l =>
      obtain ⟨pm1, halloc⟩ := pageAlloc_of_cons h.list
      obtain ⟨hspace, hentry, hother, hleaf⟩ := h.install hva hpres halloc
      have hkern : (installTable pm1 pm.kernPgdir va p).kernPgdir = pm.kernPgdir :=
        (pageAlloc_zero_mem halloc).2.2
      have htables : ∀ i t, i ≠ pdx uvpt →
          entry (installTable pm1 pm.kernPgdir va p)
            (installTable pm1 pm.kernPgdir va p).kernPgdir i = some t →
          entry pm pm.kernPgdir i = some t ∨ t ∈ p :: l := by
        intro i t _ ht
        rw [hkern] at ht
        by_cases hi : i = pdx va
        · rw [hi, hentry] at ht
          cases ht
          exact .inr mem_cons_self
        · rw [entry, hother i hi] at ht
          exact .inl ht
      refine ⟨p, installTable pm1 pm.kernPgdir va p, l, ?_,
        ⟨hspace, hkern, suffix_cons p l, ?_, htables⟩, hentry, hleaf⟩
      swap
      · rw [hkern]
        exact hother _ hne.symm
      have hframe := (entryOf_eq_some.mp hentry).2
      unfold pgdirWalk
      rw [if_neg hpres, if_pos rfl, halloc]
      show walkTable (installTable pm1 pm.kernPgdir va p) pm.kernPgdir va = _
      unfold walkTable
      rw [kaddr, hframe]

/-! ### Regions -/

/-- `a` is on one of the `n` pages from `va` on. -/
abbrev InPages (va : Word) (n : Nat) (a : Word) : Prop :=
  va.toNat / 4096 ≤ a.toNat / 4096 ∧ a.toNat / 4096 < va.toNat / 4096 + n

/-- How far the page of `a` is from the page of `va`. -/
def pageDist (va a : Word) : Word := BitVec.ofNat 32 (4096 * (a.toNat / 4096 - va.toNat / 4096))

/-- A page-table entry `x` of `a`, with `n` pages from `va` on laid over it. -/
def overlay (x va : Word) (n : Nat) (pa perm a : Word) : Word :=
  if InPages va n a then pa + pageDist va a ||| perm ||| pteP else x

section Overlay

variable {x pa perm a : Word} {n : Nat}

theorem overlay_of_in (h : InPages va n a) :
    overlay x va n pa perm a = (pa + pageDist va a ||| perm ||| pteP) := if_pos h

theorem overlay_of_out (h : ¬ InPages va n a) : overlay x va n pa perm a = x := if_neg h

/-- The address of the next page, unless this is the last page there is. -/
theorem toNat_add_pgsize (hend : va.toNat + 4096 * (n + 1) ≤ 2 ^ 32) :
    n = 0 ∨ (va + pgsize).toNat = va.toNat + 4096 := by
  by_cases hn : n = 0
  · exact .inl hn
  · right
    show (va.toNat + 4096) % 2 ^ 32 = _
    omega

theorem overlay_succ (hend : va.toNat + 4096 * (n + 1) ≤ 2 ^ 32) :
    overlay (if SamePage a va then pa ||| perm ||| pteP else x) (va + pgsize) n (pa + pgsize) perm a
      = overlay x va (n + 1) pa perm a := by
  have hnext := toNat_add_pgsize hend
  by_cases hsame : SamePage a va
  · have hzero : pageDist va a = 0#32 := by
      rw [pageDist, hsame, Nat.sub_self]
    rw [overlay_of_out (by omega), overlay_of_in (by omega), if_pos hsame, hzero,
      BitVec.add_zero]
  · by_cases hin : InPages va (n + 1) a
    · have hdist : pgsize + pageDist (va + pgsize) a = pageDist va a := by
        rw [show pgsize = BitVec.ofNat 32 4096 from rfl, pageDist, pageDist, ← ofNat_add]
        refine congrArg (BitVec.ofNat 32) ?_
        have hpg : va + BitVec.ofNat 32 4096 = va + pgsize := rfl
        rw [hpg]
        omega
      rw [overlay_of_in (by omega), overlay_of_in hin, BitVec.add_assoc, hdist]
    · rw [overlay_of_out (by omega), overlay_of_out hin, if_neg hsame]

end Overlay

/-- **`boot_map_region`** succeeds and lays its pages over what was mapped before. -/
theorem KernSpace.bootMapLoop (perm : Word) (n : Nat) : ∀ {pm : Pmap M} {l : List (Ppn M)}
    (va pa : Word), KernSpace pm l → va.toNat + 4096 * n ≤ 2 ^ 32 →
    (∀ a, InPages va n a → pdx a ∈ kernPdes) →
    ∃ pm' l', Jos.bootMapLoop pm.kernPgdir perm n va pa pm = some pm' ∧ Maps pm l pm' l' ∧
      ∀ a, pdx a ≠ pdx uvpt → leaf pm' a = overlay (leaf pm a) va n pa perm a := by
  induction n with
  | zero =>
    intro pm l va pa h _ _
    refine ⟨pm, l, rfl, .refl h, fun a _ => ?_⟩
    rw [overlay_of_out (by omega)]
  | succ n ih =>
    intro pm l va pa h hend hin
    have hva : pdx va ∈ kernPdes := hin va (by omega)
    have hne : pdx va ≠ pdx uvpt := fun hc => pdx_uvpt_notMem (hc ▸ hva)
    obtain ⟨t, pm1, l1, hwalk, hmaps, hentry, hleaf⟩ := h.walk hva
    rw [← hmaps.kern] at hentry
    have hwrite := hmaps.space.maps_store hne hentry (ptx va) (pa ||| perm ||| pteP)
    have hstore : ∀ a, pdx a ≠ pdx uvpt →
        leaf (pm1.store (t, ptx va) (pa ||| perm ||| pteP)) a
          = if SamePage a va then pa ||| perm ||| pteP else leaf pm a := by
      intro a ha
      rw [hmaps.space.leaf_store hne hentry _ ha, hleaf a ha]
    have hnext := toNat_add_pgsize hend
    obtain ⟨pm', l', hloop, hmaps', hleaf'⟩ :=
      ih (va + pgsize) (pa + pgsize) hwrite.space (by omega) (fun a ha => hin a (by omega))
    refine ⟨pm', l', ?_, (hmaps.trans hwrite).trans hmaps', fun a ha => ?_⟩
    · rw [Jos.bootMapLoop, hwalk, ← hmaps.kern]
      exact hloop
    · rw [hleaf' a ha, hstore a ha, overlay_succ hend]

end Jos
