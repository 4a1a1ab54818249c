/-
What `page_insert` promises.

The check programs of the kernel insert pages and look at a few addresses and counters.  Here the
promise is stated for all of them: where every address of every directory leads, the counters of
the two pages concerned, the free list, and what a `page_remove` makes of it afterwards.

`Directories D l pm` is what the code relies on: the page tables of the directories `D` are pages
of their own, and the pages that are mapped have been counted.  Below `UTOP` a table belongs to one
directory; above it the directories share the kernel's.  The entry for `UVPT` is left out, where a
directory is a table of itself and a new table is a new mapping.

The one thing that can go wrong is the counter.  It has 16 bits, and the page is given one more
reference without a look at it.
-/
import Os.Proofs.Jos.KernTables
import Os.Proofs.Jos.Atomic

namespace Jos

open List hiding Chain

open Linked

variable {M : Machine} {D : Set (Ppn M)} {l : List (Ppn M)} {pm pm' pm1 : Pmap M}
  {d t p pp o : Ppn M} {va perm : Word}

theorem pteAt_congr_mem (h : pm'.mem = pm.mem) : pteAt pm' = pteAt pm := by
  funext d a
  simp only [pteAt, entry, Pmap.load, h]

/-- The state the page operations rely on, with the directories `D` and the free pages `l`. -/
structure Directories (D : Set (Ppn M)) (l : List (Ppn M)) (pm : Pmap M) : Prop where
  list : FreeList pm l
  dir : ∀ d ∈ D, d ∉ l
  table : ∀ d ∈ D, ∀ i, i ≠ pdx uvpt → present (pm.load (d, i)) →
    ∃ t, entry pm d i = some t ∧ t ∉ D ∧ t ∉ l
  own : ∀ d ∈ D, ∀ d' ∈ D, ∀ i i' t, i ≠ pdx uvpt → i' ≠ pdx uvpt → entry pm d i = some t →
    entry pm d' i' = some t → i' = i ∧ (i.val < pdxUtop → d' = d)
  /-- A page that is mapped is in memory, has been counted and is not free. -/
  page : ∀ d ∈ D, ∀ a < utop, present (pteAt pm d a) → ∃ o, entryOf M (pteAt pm d a) = some o ∧
    (pm.pages o).ppRef ≠ 0 ∧ o ∉ l ∧ links pm o = none

namespace Directories

theorem entry_spec (h : Directories D l pm) (hd : d ∈ D) {i : Fin npdentries}
    (hi : i ≠ pdx uvpt) (ht : entry pm d i = some t) : t ∉ D ∧ t ∉ l := by
  obtain ⟨t', ht', hspec⟩ := h.table d hd i hi (entryOf_eq_some.mp ht).1
  rw [ht] at ht'
  cases ht'
  exact hspec

end Directories

theorem pdx_ne_uvpt (hva : va < utop) : pdx va ≠ pdx uvpt := by
  have hlt := pdx_lt_of_lt_utop hva
  intro hc
  rw [hc] at hlt
  exact absurd hlt (by decide)

/-! ### Writing to a table and to a directory -/

section Store

variable {w : Word}

theorem Directories.load_dir (h : Directories D l pm) (hd : d ∈ D) (hva : va < utop)
    (ht : entry pm d (pdx va) = some t) {d' : Ppn M} (hd' : d' ∈ D) (j : Fin nptentries)
    (k : Fin npdentries) : (pm.store (t, j) w).load (d', k) = pm.load (d', k) := by
  refine load_store_of_ne (fun hc => ?_) w
  obtain ⟨rfl, -⟩ := Prod.mk.inj hc
  exact (h.entry_spec hd (pdx_ne_uvpt hva) ht).1 hd'

/-- A write to a page table below `UTOP` changes where one page of one directory leads. -/
theorem Directories.pteAt_store (h : Directories D l pm) (hd : d ∈ D) (hva : va < utop)
    (ht : entry pm d (pdx va) = some t) {d' : Ppn M} (hd' : d' ∈ D) {a : Word}
    (ha : pdx a ≠ pdx uvpt) : pteAt (pm.store (t, ptx va) w) d' a
      = if d' = d ∧ SamePage a va then w else pteAt pm d' a := by
  have huvpt := pdx_ne_uvpt hva
  refine Jos.pteAt_store ht (fun hc => (h.entry_spec hd huvpt ht).1 (hc ▸ hd')) fun hta => ?_
  obtain ⟨hi, hown⟩ := h.own d hd d' hd' _ _ _ huvpt ha ht hta
  exact ⟨hown (pdx_lt_of_lt_utop hva), hi⟩

/-- More permissions in a directory entry lead nowhere else. -/
theorem pteAt_orPde (hperm : FlagsOnly perm)
    (htable : ∀ d' ∈ D, ∀ i t, i ≠ pdx uvpt → entry pm d' i = some t → t ∉ D) (hd : d ∈ D)
    (hpres : present (pm.load (d, pdx va))) {d' : Ppn M} (hd' : d' ∈ D) {a : Word}
    (ha : pdx a ≠ pdx uvpt) :
    pteAt (pm.store (d, pdx va) (pm.load (d, pdx va) ||| perm)) d' a = pteAt pm d' a := by
  have hentry : entry (pm.store (d, pdx va) (pm.load (d, pdx va) ||| perm)) d' (pdx a)
      = entry pm d' (pdx a) := by
    by_cases hcell : (d', pdx a) = (d, pdx va)
    · rw [entry, entry, hcell, load_store_self]
      exact entryOf_or_flags hperm hpres
    · rw [entry, load_store_of_ne hcell, ← entry]
  cases hta : entry pm d' (pdx a) with
  | none => rw [pteAt_of_none (hentry.trans hta), pteAt_of_none hta]
  | some t' =>
    rw [pteAt_of_entry (hentry.trans hta), pteAt_of_entry hta, load_store_of_ne]
    intro hc
    obtain ⟨rfl, -⟩ := Prod.mk.inj hc
    exact htable d' hd' _ _ ha hta hd

end Store

/-! ### Walking -/

theorem pages_installTable (halloc : pageAlloc pm allocZero = (some p, pm1)) {q : Ppn M}
    (hq : q ≠ p) : (installTable pm1 d va p).pages q = pm.pages q := by
  rcases pageAlloc_cases halloc with ⟨hc, -⟩ | ⟨q', hq', -, -, hpages, -⟩
  · simp at hc
  · cases hq'
    show (pm1.incRef p).pages q = _
    simp [Pmap.incRef, Pmap.setRef, Function.update_of_ne hq, hpages, Pmap.setLink]

/-- A new table is one of the free pages, and no address leads elsewhere. -/
theorem Directories.install (h : Directories D (p :: l) pm) (hd : d ∈ D)
    (hnew : ¬ present (pm.load (d, pdx va))) (halloc : pageAlloc pm allocZero = (some p, pm1)) :
    Directories D l (installTable pm1 d va p) ∧
      entry (installTable pm1 d va p) d (pdx va) = some p ∧
      ∀ d' ∈ D, ∀ a, pdx a ≠ pdx uvpt → pteAt (installTable pm1 d va p) d' a = pteAt pm d' a := by
  have hpD : p ∉ D := fun hc => h.dir p hc mem_cons_self
  have hnodup := nodup_cons.mp h.list.nodup
  have hne : ∀ d' ∈ D, d' ≠ p := by
    rintro d' hd' rfl
    exact hpD hd'
  have hentry : ∀ d' ∈ D, ∀ k, entry (installTable pm1 d va p) d' k
      = if (d', k) = (d, pdx va) then some p else entry pm d' k :=
    fun d' hd' => entry_installTable halloc (hne d' hd')
  -- the new table is none of the old ones
  have hfresh : ∀ d' ∈ D, ∀ k, k ≠ pdx uvpt → entry pm d' k ≠ some p := by
    intro d' hd' k hk hc
    exact (h.entry_spec hd' hk hc).2 mem_cons_self
  have hpte : ∀ d' ∈ D, ∀ a, pdx a ≠ pdx uvpt →
      pteAt (installTable pm1 d va p) d' a = pteAt pm d' a := by
    intro d' hd' a ha
    refine pteAt_installTable halloc (hne d' hd') (hne d hd) hnew fun t ht => ?_
    have hspec := h.entry_spec hd' ha ht
    exact ⟨fun hc => hspec.2 (hc ▸ mem_cons_self), fun hc => hspec.1 (hc ▸ hd)⟩
  refine ⟨⟨freeList_installTable h.list halloc d, ?_, ?_, ?_, ?_⟩,
    (hentry d hd _).trans (if_pos rfl), hpte⟩
  · exact fun d' hd' hc => h.dir d' hd' (mem_cons_of_mem p hc)
  · intro d' hd' k hk hpres
    by_cases hcell : (d', k) = (d, pdx va)
    · exact ⟨p, (hentry d' hd' k).trans (if_pos hcell), hpD, hnodup.1⟩
    · rw [load_installTable halloc hcell, if_neg (hne d' hd')] at hpres
      obtain ⟨t, ht, htD, htl⟩ := h.table d' hd' k hk hpres
      refine ⟨t, ?_, htD, fun hc => htl (mem_cons_of_mem p hc)⟩
      rw [hentry d' hd', if_neg hcell, ht]
  · intro d1 hd1 d2 hd2 i1 i2 t hi1 hi2 ht1 ht2
    rw [hentry d1 hd1] at ht1
    rw [hentry d2 hd2] at ht2
    split_ifs at ht1 ht2 with hcell1 hcell2 hcell2
    · cases hcell1
      cases hcell2
      exact ⟨rfl, fun _ => rfl⟩
    · cases ht1
      exact absurd ht2 (hfresh d2 hd2 i2 hi2)
    · cases ht2
      exact absurd ht1 (hfresh d1 hd1 i1 hi1)
    · exact h.own d1 hd1 d2 hd2 i1 i2 t hi1 hi2 ht1 ht2
  · intro d' hd' a ha hpres
    rw [hpte d' hd' a (pdx_ne_uvpt ha)] at hpres ⊢
    obtain ⟨o, ho, href, hol, hlink⟩ := h.page d' hd' a ha hpres
    have hop : o ≠ p := fun hc => hol (hc ▸ mem_cons_self)
    have hpages : (installTable pm1 d va p).pages o = pm.pages o := pages_installTable halloc hop
    refine ⟨o, ho, ?_, fun hc => hol (mem_cons_of_mem p hc), ?_⟩
    · rw [hpages]
      exact href
    · rw [links, hpages]
      exact hlink

/-- The page that becomes the page table for `va`. -/
def NewTable (pm : Pmap M) (d : Ppn M) (va : Word) (q : Ppn M) : Prop :=
  ¬ present (pm.load (d, pdx va)) ∧ pm.pageFreeList = some q

/-- There is no table for `va`, and no page for one. -/
def NoTable (pm : Pmap M) (d : Ppn M) (va : Word) : Prop :=
  ¬ present (pm.load (d, pdx va)) ∧ pm.pageFreeList = none

/-- **`pgdir_walk`** finds the table or makes it of the first free page. -/
theorem Directories.walk (h : Directories D l pm) (hd : d ∈ D) (hva : va < utop)
    (hmem : ¬ NoTable pm d va) :
    ∃ t pm1 l1, pgdirWalk pm d va true = some (some (t, ptx va), pm1) ∧ Directories D l1 pm1 ∧
      entry pm1 d (pdx va) = some t ∧
      (∀ d' ∈ D, ∀ a, pdx a ≠ pdx uvpt → pteAt pm1 d' a = pteAt pm d' a) ∧
      (∀ q, ¬ NewTable pm d va q → pm1.pages q = pm.pages q) ∧
      ∀ q, q ∈ l1 ↔ q ∈ l ∧ ¬ NewTable pm d va q := by
  by_cases hpres : present (pm.load (d, pdx va))
  · obtain ⟨t, ht, -⟩ := h.table d hd _ (pdx_ne_uvpt hva) hpres
    refine ⟨t, pm, l, ?_, h, ht, fun _ _ _ _ => rfl, fun _ _ => rfl, fun q => ?_⟩
    · simp only [pgdirWalk, if_pos hpres, walkTable, (entryOf_eq_some.mp ht).2]
    · exact (and_iff_left fun hc => hc.1 hpres).symm
  · cases l with
    | nil => exact absurd ⟨hpres, h.list⟩ hmem
    | cons p l =>
      obtain ⟨pm1, halloc⟩ := pageAlloc_of_cons h.list
      obtain ⟨hspace, hentry, hpte⟩ := h.install hd hpres halloc
      have hhead : pm.pageFreeList = some p := h.list.1
      have hnew : ∀ q, NewTable pm d va q ↔ q = p := by
        intro q
        unfold NewTable
        rw [hhead, and_iff_right hpres, Option.some.injEq, eq_comm]
      refine ⟨p, installTable pm1 d va p, l, ?_, hspace, hentry, hpte, fun q hq => ?_, fun q => ?_⟩
      · have hframe := (entryOf_eq_some.mp (entryOf_pde p)).2
        simp only [pgdirWalk, if_neg hpres, halloc, walkTable, load_store_self, hframe, if_true]
        rfl
      · exact pages_installTable halloc fun hc => hq ((hnew q).mpr hc)
      have hnodup := nodup_cons.mp h.list.nodup
      rw [hnew, mem_cons]
      constructor
      · intro hq
        exact ⟨.inr hq, fun hc => hnodup.1 (hc ▸ hq)⟩
      · rintro ⟨rfl | hq, hne⟩
        · exact absurd rfl hne
        · exact hq

/-! ### Giving a page back -/

theorem pageDecref_ok (hl : FreeList pm l) (ho : o ∉ l) (hlink : links pm o = none) :
    ∃ pm', pageDecref pm o = some pm' ∧ pm'.mem = pm.mem ∧
      (∀ q, (pm'.pages q).ppRef = (pm.pages q).ppRef - if q = o then 1 else 0) ∧
      (∀ q, q ≠ o ∨ (pm'.pages o).ppRef ≠ 0 → links pm' q = links pm q) ∧
      FreeList pm' (if (pm'.pages o).ppRef = 0 then o :: l else l) := by
  have href : ∀ q, ((pm.setRef o ((pm.pages o).ppRef - 1)).pages q).ppRef
      = (pm.pages q).ppRef - if q = o then 1 else 0 := by
    intro q
    by_cases hq : q = o
    · subst hq
      rw [ppRef_setRef_self, if_pos rfl]
    · rw [ppRef_setRef_of_ne hq, if_neg hq]
      exact (BitVec.sub_zero _).symm
  by_cases hzero : (pm.pages o).ppRef - 1 = 0
  · have hlink' : links (pm.setRef o ((pm.pages o).ppRef - 1)) o = none := by
      rw [links_setRef]
      exact hlink
    have hself : (((pm.setRef o ((pm.pages o).ppRef - 1)).setLink o pm.pageFreeList).pages
        o).ppRef = 0 := by
      rw [ppRef_setLink, ppRef_setRef_self, hzero]
    refine ⟨{ (pm.setRef o ((pm.pages o).ppRef - 1)).setLink o pm.pageFreeList with
      pageFreeList := some o }, ?_, rfl, fun q => ?_, fun q hq => ?_, ?_⟩
    · have hself : ((pm.setRef o ((pm.pages o).ppRef - 1)).pages o).ppRef = 0 := by
        rw [ppRef_setRef_self, hzero]
      unfold pageDecref pageFree
      simp only [hself, if_true]
      rw [if_pos ⟨trivial, hlink'⟩]
      rfl
    · show (((pm.setRef o ((pm.pages o).ppRef - 1)).setLink o pm.pageFreeList).pages q).ppRef = _
      rw [ppRef_setLink, href]
    · show links ((pm.setRef o ((pm.pages o).ppRef - 1)).setLink o pm.pageFreeList) q = _
      rw [links_setLink, links_setRef,
        Function.update_of_ne (hq.resolve_right fun hc => hc hself)]
    · rw [if_pos hself]
      show Chain (links ((pm.setRef o ((pm.pages o).ppRef - 1)).setLink o pm.pageFreeList))
        (some o) (o :: l)
      rw [links_setLink, links_setRef]
      exact Chain.push hl ho
  · refine ⟨pm.setRef o ((pm.pages o).ppRef - 1), ?_, rfl, href, fun q _ => ?_, ?_⟩
    · unfold pageDecref
      simp only [ppRef_setRef_self]
      rw [if_neg hzero]
    · rw [links_setRef]
    · rw [ppRef_setRef_self, if_neg hzero]
      unfold FreeList
      rw [links_setRef]
      exact hl

theorem pageRemove_ok (ht : entry pm d (pdx va) = some t) (ho : entry pm t (ptx va) = some o)
    (hdec : pageDecref pm o = some pm1) :
    pageRemove pm d va = some (pm1.store (t, ptx va) 0) := by
  obtain ⟨hpde, hframe⟩ := entryOf_eq_some.mp ht
  obtain ⟨hpte, hpage⟩ := entryOf_eq_some.mp ho
  simp only [pageRemove, pageLookup, pgdirWalk, if_pos hpde, walkTable, hframe, if_pos hpte, hpage,
    hdec]

/-! ### Inserting -/

/-- The page mapped at `va`. -/
def oldPage (pm : Pmap M) (d : Ppn M) (va : Word) : Option (Ppn M) := entryOf M (pteAt pm d va)

/-- `page_insert` up to the new entry, when the walk has been done: one reference more for the new
page, and the old one gone. -/
theorem Directories.clear (h : Directories D l pm) (hd : d ∈ D) (hva : va < utop)
    (ht : entry pm d (pdx va) = some t) (hpp : pp ∉ l) (hlink : links pm pp = none) :
    ∃ pm2 l2, (if present ((pm.incRef pp).load (t, ptx va)) then pageRemove (pm.incRef pp) d va
        else some (pm.incRef pp)) = some pm2 ∧
      (∀ w, (pm2.store (t, ptx va) w).mem = (pm.store (t, ptx va) w).mem) ∧
      (∀ q, (pm2.pages q).ppRef = (pm.pages q).ppRef + (if q = pp then 1 else 0)
        - if oldPage pm d va = some q then 1 else 0) ∧
      FreeList pm2 l2 ∧ (∀ q, q ∈ l2 ↔ q ∈ l ∨ oldPage pm d va = some q ∧ (pm2.pages q).ppRef = 0) ∧
      ((pm2.pages pp).ppRef ≠ 0 → links pm2 pp = none) := by
  have href : ∀ q, ((pm.incRef pp).pages q).ppRef
      = (pm.pages q).ppRef + if q = pp then 1 else 0 := by
    intro q
    by_cases hq : q = pp
    · subst hq
      rw [Pmap.incRef, ppRef_setRef_self, if_pos rfl]
    · rw [Pmap.incRef, ppRef_setRef_of_ne hq, if_neg hq]
      exact (BitVec.add_zero _).symm
  have hlinks : links (pm.incRef pp) = links pm := links_setRef pm pp _
  have hlist : FreeList (pm.incRef pp) l := by
    unfold FreeList
    rw [hlinks]
    exact h.list
  have hat : pteAt pm d va = pm.load (t, ptx va) := pteAt_of_entry ht
  by_cases hpres : present (pm.load (t, ptx va))
  · obtain ⟨o, ho, -, hol, holink⟩ := h.page d hd va hva (by rw [hat]; exact hpres)
    have hold : oldPage pm d va = some o := ho
    rw [hat] at ho
    obtain ⟨pm3, hdec, hmem, href3, hlinks3, hlist3⟩ :=
      pageDecref_ok hlist hol (by rw [hlinks]; exact holink)
    have hrem : pageRemove (pm.incRef pp) d va = some (pm3.store (t, ptx va) 0) :=
      pageRemove_ok ht ho hdec
    refine ⟨pm3.store (t, ptx va) 0, _, ?_, fun w => ?_, fun q => ?_, hlist3, fun q => ?_, ?_⟩
    · rw [if_pos (show present ((pm.incRef pp).load (t, ptx va)) from hpres), hrem]
    · show ((pm3.store (t, ptx va) 0).store (t, ptx va) w).mem = _
      simp only [Pmap.store, Pmap.fill, hmem, Function.update_self, Function.update_idem]
      rfl
    · show (pm3.pages q).ppRef = _
      rw [href3, href, hold]
      simp only [Option.some.injEq, eq_comm]
    · show _ ↔ _ ∨ _ ∧ (pm3.pages q).ppRef = 0
      rw [hold, Option.some.injEq]
      by_cases hzero : (pm3.pages o).ppRef = 0
      · rw [if_pos hzero, mem_cons]
        constructor
        · rintro (rfl | hq)
          · exact .inr ⟨rfl, hzero⟩
          · exact .inl hq
        · rintro (hq | ⟨rfl, -⟩)
          · exact .inr hq
          · exact .inl rfl
      · rw [if_neg hzero]
        refine ⟨.inl, ?_⟩
        rintro (hq | ⟨rfl, hc⟩)
        · exact hq
        · exact absurd hc hzero
    · show (pm3.pages pp).ppRef ≠ 0 → links pm3 pp = none
      intro hne
      have hsame : links pm3 pp = links (pm.incRef pp) pp := by
        by_cases hop : pp = o
        · exact hlinks3 pp (.inr (hop ▸ hne))
        · exact hlinks3 pp (.inl hop)
      rw [hsame, hlinks]
      exact hlink
  · have hold : oldPage pm d va = none := by
      unfold oldPage
      rw [hat]
      exact entryOf_of_not_present hpres
    refine ⟨pm.incRef pp, l, ?_, fun _ => rfl, fun q => ?_, hlist, fun q => ?_, fun _ => ?_⟩
    · rw [if_neg (show ¬ present ((pm.incRef pp).load (t, ptx va)) from hpres)]
    · rw [href, hold, if_neg (Option.some_ne_none q).symm]
      exact (BitVec.sub_zero _).symm
    · rw [hold]
      simp
    · rw [hlinks]
      exact hlink

/-- The counter of a page as a number. -/
def refOf (pm : Pmap M) (q : Ppn M) : Nat := (pm.pages q).ppRef.toNat

/-- What a successful `page_insert` leaves. -/
structure Inserted (D : Set (Ppn M)) (l : List (Ppn M)) (pm pm' : Pmap M) (d pp : Ppn M)
    (va perm : Word) : Prop where
  here : pteAt pm' d va = page2pa pp ||| perm ||| pteP
  others : ∀ d' ∈ D, ∀ a, pdx a ≠ pdx uvpt → ¬ (d' = d ∧ SamePage a va) →
    pteAt pm' d' a = pteAt pm d' a
  higher : oldPage pm d va ≠ some pp → refOf pm' pp = refOf pm pp + 1
  lower : ∀ o, oldPage pm d va = some o → o ≠ pp → refOf pm' o + 1 = refOf pm o
  same : oldPage pm d va = some pp → refOf pm' pp = refOf pm pp
  rest : ∀ q, q ≠ pp → oldPage pm d va ≠ some q → ¬ NewTable pm d va q → refOf pm' q = refOf pm q
  /-- The old page is free again if that was its last mapping; a new table is free no longer. -/
  free : ∃ l', FreeList pm' l' ∧ ∀ q, q ∈ l' ↔
    (q ∈ l ∧ ¬ NewTable pm d va q) ∨ (oldPage pm d va = some q ∧ refOf pm' q = 0)
  removed : ∃ pm'', pageRemove pm' d va = some pm'' ∧ pteAt pm'' d va = 0 ∧
    refOf pm'' pp + 1 = refOf pm' pp

/-- What `page_insert` promises. -/
structure InsertSpec (D : Set (Ppn M)) (l : List (Ppn M)) (pm : Pmap M) (d pp : Ppn M)
    (va perm : Word) : Prop where
  noMem : (∃ pm', pageInsert pm d pp va perm = some (-eNoMem, pm')) ↔ NoTable pm d va
  unchanged : ∀ pm', pageInsert pm d pp va perm = some (-eNoMem, pm') → pm' = pm
  inserts : ¬ NoTable pm d va →
    ∃ pm', pageInsert pm d pp va perm = some (0, pm') ∧ Inserted D l pm pm' d pp va perm

theorem store_congr_mem (h : pm'.mem = pm.mem) (x : PtePtr M) (w : Word) :
    (pm'.store x w).mem = (pm.store x w).mem := by
  simp only [Pmap.store, Pmap.fill, h]

theorem Directories.pteAt_write (h : Directories D l pm) (hd : d ∈ D) (hva : va < utop)
    (ht : entry pm d (pdx va) = some t) (hperm : FlagsOnly perm) (pp : Ppn M) {pm2 : Pmap M}
    (hmem : ∀ w, (pm2.store (t, ptx va) w).mem = (pm.store (t, ptx va) w).mem) :
    entry (writePte pm2 d (t, ptx va) pp va perm) d (pdx va) = some t ∧
      ∀ d' ∈ D, ∀ a, pdx a ≠ pdx uvpt → pteAt (writePte pm2 d (t, ptx va) pp va perm) d' a
        = if d' = d ∧ SamePage a va then page2pa pp ||| perm ||| pteP else pteAt pm d' a := by
  let pmS := pm.store (t, ptx va) (page2pa pp ||| perm ||| pteP)
  have hload : ∀ d' ∈ D, ∀ k, pmS.load (d', k) = pm.load (d', k) := fun d' hd' k =>
    h.load_dir hd hva ht hd' (ptx va) k
  have hwrite : (writePte pm2 d (t, ptx va) pp va perm).mem
      = (pmS.store (d, pdx va) (pmS.load (d, pdx va) ||| perm)).mem := by
    have hfirst := hmem (page2pa pp ||| perm ||| pteP)
    have hsame : (pm2.store (t, ptx va) (page2pa pp ||| perm ||| pteP)).load (d, pdx va)
        = pmS.load (d, pdx va) := by
      simp only [Pmap.load, hfirst, pmS]
    unfold writePte
    simp only
    rw [hsame]
    exact store_congr_mem hfirst _ _
  have hpres : present (pmS.load (d, pdx va)) := by
    rw [hload d hd]
    exact (entryOf_eq_some.mp ht).1
  constructor
  · have hentry : entry (writePte pm2 d (t, ptx va) pp va perm) d (pdx va)
        = entry (pmS.store (d, pdx va) (pmS.load (d, pdx va) ||| perm)) d (pdx va) := by
      simp only [entry, Pmap.load, hwrite]
    rw [hentry, entry, load_store_self, entryOf_or_flags hperm hpres, hload d hd]
    exact ht
  · intro d' hd' a ha
    have htable : ∀ d' ∈ D, ∀ i t', i ≠ pdx uvpt → entry pmS d' i = some t' → t' ∉ D := by
      intro d' hd' i t' hi ht'
      rw [entry, hload d' hd'] at ht'
      exact (h.entry_spec hd' hi ht').1
    rw [pteAt_congr_mem hwrite, pteAt_orPde hperm htable hd hpres hd' ha,
      h.pteAt_store hd hva ht hd' ha]

/-- The counters after an insertion, as long as none runs over. -/
theorem refs_inserted {pm2 : Pmap M} {old : Option (Ppn M)}
    (href : ∀ q, ¬ NewTable pm d va q → (pm2.pages q).ppRef
      = (pm.pages q).ppRef + (if q = pp then 1 else 0) - if old = some q then 1 else 0)
    (hpp : ¬ NewTable pm d va pp) (hover : old = some pp ∨ refOf pm pp ≠ 65535)
    (hold : ∀ o, old = some o → ¬ NewTable pm d va o ∧ refOf pm o ≠ 0) :
    (old ≠ some pp → refOf pm2 pp = refOf pm pp + 1) ∧
      (∀ o, old = some o → o ≠ pp → refOf pm2 o + 1 = refOf pm o) ∧
      (old = some pp → refOf pm2 pp = refOf pm pp) ∧
      (∀ q, q ≠ pp → old ≠ some q → ¬ NewTable pm d va q → refOf pm2 q = refOf pm q) ∧
      refOf pm2 pp ≠ 0 := by
  have h1 : (1 : BitVec 16).toNat = 1 := rfl
  have h0 : (0 : BitVec 16).toNat = 0 := rfl
  have hsame : old = some pp → refOf pm2 pp = refOf pm pp := by
    intro ho
    unfold refOf
    rw [href pp hpp, if_pos rfl, if_pos ho, BitVec.add_sub_cancel]
  have hhigher : old ≠ some pp → refOf pm2 pp = refOf pm pp + 1 := by
    intro ho
    have hmax := hover.resolve_left ho
    unfold refOf at hmax ⊢
    rw [href pp hpp, if_pos rfl, if_neg ho, BitVec.toNat_sub, BitVec.toNat_add, h1, h0]
    omega
  refine ⟨hhigher, fun o ho hne => ?_, hsame, fun q hq ho hnew => ?_, ?_⟩
  · obtain ⟨hnew, hpos⟩ := hold o ho
    unfold refOf at hpos ⊢
    rw [href o hnew, if_neg hne, if_pos ho, BitVec.toNat_sub, BitVec.toNat_add, h1, h0]
    omega
  · unfold refOf
    rw [href q hnew, if_neg hq, if_neg ho]
    simp
  · by_cases ho : old = some pp
    · rw [hsame ho]
      exact (hold pp ho).2
    · rw [hhigher ho]
      omega

/-- **The insertion**, when there is a table or a page for one and the counter does not run over. -/
theorem Directories.pageInsert (h : Directories D l pm) (hd : d ∈ D) (hva : va < utop)
    (hperm : FlagsOnly perm) (hpp : pp ∉ l) (hlink : links pm pp = none)
    (hmem : ¬ NoTable pm d va) (hover : oldPage pm d va = some pp ∨ refOf pm pp ≠ 65535) :
    ∃ pm', Jos.pageInsert pm d pp va perm = some (0, pm') ∧ Inserted D l pm pm' d pp va perm := by
  have huvpt := pdx_ne_uvpt hva
  have hnew : ∀ q, q ∉ l → ¬ NewTable pm d va q := by
    intro q hq hc
    obtain ⟨m, rfl, -⟩ := (hc.2 ▸ h.list : Chain (links pm) (some q) l).of_some
    exact hq mem_cons_self
  obtain ⟨t, pm1, l1, hwalk, h₁, ht, hpte, hpages, hl1⟩ := h.walk hd hva hmem
  have hpp1 : pm1.pages pp = pm.pages pp := hpages pp (hnew pp hpp)
  have hlink1 : links pm1 pp = none := by
    rw [links, hpp1]
    exact hlink
  have hold : oldPage pm1 d va = oldPage pm d va := by
    unfold oldPage
    rw [hpte d hd va huvpt]
  obtain ⟨pm2, l2, hclear, hmem2, href, hlist2, hl2, hlink2⟩ :=
    h₁.clear hd hva ht (fun hc => hpp ((hl1 pp).mp hc).1) hlink1
  rw [hold] at href hl2
  obtain ⟨hentry, hat⟩ := h₁.pteAt_write hd hva ht hperm pp hmem2
  -- the counters
  have hcounted : ∀ o, oldPage pm d va = some o → ¬ NewTable pm d va o ∧ refOf pm o ≠ 0 := by
    intro o ho
    obtain ⟨o', ho', href', hol, -⟩ := h.page d hd va hva (entryOf_eq_some.mp ho).1
    cases ho.symm.trans ho'
    refine ⟨hnew o hol, fun hc => href' (BitVec.eq_of_toNat_eq hc)⟩
  have href' : ∀ q, ¬ NewTable pm d va q → (pm2.pages q).ppRef = (pm.pages q).ppRef
      + (if q = pp then 1 else 0) - if oldPage pm d va = some q then 1 else 0 := by
    intro q hq
    rw [href, hpages q hq]
  obtain ⟨hhigher, hlower, hsame, hrest, hpos⟩ := refs_inserted href' (hnew pp hpp) hover hcounted
  refine ⟨writePte pm2 d (t, ptx va) pp va perm, ?_, ?_, ?_, hhigher, hlower, hsame, hrest, ?_, ?_⟩
  · unfold Jos.pageInsert
    rw [hwalk]
    dsimp only
    rw [hclear]
    rfl
  · rw [hat d hd va huvpt, if_pos ⟨rfl, rfl⟩]
  · intro d' hd' a ha hne
    rw [hat d' hd' a ha, if_neg hne, hpte d' hd' a ha]
  · refine ⟨l2, hlist2, fun q => ?_⟩
    rw [hl2, hl1]
    refine or_congr_right (and_congr_right fun _ => ?_)
    exact ⟨fun hz => congrArg BitVec.toNat hz, fun hz => BitVec.eq_of_toNat_eq hz⟩
  · -- and back
    have hne : (pm2.pages pp).ppRef ≠ 0 := fun hc => hpos (congrArg BitVec.toNat hc)
    have hpp2 : pp ∉ l2 := by
      rw [hl2]
      rintro (hc | ⟨-, hc⟩)
      · exact hpp ((hl1 pp).mp hc).1
      · exact hne hc
    have hload : (writePte pm2 d (t, ptx va) pp va perm).load (t, ptx va)
        = page2pa pp ||| perm ||| pteP := by
      rw [← pteAt_of_entry hentry, hat d hd va huvpt, if_pos ⟨rfl, rfl⟩]
    have hpage : entry (writePte pm2 d (t, ptx va) pp va perm) t (ptx va) = some pp := by
      rw [entry, hload]
      exact entryOf_pte pp hperm
    have hlist : FreeList (writePte pm2 d (t, ptx va) pp va perm) l2 := hlist2
    obtain ⟨pm3, hdec, hmem3, href3, -⟩ := pageDecref_ok hlist hpp2 (hlink2 hne)
    refine ⟨pm3.store (t, ptx va) 0, pageRemove_ok hentry hpage hdec, ?_, ?_⟩
    · have hdir : (d, pdx va) ≠ (t, ptx va) := by
        intro hc
        obtain ⟨rfl, -⟩ := Prod.mk.inj hc
        exact (h₁.entry_spec hd huvpt ht).1 hd
      have hentry3 : entry (pm3.store (t, ptx va) 0) d (pdx va) = some t := by
        rw [entry, load_store_of_ne hdir, Pmap.load, hmem3]
        exact hentry
      rw [pteAt_of_entry hentry3, load_store_self]
    · have hstep : ((pm3.store (t, ptx va) 0).pages pp).ppRef = (pm2.pages pp).ppRef - 1 := by
        refine (href3 pp).trans ?_
        rw [if_pos rfl]
        rfl
      show ((pm3.store (t, ptx va) 0).pages pp).ppRef.toNat + 1 = (pm2.pages pp).ppRef.toNat
      have h1 : (1 : BitVec 16).toNat = 1 := rfl
      have hpos' : (pm2.pages pp).ppRef.toNat ≠ 0 := hpos
      rw [hstep, BitVec.toNat_sub, h1]
      omega

/--
**`page_insert` keeps its promise if and only if the counter does not run over**: the page has
fewer than 65535 references, or it is the page that is replaced, or there is no memory anyway.
-/
theorem page_insert_iff (h : Directories D l pm) (hd : d ∈ D) (hva : va < utop)
    (hperm : perm &&& ~~~pteSyscall = 0) (hpp : pp ∉ l) (hlink : links pm pp = none) :
    InsertSpec D l pm d pp va perm ↔
      NoTable pm d va ∨ oldPage pm d va = some pp ∨ refOf pm pp ≠ 65535 := by
  constructor
  · intro hspec
    by_contra hc
    simp only [not_or, not_not] at hc
    obtain ⟨hmem, hne, hmax⟩ := hc
    obtain ⟨pm', -, hins⟩ := hspec.inserts hmem
    have hhigher := hins.higher hne
    rw [hmax] at hhigher
    unfold refOf at hhigher
    omega
  · intro hcond
    have hfails : NoTable pm d va → pageInsert pm d pp va perm = some (-eNoMem, pm) := by
      rintro ⟨hpres, hnone⟩
      simp only [pageInsert, pgdirWalk, if_neg hpres, pageAlloc, hnone, if_true]
    refine ⟨⟨?_, fun hno => ⟨pm, hfails hno⟩⟩, ?_, ?_⟩
    · rintro ⟨pm', hins⟩
      exact (pageInsert_no_mem hins (by decide)).2
    · intro pm' hins
      exact (pageInsert_no_mem hins (by decide)).1
    · intro hmem
      exact h.pageInsert hd hva (flagsOnly_of_syscall hperm) hpp hlink hmem
        (hcond.resolve_left hmem)

/-- Memory with one directory and one page taken, which has `n` references. -/
def onePageTaken (n : BitVec 16) : Pmap (Machine.withFree 8) :=
  (pageAlloc (Kern.fresh 8).pm 0).2.setRef (page8 1) n

theorem onePageTaken_directories (n : BitVec 16) :
    Directories {page8 0} (freshPages 8).tail (onePageTaken n) where
  list := by
    unfold FreeList onePageTaken
    rw [links_setRef]
    show Chain _ (pageAlloc (Kern.fresh 8).pm 0).2.pageFreeList _
    decide +kernel
  dir := by
    rintro d rfl
    decide
  table := by
    rintro d rfl i - hpres
    exact absurd hpres not_present_zero
  own := by
    rintro d rfl d' - i i' t - - ht -
    have hnone : entry (onePageTaken n) (page8 0) i = none := entryOf_zero
    rw [hnone] at ht
    cases ht
  page := by
    rintro d rfl a - hpres
    have hzero : pteAt (onePageTaken n) (page8 0) a = 0 := pteAt_of_none entryOf_zero
    rw [hzero] at hpres
    exact absurd hpres not_present_zero

/-- A page that `page_alloc` has just returned. -/
theorem page_insert_iff_first :
    InsertSpec {page8 0} (freshPages 8).tail (onePageTaken 0) (page8 0) (page8 1) 0x1000
      (pteU ||| pteP) :=
  (page_insert_iff (onePageTaken_directories 0) rfl (by decide) (by decide) (by decide)
    (by decide +kernel)).mpr (.inr (.inr (by decide +kernel)))

/-- The 65536th reference makes the counter zero. -/
theorem page_ref_wraps :
    ∃ pm', pageInsert (onePageTaken 65535) (page8 0) (page8 1) 0x1000 (pteU ||| pteP) =
      some (0, pm') ∧
      refOf (onePageTaken 65535) (page8 1) = 65535 ∧ refOf pm' (page8 1) = 0 ∧
      ¬ InsertSpec {page8 0} (freshPages 8).tail (onePageTaken 65535) (page8 0) (page8 1) 0x1000
        (pteU ||| pteP) := by
  have heval :
    ((pageInsert (onePageTaken 65535) (page8 0) (page8 1) 0x1000 (pteU ||| pteP)).map fun x =>
      decide (x.1 = 0 ∧ refOf x.2 (page8 1) = 0)) = some true := by
    decide +kernel
  obtain ⟨⟨r, pm'⟩, hins, hfacts⟩ := Option.map_eq_some_iff.mp heval
  obtain ⟨rfl, hzero⟩ := of_decide_eq_true hfacts
  refine ⟨pm', hins, by decide +kernel, hzero, fun hspec => ?_⟩
  have hfree : (onePageTaken 65535).pageFreeList ≠ none := by decide +kernel
  obtain ⟨pm'', hins', hok⟩ := hspec.inserts fun hno => hfree hno.2
  rw [hins] at hins'
  cases hins'
  have hhigher := hok.higher (by decide +kernel)
  rw [hzero] at hhigher
  omega

end Jos
