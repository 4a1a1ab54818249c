/-
What the page-table operations do to the references.

`pgdir_walk`, `page_remove` and `page_insert` are taken apart here once, and after
this file nothing looks inside them.  Each has two descriptions.  The first is over
the view alone: which slot it writes, with no assumption on the counters.  The second
adds the books, and with them that no assertion of the allocator fails.
-/
import Os.Proofs.Jos.Ledger

namespace Jos

open Option Function
open RefMap

variable {M : Machine} {root : EnvIdx → Option (Ppn M)} {tmp : Option (Ppn M)}
variable {pm pm' : Pmap M} {e : EnvIdx} {d : Ppn M} {va : Word}
variable {A H : Set (Ppn M)} {R R' : Ref → Option (Ppn M)} {o : Option (PtePtr M)} {p pp t : Ppn M}
variable {i : Upde} {perm : Word} {r : Int}

/-- The head of the free list is not referred to. -/
def HeadFresh (R : Ref → Option (Ppn M)) (pm : Pmap M) : Prop :=
  ∀ p, pm.pageFreeList = some p → ∀ r, R r ≠ some p

theorem Ledger.headFresh (h : Ledger A H R pm) : HeadFresh R pm :=
  fun _ hp => refCount_eq_zero.mp (h.head_free hp).2.1

/-! ### Walking -/

theorem walkTable_eq_some (h : walkTable pm d va = some (o, pm')) :
    pm' = pm ∧ ∃ t, frame M (pteAddr (pm.load (d, pdx va))) = some t ∧ o = some (t, ptx va) := by
  unfold walkTable at h
  split at h
  · simp at h
  · rename_i t ht
    simp only [some.injEq, Prod.mk.injEq] at h
    exact ⟨h.2.symm, t, ht, h.1.symm⟩

theorem pgdirWalk_false (h : pgdirWalk pm d va false = some (o, pm')) :
    pm' = pm ∧ o = (entry pm d (pdx va)).map fun t => (t, ptx va) := by
  unfold pgdirWalk at h
  split at h
  · rename_i hpres
    obtain ⟨hpm, t, ht, ho⟩ := walkTable_eq_some h
    refine ⟨hpm, ?_⟩
    rw [ho, entry, entryOf, if_pos hpres, ht]
    rfl
  · rename_i hpres
    simp only [Bool.false_eq_true, if_false, some.injEq, Prod.mk.injEq] at h
    refine ⟨h.2.symm, ?_⟩
    rw [← h.1, entry, entryOf, if_neg hpres]
    rfl

/-- The state in which `pgdir_walk` has put a new page table `p` in the directory. -/
def installTable (pm : Pmap M) (d : Ppn M) (va : Word) (p : Ppn M) : Pmap M :=
  (pm.incRef p).store (d, pdx va) (page2pa p ||| pteP ||| pteW ||| pteU)

theorem pgdirWalk_true (h : pgdirWalk pm d va true = some (o, pm')) :
    (∃ t, entry pm d (pdx va) = some t ∧ o = some (t, ptx va) ∧ pm' = pm) ∨
    (¬ present (pm.load (d, pdx va)) ∧ pm.pageFreeList = none ∧ o = none ∧ pm' = pm) ∨
    (¬ present (pm.load (d, pdx va)) ∧ ∃ p pm1, pageAlloc pm allocZero = (some p, pm1) ∧
      o = some (p, ptx va) ∧ pm' = installTable pm1 d va p) := by
  unfold pgdirWalk at h
  split at h
  · rename_i hpres
    obtain ⟨hpm, t, ht, ho⟩ := walkTable_eq_some h
    refine .inl ⟨t, ?_, ho, hpm⟩
    rw [entry, entryOf, if_pos hpres, ht]
  · rename_i hpres
    rw [if_pos rfl] at h
    cases ha : pageAlloc pm allocZero with
    | mk x pm1 =>
      cases x with
      | none =>
        simp only [ha, some.injEq, Prod.mk.injEq] at h
        rcases pageAlloc_cases ha with ⟨-, hnone, hpm1⟩ | ⟨p, hp, -⟩
        · exact .inr (.inl ⟨hpres, hnone, h.1.symm, by rw [← h.2, hpm1]⟩)
        · simp at hp
      | some p =>
        simp only [ha] at h
        obtain ⟨hpm, t, ht, ho⟩ := walkTable_eq_some h
        -- the entry just written leads to the new table
        rw [load_store_self, (entryOf_eq_some.mp (entryOf_pde p)).2] at ht
        cases ht
        exact .inr (.inr ⟨hpres, p, pm1, rfl, ho, hpm⟩)

/-! ### Creating a table -/

/-- A walk finds the table that is there, or makes one if there is a page to make it of. -/
theorem pgdirWalk_ok (htab : (∃ t, entry pm d (pdx va) = some t) ∨
      ¬ present (pm.load (d, pdx va)) ∧ ∃ p, pm.pageFreeList = some p) :
    ∃ t pm', pgdirWalk pm d va true = some (some (t, ptx va), pm') := by
  rcases htab with ⟨t, ht⟩ | ⟨hpres, p, hp⟩
  · obtain ⟨hpres, hframe⟩ := entryOf_eq_some.mp ht
    refine ⟨t, pm, ?_⟩
    simp only [pgdirWalk, if_pos hpres, walkTable, hframe]
  obtain ⟨pm1, halloc⟩ : ∃ pm1, pageAlloc pm allocZero = (some p, pm1) := by
    simp only [pageAlloc, hp]
    exact ⟨_, rfl⟩
  refine ⟨p, installTable pm1 d va p, ?_⟩
  have hframe := (entryOf_eq_some.mp (entryOf_pde p)).2
  simp only [pgdirWalk, if_neg hpres, halloc, walkTable, load_store_self, hframe, if_true]
  rfl

/-- What memory is like right after `page_alloc` has zeroed a page. -/
theorem pageAlloc_zero_mem (h : pageAlloc pm allocZero = (some p, pm')) :
    pm.pageFreeList = some p ∧ pm'.mem = (pm.fill p fun _ => 0).mem ∧
      pm'.kernPgdir = pm.kernPgdir := by
  rcases pageAlloc_cases h with ⟨hc, -, -⟩ | ⟨q, hq, hhead, -, -, hkern, hmem⟩
  · simp at hc
  · cases hq
    exact ⟨hhead, hmem, hkern⟩

theorem refs_pageAlloc_zero (hfresh : HeadFresh (refs root tmp pm) pm)
    (h : pageAlloc pm allocZero = (some p, pm')) :
    refs root tmp pm' = refs root tmp pm := by
  obtain ⟨hhead, hmem, -⟩ := pageAlloc_zero_mem h
  rw [refs_congr_mem hmem]
  exact refs_fill (fun r _ => hfresh p hhead r) _

/-- A zeroed page put in the directory is one new table, with no leaves. -/
theorem refs_installTable {pm1 : Pmap M} (hx : Excl (refs root tmp pm))
    (hfresh : HeadFresh (refs root tmp pm) pm) (hroot : root e = some d) (hva : va < utop)
    (hnone : refs root tmp pm (.table e (upde va hva)) = none)
    (h : pageAlloc pm allocZero = (some p, pm1)) :
    refs root tmp (installTable pm1 d va p)
      = update (refs root tmp pm) (.table e (upde va hva)) (some p) := by
  obtain ⟨hhead, hmem, -⟩ := pageAlloc_zero_mem h
  have hrefs : refs root tmp (pm1.incRef p) = refs root tmp pm := by
    rw [refs_incRef, refs_pageAlloc_zero hfresh h]
  have hpd : p ≠ d := fun hc => hfresh p hhead (.dir e) (by simp [refs, hroot, hc])
  have hstore := @refs_store_table M root tmp (pm1.incRef p) e (upde va hva) d
    (page2pa p ||| pteP ||| pteW ||| pteU) (by rw [hrefs]; exact hx) hroot
  rw [entryOf_pde, hrefs] at hstore
  refine hstore ?_
  intro j
  have hleaf : refs root tmp pm (.leaf e (upde va hva) j) = none := by
    have hn : tableOf pm (root e) (upde va hva) = none := hnone
    simp [refs, hn]
  have hzero : pm1.load (p, j) = 0 := by simp [Pmap.load, hmem, Pmap.fill]
  rw [hleaf, bind_some, entry, load_store_of_ne (fun hc => hpd (Prod.mk.inj hc).1)]
  show entryOf M (pm1.load (p, j)) = none
  rw [hzero, entryOf_zero]

/-- `R'` is `R` with a page table for directory entry `i`, taken from the free list if need be. -/
def WithTable (R R' : Ref → Option (Ppn M)) (pm : Pmap M) (e : EnvIdx) (i : Upde) : Prop :=
  R' = R ∨ ∃ t, pm.pageFreeList = some t ∧ R (.table e i) = none ∧
    R' = update R (.table e i) (some t)

theorem WithTable.excl (h : WithTable R R' pm e i) (hx : Excl R) (hfresh : HeadFresh R pm) :
    Excl R' := by
  rcases h with rfl | ⟨t, ht, -, rfl⟩
  · exact hx
  · exact hx.update_fresh (hfresh t ht) _

/-- A page that is not a table and not next on the free list does not become one. -/
theorem WithTable.ne_of_node (h : WithTable R R' pm e i) (hpp : ∀ r, r.isNode → R r ≠ some pp)
    (hhead : pm.pageFreeList ≠ some pp) : ∀ r, r.isNode → R' r ≠ some pp := by
  intro r hr
  rcases h with rfl | ⟨t, ht, -, rfl⟩
  · exact hpp r hr
  by_cases hrt : r = .table e i
  · rw [hrt, update_self]
    intro hc
    exact hhead (ht.trans hc)
  · rw [update_of_ne hrt]
    exact hpp r hr

/-- A new table has one reference and takes none from the other pages. -/
theorem WithTable.refCount_eq (h : WithTable R R' pm e i) (p : Ppn M) :
    refCount R' p = refCount R p ∨ pm.pageFreeList = some p ∧ refCount R' p = refCount R p + 1 := by
  rcases h with rfl | ⟨t, ht, hnone, rfl⟩
  · exact .inl rfl
  rw [refCount_update_some t p hnone]
  by_cases htp : t = p
  · subst htp
    exact .inr ⟨ht, by simp⟩
  · exact .inl (by simp [htp])

/-- **`pgdir_walk` with `create`**, seen through the references. -/
theorem pgdirWalk_view (hx : Excl (refs root tmp pm)) (hfresh : HeadFresh (refs root tmp pm) pm)
    (hroot : root e = some d) (hva : va < utop) (h : pgdirWalk pm d va true = some (o, pm')) :
    (o = none ∧ pm' = pm ∧ pm.pageFreeList = none ∧
      refs root tmp pm (.table e (upde va hva)) = none) ∨
    ∃ t, o = some (t, ptx va) ∧ refs root tmp pm' (.table e (upde va hva)) = some t ∧
      WithTable (refs root tmp pm) (refs root tmp pm') pm e (upde va hva) := by
  have htab : refs root tmp pm (.table e (upde va hva)) = entry pm d (pdx va) := by
    simp [refs, tableOf, hroot]
  rcases pgdirWalk_true h with ⟨t, ht, rfl, rfl⟩ | ⟨hpres, hnil, rfl, rfl⟩ |
    ⟨hpres, p, pm1, halloc, rfl, rfl⟩
  · exact .inr ⟨t, rfl, by rw [htab, ht], .inl rfl⟩
  · exact .inl ⟨rfl, rfl, hnil, by rw [htab, entry, entryOf_of_not_present hpres]⟩
  have hnone : refs root tmp pm (.table e (upde va hva)) = none := by
    rw [htab, entry, entryOf_of_not_present hpres]
  have hview := refs_installTable hx hfresh hroot hva hnone halloc
  refine .inr ⟨p, rfl, ?_, .inr ⟨p, (pageAlloc_zero_mem halloc).1, hnone, hview⟩⟩
  rw [hview, update_self]

theorem pgdirWalk_ledger (hx : Excl (refs root tmp pm)) (hl : Ledger A H (refs root tmp pm) pm)
    (hroot : root e = some d) (hva : va < utop) (h : pgdirWalk pm d va true = some (o, pm')) :
    Ledger A H (refs root tmp pm') pm' := by
  rcases pgdirWalk_true h with ⟨t, -, -, rfl⟩ | ⟨-, -, -, rfl⟩ | ⟨hpres, p, pm1, halloc, -, rfl⟩
  · exact hl
  · exact hl
  · have hnone : refs root tmp pm (.table e (upde va hva)) = none := by
      simpa [refs, tableOf, hroot] using entryOf_of_not_present hpres
    rw [refs_installTable hx hl.headFresh hroot hva hnone halloc]
    exact (hl.alloc_incref hnone halloc).congr rfl rfl

/-! ### Looking up and removing -/

theorem pageLookup_eq {o : Option (Ppn M × PtePtr M)} (h : pageLookup pm d va = some o) :
    o = (entry pm d (pdx va)).bind fun t =>
      (entry pm t (ptx va)).map fun p => (p, (t, ptx va)) := by
  unfold pageLookup at h
  cases hw : pgdirWalk pm d va false with
  | none => simp [hw] at h
  | some x =>
    obtain ⟨y, pm1⟩ := x
    obtain ⟨-, hy⟩ := pgdirWalk_false hw
    cases ht : entry pm d (pdx va) with
    | none =>
      rw [ht] at hy
      subst hy
      simpa [hw] using h.symm
    | some t =>
      rw [ht] at hy
      subst hy
      simp only [hw, map_some] at h
      by_cases hpres : present (pm.load (t, ptx va))
      · rw [if_pos hpres] at h
        cases hp : frame M (pteAddr (pm.load (t, ptx va))) with
        | none => simp [hp] at h
        | some p =>
          simp only [hp, some.injEq] at h
          have hent : entry pm t (ptx va) = some p := entryOf_eq_some.mpr ⟨hpres, hp⟩
          simp [hent, h.symm]
      · rw [if_neg hpres, some.injEq] at h
        have hent : entry pm t (ptx va) = none := entryOf_of_not_present hpres
        simp [hent, h.symm]

theorem pageLookup_view (tmp : Option (Ppn M)) {o : Option (Ppn M × PtePtr M)}
    (hroot : root e = some d) (hva : va < utop) (h : pageLookup pm d va = some o) :
    (o = none ∧ refs root tmp pm (.leaf e (upde va hva) (ptx va)) = none) ∨
    ∃ p t, o = some (p, (t, ptx va)) ∧ refs root tmp pm (.table e (upde va hva)) = some t ∧
      refs root tmp pm (.leaf e (upde va hva) (ptx va)) = some p := by
  have ho := pageLookup_eq h
  have htab : tableOf pm (root e) (upde va hva) = entry pm d (pdx va) := by
    simp [tableOf, hroot]
  cases ht : entry pm d (pdx va) with
  | none =>
    rw [ht] at ho htab
    exact .inl ⟨ho, by simp [refs, htab]⟩
  | some t =>
    rw [ht] at ho htab
    cases hp : entry pm t (ptx va) with
    | none =>
      rw [bind_some, hp] at ho
      exact .inl ⟨ho, by simp [refs, htab, hp]⟩
    | some p =>
      rw [bind_some, hp] at ho
      exact .inr ⟨p, t, ho, by simp [refs, htab], by simp [refs, htab, hp]⟩

theorem pageRemove_cases (h : pageRemove pm d va = some pm') :
    (pageLookup pm d va = some none ∧ pm' = pm) ∨
    ∃ p pte pm1, pageLookup pm d va = some (some (p, pte)) ∧ pageDecref pm p = some pm1 ∧
      pm' = pm1.store pte 0 := by
  unfold pageRemove at h
  split at h
  · simp at h
  · rename_i hl
    exact .inl ⟨hl, by simpa using h.symm⟩
  rename_i p pte hl
  split at h
  · simp at h
  · rename_i pm1 hd
    exact .inr ⟨p, pte, pm1, hl, hd, by simpa using h.symm⟩

/-- **`page_remove` clears one leaf.** -/
theorem pageRemove_view (hx : Excl (refs root tmp pm)) (hroot : root e = some d)
    (hva : va < utop) (h : pageRemove pm d va = some pm') :
    refs root tmp pm' = update (refs root tmp pm) (.leaf e (upde va hva) (ptx va)) none := by
  rcases pageRemove_cases h with ⟨hl, rfl⟩ | ⟨p, pte, pm1, hl, hd, rfl⟩
  · rcases pageLookup_view tmp hroot hva hl with ⟨-, hnone⟩ | ⟨p, t, hc, -⟩
    · rw [← hnone, update_eq_self]
    · simp at hc
  rcases pageLookup_view tmp hroot hva hl with ⟨hc, -⟩ | ⟨p', t, hpte, ht, -⟩
  · simp at hc
  · cases hpte
    have hmem : refs root tmp pm1 = refs root tmp pm := refs_congr_mem (pageDecref_mem hd).1
    rw [refs_store_leaf (by rw [hmem]; exact hx) (by rw [hmem]; exact ht), hmem, entryOf_zero]

/-- `page_remove` keeps the books if the page it unmaps has at most 2^16 references. -/
theorem pageRemove_ledger (hx : Excl (refs root tmp pm)) (hl : Ledger A H (refs root tmp pm) pm)
    (hva : va < utop) (hle : ∀ p, refs root tmp pm (.leaf e (upde va hva) (ptx va)) = some p →
      refCount (refs root tmp pm) p ≤ 65536) (hroot : root e = some d)
    (h : pageRemove pm d va = some pm') :
    Ledger A H (refs root tmp pm') pm' := by
  have hview := pageRemove_view hx hroot hva h
  rcases pageRemove_cases h with ⟨hlook, rfl⟩ | ⟨p, pte, pm1, hlook, hd, rfl⟩
  · exact hl
  rcases pageLookup_view tmp hroot hva hlook with ⟨hc, -⟩ | ⟨p', t, hpte, -, hp⟩
  · simp at hc
  cases hpte
  obtain ⟨pm2, hd', hl'⟩ := hl.decref hp (hle p hp)
  rw [hd] at hd'
  cases hd'
  rw [hview]
  exact hl'.congr rfl rfl

/-- All `page_remove` can change in memory is the entry for `va`. -/
theorem pageRemove_mem (h : pageRemove pm d va = some pm') :
    pm'.kernPgdir = pm.kernPgdir ∧
      (pm'.mem = pm.mem ∨ ∃ t, entry pm d (pdx va) = some t ∧
        pm'.mem = (pm.store (t, ptx va) 0).mem) := by
  rcases pageRemove_cases h with ⟨-, rfl⟩ | ⟨p, pte, pm1, hlook, hd, rfl⟩
  · exact ⟨rfl, .inl rfl⟩
  obtain ⟨hmem, hkern⟩ := pageDecref_mem hd
  have ho := pageLookup_eq hlook
  cases ht : entry pm d (pdx va) with
  | none => simp [ht] at ho
  | some t =>
    cases hp : entry pm t (ptx va) with
    | none => simp [ht, hp] at ho
    | some q =>
      rw [ht, bind_some, hp] at ho
      cases ho
      refine ⟨hkern, .inr ⟨t, rfl, ?_⟩⟩
      simp [Pmap.store, Pmap.fill, hmem]

/-! ### Inserting -/

/-- The end of `page_insert`: the entry, and the directory entry's permissions. -/
def writePte (pm : Pmap M) (d : Ppn M) (pte : PtePtr M) (pp : Ppn M) (va perm : Word) : Pmap M :=
  let pm := pm.store pte (page2pa pp ||| perm ||| pteP)
  pm.store (d, pdx va) (pm.load (d, pdx va) ||| perm)

theorem pageInsert_cases (h : pageInsert pm d pp va perm = some (r, pm')) :
    (r = -eNoMem ∧ pgdirWalk pm d va true = some (none, pm')) ∨
    (r = 0 ∧ ∃ pte pm1 pm2, pgdirWalk pm d va true = some (some pte, pm1) ∧
      (present (pm1.load pte) ∧ pageRemove (pm1.incRef pp) d va = some pm2 ∨
        ¬ present (pm1.load pte) ∧ pm2 = pm1.incRef pp) ∧
      pm' = writePte pm2 d pte pp va perm) := by
  unfold pageInsert at h
  split at h
  · simp at h
  · rename_i pm1 hw
    obtain ⟨rfl, rfl⟩ := h
    exact .inl ⟨rfl, hw⟩
  · rename_i pte pm1 hw
    simp only at h
    split at h
    · simp at h
    rename_i pm2 hr
    obtain ⟨rfl, rfl⟩ := h
    refine .inr ⟨rfl, pte, pm1, pm2, hw, ?_, rfl⟩
    by_cases hp : present (pm1.load pte)
    · refine .inl ⟨hp, ?_⟩
      rwa [if_pos (show present ((pm1.incRef pp).load pte) from hp)] at hr
    · refine .inr ⟨hp, ?_⟩
      rw [if_neg (show ¬ present ((pm1.incRef pp).load pte) from hp)] at hr
      exact (some.inj hr).symm

section

variable (hx : Excl (refs root tmp pm)) (hroot : root e = some d) (hva : va < utop)
include hx hroot hva

/-- Permissions added to the directory entry of a table change no reference. -/
theorem refs_orPde
    (hperm : FlagsOnly perm) (ht : refs root tmp pm (.table e (upde va hva)) = some t) :
    refs root tmp (pm.store (d, pdx va) (pm.load (d, pdx va) ||| perm)) = refs root tmp pm := by
  have hent : entry pm d (pdx va) = some t := by simpa [refs, tableOf, hroot] using ht
  have hor : entryOf M (pm.load (d, pdx va) ||| perm) = some t :=
    (entryOf_or_flags hperm (entryOf_eq_some.mp hent).1).trans hent
  have htd : t ≠ d := by
    intro hc
    have hd : refs root tmp pm (.dir e) = some t := by simp [refs, hroot, hc]
    exact absurd (hx _ _ _ hd ht trivial) (by simp)
  have htab := @refs_store_table M root tmp pm e (upde va hva) d (pm.load (d, pdx va) ||| perm)
    hx hroot
  rw [toPde_upde, hor] at htab
  rw [htab ?_, ← ht, update_eq_self]
  intro j
  rw [bind_some, entry, load_store_of_ne (fun hc => htd (Prod.mk.inj hc).1)]
  simp only [refs]
  rw [show tableOf pm (root e) (upde va hva) = some t from ht, bind_some]

theorem refs_writePte
    (hperm : FlagsOnly perm) (hpp : ∀ r, r.isNode → refs root tmp pm r ≠ some pp)
    (ht : refs root tmp pm (.table e (upde va hva)) = some t) :
    refs root tmp (writePte pm d (t, ptx va) pp va perm)
      = update (refs root tmp pm) (.leaf e (upde va hva) (ptx va)) (some pp) := by
  have hleaf := refs_store_leaf hx ht (ptx va) (page2pa pp ||| perm ||| pteP)
  rw [entryOf_pte pp hperm] at hleaf
  unfold writePte
  rw [refs_orPde (t := t) ?_ hroot hva hperm ?_, hleaf]
  · rw [hleaf]
    exact hx.update_leaf hpp (by simp [Ref.isNode])
  · rw [hleaf, update_of_ne (by simp)]
    exact ht

/-- The middle of `page_insert`: whatever `va` mapped is gone. -/
theorem refs_clearOld
    (ht : refs root tmp pm (.table e (upde va hva)) = some t)
    (h : present (pm.load (t, ptx va)) ∧ pageRemove (pm.incRef pp) d va = some pm' ∨
      ¬ present (pm.load (t, ptx va)) ∧ pm' = pm.incRef pp) :
    refs root tmp pm' = update (refs root tmp pm) (.leaf e (upde va hva) (ptx va)) none := by
  rcases h with ⟨-, hrem⟩ | ⟨hpres, rfl⟩
  · rw [pageRemove_view (by rw [refs_incRef]; exact hx) hroot hva hrem, refs_incRef]
  have hnone : refs root tmp pm (.leaf e (upde va hva) (ptx va)) = none := by
    simp only [refs]
    rw [show tableOf pm (root e) (upde va hva) = some t from ht, bind_some, entry,
      entryOf_of_not_present hpres]
  rw [refs_incRef, ← hnone, update_eq_self]

end

/--
**`page_insert`**, seen through the references: it runs out of memory and changes
nothing, or it makes sure of a page table and writes one leaf.
-/
theorem pageInsert_view (hx : Excl (refs root tmp pm)) (hfresh : HeadFresh (refs root tmp pm) pm)
    (hroot : root e = some d) (hva : va < utop) (hperm : FlagsOnly perm)
    (hpp : ∀ r, r.isNode → refs root tmp pm r ≠ some pp) (hhead : pm.pageFreeList ≠ some pp)
    (h : pageInsert pm d pp va perm = some (r, pm')) :
    (r = -eNoMem ∧ pm' = pm ∧ pm.pageFreeList = none ∧
      refs root tmp pm (.table e (upde va hva)) = none) ∨
    (r = 0 ∧ ∃ R, WithTable (refs root tmp pm) R pm e (upde va hva) ∧
      refs root tmp pm' = update R (.leaf e (upde va hva) (ptx va)) (some pp)) := by
  rcases pageInsert_cases h with ⟨rfl, hw⟩ | ⟨rfl, pte, pm1, pm2, hw, hclear, rfl⟩
  · rcases pgdirWalk_view hx hfresh hroot hva hw with ⟨-, hpm, hnil, hnone⟩ | ⟨t, hc, -⟩
    · exact .inl ⟨rfl, hpm, hnil, hnone⟩
    · simp at hc
  rcases pgdirWalk_view hx hfresh hroot hva hw with ⟨hc, -⟩ | ⟨t, hpte, ht, hwith⟩
  · simp at hc
  cases hpte
  have hx1 := hwith.excl hx hfresh
  have hpp1 := hwith.ne_of_node hpp hhead
  have hrefs2 := refs_clearOld hx1 hroot hva ht hclear
  have hnode : ∀ r, r.isNode → refs root tmp pm2 r = refs root tmp pm1 r := by
    intro r hr
    rw [hrefs2, update_of_ne]
    rintro rfl
    exact hr
  refine .inr ⟨rfl, refs root tmp pm1, hwith, ?_⟩
  rw [refs_writePte ?_ hroot hva hperm ?_ ((hnode (.table _ _) trivial).trans ht), hrefs2,
    update_idem]
  · rw [hrefs2]
    exact hx1.update_none _
  · intro r hr
    rw [hnode r hr]
    exact hpp1 r hr

theorem refs_inFlight (pm : Pmap M) (pp : Ppn M) :
    refs root (some pp) pm = update (refs root none pm) .inFlight (some pp) := by
  funext r
  cases r <;> simp [refs]

/--
**`page_insert` keeps the books**: the page inserted is in use or held, and the page it
replaces, if any, has at most 2^16 references.
-/
theorem pageInsert_ledger {H' : Set (Ppn M)} (hx : Excl (refs root none pm))
    (hl : Ledger A H (refs root none pm) pm) (hroot : root e = some d) (hva : va < utop)
    (hperm : FlagsOnly perm) (hpp : ∀ r, r.isNode → refs root none pm r ≠ some pp)
    (huse : pp ∈ H ∨ 0 < refCount (refs root none pm) pp) (hH' : ∀ q, q ∈ H' ↔ q ∈ H ∧ q ≠ pp)
    (hle : ∀ p, refs root none pm (.leaf e (upde va hva) (ptx va)) = some p →
      refCount (refs root none pm) p + (if pp = p then 1 else 0) ≤ 65536)
    (h : pageInsert pm d pp va perm = some (0, pm')) :
    Ledger A H' (refs root none pm') pm' := by
  have hhead := hl.ne_head huse
  rcases pageInsert_cases h with ⟨hc, -⟩ | ⟨-, pte, pm1, pm2, hw, hclear, rfl⟩
  · simp [eNoMem] at hc
  rcases pgdirWalk_view hx hl.headFresh hroot hva hw with ⟨hc, -⟩ | ⟨t, hpte, ht, hwith⟩
  · simp at hc
  cases hpte
  have hx1 := hwith.excl hx hl.headFresh
  have hpp1 := hwith.ne_of_node hpp hhead
  have hleaf : refs root none pm1 (.leaf e (upde va hva) (ptx va))
      = refs root none pm (.leaf e (upde va hva) (ptx va)) := by
    rcases hwith with heq | ⟨t', -, -, heq⟩
    · rw [heq]
    · rw [heq, update_of_ne (by simp)]
  have hle1 : ∀ p, refs root none pm1 (.leaf e (upde va hva) (ptx va)) = some p →
      refCount (refs root none pm1) p + (if pp = p then 1 else 0) ≤ 65536 := by
    intro p hp
    rw [hleaf] at hp
    rcases hwith.refCount_eq p with heq | ⟨hfree, -⟩
    · rw [heq]
      exact hle p hp
    · exact absurd hp (hl.headFresh p hfree _)
  have hl1 := pgdirWalk_ledger hx hl hroot hva hw
  -- the reference is counted before it is written: it is in flight meanwhile
  have hfly : Ledger A H' (refs root (some pp) (pm1.incRef pp)) (pm1.incRef pp) := by
    rw [refs_inFlight, refs_incRef]
    exact hl1.incref rfl
      (huse.imp id fun hu => by rcases hwith.refCount_eq pp with hc | ⟨-, hc⟩ <;> omega) hH'
  have hxfly : Excl (refs root (some pp) pm1) := by
    rw [refs_inFlight]
    exact hx1.update_leaf hpp1 (by simp [Ref.isNode])
  have hl2 : Ledger A H' (refs root (some pp) pm2) pm2 := by
    rcases hclear with ⟨-, hrem⟩ | ⟨-, rfl⟩
    · refine pageRemove_ledger (by rw [refs_incRef]; exact hxfly) hfly hva ?_ hroot hrem
      intro p hp
      rw [refs_incRef, refs_inFlight, refCount_update_some pp p rfl]
      exact hle1 p hp
    · exact hfly
  have hrefs2 := refs_clearOld hx1 hroot hva ht hclear
  have hnode : ∀ r, r.isNode → refs root none pm2 r = refs root none pm1 r := by
    intro r hr
    rw [hrefs2, update_of_ne]
    rintro rfl
    exact hr
  have hmove := hl2.move .inFlight (.leaf e (upde va hva) (ptx va)) rfl (by
    rw [refs_inFlight, update_of_ne (by simp), hrefs2, update_self])
  have hback : update (refs root (some pp) pm2) .inFlight none = refs root none pm2 := by
    rw [refs_inFlight, update_idem]
    exact update_eq_self (f := refs root none pm2) Ref.inFlight
  rw [refs_writePte ?_ hroot hva hperm ?_ ((hnode (.table _ _) trivial).trans ht), ← hback]
  · exact hmove.congr rfl rfl
  · rw [hrefs2]
    exact hx1.update_none _
  · intro r hr
    rw [hnode r hr]
    exact hpp1 r hr

theorem refCount_update_le (r : Ref) (p q : Ppn M) :
    refCount (update R r (some p)) q ≤ refCount R q + (if p = q then 1 else 0) := by
  have h := refCount_update R r (some p) q
  simp only [some.injEq] at h
  omega

/--
**All of `page_insert`**: out of memory it changes nothing; otherwise tables stay
unshared, the books balance, and the bound holds.
-/
theorem pageInsert_books {H' : Set (Ppn M)} (hx : Excl (refs root none pm))
    (hl : Ledger A H (refs root none pm) pm) (hroot : root e = some d) (hva : va < utop)
    (hperm : FlagsOnly perm) (hpp : ∀ r, r.isNode → refs root none pm r ≠ some pp)
    (huse : pp ∈ H ∨ 0 < refCount (refs root none pm) pp) (hH' : ∀ q, q ∈ H' ↔ q ∈ H ∧ q ≠ pp)
    (hle : ∀ p, refCount (refs root none pm) p + (if pp = p then 1 else 0) ≤ 65536)
    (h : pageInsert pm d pp va perm = some (r, pm')) :
    (r = -eNoMem ∧ pm' = pm) ∨
    (r = 0 ∧ Excl (refs root none pm') ∧ Ledger A H' (refs root none pm') pm' ∧
      ∀ p, refCount (refs root none pm') p ≤ 65536) := by
  have hhead := hl.ne_head huse
  rcases pageInsert_view hx hl.headFresh hroot hva hperm hpp hhead h with
    ⟨hr, hpm, -⟩ | ⟨rfl, R, hwith, hview⟩
  · exact .inl ⟨hr, hpm⟩
  · refine .inr ⟨rfl, ?_,
      pageInsert_ledger hx hl hroot hva hperm hpp huse hH' (fun p _ => hle p) h, fun p => ?_⟩
    · rw [hview]
      exact (hwith.excl hx hl.headFresh).update_leaf (hwith.ne_of_node hpp hhead)
        (by simp [Ref.isNode])
    · rw [hview]
      refine le_trans (refCount_update_le _ pp p) ?_
      rcases hwith.refCount_eq p with heq | ⟨hp, heq⟩
      · rw [heq]
        exact hle p
      have hne : pp ≠ p := by
        rintro rfl
        exact hhead hp
      rw [heq, (hl.head_free hp).2.1, if_neg hne]
      omega

end Jos
