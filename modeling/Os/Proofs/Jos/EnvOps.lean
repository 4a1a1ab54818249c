/-
Creating and tearing down address spaces.

`env_setup_vm` adds one reference: the directory.  `env_free` takes away everything
an environment refers to, and it does so in three nested steps, the entries of a page
table, the page tables of the directory, and the directory.  Each step is one cleared
slot, so the whole is a `Cleared` set, and the books follow slot by slot.

The loops of `env_free` are walked through once, with a rider `I`: anything that
`page_remove` and the dropping of an empty table keep is kept by the whole.  The books
are one such rider.
-/
import Os.Proofs.Jos.Calls
import Os.Proofs.Jos.PageOps

namespace Jos

open RefMap Function

variable {M : Machine} {root : EnvIdx → Option (Ppn M)} {tmp : Option (Ppn M)}
variable {pm pm' : Pmap M} {e : EnvIdx} {d : Ppn M}

/-! ### A new directory -/

/-- The memory `env_setup_vm` leaves, `pm1` being the state after `page_alloc`. -/
def installDir (pm1 : Pmap M) (p : Ppn M) : Pmap M :=
  (pm1.incRef p).fill p (newPgdir (pm1.incRef p) p)

/-- A new directory is one new reference, with an empty user half. -/
theorem refs_installDir {p : Ppn M} {pm1 : Pmap M} (hfresh : HeadFresh (refs root tmp pm) pm)
    (hroot : root e = none) (h : pageAlloc pm allocZero = (some p, pm1)) :
    refs (update root e (some p)) tmp (installDir pm1 p)
      = update (refs root tmp pm) (.dir e) (some p) := by
  obtain ⟨hhead, -, -⟩ := pageAlloc_zero_mem h
  have hp : ∀ r, refs root tmp pm r ≠ some p := hfresh p hhead
  -- nothing the old directories lead to has changed
  have hold : refs root tmp (installDir pm1 p) = refs root tmp pm := by
    have h1 : refs root tmp (pm1.incRef p) = refs root tmp pm := by
      rw [refs_incRef, refs_pageAlloc_zero hfresh h]
    unfold installDir
    rw [refs_fill (fun r _ => by rw [h1]; exact hp r), h1]
  have htab : ∀ i, tableOf (installDir pm1 p) (some p) i = none := by
    intro i
    have hload : (installDir pm1 p).load (p, toPde i) = 0 := by
      simp [installDir, Pmap.load, Pmap.fill, newPgdir_user]
    simp only [tableOf, Option.bind_some, entry, hload, entryOf_zero]
  funext r
  cases r with
  | inFlight => simp [refs]
  | dir e' =>
    by_cases he : e' = e
    · subst he
      simp [refs]
    · simp [refs, he]
  | table e' i =>
    rw [update_of_ne (by simp), ← hold]
    by_cases he : e' = e
    · subst he
      simp only [refs, update_self, htab i]
      simp [tableOf, hroot]
    · simp [refs, he]
  | leaf e' i j =>
    rw [update_of_ne (by simp), ← hold]
    by_cases he : e' = e
    · subst he
      simp only [refs, update_self, htab i]
      simp [tableOf, hroot]
    · simp [refs, he]

/-! ### The loops of `env_free` -/

theorem pgaddr_lt_utop (i : Upde) (j : Fin nptentries) : pgaddr (toPde i) j 0 < utop := by
  have hi : (toPde i).val < 955 := i.isLt
  have hj : j.val < 1024 := j.isLt
  show (pgaddr (toPde i) j 0).toNat < utop.toNat
  rw [toNat_pgaddr, toNat_utop]
  omega

theorem upde_pgaddr (i : Upde) (j : Fin nptentries) :
    upde (pgaddr (toPde i) j 0) (pgaddr_lt_utop i j) = i := by
  apply toPde_injective
  rw [toPde_upde, pdx_pgaddr]

theorem freePte_view {t : Ppn M} {i : Upde} {j : Fin nptentries} (hx : Excl (refs root tmp pm))
    (hroot : root e = some d) (ht : refs root tmp pm (.table e i) = some t)
    (h : freePte d t (toPde i) pm j = some pm') :
    refs root tmp pm' = update (refs root tmp pm) (.leaf e i j) none := by
  unfold freePte at h
  split at h
  · have hview := pageRemove_view hx hroot (pgaddr_lt_utop i j) h
    rwa [upde_pgaddr, ptx_pgaddr] at hview
  rename_i hpres
  cases h
  have hnone : refs root tmp pm (.leaf e i j) = none := by
    simp only [refs]
    rw [show tableOf pm (root e) i = some t from ht, Option.bind_some, entry,
      entryOf_of_not_present hpres]
  rw [← hnone, update_eq_self]

/-- Dropping a table that maps nothing clears its slot. -/
theorem refs_dropTable {i : Upde} {t : Ppn M} (hx : Excl (refs root tmp pm))
    (hroot : root e = some d) (hleaves : ∀ j, refs root tmp pm (.leaf e i j) = none)
    (h : pageDecref (pm.store (d, toPde i) 0) t = some pm') :
    refs root tmp pm' = update (refs root tmp pm) (.table e i) none := by
  have hs := @refs_store_table M root tmp pm e i d 0 hx hroot
  rw [entryOf_zero] at hs
  rw [refs_congr_mem (pageDecref_mem h).1, hs fun j => (hleaves j).symm]

section Loops

variable {I : Pmap M → Prop}

/-- `page_remove` on the directory `d` keeps the rider. -/
def KeptByRemove (root : EnvIdx → Option (Ppn M)) (tmp : Option (Ppn M)) (d : Ppn M)
    (I : Pmap M → Prop) : Prop :=
  ∀ pm pm' va, va < utop → Excl (refs root tmp pm) → I pm → pageRemove pm d va = some pm' → I pm'

/-- Dropping an empty page table of `e` keeps the rider. -/
def KeptByDrop (root : EnvIdx → Option (Ppn M)) (tmp : Option (Ppn M)) (e : EnvIdx) (d : Ppn M)
    (I : Pmap M → Prop) : Prop :=
  ∀ pm pm' i t, Excl (refs root tmp pm) → I pm → refs root tmp pm (.table e i) = some t →
    (∀ j, refs root tmp pm (.leaf e i j) = none) →
    pageDecref (pm.store (d, toPde i) 0) t = some pm' → I pm'

theorem freePte_loop {t : Ppn M} {i : Upde} (hI : KeptByRemove root tmp d I)
    (hx : Excl (refs root tmp pm)) (hI0 : I pm) (hroot : root e = some d)
    (ht : refs root tmp pm (.table e i) = some t)
    (h : (List.finRange nptentries).foldlM (freePte d t (toPde i)) pm = some pm') :
    Excl (refs root tmp pm') ∧ I pm' ∧
      Cleared (refs root tmp pm) (refs root tmp pm') {r | ∃ j, r = .leaf e i j} := by
  have hloop := Cleared.loop (refs root tmp) (fun j => {Ref.leaf e i j})
    (I := fun pm1 => Excl (refs root tmp pm1) ∧ I pm1 ∧ refs root tmp pm1 (.table e i) = some t)
    h ⟨hx, hI0, ht⟩ ?_
  · obtain ⟨⟨hx', hI', -⟩, hc⟩ := hloop
    exact ⟨hx', hI', by simpa using hc⟩
  · rintro j pm1 pm2 ⟨hx1, hI1, ht1⟩ hstep
    have hview := freePte_view hx1 hroot ht1 hstep
    rw [hview]
    refine ⟨⟨hx1.update_none _, ?_, ?_⟩, Cleared.update_none _ _⟩
    · unfold freePte at hstep
      split at hstep
      · exact hI _ _ _ (pgaddr_lt_utop i j) hx1 hI1 hstep
      · cases hstep
        exact hI1
    · rw [update_of_ne (by simp)]
      exact ht1

/-- The slots behind one directory entry. -/
def entrySlots (e : EnvIdx) (i : Upde) : Set Ref := {r | r = .table e i ∨ ∃ j, r = .leaf e i j}

/-- One turn of the outer loop clears a directory entry and everything behind it. -/
theorem freePde_view {i : Upde} (hI : KeptByRemove root tmp d I) (hD : KeptByDrop root tmp e d I)
    (hx : Excl (refs root tmp pm)) (hI0 : I pm) (hroot : root e = some d)
    (h : freePde d pm i = some pm') :
    Excl (refs root tmp pm') ∧ I pm' ∧
      Cleared (refs root tmp pm) (refs root tmp pm') (entrySlots e i) := by
  have htab : refs root tmp pm (.table e i) = entry pm d (toPde i) := by
    simp [refs, tableOf, hroot]
  unfold freePde at h
  split at h
  · rename_i hpres
    cases h
    have hnone : refs root tmp pm (.table e i) = none := by
      rw [htab, entry, entryOf_of_not_present hpres]
    refine ⟨hx, hI0, ?_, fun _ _ => rfl⟩
    rintro r (rfl | ⟨j, rfl⟩)
    · exact hnone
    · simp only [refs]
      rw [show tableOf pm (root e) i = none from hnone, Option.bind_none]
  · rename_i hpres
    split at h
    · simp at h
    rename_i t hframe
    have ht : refs root tmp pm (.table e i) = some t := by
      rw [htab]
      exact entryOf_eq_some.mpr ⟨not_not.mp hpres, hframe⟩
    split at h
    · simp at h
    rename_i pm1 hloop
    obtain ⟨hx1, hI1, hc⟩ := freePte_loop hI hx hI0 hroot ht hloop
    have ht1 : refs root tmp pm1 (.table e i) = some t := by
      rw [hc.2 _ (by simp), ht]
    have hleaves : ∀ j, refs root tmp pm1 (.leaf e i j) = none := fun j =>
      hc.1 _ ⟨j, rfl⟩
    have hview := refs_dropTable hx1 hroot hleaves h
    refine ⟨by rw [hview]; exact hx1.update_none _, hD _ _ _ _ hx1 hI1 ht1 hleaves h, ?_⟩
    have hset : entrySlots e i = {r | ∃ j, r = .leaf e i j} ∪ {Ref.table e i} := by
      ext r
      simp [entrySlots]
    rw [hset, hview]
    exact hc.trans (Cleared.update_none _ _)

/-- The slots of the user half of an environment. -/
def userSlots (e : EnvIdx) : Set Ref := {r | ∃ i, r ∈ entrySlots e i}

theorem freePde_loop (hI : KeptByRemove root tmp d I) (hD : KeptByDrop root tmp e d I)
    (hx : Excl (refs root tmp pm)) (hI0 : I pm) (hroot : root e = some d)
    (h : (List.finRange pdxUtop).foldlM (freePde d) pm = some pm') :
    Excl (refs root tmp pm') ∧ I pm' ∧
      Cleared (refs root tmp pm) (refs root tmp pm') (userSlots e) := by
  have hloop := Cleared.loop (refs root tmp) (entrySlots e)
    (I := fun pm1 => Excl (refs root tmp pm1) ∧ I pm1) h ⟨hx, hI0⟩ ?_
  · obtain ⟨⟨hx', hI'⟩, hc⟩ := hloop
    exact ⟨hx', hI', by simpa [userSlots] using hc⟩
  · rintro i pm1 pm2 ⟨hx1, hI1⟩ hstep
    obtain ⟨hx2, hI2, hc2⟩ := freePde_view hI hD hx1 hI1 hroot hstep
    exact ⟨⟨hx2, hI2⟩, hc2⟩

end Loops

end Jos
