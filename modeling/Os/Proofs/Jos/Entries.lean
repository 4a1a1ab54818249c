/-
The entries themselves.

`refs` says what the slots refer to and forgets the flags.  Two finer descriptions of
the same operations are added here.  `Writes S` bounds the words of memory an operation
may have changed, whatever they are used for.  `ptes` is the view with whole words:
the entry in each slot of a page table, zero where there is no table.
-/
import Os.Proofs.Jos.PageOps

namespace Jos

open Function

variable {M : Machine} {root : EnvIdx → Option (Ppn M)} {tmp : Option (Ppn M)}
variable {pm pm' pm'' : Pmap M} {e : EnvIdx} {i : Upde} {j : Fin nptentries} {d t : Ppn M}
    {va : Word}

/-! ### Which words are written -/

/-- Memory has changed at most at the addresses `S`, and the kernel's directory is the same. -/
def Writes (S : Set (PtePtr M)) (pm pm' : Pmap M) : Prop :=
  pm'.kernPgdir = pm.kernPgdir ∧ Set.EqOn pm'.load pm.load Sᶜ

namespace Writes

variable {S T : Set (PtePtr M)}

theorem refl (pm : Pmap M) : Writes S pm pm := ⟨rfl, fun _ _ => rfl⟩

theorem of_mem (hk : pm'.kernPgdir = pm.kernPgdir) (h : pm'.mem = pm.mem) : Writes S pm pm' :=
  ⟨hk, fun x _ => by simp [Pmap.load, h]⟩

theorem trans (h : Writes S pm pm') (h' : Writes S pm' pm'') : Writes S pm pm'' :=
  ⟨h'.1.trans h.1, h'.2.trans h.2⟩

theorem mono (h : Writes S pm pm') (hST : S ⊆ T) : Writes T pm pm' :=
  ⟨h.1, h.2.mono (Set.compl_subset_compl.mpr hST)⟩

theorem store {x : PtePtr M} (hx : x ∈ S) (w : Word) : Writes S pm (pm.store x w) := by
  refine ⟨rfl, fun y hy => load_store_of_ne ?_ w⟩
  rintro rfl
  exact hy hx

end Writes

/-- Where `pgdir_walk` and `page_insert` may write: the entry of the directory, the entry of
the page table, and the page a new table is made of. -/
def insertCells (pm : Pmap M) (d : Ppn M) (va : Word) : Set (PtePtr M) :=
  {x | x = (d, pdx va) ∨ (∃ t, entry pm d (pdx va) = some t ∧ x = (t, ptx va)) ∨
    pm.pageFreeList = some x.1}

theorem writes_pageAlloc_zero {p : Ppn M} (h : pageAlloc pm allocZero = (some p, pm')) :
    Writes {x | pm.pageFreeList = some x.1} pm pm' := by
  obtain ⟨hhead, hmem, hkern⟩ := pageAlloc_zero_mem h
  refine ⟨hkern, fun x hx => ?_⟩
  have hne : x.1 ≠ p := by
    rintro rfl
    exact hx hhead
  simp [Pmap.load, hmem, Pmap.fill, update_of_ne hne]

/-- The walk writes there, and ends at an entry that is there too. -/
theorem pgdirWalk_writes {pte : PtePtr M} (h : pgdirWalk pm d va true = some (some pte, pm')) :
    Writes (insertCells pm d va) pm pm' ∧ pte ∈ insertCells pm d va := by
  rcases pgdirWalk_true h with ⟨t, ht, hpte, rfl⟩ | ⟨-, -, hc, -⟩ | ⟨-, p, pm1, halloc, hpte, rfl⟩
  · cases hpte
    exact ⟨.refl _, .inr (.inl ⟨t, ht, rfl⟩)⟩
  · simp at hc
  cases hpte
  refine ⟨?_, .inr (.inr (pageAlloc_zero_mem halloc).1)⟩
  refine ((writes_pageAlloc_zero halloc).mono fun x hx => .inr (.inr hx)).trans ?_
  have hincr : Writes (insertCells pm d va) pm1 (pm1.incRef p) := .of_mem rfl rfl
  exact hincr.trans (.store (.inl rfl) _)

theorem pageInsert_result {pp : Ppn M} {perm : Word} {r : Int}
    (h : pageInsert pm d pp va perm = some (r, pm')) : (r = -eNoMem ∧ pm' = pm) ∨ r = 0 := by
  rcases pageInsert_cases h with ⟨hr, hw⟩ | ⟨hr, -⟩
  · rcases pgdirWalk_true hw with ⟨t, -, hc, -⟩ | ⟨-, -, -, hpm⟩ | ⟨-, p, pm1, -, hc, -⟩
    · simp at hc
    · exact .inl ⟨hr, hpm⟩
    · simp at hc
  · exact .inr hr

/-- **`page_insert` writes at three places at most.** -/
theorem pageInsert_writes {pp : Ppn M} {perm : Word} {r : Int}
    (h : pageInsert pm d pp va perm = some (r, pm')) : Writes (insertCells pm d va) pm pm' := by
  rcases pageInsert_result h with ⟨-, rfl⟩ | rfl
  · exact .refl _
  rcases pageInsert_cases h with ⟨hc, -⟩ | ⟨-, pte, pm1, pm2, hw, hclear, rfl⟩
  · simp [eNoMem] at hc
  obtain ⟨hwrites, hpte⟩ := pgdirWalk_writes hw
  have hmid : Writes (insertCells pm d va) pm1 pm2 := by
    rcases hclear with ⟨-, hrem⟩ | ⟨-, rfl⟩
    · obtain ⟨hkern, hmem | ⟨t, ht, hmem⟩⟩ := pageRemove_mem hrem
      · exact .of_mem hkern hmem
      -- the entry cleared is the one the walk found
      have hsame : pte = (t, ptx va) := by
        have ht' : entry pm1 d (pdx va) = some t := ht
        rcases pgdirWalk_true hw with ⟨t', ht'', hp, rfl⟩ | ⟨-, -, hc, -⟩ | ⟨-, p, pm3, -, hp, rfl⟩
        · rw [ht''] at ht'
          cases ht'
          exact Option.some.inj hp
        · simp at hc
        · rw [installTable, entry, load_store_self, entryOf_pde] at ht'
          cases ht'
          exact Option.some.inj hp
      refine Writes.trans (.store (hsame ▸ hpte) 0) (.of_mem hkern hmem)
    · exact .of_mem rfl rfl
  refine (hwrites.trans hmid).trans ?_
  exact (Writes.store hpte _).trans (Writes.store (.inl rfl) _)

/-! ### The words in the page tables -/

/-- The entry in each slot of a page table. -/
def ptes (root : EnvIdx → Option (Ppn M)) (pm : Pmap M) : Ref → Word
  | .leaf e i j =>
    match tableOf pm (root e) i with
    | none => 0
    | some t => pm.load (t, j)
  | _ => 0

theorem ptes_leaf_some (ht : refs root tmp pm (.table e i) = some t) :
    ptes root pm (.leaf e i j) = pm.load (t, j) := by
  simp only [ptes]
  rw [show tableOf pm (root e) i = some t from ht]

theorem ptes_leaf_none (ht : refs root tmp pm (.table e i) = none) :
    ptes root pm (.leaf e i j) = 0 := by
  simp only [ptes]
  rw [show tableOf pm (root e) i = none from ht]

theorem refs_leaf : refs root tmp pm (.leaf e i j) = entryOf M (ptes root pm (.leaf e i j)) := by
  simp only [refs, ptes]
  cases tableOf pm (root e) i with
  | none => exact entryOf_zero.symm
  | some t => rfl

theorem ptes_congr {root' : EnvIdx → Option (Ppn M)}
    (htab : ∀ e i, refs root' none pm' (.table e i) = refs root none pm (.table e i))
    (hload : ∀ e i t j, refs root none pm (.table e i) = some t →
      pm'.load (t, j) = pm.load (t, j)) : ptes root' pm' = ptes root pm := by
  funext r
  cases r with
  | leaf e i j =>
    cases ht : refs root none pm (.table e i) with
    | none => rw [ptes_leaf_none ht, ptes_leaf_none ((htab e i).trans ht)]
    | some t => rw [ptes_leaf_some ht, ptes_leaf_some ((htab e i).trans ht), hload e i t j ht]
  | dir _ => rfl
  | table _ _ => rfl
  | inFlight => rfl

theorem ptes_congr_mem (h : pm'.mem = pm.mem) : ptes root pm' = ptes root pm :=
  ptes_congr (fun _ _ => by rw [refs_congr_mem h]) fun _ _ _ _ _ => by simp [Pmap.load, h]

/-- The directory and the page tables of an environment. -/
def Ref.nodeOf (e : EnvIdx) (r : Ref) : Prop := r = .dir e ∨ ∃ i, r = .table e i

/-- The entries of one environment, if its directory and tables are the same. -/
theorem ptes_congr_env {root' : EnvIdx → Option (Ppn M)} (hroot : root' e = root e)
    (hmem : ∀ r p, r.nodeOf e → refs root none pm r = some p → pm'.mem p = pm.mem p) :
    ptes root' pm' (.leaf e i j) = ptes root pm (.leaf e i j) := by
  have htab : tableOf pm' (root' e) i = tableOf pm (root e) i := by
    rw [hroot]
    cases hd : root e with
    | none => rfl
    | some d => simp [tableOf, entry, Pmap.load, hmem (.dir e) d (.inl rfl) hd]
  simp only [ptes, htab]
  cases ht : tableOf pm (root e) i with
  | none => rfl
  | some t => exact congrFun (hmem (.table e i) t (.inr ⟨i, rfl⟩) ht) j

theorem Excl.table_ne_dir {R : Ref → Option (Ppn M)} {e' : EnvIdx} (hx : Excl R)
    (hd : R (.dir e) = some d) (ht : R (.table e' i) = some t) : t ≠ d := by
  rintro rfl
  exact absurd (hx _ _ _ hd ht trivial) (by simp)

section

variable (hx : Excl (refs root tmp pm))
include hx

theorem ptes_store_leaf
    (ht : refs root tmp pm (.table e i) = some t) (j : Fin nptentries) (w : Word) :
    ptes root (pm.store (t, j) w) = update (ptes root pm) (.leaf e i j) w := by
  have htab : ∀ e' i', refs root tmp (pm.store (t, j) w) (.table e' i')
      = refs root tmp pm (.table e' i') := by
    intro e' i'
    rw [refs_store_leaf hx ht, update_of_ne (by simp)]
  funext r
  by_cases hr : r = .leaf e i j
  · subst hr
    rw [update_self, ptes_leaf_some ((htab e i).trans ht), load_store_self]
  rw [update_of_ne hr]
  cases r with
  | leaf e' i' j' =>
    cases ht' : refs root tmp pm (.table e' i') with
    | none => rw [ptes_leaf_none ht', ptes_leaf_none ((htab e' i').trans ht')]
    | some t' =>
      rw [ptes_leaf_some ht', ptes_leaf_some ((htab e' i').trans ht'), load_store_of_ne]
      intro hc
      cases hc
      cases hx _ (.table e' i') _ ht ht' trivial
      exact hr rfl
  | dir _ => rfl
  | table _ _ => rfl
  | inFlight => rfl

theorem ptes_walk {o : Option (PtePtr M)}
    (hfresh : HeadFresh (refs root tmp pm) pm) (hroot : root e = some d) (hva : va < utop)
    (h : pgdirWalk pm d va true = some (o, pm')) : ptes root pm' = ptes root pm := by
  rcases pgdirWalk_true h with ⟨t, -, -, rfl⟩ | ⟨-, -, -, rfl⟩ | ⟨hpres, p, pm1, halloc, -, rfl⟩
  · rfl
  · rfl
  have hdref : refs root tmp pm (.dir e) = some d := hroot
  have hnone : refs root tmp pm (.table e (upde va hva)) = none := by
    simpa [refs, tableOf, hroot] using entryOf_of_not_present hpres
  have hview := refs_installTable hx hfresh hroot hva hnone halloc
  obtain ⟨hhead, hmem, -⟩ := pageAlloc_zero_mem halloc
  have hp : ∀ r, refs root tmp pm r ≠ some p := hfresh p hhead
  have hload : ∀ q k, q ≠ d → (installTable pm1 d va p).load (q, k) = pm1.load (q, k) := by
    intro q k hq
    unfold installTable
    rw [load_store_of_ne (fun hc => hq (Prod.mk.inj hc).1)]
    rfl
  funext r
  cases r with
  | leaf e' i' j' =>
    by_cases hr : Ref.table e' i' = .table e (upde va hva)
    · cases hr
      have hself := congrFun hview (.table e (upde va hva))
      rw [update_self] at hself
      rw [ptes_leaf_none hnone, ptes_leaf_some hself, hload p j' fun hc => hp _ (hc ▸ hdref)]
      simp [Pmap.load, hmem, Pmap.fill]
    · have hother := congrFun hview (.table e' i')
      rw [update_of_ne hr] at hother
      cases ht' : refs root tmp pm (.table e' i') with
      | none => rw [ptes_leaf_none ht', ptes_leaf_none (hother.trans ht')]
      | some t' =>
        have hne : t' ≠ p := fun hc => hp _ (hc ▸ ht')
        rw [ptes_leaf_some ht', ptes_leaf_some (hother.trans ht'),
          hload t' j' (hx.table_ne_dir hdref ht')]
        simp [Pmap.load, hmem, Pmap.fill, update_of_ne hne]
  | dir _ => rfl
  | table _ _ => rfl
  | inFlight => rfl

/-- `page_remove` clears the entry, or there was nothing to clear. -/
theorem pageRemove_ptes (hroot : root e = some d)
    (hva : va < utop) (h : pageRemove pm d va = some pm') :
    ptes root pm' = ptes root pm ∨
      ptes root pm' = update (ptes root pm) (.leaf e (upde va hva) (ptx va)) 0 := by
  obtain ⟨-, hmem | ⟨t, ht, hmem⟩⟩ := pageRemove_mem h
  · exact .inl (ptes_congr_mem hmem)
  · have ht' : refs root tmp pm (.table e (upde va hva)) = some t := by
      simpa [refs, tableOf, hroot] using ht
    exact .inr ((ptes_congr_mem hmem).trans (ptes_store_leaf hx ht' _ 0))

/-- **`page_insert` writes one entry.** -/
theorem pageInsert_ptes {pp : Ppn M} {perm : Word}
    (hfresh : HeadFresh (refs root tmp pm) pm) (hroot : root e = some d) (hva : va < utop)
    (hperm : FlagsOnly perm) (hpp : ∀ r, r.isNode → refs root tmp pm r ≠ some pp)
    (hhead : pm.pageFreeList ≠ some pp) (h : pageInsert pm d pp va perm = some (0, pm')) :
    ptes root pm' = update (ptes root pm) (.leaf e (upde va hva) (ptx va))
      (page2pa pp ||| perm ||| pteP) := by
  rcases pageInsert_cases h with ⟨hc, -⟩ | ⟨-, pte, pm1, pm2, hw, hclear, rfl⟩
  · simp [eNoMem] at hc
  rcases pgdirWalk_view hx hfresh hroot hva hw with ⟨hc, -⟩ | ⟨t, hpte, ht, hwith⟩
  · simp at hc
  cases hpte
  have hx1 := hwith.excl hx hfresh
  have hrefs2 := refs_clearOld hx1 hroot hva ht hclear
  have hnode : ∀ r, r.isNode → refs root tmp pm2 r = refs root tmp pm1 r := by
    intro r hr
    rw [hrefs2, update_of_ne]
    rintro rfl
    exact hr
  have hx2 : Excl (refs root tmp pm2) := by
    rw [hrefs2]
    exact hx1.update_none _
  have ht2 : refs root tmp pm2 (.table e (upde va hva)) = some t :=
    (hnode (.table _ _) trivial).trans ht
  -- up to the old entry, nothing has been written yet
  have hold : ∀ w, update (ptes root pm2) (.leaf e (upde va hva) (ptx va)) w
      = update (ptes root pm) (.leaf e (upde va hva) (ptx va)) w := by
    intro w
    have hincr : ptes root (pm1.incRef pp) = ptes root pm1 := ptes_congr_mem rfl
    rw [← ptes_walk hx hfresh hroot hva hw]
    rcases hclear with ⟨-, hrem⟩ | ⟨-, rfl⟩
    · rcases pageRemove_ptes (by rw [refs_incRef]; exact hx1) hroot hva hrem with heq | heq
      · rw [heq, hincr]
      · rw [heq, hincr, update_idem]
    · rw [hincr]
  have hleaf := refs_store_leaf hx2 ht2 (ptx va) (page2pa pp ||| perm ||| pteP)
  rw [entryOf_pte pp hperm] at hleaf
  rw [← hold, ← ptes_store_leaf hx2 ht2]
  unfold writePte
  generalize pm2.store (t, ptx va) (page2pa pp ||| perm ||| pteP) = pm3 at hleaf
  have hx3 : Excl (refs root tmp pm3) := by
    rw [hleaf]
    refine hx2.update_leaf (fun r hr => ?_) (by simp [Ref.isNode])
    rw [hnode r hr]
    exact hwith.ne_of_node hpp hhead r hr
  have ht3 : refs root tmp pm3 (.table e (upde va hva)) = some t := by
    rw [hleaf, update_of_ne (by simp)]
    exact ht2
  -- what is left is a write to a directory, and a directory is not a page table
  refine ptes_congr (fun e' i' => ?_) fun e' i' t' j' ht' => ?_
  · exact congrFun (refs_orPde hx3 hroot hva hperm ht3) (.table e' i')
  · exact load_store_of_ne (fun hc => hx3.table_ne_dir hroot ht' (Prod.mk.inj hc).1) _

end

end Jos
