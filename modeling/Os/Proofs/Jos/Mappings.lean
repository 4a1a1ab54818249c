/-
What the operations enter into the page tables.

Each operation is described by its effect on `ptes`, the entries of all address spaces
at once.  Most of them only take mappings away or leave them alone.  `page_insert` is
the only one that makes an entry, and it is called from three places: `sys_page_alloc`
and `region_alloc`, with a page that was free, and `sys_page_map`, with a page the
caller found in a slot of an environment it may name.
-/
import Os.Proofs.Jos.Authority

namespace Jos

open Linked Function

variable {M : Machine} {s s' : Kern M} {c : CpuIdx} {e : EnvIdx}
variable {va perm : Word} {r : Int} {p d : Ppn M} {pm1 pm2 : Pmap M}

/-- The entry in every slot of the kernel. -/
abbrev Kern.ptes (s : Kern M) : Ref → Word := Jos.ptes s.root s.pm

theorem SameTables.ptes_eq (h : SameTables s s') : s'.ptes = s.ptes := by
  have hroot : s'.root = s.root := funext h.pgdir
  unfold Kern.ptes
  rw [hroot, h.pm]

/-- Mappings have been taken away, or nothing. -/
def Shrinks (s s' : Kern M) : Prop := ∀ r, s'.ptes r = s.ptes r ∨ s'.ptes r = 0

theorem Shrinks.of_eq (h : s'.ptes = s.ptes) : Shrinks s s' := fun r => .inl (congrFun h r)

theorem Shrinks.same {s1 : Kern M} (h : Shrinks s s1) (hr : SameTables s1 s') : Shrinks s s' := by
  intro r
  rw [hr.ptes_eq]
  exact h r

/-! ### Operations that make no entry -/

theorem WritesLeaves.ptes_eq {pm : Pmap M} (hx : Excl s.refs)
    (h : WritesLeaves s.refs e s.pm pm) : Jos.ptes s.root pm = s.ptes := by
  refine ptes_congr (fun e' i => ?_) fun e' i t j ht => ?_
  · rw [h.refs_eq hx]
  · exact congrFun (h.mem_node hx (r := .table e' i) trivial ht) j

theorem envFree_shrinks (hx : Excl s.refs) (h : envFree s e = some s') : Shrinks s s' := by
  have hwrites := envFree_writes hx h
  have hroot := root_envFree h
  intro r
  cases r with
  | leaf e' i j =>
    by_cases he : e' = e
    · subst he
      have hnone : s'.refs (.table e' i) = none := by
        simp [Kern.refs, Jos.refs, tableOf, hroot]
      exact .inr (ptes_leaf_none hnone)
    · refine .inl (ptes_congr_env ?_ fun r p hr hp => funext fun k => ?_)
      · rw [hroot, update_of_ne he]
      -- a directory or table of another environment is not one of `e`
      refine hwrites.2 (x := (p, k)) ?_
      have hnode : r.isNode := by
        rcases hr with rfl | ⟨i', rfl⟩ <;> trivial
      rintro (⟨hd, -⟩ | ⟨i', ht⟩)
      · have heq := hx r (.dir e) p hp hd hnode
        rcases hr with rfl | ⟨i', rfl⟩ <;> simp_all
      · have heq := hx r (.table e i') p hp ht hnode
        rcases hr with rfl | ⟨i', rfl⟩ <;> simp_all
  | dir _ => exact .inl rfl
  | table _ _ => exact .inl rfl
  | inFlight => exact .inl rfl

theorem envAlloc_shrinks {parentId : Word} {x : Except Int EnvIdx} (hf : FreeUnused s)
    (h : envAlloc s parentId = (x, s')) : Shrinks s s' := by
  have hwrites := envAlloc_writes h
  rcases envAlloc_cases h with ⟨r, -, -, rfl⟩ | ⟨e, p, pm1, -, -, halloc, rfl⟩
  · exact .of_eq rfl
  obtain ⟨l, hl, hunused⟩ := hf
  have hhead := (pageAlloc_zero_mem halloc).1
  obtain ⟨m, rfl, -⟩ := hl.of_head hhead
  intro r
  cases r with
  | leaf e' i j =>
    by_cases he : e' = e
    · -- the user half of the new directory is empty
      subst he
      have hempty : ∀ pm : Pmap M, entry (pm.fill p (newPgdir pm p)) p (toPde i) = none := by
        intro pm
        have hzero : (pm.fill p (newPgdir pm p)).load (p, toPde i) = 0 := by
          simp [Pmap.load, Pmap.fill, newPgdir_user]
        rw [entry, hzero]
        exact entryOf_zero
      simp [Jos.ptes, Kern.root, tableOf, allocatedEnv, hempty]
    · refine .inl (ptes_congr_env ?_ fun r q _ hq => funext fun k => ?_)
      · simp [Kern.root, update_of_ne he]
      · refine hwrites.2 (x := (q, k)) fun hc => ?_
        cases hhead.symm.trans hc
        exact hunused q (by simp) r hq
  | dir _ => exact .inl rfl
  | table _ _ => exact .inl rfl
  | inFlight => exact .inl rfl

theorem sysPageUnmap_shrinks {envid : Word} (hx : Excl s.refs)
    (h : sysPageUnmap s c envid va = some (r, s')) : Shrinks s s' := by
  rcases sysPageUnmap_cases h with ⟨-, rfl⟩ | ⟨e, d, pm, -, hva, hd, hrem, -, rfl⟩
  · exact .of_eq rfl
  rcases pageRemove_ptes hx (show s.root e = some d from hd) (lt_utop_of_not_badVa hva) hrem with
    heq | heq
  · exact .of_eq heq
  · intro r
    show Jos.ptes s.root pm r = _ ∨ Jos.ptes s.root pm r = 0
    rw [heq, update_apply]
    split
    · exact .inr rfl
    · exact .inl rfl

/-! ### Entering a page that was free -/

theorem FreeUnused.headFresh (hf : FreeUnused s) : HeadFresh s.refs s.pm := by
  obtain ⟨l, hl, hunused⟩ := hf
  intro p hp
  obtain ⟨m, rfl, -⟩ := hl.of_head hp
  exact hunused p (by simp)

/-- The page `page_alloc` takes is in nobody's hands, and neither is the next one. -/
theorem FreeUnused.alloc {flags : Word} (hf : FreeUnused s)
    (h : pageAlloc s.pm flags = (some p, pm1)) :
    s.pm.pageFreeList = some p ∧ (∀ r, s.refs r ≠ some p) ∧ HeadFresh s.refs pm1 ∧
      pm1.pageFreeList ≠ some p := by
  obtain ⟨l, hl, hunused⟩ := hf
  rcases pageAlloc_cases h with ⟨hc, -⟩ | ⟨q, hq, hhead, hnext, -⟩
  · simp at hc
  cases hq
  obtain ⟨m, rfl, hm⟩ := hl.of_head hhead
  refine ⟨hhead, hunused p (by simp), fun q hq => ?_, fun hc => ?_⟩
  · rw [← hnext, hq] at hm
    obtain ⟨m', rfl, -⟩ := hm.of_some
    exact hunused q (by simp)
  · rw [← hnext, hc] at hm
    obtain ⟨m', rfl, -⟩ := hm.of_some
    exact absurd (Chain.nodup hl) (by simp)

theorem insertNew_ptes {flags : Word} (hx : Excl s.refs) (hf : FreeUnused s)
    (halloc : pageAlloc s.pm flags = (some p, pm1)) (hrefs : Jos.refs s.root none pm1 = s.refs)
    (hptes : Jos.ptes s.root pm1 = s.ptes) (hd : s.root e = some d) (hva : va < utop)
    (hperm : FlagsOnly perm) (hins : pageInsert pm1 d p va perm = some (0, pm2)) :
    Jos.ptes s.root pm2 = update s.ptes (.leaf e (upde va hva) (ptx va))
      (page2pa p ||| perm ||| pteP) := by
  obtain ⟨-, hunused, hfresh, hhead⟩ := hf.alloc halloc
  rw [← hrefs] at hx hfresh hunused
  rw [← hptes]
  exact pageInsert_ptes hx hfresh hd hva hperm (fun r _ => hunused r) hhead hins

theorem ptes_pageAlloc_zero (hf : FreeUnused s) (h : pageAlloc s.pm allocZero = (some p, pm1)) :
    Jos.ptes s.root pm1 = s.ptes := by
  obtain ⟨hhead, hmem, -⟩ := pageAlloc_zero_mem h
  refine ptes_congr (fun e i => ?_) fun e i t j ht => ?_
  · rw [refs_pageAlloc_zero hf.headFresh h]
  · have hne : t ≠ p := fun hc => hf.headFresh p hhead _ (hc ▸ ht)
    simp [Pmap.load, hmem, Pmap.fill, update_of_ne hne]

/-- The insertion writes to tables, and a page that was free is none. -/
theorem mem_of_insertNew (hf : FreeUnused s) (halloc : pageAlloc s.pm allocZero = (some p, pm1))
    (hd : s.root e = some d) (hva : va < utop) (hins : pageInsert pm1 d p va perm = some (r, pm2)) :
    pm2.mem p = fun _ => 0 := by
  obtain ⟨-, hunused, -, hnext⟩ := hf.alloc halloc
  have hrefs := refs_pageAlloc_zero hf.headFresh halloc
  have hsame : pm2.mem p = pm1.mem p := by
    funext k
    refine (pageInsert_writes hins).2 (x := (p, k)) ?_
    rintro (hc | ⟨t, ht, hc⟩ | hc)
    · exact hunused (.dir e) (hd.trans (congrArg some (Prod.mk.inj hc).1.symm))
    · refine hunused (.table e (upde va hva)) ((congrFun hrefs _).symm.trans ?_)
      rw [(Prod.mk.inj hc).1]
      simpa [Jos.refs, tableOf, hd] using ht
    · exact hnext hc
  rw [hsame, (pageAlloc_zero_mem halloc).2.1]
  simp [Pmap.fill]

section

variable (hx : Excl s.refs) (hf : FreeUnused s)
include hx hf

/-- **`sys_page_alloc`** enters a page that was free, and that is all zeros afterwards. -/
theorem sysPageAlloc_ptes {envid : Word}
    (h : sysPageAlloc s c envid va perm = some (r, s')) :
    s'.ptes = s.ptes ∨ ∃ p slot, s.pm.pageFreeList = some p ∧ s'.pm.mem p = (fun _ => 0) ∧
      ¬ (perm &&& pteU = 0 ∨ perm &&& pteP = 0) ∧ perm &&& ~~~pteSyscall = 0 ∧
      s'.ptes = update s.ptes slot (page2pa p ||| perm ||| pteP) := by
  rcases sysPageAlloc_cases h with ⟨-, rfl⟩ |
    ⟨e, d, p, pm1, pm2, r', he, hva, hup, hperm, halloc, hd, hins, hend⟩
  · exact .inl rfl
  have hva' := lt_utop_of_not_badVa hva
  have hptes := ptes_pageAlloc_zero hf halloc
  have hrefs := refs_pageAlloc_zero hf.headFresh halloc
  rcases pageInsert_result hins with ⟨rfl, rfl⟩ | rfl
  · rcases hend with ⟨-, -, pm3, hfree, rfl⟩ | ⟨hc, -⟩
    · exact .inl ((ptes_congr_mem (pageFree_mem hfree)).trans hptes)
    · exact absurd (by decide) hc
  · rcases hend with ⟨hc, -⟩ | ⟨-, -, rfl⟩
    · exact absurd hc (by decide)
    exact .inr ⟨p, _, (pageAlloc_zero_mem halloc).1, mem_of_insertNew hf halloc hd hva' hins,
      hup, hperm, insertNew_ptes hx hf halloc hrefs hptes hd hva' (flagsOnly_of_syscall hperm) hins⟩

theorem regionStep_ptes {i : Word} (hd : s.root e = some d)
    (hi : i < utop) (halloc : pageAlloc s.pm 0 = (some p, pm1))
    (hins : pageInsert pm1 d p i (pteW ||| pteU) = some (0, pm2)) :
    Jos.ptes s.root pm2 = update s.ptes (.leaf e (upde i hi) (ptx i))
      (page2pa p ||| (pteW ||| pteU) ||| pteP) := by
  have hmem := (pageAlloc_plain_mem halloc).2.1
  exact insertNew_ptes hx hf halloc (refs_congr_mem hmem) (ptes_congr_mem hmem) hd hi
    flagsOnly_regionPerm hins

/-! ### Entering a page that is mapped -/

/--
**`sys_page_map`** enters a page that is mapped in an environment the caller may name,
and writable only if it is writable there.
-/
theorem sysPageMap_ptes {srcenvid srcva dstenvid dstva : Word}
    (h : sysPageMap s c srcenvid srcva dstenvid dstva perm = some (r, s')) :
    s'.ptes = s.ptes ∨ ∃ src i j p slot, MayName s c src ∧ s.refs (.leaf src i j) = some p ∧
      (perm &&& pteW ≠ 0 → s.ptes (.leaf src i j) &&& pteW ≠ 0) ∧
      perm &&& pteSyscall ≠ 0 ∧ perm &&& ~~~pteSyscall = 0 ∧
      s'.ptes = update s.ptes slot (page2pa p ||| perm ||| pteP) := by
  rcases sysPageMap_cases h with ⟨-, rfl⟩ |
    ⟨src, dst, sd, dd, pp, pte, pm, r', hsrc, -, hsva, hdva, hsome, hperm, hsd, hlook, hw, hdd,
      hins, -, rfl⟩
  · exact .inl rfl
  rcases pageInsert_result hins with ⟨-, rfl⟩ | rfl
  · exact .inl rfl
  have hsva' := lt_utop_of_not_badVa hsva
  rcases pageLookup_view none (show s.root src = some sd from hsd) hsva' hlook with
    ⟨hc, -⟩ | ⟨p, t, hp, ht, hleaf⟩
  · simp at hc
  cases hp
  rw [← ptes_leaf_some ht] at hw
  -- the page is mapped, so it is neither a table nor free
  have hnode : ∀ r, r.isNode → s.refs r ≠ some pp := by
    intro r hr hc
    have heq := hx _ _ _ hc hleaf hr
    rw [← heq] at hr
    exact hr
  have hhead : s.pm.pageFreeList ≠ some pp := fun hc => hf.headFresh pp hc _ hleaf
  exact .inr ⟨src, _, _, pp, _, (lookupEnv_ok hsrc).1, hleaf, hw, hsome, hperm,
    pageInsert_ptes hx hf.headFresh (show s.root dst = some dd from hdd)
      (lt_utop_of_not_badVa hdva) (flagsOnly_of_syscall hperm) hnode hhead hins⟩

end

end Jos
