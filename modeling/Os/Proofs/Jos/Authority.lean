/-
What a system call can reach.

A caller may name itself and its children, and `envid2env` sees to that.  Everything a
call writes in memory is then in the user half of the directory of an environment it
may name, in a page table of one, in a page that is mapped, or in a page that was free.
`reach` is that set.  What is outside it stays: the page tables of everybody else and
the kernel half of every directory.

That these are outside `reach` rests on the state.  A page table that two environments
share is reached through either of them, so the tables have to be unshared; the
counterexample at the end is a state in which they are not.
-/
import Os.Proofs.Jos.MemSteps
import Os.Proofs.Jos.Entries

namespace Jos

open Linked RefMap Runs Function

variable {M : Machine} {s s' s1 : Kern M} {c : CpuIdx} {e : EnvIdx} {l : List (Ppn M)}
variable {p d : Ppn M} {pm : Pmap M} {r : Int} {va : Word}

/-- No page on the free list is in use. -/
def FreeUnused (s : Kern M) : Prop :=
  ∃ l, FreeList s.pm l ∧ ∀ p ∈ l, ∀ r, s.refs r ≠ some p

/-- The kernel's own directory, and the page tables of its half of the address space. -/
def kernPages (pm : Pmap M) : Set (Ppn M) :=
  {p | p = pm.kernPgdir ∨
    ∃ i : Fin npdentries, pdxUtop ≤ i.val ∧ entry pm pm.kernPgdir i = some p}

/-- The states a call is made in: besides, no page table or directory is shared or mapped, those
of the kernel are in nobody's hands, and a slot to be allocated is free. -/
structure Sane (s : Kern M) : Prop where
  free : FreeUnused s
  excl : Excl s.refs
  kern : ∀ p ∈ kernPages s.pm, ∀ r, s.refs r ≠ some p
  kernFree : ∀ l, FreeList s.pm l → ∀ p ∈ kernPages s.pm, p ∉ l
  slot : ∀ e, s.envFreeList = some e → ¬ s.live e

theorem kernPgdir_mem_kernPages (pm : Pmap M) : pm.kernPgdir ∈ kernPages pm := .inl rfl

theorem Sane.unused (h : Sane s) (hl : FreeList s.pm l) (hp : p ∈ l) :
    ∀ r, s.refs r ≠ some p := by
  obtain ⟨l', hl', hunused⟩ := h.free
  cases Chain.unique hl hl'
  exact hunused p hp

/-! ### The words within reach -/

/-- The user half of the directory of `e`, and its page tables. -/
def ownCells (s : Kern M) (e : EnvIdx) : Set (PtePtr M) :=
  {x | s.root e = some x.1 ∧ x.2.val < pdxUtop ∨ ∃ i, s.refs (.table e i) = some x.1}

/-- All a caller on `c` can make the kernel write, `l` being the free pages. -/
def reach (s : Kern M) (c : CpuIdx) (l : List (Ppn M)) : Set (PtePtr M) :=
  {x | x.1 ∈ l ∨ (∃ e i j, s.refs (.leaf e i j) = some x.1) ∨ ∃ e, MayName s c e ∧ x ∈ ownCells s e}

theorem FreeList.of_head (h : FreeList pm l) (hp : pm.pageFreeList = some p) :
    ∃ m, l = p :: m ∧ Chain (links pm) (links pm p) m := by
  unfold FreeList at h
  rw [hp] at h
  exact h.of_some

theorem Sane.upper_not_reach {i : Fin npdentries} (h : Sane s) (hl : FreeList s.pm l)
    (hd : s.root e = some d) (hi : pdxUtop ≤ i.val) :
    ((d, i) : PtePtr M) ∉ reach s c l := by
  have hdir : s.refs (.dir e) = some d := hd
  rintro (hfree | ⟨e', i', j, hleaf⟩ | ⟨e', -, ⟨-, hlt⟩ | ⟨i', ht⟩⟩)
  · exact h.unused hl hfree _ hdir
  · exact absurd (h.excl _ _ _ hdir hleaf trivial) (by simp)
  · exact absurd hlt (Nat.not_lt.mpr hi)
  · exact absurd (h.excl _ _ _ hdir ht trivial) (by simp)

theorem Sane.kern_not_reach {k : Fin nptentries} (h : Sane s) (hl : FreeList s.pm l)
    (hp : p ∈ kernPages s.pm) : ((p, k) : PtePtr M) ∉ reach s c l := by
  rintro (hfree | ⟨e', i', j, hleaf⟩ | ⟨e', -, ⟨hroot, -⟩ | ⟨i', ht⟩⟩)
  · exact h.kernFree l hl p hp hfree
  · exact h.kern p hp _ hleaf
  · exact h.kern p hp (.dir e') hroot
  · exact h.kern p hp _ ht

theorem Sane.node_not_reach {r : Ref} {k : Fin nptentries} (h : Sane s) (hl : FreeList s.pm l)
    (hr : r.nodeOf e) (hp : s.refs r = some p) (hname : ¬ MayName s c e) :
    ((p, k) : PtePtr M) ∉ reach s c l := by
  have hnode : r.isNode := by
    rcases hr with rfl | ⟨i, rfl⟩ <;> trivial
  rintro (hfree | ⟨e', i', j, hleaf⟩ | ⟨e', hname', ⟨hroot, -⟩ | ⟨i', ht⟩⟩)
  · exact h.unused hl hfree _ hp
  · have heq := h.excl _ _ _ hp hleaf hnode
    rcases hr with rfl | ⟨i, rfl⟩ <;> simp at heq
  · have heq := h.excl _ (.dir e') _ hp hroot hnode
    rcases hr with rfl | ⟨i, rfl⟩
    · cases heq
      exact hname hname'
    · simp at heq
  · have heq := h.excl _ _ _ hp ht hnode
    rcases hr with rfl | ⟨i, rfl⟩
    · simp at heq
    · cases heq
      exact hname hname'

/-! ### What the operations write is within reach -/

/-- `page_insert` and `page_remove` into an environment the caller may name. -/
theorem insertCells_subset_reach (hl : FreeList s.pm l) (hname : MayName s c e)
    (hd : s.root e = some d) (hva : va < utop) :
    insertCells s.pm d va ⊆ reach s c l := by
  rintro x (rfl | ⟨t, ht, rfl⟩ | hhead)
  · exact .inr (.inr ⟨e, hname, .inl ⟨hd, pdx_lt_of_lt_utop hva⟩⟩)
  · refine .inr (.inr ⟨e, hname, .inr ⟨upde va hva, ?_⟩⟩)
    simpa [Jos.refs, tableOf, hd] using ht
  · obtain ⟨m, rfl, -⟩ := hl.of_head hhead
    exact .inl (by simp)

theorem pageRemove_writes {pm' : Pmap M} (h : pageRemove pm d va = some pm') :
    Writes (insertCells pm d va) pm pm' := by
  obtain ⟨hkern, hmem | ⟨t, ht, hmem⟩⟩ := pageRemove_mem h
  · exact .of_mem hkern hmem
  · have hstore : Writes (insertCells pm d va) pm (pm.store (t, ptx va) 0) :=
      Writes.store (.inr (.inl ⟨t, ht, rfl⟩)) 0
    exact hstore.trans (.of_mem hkern hmem)

/-- **`env_free`** writes the user half of its directory and the page tables. -/
theorem envFree_writes (hx : Excl s.refs) (h : envFree s e = some s') :
    Writes (ownCells s e) s.pm s'.pm := by
  obtain ⟨d, pm1, pm2, hd, hloop, hdec, rfl⟩ := envFree_cases h
  have hroot : s.root e = some d := hd
  -- the tables met on the way are the ones there were
  let I : Pmap M → Prop := fun pm => Writes (ownCells s e) s.pm pm ∧
    ∀ i t, Jos.refs s.root none pm (.table e i) = some t → s.refs (.table e i) = some t
  have hremove : KeptByRemove s.root none d I := by
    rintro pm pm' va hva hx1 ⟨hw, htab⟩ hrem
    refine ⟨hw.trans ?_, fun i t ht => htab i t ?_⟩
    · obtain ⟨hkern, hmem | ⟨t, ht, hmem⟩⟩ := pageRemove_mem hrem
      · exact .of_mem hkern hmem
      · have hown : ((t, ptx va) : PtePtr M) ∈ ownCells s e :=
          .inr ⟨upde va hva, htab _ _ (by simpa [Jos.refs, tableOf, hroot] using ht)⟩
        exact (Writes.store hown 0).trans (Writes.of_mem hkern hmem)
    · rwa [pageRemove_view hx1 hroot hva hrem, update_of_ne (by simp)] at ht
  have hdrop : KeptByDrop s.root none e d I := by
    rintro pm pm' i t hx1 ⟨hw, htab⟩ ht hleaves hdec
    obtain ⟨hmem, hkern⟩ := pageDecref_mem hdec
    refine ⟨(hw.trans (.store (.inl ⟨hroot, i.isLt⟩) 0)).trans
      (.of_mem hkern hmem), fun i' t' ht' => htab i' t' ?_⟩
    rw [refs_dropTable hx1 hroot hleaves hdec] at ht'
    exact (Cleared.update_none _ _).of_eq_some ht'
  obtain ⟨-, ⟨hw, -⟩, -⟩ :=
    freePde_loop hremove hdrop hx ⟨.refl _, fun _ _ ht => ht⟩ hroot hloop
  obtain ⟨hmem, hkern⟩ := pageDecref_mem hdec
  exact hw.trans (.of_mem hkern hmem)

/-- The page `page_alloc` hands out, and the cells of an insertion that follows. -/
theorem pageAlloc_reach {pm1 : Pmap M} (hl : FreeList s.pm l) (hp : ∀ r, s.refs r ≠ some p)
    (hname : MayName s c e) (hd : s.root e = some d) (hva : va < utop)
    (halloc : pageAlloc s.pm allocZero = (some p, pm1)) :
    insertCells pm1 d va ⊆ reach s c l := by
  obtain ⟨hhead, hmem, -⟩ := pageAlloc_zero_mem halloc
  obtain ⟨m, rfl, hm⟩ := hl.of_head hhead
  have hdp : d ≠ p := by
    rintro rfl
    exact hp (.dir e) hd
  rintro x (rfl | ⟨t, ht, rfl⟩ | hsecond)
  · exact .inr (.inr ⟨e, hname, .inl ⟨hd, pdx_lt_of_lt_utop hva⟩⟩)
  · refine .inr (.inr ⟨e, hname, .inr ⟨upde va hva, ?_⟩⟩)
    have hsame : entry pm1 d (pdx va) = entry s.pm d (pdx va) := by
      simp [entry, Pmap.load, hmem, Pmap.fill, update_of_ne hdp]
    rw [hsame] at ht
    simpa [Jos.refs, tableOf, hd] using ht
  · have hlink : links s.pm p = some x.1 := by
      rcases pageAlloc_cases halloc with ⟨hc, -⟩ | ⟨q, hq, -, hnext, -⟩
      · simp at hc
      · cases hq
        exact hnext.symm.trans hsecond
    rw [hlink] at hm
    obtain ⟨m', rfl, -⟩ := hm.of_some
    exact .inl (by simp)

/-- `env_alloc` writes the page it takes for the directory. -/
theorem envAlloc_writes {parentId : Word} {x : Except Int EnvIdx}
    (h : envAlloc s parentId = (x, s')) :
    Writes {y | s.pm.pageFreeList = some y.1} s.pm s'.pm := by
  rcases envAlloc_cases h with ⟨r, -, -, rfl⟩ | ⟨e', p, pm1, -, -, halloc, rfl⟩
  · exact .refl _
  obtain ⟨hhead, hmem, hkern⟩ := pageAlloc_zero_mem halloc
  refine ⟨hkern, fun y hy => ?_⟩
  have hne : y.1 ≠ p := by
    rintro rfl
    exact hy hhead
  simp [Pmap.load, Pmap.fill, Pmap.incRef, Pmap.setRef, hmem, update_of_ne hne]

theorem sysPageAlloc_writes {envid perm : Word} (hl : FreeList s.pm l)
    (hunused : ∀ p ∈ l, ∀ r, s.refs r ≠ some p)
    (h : sysPageAlloc s c envid va perm = some (r, s')) :
    ∃ pm, s' = { s with pm := pm } ∧ Writes (reach s c l) s.pm pm := by
  rcases sysPageAlloc_cases h with ⟨-, rfl⟩ |
    ⟨e, d, p, pm1, pm2, r', he, hva, -, -, halloc, hd, hins, hend⟩
  · exact ⟨_, rfl, .refl _⟩
  have hname := (lookupEnv_ok he).1
  have hhead := (pageAlloc_zero_mem halloc).1
  obtain ⟨m, rfl, -⟩ := hl.of_head hhead
  have hfirst : Writes (reach s c (p :: m)) s.pm pm1 := by
    refine (writes_pageAlloc_zero halloc).mono fun x hx => .inl ?_
    cases hhead.symm.trans hx
    simp
  have hwrites := hfirst.trans ((pageInsert_writes hins).mono
    (pageAlloc_reach hl (hunused p (by simp)) hname hd (lt_utop_of_not_badVa hva) halloc))
  rcases hend with ⟨-, -, pm3, hfree, rfl⟩ | ⟨-, -, rfl⟩
  · obtain ⟨-, -, -, -, hmem, hkern⟩ := pageFree_cases hfree
    exact ⟨pm3, rfl, hwrites.trans (.of_mem hkern hmem)⟩
  · exact ⟨pm2, rfl, hwrites⟩

theorem sysPageMap_writes {srcenvid srcva dstenvid dstva perm : Word} (hl : FreeList s.pm l)
    (h : sysPageMap s c srcenvid srcva dstenvid dstva perm = some (r, s')) :
    ∃ pm, s' = { s with pm := pm } ∧ Writes (reach s c l) s.pm pm := by
  rcases sysPageMap_cases h with ⟨-, rfl⟩ |
    ⟨src, dst, sd, dd, pp, pte, pm, r', -, hdst, -, hdva, -, -, -, -, -, hdd, hins, -, rfl⟩
  · exact ⟨_, rfl, .refl _⟩
  · exact ⟨pm, rfl, (pageInsert_writes hins).mono
      (insertCells_subset_reach hl (lookupEnv_ok hdst).1 hdd (lt_utop_of_not_badVa hdva))⟩

theorem sysPageUnmap_writes {envid : Word} (hl : FreeList s.pm l)
    (h : sysPageUnmap s c envid va = some (r, s')) :
    ∃ pm, s' = { s with pm := pm } ∧ Writes (reach s c l) s.pm pm := by
  rcases sysPageUnmap_cases h with ⟨-, rfl⟩ | ⟨e, d, pm, he, hva, hd, hrem, -, rfl⟩
  · exact ⟨_, rfl, Writes.refl _⟩
  · exact ⟨pm, rfl, (pageRemove_writes hrem).mono
      (insertCells_subset_reach hl (lookupEnv_ok he).1 hd (lt_utop_of_not_badVa hva))⟩

theorem WritesLeaves.writes (h : WritesLeaves s.refs e s.pm pm) :
    Writes (reach s c l) s.pm pm := by
  refine ⟨h.kern, fun x hx => ?_⟩
  have hmem : pm.mem x.1 = s.pm.mem x.1 :=
    h.mem x.1 fun i j hleaf => hx (.inr (.inl ⟨e, i, j, hleaf⟩))
  exact congrFun hmem x.2

/-! ### Environments the caller may not name -/

/-- What is left of an environment by a call that is none of its business: everything but the
status, which the scheduler may set. -/
structure Untouched (s s' : Kern M) (e : EnvIdx) : Prop where
  pgdir : (s'.envs e).envPgdir = (s.envs e).envPgdir
  tf : (s'.envs e).envTf = (s.envs e).envTf
  upcall : (s'.envs e).envPgfaultUpcall = (s.envs e).envPgfaultUpcall
  parent : (s'.envs e).envParentId = (s.envs e).envParentId
  id : (s'.envs e).envId = (s.envs e).envId
  status : (s'.envs e).envStatus = (s.envs e).envStatus ∨
    (s.envs e).envStatus = .runnable ∧ (s'.envs e).envStatus = .running

namespace Untouched

theorem of_eq (h : s'.envs e = s.envs e) : Untouched s s' e := by
  constructor <;> simp [h]

theorem trans (h : Untouched s s1 e) (h' : Untouched s1 s' e) : Untouched s s' e where
  pgdir := h'.pgdir.trans h.pgdir
  tf := h'.tf.trans h.tf
  upcall := h'.upcall.trans h.upcall
  parent := h'.parent.trans h.parent
  id := h'.id.trans h.id
  status := by
    rcases h'.status with h2 | ⟨h2, h3⟩
    · rw [h2]
      exact h.status
    · rcases h.status with h1 | ⟨-, h1⟩
      · exact .inr ⟨h1.symm.trans h2, h3⟩
      · rw [h1] at h2
        cases h2

/-- The processor switches away from another environment. -/
theorem envRun {k : EnvIdx} (hcur : s.curenv c ≠ some e)
    (hk : e = k → (s.envs k).envStatus = .runnable ∨ (s.envs k).envStatus = .running)
    (h : envRun s c k = some s') : Untouched s s' e := by
  have hsame := SameTables.envRun h
  obtain ⟨-, -, ⟨hrun, -, -, htf, hupcall⟩, hother⟩ := envRun_cases h
  by_cases he : e = k
  · subst he
    refine ⟨hsame.pgdir e, htf, hupcall, hsame.parent e, hsame.id e, ?_⟩
    rcases hk rfl with hk | hk
    · exact .inr ⟨hk, hrun⟩
    · exact .inl (hrun.trans hk.symm)
  · rcases hother e he with heq | ⟨hc, -⟩
    · exact of_eq heq
    · exact absurd hc hcur

theorem schedYield (hcur : s.curenv c ≠ some e) (h : schedYield s c = some s') :
    Untouched s s' e := by
  rcases schedYield_cases h with ⟨k, hk, hrun⟩ | rfl
  · exact envRun hcur (fun _ => hk.imp_right And.left) hrun
  · exact of_eq rfl

end Untouched

/-! ### A call keeps to what is within reach -/

/-- The caller on `c` has written within its reach, has not touched the environments it may
not name, and a directory there was not before has the kernel half of `kern_pgdir`. -/
structure Confined (s : Kern M) (c : CpuIdx) (l : List (Ppn M)) (s' : Kern M) : Prop where
  writes : Writes (reach s c l) s.pm s'.pm
  envs : ∀ e, ¬ MayName s c e → s.live e → Untouched s s' e
  dirs : ∀ e d, s'.root e = some d → s.root e = some d ∨
    ∀ i : Fin npdentries, pdxUtop ≤ i.val → i ≠ pdx uvpt →
      s'.pm.load (d, i) = s.pm.load (s.pm.kernPgdir, i)

namespace Confined

theorem refl (s : Kern M) : Confined s c l s :=
  ⟨.refl _, fun _ _ _ => .of_eq rfl, fun _ _ h => .inl h⟩

theorem setPm (h : Writes (reach s c l) s.pm pm) :
    Confined s c l { s with pm := pm } :=
  ⟨h, fun _ _ _ => .of_eq rfl, fun _ _ h => .inl h⟩

theorem resched (h : Confined s c l s1) (hsame : SameTables s1 s')
    (henvs : ∀ e, ¬ MayName s c e → s.live e → Untouched s1 s' e) : Confined s c l s' where
  writes := by
    rw [hsame.pm]
    exact h.writes
  envs e hname hlive := (h.envs e hname hlive).trans (henvs e hname hlive)
  dirs e d hd := by
    rw [hsame.pm]
    exact h.dirs e d ((hsame.pgdir e).symm.trans hd)

/-- One environment is rewritten that the caller may name. -/
theorem modify {f : Env M → Env M} (hname : MayName s c e)
    (hsame : SameTables s (s.modifyEnv e f)) : Confined s c l (s.modifyEnv e f) := by
  refine (refl s).resched hsame fun k hk _ => .of_eq ?_
  have hne : k ≠ e := by
    rintro rfl
    exact hk hname
  simp [Kern.modifyEnv, update_of_ne hne]

theorem envFree (hx : Excl s.refs) (hname : MayName s c e) (h : envFree s e = some s') :
    Confined s c l s' := by
  refine ⟨(envFree_writes hx h).mono fun x hx => .inr (.inr ⟨e, hname, hx⟩), ?_, ?_⟩
  · intro k hk _
    have hne : k ≠ e := by
      rintro rfl
      exact hk hname
    obtain ⟨d, pm1, pm2, -, -, -, rfl⟩ := envFree_cases h
    exact .of_eq (update_of_ne hne _ _)
  · intro k d hd
    obtain ⟨d', pm1, pm2, -, -, -, rfl⟩ := envFree_cases h
    by_cases hk : k = e
    · subst hk
      simp [Kern.root] at hd
    · exact .inl (by simpa [Kern.root, update_of_ne hk] using hd)

theorem envAlloc {parentId : Word} (hs : Sane s) (hl : FreeList s.pm l)
    (h : envAlloc s parentId = (.ok e, s')) : Confined s c l s' := by
  have hwrites := envAlloc_writes h
  rcases envAlloc_cases h with ⟨r, hc, -⟩ | ⟨e', p, pm1, he', hslot, halloc, rfl⟩
  · simp at hc
  cases he'
  obtain ⟨hhead, hmem, hkern⟩ := pageAlloc_zero_mem halloc
  obtain ⟨m, rfl, -⟩ := hl.of_head hhead
  have hkp : s.pm.kernPgdir ≠ p := fun hc =>
    hs.kernFree _ hl _ (kernPgdir_mem_kernPages _) (by simp [hc])
  refine ⟨hwrites.mono fun x hx => .inl ?_, fun k _ hlive => .of_eq ?_,
    fun k d hd => ?_⟩
  · cases hhead.symm.trans hx
    simp
  · have hne : k ≠ e := by
      rintro rfl
      exact hs.slot k hslot hlive
    exact update_of_ne hne _ _
  · by_cases hk : k = e
    · subst hk
      have hdp : p = d := by simpa [Kern.root, allocatedEnv] using hd
      subst hdp
      refine .inr fun i hi huvpt => ?_
      have hload : (pm1.incRef p).load ((pm1.incRef p).kernPgdir, i)
          = s.pm.load (s.pm.kernPgdir, i) := by
        simp [Pmap.load, Pmap.incRef, Pmap.setRef, hkern, hmem, Pmap.fill,
          update_of_ne hkp]
      rw [← hload]
      have hnew : newPgdir (pm1.incRef p) p i
          = (pm1.incRef p).load ((pm1.incRef p).kernPgdir, i) := by
        unfold newPgdir
        rw [if_neg huvpt, if_neg (Nat.not_lt.mpr hi)]
      rw [← hnew]
      simp [Pmap.load, Pmap.fill]
    · exact .inl (by simpa [Kern.root, update_of_ne hk] using hd)

end Confined

theorem Leaves.confined (hs : Sane s) (h : Leaves c s s') : Confined s c l s' := by
  cases h with
  | @kill e s1 _ hcur hfree hsched =>
    refine (Confined.envFree hs.excl (.inl hcur) hfree).resched
      ((Resched.setCurenv s1 c none).trans (Resched.schedYield hsched)).toSameTables
      fun k _ _ => ?_
    have hnone : (s1.setCurenv c none).curenv c ≠ some k := by
      simp [Kern.curenv, Kern.setCurenv]
    have hin : Untouched s1 (s1.setCurenv c none) k := .of_eq rfl
    exact hin.trans (.schedYield hnone hsched)
  | yield hsched =>
    exact (Confined.refl s).resched (Resched.schedYield hsched).toSameTables
      fun k hk _ => .schedYield (fun hc => hk (.inl hc)) hsched
  | @fault e d pm tf va _ hcur hd hstore hrun =>
    have hlen : (utfAddr tf.tfEsp).toNat + (utfOf tf va).bytes.length ≤ utop.toNat := by
      exact utfAddr_le _
    have hwrites := storeBytes_writes _ hs.excl (show s.root e = some d from hd) hlen hstore
    refine (Confined.setPm hwrites.writes).resched
      ((SameTables.modify _ e rfl rfl rfl rfl).trans (SameTables.envRun hrun)) fun k hk _ => ?_
    have hne : k ≠ e := by
      rintro rfl
      exact hk (.inl hcur)
    refine (Untouched.of_eq ?_).trans (Untouched.envRun ?_ (fun hc => absurd hc hne) hrun)
    · simp [Kern.modifyEnv, update_of_ne hne]
    intro hc
    have hsame : s.curenv c = some k := hc
    rw [hcur] at hsame
    cases hsame
    exact hne rfl

theorem Call.confined {no a1 a2 a3 a4 a5 : Word} (hs : Sane s) (hl : FreeList s.pm l)
    (h : Call c no a1 a2 a3 a4 a5 s s') : Confined s c l s' := by
  cases h with
  | idle => exact .refl s
  | @destroy e _ _ he hd =>
    have hname := (lookupEnv_ok he).1
    rcases envDestroy_cases hd with ⟨-, -, hf⟩ | ⟨s1, hfree, ⟨-, -, hf⟩ | ⟨-, s2, -, hf⟩⟩
    · cases hf
      exact .modify hname (.modify s e rfl rfl rfl rfl)
    · cases hf
      exact .envFree hs.excl hname hfree
    · simp at hf
  | exofork _ hx =>
    obtain ⟨k, -, ⟨-, rfl⟩ | ⟨e, s1, ha, -, rfl⟩⟩ := sysExofork_cases hx
    · exact .refl _
    refine (Confined.envAlloc hs hl ha).resched (SameTables.modify s1 e rfl rfl rfl rfl)
      fun f _ hlive => Untouched.of_eq ?_
    have hne : f ≠ e := by
      rintro rfl
      rcases envAlloc_cases ha with ⟨r, hc, -⟩ | ⟨e', p, pm1, he', hslot, -⟩
      · simp at hc
      · cases he'
        exact hs.slot f hslot hlive
    simp [Kern.modifyEnv, update_of_ne hne]
  | pageAlloc _ hx =>
    obtain ⟨pm, rfl, hw⟩ := sysPageAlloc_writes hl (fun _ hp => hs.unused hl hp) hx
    exact .setPm hw
  | pageMap _ hx =>
    obtain ⟨pm, rfl, hw⟩ := sysPageMap_writes hl hx
    exact .setPm hw
  | pageUnmap _ hx =>
    obtain ⟨pm, rfl, hw⟩ := sysPageUnmap_writes hl hx
    exact .setPm hw
  | setStatus _ hx =>
    rcases sysEnvSetStatus_cases hx with rfl | ⟨st, e, -, he, rfl⟩
    · exact .refl _
    · exact .modify (lookupEnv_ok he).1 (.modify s e rfl rfl rfl rfl)

/-- Above `UTOP` every directory is the kernel's, but for the entry that maps itself. -/
def KernHalf (s : Kern M) : Prop :=
  ∀ e d (i : Fin npdentries), s.root e = some d → pdxUtop ≤ i.val → i ≠ pdx uvpt →
    s.pm.load (d, i) = s.pm.load (s.pm.kernPgdir, i)

/--
**A call is confined** to the environments its caller may name.  Any other environment
keeps its directory and its page tables word for word, and its `struct Env` up to being
scheduled.  No directory is written above `UTOP`, nor are the kernel's own tables, so all
address spaces go on sharing them.
-/
theorem confined_of_syscall {o : Outside} {no a1 a2 a3 a4 a5 : Word} {f : Flow M Int}
    (hs : Sane s) (h : syscall s c o no a1 a2 a3 a4 a5 = some f) :
    (∀ e, ¬ MayName s c e → s.live e → Untouched s f.state e ∧
      ∀ r p, r.nodeOf e → s.refs r = some p → f.state.pm.mem p = s.pm.mem p) ∧
    (∀ e d (i : Fin npdentries), s.root e = some d → pdxUtop ≤ i.val →
      f.state.pm.load (d, i) = s.pm.load (d, i)) ∧
    (f.state.pm.kernPgdir = s.pm.kernPgdir ∧
      ∀ p ∈ kernPages s.pm, f.state.pm.mem p = s.pm.mem p) ∧
    (KernHalf s → KernHalf f.state) := by
  obtain ⟨l, hl, -⟩ := hs.free
  have hconf : Confined s c l f.state := by
    rcases syscall_cases h with ⟨r, s', rfl, hcall⟩ | ⟨s', rfl, hleaves⟩
    · exact hcall.confined hs hl
    · exact hleaves.confined hs
  obtain ⟨⟨hkern, hload⟩, henvs, hdirs⟩ := hconf
  have hupper : ∀ e d (i : Fin npdentries), s.root e = some d → pdxUtop ≤ i.val →
      f.state.pm.load (d, i) = s.pm.load (d, i) :=
    fun e d i hd hi => hload (hs.upper_not_reach hl hd hi)
  have hkernel : ∀ p ∈ kernPages s.pm, f.state.pm.mem p = s.pm.mem p :=
    fun p hp => funext fun k => hload (x := (p, k)) (hs.kern_not_reach hl hp)
  refine ⟨fun e hname hlive => ⟨henvs e hname hlive, fun r p hr hp => ?_⟩, hupper,
    ⟨hkern, hkernel⟩, fun hhalf e d i hd hi huvpt => ?_⟩
  · exact funext fun k => hload (x := (p, k)) (hs.node_not_reach hl hr hp hname)
  · have hk : f.state.pm.load (f.state.pm.kernPgdir, i) = s.pm.load (s.pm.kernPgdir, i) := by
      rw [hkern]
      exact congrFun (hkernel _ (kernPgdir_mem_kernPages _)) i
    rw [hk]
    rcases hdirs e d hd with hold | hnew
    · rw [hupper e d i hold hi]
      exact hhalf e d i hold hi huvpt
    · exact hnew i hi huvpt

/-! ### The states of a run are sane -/

section Runs

variable {A : Set (Ppn M)} {Q : Word → Prop} {s0 : Kern M}

section

variable (h : MemInv A s)
include h

theorem MemInv.ownCells_subset : ownCells s e ⊆ {x | x.1 ∈ A} := by
  rintro x (⟨hroot, -⟩ | ⟨i, ht⟩)
  · exact h.ledger.managed (.dir e) _ hroot
  · exact h.ledger.managed _ _ ht

theorem MemInv.free_subset (hl : FreeList s.pm l) (hp : p ∈ l) :
    p ∈ A ∧ ∀ r, s.refs r ≠ some p := by
  obtain ⟨l', hl', hmem, -⟩ := h.ledger.free
  cases Chain.unique hl hl'
  obtain ⟨hA, hzero, -⟩ := (hmem p).mp hp
  exact ⟨hA, refCount_eq_zero.mp hzero⟩

theorem MemInv.reach_subset (hl : FreeList s.pm l) :
    reach s c l ⊆ {x | x.1 ∈ A} := by
  rintro x (hfree | ⟨e, i, j, hleaf⟩ | ⟨e, -, hx⟩)
  · exact (h.free_subset hl hfree).1
  · exact h.ledger.managed _ _ hleaf
  · exact h.ownCells_subset hx

theorem MemInv.regionStep_writes {i : Word} {pm1 pm2 : Pmap M}
    (hd : s.root e = some d) (hi : i < utop) (halloc : pageAlloc s.pm 0 = (some p, pm1))
    (hins : pageInsert pm1 d p i (pteW ||| pteU) = some (0, pm2)) :
    Writes {x | x.1 ∈ A} s.pm pm2 := by
  obtain ⟨hhead, hmem, hkern⟩ := pageAlloc_plain_mem halloc
  obtain ⟨l, hl, -⟩ := h.ledger.free
  obtain ⟨m, rfl, hm⟩ := hl.of_head hhead
  refine (Writes.of_mem hkern hmem).trans ((pageInsert_writes hins).mono ?_)
  rintro x (rfl | ⟨t, ht, rfl⟩ | hsecond)
  · exact h.ledger.managed (.dir e) _ hd
  · refine h.ledger.managed (.table e (upde i hi)) _ ?_
    rw [show entry pm1 d (pdx i) = entry s.pm d (pdx i) by simp [entry, Pmap.load, hmem]] at ht
    simpa [Jos.refs, tableOf, hd] using ht
  rcases pageAlloc_cases halloc with ⟨hc, -⟩ | ⟨q, hq, -, hnext, -⟩
  · simp at hc
  · cases hq
    rw [← hnext, hsecond] at hm
    obtain ⟨m', rfl, -⟩ := hm.of_some
    exact (h.free_subset hl (by simp)).1

theorem MemInv.loadStep_writes (hstep : LoadStep e s s') :
    Writes {x | x.1 ∈ A} s.pm s'.pm := by
  cases hstep with
  | same hs =>
    rw [hs.pm]
    exact Writes.refl _
  | region hbelow ha =>
    rcases regionAlloc_cases ha with rfl | ⟨d, pm, hd, hloop, rfl⟩
    · exact Writes.refl _
    refine (regionLoop_rule (I := fun pm => MemInv A { s with pm := pm } ∧
      Writes {x | x.1 ∈ A} s.pm pm) ?_ _ ⟨h, Writes.refl _⟩ hbelow hloop).2
    rintro pm pm1 pm2 p i ⟨hI, hw⟩ hi halloc hins
    exact ⟨hI.regionStep hd hi halloc hins,
      hw.trans (hI.regionStep_writes hd hi halloc hins)⟩
  | store hd hva hs =>
    obtain ⟨l, hl, -⟩ := h.ledger.free
    exact (storeBytes_writes _ h.excl hd hva hs).writes.mono (h.reach_subset (c := 0) hl)

theorem MemInv.step_writes (hstep : MemStep Q s s') :
    Writes {x | x.1 ∈ A} s.pm s'.pm := by
  obtain ⟨l, hl, -⟩ := h.ledger.free
  have hunused : ∀ p ∈ l, ∀ r, s.refs r ≠ some p := fun p hp => (h.free_subset hl hp).2
  cases hstep with
  | load hload => exact h.loadStep_writes hload
  | envAlloc ha =>
    refine (envAlloc_writes ha).mono fun x hx => ?_
    obtain ⟨m, rfl, -⟩ := hl.of_head hx
    exact (h.free_subset hl (by simp)).1
  | envFree hf => exact (envFree_writes h.excl hf).mono h.ownCells_subset
  | pageAlloc hx =>
    obtain ⟨pm, rfl, hw⟩ := sysPageAlloc_writes hl hunused hx
    exact hw.mono (h.reach_subset hl)
  | pageMap _ _ hx =>
    obtain ⟨pm, rfl, hw⟩ := sysPageMap_writes hl hx
    exact hw.mono (h.reach_subset hl)
  | pageUnmap hx =>
    obtain ⟨pm, rfl, hw⟩ := sysPageUnmap_writes hl hx
    exact hw.mono (h.reach_subset hl)

end

/-- The kernel's tables stay the kernel's as long as nobody manages them. -/
theorem Writes.kernPages_eq {pm' : Pmap M} (h : Writes {x | x.1 ∈ A} pm pm')
    (hkern : pm.kernPgdir ∉ A) : kernPages pm' = kernPages pm := by
  have hentry : ∀ i, entry pm' pm.kernPgdir i = entry pm pm.kernPgdir i := by
    intro i
    unfold entry
    rw [h.2 (x := (pm.kernPgdir, i)) hkern]
  simp only [kernPages, h.1, hentry]

/-- A run writes no page that `mem_init` kept off the free list. -/
theorem writes_of_run (h0 : MemInit l s0) (hrun : Run next RoomFor (envInit s0) s) :
    MemInv {p | p ∈ l} s ∧ Writes {x | x.1 ∈ l} s0.pm s.pm := by
  let I : Kern M → Prop := fun s => MemInv {p | p ∈ l} s ∧ Writes {x | x.1 ∈ l} s0.pm s.pm
  have hkeep : ∀ s s', MemStep (fun _ => True) s s' → I s → I s' :=
    fun s s' hstep h => ⟨h.1.step hstep, h.2.trans (h.1.step_writes hstep)⟩
  refine hrun.inv (I := I) ⟨.start h0, ?_⟩ fun s ev s' h hroom hnext =>
    next_inv hkeep hroom (mapPerm_true ev) h hnext
  rw [(EnvTable.envInit_head s0).1]
  exact .refl _

/--
**The states of a run are sane** if `mem_init` kept the kernel's tables off the free list
and no counter runs over.  The slot `env_alloc` would take is asked for: an environment
that is freed while another processor executes it can give itself a status again.
-/
theorem sane_of_run {s0 : Kern M} (h0 : MemInit l s0) (hkern : ∀ p ∈ kernPages s0.pm, p ∉ l)
    (hrun : Run next RoomFor (envInit s0) s)
    (hslot : ∀ e, s.envFreeList = some e → ¬ s.live e) : Sane s := by
  obtain ⟨h, hw⟩ := writes_of_run h0 hrun
  have hsame := Writes.kernPages_eq (A := {p | p ∈ l}) hw (hkern _ (kernPgdir_mem_kernPages _))
  obtain ⟨free, hfree, -⟩ := h.ledger.free
  refine ⟨⟨free, hfree, fun p hp => (h.free_subset hfree hp).2⟩, h.excl, ?_, ?_, hslot⟩
  · intro p hp r hr
    rw [hsame] at hp
    exact hkern p hp (h.ledger.managed r p hr)
  · intro l' hl' p hp hpl
    rw [hsame] at hp
    exact hkern p hp (h.free_subset hl' hpl).1

/--
**The kernel's memory is out of reach.**  No run writes a page that was not free when it started,
and what an environment has mapped below `UTOP` is a page that was, is not free now and is neither
a page directory nor a page table.
-/
theorem protected_of_run (h0 : MemInit l s0) (hrun : Run next RoomFor (envInit s0) s) :
    (∀ p ∉ l, s.pm.mem p = s0.pm.mem p) ∧
      ∀ e d va p, (s.envs e).envPgdir = some d → va < utop → translate s.pm d pteP va = some p →
        p ∈ l ∧ (∀ free, FreeList s.pm free → p ∉ free) ∧ ∀ r, r.isNode → s.refs r ≠ some p := by
  obtain ⟨h, -, hsame⟩ := writes_of_run h0 hrun
  refine ⟨fun p hp => funext fun i => hsame (x := (p, i)) hp, fun e d va p hd hva htr => ?_⟩
  have hleaf : s.refs (.leaf e (upde va hva) (ptx va)) = some p :=
    translate_leaf (by decide) hd hva htr
  refine ⟨h.ledger.managed _ _ hleaf, fun free hfree hp => (h.free_subset hfree hp).2 _ hleaf,
    fun r hr hnode => ?_⟩
  rw [← h.excl r _ p hnode hleaf hr] at hr
  exact hr

end Runs

/-! ### Two unrelated programs -/

/-- The first of two programs forks; the child is in slot 2 and has the id 0x1002. -/
def family : Option (Kern (Machine.withFree 16)) :=
  [Event.create Image.bare, .create Image.bare, .sched 0, .call 0 sysNoExofork 0 0 0 0 0].foldlM
    next (envInit (Kern.fresh 16))

/-- `sys_page_alloc` in the address space of the child. -/
def allocInChild (s : Kern (Machine.withFree 16)) : Option (Flow (Machine.withFree 16) Int) :=
  syscall s 0 ⟨0, 0, .zero⟩ sysNoPageAlloc 0x1002 0 7 0 0

theorem family_eval :
    (family.map fun s => decide (s.curenv 0 = some 0 ∧ (s.envs 1).envStatus = .runnable ∧
      (s.envs 1).envParentId ≠ (s.envs 0).envId ∧ s.envFreeList = some 3 ∧
      (s.envs 3).envStatus = .free ∧ (allocInChild s).isSome)) = some true := by
  decide +kernel

theorem family_run {s : Kern (Machine.withFree 16)} (hs : family = some s) :
    Run next RoomFor (envInit (Kern.fresh 16)) s := by
  refine Run.of_foldlM hs fun s ev hev => ?_
  simp only [List.mem_cons, List.not_mem_nil, or_false] at hev
  rcases hev with rfl | rfl | rfl | rfl
  · trivial
  · trivial
  · trivial
  · exact fun _ hno => absurd hno (by decide)

/-- The stack of the first program was a free page. -/
theorem protected_of_run_family : ∃ s d p, Run next RoomFor (envInit (Kern.fresh 16)) s ∧
    (s.envs 0).envPgdir = some d ∧ translate s.pm d pteP 0xEEBFD000 = some p ∧
      p ∈ freshPages 16 := by
  have heval : (family.bind fun s => (s.envs 0).envPgdir.bind fun d =>
      translate s.pm d pteP 0xEEBFD000).isSome := by decide +kernel
  obtain ⟨p, hp⟩ := Option.isSome_iff_exists.mp heval
  obtain ⟨s, hs, hp⟩ := Option.bind_eq_some_iff.mp hp
  obtain ⟨d, hd, htr⟩ := Option.bind_eq_some_iff.mp hp
  have hrun := family_run hs
  exact ⟨s, d, p, hrun, hd, htr,
    ((protected_of_run (memInit_fresh 16) hrun).2 0 d _ p hd (by decide) htr).1⟩

theorem kernPages_fresh (n : Fin 65536) :
    ∀ p ∈ kernPages (Kern.fresh n).pm, p ∉ freshPages n := by
  rintro p (rfl | ⟨i, -, hi⟩)
  · exact (memInit_fresh n).kern
  · exact absurd (hi.symm.trans (entryOf_zero (M := Machine.withFree n))) (by simp)

/-- The other program keeps its page tables. -/
theorem confined_of_syscall_family :
    ∃ s f, Run next RoomFor (envInit (Kern.fresh 16)) s ∧ Sane s ∧ allocInChild s = some f ∧
      ¬ MayName s 0 1 ∧ s.live 1 ∧ Untouched s f.state 1 ∧
      ∀ r p, r.nodeOf 1 → s.refs r = some p → f.state.pm.mem p = s.pm.mem p := by
  obtain ⟨s, hs, heval⟩ := Option.map_eq_some_iff.mp family_eval
  obtain ⟨hcur, hst, hparent, hlist, hfree, hsome⟩ := of_decide_eq_true heval
  obtain ⟨f, hf⟩ := Option.isSome_iff_exists.mp hsome
  have hrun := family_run hs
  have hsane : Sane s := by
    refine sane_of_run (memInit_fresh 16) (kernPages_fresh 16) hrun fun e he => ?_
    rw [hlist] at he
    cases he
    simp [hfree]
  have hname : ¬ MayName s 0 1 := by
    rintro (hc | ⟨k, hk, hc⟩)
    · rw [hcur] at hc
      exact absurd hc (by decide)
    · rw [hcur] at hk
      cases hk
      exact hparent hc
  have hlive : s.live 1 := by simp [hst]
  exact ⟨s, f, hrun, hsane, hf, hname, hlive, (confined_of_syscall hsane hf).1 1 hname hlive⟩

/-! ### A page table that is shared -/

/-- An environment without a parent. -/
def Env.orphan (id : Word) (st : EnvStatus) (d : Ppn M) : Env M :=
  { (Env.zero : Env M) with envId := id, envStatus := st, envPgdir := some d }

/-- Two unrelated environments, and one page table for both, which maps one page. -/
def sharedTable : Kern (Machine.withFree 8) where
  pm :=
    { mem := fun p i =>
        if i ≠ 0 then 0
        else if p = page8 1 ∨ p = page8 2 then 0x3007
        else if p = page8 3 then 0x4007 else 0
      pages := fun p =>
        { ppLink := none, ppRef := if p = page8 3 ∨ p = page8 4 then 2 else 1 }
      pageFreeList := none
      kernPgdir := page8 0 }
  envs := fun e =>
    if e = 0 then .orphan 0x1000 .running (page8 1)
    else if e = 1 then .orphan 0x1001 .runnable (page8 2)
    else .zero
  envFreeList := none
  cpus := fun c => { cpuStatus := .started, cpuEnv := if c = 0 then some 0 else none }
  cr3 := fun c => if c = 0 then some (page8 1) else none

/-- The first one unmaps its page, and the other one has lost it too. -/
theorem shared_table_not_confined :
    FreeUnused sharedTable ∧ ¬ MayName sharedTable 0 1 ∧ sharedTable.live 1 ∧
      ∃ f t, syscall sharedTable 0 ⟨0, 0, .zero⟩ sysNoPageUnmap 0 0 0 0 0 = some f ∧
        sharedTable.refs (.table 1 0) = some t ∧ f.state.pm.mem t ≠ sharedTable.pm.mem t := by
  have heval : ((syscall sharedTable 0 ⟨0, 0, .zero⟩ sysNoPageUnmap 0 0 0 0 0).map fun f =>
      decide (f.state.pm.mem (page8 3) 0 = 0)) = some true := by
    decide +kernel
  obtain ⟨f, hf, hmem⟩ := Option.map_eq_some_iff.mp heval
  have hcur : sharedTable.curenv 0 = some 0 := rfl
  have htable : sharedTable.refs (.table 1 0) = some (page8 3) := by decide +kernel
  refine ⟨⟨[], by decide, by simp⟩, ?_, by decide, f, page8 3, hf, htable, fun hc => ?_⟩
  · rintro (hc | ⟨k, hk, hc⟩)
    · rw [hcur] at hc
      exact absurd hc (by decide)
    · rw [hcur] at hk
      cases hk
      exact absurd hc (by decide)
  · have hzero := of_decide_eq_true hmem
    rw [hc] at hzero
    exact absurd hzero (by decide)

end Jos
