/-
System calls that fail.

The memory system calls check their arguments before they change anything, and `page_insert`
undoes nothing because it fails before it begins: the walk that cannot make a page table has
changed nothing.  The exception is `sys_page_alloc`, which has taken its page by then.  It gives the
page back, and what makes the free list the same again, link by link, is the reason for the
failure: there was no page left for the table, so the page it took was the only one.

Its contents are zero now, and that is the one thing a failed call leaves behind.  As long as no
page in use is free, the page is no directory and no page table.
-/
import Os.Proofs.Jos.MemSteps
import Os.Proofs.Jos.Entries
import Os.Proofs.Jos.EnvIds

namespace Jos

open Runs

variable {M : Machine} {s s' : Kern M} {c : CpuIdx} {r : Int}

/-- The system calls that manage memory and make environments. -/
inductive MemCall
  | pageAlloc (envid va perm : Word)
  | pageMap (srcenvid srcva dstenvid dstva perm : Word)
  | pageUnmap (envid va : Word)
  | exofork

/-- The function that serves the call. -/
def MemCall.run (s : Kern M) (c : CpuIdx) : MemCall → Option (Int × Kern M)
  | .pageAlloc envid va perm => sysPageAlloc s c envid va perm
  | .pageMap srcenvid srcva dstenvid dstva perm => sysPageMap s c srcenvid srcva dstenvid dstva perm
  | .pageUnmap envid va => sysPageUnmap s c envid va
  | .exofork => sysExofork s c

/-- All is as before, but for the contents of the first free page. -/
structure AsBefore (s s' : Kern M) : Prop where
  envs : s'.envs = s.envs
  envFreeList : s'.envFreeList = s.envFreeList
  cpus : s'.cpus = s.cpus
  /-- Every `pp_ref` and every `pp_link`. -/
  pages : s'.pm.pages = s.pm.pages
  pageFreeList : s'.pm.pageFreeList = s.pm.pageFreeList
  kernPgdir : s'.pm.kernPgdir = s.pm.kernPgdir
  mem : ∀ p, s.pm.pageFreeList ≠ some p → s'.pm.mem p = s.pm.mem p

theorem AsBefore.refl (s : Kern M) : AsBefore s s := ⟨rfl, rfl, rfl, rfl, rfl, rfl, fun _ _ => rfl⟩

/-- An insertion that fails needed a table, and there was no page to make it of. -/
theorem pageInsert_no_mem {pm pm' : Pmap M} {d pp : Ppn M} {va perm : Word} {r : Int}
    (h : pageInsert pm d pp va perm = some (r, pm')) (hr : r < 0) :
    pm' = pm ∧ ¬ present (pm.load (d, pdx va)) ∧ pm.pageFreeList = none := by
  rcases pageInsert_cases h with ⟨-, hw⟩ | ⟨rfl, -⟩
  · rcases pgdirWalk_true hw with ⟨t, -, hc, -⟩ | ⟨hpres, hnone, -, hpm⟩ | ⟨-, p, pm1, -, hc, -⟩
    · simp at hc
    · exact ⟨hpm, hpres, hnone⟩
    · simp at hc
  · exact absurd hr (lt_irrefl 0)

theorem setLink_pages_self {pm : Pmap M} {p : Ppn M} {x : Option (Ppn M)} (h : links pm p = x) :
    (pm.setLink p x).pages = pm.pages := by
  funext q
  by_cases hq : q = p
  · subst hq
    subst h
    simp [Pmap.setLink, links]
  · simp [Pmap.setLink, Function.update_of_ne hq]

theorem pageAlloc_pageFree {pm pm1 pm2 : Pmap M} {pp : Ppn M}
    (halloc : pageAlloc pm allocZero = (some pp, pm1)) (hnone : pm1.pageFreeList = none)
    (hfree : pageFree pm1 pp = some pm2) :
    pm2.pages = pm.pages ∧ pm2.pageFreeList = pm.pageFreeList ∧
      pm2.kernPgdir = pm.kernPgdir ∧ ∀ p, pm.pageFreeList ≠ some p → pm2.mem p = pm.mem p := by
  obtain ⟨hhead, hmem, hkern⟩ := pageAlloc_zero_mem halloc
  obtain ⟨-, -, hhead', hpages', hmem', hkern'⟩ := pageFree_cases hfree
  rcases pageAlloc_cases halloc with ⟨hc, -⟩ | ⟨q, hq, -, hnext, hpages, -⟩
  · simp at hc
  cases hq
  -- the page had no link, and has none again
  have hlink : links pm pp = none := hnext.symm.trans hnone
  have hpages1 : pm1.pages = pm.pages := hpages.trans (setLink_pages_self hlink)
  refine ⟨?_, hhead'.trans hhead.symm, hkern'.trans hkern, fun p hp => ?_⟩
  · rw [hpages', hnone, setLink_pages_self ((congrFun (links_of_pages hpages1) pp).trans hlink),
      hpages1]
  · have hne : p ≠ pp := fun hc => hp (hc ▸ hhead)
    rw [hmem', hmem]
    exact Function.update_of_ne hne _ _

theorem sysPageAlloc_asBefore {envid va perm : Word} (hr : r < 0)
    (h : sysPageAlloc s c envid va perm = some (r, s')) : AsBefore s s' := by
  rcases sysPageAlloc_cases h with ⟨-, rfl⟩ |
    ⟨e, d, pp, pm1, pm2, r', -, -, -, -, halloc, -, hins, ⟨hneg, -, pm3, hfree, rfl⟩ | ⟨-, rfl, -⟩⟩
  · exact .refl _
  · obtain ⟨rfl, -, hnone⟩ := pageInsert_no_mem hins hneg
    obtain ⟨hpages, hlist, hkern, hmem⟩ := pageAlloc_pageFree halloc hnone hfree
    exact ⟨rfl, rfl, rfl, hpages, hlist, hkern, hmem⟩
  · exact absurd hr (lt_irrefl 0)

theorem sysPageMap_asBefore {srcenvid srcva dstenvid dstva perm : Word} (hr : r < 0)
    (h : sysPageMap s c srcenvid srcva dstenvid dstva perm = some (r, s')) : AsBefore s s' := by
  rcases sysPageMap_cases h with ⟨-, rfl⟩ |
    ⟨src, dst, sd, dd, pp, pte, pm, r', -, -, -, -, -, -, -, -, -, -, hins, hr', rfl⟩
  · exact .refl _
  · have hneg : r' < 0 := by
      by_contra hc
      rw [if_neg hc] at hr'
      omega
    obtain ⟨rfl, -⟩ := pageInsert_no_mem hins hneg
    exact .refl _

theorem sysPageUnmap_asBefore {envid va : Word} (hr : r < 0)
    (h : sysPageUnmap s c envid va = some (r, s')) : AsBefore s s' := by
  rcases sysPageUnmap_cases h with ⟨-, rfl⟩ | ⟨e, d, pm, -, -, -, -, rfl, -⟩
  · exact .refl _
  · exact absurd hr (lt_irrefl 0)

/-- An id is positive, so a negative result is an error. -/
theorem sysExofork_asBefore (hr : r < 0) (h : sysExofork s c = some (r, s')) : AsBefore s s' := by
  obtain ⟨k, -, ⟨-, rfl⟩ | ⟨e, s1, ha, rfl, -⟩⟩ := sysExofork_cases h
  · exact .refl _
  · have hpos := (validId_nextEnvId (s.envs e).envId e).1
    rw [envAlloc_advances ha e, if_pos rfl] at hr
    omega

theorem MemCall.asBefore {k : MemCall} (hr : r < 0) (h : k.run s c = some (r, s')) :
    AsBefore s s' := by
  cases k with
  | pageAlloc envid va perm => exact sysPageAlloc_asBefore hr h
  | pageMap srcenvid srcva dstenvid dstva perm => exact sysPageMap_asBefore hr h
  | pageUnmap envid va => exact sysPageUnmap_asBefore hr h
  | exofork => exact sysExofork_asBefore hr h

/--
**A memory system call that fails has done nothing** but to the contents of free pages, in any
state.  In a run whose counters do not run over, no directory and no page table is one of them.
-/
theorem memory_calls_atomic (k : MemCall) (h : k.run s c = some (r, s')) (hr : r < 0) :
    AsBefore s s' ∧
      ∀ (l : List (Ppn M)) (s0 : Kern M), MemInit l s0 → Run next RoomFor (envInit s0) s →
        ∀ slot p, slot.isNode → s.refs slot = some p → s'.pm.mem p = s.pm.mem p := by
  have hsame := k.asBefore hr h
  refine ⟨hsame, fun l s0 h0 hrun slot p _ hslot => hsame.mem p fun hhead => ?_⟩
  exact (memInv_of_run h0 hrun).headFresh p hhead slot hslot

/-- A program on a machine that has one page left. -/
def lastPage : Option (Kern (Machine.withFree 4)) :=
  [.create .bare, .sched 0].foldlM next (envInit (Kern.fresh 4))

/-- There is a page for `sys_page_alloc`, but none for the page table. -/
theorem memory_calls_atomic_last :
    ∃ s s' p, lastPage = some s ∧ s.pm.pageFreeList = some p ∧
      sysPageAlloc s 0 0 0x1000 7 = some (-eNoMem, s') ∧ AsBefore s s' := by
  have heval : (lastPage.bind fun s => s.pm.pageFreeList.bind fun _ =>
      (sysPageAlloc s 0 0 0x1000 7).map Prod.fst) = some (-eNoMem) := by
    decide +kernel
  obtain ⟨s, hs, hmap⟩ := Option.bind_eq_some_iff.mp heval
  obtain ⟨p, hp, hmap⟩ := Option.bind_eq_some_iff.mp hmap
  obtain ⟨⟨r, s'⟩, hcall, rfl⟩ := Option.map_eq_some_iff.mp hmap
  exact ⟨s, s', p, hs, hp, hcall, (memory_calls_atomic (.pageAlloc 0 0x1000 7) hcall (by decide)).1⟩

end Jos
