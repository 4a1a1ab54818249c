/-
No page in use is free, unless a counter runs over.

The memory invariant keeps a page that is mapped off the free list, and every event
keeps the memory invariant as long as no call of `sys_page_map` adds a reference to a
page that has 2^16 already.  Nothing in the kernel sees to that.  `pp_ref` has 16 bits
and one environment has room for almost a million mappings, so the second half of this
file maps one page 2^16 + 1 times and then unmaps it once: the counter goes from 1 to
0, and the page is free and mapped 2^16 times.

The run is too long to evaluate.  `Filling k` describes the state with the mappings
`0 … k` in place, and one more mapping leads from `Filling k` to `Filling (k + 1)`.
-/
import Os.Proofs.Jos.MemSteps
import Os.Proofs.Jos.Entries

namespace Jos

open Linked RefMap Runs List Option Function

variable {M : Machine} {s s' : Kern M} {c : CpuIdx} {e : EnvIdx}
variable {pm' : Pmap M} {n : Nat}

/-- Some environment has the page mapped below `UTOP`. -/
def Accessible (s : Kern M) (p : Ppn M) : Prop :=
  ∃ e i j, s.live e ∧ s.refs (.leaf e i j) = some p

/--
**No page in use is free**: in every run whose calls of `sys_page_map` leave room for
the reference they make, a page that some environment has mapped is never on the free
list, and `page_alloc` never returns one.
-/
theorem freePages_of_run {l : List (Ppn M)} {s0 : Kern M} (h0 : MemInit l s0)
    (hrun : Run next RoomFor (envInit s0) s) :
    (∃ free, FreeList s.pm free ∧ ∀ p, Accessible s p → p ∉ free) ∧
      ∀ flags p pm', pageAlloc s.pm flags = (some p, pm') → ¬ Accessible s p := by
  have h := memInv_of_run h0 hrun
  constructor
  · obtain ⟨free, hfree, hmem, -⟩ := h.ledger.free
    refine ⟨free, hfree, ?_⟩
    rintro p ⟨e, i, j, -, hleaf⟩ hp
    exact refCount_eq_zero.mp ((hmem p).mp hp).2.1 _ hleaf
  · rintro flags p pm' halloc ⟨e, i, j, -, hleaf⟩
    rcases pageAlloc_cases halloc with ⟨hc, -⟩ | ⟨q, hq, hhead, -⟩
    · simp at hc
    · cases hq
      exact h.headFresh p hhead _ hleaf

/-! ### Calls that go through -/

section Progress

variable {root : EnvIdx → Option (Ppn M)} {pm : Pmap M} {d p t : Ppn M} {va : Word}

/-- Where nothing is mapped yet, `page_insert` succeeds when the walk does. -/
theorem pageInsert_ok (pp : Ppn M) (perm : Word) (hx : Excl (refs root none pm))
    (hfresh : HeadFresh (refs root none pm) pm) (hroot : root e = some d) (hva : va < utop)
    (htab : (∃ t, entry pm d (pdx va) = some t) ∨
      ¬ present (pm.load (d, pdx va)) ∧ ∃ p, pm.pageFreeList = some p)
    (hclear : ptes root pm (.leaf e (upde va hva) (ptx va)) = 0) :
    ∃ pm', pageInsert pm d pp va perm = some (0, pm') := by
  obtain ⟨t, pm1, hw⟩ := pgdirWalk_ok htab
  have hzero : pm1.load (t, ptx va) = 0 := by
    rcases pgdirWalk_view hx hfresh hroot hva hw with ⟨hc, -⟩ | ⟨t', ht', htable, -⟩
    · simp at hc
    · cases ht'
      rw [← ptes_leaf_some htable, ptes_walk hx hfresh hroot hva hw, hclear]
  have hpres : ¬ present ((pm1.incRef pp).load (t, ptx va)) := by
    show ¬ present (pm1.load (t, ptx va))
    rw [hzero]
    exact not_present_zero
  simp only [pageInsert, hw, if_neg hpres]
  exact ⟨_, rfl⟩

theorem pageLookup_ok (hroot : root e = some d) (hva : va < utop)
    (hleaf : refs root none pm (.leaf e (upde va hva) (ptx va)) = some p) :
    ∃ t, refs root none pm (.table e (upde va hva)) = some t ∧
      pageLookup pm d va = some (some (p, (t, ptx va))) := by
  obtain ⟨t, ht, hp⟩ := refs_leaf_eq_some.mp hleaf
  refine ⟨t, ht, ?_⟩
  have ht' : entry pm d (pdx va) = some t := by simpa [refs, tableOf, hroot] using ht
  obtain ⟨hpde, htframe⟩ := entryOf_eq_some.mp ht'
  obtain ⟨hpte, hpframe⟩ := entryOf_eq_some.mp hp
  simp only [pageLookup, pgdirWalk, if_pos hpde, walkTable, htframe, if_pos hpte, hpframe]

end Progress

/-- The environment `e` runs on `c`. -/
def RunsOn (s : Kern M) (c : CpuIdx) (e : EnvIdx) : Prop :=
  s.curenv c = some e ∧ (s.envs e).envStatus = .running

/-- `env_run` of the environment that is running anyway. -/
theorem envRun_again {d : Ppn M} (h : RunsOn s c e) (hd : s.root e = some d) :
    ∃ s', envRun s c e = some s' ∧ RunsOn s' c e := by
  obtain ⟨hcur, hrun⟩ := h
  simp only [envRun, preempt, hcur, if_pos hrun]
  have hd' : (s.envs e).envPgdir = some d := hd
  simp [RunsOn, Kern.setStatus, Kern.setCurenv, Kern.modifyEnv, Kern.curenv, hd']

theorem runsOn_trapEntry (h : RunsOn s c e) (tf : Trapframe) :
    RunsOn (trapEntry s c e tf) c e :=
  ⟨(curenv_trapEntry s c c e tf).trans h.1, (status_trapEntry s c e tf e).trans h.2⟩

theorem runsOn_setEax (h : RunsOn s c e) (r : Int) : RunsOn (setEax s (some e) r) c e := by
  obtain ⟨hcur, hrun⟩ := h
  refine ⟨hcur, ?_⟩
  simpa [setEax, Kern.modifyEnv] using hrun

theorem callFrame_user (no a1 a2 a3 a4 a5 : Word) :
    (callFrame no a1 a2 a3 a4 a5).tfCs &&& 3 = 3 :=
  (by decide : (gdUt ||| 3) &&& 3 = (3 : BitVec 16))

theorem trapDispatch_call (s : Kern M) (c : CpuIdx) (o : Outside) (no a1 a2 a3 a4 a5 : Word)
    (home : Option EnvIdx) :
    trapDispatch s c o (callFrame no a1 a2 a3 a4 a5) home
      = match syscall s c o no a1 a2 a3 a4 a5 with
        | none => none
        | some (.left s) => some (.left s)
        | some (.ret r s) => some (.ret () (setEax s home r)) := by
  have htrap : (callFrame no a1 a2 a3 a4 a5).tfTrapno = tSyscall := rfl
  unfold trapDispatch
  rfl

theorem next_call {no a1 a2 a3 a4 a5 : Word} {r : Int} {d : Ppn M} (h : RunsOn s c e)
    (hd : s.root e = some d)
    (hcall : syscall (trapEntry s c e (callFrame no a1 a2 a3 a4 a5)) c ⟨0, 0, .zero⟩
      no a1 a2 a3 a4 a5
      = some (.ret r { trapEntry s c e (callFrame no a1 a2 a3 a4 a5) with pm := pm' })) :
    ∃ s', next s (.call c no a1 a2 a3 a4 a5) = some s' ∧ RunsOn s' c e ∧ s'.pm = pm' ∧
      s'.root = s.root := by
  have hentry := runsOn_trapEntry h (callFrame no a1 a2 a3 a4 a5)
  have hsame := sameTables_trapEntry s c e (callFrame no a1 a2 a3 a4 a5)
  have hnd : ((s.setCpuStatus c .started).envs e).envStatus ≠ .dying := by
    show (s.envs e).envStatus ≠ .dying
    rw [h.2]
    simp
  have hstep : next s (.call c no a1 a2 a3 a4 a5) = trapReturn (setEax
      { trapEntry s c e (callFrame no a1 a2 a3 a4 a5) with pm := pm' } (some e) r) c := by
    have huser := callFrame_user no a1 a2 a3 a4 a5
    simp only [Event.call, next, trap]
    rw [if_pos huser, if_pos huser, curenv_setCpuStatus, h.1]
    simp only
    rw [if_neg hnd, trapDispatch_call]
    show afterDispatch c (match syscall (trapEntry s c e (callFrame no a1 a2 a3 a4 a5)) c
        ⟨0, 0, .zero⟩ no a1 a2 a3 a4 a5 with
      | none => none
      | some (.left s) => some (.left s)
      | some (.ret r s) => some (.ret () (setEax s (some e) r))) = _
    rw [hcall]
    rfl
  generalize trapEntry s c e (callFrame no a1 a2 a3 a4 a5) = s0 at hstep hentry hsame
  have hret : RunsOn (setEax { s0 with pm := pm' } (some e) r) c e := runsOn_setEax hentry r
  have htab := (Resched.setEax { s0 with pm := pm' } (some e) r).toSameTables
  have hroot : (setEax { s0 with pm := pm' } (some e) r).root = s.root :=
    funext fun k => (htab.pgdir k).trans (hsame.pgdir k)
  obtain ⟨s', hs', hruns⟩ := envRun_again hret (by rw [hroot]; exact hd)
  have hsame' := SameTables.envRun hs'
  refine ⟨s', ?_, hruns, hsame'.pm.trans htab.pm, ?_⟩
  · rw [hstep, trapReturn, hret.1]
    simp only
    rw [if_pos hret.2, hs']
  · rw [← hroot]
    exact funext hsame'.pgdir

/-! ### Mapping one page over and over -/

/-- The address of the `n`-th mapping. -/
def fillAddr (n : Nat) : Word := BitVec.ofNat 32 (4096 * n)

/-- The directory entry and the slot it goes through. -/
def fillTable (n : Nat) : Upde := Fin.ofNat pdxUtop (n / 1024)

def fillSlot (n : Nat) : Ref := .leaf 0 (fillTable n) (Fin.ofNat nptentries n)

section

variable (hn : n ≤ 65536)
include hn

theorem toNat_fillAddr : (fillAddr n).toNat = 4096 * n := by
  rw [fillAddr, BitVec.toNat_ofNat]
  omega

theorem fillAddr_lt : fillAddr n < utop := by
  show (fillAddr n).toNat < utop.toNat
  rw [toNat_fillAddr hn, toNat_utop]
  omega

theorem not_badVa_fillAddr : ¬ badVa (fillAddr n) := by
  rintro (hc | hc)
  · exact absurd (fillAddr_lt hn) (BitVec.not_lt.mpr hc)
  apply hc
  apply BitVec.eq_of_toNat_eq
  rw [toNat_pgoff, toNat_fillAddr hn]
  show 4096 * n % 4096 = 0
  omega

theorem upde_fillAddr :
    upde (fillAddr n) (fillAddr_lt hn) = fillTable n := by
  apply Fin.ext
  show (pdx (fillAddr n)).val = n / 1024 % 955
  rw [val_pdx, toNat_fillAddr hn]
  omega

theorem ptx_fillAddr : ptx (fillAddr n) = Fin.ofNat nptentries n := by
  apply Fin.ext
  show (ptx (fillAddr n)).val = n % 1024
  rw [val_ptx, toNat_fillAddr hn]
  omega

theorem fillTable_inj {m : Nat} (hm : m ≤ 65536) (h : fillTable n = fillTable m) :
    n / 1024 = m / 1024 := by
  have hval : n / 1024 % 955 = m / 1024 % 955 := congrArg Fin.val h
  omega

theorem fillSlot_inj {m : Nat} (hm : m ≤ 65536) (h : fillSlot n = fillSlot m) :
    n = m := by
  injection h with _ htab hpt
  have hi := fillTable_inj hn hm htab
  have hj : n % 1024 = m % 1024 := congrArg Fin.val hpt
  omega

end

/-- The mappings `0 … k` of the page `pp` are in place, and the rest of the room is empty. -/
structure Filling (A : Set (Ppn M)) (pp d : Ppn M) (k : Nat) (s : Kern M) : Prop where
  runs : RunsOn s 0 0
  root : s.root 0 = some d
  excl : Excl s.refs
  ledger : Ledger A ∅ s.refs s.pm
  mapped : ∀ n ≤ k, s.refs (fillSlot n) = some pp
  clear : ∀ n, k < n → n ≤ 65536 → ptes s.root s.pm (fillSlot n) = 0
  tables : ∀ n ≤ 65536, present (s.pm.load (d, toPde (fillTable n))) →
    s.refs (.table 0 (fillTable n)) ≠ none
  count : refCount s.refs pp = k + 1
  /-- There are pages for all the tables to come. -/
  supply : ∃ l, FreeList s.pm l ∧ 64 ≤ l.length + k / 1024

theorem lookupEnv_zero (h : s.curenv c = some e) : lookupEnv s c 0 = some (.ok e) := by
  simp [lookupEnv, envid2env, h]

/-- Mapping the page at address 0 once more, at the `n`-th address. -/
def mapAgain (n : Nat) : Event :=
  .call 0 sysNoPageMap 0 (fillAddr 0) 0 (fillAddr n) (pteU ||| pteP)

/-- Taking the mapping at address 0 away. -/
def unmapFirst : Event := .call 0 sysNoPageUnmap 0 (fillAddr 0) 0 0 0

theorem sysPageMap_self {d pp : Ppn M} {pte : PtePtr M} {srcva dstva : Word}
    (hcur : s.curenv c = some e) (hd : s.root e = some d) (hsrc : ¬ badVa srcva)
    (hdst : ¬ badVa dstva) (hlook : pageLookup s.pm d srcva = some (some (pp, pte)))
    (hins : pageInsert s.pm d pp dstva (pteU ||| pteP) = some (0, pm')) :
    sysPageMap s c 0 srcva 0 dstva (pteU ||| pteP) = some (0, { s with pm := pm' }) := by
  have hd' : (s.envs e).envPgdir = some d := hd
  have hva : ¬ (badVa srcva ∨ badVa dstva) := not_or.mpr ⟨hsrc, hdst⟩
  simp only [sysPageMap, lookupEnv_zero hcur, if_neg hva, hd', hlook, hins]
  rw [if_neg (by decide), if_neg (fun hc => absurd hc.1 (by decide)), if_neg (by decide)]

theorem syscall_pageMap (s : Kern M) (c : CpuIdx) (o : Outside) (a1 a2 a3 a4 a5 : Word) :
    syscall s c o sysNoPageMap a1 a2 a3 a4 a5 = returns (sysPageMap s c a1 a2 a3 a4 a5) := rfl

theorem syscall_pageUnmap (s : Kern M) (c : CpuIdx) (o : Outside) (a1 a2 a3 a4 a5 : Word) :
    syscall s c o sysNoPageUnmap a1 a2 a3 a4 a5 = returns (sysPageUnmap s c a1 a2) := rfl

theorem sysPageUnmap_self {d : Ppn M} {va : Word} (hcur : s.curenv c = some e)
    (hd : s.root e = some d) (hva : ¬ badVa va) (hrem : pageRemove s.pm d va = some pm') :
    sysPageUnmap s c 0 va = some (0, { s with pm := pm' }) := by
  have hd' : (s.envs e).envPgdir = some d := hd
  simp only [sysPageUnmap, lookupEnv_zero hcur, if_neg hva, hd', hrem]

namespace Filling

variable {A : Set (Ppn M)} {pp d : Ppn M} {k : Nat}

section

variable (h : Filling A pp d k s)
include h

theorem not_node : ∀ r, r.isNode → s.refs r ≠ some pp := by
  intro r hr hc
  have heq := h.excl _ _ _ hc (h.mapped 0 (Nat.zero_le k)) hr
  rw [← heq] at hr
  exact hr

theorem ne_head : s.pm.pageFreeList ≠ some pp :=
  h.ledger.ne_head (.inr (refCount_pos (h.mapped 0 (Nat.zero_le k))))

theorem refs_table (i : Upde) :
    s.refs (.table 0 i) = entry s.pm d (toPde i) := by
  simp [Jos.refs, tableOf, h.root]

/-- Without a page table, the next mapping is the first one behind its directory entry. -/
theorem first_of_none
    (hnone : s.refs (.table 0 (fillTable (k + 1))) = none) : (k + 1) / 1024 = k / 1024 + 1 := by
  by_contra hc
  have hsame : fillTable (k + 1) = fillTable k := by
    apply Fin.ext
    show (k + 1) / 1024 % 955 = k / 1024 % 955
    omega
  obtain ⟨t, ht, -⟩ := refs_leaf_eq_some.mp (h.mapped k (Nat.le_refl k))
  rw [hsame] at hnone
  exact absurd (hnone.symm.trans ht) (by simp)

/-- The next mapping finds its page table, or a page to make it of. -/
theorem table_or_page (hk : k < 65536) :
    (∃ t, entry s.pm d (pdx (fillAddr (k + 1))) = some t) ∨
      ¬ present (s.pm.load (d, pdx (fillAddr (k + 1)))) ∧ ∃ p, s.pm.pageFreeList = some p := by
  have hpdx : pdx (fillAddr (k + 1)) = toPde (fillTable (k + 1)) := by
    rw [← upde_fillAddr hk, toPde_upde]
  rw [hpdx]
  by_cases hpres : present (s.pm.load (d, toPde (fillTable (k + 1))))
  · rw [← h.refs_table]
    exact .inl (ne_none_iff_exists'.mp (h.tables _ hk hpres))
  refine .inr ⟨hpres, ?_⟩
  obtain ⟨l, hl, hlen⟩ := h.supply
  cases l with
  | nil =>
    rw [length_nil] at hlen
    omega
  | cons p l => exact ⟨p, hl.1⟩

/-- A new page table comes off the free list, and then only one in 1024 mappings needs one. -/
theorem supply_insert {R : Ref → Option (Ppn M)}
    (hwith : WithTable s.refs R s.pm 0 (fillTable (k + 1))) (hslot : R (fillSlot (k + 1)) = none)
    (hl' : Ledger A ∅ (update R (fillSlot (k + 1)) (some pp)) pm') :
    ∃ l, FreeList pm' l ∧ 64 ≤ l.length + (k + 1) / 1024 := by
  obtain ⟨l, hl, hlen⟩ := h.supply
  obtain ⟨l0, hl0, hmem, -⟩ := h.ledger.free
  cases Chain.unique hl hl0
  obtain ⟨l', hlist', hmem', -⟩ := hl'.free
  refine ⟨l', hlist', ?_⟩
  have hnd : l.Nodup := Chain.nodup hl
  -- a free page stays free unless it is the one the table is made of
  have hstay : ∀ p ∈ l, refCount R p = refCount s.refs p → p ∈ l' := by
    intro p hp heq
    obtain ⟨hpA, hzero, -⟩ := (hmem p).mp hp
    have hne : pp ≠ p := by
      rintro rfl
      have hcount := h.count
      omega
    refine (hmem' p).mpr ⟨hpA, ?_, Set.notMem_empty p⟩
    rw [refCount_update_some pp p hslot, heq, hzero, if_neg hne]
  rcases hwith with rfl | ⟨t, ht, hnone, rfl⟩
  · have hle : l.length ≤ l'.length := (hnd.subperm fun p hp => hstay p hp rfl).length_le
    omega
  have hfirst := h.first_of_none hnone
  have hsub : l ⊆ t :: l' := by
    intro p hp
    by_cases hpt : t = p
    · simp [hpt]
    · refine mem_cons_of_mem t (hstay p hp ?_)
      rw [refCount_update_some t p hnone, if_neg hpt, Nat.add_zero]
  have hle : l.length ≤ (t :: l').length := (hnd.subperm hsub).length_le
  rw [length_cons] at hle
  omega

/-- The directory entries that were not written still lead to tables. -/
theorem tables_insert {R : Ref → Option (Ppn M)} (hk : k < 65536)
    (hwrites : Writes (insertCells s.pm d (fillAddr (k + 1))) s.pm pm')
    (hwith : WithTable s.refs R s.pm 0 (fillTable (k + 1))) (hn : n ≤ 65536)
    (hne : fillTable n ≠ fillTable (k + 1)) (hpres : present (pm'.load (d, toPde (fillTable n)))) :
    R (.table 0 (fillTable n)) ≠ none := by
  have hva := fillAddr_lt hk
  have hcell : ((d, toPde (fillTable n)) : PtePtr M) ∉ insertCells s.pm d (fillAddr (k + 1)) := by
    rintro (hc | ⟨t, ht, hc⟩ | hc)
    · have hidx := (Prod.mk.inj hc).2
      rw [← toPde_upde _ hva, upde_fillAddr hk] at hidx
      exact hne (toPde_injective hidx)
    · have ht' : s.refs (.table 0 (upde _ hva)) = some t := by
        rw [h.refs_table, toPde_upde]
        exact ht
      exact h.excl.table_ne_dir h.root ht' (Prod.mk.inj hc).1.symm
    · exact h.ledger.headFresh d hc (.dir 0) h.root
  rw [hwrites.2 hcell] at hpres
  have hold := h.tables n hn hpres
  rcases hwith with rfl | ⟨t, -, -, rfl⟩
  · exact hold
  · rw [update_of_ne (by simp [hne])]
    exact hold

end

theorem flagsOnly_userRead : FlagsOnly (pteU ||| pteP) := by decide

theorem insert (h : Filling A pp d k s) (hk : k < 65536)
    (hins : pageInsert s.pm d pp (fillAddr (k + 1)) (pteU ||| pteP) = some (0, pm'))
    (hruns : RunsOn s' 0 0) (hpm : s'.pm = pm') (hroot : s'.root = s.root) :
    Filling A pp d (k + 1) s' := by
  have hva := fillAddr_lt hk
  have hslot : Ref.leaf 0 (upde (fillAddr (k + 1)) hva) (ptx (fillAddr (k + 1)))
      = fillSlot (k + 1) := by
    rw [upde_fillAddr hk, ptx_fillAddr hk]
    rfl
  have hfresh := h.ledger.headFresh
  have hempty : s.refs (fillSlot (k + 1)) = none := by
    have hzero := h.clear (k + 1) (Nat.lt_succ_self k) hk
    show Jos.refs s.root none s.pm (.leaf _ _ _) = none
    rw [refs_leaf, ← fillSlot, hzero, entryOf_zero]
  have hptes := pageInsert_ptes h.excl hfresh h.root hva flagsOnly_userRead h.not_node h.ne_head
    hins
  have hledger : Ledger A ∅ (Jos.refs s.root none pm') pm' := by
    refine pageInsert_ledger h.excl h.ledger h.root hva flagsOnly_userRead h.not_node
      (.inr (refCount_pos (h.mapped 0 (Nat.zero_le k)))) (by simp) (fun p hp => ?_) hins
    rw [hslot] at hp
    exact absurd (hempty.symm.trans hp) (by simp)
  rcases pageInsert_view h.excl hfresh h.root hva flagsOnly_userRead h.not_node h.ne_head hins with
    ⟨hc, -⟩ | ⟨-, R, hwith, hview⟩
  · simp [eNoMem] at hc
  rw [hslot] at hptes hview
  rw [upde_fillAddr hk] at hwith
  have hleaf : ∀ n, R (fillSlot n) = s.refs (fillSlot n) := by
    intro n
    rcases hwith with rfl | ⟨t, -, -, rfl⟩
    · rfl
    · exact update_of_ne (by simp [fillSlot]) _ _
  have hother : ∀ n ≤ 65536, n ≠ k + 1 → fillSlot n ≠ fillSlot (k + 1) :=
    fun n hn hne hc => hne (fillSlot_inj hn hk hc)
  have hrefs : s'.refs = update R (fillSlot (k + 1)) (some pp) := by
    rw [← hview, ← hpm, ← hroot]
  have hself : s'.refs (fillSlot (k + 1)) = some pp := by rw [hrefs, update_self]
  constructor
  · exact hruns
  · rw [hroot]
    exact h.root
  · rw [hrefs]
    exact (hwith.excl h.excl hfresh).update_leaf (hwith.ne_of_node h.not_node h.ne_head)
      (by simp [fillSlot, Ref.isNode])
  · rw [hpm, hrefs, ← hview]
    exact hledger
  · intro n hn
    by_cases hne : n = k + 1
    · rw [hne]
      exact hself
    · rw [hrefs, update_of_ne (hother n (by omega) hne), hleaf n]
      exact h.mapped n (by omega)
  · intro n hn hle
    rw [hroot, hpm, hptes, update_of_ne (hother n hle (by omega))]
    exact h.clear n (by omega) hle
  · intro n hn hpres
    by_cases hsame : fillTable n = fillTable (k + 1)
    · obtain ⟨t, ht, -⟩ := refs_leaf_eq_some.mp hself
      rw [hsame]
      exact ne_none_iff_exists'.mpr ⟨t, ht⟩
    · rw [hrefs, update_of_ne (by simp [fillSlot])]
      rw [hpm] at hpres
      exact h.tables_insert hk (pageInsert_writes hins) hwith hn hsame hpres
  · have hcount : refCount R pp = k + 1 := by
      rcases hwith.refCount_eq pp with heq | ⟨hc, -⟩
      · rw [heq, h.count]
      · exact absurd hc h.ne_head
    rw [hrefs, refCount_update_some pp pp ((hleaf _).trans hempty), hcount, if_pos rfl]
  · rw [hpm]
    exact h.supply_insert hwith ((hleaf _).trans hempty) (hview ▸ hledger)

theorem lookup_first (h : Filling A pp d k s) :
    ∃ pte, pageLookup s.pm d (fillAddr 0) = some (some (pp, pte)) := by
  have hva := fillAddr_lt (Nat.zero_le 65536)
  have hleaf : s.refs (.leaf 0 (upde (fillAddr 0) hva) (ptx (fillAddr 0))) = some pp := by
    exact h.mapped 0 (Nat.zero_le k)
  obtain ⟨t, -, hlook⟩ := pageLookup_ok h.root hva hleaf
  exact ⟨_, hlook⟩

theorem step (h : Filling A pp d k s) (hk : k < 65536) :
    ∃ s', next s (mapAgain (k + 1)) = some s' ∧ Filling A pp d (k + 1) s' := by
  have hva := fillAddr_lt hk
  have hclear : ptes s.root s.pm (.leaf 0 (upde (fillAddr (k + 1)) hva) (ptx (fillAddr (k + 1))))
      = 0 := by
    rw [upde_fillAddr hk, ptx_fillAddr hk]
    exact h.clear (k + 1) (Nat.lt_succ_self k) hk
  obtain ⟨pm', hins⟩ := pageInsert_ok pp (pteU ||| pteP) h.excl h.ledger.headFresh h.root
    hva (h.table_or_page hk) hclear
  obtain ⟨pte, hlook⟩ := h.lookup_first
  let tf := callFrame sysNoPageMap 0 (fillAddr 0) 0 (fillAddr (k + 1)) (pteU ||| pteP)
  have hsame := sameTables_trapEntry s 0 0 tf
  have hcall : sysPageMap (trapEntry s 0 0 tf) 0 0 (fillAddr 0) 0 (fillAddr (k + 1))
      (pteU ||| pteP) = some (0, { trapEntry s 0 0 tf with pm := pm' }) :=
    sysPageMap_self (runsOn_trapEntry h.runs tf).1 ((hsame.pgdir 0).trans h.root)
      (not_badVa_fillAddr (Nat.zero_le _)) (not_badVa_fillAddr hk)
      (by rw [hsame.pm]; exact hlook) (by rw [hsame.pm]; exact hins)
  have hsys : syscall (trapEntry s 0 0 tf) 0 ⟨0, 0, .zero⟩ sysNoPageMap 0 (fillAddr 0) 0
      (fillAddr (k + 1)) (pteU ||| pteP) = some (.ret 0 { trapEntry s 0 0 tf with pm := pm' }) := by
    rw [syscall_pageMap, hcall]
    rfl
  obtain ⟨s', hnext, hruns, hpm, hroot⟩ := next_call h.runs h.root hsys
  exact ⟨s', hnext, h.insert hk hins hruns hpm hroot⟩

/-- **The counter has run over**: unmapping the page once puts it on the free list. -/
theorem unmap (h : Filling A pp d 65536 s) :
    ∃ s', next s unmapFirst = some s' ∧ s'.pm.pageFreeList = some pp ∧ Accessible s' pp := by
  have hva := fillAddr_lt (Nat.zero_le 65536)
  have hfirst := h.mapped 0 (Nat.zero_le _)
  have hpA : pp ∈ A := h.ledger.managed _ _ hfirst
  have href : (s.pm.pages pp).ppRef = 1 := by
    rw [h.ledger.ref pp hpA, h.count]
    decide
  have hlink : links s.pm pp = none := h.ledger.link_none hpA (.inr (refCount_pos hfirst))
  obtain ⟨pm1, hdec, hhead⟩ : ∃ pm1, pageDecref s.pm pp = some pm1 ∧
      pm1.pageFreeList = some pp := by
    have hlink' : (s.pm.pages pp).ppLink = none := hlink
    simp [pageDecref, pageFree, Pmap.setRef, Pmap.setLink, href, hlink']
  obtain ⟨pte, hlook⟩ := h.lookup_first
  have hrem : pageRemove s.pm d (fillAddr 0) = some (pm1.store pte 0) := by
    simp only [pageRemove, hlook, hdec]
  have hview := pageRemove_view h.excl h.root hva hrem
  let tf := callFrame sysNoPageUnmap 0 (fillAddr 0) 0 0 0
  have hsame := sameTables_trapEntry s 0 0 tf
  have hcall : sysPageUnmap (trapEntry s 0 0 tf) 0 0 (fillAddr 0)
      = some (0, { trapEntry s 0 0 tf with pm := pm1.store pte 0 }) :=
    sysPageUnmap_self (runsOn_trapEntry h.runs tf).1 ((hsame.pgdir 0).trans h.root)
      (not_badVa_fillAddr (Nat.zero_le _)) (by rw [hsame.pm]; exact hrem)
  have hsys : syscall (trapEntry s 0 0 tf) 0 ⟨0, 0, .zero⟩ sysNoPageUnmap 0 (fillAddr 0) 0 0 0
      = some (.ret 0 { trapEntry s 0 0 tf with pm := pm1.store pte 0 }) := by
    rw [syscall_pageUnmap, hcall]
    rfl
  obtain ⟨s', hnext, hruns, hpm, hroot⟩ := next_call h.runs h.root hsys
  have hhead' : s'.pm.pageFreeList = some pp := by
    rw [hpm]
    exact hhead
  -- the second mapping is still there
  have hsecond : s'.refs (fillSlot 1) = some pp := by
    have hne : fillSlot 1 ≠ fillSlot 0 := fun hc =>
      absurd (fillSlot_inj (by decide) (Nat.zero_le _) hc) (by decide)
    rw [upde_fillAddr (Nat.zero_le _), ptx_fillAddr (Nat.zero_le _), ← fillSlot] at hview
    unfold Kern.refs
    rw [hroot, hpm, hview, update_of_ne hne]
    exact h.mapped 1 (by decide)
  refine ⟨s', hnext, hhead', 0, _, _, ?_, hsecond⟩
  show (s'.envs 0).envStatus ≠ .free
  rw [hruns.2]
  simp

end Filling

/-! ### The run -/

/-- One environment is created and runs, and allocates one page at address 0. -/
def onePage : Option (Kern (Machine.withFree 80)) :=
  [Event.create Image.bare, .sched 0, .call 0 sysNoPageAlloc 0 (fillAddr 0) 7 0 0].foldlM next
    (envInit (Kern.fresh 80))

/-- Page `n` of that machine. -/
def page80 (n : Fin 81) : Ppn (Machine.withFree 80) := n

/-- The directory is page 1, its first table page 5, and the page mapped is page 4. -/
abbrev OnePage (s : Kern (Machine.withFree 80)) : Prop :=
  s.curenv 0 = some 0 ∧ (s.envs 0).envStatus = .running ∧ (s.envs 0).envPgdir = some (page80 1) ∧
    (s.pm.pages (page80 4)).ppRef = 1 ∧ FreeList s.pm ((freshPages 80).drop 5) ∧
    (∀ i < 65, s.pm.load (page80 1, toPde (Fin.ofNat pdxUtop i)) = if i = 0 then 0x5007 else 0) ∧
    ∀ j < 1024, s.pm.load (page80 5, Fin.ofNat nptentries j) = if j = 0 then 0x4007 else 0

theorem onePage_eval : (onePage.map fun s => decide (OnePage s)) = some true := by
  decide +kernel

theorem onePage_run {s : Kern (Machine.withFree 80)} (hs : onePage = some s) :
    Run next RoomFor (envInit (Kern.fresh 80)) s := by
  refine Run.of_foldlM hs fun s ev hev => ?_
  simp only [mem_cons, not_mem_nil, or_false] at hev
  rcases hev with rfl | rfl | rfl
  · trivial
  · trivial
  · exact fun _ hc => absurd hc (by decide)

theorem onePage_filling : ∃ s, onePage = some s ∧
    Filling {p | p ∈ freshPages 80} (page80 4) (page80 1) 0 s := by
  obtain ⟨s, hs, heval⟩ := map_eq_some_iff.mp onePage_eval
  obtain ⟨hcur, hrunning, hroot, href, hfree, hpdes, hptes⟩ := of_decide_eq_true heval
  have h := memInv_of_run (memInit_fresh 80) (onePage_run hs)
  have hpde : ∀ n ≤ 65536, s.pm.load (page80 1, toPde (fillTable n))
      = if n / 1024 = 0 then 0x5007 else 0 := fun n hn => hpdes (n / 1024) (by omega)
  have htable : ∀ n, n / 1024 = 0 → s.refs (.table 0 (fillTable n)) = some (page80 5) := by
    intro n hn
    show tableOf s.pm (s.envs 0).envPgdir _ = _
    rw [hroot, tableOf, bind_some, entry, hpde n (by omega), if_pos hn]
    decide
  have hfirst : s.refs (fillSlot 0) = some (page80 4) := by
    refine refs_leaf_eq_some.mpr ⟨_, htable 0 rfl, ?_⟩
    rw [entry, hptes 0 (by decide), if_pos rfl]
    decide
  refine ⟨s, hs, ⟨hcur, hrunning⟩, hroot, h.excl, h.ledger, ?_, ?_, ?_, ?_, ?_⟩
  · intro n hn
    rw [Nat.le_zero.mp hn]
    exact hfirst
  · intro n hpos hle
    by_cases hn : n / 1024 = 0
    · rw [fillSlot, ptes_leaf_some (htable n hn), hptes n (by omega), if_neg (by omega)]
    · have hnone : s.refs (.table 0 (fillTable n)) = none := by
        show tableOf s.pm (s.envs 0).envPgdir _ = _
        rw [hroot, tableOf, bind_some, entry, hpde n hle, if_neg hn, entryOf_zero]
      rw [fillSlot, ptes_leaf_none hnone]
  · intro n hle hpres
    by_cases hn : n / 1024 = 0
    · rw [htable n hn]
      simp
    · rw [hpde n hle, if_neg hn] at hpres
      exact absurd hpres not_present_zero
  · have hcount := congrArg BitVec.toNat (h.ledger.ref _ (h.ledger.managed _ _ hfirst))
    have hle := h.bound (page80 4)
    rw [href, BitVec.toNat_ofNat] at hcount
    have hone : (1 : BitVec 16).toNat = 1 := rfl
    omega
  · refine ⟨_, hfree, ?_⟩
    decide

theorem Filling.accessible {A : Set (Ppn M)} {pp d : Ppn M} {k : Nat} (h : Filling A pp d k s) :
    Accessible s pp := by
  refine ⟨0, _, _, ?_, h.mapped 0 (Nat.zero_le k)⟩
  show (s.envs 0).envStatus ≠ .free
  rw [h.runs.2]
  simp

/-- In this run page 4 is mapped, and is not free. -/
theorem freePages_of_run_onePage :
    ∃ s : Kern (Machine.withFree 80), Run next RoomFor (envInit (Kern.fresh 80)) s ∧
      Accessible s (page80 4) ∧
      (∃ free, FreeList s.pm free ∧ ∀ p, Accessible s p → p ∉ free) ∧
        ∀ flags p pm', pageAlloc s.pm flags = (some p, pm') → ¬ Accessible s p := by
  obtain ⟨s, hs, h⟩ := onePage_filling
  have hrun := onePage_run hs
  exact ⟨s, hrun, h.accessible, freePages_of_run (memInit_fresh 80) hrun⟩

theorem filling_of_run (k : Nat) (hk : k ≤ 65536) :
    ∃ s, Run next (fun _ _ => True) (envInit (Kern.fresh 80)) s ∧
      Filling {p | p ∈ freshPages 80} (page80 4) (page80 1) k s := by
  induction k with
  | zero =>
    obtain ⟨s, hs, h⟩ := onePage_filling
    exact ⟨s, .of_foldlM hs fun _ _ _ => trivial, h⟩
  | succ k ih =>
    obtain ⟨s, hrun, h⟩ := ih (by omega)
    obtain ⟨s', hnext, h'⟩ := h.step hk
    exact ⟨s', hrun.next trivial hnext, h'⟩

/-- **A page that is mapped can be free**: after 2^16 + 1 mappings and one unmapping,
`page_alloc` returns a page the environment still has mapped. -/
theorem mapped_page_freed :
    ∃ s : Kern (Machine.withFree 80), Run next (fun _ _ => True) (envInit (Kern.fresh 80)) s ∧
      ∃ p, s.pm.pageFreeList = some p ∧ (pageAlloc s.pm allocZero).1 = some p ∧
        Accessible s p := by
  obtain ⟨s, hrun, h⟩ := filling_of_run 65536 (Nat.le_refl _)
  obtain ⟨s', hnext, hhead, hacc⟩ := h.unmap
  refine ⟨s', hrun.next trivial hnext, page80 4, hhead, ?_, hacc⟩
  simp [pageAlloc, hhead]

end Jos
