/-
The memory invariant.

`MemInv A s` puts the pieces together for a whole kernel: the free slots of `envs[]` are
the ones without a directory, no page table is shared, and over the pages `A` the books
balance with no page referred to more than 2^16 times.  Every operation keeps it, and
only one of them can fail to: `sys_page_map` adds a reference to a page that may have
any number already, so it is asked to leave room for one.

The bound is the tight one.  At 2^16 references the counter reads zero, which does no
harm as long as it is not decremented to zero again; one reference more and the next
`page_decref` but one frees a page that is still mapped.
-/
import Os.Proofs.Jos.EnvOps
import Os.Proofs.Jos.EnvTable

namespace Jos

open RefMap Function

variable {M : Machine} {s s' : Kern M} {c : CpuIdx} {e : EnvIdx} {A H : Set (Ppn M)}

/-- The `env_pgdir` fields. -/
def Kern.root (s : Kern M) (e : EnvIdx) : Option (Ppn M) := (s.envs e).envPgdir

/-- What every slot of the kernel refers to. -/
abbrev Kern.refs (s : Kern M) : Ref → Option (Ppn M) := Jos.refs s.root none s.pm

theorem SameTables.refs_eq (h : SameTables s s') : s'.refs = s.refs := by
  have hroot : s'.root = s.root := funext h.pgdir
  unfold Kern.refs
  rw [hroot, h.pm]

structure MemInv (A : Set (Ppn M)) (s : Kern M) : Prop where
  slots : FreeSlots s
  excl : Excl s.refs
  ledger : Ledger A ∅ s.refs s.pm
  bound : ∀ p, refCount s.refs p ≤ 65536

/-! ### The books as a rider of `env_free` -/

variable {root : EnvIdx → Option (Ppn M)} {tmp : Option (Ppn M)} {pm pm' : Pmap M} {d : Ppn M}

/-- The books of `Ledger`, with the bound that keeps them right. -/
def Books (A H : Set (Ppn M)) (root : EnvIdx → Option (Ppn M)) (tmp : Option (Ppn M))
    (pm : Pmap M) : Prop :=
  Ledger A H (refs root tmp pm) pm ∧ ∀ p, refCount (refs root tmp pm) p ≤ 65536

theorem keptByRemove_books (hroot : root e = some d) :
    KeptByRemove root tmp d (Books A H root tmp) := by
  rintro pm pm' va hva hx ⟨hl, hle⟩ h
  refine ⟨pageRemove_ledger hx hl hva (fun p _ => hle p) hroot h, fun p => ?_⟩
  rw [pageRemove_view hx hroot hva h]
  exact le_trans ((Cleared.update_none _ _).refCount_le p) (hle p)

theorem keptByDrop_books (hroot : root e = some d) :
    KeptByDrop root tmp e d (Books A H root tmp) := by
  rintro pm pm' i t hx ⟨hl, hle⟩ ht hleaves h
  have hview := refs_dropTable hx hroot hleaves h
  have hstored : Ledger A H (refs root tmp pm) (pm.store (d, toPde i) 0) := hl.congr rfl rfl
  obtain ⟨pm2, hdec, hl2⟩ := hstored.decref ht (hle t)
  rw [h] at hdec
  cases hdec
  rw [Books, hview]
  exact ⟨hl2, fun p => le_trans ((Cleared.update_none _ _).refCount_le p) (hle p)⟩

/-- Everything `e` refers to. -/
def envSlots (e : EnvIdx) : Set Ref := userSlots e ∪ {.dir e}

/-- The directory goes last, when nothing hangs on it any more. -/
theorem refs_dropDir (hclear : ∀ r ∈ userSlots e, refs root tmp pm r = none) :
    refs (update root e none) tmp pm = update (refs root tmp pm) (.dir e) none := by
  funext r
  cases r with
  | inFlight => simp [refs]
  | dir e' =>
    by_cases he : e' = e
    · subst he
      simp [refs]
    · simp [refs, he]
  | table e' i =>
    rw [update_of_ne (by simp)]
    by_cases he : e' = e
    · subst he
      rw [hclear _ ⟨i, .inl rfl⟩]
      simp [refs, tableOf]
    · simp [refs, he]
  | leaf e' i j =>
    rw [update_of_ne (by simp)]
    by_cases he : e' = e
    · subst he
      rw [hclear _ ⟨i, .inr ⟨j, rfl⟩⟩]
      simp [refs, tableOf]
    · simp [refs, he]

theorem root_envFree (h : envFree s e = some s') : s'.root = update s.root e none := by
  obtain ⟨d, pm1, pm2, -, -, -, rfl⟩ := envFree_cases h
  funext k
  by_cases hk : k = e
  · subst hk
    simp [Kern.root]
  · simp [Kern.root, hk]

/-- **`env_free` clears everything its environment refers to**, and nothing else. -/
theorem envFree_view (hx : Excl s.refs) (h : envFree s e = some s') :
    Excl s'.refs ∧ Cleared s.refs s'.refs (envSlots e) := by
  have hroot' := root_envFree h
  obtain ⟨d, pm1, pm2, hd, hloop, hdec, rfl⟩ := envFree_cases h
  obtain ⟨hx1, -, hc⟩ := freePde_loop (I := fun _ => True) (fun _ _ _ _ _ _ _ => trivial)
    (fun _ _ _ _ _ _ _ _ _ => trivial) hx trivial (show s.root e = some d from hd) hloop
  have hview : Jos.refs (update s.root e none) none pm2
      = update (Jos.refs s.root none pm1) (.dir e) none := by
    rw [refs_congr_mem (pageDecref_mem hdec).1, refs_dropDir hc.1]
  unfold Kern.refs
  rw [hroot']
  rw [hview]
  exact ⟨hx1.update_none _, hc.trans (Cleared.update_none _ _)⟩

/-- **`env_alloc` makes one reference**: to the directory of the new environment. -/
theorem envAlloc_view {parentId : Word} (hslots : FreeSlots s) (hfresh : HeadFresh s.refs s.pm)
    (ha : envAlloc s parentId = (.ok e, s')) :
    ∃ p pm1, pageAlloc s.pm allocZero = (some p, pm1) ∧ s.refs (.dir e) = none ∧
      s'.pm = installDir pm1 p ∧ s'.refs = update s.refs (.dir e) (some p) := by
  rcases envAlloc_cases ha with ⟨r, hc, -⟩ | ⟨e', p, pm1, he', he, halloc, rfl⟩
  · simp at hc
  cases he'
  have hnone : s.root e = none := hslots.head_none he
  have hroot : (fun k => (update s.envs e
      (allocatedEnv (s.envs e) e parentId p) k).envPgdir) = update s.root e (some p) := by
    funext k
    by_cases hk : k = e
    · subst hk
      simp [allocatedEnv]
    · simp [hk, Kern.root]
  refine ⟨p, pm1, halloc, hnone, rfl, ?_⟩
  show Jos.refs (fun k => (update s.envs e _ k).envPgdir) none (installDir pm1 p) = _
  rw [hroot]
  exact refs_installDir hfresh hnone halloc

/-! ### What an operation has to be asked for -/

/-- The page a call of `sys_page_map` is about to map has room for one more reference. -/
def RoomToMap (s : Kern M) (c : CpuIdx) (srcenvid srcva : Word) : Prop :=
  ∀ src sd pp pte, lookupEnv s c srcenvid = some (.ok src) → (s.envs src).envPgdir = some sd →
    pageLookup s.pm sd srcva = some (some (pp, pte)) → refCount s.refs pp ≤ 65535

/-- Every page `region_alloc` maps lies below `UTOP`. -/
def RegionBelow (va len : Word) : Prop :=
  ∀ k < pageSteps (rounddown va pgsize) (roundup (va + len) pgsize),
    (rounddown va pgsize).toNat + 4096 * k < utop.toNat

/-- What `page_alloc` does when it is not asked to clear the page. -/
theorem pageAlloc_plain_mem {pm pm' : Pmap M} {p : Ppn M} (h : pageAlloc pm 0 = (some p, pm')) :
    pm.pageFreeList = some p ∧ pm'.mem = pm.mem ∧ pm'.kernPgdir = pm.kernPgdir := by
  rcases pageAlloc_cases h with ⟨hc, -⟩ | ⟨q, hq, hhead, -, -, hkern, hmem⟩
  · simp at hc
  · cases hq
    exact ⟨hhead, hmem, hkern⟩

/-- The rule for the loop of `region_alloc`, over pages that all lie below `UTOP`. -/
theorem regionLoop_rule {I : Pmap M → Prop}
    (hstep : ∀ pm pm1 pm2 p i, I pm → i < utop → pageAlloc pm 0 = (some p, pm1) →
      pageInsert pm1 d p i (pteW ||| pteU) = some (0, pm2) → I pm2)
    (n : Nat) {i : Word} {pm pm' : Pmap M} (hI : I pm)
    (hbelow : ∀ k < n, i.toNat + 4096 * k < utop.toNat)
    (hloop : regionLoop d n i pm = some pm') : I pm' := by
  induction n generalizing i pm with
  | zero =>
    cases hloop
    exact hI
  | succ n ih =>
    have hi : i.toNat < utop.toNat := by simpa using hbelow 0 (Nat.succ_pos n)
    unfold Jos.regionLoop at hloop
    cases ha : pageAlloc pm 0 with
    | mk o pm1 =>
      cases o with
      | none => simp only [ha, reduceCtorEq] at hloop
      | some p =>
        simp only [ha] at hloop
        split at hloop
        · simp at hloop
        rename_i r pm2 hins
        split at hloop
        · simp at hloop
        rename_i hr
        cases not_not.mp hr
        refine ih (hstep pm pm1 pm2 p i hI hi ha hins) (fun k hk => ?_) hloop
        have hlast := hbelow (k + 1) (Nat.succ_lt_succ hk)
        have hnext : (i + pgsize).toNat = i.toNat + 4096 := by
          show (i.toNat + 4096) % 2 ^ 32 = _
          omega
        omega

namespace MemInv

theorem headFresh (h : MemInv A s) : HeadFresh s.refs s.pm := h.ledger.headFresh

/-- Where there are no environments, the pages on the free list are the ones to manage. -/
theorem of_empty {l : List (Ppn M)} (hslots : FreeSlots s) (hroot : ∀ e, s.root e = none)
    (hlist : FreeList s.pm l) (href : ∀ p ∈ l, (s.pm.pages p).ppRef = 0) :
    MemInv {p | p ∈ l} s := by
  have hnone : ∀ r, s.refs r = none := by
    intro r
    cases r <;> simp [Kern.refs, Jos.refs, tableOf, hroot]
  have hzero : ∀ p, refCount s.refs p = 0 := fun p =>
    refCount_eq_zero.mpr fun r => by rw [hnone r]; simp
  refine ⟨hslots, ?_, ⟨⟨l, hlist, ?_, ?_⟩, ?_, ?_, ?_⟩, ?_⟩
  · intro r r' p hr
    rw [hnone r] at hr
    simp at hr
  · intro p
    simp [hzero p]
  · intro p hp hl
    exact absurd hp hl
  · intro p hp
    rw [href p hp, hzero p]
    rfl
  · intro r p hr
    rw [hnone r] at hr
    simp at hr
  · intro p hp
    exact absurd hp (Set.notMem_empty p)
  · intro p
    rw [hzero p]
    omega

/-- The invariant holds after `mem_init` and `env_init`. -/
theorem start {l : List (Ppn M)} (h : MemInit l s) : MemInv {p | p ∈ l} (envInit s) := by
  have hslots := (EnvTable.envInit h.pgdir).slots
  have hroot : ∀ e, (envInit s).root e = none := fun e =>
    (EnvTable.envInit_slot s e).2.2.trans (h.pgdir e)
  have hpm := (EnvTable.envInit_head s).1
  generalize envInit s = s1 at hslots hroot hpm
  refine of_empty hslots hroot ?_ ?_
  · rw [hpm]
    exact h.list
  · rw [hpm]
    exact h.ref

section

variable (h : MemInv A s)
include h

theorem same (hr : SameTables s s') : MemInv A s' := by
  have hrefs := hr.refs_eq
  refine ⟨h.slots.same hr, ?_, ?_, ?_⟩
  · rw [hrefs]
    exact h.excl
  · rw [hrefs, hr.pm]
    exact h.ledger
  · rw [hrefs]
    exact h.bound

/-- Creating an environment adds the reference to its directory. -/
theorem envAlloc {parentId : Word} {x : Except Int EnvIdx}
    (ha : envAlloc s parentId = (x, s')) : MemInv A s' := by
  have hslots := h.slots.envAlloc ha
  cases x with
  | error r =>
    rcases envAlloc_cases ha with ⟨r', -, -, rfl⟩ | ⟨e, p, pm1, hc, -⟩
    · exact h
    · simp at hc
  | ok e =>
    obtain ⟨p, pm1, halloc, hslot, hpm, hrefs⟩ := envAlloc_view h.slots h.headFresh ha
    obtain ⟨hhead, -, -⟩ := pageAlloc_zero_mem halloc
    refine ⟨hslots, ?_, ?_, ?_⟩
    · rw [hrefs]
      exact h.excl.update_fresh (h.headFresh p hhead) _
    · rw [hrefs, hpm]
      exact (h.ledger.alloc_incref hslot halloc).congr rfl rfl
    intro q
    rw [hrefs]
    refine le_trans (refCount_update_le _ p q) ?_
    by_cases hpq : p = q
    · subst hpq
      rw [(h.ledger.head_free hhead).2.1]
      simp
    · rw [if_neg hpq, Nat.add_zero]
      exact h.bound q

theorem envFree (hf : envFree s e = some s') : MemInv A s' := by
  have hslots := h.slots.envFree hf
  obtain ⟨hx', hc'⟩ := envFree_view h.excl hf
  have hroot' := root_envFree hf
  obtain ⟨d, pm1, pm2, hd, hloop, hdec, rfl⟩ := envFree_cases hf
  have hroot : s.root e = some d := hd
  obtain ⟨hx1, ⟨hl1, hle1⟩, hc⟩ := freePde_loop (keptByRemove_books hroot) (keptByDrop_books hroot)
    h.excl ⟨h.ledger, h.bound⟩ hroot hloop
  have hdir : Jos.refs s.root none pm1 (.dir e) = some d := hroot
  obtain ⟨pm3, hdec', hl2⟩ := hl1.decref hdir (hle1 d)
  rw [hdec] at hdec'
  cases hdec'
  refine ⟨hslots, hx', ?_, fun p => le_trans (hc'.refCount_le p) (h.bound p)⟩
  unfold Kern.refs
  rw [hroot']
  rw [refs_congr_mem (pageDecref_mem hdec).1, refs_dropDir hc.1]
  exact hl2

/-! ### The system calls on memory -/

theorem setPm (hx : Excl (Jos.refs s.root none pm'))
    (hl : Ledger A ∅ (Jos.refs s.root none pm') pm')
    (hb : ∀ p, refCount (Jos.refs s.root none pm') p ≤ 65536) :
    MemInv A { s with pm := pm' } :=
  ⟨h.slots, hx, hl, hb⟩

/-- A page just taken from the free list goes into a directory, or the call fails. -/
theorem insertNew {va perm flags : Word} {pp : Ppn M} {pm1 pm2 : Pmap M} {r : Int}
    (halloc : pageAlloc s.pm flags = (some pp, pm1))
    (hrefs : Jos.refs s.root none pm1 = s.refs) (hd : s.root e = some d) (hva : va < utop)
    (hperm : FlagsOnly perm) (hins : pageInsert pm1 d pp va perm = some (r, pm2)) :
    (r = -eNoMem ∧ pm2 = pm1) ∨ (r = 0 ∧ MemInv A { s with pm := pm2 }) := by
  have hheld : Ledger A {pp} (Jos.refs s.root none pm1) pm1 := by
    have hl := h.ledger.alloc halloc
    rw [hrefs]
    simpa using hl
  have hzero : refCount (Jos.refs s.root none pm1) pp = 0 := (hheld.heldFree pp rfl).2
  have hnone : ∀ q, q ∈ (∅ : Set (Ppn M)) ↔ q ∈ ({pp} : Set (Ppn M)) ∧ q ≠ pp := by simp
  have hle : ∀ p, refCount (Jos.refs s.root none pm1) p + (if pp = p then 1 else 0) ≤ 65536 := by
    intro p
    by_cases hp : pp = p
    · subst hp
      rw [hzero]
      simp
    · rw [if_neg hp, Nat.add_zero, hrefs]
      exact h.bound p
  rcases pageInsert_books (by rw [hrefs]; exact h.excl) hheld hd hva hperm
    (fun r _ => refCount_eq_zero.mp hzero r) (.inl rfl) hnone hle hins with
    ⟨hr, hpm⟩ | ⟨hr, hx, hl, hb⟩
  · exact .inl ⟨hr, hpm⟩
  · exact .inr ⟨hr, h.setPm hx hl hb⟩

theorem sysPageAlloc {envid va perm : Word} {r : Int}
    (hcall : sysPageAlloc s c envid va perm = some (r, s')) : MemInv A s' := by
  rcases sysPageAlloc_cases hcall with ⟨-, rfl⟩ |
    ⟨e, d, pp, pm1, pm2, r', -, hva, -, hperm, halloc, hd, hins, hend⟩
  · exact h
  have hrefs : Jos.refs s.root none pm1 = s.refs := refs_pageAlloc_zero h.headFresh halloc
  have hva' : va < utop := lt_utop_of_not_badVa hva
  rcases h.insertNew halloc hrefs hd hva' (flagsOnly_of_syscall hperm) hins with
    ⟨rfl, rfl⟩ | ⟨rfl, hinv⟩
  · rcases hend with ⟨-, -, pm3, hfree, rfl⟩ | ⟨hc, -⟩
    · -- no memory for a page table: the page goes back
      have hheld : Ledger A (insert pp ∅) s.refs pm2 := h.ledger.alloc halloc
      obtain ⟨pm4, hfree', hl⟩ := hheld.free_held (Set.notMem_empty pp)
      rw [hfree] at hfree'
      cases hfree'
      have hrefs3 : Jos.refs s.root none pm3 = s.refs := by
        rw [refs_congr_mem (pageFree_mem hfree), hrefs]
      refine h.setPm ?_ ?_ ?_
      · rw [hrefs3]
        exact h.excl
      · rw [hrefs3]
        exact hl
      · rw [hrefs3]
        exact h.bound
    · exact absurd (by decide) hc
  · rcases hend with ⟨hc, -⟩ | ⟨-, -, rfl⟩
    · exact absurd hc (by decide)
    · exact hinv

theorem sysPageMap {srcenvid srcva dstenvid dstva perm : Word} {r : Int}
    (hroom : RoomToMap s c srcenvid srcva)
    (hcall : sysPageMap s c srcenvid srcva dstenvid dstva perm = some (r, s')) :
    MemInv A s' := by
  rcases sysPageMap_cases hcall with ⟨-, rfl⟩ |
    ⟨src, dst, sd, dd, pp, pte, pm, r', hsrc, -, hsva, hdva, -, hperm, hsd, hlook, -, hdd, hins,
      -, rfl⟩
  · exact h
  have hsva' : srcva < utop := lt_utop_of_not_badVa hsva
  have hcount := hroom src sd pp pte hsrc hsd hlook
  -- the page is mapped at the source, so it is in use and is not a table
  have hleaf : s.refs (.leaf src (upde srcva hsva') (ptx srcva)) = some pp := by
    rcases pageLookup_view none (show s.root src = some sd from hsd) hsva' hlook with
      ⟨hc, -⟩ | ⟨p, t, hp, -, hleaf⟩
    · simp at hc
    · cases hp
      exact hleaf
  have hnode : ∀ r, r.isNode → s.refs r ≠ some pp := by
    intro r hr hc
    have heq := h.excl _ _ _ hc hleaf hr
    rw [← heq] at hr
    exact hr
  have hnone : ∀ q, q ∈ (∅ : Set (Ppn M)) ↔ q ∈ (∅ : Set (Ppn M)) ∧ q ≠ pp := by simp
  have hle : ∀ p, refCount s.refs p + (if pp = p then 1 else 0) ≤ 65536 := by
    intro p
    by_cases hp : pp = p
    · subst hp
      rw [if_pos rfl]
      omega
    · rw [if_neg hp, Nat.add_zero]
      exact h.bound p
  rcases pageInsert_books h.excl h.ledger (show s.root dst = some dd from hdd)
    (lt_utop_of_not_badVa hdva) (flagsOnly_of_syscall hperm) hnode (.inr (refCount_pos hleaf))
    hnone hle hins with ⟨-, rfl⟩ | ⟨-, hx, hl, hb⟩
  · exact h
  · exact h.setPm hx hl hb

theorem sysPageUnmap {envid va : Word} {r : Int}
    (hcall : sysPageUnmap s c envid va = some (r, s')) : MemInv A s' := by
  rcases sysPageUnmap_cases hcall with ⟨-, rfl⟩ | ⟨e, d, pm, -, hva, hd, hrem, -, rfl⟩
  · exact h
  have hva' : va < utop := lt_utop_of_not_badVa hva
  have hroot : s.root e = some d := hd
  have hview := pageRemove_view h.excl hroot hva' hrem
  refine h.setPm ?_ (pageRemove_ledger h.excl h.ledger hva' (fun p _ => h.bound p) hroot hrem) ?_
  · rw [hview]
    exact h.excl.update_none _
  · intro p
    rw [hview]
    exact le_trans ((Cleared.update_none _ _).refCount_le p) (h.bound p)

theorem sysExofork {r : Int} (hx : sysExofork s c = some (r, s')) :
    MemInv A s' := by
  rcases sysExofork_steps hx with rfl | ⟨parentId, e, s1, ha, hr⟩
  · exact h
  · exact (h.envAlloc ha).same hr.toSameTables

theorem envDestroy {f : Flow M Unit} (hd : envDestroy s c e = some f) :
    MemInv A f.state := by
  rcases envDestroy_steps hd with hr | ⟨s1, hfree, hr⟩
  · exact h.same hr.toSameTables
  · exact (h.envFree hfree).same hr.toSameTables

/-! ### Regions -/

theorem regionStep {i : Word} {p : Ppn M} {pm1 pm2 : Pmap M}
    (hd : s.root e = some d) (hi : i < utop) (halloc : pageAlloc s.pm 0 = (some p, pm1))
    (hins : pageInsert pm1 d p i (pteW ||| pteU) = some (0, pm2)) :
    MemInv A { s with pm := pm2 } := by
  have hrefs : Jos.refs s.root none pm1 = s.refs :=
    refs_congr_mem (pageAlloc_plain_mem halloc).2.1
  rcases h.insertNew halloc hrefs hd hi flagsOnly_regionPerm hins with ⟨hc, -⟩ | ⟨-, hinv⟩
  · simp [eNoMem] at hc
  · exact hinv

theorem regionAlloc {va len : Word} (hbelow : RegionBelow va len)
    (ha : regionAlloc s e va len = some s') : MemInv A s' := by
  rcases regionAlloc_cases ha with rfl | ⟨d, pm, hd, hloop, rfl⟩
  · exact h
  · refine regionLoop_rule (I := fun pm => MemInv A { s with pm := pm }) ?_ _ h hbelow hloop
    intro pm pm1 pm2 p i h hi halloc hins
    exact h.regionStep hd hi halloc hins

end

end MemInv

end Jos
