/-
Reference counts are right.

`count s p` is the number of references to a page as one would count them by hand:
present entries of the page tables below `UTOP`, page tables, and directories, over
the environments there are.  The theorem of this file is that after any operations
`pp_ref` is that number and the free list holds the pages for which it is zero.

Two things have to be kept out.  A count beyond 16 bits does not fit into `pp_ref`.
And `region_alloc`, which `load_icode` calls with whatever addresses a program header
has, must not be sent above `UTOP`: there it would count references that belong to no
environment, as the example at the end shows.
-/
import Os.Proofs.Jos.Memory
import Mathlib.Data.Fintype.Option
import Mathlib.Data.Fintype.Prod

namespace Jos

open Linked RefMap Runs Option

variable {M : Machine} {s s' : Kern M} {p : Ppn M}

/-- The references to `p` from the environments there are. -/
def count (s : Kern M) (p : Ppn M) : Nat :=
  (Finset.univ.filter fun x : EnvIdx × Upde × Fin nptentries =>
      s.live x.1 ∧ s.refs (.leaf x.1 x.2.1 x.2.2) = some p).card
    + (Finset.univ.filter fun x : EnvIdx × Upde =>
      s.live x.1 ∧ s.refs (.table x.1 x.2) = some p).card
    + (Finset.univ.filter fun e : EnvIdx => s.live e ∧ (s.envs e).envPgdir = some p).card

/-- No count is beyond the range of `pp_ref`. -/
def InRange (s : Kern M) : Prop := ∀ p, count s p ≤ 65535

/-- The environment a slot belongs to has a directory if the slot refers to anything. -/
theorem root_of_refs {e : EnvIdx} {r : Ref}
    (hr : r = .dir e ∨ (∃ i, r = .table e i) ∨ ∃ i j, r = .leaf e i j)
    (h : s.refs r = some p) : s.root e ≠ none := by
  intro hc
  rcases hr with rfl | ⟨i, rfl⟩ | ⟨i, j, rfl⟩
  · simp [Kern.refs, refs, hc] at h
  · simp [Kern.refs, refs, tableOf, hc] at h
  · simp [Kern.refs, refs, tableOf, hc] at h

/-- Slots by kind. -/
def slotKinds : (EnvIdx × Upde × Fin nptentries) ⊕ (EnvIdx × Upde) ⊕ EnvIdx ⊕ Unit ≃ Ref where
  toFun
    | .inl (e, i, j) => .leaf e i j
    | .inr (.inl (e, i)) => .table e i
    | .inr (.inr (.inl e)) => .dir e
    | .inr (.inr (.inr ())) => .inFlight
  invFun
    | .leaf e i j => .inl (e, i, j)
    | .table e i => .inr (.inl (e, i))
    | .dir e => .inr (.inr (.inl e))
    | .inFlight => .inr (.inr (.inr ()))
  left_inv x := by rcases x with ⟨e, i, j⟩ | ⟨e, i⟩ | e | _ <;> rfl
  right_inv r := by cases r <;> rfl

/-- A filter that asks for a live environment as well asks for nothing new. -/
theorem card_live {κ : Type} [Fintype κ] (R : κ → Option (Ppn M)) (env : κ → EnvIdx)
    (h : ∀ x, R x = some p → s.live (env x)) :
    (Finset.univ.filter fun x => s.live (env x) ∧ R x = some p).card = refCount R p := by
  congr 1
  refine Finset.filter_congr fun x _ => ?_
  exact and_iff_right_of_imp (h x)

theorem count_eq_refCount (h : EnvTable s) (p : Ppn M) : count s p = refCount s.refs p := by
  have hlive : ∀ (e : EnvIdx) (r : Ref),
      (r = .dir e ∨ (∃ i, r = .table e i) ∨ ∃ i j, r = .leaf e i j) →
      s.refs r = some p → s.live e :=
    fun e r hr hp => (h.pgdir e).mpr (root_of_refs hr hp)
  have hleaf := card_live (s := s) (p := p)
    (fun x : EnvIdx × Upde × Fin nptentries => s.refs (.leaf x.1 x.2.1 x.2.2)) (fun x => x.1)
    fun x => hlive x.1 _ (.inr (.inr ⟨x.2.1, x.2.2, rfl⟩))
  have htable := card_live (s := s) (p := p)
    (fun x : EnvIdx × Upde => s.refs (.table x.1 x.2)) (fun x => x.1)
    fun x => hlive x.1 _ (.inr (.inl ⟨x.2, rfl⟩))
  have hdir := card_live (s := s) (p := p) (fun e : EnvIdx => s.refs (.dir e)) (fun e => e)
    fun e => hlive e _ (.inl rfl)
  have hfly : refCount (fun _ : Unit => s.refs .inFlight) p = 0 :=
    refCount_eq_zero.mpr fun _ => by simp [Kern.refs, refs]
  have hsplit : refCount s.refs p
      = refCount (fun x : EnvIdx × Upde × Fin nptentries => s.refs (.leaf x.1 x.2.1 x.2.2)) p
        + (refCount (fun x : EnvIdx × Upde => s.refs (.table x.1 x.2)) p
          + (refCount (fun e : EnvIdx => s.refs (.dir e)) p
            + refCount (fun _ : Unit => s.refs .inFlight) p)) := by
    rw [← refCount_equiv slotKinds, refCount_sum, refCount_sum, refCount_sum]
    rfl
  unfold count
  rw [hsplit, hfly, ← hleaf, ← htable, ← hdir]
  simp only [Nat.add_zero, Nat.add_assoc]
  rfl

/-! ### Any operations -/

/-- `region_alloc` is only sent to addresses of the user half. -/
def Op.UserHalf : Op → Prop
  | .regionAlloc _ va len => RegionBelow va len
  | _ => True

/-- Every operation keeps the memory invariant, from a state whose counts are in range. -/
theorem MemInv.apply {A : Set (Ppn M)} {op : Op} (h : MemInv A s) (htable : EnvTable s)
    (hin : InRange s) (hop : op.UserHalf) (ha : op.apply s = some s') : MemInv A s' := by
  cases op with
  | envAlloc parentId =>
    cases ha
    exact h.envAlloc rfl
  | regionAlloc e va len =>
    exact h.regionAlloc hop ha
  | sysExofork c =>
    obtain ⟨⟨r, s1⟩, hx, rfl⟩ := map_eq_some_iff.mp ha
    exact h.sysExofork hx
  | sysPageAlloc c envid va perm =>
    obtain ⟨⟨r, s1⟩, hx, rfl⟩ := map_eq_some_iff.mp ha
    exact h.sysPageAlloc hx
  | sysPageMap c srcenvid srcva dstenvid dstva perm =>
    obtain ⟨⟨r, s1⟩, hx, rfl⟩ := map_eq_some_iff.mp ha
    refine h.sysPageMap ?_ hx
    intro src sd pp pte _ _ _
    rw [← count_eq_refCount htable]
    exact hin pp
  | sysPageUnmap c envid va =>
    obtain ⟨⟨r, s1⟩, hx, rfl⟩ := map_eq_some_iff.mp ha
    exact h.sysPageUnmap hx
  | envDestroy c e =>
    obtain ⟨f, hf, rfl⟩ := map_eq_some_iff.mp ha
    exact h.envDestroy hf
  | envFree e =>
    simp only [Op.apply] at ha
    exact h.envFree ha
  | setCurenv c k =>
    cases ha
    exact h.same (Resched.setCurenv s c k).toSameTables

/--
**Reference counting is right**: after any operations of which none maps above `UTOP`
and none takes a count out of range, `pp_ref` is the number of references, and the free
list holds the pages without any, each once.
-/
theorem refcounts_of_run {l : List (Ppn M)} {s0 : Kern M} (h₀ : MemInit l s0)
    (hrun : Run Op.apply (fun s op => InRange s ∧ op.UserHalf) (envInit s0) s)
    (hin : InRange s) :
    ∃ free, FreeList s.pm free ∧ free.Nodup ∧
      ∀ p ∈ l, (s.pm.pages p).ppRef.toNat = count s p ∧ (p ∈ free ↔ count s p = 0) := by
  have hinv : EnvTable s ∧ MemInv {p | p ∈ l} s := by
    refine hrun.inv (I := fun s => EnvTable s ∧ MemInv {p | p ∈ l} s)
      ⟨.envInit h₀.pgdir, .start h₀⟩ ?_
    intro s op s' h hok ha
    exact ⟨h.1.apply ha, h.2.apply h.1 hok.1 hok.2 ha⟩
  obtain ⟨htable, h⟩ := hinv
  obtain ⟨free, hlist, hmem, -⟩ := h.ledger.free
  refine ⟨free, hlist, Chain.nodup hlist, fun p hp => ⟨?_, ?_⟩⟩
  · have hle := hin p
    rw [h.ledger.ref p hp, BitVec.toNat_ofNat, ← count_eq_refCount htable]
    omega
  · rw [hmem p, count_eq_refCount htable]
    simp only [Set.notMem_empty, not_false_eq_true, and_true]
    exact and_iff_right hp

/-- Few pages hold few entries: on a small machine no count can get out of range. -/
theorem MemInv.inRange {A : Set (Ppn M)} (h : MemInv A s) (htable : EnvTable s)
    (hsmall : M.npages ≤ 63) : InRange s := by
  intro p
  rw [count_eq_refCount htable]
  -- an entry is known by the page it is in and its index there
  let place (r : Ref) : Option (Ppn M × Fin nptentries) :=
    r.casesOn (fun _ => none) (fun _ _ => none) (fun e i j => (s.refs (.table e i)).map (·, j)) none
  have hcard := refCount_le_card (a := p) place fun r r' hrp hrp' heq => by
    by_cases hnode : r.isNode
    · exact (h.excl r r' p hrp hrp' hnode).symm
    by_cases hnode' : r'.isNode
    · exact h.excl r' r p hrp' hrp hnode'
    cases r with
    | leaf e i j =>
      cases r' with
      | leaf e' i' j' =>
        obtain ⟨t, ht, -⟩ := bind_eq_some_iff.mp hrp
        obtain ⟨t', ht', -⟩ := bind_eq_some_iff.mp hrp'
        have htab : s.refs (.table e i) = some t := ht
        have htab' : s.refs (.table e' i') = some t' := ht'
        simp only [place, htab, htab', map_some, some.injEq, Prod.mk.injEq] at heq
        obtain ⟨rfl, rfl⟩ := heq
        cases h.excl _ _ _ htab htab' trivial
        rfl
      | inFlight => cases hrp'
      | _ => exact absurd trivial hnode'
    | inFlight => cases hrp
    | _ => exact absurd trivial hnode
  simp only [Fintype.card_option, Fintype.card_prod, Fintype.card_fin] at hcard
  simp only [nptentries] at hcard
  omega

/-- An environment gets a page, moves it, gets another and is freed. -/
def remapped : List Op :=
  [.envAlloc 0, .setCurenv 0 (some 0), .sysPageAlloc 0 0 0x1000 7,
    .sysPageMap 0 0 0x1000 0 0x2000 7, .sysPageAlloc 0 0 0x1000 7, .sysPageUnmap 0 0 0x2000,
    .envFree 0]

theorem refcounts_of_run_fresh :
    ∃ s : Kern (Machine.withFree 8), remapped.foldlM Op.apply (envInit (Kern.fresh 8)) = some s ∧
      Run Op.apply (fun s op => InRange s ∧ op.UserHalf) (envInit (Kern.fresh 8)) s ∧ InRange s ∧
      ∃ free, FreeList s.pm free ∧ free.Nodup ∧
        ∀ p ∈ freshPages 8, (s.pm.pages p).ppRef.toNat = count s p ∧
          (p ∈ free ↔ count s p = 0) := by
  have hsome : (remapped.foldlM Op.apply (envInit (Kern.fresh 8))).isSome = true := by
    decide +kernel
  obtain ⟨s, hs⟩ := isSome_iff_exists.mp hsome
  have hhalf : ∀ op ∈ remapped, op.UserHalf := by simp [remapped, Op.UserHalf]
  obtain ⟨htable, hmem, hrun⟩ := (Run.of_foldlM hs fun _ => hhalf).inv
    (I := fun s => EnvTable s ∧ MemInv {p | p ∈ freshPages 8} s ∧
      Run Op.apply (fun s op => InRange s ∧ op.UserHalf) (envInit (Kern.fresh 8)) s)
    ⟨.envInit fun _ => rfl, .start (memInit_fresh 8), .start⟩
    fun s op s' ⟨ht, hm, hr⟩ hop hstep =>
      have hin := hm.inRange ht (by decide)
      ⟨ht.apply hstep, hm.apply ht hin hop hstep, hr.next ⟨hin, hop⟩ hstep⟩
  have hin := hmem.inRange htable (by decide)
  exact ⟨s, hs, hrun, hin, refcounts_of_run (memInit_fresh 8) hrun hin⟩

/-! ### One environment with an empty address space -/

/-- Slot 0 holds the only environment, and it has nothing mapped. -/
def OnlyDir (s : Kern M) (d : Ppn M) : Prop :=
  (∀ e, e ≠ 0 → s.root e = none) ∧ s.root 0 = some d ∧ ∀ i : Upde, s.pm.load (d, toPde i) = 0

theorem OnlyDir.refs {d : Ppn M} (h : OnlyDir s d) {r : Ref} (hr : r ≠ .dir 0) :
    s.refs r = none := by
  obtain ⟨hroot, h0, hempty⟩ := h
  have htab : ∀ e i, tableOf s.pm (s.root e) i = none := by
    intro e i
    by_cases he : e = 0
    · rw [he, h0, tableOf, bind_some, entry, hempty i, entryOf_zero]
    · rw [hroot e he]
      rfl
  cases r with
  | dir e => exact hroot e fun hc => hr (by rw [hc])
  | table e i => exact htab e i
  | leaf e i j => simp [Kern.refs, Jos.refs, htab]
  | inFlight => rfl

theorem OnlyDir.inRange {d : Ppn M} (h : OnlyDir s d) (htable : EnvTable s) : InRange s := by
  intro p
  rw [count_eq_refCount htable]
  have honly : ∀ r, s.refs r = some p → r = .dir 0 := fun r hr =>
    by_contra fun hne => nomatch (h.refs hne).symm.trans hr
  have hle := refCount_le_card (fun _ => ()) fun r r' hr hr' _ =>
    (honly r hr).trans (honly r' hr').symm
  rw [Fintype.card_unit] at hle
  omega

theorem onlyDir_envAlloc (n : Fin 65536) {s1 : Kern (Machine.withFree n)} {id : Word}
    (ha : envAlloc (envInit (Kern.fresh n)) id = (.ok 0, s1)) : ∃ d, OnlyDir s1 d := by
  have hroot : ∀ e, (envInit (Kern.fresh n)).root e = none :=
    fun e => (EnvTable.envInit_slot (Kern.fresh n) e).2.2
  generalize envInit (Kern.fresh n) = s0 at ha hroot
  rcases envAlloc_cases ha with ⟨r, hc, -⟩ | ⟨e, p, pm1, he, -, -, rfl⟩
  · simp at hc
  cases he
  refine ⟨p, fun e he => ?_, ?_, fun i => ?_⟩
  · simpa [Kern.root, he] using hroot e
  · simp [Kern.root, allocatedEnv]
  · simp [Pmap.load, Pmap.fill, newPgdir_user]

/-- A fresh machine has its first environment, in slot 0. -/
theorem first_envAlloc :
    ∃ s1 d, envAlloc (envInit (Kern.fresh 8)) 0 = (.ok 0, s1) ∧ OnlyDir s1 d := by
  obtain ⟨hpm, -, hslot⟩ := EnvTable.envInit_head (Kern.fresh 8)
  have hpage : (envInit (Kern.fresh 8)).pm.pageFreeList = some ⟨1, by decide⟩ := by
    rw [hpm]
    rfl
  obtain ⟨s1, ha⟩ := envAlloc_of_free hslot hpage 0
  obtain ⟨d, hd⟩ := onlyDir_envAlloc 8 ha
  exact ⟨s1, d, ha, hd⟩

/-! ### Above `UTOP` -/

/-- The first environment is given a page at `UTOP`. -/
def aboveUtop : Option (Kern (Machine.withFree 8)) :=
  [Op.envAlloc 0, Op.regionAlloc 0 utop 1].foldlM Op.apply (envInit (Kern.fresh 8))

/-- It has been counted once, and the user half of the directory is as empty as before. -/
theorem aboveUtop_eval :
    (aboveUtop.map fun s => ((s.pm.pages ⟨2, by decide⟩).ppRef, (s.envs 0).envPgdir,
      (List.finRange pdxUtop).all fun i => s.pm.load (⟨1, by decide⟩, toPde i) == 0))
      = some (1, some ⟨1, by decide⟩, true) := by
  decide +kernel

/-- A page mapped above `UTOP` is counted in `pp_ref`, and no environment refers to it. -/
theorem region_above_utop :
    ∃ s : Kern (Machine.withFree 8),
      Run Op.apply (fun s _ => InRange s) (envInit (Kern.fresh 8)) s ∧ InRange s ∧
      ∃ p ∈ freshPages 8, (s.pm.pages p).ppRef.toNat ≠ count s p := by
  obtain ⟨s1, d1, ha, hd1⟩ := first_envAlloc
  obtain ⟨s2, hs2, heval⟩ := map_eq_some_iff.mp aboveUtop_eval
  have hfirst : Op.apply (envInit (Kern.fresh 8)) (.envAlloc 0) = some s1 := by
    simp only [Op.apply, ha]
  have htable0 : EnvTable (envInit (Kern.fresh 8)) := .envInit fun _ => rfl
  have htable1 := htable0.envAlloc ha
  have hrun1 : Run Op.apply (fun s _ => InRange s) (envInit (Kern.fresh 8)) s1 :=
    Run.start.next ((MemInv.start (memInit_fresh 8)).inRange htable0 (by decide)) hfirst
  have hstep : Op.apply s1 (.regionAlloc 0 utop 1) = some s2 := by
    unfold aboveUtop at hs2
    rw [List.foldlM_cons, hfirst, bind_eq_bind, bind_some, List.foldlM_cons] at hs2
    obtain ⟨s3, h3, hend⟩ := bind_eq_some_iff.mp hs2
    cases hend
    exact h3
  simp only [Prod.mk.injEq] at heval
  obtain ⟨href, hroot, hempty⟩ := heval
  have hd2 : OnlyDir s2 ⟨1, by decide⟩ := by
    refine ⟨fun e he => ?_, hroot, fun i => ?_⟩
    · simp only [Op.apply] at hstep
      obtain ⟨pm, rfl⟩ := regionAlloc_pm hstep
      exact hd1.1 e he
    · simpa using List.all_eq_true.mp hempty i (List.mem_finRange i)
  have htable2 : EnvTable s2 := htable1.apply hstep
  refine ⟨s2, hrun1.next (hd1.inRange htable1) hstep, hd2.inRange htable2, ⟨2, by decide⟩, ?_, ?_⟩
  · decide
  have hzero : refCount s2.refs ⟨2, by decide⟩ = 0 := by
    refine refCount_eq_zero.mpr fun r => ?_
    by_cases hr : r = .dir 0
    · rw [hr]
      show s2.root 0 ≠ _
      rw [hd2.2.1]
      decide
    · rw [hd2.refs hr]
      simp
  rw [count_eq_refCount htable2, hzero, href]
  decide

end Jos
