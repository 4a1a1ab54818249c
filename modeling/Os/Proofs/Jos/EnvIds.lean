/-
How long an environment id stays unique.

An id is a generation and a slot.  `env_alloc` moves the slot's generation on by one,
and starts again at one when the sum leaves the positive range of a signed word.  With
ten bits of slot and a shift of twelve there are 2^19 - 1 generations, so the ids of a
slot go round with that period: `idAt` is the k-th of them.

A run keeps the list of the ids it has issued.  The claim to prove about it is that
the ids of each slot are exactly `idAt 0, idAt 1, …`; what is unique, and for how long,
can then be read off.
-/
import Os.Proofs.Jos.EnvTable

namespace Jos

open Runs List BitVec Option

variable {M : Machine} {s s' : Kern M} {c : CpuIdx} {e : EnvIdx}

/-- The number of generations. -/
abbrev generations : Nat := 524287

/-- The id of the environment that is the `k`-th, from zero, to be given slot `e`. -/
def idAt (e : EnvIdx) (k : Nat) : Word := BitVec.ofNat 32 (4096 * (k % generations + 1) + e.val)

theorem toNat_idAt (e : EnvIdx) (k : Nat) :
    (idAt e k).toNat = 4096 * (k % 524287 + 1) + e.val := by
  have he : e.val < 1024 := e.isLt
  unfold idAt
  show (4096 * (k % 524287 + 1) + e.val) % 2 ^ 32 = _
  omega

theorem envx_idAt (e : EnvIdx) (k : Nat) : envx (idAt e k) = e := by
  have he : e.val < 1024 := e.isLt
  apply Fin.ext
  rw [val_envx, toNat_idAt]
  omega

theorem idAt_eq_iff {j k : Nat} : idAt e j = idAt e k ↔ j % 524287 = k % 524287 := by
  constructor
  · intro h
    have hn := congrArg BitVec.toNat h
    rw [toNat_idAt, toNat_idAt] at hn
    omega
  · intro h
    apply eq_of_toNat_eq
    rw [toNat_idAt, toNat_idAt, h]

theorem nextEnvId_zero (e : EnvIdx) : nextEnvId 0 e = idAt e 0 := by
  apply eq_of_toNat_eq
  rw [toNat_nextEnvId, toNat_idAt]
  have hgen : (nextGen 0).toNat = 4096 := by decide
  omega

/-- **`env_alloc` moves on to the next id of the slot**, or round to the first. -/
theorem nextEnvId_idAt (e : EnvIdx) (k : Nat) : nextEnvId (idAt e k) e = idAt e (k + 1) := by
  have he : e.val < 1024 := e.isLt
  have hadd : (idAt e k + 4096).toNat = 4096 * (k % 524287 + 2) + e.val := by
    rw [toNat_add, toNat_idAt]
    show (4096 * (k % 524287 + 1) + e.val + 4096) % 2 ^ 32 = _
    omega
  have hmask := toNat_and_not_mask10 (idAt e k + 4096)
  have hsle := sle_zero_iff ((idAt e k + 4096) &&& ~~~0x3FF)
  apply eq_of_toNat_eq
  rw [toNat_nextEnvId, toNat_idAt]
  unfold nextGen
  split
  · rename_i hneg
    have h4096 : (4096 : Word).toNat = 4096 := rfl
    have := hsle.mp hneg
    omega
  · rename_i hpos
    have : ¬ (_ ∨ _) := fun hc => hpos (hsle.mpr hc)
    omega

/-! ### The ids a run issues -/

/-- The id an operation gives out. -/
def issuedBy (s : Kern M) : Op → Option Word
  | .envAlloc parentId =>
    match Jos.envAlloc s parentId with
    | (.error _, _) => none
    | (.ok e, s) => some (s.envs e).envId
  | .sysExofork c =>
    match Jos.sysExofork s c with
    | none => none
    | some (r, _) => if r < 0 then none else some (BitVec.ofInt 32 r)
  | _ => none

/-- An operation, and the ids issued so far. -/
def applyIds (x : Kern M × List Word) (op : Op) : Option (Kern M × List Word) :=
  (op.apply x.1).map fun s => (s, x.2 ++ (issuedBy x.1 op).toList)

/-- From `s` to `s'` slot `e` moves on to its next id and no other slot does. -/
def Advances (s s' : Kern M) (e : EnvIdx) : Prop :=
  ∀ i, (s'.envs i).envId = if i = e then nextEnvId (s.envs e).envId e else (s.envs i).envId

theorem envAlloc_advances {parentId : Word} (h : envAlloc s parentId = (.ok e, s')) :
    Advances s s' e := by
  rcases envAlloc_cases h with ⟨r, hc, -⟩ | ⟨e', p, pm1, he', -, -, rfl⟩
  · simp at hc
  cases he'
  intro i
  by_cases hi : i = e
  · subst hi
    simp [allocatedEnv]
  · simp [hi]

theorem envFree_id (h : envFree s e = some s') (i : EnvIdx) :
    (s'.envs i).envId = (s.envs i).envId := by
  obtain ⟨d, pm1, pm2, -, -, -, rfl⟩ := envFree_cases h
  by_cases hi : i = e
  · subst hi
    simp
  · simp [hi]

/-- An operation issues the next id of one slot, or issues none and no id changes. -/
theorem apply_ids {op : Op} (h : op.apply s = some s') :
    (issuedBy s op = none ∧ ∀ i, (s'.envs i).envId = (s.envs i).envId) ∨
    ∃ e, issuedBy s op = some (nextEnvId (s.envs e).envId e) ∧ Advances s s' e := by
  cases op with
  | envAlloc parentId =>
    simp only [Op.apply, some.injEq] at h
    cases ha : Jos.envAlloc s parentId with
    | mk x s1 =>
      rw [ha] at h
      subst h
      cases x with
      | error r =>
        rcases envAlloc_cases ha with ⟨r', -, -, rfl⟩ | ⟨e, p, pm1, hc, -⟩
        · exact .inl ⟨by simp [issuedBy, ha], fun _ => rfl⟩
        · simp at hc
      | ok e =>
        have hadv := envAlloc_advances ha
        refine .inr ⟨e, ?_, hadv⟩
        simp only [issuedBy, ha]
        rw [hadv e, if_pos rfl]
  | sysExofork c =>
    obtain ⟨⟨r, s1⟩, hx, rfl⟩ := map_eq_some_iff.mp h
    obtain ⟨k, -, ⟨hneg, rfl⟩ | ⟨e, s2, ha, rfl, rfl⟩⟩ := sysExofork_cases hx
    · exact .inl ⟨by simp [issuedBy, hx, hneg], fun _ => rfl⟩
    have hadv := envAlloc_advances ha
    have hid : (s2.envs e).envId = nextEnvId (s.envs e).envId e := by
      rw [hadv e, if_pos rfl]
    refine .inr ⟨e, ?_, ?_⟩
    · have hpos := (validId_nextEnvId (s.envs e).envId e).1
      simp only [issuedBy, hx, hid]
      rw [if_neg (by omega), ofInt_toInt]
    intro i
    rw [← hadv i]
    by_cases hi : i = e
    · simp [Kern.modifyEnv, hi]
    · simp [Kern.modifyEnv, hi]
  | regionAlloc e va len =>
    simp only [Op.apply] at h
    obtain ⟨pm, rfl⟩ := regionAlloc_pm h
    exact .inl ⟨rfl, fun _ => rfl⟩
  | sysPageAlloc c envid va perm =>
    obtain ⟨⟨r, s1⟩, hx, rfl⟩ := map_eq_some_iff.mp h
    obtain ⟨pm, rfl⟩ := sysPageAlloc_pm hx
    exact .inl ⟨rfl, fun _ => rfl⟩
  | sysPageMap c srcenvid srcva dstenvid dstva perm =>
    obtain ⟨⟨r, s1⟩, hx, rfl⟩ := map_eq_some_iff.mp h
    obtain ⟨pm, rfl⟩ := sysPageMap_pm hx
    exact .inl ⟨rfl, fun _ => rfl⟩
  | sysPageUnmap c envid va =>
    obtain ⟨⟨r, s1⟩, hx, rfl⟩ := map_eq_some_iff.mp h
    obtain ⟨pm, rfl⟩ := sysPageUnmap_pm hx
    exact .inl ⟨rfl, fun _ => rfl⟩
  | envDestroy c e =>
    obtain ⟨f, hf, rfl⟩ := map_eq_some_iff.mp h
    refine .inl ⟨rfl, fun i => ?_⟩
    rcases envDestroy_steps hf with hr | ⟨s1, hfree, hr⟩
    · exact hr.id i
    · exact (hr.id i).trans (envFree_id hfree i)
  | envFree e =>
    simp only [Op.apply] at h
    exact .inl ⟨rfl, envFree_id h⟩
  | setCurenv c k =>
    cases h
    exact .inl ⟨rfl, fun _ => rfl⟩

/-- The ids issued for one slot. -/
def slotIds (ids : List Word) (i : EnvIdx) : List Word := ids.filter fun id => envx id = i

/-- The ids issued so far, and the id each slot holds on to. -/
structure IdLog (s : Kern M) (ids : List Word) : Prop where
  slot : ∀ i, slotIds ids i = (range (slotIds ids i).length).map (idAt i)
  last : ∀ i, ((slotIds ids i).length = 0 ∧ (s.envs i).envId = 0) ∨
    ∃ k, (slotIds ids i).length = k + 1 ∧ (s.envs i).envId = idAt i k

namespace IdLog

variable {ids : List Word}

theorem next (h : IdLog s ids) (e : EnvIdx) :
    nextEnvId (s.envs e).envId e = idAt e (slotIds ids e).length := by
  rcases h.last e with ⟨hlen, hid⟩ | ⟨k, hlen, hid⟩
  · rw [hid, hlen, nextEnvId_zero]
  · rw [hid, hlen, nextEnvId_idAt]

theorem silent (h : IdLog s ids) (hid : ∀ i, (s'.envs i).envId = (s.envs i).envId) :
    IdLog s' ids := by
  refine ⟨h.slot, fun i => ?_⟩
  rw [hid i]
  exact h.last i

theorem advance (h : IdLog s ids) (hadv : Advances s s' e) :
    IdLog s' (ids ++ [nextEnvId (s.envs e).envId e]) := by
  have hnext := h.next e
  have hself : slotIds (ids ++ [nextEnvId (s.envs e).envId e]) e
      = slotIds ids e ++ [idAt e (slotIds ids e).length] := by
    rw [hnext]
    simp [slotIds, filter_append, envx_idAt]
  have hother : ∀ i, i ≠ e →
      slotIds (ids ++ [nextEnvId (s.envs e).envId e]) i = slotIds ids i := by
    intro i hi
    rw [hnext]
    simp [slotIds, filter_append, envx_idAt, Ne.symm hi]
  constructor
  · intro i
    by_cases hi : i = e
    · subst hi
      rw [hself, length_append, length_singleton, range_succ, map_append,
        ← h.slot i]
      rfl
    · rw [hother i hi]
      exact h.slot i
  · intro i
    by_cases hi : i = e
    · subst hi
      refine .inr ⟨(slotIds ids i).length, ?_, ?_⟩
      · rw [hself, length_append, length_singleton]
      · rw [hadv i, if_pos rfl, hnext]
    · rw [hother i hi, hadv i, if_neg hi]
      exact h.last i

theorem start (h : ∀ i, (s.envs i).envId = 0) : IdLog s [] :=
  ⟨fun _ => rfl, fun i => .inl ⟨rfl, h i⟩⟩

theorem run {ok : Kern M × List Word → Op → Prop} {s0 : Kern M} {ids0 : List Word}
    (h0 : IdLog s0 ids0) (hrun : Run applyIds ok (s0, ids0) (s, ids)) : IdLog s ids := by
  refine Run.inv (I := fun x => IdLog x.1 x.2) hrun h0 ?_
  rintro ⟨s, ids⟩ op ⟨s', ids'⟩ h - hstep
  obtain ⟨s1, hop, heq⟩ := map_eq_some_iff.mp hstep
  cases heq
  rcases apply_ids hop with ⟨hnone, hid⟩ | ⟨e, hsome, hadv⟩
  · rw [hnone]
    simpa using h.silent hid
  · rw [hsome]
    exact h.advance hadv

end IdLog

theorem getElem?_slotIds {ids : List Word} {i : EnvIdx} {j : Nat} (h : IdLog s ids)
    (hj : j < (slotIds ids i).length) : (slotIds ids i)[j]? = some (idAt i j) := by
  rw [h.slot i]
  simp [hj]

/-! ### Going round -/

/-- Slot 0 and page `p` are the next to be handed out. -/
structure Ready (s : Kern M) (p : Ppn M) : Prop where
  slot : s.envFreeList = some 0
  page : s.pm.pageFreeList = some p
  ref : (s.pm.pages p).ppRef = 0

/-- An environment that never maps anything can be created and freed again. -/
theorem Ready.cycle {p : Ppn M} (h : Ready s p) :
    ∃ s1 s2, envAlloc s 0 = (.ok 0, s1) ∧ envFree s1 0 = some s2 ∧ Ready s2 p := by
  obtain ⟨s1, hs1⟩ := envAlloc_of_free h.slot h.page 0
  refine ⟨s1, ?_⟩
  rcases envAlloc_cases hs1 with ⟨r, hc, -⟩ | ⟨e, p', pm1, he, -, halloc, rfl⟩
  · simp at hc
  cases he
  rcases pageAlloc_cases halloc with ⟨hc, -⟩ | ⟨p'', hp'', hhead, -, hpages, -, -⟩
  · simp at hc
  cases hp''
  rw [h.page] at hhead
  cases hhead
  have hfold : (finRange pdxUtop).foldlM (freePde p)
      ((pm1.incRef p).fill p (newPgdir (pm1.incRef p) p))
      = some ((pm1.incRef p).fill p (newPgdir (pm1.incRef p) p)) := by
    refine foldlM_stay fun i _ => ?_
    unfold freePde
    rw [if_pos]
    have hzero : ((pm1.incRef p).fill p (newPgdir (pm1.incRef p) p)).load (p, toPde i) = 0 := by
      simp [Pmap.load, Pmap.fill, newPgdir_user]
    rw [hzero]
    exact not_present_zero
  have hpm1 : pm1.pages p = { ppLink := none, ppRef := 0 } := by
    rw [hpages]
    simp [Pmap.setLink, h.ref]
  have hdec : ∃ pm2, pageDecref ((pm1.incRef p).fill p (newPgdir (pm1.incRef p) p)) p = some pm2 ∧
      pm2.pageFreeList = some p ∧ (pm2.pages p).ppRef = 0 := by
    simp [pageDecref, pageFree, Pmap.setRef, Pmap.setLink, Pmap.incRef, Pmap.fill, hpm1]
  obtain ⟨pm2, hdec, hlist, href⟩ := hdec
  exact ⟨_, hs1, envFree_of_steps (by simp [allocatedEnv]) hfold hdec, ⟨rfl, hlist, href⟩⟩

/-- The operations that create and free environments, and no others. -/
def CreateOrFree : Op → Prop
  | .envAlloc _ => True
  | .envFree _ => True
  | .sysExofork _ => True
  | _ => False

theorem slotIds_idAt (e : EnvIdx) (n : Nat) :
    slotIds ((range n).map (idAt e)) e = (range n).map (idAt e) := by
  simp [slotIds, envx_idAt]

theorem applyIds_envAlloc {n : Nat} (hlog : IdLog s ((range n).map (idAt e)))
    (h : envAlloc s 0 = (.ok e, s')) :
    applyIds (s, (range n).map (idAt e)) (.envAlloc 0)
      = some (s', (range (n + 1)).map (idAt e)) := by
  have hid : (s'.envs e).envId = idAt e n := by
    rw [envAlloc_advances h e, if_pos rfl, hlog.next e, slotIds_idAt]
    simp
  simp only [applyIds, Op.apply, issuedBy, h, hid, map_some, toList_some,
    range_succ, map_append, map_cons, map_nil]

/-- After `n` environments that were freed again, slot 0 has the next id, which resolves. -/
theorem Ready.rounds {ok : Kern M × List Word → Op → Prop} (hok : ∀ x op, CreateOrFree op → ok x op)
    {s0 : Kern M} {p : Ppn M} (h : Ready s0 p) (hid : ∀ i, (s0.envs i).envId = 0) (n : Nat) :
    ∃ s, Run applyIds ok (s0, []) (s, (range (n + 1)).map (idAt 0)) ∧
      envid2env s 0 (idAt 0 n) false = some (0, some 0) := by
  have hrounds : ∃ s, Run applyIds ok (s0, []) (s, (range n).map (idAt 0)) ∧ Ready s p := by
    induction n with
    | zero => exact ⟨s0, .start, h⟩
    | succ n ih =>
      obtain ⟨s, hrun, hready⟩ := ih
      obtain ⟨s1, s2, halloc, hfree, hready2⟩ := hready.cycle
      have hstep := applyIds_envAlloc ((IdLog.start hid).run hrun) halloc
      have hrun1 := hrun.next (hok _ (.envAlloc 0) trivial) hstep
      refine ⟨s2, hrun1.next (hok _ (.envFree 0) trivial) ?_, hready2⟩
      simp [applyIds, Op.apply, hfree, issuedBy]
  obtain ⟨s, hrun, hready⟩ := hrounds
  obtain ⟨s1, hs1⟩ := envAlloc_of_free hready.slot hready.page 0
  have hlog := (IdLog.start hid).run hrun
  refine ⟨s1, hrun.next (hok _ (.envAlloc 0) trivial) (applyIds_envAlloc hlog hs1), ?_⟩
  have hid1 : (s1.envs 0).envId = idAt 0 n := by
    rw [envAlloc_advances hs1 0, if_pos rfl, hlog.next 0, slotIds_idAt, length_map, length_range]
  have hlive : s1.live 0 := by
    rcases envAlloc_cases hs1 with ⟨r, hc, -⟩ | ⟨e, p, pm1, he, -, -, rfl⟩
    · simp at hc
    · cases he
      simp [Kern.live, allocatedEnv]
  have hz : idAt 0 n ≠ 0 := by
    intro hc
    have hnat := toNat_idAt 0 n
    rw [hc] at hnat
    simp at hnat
  simp only [envid2env]
  rw [if_neg hz, envx_idAt, if_neg (by simp [hid1, hlive]), if_neg (by simp)]

/-- Slot 0 and the first page are the next on a fresh machine. -/
theorem ready_fresh : Ready (envInit (Kern.fresh 1)) ⟨1, by decide⟩ := by
  obtain ⟨hpm, -, hlist⟩ := EnvTable.envInit_head (Kern.fresh 1)
  exact ⟨hlist, by rw [hpm]; rfl, by rw [hpm]; rfl⟩

/--
**How ids are issued**: each slot gives out `idAt 0`, `idAt 1`, … in this order.  No id
comes again within 524287 allocations of its slot, and an id resolves to the environment
it was issued to unless the slot has been allocated that often since.
-/
theorem ids_of_run {s0 : Kern M} {ids : List Word}
    (hrun : Run applyIds (fun _ _ => True) (envInit s0, []) (s, ids)) :
    (∀ i, slotIds ids i = (range (slotIds ids i).length).map (idAt i)) ∧
    (∀ i j k, j < k → k < (slotIds ids i).length → k - j < generations →
      (slotIds ids i)[j]? ≠ (slotIds ids i)[k]?) ∧
    ∀ c id checkperm e, id ≠ 0 → envid2env s c id checkperm = some (0, some e) →
      ∀ j, (slotIds ids e)[j]? = some id → (slotIds ids e).length ≤ j + generations →
        (slotIds ids e).length = j + 1 := by
  have hlog : IdLog s ids :=
    (IdLog.start fun i => (EnvTable.envInit_slot s0 i).2.1).run hrun
  refine ⟨hlog.slot, ?_, ?_⟩
  · intro i j k hjk hk hnear
    rw [getElem?_slotIds hlog hk, getElem?_slotIds hlog (by omega)]
    intro hc
    have hmod := idAt_eq_iff.mp (some.inj hc)
    have hnear' : k - j < 524287 := hnear
    omega
  · intro c id checkperm e hz hfind j hj hlen
    have hjlt : j < (slotIds ids e).length := (List.getElem?_eq_some_iff.mp hj).1
    rw [getElem?_slotIds hlog hjlt, some.injEq] at hj
    -- the slot holds the id it was given last, and the id that was looked up
    have hholds : (s.envs e).envId = id := by
      rcases envid2env_cases hfind with ⟨hc, -⟩ | ⟨-, hn, -, he⟩ | ⟨-, -, hc, -⟩
      · exact absurd hc hz
      · cases he
        exact hn.2.1
      · exact absurd hc (by decide)
    rcases hlog.last e with ⟨hc, -⟩ | ⟨k, hk, hid⟩
    · omega
    · rw [hholds, ← hj] at hid
      have hmod := idAt_eq_iff.mp hid
      have hlen' : (slotIds ids e).length ≤ j + 524287 := hlen
      omega

/-- An environment is created, freed and created again; its second id has been issued last. -/
theorem ids_of_run_fresh :
    ∃ (s : Kern (Machine.withFree 1)) (ids : List Word),
      Run applyIds (fun _ _ => True) (envInit (Kern.fresh 1), []) (s, ids) ∧ ids = [4096, 8192] ∧
      (slotIds ids 0)[0]? ≠ (slotIds ids 0)[1]? ∧
      envid2env s 0 8192 false = some (0, some 0) ∧ (slotIds ids 0).length = 1 + 1 := by
  obtain ⟨s, hrun, hfind⟩ := ready_fresh.rounds (fun _ _ _ => trivial)
    (fun i => (EnvTable.envInit_slot _ i).2.1) 1
  have hids := ids_of_run hrun
  exact ⟨s, _, hrun, by decide, hids.2.1 0 0 1 (by decide) (by decide) (by decide), hfind,
    hids.2.2 0 8192 false 0 (by decide) hfind 1 (by decide) (by decide)⟩

/--
The 524288th environment of a slot has the id of the first, which then resolves to it.
-/
theorem ids_come_round :
    ∃ (s : Kern (Machine.withFree 1)) (ids : List Word),
      Run applyIds (fun _ op => CreateOrFree op) (envInit (Kern.fresh 1), []) (s, ids) ∧
      ids[0]? = some 4096 ∧ ids[524287]? = some 4096 ∧
      envid2env s 0 4096 false = some (0, some 0) := by
  obtain ⟨s, hrun, hfind⟩ := ready_fresh.rounds (fun _ _ h => h)
    (fun i => (EnvTable.envInit_slot _ i).2.1) 524287
  -- the slot has been through all generations, so the first one is next
  have hfirst : idAt 0 524287 = 4096 := by decide
  rw [hfirst] at hfind
  refine ⟨s, _, hrun, ?_, ?_, hfind⟩
  · rw [List.getElem?_map, List.getElem?_range (by omega)]
    rfl
  · rw [List.getElem?_map, List.getElem?_range (by omega), map_some, hfirst]

end Jos
