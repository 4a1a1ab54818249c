/-
The environment table.

`env_free_list` threads the free slots of `envs[]`, and every other slot holds an
environment whose id ends in the slot's index.  That is `EnvTable`, and it is kept by
whatever the kernel does: `env_alloc` takes the head of the list, `env_free` puts a
slot back, and everything else schedules.

`env_free` does not look at `env_status`; freeing a slot twice would put it on the list
twice.  What prevents it is that a free slot has no page directory, so that the second
call faults.  `FreeSlots` is this part alone: the list and the directories, whatever the
statuses say.
-/
import Os.Proofs.Jos.Calls
import Os.Proofs.Jos.Start

namespace Jos

open Linked Runs List Option Function

variable {M : Machine} {s s' : Kern M} {c : CpuIdx} {e : EnvIdx}

/-! ### Environment ids -/

/-- The generation `env_alloc` moves to from the id `old`. -/
def nextGen (old : Word) : Word :=
  if ((old + 4096) &&& ~~~0x3FF).sle 0 then 4096 else (old + 4096) &&& ~~~0x3FF

theorem nextEnvId_eq (old : Word) (e : EnvIdx) :
    nextEnvId old e = nextGen old ||| BitVec.ofNat 32 e := rfl

/-- A generation is a positive signed number with ten low bits free. -/
theorem nextGen_spec (old : Word) :
    (nextGen old).toNat % 1024 = 0 ∧ 0 < (nextGen old).toNat ∧
      (nextGen old).toNat < 2147483648 := by
  have hmask := toNat_and_not_mask10 (old + 4096)
  unfold nextGen
  split
  · exact ⟨rfl, by decide, by decide⟩
  · rename_i hpos
    rw [sle_zero_iff] at hpos
    omega

theorem toNat_nextEnvId (old : Word) (e : EnvIdx) :
    (nextEnvId old e).toNat = (nextGen old).toNat + e.val := by
  have he : e.val < 1024 := e.isLt
  obtain ⟨hmod, -, -⟩ := nextGen_spec old
  have hshift : (nextGen old).toNat = ((nextGen old).toNat / 1024) <<< 10 := by
    omega
  have heN : (BitVec.ofNat 32 e.val).toNat = e.val := by
    rw [BitVec.toNat_ofNat]
    omega
  rw [nextEnvId_eq, BitVec.toNat_or, heN, hshift,
    ← Nat.shiftLeft_add_eq_or_of_lt (show e.val < 2 ^ 10 from he)]

/-- What an id in use looks like. -/
def ValidId (id : Word) (e : EnvIdx) : Prop := 0 < id.toInt ∧ envx id = e

theorem validId_nextEnvId (old : Word) (e : EnvIdx) : ValidId (nextEnvId old e) e := by
  have he : e.val < 1024 := e.isLt
  obtain ⟨hmod, hpos, hlt⟩ := nextGen_spec old
  have hnat := toNat_nextEnvId old e
  constructor
  · rw [BitVec.toInt_eq_toNat_cond]
    split <;> omega
  · apply Fin.ext
    rw [val_envx, hnat]
    omega

/-! ### The table -/

/-- The slots on `env_free_list`, in order. -/
def FreeEnvs (s : Kern M) (l : List EnvIdx) : Prop :=
  Chain (fun e => (s.envs e).envLink) s.envFreeList l

/-- The free list lists the slots that have no directory. -/
def FreeSlots (s : Kern M) : Prop :=
  ∃ l, FreeEnvs s l ∧ ∀ e, e ∈ l ↔ (s.envs e).envPgdir = none

structure EnvTable (s : Kern M) : Prop where
  slots : FreeSlots s
  /-- A free slot has no directory, and every other slot has one. -/
  pgdir : ∀ e, s.live e ↔ (s.envs e).envPgdir ≠ none
  id : ∀ e, s.live e → ValidId (s.envs e).envId e

theorem links_update (s : Kern M) (e : EnvIdx) (v : Env M) :
    (fun k => (update s.envs e v k).envLink)
      = update (fun k => (s.envs k).envLink) e v.envLink := by
  funext k
  by_cases hk : k = e
  · rw [hk, update_self, update_self]
  · rw [update_of_ne hk, update_of_ne hk]

namespace FreeSlots

section

variable (h : FreeSlots s)
include h

theorem congr (hlist : s'.envFreeList = s.envFreeList)
    (hlink : ∀ e, (s'.envs e).envLink = (s.envs e).envLink)
    (hpgdir : ∀ e, (s'.envs e).envPgdir = (s.envs e).envPgdir) : FreeSlots s' := by
  have hlinks : (fun e => (s'.envs e).envLink) = fun e => (s.envs e).envLink := funext hlink
  obtain ⟨l, hl, hmem⟩ := h
  refine ⟨l, ?_, fun e => ?_⟩
  · unfold FreeEnvs
    rw [hlinks, hlist]
    exact hl
  · rw [hpgdir e]
    exact hmem e

theorem same (hr : SameTables s s') : FreeSlots s' :=
  h.congr hr.freeList hr.link hr.pgdir

theorem head_none (he : s.envFreeList = some e) :
    (s.envs e).envPgdir = none := by
  obtain ⟨l, hl, hmem⟩ := h
  refine (hmem e).mp ?_
  cases l with
  | nil =>
    have hnil : s.envFreeList = none := hl
    rw [he] at hnil
    simp at hnil
  | cons a l =>
    have hhead : s.envFreeList = some a := hl.1
    rw [he] at hhead
    cases hhead
    simp

/-- An environment goes into the slot at the head of the list. -/
theorem envAlloc {parentId : Word} {x : Except Int EnvIdx}
    (ha : envAlloc s parentId = (x, s')) : FreeSlots s' := by
  rcases envAlloc_cases ha with ⟨r, -, -, rfl⟩ | ⟨e, p, pm1, -, he, -, rfl⟩
  · exact h
  obtain ⟨l, hl, hmem⟩ := h
  cases l with
  | nil =>
    have hnil : s.envFreeList = none := hl
    rw [he] at hnil
    simp at hnil
  | cons a l =>
    have hhead : s.envFreeList = some a := hl.1
    rw [he] at hhead
    cases hhead
    have hnd : e ∉ l := (nodup_cons.mp (Chain.nodup hl)).1
    refine ⟨l, ?_, fun k => ?_⟩
    · unfold FreeEnvs
      rw [links_update]
      exact Chain.pop hl
    by_cases hk : k = e
    · subst hk
      simp [hnd, allocatedEnv]
    · have hkm := hmem k
      simp only [mem_cons, hk, false_or] at hkm
      rw [hkm]
      simp [hk]

/-- A slot with an environment goes back to the head of the list. -/
theorem envFree (hf : envFree s e = some s') : FreeSlots s' := by
  obtain ⟨d, pm1, pm2, hd, -, -, rfl⟩ := envFree_cases hf
  obtain ⟨l, hl, hmem⟩ := h
  have hel : e ∉ l := fun hc => by
    rw [(hmem e).mp hc] at hd
    simp at hd
  refine ⟨e :: l, ?_, fun k => ?_⟩
  · unfold FreeEnvs
    rw [links_update]
    exact Chain.push hl hel
  by_cases hk : k = e
  · subst hk
    simp
  · rw [mem_cons, hmem k]
    simp [hk]

end

end FreeSlots

namespace EnvTable

section

variable (h : EnvTable s)
include h

theorem setPm (pm : Pmap M) : EnvTable { s with pm := pm } :=
  ⟨h.slots, h.pgdir, h.id⟩

theorem list : ∃ l, FreeEnvs s l ∧ ∀ e, e ∈ l ↔ ¬ s.live e := by
  obtain ⟨l, hl, hmem⟩ := h.slots
  refine ⟨l, hl, fun e => ?_⟩
  rw [hmem e, h.pgdir e, not_not]

theorem resched (hr : Resched s s') : EnvTable s' := by
  have hlive : ∀ e, s'.live e ↔ s.live e := fun e => not_congr (hr.free e)
  refine ⟨h.slots.same hr.toSameTables, fun e => ?_, fun e he => ?_⟩
  · rw [hlive e, hr.pgdir e]
    exact h.pgdir e
  · rw [hr.id e]
    exact h.id e ((hlive e).mp he)

theorem envAlloc {parentId : Word} {x : Except Int EnvIdx}
    (ha : envAlloc s parentId = (x, s')) : EnvTable s' := by
  have hslots := h.slots.envAlloc ha
  rcases envAlloc_cases ha with ⟨r, -, -, rfl⟩ | ⟨e, p, pm1, -, -, -, rfl⟩
  · exact h
  refine ⟨hslots, fun k => ?_, fun k hk' => ?_⟩
  · by_cases hk : k = e
    · subst hk
      simp [Kern.live, allocatedEnv]
    · simpa [Kern.live, hk] using h.pgdir k
  · by_cases hk : k = e
    · subst hk
      simpa [allocatedEnv] using validId_nextEnvId _ k
    · simp only [Kern.live, update_of_ne hk] at hk' ⊢
      exact h.id k hk'

theorem sysExofork {r : Int} (hx : sysExofork s c = some (r, s')) :
    EnvTable s' := by
  rcases sysExofork_steps hx with rfl | ⟨parentId, e, s1, ha, hr⟩
  · exact h
  · exact (h.envAlloc ha).resched hr

theorem envFree (hf : envFree s e = some s') : EnvTable s' := by
  have hslots := h.slots.envFree hf
  obtain ⟨d, pm1, pm2, -, -, -, rfl⟩ := envFree_cases hf
  refine ⟨hslots, fun k => ?_, fun k hk' => ?_⟩
  · by_cases hk : k = e
    · subst hk
      simp [Kern.live]
    · simpa [Kern.live, hk] using h.pgdir k
  · by_cases hk : k = e
    · subst hk
      simp [Kern.live] at hk'
    · simp only [Kern.live, update_of_ne hk] at hk' ⊢
      exact h.id k hk'

theorem envDestroy {f : Flow M Unit} (hd : envDestroy s c e = some f) :
    EnvTable f.state := by
  rcases envDestroy_steps hd with hr | ⟨s1, hfree, hr⟩
  · exact h.resched hr
  · exact (h.envFree hfree).resched hr

theorem apply {op : Op} (ha : op.apply s = some s') : EnvTable s' := by
  cases op with
  | envAlloc parentId =>
    cases ha
    exact h.envAlloc rfl
  | regionAlloc e va len =>
    simp only [Op.apply] at ha
    obtain ⟨pm, rfl⟩ := regionAlloc_pm ha
    exact h.setPm pm
  | sysExofork c =>
    obtain ⟨⟨r, s1⟩, hx, rfl⟩ := map_eq_some_iff.mp ha
    exact h.sysExofork hx
  | sysPageAlloc c envid va perm =>
    obtain ⟨⟨r, s1⟩, hx, rfl⟩ := map_eq_some_iff.mp ha
    obtain ⟨pm, rfl⟩ := sysPageAlloc_pm hx
    exact h.setPm pm
  | sysPageMap c srcenvid srcva dstenvid dstva perm =>
    obtain ⟨⟨r, s1⟩, hx, rfl⟩ := map_eq_some_iff.mp ha
    obtain ⟨pm, rfl⟩ := sysPageMap_pm hx
    exact h.setPm pm
  | sysPageUnmap c envid va =>
    obtain ⟨⟨r, s1⟩, hx, rfl⟩ := map_eq_some_iff.mp ha
    obtain ⟨pm, rfl⟩ := sysPageUnmap_pm hx
    exact h.setPm pm
  | envDestroy c e =>
    obtain ⟨f, hf, rfl⟩ := map_eq_some_iff.mp ha
    exact h.envDestroy hf
  | envFree e =>
    simp only [Op.apply] at ha
    exact h.envFree ha
  | setCurenv c k =>
    cases ha
    exact h.resched (Resched.setCurenv s c k)

end

/-! ### `env_init` -/

/-- The loop of `env_init`, from the last slot it has visited on. -/
theorem envInit_loop (s : Kern M) {l : List EnvIdx} (hnd : l.Nodup) :
    FreeEnvs (l.foldr envInitSlot { s with envFreeList := none }) l ∧
      (∀ e ∈ l, ¬ (l.foldr envInitSlot { s with envFreeList := none }).live e ∧
        ((l.foldr envInitSlot { s with envFreeList := none }).envs e).envId = 0) ∧
      ∀ e, ((l.foldr envInitSlot { s with envFreeList := none }).envs e).envPgdir
        = (s.envs e).envPgdir := by
  induction l with
  | nil => exact ⟨rfl, by simp, fun _ => rfl⟩
  | cons i l ih =>
    obtain ⟨hil, hnd'⟩ := nodup_cons.mp hnd
    obtain ⟨hchain, hfree, hpgdir⟩ := ih hnd'
    rw [foldr_cons]
    generalize l.foldr envInitSlot { s with envFreeList := none } = s1 at hchain hfree hpgdir
    refine ⟨?_, ?_, ?_⟩
    · have hlink : (fun k => ((envInitSlot i s1).envs k).envLink)
          = update (fun k => (s1.envs k).envLink) i s1.envFreeList := by
        funext k
        by_cases hk : k = i
        · simp [envInitSlot, Kern.modifyEnv, hk]
        · simp [envInitSlot, Kern.modifyEnv, hk]
      unfold FreeEnvs
      rw [hlink]
      exact Chain.push hchain hil
    · intro e he
      by_cases hei : e = i
      · simp [envInitSlot, Kern.modifyEnv, Kern.live, hei]
      · have hel : e ∈ l := by simpa [hei] using he
        simpa [envInitSlot, Kern.modifyEnv, Kern.live, hei] using hfree e hel
    · intro e
      rw [← hpgdir e]
      by_cases hei : e = i
      · simp [envInitSlot, Kern.modifyEnv, hei]
      · simp [envInitSlot, Kern.modifyEnv, hei]

/-- `env_init` clears every slot and leaves the directories alone. -/
theorem envInit_slot (s : Kern M) (e : EnvIdx) :
    ¬ (Jos.envInit s).live e ∧ ((Jos.envInit s).envs e).envId = 0 ∧
      ((Jos.envInit s).envs e).envPgdir = (s.envs e).envPgdir := by
  have hloop := envInit_loop s (nodup_finRange nenv)
  have hmem : e ∈ finRange nenv := mem_finRange e
  unfold Jos.envInit
  generalize finRange nenv = l at hloop hmem
  exact ⟨(hloop.2.1 e hmem).1, (hloop.2.1 e hmem).2, hloop.2.2 e⟩

/-- `env_init` does not touch the pages or the processors, and the list starts with slot 0. -/
theorem envInit_head (s : Kern M) :
    (Jos.envInit s).pm = s.pm ∧ (Jos.envInit s).cpus = s.cpus ∧
      (Jos.envInit s).envFreeList = some 0 := by
  have hkeep : ∀ l : List EnvIdx, (l.foldr envInitSlot { s with envFreeList := none }).pm = s.pm ∧
      (l.foldr envInitSlot { s with envFreeList := none }).cpus = s.cpus := by
    intro l
    induction l with
    | nil => exact ⟨rfl, rfl⟩
    | cons i l ih => exact ih
  have hhead : ∀ (i : EnvIdx) (l : List EnvIdx),
      ((i :: l).foldr envInitSlot { s with envFreeList := none }).envFreeList = some i :=
    fun _ _ => rfl
  have hfirst : ∃ l, finRange nenv = 0 :: l := ⟨_, finRange_succ⟩
  obtain ⟨l, hl⟩ := hfirst
  unfold Jos.envInit
  rw [hl]
  exact ⟨(hkeep _).1, (hkeep _).2, hhead 0 l⟩

theorem of_empty {l : List EnvIdx} (hl : FreeEnvs s l) (hmem : ∀ e, e ∈ l)
    (hdead : ∀ e ∈ l, ¬ s.live e) (hpgdir : ∀ e, (s.envs e).envPgdir = none) : EnvTable s := by
  have hdead' : ∀ e, ¬ s.live e := fun e => hdead e (hmem e)
  refine ⟨⟨l, hl, fun e => ?_⟩, fun e => ?_, fun e he => absurd he (hdead' e)⟩
  · simp [hmem e, hpgdir e]
  · simp [hdead' e, hpgdir e]

theorem envInit (h : ∀ e, (s.envs e).envPgdir = none) : EnvTable (envInit s) := by
  have hloop := envInit_loop s (nodup_finRange nenv)
  have hmem : ∀ e, e ∈ finRange nenv := mem_finRange
  unfold Jos.envInit
  generalize finRange nenv = l at hloop hmem
  exact of_empty hloop.1 hmem (fun e he => (hloop.2.1 e he).1) fun e => (hloop.2.2 e).trans (h e)

theorem run {l : List (Ppn M)} {s0 : Kern M} (h0 : MemInit l s0)
    (hrun : Run Op.apply (fun _ _ => True) (Jos.envInit s0) s) : EnvTable s :=
  hrun.inv (envInit h0.pgdir) fun _ _ _ h _ ha => h.apply ha

/-! ### Resolving an id -/

theorem eq_of_id (h : EnvTable s) {e' : EnvIdx} (he : s.live e) (he' : s.live e')
    (hid : (s.envs e).envId = (s.envs e').envId) : e = e' := by
  rw [← (h.id e he).2, ← (h.id e' he').2, hid]

theorem id_ne_zero (h : EnvTable s) (he : s.live e) : (s.envs e).envId ≠ 0 := by
  intro hc
  have hpos := (h.id e he).1
  rw [hc] at hpos
  exact absurd hpos (by decide)

end EnvTable

/-- `envid` is the id of `e`, and if `checkperm` is set the caller on `c` may name `e`. -/
def Names (s : Kern M) (c : CpuIdx) (envid : Word) (checkperm : Bool) (e : EnvIdx) : Prop :=
  s.live e ∧ (s.envs e).envId = envid ∧ (checkperm = true → MayName s c e)

/-- In a table that is in order, an id is looked for in the right slot. -/
theorem EnvTable.names_iff (h : EnvTable s) {envid : Word} {checkperm : Bool} :
    Names s c envid checkperm e ↔ e = envx envid ∧ Names s c envid checkperm (envx envid) := by
  constructor
  · intro hn
    have he : e = envx envid := by
      rw [← hn.2.1]
      exact ((h.id e hn.1).2).symm
    exact ⟨he, he ▸ hn⟩
  · rintro ⟨rfl, hn⟩
    exact hn

/-- `envid2env` faults when it has to compare a parent with a `curenv` that is not there. -/
theorem envid2env_eq_none {envid : Word} {checkperm : Bool} :
    envid2env s c envid checkperm = none ↔
      checkperm = true ∧ s.curenv c = none ∧ envid ≠ 0 ∧ s.live (envx envid) ∧
        (s.envs (envx envid)).envId = envid := by
  simp only [envid2env]
  split_ifs with hz hbad hcheck
  · simp [hz]
  · simp only [false_iff, not_and]
    intro _ _ _ hlive hid
    rcases hbad with hc | hc
    · exact hlive hc
    · exact hc hid
  · cases hcur : s.curenv c with
    | none =>
      simp only [true_iff]
      refine ⟨hcheck.1, trivial, hz, fun hc => hbad (.inl hc), ?_⟩
      by_contra hc
      exact hbad (.inr hc)
    | some k =>
      simp only [reduceCtorEq, false_and, and_false, iff_false]
      split <;> simp
  · simp only [false_iff, not_and]
    intro hp hcur
    exact absurd ⟨hp, by simp [hcur]⟩ hcheck

/--
**The environment table is in order** after any operations: the free list holds the free
slots, each once; ids are positive, carry the slot and tell environments apart; and
`envid2env` finds the environment an id names, or reports `-E_BAD_ENV`.
-/
theorem envTable_of_run {l : List (Ppn M)} {s0 : Kern M} (h0 : MemInit l s0)
    (hrun : Run Op.apply (fun _ _ => True) (envInit s0) s) :
    (∃ l, FreeEnvs s l ∧ l.Nodup ∧ ∀ e, e ∈ l ↔ (s.envs e).envStatus = .free) ∧
    (∀ e, s.live e → 0 < (s.envs e).envId.toInt ∧ envx (s.envs e).envId = e) ∧
    (∀ e e', s.live e → s.live e' → (s.envs e).envId = (s.envs e').envId → e = e') ∧
    ∀ c envid checkperm,
      (∀ r store, envid2env s c envid checkperm = some (r, store) →
        (r = 0 ↔ envid = 0 ∨ ∃ e, Names s c envid checkperm e) ∧
        (envid = 0 → store = s.curenv c) ∧
        (∀ e, Names s c envid checkperm e → store = some e) ∧
        (r ≠ 0 → r = -eBadEnv ∧ store = none)) ∧
      -- it fails to return only where there is no `curenv` to ask about
      (envid2env s c envid checkperm = none ↔
        checkperm = true ∧ s.curenv c = none ∧ ∃ e, Names s c envid false e) := by
  have h := EnvTable.run h0 hrun
  refine ⟨?_, h.id, fun e e' he he' hid => h.eq_of_id he he' hid, ?_⟩
  · obtain ⟨l, hl, hmem⟩ := h.list
    exact ⟨l, hl, Chain.nodup hl, fun e => (hmem e).trans not_not⟩
  intro c envid checkperm
  constructor
  · intro r store hr
    rcases envid2env_cases hr with ⟨rfl, rfl, rfl⟩ | ⟨hz, hn, rfl, rfl⟩ | ⟨hz, hn, rfl, rfl⟩
    · refine ⟨by simp, fun _ => rfl, ?_, by simp⟩
      intro e he
      exact absurd he.2.1 (h.id_ne_zero he.1)
    · refine ⟨by simp only [true_iff]; exact .inr ⟨envx envid, hn⟩, fun hc => absurd hc hz, ?_,
        by simp⟩
      intro e he
      rw [(h.names_iff.mp he).1]
    · have hnot : ¬ ∃ e, Names s c envid checkperm e := by
        rintro ⟨e, he⟩
        exact hn (h.names_iff.mp he).2
      refine ⟨iff_of_false (by decide) (not_or.mpr ⟨hz, hnot⟩), fun hc => absurd hc hz,
        fun e he => absurd ⟨e, he⟩ hnot, fun _ => ⟨rfl, rfl⟩⟩
  · rw [envid2env_eq_none]
    constructor
    · rintro ⟨hp, hcur, -, hlive, hid⟩
      exact ⟨hp, hcur, envx envid, hlive, hid, by simp⟩
    rintro ⟨hp, hcur, e, he⟩
    have hx := h.names_iff.mp he
    refine ⟨hp, hcur, ?_, hx.2.1, hx.2.2.1⟩
    intro hz
    exact h.id_ne_zero he.1 (he.2.1.trans hz)

/-- Of two environments the first is freed; then the second resolves and the first does not. -/
theorem envTable_of_run_fresh :
    ∃ s, Run Op.apply (fun _ _ => True) (envInit (Kern.fresh 8)) s ∧
      (∃ l, FreeEnvs s l ∧ l.Nodup ∧ ∀ e, e ∈ l ↔ (s.envs e).envStatus = .free) ∧
      envid2env s 0 4096 false = some (-eBadEnv, none) ∧ (¬ ∃ e, Names s 0 4096 false e) ∧
      envid2env s 0 4097 false = some (0, some 1) ∧ ∃ e, Names s 0 4097 false e := by
  let ops : List Op := [.envAlloc 0, .envAlloc 0, .envFree 0]
  have heval : ((ops.foldlM Op.apply (envInit (Kern.fresh 8))).map fun s =>
        (envid2env s 0 4096 false, envid2env s 0 4097 false)) =
      some (some (-eBadEnv, none), some (0, some 1)) := by
    decide +kernel
  obtain ⟨s, hs, hfind⟩ := map_eq_some_iff.mp heval
  obtain ⟨hfirst, hsecond⟩ := Prod.mk.inj hfind
  have hrun : Run Op.apply (fun _ _ => True) _ s := .of_foldlM hs fun _ _ _ => trivial
  obtain ⟨hlist, -, -, hids⟩ := envTable_of_run (memInit_fresh 8) hrun
  have hgone := ((hids 0 4096 false).1 _ _ hfirst).1
  have hthere := ((hids 0 4097 false).1 _ _ hsecond).1.mp rfl
  exact ⟨s, hrun, hlist, hfirst, fun h => absurd (hgone.mpr (.inr h)) (by decide), hsecond,
    hthere.resolve_left (by decide)⟩

end Jos
