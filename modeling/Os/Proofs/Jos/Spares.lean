/-
What one processor does to the environments of the others.

A trap is one atomic step of one processor, and while it lasts the other processors go
on executing their environments.  `Spares T w s s'` says that the step of `w` has left
those alone: they are still current, in the same slot with the same id and directory,
and their status has changed in a way `T` tolerates.  `T` is a parameter because two
properties need different things of it.

Inside the kernel the processor's own environment is in no particular state; it may be
dying, freed or made runnable.  `Within` is `Spares` with what has to be known of it
meanwhile, and `Placed w` the invariant that exempts it.
-/
import Os.Proofs.Jos.EnvTable
import Os.Proofs.Jos.UserWrites

namespace Jos

open Runs RefMap Function

variable {M : Machine} {s s' s'' : Kern M} {c : CpuIdx} {e k : EnvIdx}
variable {T : EnvStatus → EnvStatus → Prop} {w : Option CpuIdx}

/-- The processor at work, if any, has left the environments of the others alone. -/
structure Spares (T : EnvStatus → EnvStatus → Prop) (w : Option CpuIdx) (s s' : Kern M) :
    Prop where
  curenv : ∀ c, w ≠ some c → s'.curenv c = s.curenv c
  env : ∀ c e, w ≠ some c → s.curenv c = some e →
    (s'.envs e).envId = (s.envs e).envId ∧ (s'.envs e).envPgdir = (s.envs e).envPgdir ∧
      (s'.envs e).envCpunum = (s.envs e).envCpunum ∧
      T (s.envs e).envStatus (s'.envs e).envStatus

/-- The same in the middle of a step. -/
structure Within (T : EnvStatus → EnvStatus → Prop) (w : Option CpuIdx) (s s' : Kern M) : Prop
    extends Spares T w s s' where
  slots : FreeSlots s → FreeSlots s'
  own : ∀ c e, w = some c → s'.curenv c = some e → s.curenv c = some e
  cpunum : ∀ e, (s'.envs e).envCpunum = (s.envs e).envCpunum

/-- An environment that executes, whether or not it has been destroyed meanwhile. -/
def Busy (st : EnvStatus) : Prop := st = .running ∨ st = .dying

/-- What is asked of a tolerance: a running environment may be marked, and an environment that
executes is not made runnable. -/
structure Tolerance (T : EnvStatus → EnvStatus → Prop) : Prop where
  refl : ∀ a, T a a
  trans : ∀ {a b c}, T a b → T b c → T a c
  dying : T .running .dying
  busy : ∀ {a b}, T a b → Busy a → Busy b

theorem Spares.trans (hT : Tolerance T) (h : Spares T w s s') (h' : Spares T w s' s'') :
    Spares T w s s'' where
  curenv c hc := (h'.curenv c hc).trans (h.curenv c hc)
  env c e hc he := by
    obtain ⟨hid, hpg, hcpu, hst⟩ := h.env c e hc he
    obtain ⟨hid', hpg', hcpu', hst'⟩ := h'.env c e hc ((h.curenv c hc).trans he)
    exact ⟨hid'.trans hid, hpg'.trans hpg, hcpu'.trans hcpu, hT.trans hst hst'⟩

/-- Every processor but `w` has its environment to itself. -/
structure Placed (w : Option CpuIdx) (s : Kern M) : Prop where
  slots : FreeSlots s
  cpu : ∀ c e, s.curenv c = some e → (s.envs e).envCpunum = c
  there : ∀ c e, w ≠ some c → s.curenv c = some e →
    (s.envs e).envPgdir ≠ none ∧ Busy (s.envs e).envStatus

theorem Placed.unique (h : Placed w s) {c' : CpuIdx} (hc : s.curenv c = some e)
    (hc' : s.curenv c' = some e) : c = c' :=
  (h.cpu c e hc).symm.trans (h.cpu c' e hc')

theorem Placed.exempt (h : Placed none s) (w : Option CpuIdx) : Placed w s :=
  ⟨h.slots, h.cpu, fun c e _ => h.there c e (by simp)⟩

/-- The environment of one processor is not that of another one. -/
theorem Placed.not_other (h : Placed (some c) s) (hcur : s.curenv c = some e) :
    ∀ c', some c ≠ some c' → s.curenv c' ≠ some e :=
  fun _ hne hc' => hne (congrArg some (h.unique hcur hc'))

/-! ### Steps that only write registers and memory -/

/-- Nothing that matters to scheduling has changed. -/
structure Quiet (s s' : Kern M) : Prop where
  curenv : ∀ c, s'.curenv c = s.curenv c
  freeList : s'.envFreeList = s.envFreeList
  link : ∀ e, (s'.envs e).envLink = (s.envs e).envLink
  id : ∀ e, (s'.envs e).envId = (s.envs e).envId
  pgdir : ∀ e, (s'.envs e).envPgdir = (s.envs e).envPgdir
  cpunum : ∀ e, (s'.envs e).envCpunum = (s.envs e).envCpunum
  status : ∀ e, (s'.envs e).envStatus = (s.envs e).envStatus

namespace Quiet

theorem refl (s : Kern M) : Quiet s s :=
  ⟨fun _ => rfl, rfl, fun _ => rfl, fun _ => rfl, fun _ => rfl, fun _ => rfl, fun _ => rfl⟩

theorem trans (h : Quiet s s') (h' : Quiet s' s'') : Quiet s s'' where
  curenv c := (h'.curenv c).trans (h.curenv c)
  freeList := h'.freeList.trans h.freeList
  link e := (h'.link e).trans (h.link e)
  id e := (h'.id e).trans (h.id e)
  pgdir e := (h'.pgdir e).trans (h.pgdir e)
  cpunum e := (h'.cpunum e).trans (h.cpunum e)
  status e := (h'.status e).trans (h.status e)

theorem setPm (s : Kern M) (pm : Pmap M) : Quiet s { s with pm := pm } :=
  ⟨fun _ => rfl, rfl, fun _ => rfl, fun _ => rfl, fun _ => rfl, fun _ => rfl, fun _ => rfl⟩

theorem setCpuStatus (s : Kern M) (c : CpuIdx) (st : CpuStatus) : Quiet s (s.setCpuStatus c st) :=
  ⟨fun c' => curenv_setCpuStatus s c c' st, rfl, fun _ => rfl, fun _ => rfl, fun _ => rfl,
    fun _ => rfl, fun _ => rfl⟩

theorem setTf (s : Kern M) (e : EnvIdx) (g : Env M → Trapframe) (t : Env M → EnvType) :
    Quiet s (s.modifyEnv e fun v => { v with envTf := g v, envType := t v }) := by
  refine ⟨fun _ => rfl, rfl, ?_, ?_, ?_, ?_, ?_⟩ <;> intro k <;> by_cases hk : k = e
  all_goals first
    | (subst hk; simp [Kern.modifyEnv])
    | simp [Kern.modifyEnv, update_of_ne hk]

theorem trapEntry (s : Kern M) (c : CpuIdx) (e : EnvIdx) (tf : Trapframe) :
    Quiet s (trapEntry s c e tf) :=
  (setCpuStatus s c .started).trans (setTf _ e (fun _ => tf) fun v => v.envType)

theorem setEax (s : Kern M) (e : EnvIdx) (r : Int) : Quiet s (setEax s (some e) r) :=
  setTf s e (fun v => { v.envTf with
    tfRegs := { v.envTf.tfRegs with regEax := BitVec.ofInt 32 r } }) fun v => v.envType

end Quiet

namespace Within

section Basic

variable (hT : Tolerance T)
include hT

theorem quiet (h : Quiet s s') : Within T w s s' where
  curenv c _ := h.curenv c
  env c e _ _ := ⟨h.id e, h.pgdir e, h.cpunum e, by rw [h.status e]; exact hT.refl _⟩
  slots hs := hs.congr h.freeList h.link h.pgdir
  own c e _ hc := by rw [← h.curenv c]; exact hc
  cpunum := h.cpunum

theorem trans (h : Within T w s s') (h' : Within T w s' s'') : Within T w s s'' where
  curenv c hc := (h'.curenv c hc).trans (h.curenv c hc)
  env := (h.toSpares.trans hT h'.toSpares).env
  slots hs := h'.slots (h.slots hs)
  own c e hw hc := h.own c e hw (h'.own c e hw hc)
  cpunum e := (h'.cpunum e).trans (h.cpunum e)

end Basic

section

variable (hT : Tolerance T)
include hT

/-- One environment is rewritten; should another processor execute it, its status changes as
`T` has it. -/
theorem modify {f : Env M → Env M}
    (hother : ∀ c, w ≠ some c → s.curenv c = some e →
      (f (s.envs e)).envId = (s.envs e).envId ∧
        T (s.envs e).envStatus (f (s.envs e)).envStatus)
    (hlink : (f (s.envs e)).envLink = (s.envs e).envLink)
    (hpgdir : (f (s.envs e)).envPgdir = (s.envs e).envPgdir)
    (hcpu : (f (s.envs e)).envCpunum = (s.envs e).envCpunum) :
    Within T w s (s.modifyEnv e f) := by
  have hat : ∀ k, k ≠ e → (s.modifyEnv e f).envs k = s.envs k := fun k hk => by
    simp [Kern.modifyEnv, update_of_ne hk]
  have hself : (s.modifyEnv e f).envs e = f (s.envs e) := by simp [Kern.modifyEnv]
  refine ⟨⟨fun _ _ => rfl, fun c k hc hk => ?_⟩, fun hs => hs.congr rfl
    (proj_update Env.envLink hlink) (proj_update Env.envPgdir hpgdir), fun _ _ _ h => h,
    proj_update Env.envCpunum hcpu⟩
  by_cases hke : k = e
  · subst hke
    obtain ⟨hid, hst⟩ := hother c hc hk
    rw [hself]
    exact ⟨hid, hpgdir, hcpu, hst⟩
  · rw [hat k hke]
    exact ⟨rfl, rfl, rfl, hT.refl _⟩

theorem release (s : Kern M) (c : CpuIdx) :
    Within T (some c) s (s.setCurenv c none) where
  curenv c' hc := by
    have hne : c' ≠ c := fun h => hc (congrArg some h.symm)
    simp [Kern.curenv, Kern.setCurenv, update_of_ne hne]
  env _ _ _ _ := ⟨rfl, rfl, rfl, hT.refl _⟩
  slots hs := hs
  own c' e hc h := by
    cases hc
    simp [Kern.curenv, Kern.setCurenv] at h
  cpunum _ := rfl

/-- A new environment goes into a slot that nobody executes. -/
theorem envAlloc {parentId : Word} {x : Except Int EnvIdx} (h : Placed w s)
    (ha : envAlloc s parentId = (x, s')) : Within T w s s' := by
  have hslots : FreeSlots s' := h.slots.envAlloc ha
  rcases envAlloc_cases ha with ⟨r, -, -, rfl⟩ | ⟨e, p, pm1, -, he, -, rfl⟩
  · exact quiet hT (.refl _)
  have hnone := h.slots.head_none he
  refine ⟨⟨fun _ _ => rfl, fun c k hc hk => ?_⟩, fun _ => hslots, fun _ _ _ hk => hk, fun k => ?_⟩
  · have hne : k ≠ e := by
      rintro rfl
      exact (h.there c k hc hk).1 hnone
    simpa [update_of_ne hne] using hT.refl _
  · by_cases hk : k = e
    · subst hk
      simp [allocatedEnv]
    · simp [update_of_ne hk]

/-- Freeing an environment that no other processor executes. -/
theorem envFree (hother : ∀ c, w ≠ some c → s.curenv c ≠ some e)
    (hf : envFree s e = some s') : Within T w s s' := by
  have hslots : FreeSlots s → FreeSlots s' := fun hs => hs.envFree hf
  obtain ⟨d, pm1, pm2, -, -, -, rfl⟩ := envFree_cases hf
  refine ⟨⟨fun _ _ => rfl, fun c k hc hk => ?_⟩, hslots, fun _ _ _ hk => hk, fun k => ?_⟩
  · have hne : k ≠ e := by
      rintro rfl
      exact hother c hc hk
    simpa [update_of_ne hne] using hT.refl _
  · by_cases hk : k = e
    · subst hk
      simp
    · simp [update_of_ne hk]

/-- `env_destroy` that returns has marked its victim, or freed one that nobody executes. -/
theorem envDestroy
    (hother : ∀ c', c' ≠ c → s.curenv c' = some e → (s.envs e).envStatus = .running)
    (hd : envDestroy s c e = some (.ret () s')) : Within T (some c) s s' := by
  rcases envDestroy_cases hd with ⟨hrun, -, hs⟩ | ⟨s1, hfree, ⟨-, hidle, hs⟩ | ⟨-, s2, -, hs⟩⟩
  · cases hs
    refine modify hT (fun c' _ _ => ⟨rfl, ?_⟩) rfl rfl rfl
    rw [hrun]
    exact hT.dying
  · cases hs
    refine envFree hT (fun c' hc' hcur => hidle (hother c' ?_ hcur)) hfree
    exact fun h => hc' (congrArg some h.symm)
  · simp at hs

theorem sysExofork {r : Int} (h : Placed (some c) s)
    (hx : sysExofork s c = some (r, s')) : Within T (some c) s s' := by
  obtain ⟨k, -, ⟨-, rfl⟩ | ⟨e, s1, ha, -, rfl⟩⟩ := sysExofork_cases hx
  · exact quiet hT (.refl _)
  have hw := envAlloc hT h ha
  refine hw.trans hT (modify hT (fun c' hc' hcur => ?_) rfl rfl rfl)
  -- the new slot was free, so nobody executes it
  exfalso
  rw [hw.curenv c' hc'] at hcur
  rcases envAlloc_cases ha with ⟨r', hc, -⟩ | ⟨e', p, pm1, he', hfree, -, -⟩
  · simp at hc
  · cases he'
    exact (h.there c' e hc' hcur).1 (h.slots.head_none hfree)

end

end Within

section

variable (hT : Tolerance T)
include hT

/-- In the middle of a step the others stay where they are. -/
theorem Placed.within (h : Placed w s) (hw : Within T w s s') :
    Placed w s' := by
  refine ⟨hw.slots h.slots, fun c e he => ?_, fun c e hc he => ?_⟩
  · rw [hw.cpunum e]
    by_cases hc : w = some c
    · exact h.cpu c e (hw.own c e hc he)
    · rw [hw.curenv c hc] at he
      exact h.cpu c e he
  · rw [hw.curenv c hc] at he
    obtain ⟨-, hpg, -, hst⟩ := hw.env c e hc he
    obtain ⟨hdir, hbusy⟩ := h.there c e hc he
    exact ⟨by rw [hpg]; exact hdir, hT.busy hst hbusy⟩

/-! ### Leaving the kernel -/

/-- Executing an environment that no other processor executes. -/
theorem Placed.envRun (h : Placed (some c) s)
    (hfree : ∀ c', some c ≠ some c' → s.curenv c' ≠ some k) (hr : envRun s c k = some s') :
    Spares T (some c) s s' ∧ Placed none s' := by
  have hslots : FreeSlots s' := h.slots.same (.envRun hr)
  obtain ⟨hcur, hcur', ⟨hrun, hcpu, hdir, -⟩, henv⟩ := envRun_cases hr
  -- an environment of another processor is not `k`, and not the old one either
  have hsame : ∀ c' e, some c ≠ some c' → s.curenv c' = some e → s'.envs e = s.envs e := by
    intro c' e hc' he
    have hek : e ≠ k := by
      rintro rfl
      exact hfree c' hc' he
    rcases henv e hek with heq | ⟨hold, -⟩
    · exact heq
    · exact absurd he (h.not_other hold c' hc')
  have hcurenv : ∀ c', some c ≠ some c' → s'.curenv c' = s.curenv c' :=
    fun c' hc' => hcur' c' fun hc => hc' (congrArg some hc.symm)
  refine ⟨⟨hcurenv, fun c' e hc' he => ?_⟩, hslots, fun c' e he => ?_, fun c' e _ he => ?_⟩
  · rw [hsame c' e hc' he]
    exact ⟨rfl, rfl, rfl, hT.refl _⟩
  · by_cases hc' : some c = some c'
    · cases hc'
      rw [hcur] at he
      cases he
      exact hcpu
    · rw [hcurenv c' hc'] at he
      rw [hsame c' e hc' he]
      exact h.cpu c' e he
  · by_cases hc' : some c = some c'
    · cases hc'
      rw [hcur] at he
      cases he
      exact ⟨hdir, .inl hrun⟩
    · rw [hcurenv c' hc'] at he
      rw [hsame c' e hc' he]
      exact h.there c' e hc' he

/-- The scheduler takes a runnable environment, which nobody executes, or goes on with one
whose `env_cpunum` is the processor itself. -/
theorem Placed.schedYield (h : Placed (some c) s)
    (hs : schedYield s c = some s') : Spares T (some c) s s' ∧ Placed none s' := by
  rcases schedYield_cases hs with ⟨k, hrunnable | hmine, hrun⟩ | rfl
  · refine h.envRun hT (fun c' hc' hcur => ?_) hrun
    rcases (h.there c' k hc' hcur).2 with hst | hst
    · rw [hrunnable] at hst
      cases hst
    · rw [hrunnable] at hst
      cases hst
  · refine h.envRun hT (fun c' hc' hcur => hc' ?_) hrun
    rw [← hmine.2, h.cpu c' _ hcur]
  · have hcur : ((s.setCurenv c none).setCpuStatus c .halted).curenv c = none := by
      rw [curenv_setCpuStatus]
      simp [Kern.curenv, Kern.setCurenv]
    have hother : ∀ c', some c ≠ some c' →
        ((s.setCurenv c none).setCpuStatus c .halted).curenv c' = s.curenv c' := by
      intro c' hc'
      rw [curenv_setCpuStatus]
      exact (Within.release hT s c).curenv c' hc'
    refine ⟨⟨hother, fun _ _ _ _ => ⟨rfl, rfl, rfl, hT.refl _⟩⟩, h.slots, ?_, ?_⟩
    · intro c' e he
      by_cases hc' : some c = some c'
      · cases hc'
        rw [hcur] at he
        simp at he
      · rw [hother c' hc'] at he
        exact h.cpu c' e he
    · intro c' e _ he
      by_cases hc' : some c = some c'
      · cases hc'
        rw [hcur] at he
        simp at he
      · rw [hother c' hc'] at he
        exact h.there c' e hc' he

theorem Placed.trapReturn (h : Placed (some c) s)
    (hs : trapReturn s c = some s') : Spares T (some c) s s' ∧ Placed none s' := by
  unfold Jos.trapReturn at hs
  split at hs
  · exact h.schedYield hT hs
  · rename_i e he
    split at hs
    · exact h.envRun hT (h.not_other he) hs
    · exact h.schedYield hT hs

/-- First something happens inside the kernel, and then the processor leaves it. -/
theorem Within.leave (hw : Within T w s s')
    (h : Spares T w s' s'' ∧ Placed none s'') : Spares T w s s'' ∧ Placed none s'' :=
  ⟨hw.toSpares.trans hT h.1, h.2⟩

/-! ### System calls and traps -/

/-- The current environment is freed, and the processor looks for another one. -/
theorem Placed.kill (h : Placed (some c) s) (hcur : s.curenv c = some e)
    {s1 : Kern M} (hfree : envFree s e = some s1)
    (hs : Jos.schedYield (s1.setCurenv c none) c = some s') :
    Spares T (some c) s s' ∧ Placed none s' := by
  have hw := (Within.envFree hT (h.not_other hcur) hfree).trans hT (Within.release hT s1 c)
  exact hw.leave hT ((h.within hT hw).schedYield hT hs)

theorem Placed.leaves (h : Placed (some c) s) (hl : Leaves c s s') :
    Spares T (some c) s s' ∧ Placed none s' := by
  cases hl with
  | kill hcur hfree hs => exact h.kill hT hcur hfree hs
  | yield hs => exact h.schedYield hT hs
  | @fault e d pm tf va _ hcur hd hstore hrun =>
    have hq := (Quiet.setPm s pm).trans (Quiet.setTf _ e (fun v => { v.envTf with
      tfEip := v.envPgfaultUpcall, tfEsp := utfAddr tf.tfEsp }) fun v => v.envType)
    have hw : Within T (some c) s _ := .quiet hT hq
    refine hw.leave hT ((h.within hT hw).envRun hT (fun c' hc' hc => ?_) hrun)
    exact h.not_other hcur c' hc' ((hq.curenv c').symm.trans hc)

end

/-- A call that names an environment which another processor executes destroys it only while
it is running, and sets its status only as `ok` has it. -/
def Considerate (ok : EnvStatus → EnvStatus → Prop) (s : Kern M) : Event → Prop
  | .trap c _ tf => tf.tfTrapno = tSyscall → ∀ e c',
      lookupEnv s c tf.tfRegs.regEdx = some (.ok e) → c' ≠ c → s.curenv c' = some e →
      (tf.tfRegs.regEax = sysNoEnvDestroy → (s.envs e).envStatus = .running) ∧
        (tf.tfRegs.regEax = sysNoEnvSetStatus → ∀ st,
          statusArg tf.tfRegs.regEcx = some st → ok (s.envs e).envStatus st)
  | _ => True

/-- The two statuses a call can set are only set where `T` has it. -/
def Respects (ok T : EnvStatus → EnvStatus → Prop) : Prop :=
  ∀ a st, st = .runnable ∨ st = .running → ok a st → T a st

theorem Call.within {no a1 a2 a3 a4 a5 : Word} (hT : Tolerance T) (h : Placed (some c) s)
    (hdestroy : no = sysNoEnvDestroy → ∀ e c', lookupEnv s c a1 = some (.ok e) → c' ≠ c →
      s.curenv c' = some e → (s.envs e).envStatus = .running)
    (hset : no = sysNoEnvSetStatus → ∀ e c' st, lookupEnv s c a1 = some (.ok e) → c' ≠ c →
      s.curenv c' = some e → statusArg a2 = some st → T (s.envs e).envStatus st)
    (hc : Call c no a1 a2 a3 a4 a5 s s') : Within T (some c) s s' := by
  cases hc with
  | idle => exact .quiet hT (.refl s)
  | destroy hno he hd => exact .envDestroy hT (fun c' => hdestroy hno _ c' he) hd
  | exofork _ hx => exact .sysExofork hT h hx
  | pageAlloc _ hx =>
    obtain ⟨pm, rfl⟩ := sysPageAlloc_pm hx
    exact .quiet hT (.setPm s pm)
  | pageMap _ hx =>
    obtain ⟨pm, rfl⟩ := sysPageMap_pm hx
    exact .quiet hT (.setPm s pm)
  | pageUnmap _ hx =>
    obtain ⟨pm, rfl⟩ := sysPageUnmap_pm hx
    exact .quiet hT (.setPm s pm)
  | setStatus hno hx =>
    rcases sysEnvSetStatus_cases hx with rfl | ⟨st, e, hst, he, rfl⟩
    · exact Within.quiet hT (Quiet.refl _)
    · refine Within.modify hT (fun c' hc' hcur => ⟨rfl, ?_⟩) rfl rfl rfl
      exact hset hno e c' st he (fun heq => hc' (congrArg some heq.symm)) hcur hst

theorem Placed.trap {o : Outside} {tf : Trapframe} {ok : EnvStatus → EnvStatus → Prop}
    (hT : Tolerance T) (hok : Respects ok T) (h : Placed none s)
    (hev : Considerate ok s (.trap c o tf)) (huser : tf.tfCs &&& 3 = 3)
    (ht : trap s c o tf = some s') : Spares T (some c) s s' ∧ Placed none s' := by
  obtain ⟨e, hcur, ⟨-, s1, hfree, hs⟩ | ⟨-, hrest⟩⟩ := trap_cases huser ht
  · have hw : Within T (some c) s _ := .quiet hT (.setCpuStatus s c .started)
    refine hw.leave hT (((h.exempt _).within hT hw).kill hT ?_ hfree hs)
    rw [curenv_setCpuStatus]
    exact hcur
  have hq := Quiet.trapEntry s c e tf
  have hw : Within T (some c) s (trapEntry s c e tf) := .quiet hT hq
  have h0 : Placed (some c) (trapEntry s c e tf) := (h.exempt _).within hT hw
  rcases hrest with hl | ⟨r, s1, ⟨hsys, hcall⟩, hret⟩
  · exact hw.leave hT (h0.leaves hT hl)
  have hin : Within T (some c) (trapEntry s c e tf) s1 := by
    refine hcall.within hT h0 (fun hno e' c' he' hc' hcur' => ?_)
      fun hno e' c' st he' hc' hcur' hst => ?_
    · rw [lookupEnv_trapEntry] at he'
      rw [hq.curenv] at hcur'
      rw [hq.status]
      exact (hev hsys e' c' he' hc' hcur').1 hno
    · rw [lookupEnv_trapEntry] at he'
      rw [hq.curenv] at hcur'
      rw [hq.status]
      exact hok _ _ (statusArg_eq_some hst) ((hev hsys e' c' he' hc' hcur').2 hno st hst)
  have hall := (hw.trans hT hin).trans hT (.quiet hT (.setEax s1 e r))
  exact hall.leave hT (((h.exempt _).within hT hall).trapReturn hT hret)

/-! ### Every event -/

theorem regionAlloc_quiet {va len : Word} (h : regionAlloc s e va len = some s') :
    Quiet s s' := by
  obtain ⟨pm, rfl⟩ := regionAlloc_pm h
  exact .setPm s pm

theorem loadSegment_quiet {elf : Elf} {ph : Proghdr} (h : loadSegment e elf s ph = some s') :
    Quiet s s' := by
  unfold loadSegment at h
  split at h
  · cases h
    exact .refl _
  split at h
  · simp at h
  split at h
  · simp at h
  rename_i s1 hregion
  split at h
  · simp at h
  · split at h
    · simp at h
    · cases h
      exact (regionAlloc_quiet hregion).trans (.setPm s1 _)

theorem loadIcode_quiet {elf : Elf} (h : loadIcode s e elf = some s') : Quiet s s' := by
  unfold loadIcode at h
  split_ifs at h
  simp only at h
  split at h
  · simp at h
  rename_i s1 hload
  have hentry : Quiet s (s.modifyEnv e fun v =>
      { v with envTf := { v.envTf with tfEip := elf.eEntry } }) :=
    Quiet.setTf s e (fun v => { v.envTf with tfEip := elf.eEntry }) fun v => v.envType
  have hsegs : Quiet s s1 :=
    foldlM_rule (P := fun _ s1 => Quiet s s1) hload hentry
      fun _ _ _ _ _ h2 hstep => h2.trans (loadSegment_quiet hstep)
  exact hsegs.trans (regionAlloc_quiet h)

theorem Within.envCreate {elf : Elf} {type : EnvType} (hT : Tolerance T) (h : Placed none s)
    (hc : envCreate s elf type = some s') : Within T none s s' := by
  unfold Jos.envCreate at hc
  split at hc
  · simp at hc
  rename_i e s1 halloc
  split at hc
  · simp at hc
  · rename_i s2 hload
    cases hc
    refine (Within.envAlloc hT h halloc).trans hT (Within.quiet hT ?_)
    exact (loadIcode_quiet hload).trans (Quiet.setTf s2 e (fun v => v.envTf) fun _ => type)

/--
**One step**: the processors that do not take it keep their environments, and all
processors have their environments to themselves again.
-/
theorem Placed.next {ev : Event} {ok : EnvStatus → EnvStatus → Prop} (hT : Tolerance T)
    (hok : Respects ok T) (h : Placed none s) (hev : Considerate ok s ev)
    (hn : next s ev = some s') : Spares T ev.cpu s s' ∧ Placed none s' := by
  cases ev with
  | create img =>
    have hw := Within.envCreate hT h hn
    exact ⟨hw.toSpares, h.within hT hw⟩
  | sched c =>
    simp only [Jos.next] at hn
    split at hn
    · exact (h.exempt (some c)).schedYield hT hn
    · simp at hn
  | trap c o tf =>
    simp only [Jos.next] at hn
    split at hn
    · rename_i huser
      exact h.trap hT hok hev huser hn
    · simp at hn
  | store c va b =>
    obtain ⟨e, d, pm, -, -, -, -, rfl⟩ := userStore_cases hn
    have hq := Quiet.setPm s pm
    have hspares : Within T (some c) s { s with pm := pm } := .quiet hT hq
    have hnone : Within T none s { s with pm := pm } := .quiet hT hq
    exact ⟨hspares.toSpares, h.within hT hnone⟩

end Jos
