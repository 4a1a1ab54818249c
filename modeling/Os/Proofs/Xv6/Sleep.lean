/-
No wakeup is lost.

A process that has found the condition false keeps `lk` until it holds `ptable.lock`, so
the condition is false when it lets go of `lk`.  From there until it is woken it counts as
committed to sleep.  If the condition becomes true meanwhile, whoever made it true has
still to come past its slot in `wakeup1`: it cannot scan while the sleeper holds
`ptable.lock`, and a slot that has been scanned is no longer asleep.
-/
import Os.Lib.Runs
import Os.Xv6.Sleep

namespace Xv6

open Runs Option Function

variable {n : Nat} {s s' s0 : SleepState n} {p q : Fin n}

namespace SleepPc

def holdsLk : SleepPc → Bool
  | .waitTest | .waitDone | .sleepAcquire | .sleepRelease | .wakeSet | .wakeDone => true
  | _ => false

def holdsPtable : SleepPc → Bool
  | .sleepRelease | .sleepSet | .sleepTidy | .wakeup1 _ | .yieldTidy => true
  | _ => false

/-- The process has found the condition false and still holds `lk`. -/
def foundFalse : SleepPc → Bool
  | .sleepAcquire | .sleepRelease => true
  | _ => false

/-- Between making the condition true and the end of `wakeup`. -/
def inWakeup : SleepPc → Bool
  | .wakeupAcquire | .wakeup1 _ => true
  | _ => false

/-- Between making the condition true and looking at the slot with index `i`. -/
def willRouse (i : Nat) : SleepPc → Bool
  | .wakeupAcquire => true
  | .wakeup1 j => decide (j ≤ i)
  | _ => false

theorem inWakeup_of_willRouse {i : Nat} {pc : SleepPc} (h : pc.willRouse i = true) :
    pc.inWakeup = true := by
  cases pc <;> simp_all [willRouse, inWakeup]

end SleepPc

/-- Past the release of `lk` in `sleep` and not yet woken. -/
def SleepProc.committed (x : SleepProc) : Bool := x.pc == .sleepSet || x.asleep

attribute [local simp] SleepPc.willRouse

structure SleepInv (s : SleepState n) : Prop where
  lk : ∀ p, (s.procs p).pc.holdsLk = true → s.lk = some p
  ptable : ∀ p, (s.procs p).pc.holdsPtable = true → s.ptable = .proc p
  foundFalse : ∀ p, (s.procs p).pc.foundFalse = true → s.cond = false
  roused : s.cond = true → ∀ p, (s.procs p).committed = true →
    ∃ q, (s.procs q).pc.willRouse p = true

namespace SleepInv

theorem moved (h : SleepInv s) (x : SleepProc) (hprocs : s'.procs = update s.procs p x)
    (hlk : s'.lk = s.lk ∨ s.lk = none ∨ s.lk = some p) (hlkp : x.pc.holdsLk = true → s'.lk = some p)
    (hpt : s'.ptable = s.ptable ∨ ∀ q ≠ p, s.ptable ≠ .proc q)
    (hptp : x.pc.holdsPtable = true → s'.ptable = .proc p)
    (hcond : s'.cond = s.cond ∨ s.lk = some p) (hfalse : x.pc.foundFalse = true → s'.cond = false)
    (hroused : s'.cond = true → ∀ q, (s'.procs q).committed = true →
      ∃ r, (s'.procs r).pc.willRouse q = true) : SleepInv s' := by
  refine ⟨fun q hq => ?_, fun q hq => ?_, fun q hq => ?_, hroused⟩
  all_goals
    rw [hprocs] at hq
    by_cases hqp : q = p
    · subst hqp
      rw [update_self] at hq
      first | exact hlkp hq | exact hptp hq | exact hfalse hq
    rw [update_of_ne hqp] at hq
  · have hlkq := h.lk q hq
    grind
  · have hptq := h.ptable q hq
    grind
  · have hlkq :=
      h.lk q (by revert hq; cases (s.procs q).pc <;> simp [SleepPc.foundFalse, SleepPc.holdsLk])
    have hold := h.foundFalse q hq
    grind

/-- A process that neither commits itself to sleep nor stops being about to rouse others. -/
theorem roused_moved (h : SleepInv s) (x : SleepProc)
    (hprocs : s'.procs = update s.procs p x) (hcond : s'.cond = true → s.cond = true)
    (hcommit : x.committed = true → (s.procs p).committed = true)
    (hrouse : ∀ q : Fin n, (s.procs q).committed = true → (s.procs p).pc.willRouse q = true →
      x.pc.willRouse q = true) :
    s'.cond = true → ∀ q, (s'.procs q).committed = true →
      ∃ r, (s'.procs r).pc.willRouse q = true := by
  intro hc q hq
  have hq' : (s.procs q).committed = true := by
    rw [hprocs] at hq
    by_cases hqp : q = p
    · subst hqp
      rw [update_self] at hq
      exact hcommit hq
    · rwa [update_of_ne hqp] at hq
  obtain ⟨r, hr⟩ := h.roused (hcond hc) q hq'
  refine ⟨r, ?_⟩
  rw [hprocs]
  by_cases hrp : r = p
  · subst hrp
    rw [update_self]
    exact hrouse q hq' hr
  · rwa [update_of_ne hrp]

/-- A RUNNING process goes on at a place where it is about to rouse no one less than before. -/
theorem quiet (h : SleepInv s) (pc : SleepPc) (hrun : (s.procs p).state = .running)
    (hprocs : s'.procs = (s.goto p pc).procs) (hcond : s'.cond = s.cond)
    (hlk : s'.lk = s.lk ∨ s.lk = none ∨ s.lk = some p) (hlkp : pc.holdsLk = true → s'.lk = some p)
    (hpt : s'.ptable = s.ptable ∨ ∀ q ≠ p, s.ptable ≠ .proc q)
    (hptp : pc.holdsPtable = true → s'.ptable = .proc p)
    (hset : pc ≠ .sleepSet) (hfalse : pc.foundFalse = true → s.cond = false)
    (hrouse : ∀ q : Fin n, (s.procs q).committed = true → (s.procs p).pc.willRouse q = true →
      pc.willRouse q = true) : SleepInv s' := by
  refine h.moved _ hprocs hlk hlkp hpt hptp (.inl hcond) (fun hf => hcond.trans (hfalse hf)) ?_
  refine h.roused_moved _ hprocs (fun hc => hcond ▸ hc) (fun hc => ?_) hrouse
  simp [SleepProc.committed, SleepProc.asleep, hset, hrun] at hc

theorem rouse (h : SleepInv s) : SleepInv (s.rouse p) := by
  refine h.moved { s.procs p with state := .runnable } rfl (.inl rfl) (h.lk p) (.inl rfl)
    (h.ptable p) (.inl rfl)
    (h.foundFalse p) ?_
  refine h.roused_moved { s.procs p with state := .runnable } rfl id (fun hc => ?_) fun _ _ hr => hr
  simp only [SleepProc.committed, SleepProc.asleep, Bool.or_eq_true] at hc ⊢
  exact .inl (hc.resolve_right (by simp))

theorem rouseSlot (h : SleepInv s) : SleepInv (s.rouseSlot p) := by
  unfold SleepState.rouseSlot
  split
  · exact h.rouse
  · exact h

end SleepInv

namespace SleepState

theorem rouseSlot_pc (s : SleepState n) (i q : Fin n) :
    ((s.rouseSlot i).procs q).pc = (s.procs q).pc := by
  unfold rouseSlot rouse
  split
  · by_cases hq : q = i
    · subst hq
      simp
    · simp [update_of_ne hq]
  · rfl

theorem rouseSlot_not_asleep (s : SleepState n) (i : Fin n) :
    ((s.rouseSlot i).procs i).asleep = false := by
  unfold rouseSlot rouse
  split
  next => simp [SleepProc.asleep]
  next h => exact Bool.eq_false_iff.mpr h

theorem rouseSlot_running {i q : Fin n} (h : (s.procs q).state = .running) :
    ((s.rouseSlot i).procs q).state = .running := by
  unfold rouseSlot rouse
  split
  next hi =>
    have hq : q ≠ i := by
      rintro rfl
      simp [SleepProc.asleep, h] at hi
    simpa [update_of_ne hq] using h
  next => exact h

theorem rouseSlot_ptable (s : SleepState n) (i : Fin n) : (s.rouseSlot i).ptable = s.ptable := by
  unfold rouseSlot rouse
  split <;> rfl

end SleepState

/-- The slot that `wakeup1` has looked at is not committed to sleep. -/
theorem SleepInv.scan {i : Fin n} (h : SleepInv s) (hrun : (s.procs p).state = .running)
    (hpc : (s.procs p).pc = .wakeup1 i) :
    SleepInv ((s.rouseSlot i).goto p (.wakeup1 (i + 1))) := by
  have hpt : (s.rouseSlot i).ptable = .proc p := by
    rw [SleepState.rouseSlot_ptable]
    exact h.ptable p (by rw [hpc]; rfl)
  have hpc' : ((s.rouseSlot i).procs p).pc = .wakeup1 i := by
    rw [SleepState.rouseSlot_pc, hpc]
  refine h.rouseSlot.quiet (.wakeup1 (i + 1)) (SleepState.rouseSlot_running hrun) rfl rfl (.inl rfl)
    nofun
    (.inl rfl) (fun _ => hpt) nofun nofun fun q hq hr => ?_
  have hle : (i : Nat) ≤ q := by simpa [hpc'] using hr
  have hne : q ≠ i := by
    rintro rfl
    have hset : ((s.rouseSlot q).procs q).pc = .sleepSet := by
      simpa [SleepProc.committed, SleepState.rouseSlot_not_asleep] using hq
    -- a process at that place would hold `ptable.lock` itself
    have hq' := h.rouseSlot.ptable q (by rw [hset]; rfl)
    rw [hpt] at hq'
    cases hq'
    rw [hpc'] at hset
    cases hset
  have hlt : (i : Nat) < q := Nat.lt_of_le_of_ne hle fun he => hne (Fin.ext he.symm)
  exact decide_eq_true hlt

theorem sleepGo_inv (h : SleepInv s) (hrun : (s.procs p).state = .running)
    (hs : sleepGo s p = some s') : SleepInv s' := by
  have hlk := h.lk p
  have hpt := h.ptable p
  have hfalse := h.foundFalse p
  unfold sleepGo at hs
  generalize hpc : (s.procs p).pc = pc at hlk hpt hfalse hs
  cases pc with
  | waitAcquire =>
    obtain ⟨hfree, rfl⟩ := ite_some_none_eq_some.mp hs
    exact h.quiet .waitTest hrun rfl rfl (.inr (.inl hfree)) (fun _ => rfl) (.inl rfl) nofun nofun
      nofun (by simp [hpc])
  | waitTest =>
    dsimp only at hs
    split at hs
    next hcond =>
      cases hs
      exact h.quiet .waitDone hrun rfl rfl (.inl rfl) (fun _ => hlk rfl) (.inl rfl) nofun nofun
        nofun (by simp [hpc])
    next hcond =>
      cases hs
      exact h.quiet .sleepAcquire hrun rfl rfl (.inl rfl) (fun _ => hlk rfl) (.inl rfl) nofun
        nofun (fun _ => Bool.eq_false_iff.mpr hcond) (by simp [hpc])
  | waitDone =>
    cases hs
    exact h.quiet .out hrun rfl rfl (.inr (.inr (hlk rfl))) nofun (.inl rfl) nofun nofun nofun
      (by simp [hpc])
  | sleepAcquire =>
    obtain ⟨hfree, rfl⟩ := ite_some_none_eq_some.mp hs
    exact h.quiet .sleepRelease hrun rfl rfl (.inl rfl) (fun _ => hlk rfl)
      (.inr fun q _ => by simp [hfree]) (fun _ => rfl) nofun (fun _ => hfalse rfl)
      (by simp [hpc])
  | sleepRelease =>
    -- the condition is still false, so no one has to rouse the process yet
    cases hs
    exact h.moved { s.procs p with pc := .sleepSet } rfl (.inr (.inr (hlk rfl))) nofun (.inl rfl)
      (fun _ => hpt rfl) (.inl rfl) nofun fun hc => absurd ((hfalse rfl).symm.trans hc) nofun
  | sleepSet =>
    cases hs
    refine h.moved ⟨.sleeping, true, .sleepGone⟩ rfl (.inl rfl) nofun (.inr fun q hq => ?_) nofun
      (.inl rfl) nofun ?_
    · rw [hpt rfl]
      simpa using hq.symm
    · exact h.roused_moved ⟨.sleeping, true, .sleepGone⟩ rfl id
        (fun _ => by simp [SleepProc.committed, hpc]) (by simp [hpc])
  | sleepTidy =>
    cases hs
    refine h.moved { s.procs p with chan := false, pc := .waitAcquire } rfl (.inl rfl) nofun
      (.inr fun q hq => ?_) nofun (.inl rfl) nofun ?_
    · rw [hpt rfl]
      simpa using hq.symm
    · exact h.roused_moved { s.procs p with chan := false, pc := .waitAcquire } rfl id
        (by simp [SleepProc.committed, SleepProc.asleep]) (by simp [hpc])
  | wakeAcquire =>
    obtain ⟨hfree, rfl⟩ := ite_some_none_eq_some.mp hs
    exact h.quiet .wakeSet hrun rfl rfl (.inr (.inl hfree)) (fun _ => rfl) (.inl rfl) nofun nofun
      nofun (by simp [hpc])
  | wakeSet =>
    -- the process itself will rouse everyone
    cases hs
    refine h.moved { s.procs p with pc := .wakeupAcquire } rfl (.inl rfl) nofun (.inl rfl) nofun
      (.inr (hlk rfl)) nofun fun _ q _ => ⟨p, ?_⟩
    simp [SleepState.goto]
  | wakeupAcquire =>
    obtain ⟨hfree, rfl⟩ := ite_some_none_eq_some.mp hs
    exact h.quiet (.wakeup1 0) hrun rfl rfl (.inl rfl) nofun (.inr fun q _ => by simp [hfree])
      (fun _ => rfl) nofun nofun (by simp)
  | wakeup1 i =>
    dsimp only at hs
    split at hs
    next hi =>
      cases hs
      exact h.scan hrun hpc
    next hi =>
      cases hs
      refine h.quiet (if s.lk = some p then .wakeDone else .out) hrun rfl rfl (.inl rfl) ?_
        (.inr fun q hq => ?_) ?_ ?_ ?_ fun q _ hr => ?_
      · intro hl
        split at hl
        next hp => exact hp
        next => cases hl
      · rw [hpt rfl]
        simpa using hq.symm
      · split <;> simp [SleepPc.holdsPtable]
      · split <;> simp
      · split <;> simp [SleepPc.foundFalse]
      · -- every slot has been looked at
        have hle : i ≤ q := by simpa [hpc] using hr
        omega
  | wakeDone =>
    cases hs
    exact h.quiet .out hrun rfl rfl (.inr (.inr (hlk rfl))) nofun (.inl rfl) nofun nofun nofun
      (by simp [hpc])
  | yieldTidy =>
    cases hs
    refine h.quiet .out hrun rfl rfl (.inl rfl) nofun (.inr fun q hq => ?_) nofun nofun nofun
      (by simp [hpc])
    rw [hpt rfl]
    simpa using hq.symm
  | out | sleepGone | yieldGone => cases hs

theorem sleepStep_inv {a : SleepAct n} (h : SleepInv s) (hs : sleepStep s a = some s') :
    SleepInv s' := by
  cases a with
  | wait p =>
    obtain ⟨⟨hrun, hpc⟩, rfl⟩ := ite_some_none_eq_some.mp hs
    exact h.quiet .waitAcquire hrun rfl rfl (.inl rfl) nofun (.inl rfl) nofun nofun nofun
      (by simp [hpc])
  | wake p =>
    obtain ⟨⟨hrun, hpc⟩, rfl⟩ := ite_some_none_eq_some.mp hs
    exact h.quiet .wakeAcquire hrun rfl rfl (.inl rfl) nofun (.inl rfl) nofun nofun nofun
      (by simp [hpc])
  | yield p =>
    obtain ⟨⟨-, hpc, hfree⟩, rfl⟩ := ite_some_none_eq_some.mp hs
    refine h.moved { s.procs p with state := .runnable, pc := .yieldGone } rfl (.inl rfl) nofun
      (.inr fun q _ => by simp [hfree]) nofun (.inl rfl) nofun ?_
    exact h.roused_moved { s.procs p with state := .runnable, pc := .yieldGone } rfl id
      (by simp [SleepProc.committed, SleepProc.asleep]) (by simp [hpc])
  | go p =>
    obtain ⟨hrun, hs⟩ := ite_none_right_eq_some.mp hs
    exact sleepGo_inv h hrun hs
  | spend p =>
    obtain ⟨-, rfl⟩ := ite_some_none_eq_some.mp hs
    exact ⟨h.lk, h.ptable, fun _ _ => rfl, nofun⟩
  | unlock p =>
    obtain ⟨⟨-, hpc, hlk⟩, rfl⟩ := ite_some_none_eq_some.mp hs
    refine ⟨fun q hq => ?_, h.ptable, h.foundFalse, h.roused⟩
    have hqp : q = p := some.inj ((h.lk q hq).symm.trans hlk)
    subst hqp
    simp [hpc, SleepPc.holdsLk] at hq
  | schedule p =>
    obtain ⟨⟨hstate, hfree⟩, hs⟩ := ite_none_right_eq_some.mp hs
    have hno : ∀ q ≠ p, s.ptable ≠ .proc q := by
      intro q _ hq
      rw [hq] at hfree
      simp at hfree
    split at hs
    case h_3 => cases hs
    all_goals
      rename_i hpc
      cases hs
      refine h.moved { s.procs p with state := .running, pc := _ } rfl (.inl rfl) nofun (.inr hno)
        (fun _ => rfl) (.inl rfl) nofun ?_
      exact h.roused_moved { s.procs p with state := .running, pc := _ } rfl id
        (by simp [SleepProc.committed, SleepProc.asleep]) (by simp [hpc])
  | rest =>
    obtain ⟨hsched, rfl⟩ := ite_some_none_eq_some.mp hs
    refine ⟨h.lk, fun q hq => ?_, h.foundFalse, h.roused⟩
    have hq' := h.ptable q hq
    rw [hsched] at hq'
    cases hq'
  | kill p =>
    obtain ⟨-, rfl⟩ := ite_some_none_eq_some.mp hs
    split
    · exact h.rouse
    · exact h

/-- Both locks are free and every process is outside, on a processor or ready for one. -/
structure SleepState.Start (s : SleepState n) : Prop where
  lk : s.lk = none
  ptable : s.ptable = .free
  outside : ∀ p, (s.procs p).state = .running ∧ (s.procs p).pc = .out ∨
    (s.procs p).state = .runnable ∧ (s.procs p).pc = .yieldGone

theorem SleepState.Start.inv (h : s.Start) : SleepInv s := by
  refine ⟨fun p hp => ?_, fun p hp => ?_, fun p hp => ?_, fun _ p hp => ?_⟩
  all_goals obtain ⟨hstate, hpc⟩ | ⟨hstate, hpc⟩ := h.outside p
  all_goals
    simp [hstate, hpc, SleepPc.holdsLk, SleepPc.holdsPtable, SleepPc.foundFalse,
      SleepProc.committed, SleepProc.asleep] at hp

/-- **In no state that any interleaving reaches does a process sleep on the channel while the
condition is true, its lock is free and no one is about to finish a `wakeup`.** -/
theorem no_lost_wakeup (hstart : s0.Start) (hrun : Run sleepStep (fun _ _ => True) s0 s) :
    ¬ ∃ p, (s.procs p).state = .sleeping ∧ (s.procs p).chan = true ∧ s.cond = true ∧
      s.lk = none ∧ ∀ q, (s.procs q).pc.inWakeup = false := by
  rintro ⟨p, hstate, hchan, hcond, -, hno⟩
  have hinv : SleepInv s := hrun.inv hstart.inv fun _ _ _ h _ hs => sleepStep_inv h hs
  have hasleep : (s.procs p).committed = true := by
    simp [SleepProc.committed, SleepProc.asleep, hstate, hchan]
  obtain ⟨q, hq⟩ := hinv.roused hcond p hasleep
  have hin := SleepPc.inWakeup_of_willRouse hq
  rw [hno q] at hin
  cases hin

/-- One waiter and one that wakes it, both on a processor. -/
def twoSleepers : SleepState 2 where
  cond := false
  lk := none
  ptable := .free
  procs := fun _ => { state := .running, chan := false, pc := .out }

theorem twoSleepers_start : twoSleepers.Start := ⟨rfl, rfl, fun _ => .inl ⟨rfl, rfl⟩⟩

local instance neZero_twoSleepers : NeZero 2 := ⟨by decide⟩

/-- The condition becomes true between the release of `lk` in `sleep` and the switch to the
scheduler; the sleeper is RUNNABLE at the end. -/
def lateWakeup : List (SleepAct 2) :=
  [.wait 0, .go 0, .go 0, .go 0, .go 0, .wake 1, .go 1, .go 1, .unlock 1, .go 0, .rest, .go 1,
    .go 1, .go 1, .go 1]

theorem no_lost_wakeup_late :
    (lateWakeup.foldlM sleepStep twoSleepers).map
        (fun s => (s.cond, s.lk, (s.procs 0).state, (s.procs 1).pc))
      = some (true, none, .runnable, .out) ∧
    ∀ s, lateWakeup.foldlM sleepStep twoSleepers = some s →
      ¬ ∃ p, (s.procs p).state = .sleeping ∧ (s.procs p).chan = true ∧ s.cond = true ∧
        s.lk = none ∧ ∀ q, (s.procs q).pc.inWakeup = false :=
  ⟨by decide +kernel, fun _ h => no_lost_wakeup twoSleepers_start
    (.of_foldlM h fun _ _ _ => trivial)⟩

end Xv6
