/-
Alarms along runs of the process table.

Nothing but `sys_alarm` and the timer touches the alarm fields of a slot, and this explains both
results.  The counter that the timer keeps goes on from where it was when `alarm` is called, so the
first period is right only if it was 0.  And a slot that is used again, or a process that executes
another program, still has the alarm that was set before.
-/
import Os.Proofs.Xv6.AlarmWrites

namespace Xv6

open List Option Function
open Runs (Run)

/-! ### The fields of one slot -/

def AlarmAct.isTick (k : ProcIdx) : AlarmAct → Bool
  | .tick k' => k' = k
  | _ => false

def AlarmAct.isAlarm (k : ProcIdx) : AlarmAct → Bool
  | .alarm k' _ _ => k' = k
  | _ => false

theorem alarmStep_alarms {s s' : AlarmTable} {act : AlarmAct} {k : ProcIdx}
    (hno : act.isAlarm k = false) (hstep : alarmStep s act = some s') :
    s'.alarms k = if act.isTick k then (s.alarms k).tick else s.alarms k := by
  cases act with
  | table act =>
    obtain ⟨t, -, rfl⟩ := map_eq_some_iff.mp hstep
    rfl
  | exec k' =>
    simp only [alarmStep] at hstep
    split at hstep
    · cases hstep
      rfl
    · cases hstep
  | alarm k' ticks handler =>
    have hne : k ≠ k' := by
      rintro rfl
      simp [AlarmAct.isAlarm] at hno
    simp only [alarmStep] at hstep
    split at hstep
    · cases hstep
      exact update_of_ne hne _ _
    · cases hstep
  | tick k' =>
    simp only [alarmStep] at hstep
    split at hstep
    · cases hstep
      by_cases hk : k' = k
      · subst hk
        simp [AlarmAct.isTick]
      · simp [AlarmAct.isTick, hk, update_of_ne (Ne.symm hk)]
    · cases hstep

/-- After a run without a call of `alarm` the fields have seen its timer interrupts. -/
theorem run_alarms {k : ProcIdx} (acts : List AlarmAct) : ∀ {s s' : AlarmTable},
    (∀ act ∈ acts, act.isAlarm k = false) → acts.foldlM alarmStep s = some s' →
    s'.alarms k = Alarm.tick^[acts.countP (·.isTick k)] (s.alarms k) := by
  induction acts with
  | nil =>
    intro s s' _ hrun
    cases hrun
    rfl
  | cons act acts ih =>
    intro s s' hno hrun
    obtain ⟨s1, hstep, hrest⟩ := bind_eq_some_iff.mp hrun
    rw [ih (fun a ha => hno a (mem_cons_of_mem _ ha)) hrest,
      alarmStep_alarms (hno act mem_cons_self) hstep, countP_cons]
    split_ifs
    · rw [iterate_succ_apply]
    · rfl

/-! ### The counter -/

@[simp] theorem tick_alarmhandler (a : Alarm) : a.tick.alarmhandler = a.alarmhandler := rfl

theorem iterate_tick_fixed (a : Alarm) (j : Nat) :
    (Alarm.tick^[j] a).alarmticks = a.alarmticks ∧
      (Alarm.tick^[j] a).alarmhandler = a.alarmhandler := by
  induction j with
  | zero => exact ⟨rfl, rfl⟩
  | succ j ih =>
    rw [iterate_succ_apply']
    exact ih

theorem due_iff (a : Alarm) :
    a.Due ↔ a.alarmticks.toNat = (a.curalarmticks.toNat + 1) % 4294967296 := by
  unfold Alarm.Due
  rw [← BitVec.toNat_inj, BitVec.toNat_add]
  rfl

theorem toNat_tick (a : Alarm) : a.tick.curalarmticks.toNat =
    if a.alarmticks.toNat = (a.curalarmticks.toNat + 1) % 4294967296 then 0
    else (a.curalarmticks.toNat + 1) % 4294967296 := by
  unfold Alarm.tick
  by_cases hdue : a.Due
  · rw [if_pos hdue, if_pos ((due_iff a).mp hdue)]
    rfl
  · rw [if_neg hdue, if_neg fun h => hdue ((due_iff a).mpr h)]
    exact BitVec.toNat_add _ _

/-- A counter that starts at 0 counts modulo the period. -/
theorem iterate_tick_zero {a : Alarm} (hn : a.alarmticks ≠ 0) (hzero : a.curalarmticks = 0)
    (j : Nat) : (Alarm.tick^[j] a).curalarmticks.toNat = j % a.alarmticks.toNat := by
  have hpos : 0 < a.alarmticks.toNat := by bv_omega
  induction j with
  | zero =>
    rw [iterate_zero_apply, hzero]
    exact (Nat.zero_mod _).symm
  | succ j ih =>
    have hticks := (iterate_tick_fixed a j).1
    have hmod := Nat.mod_lt j hpos
    have hsucc : (j + 1) % a.alarmticks.toNat = (j % a.alarmticks.toNat + 1) % a.alarmticks.toNat :=
      (Nat.mod_add_mod j _ 1).symm
    rw [iterate_succ_apply', toNat_tick, hticks, ih, hsucc]
    split_ifs with hdue
    · have hfull : j % a.alarmticks.toNat + 1 = a.alarmticks.toNat := by omega
      rw [hfull, Nat.mod_self]
    · have hnot : j % a.alarmticks.toNat + 1 < a.alarmticks.toNat := by omega
      rw [Nat.mod_eq_of_lt hnot]
      omega

/-- So the alarm is due at the multiples of the period. -/
theorem due_iterate_iff {a : Alarm} (hn : a.alarmticks ≠ 0) (hzero : a.curalarmticks = 0)
    (j : Nat) :
    (Alarm.tick^[j] a).Due ↔ a.alarmticks.toNat ∣ j + 1 := by
  have hpos : 0 < a.alarmticks.toNat := by bv_omega
  have hmod := Nat.mod_lt j hpos
  rw [due_iff, (iterate_tick_fixed a j).1, iterate_tick_zero hn hzero, Nat.dvd_iff_mod_eq_zero,
    ← Nat.mod_add_mod j _ 1]
  constructor
  · intro hdue
    have hfull : j % a.alarmticks.toNat + 1 = a.alarmticks.toNat := by omega
    rw [hfull, Nat.mod_self]
  intro hdvd
  by_contra hne
  have hnot : j % a.alarmticks.toNat + 1 < a.alarmticks.toNat := by omega
  rw [Nat.mod_eq_of_lt hnot] at hdvd
  omega

theorem iterate_tick_count {a : Alarm} (j : Nat)
    (h : ∀ i < j, a.alarmticks.toNat ≠ (a.curalarmticks.toNat + i + 1) % 4294967296) :
    (Alarm.tick^[j] a).curalarmticks.toNat = (a.curalarmticks.toNat + j) % 4294967296 := by
  induction j with
  | zero => exact (Nat.mod_eq_of_lt a.curalarmticks.isLt).symm
  | succ j ih =>
    have hcount := ih fun i hi => h i (by omega)
    have hne := h j (by omega)
    rw [iterate_succ_apply', toNat_tick, (iterate_tick_fixed a j).1, hcount,
      if_neg (by omega)]
    omega

/-- A counter that does not start at 0 makes the first period wrong. -/
theorem zero_of_due_iterate {a : Alarm} (hn : a.alarmticks ≠ 0)
    (h : ∀ j, (Alarm.tick^[j] a).Due ↔ a.alarmticks.toNat ∣ j + 1) : a.curalarmticks = 0 := by
  have hpos : 0 < a.alarmticks.toNat := by bv_omega
  by_contra hne
  have hcpos : 0 < a.curalarmticks.toNat := by bv_omega
  by_cases hlow : a.curalarmticks.toNat < a.alarmticks.toNat
  · -- it is due too early
    obtain ⟨j, hj⟩ : ∃ j, j + 1 + a.curalarmticks.toNat = a.alarmticks.toNat :=
      ⟨a.alarmticks.toNat - a.curalarmticks.toNat - 1, by omega⟩
    have hcount := iterate_tick_count (a := a) j fun i hi => by omega
    have hdue : (Alarm.tick^[j] a).Due := by
      rw [due_iff, (iterate_tick_fixed a j).1, hcount]
      omega
    have hle := Nat.le_of_dvd (by omega) ((h j).mp hdue)
    omega
  · -- it is not due after one period
    obtain ⟨j, hj⟩ : ∃ j, j + 1 = a.alarmticks.toNat := ⟨a.alarmticks.toNat - 1, by omega⟩
    have hcount := iterate_tick_count (a := a) j fun i hi => by omega
    have hdue := (h j).mpr (hj ▸ Nat.dvd_refl _)
    rw [due_iff, (iterate_tick_fixed a j).1, hcount] at hdue
    omega

/-! ### Periods -/

variable {M : Machine}

/-- What a timer interrupt of a process with the alarm fields `a` does.  If the alarm is due and the
stack is ready, control goes to `h` with the interrupted `eip` on top of the stack; if it is not due
the process goes on as it was. -/
structure Redirects (K : Linker M) (k : ProcIdx) (a : Alarm) (h : Word) : Prop where
  goes : ∀ (s : Kernel M) d tf, (s.procs k).pgdir = some d → (s.procs k).killed = false →
    StackReady K s.km d tf.esp → a.Due → ∃ s', trapTimer s k tf a = some (.resumes, s', a.tick) ∧
      (s'.procs k).tf = { tf with esp := tf.esp - 4, eip := h } ∧
      userWord s'.km d (tf.esp - 4) = some tf.eip
  stays : ∀ (s : Kernel M) d tf, (s.procs k).pgdir = some d → (s.procs k).killed = false →
    ¬ a.Due → ∃ s', trapTimer s k tf a = some (.resumes, s', a.tick) ∧ (s'.procs k).tf = tf ∧
      s'.km = s.km

theorem redirects (K : Linker M) (k : ProcIdx) (a : Alarm) : Redirects K k a a.alarmhandler where
  goes _ _ _ hd hlive hstack hdue := hstack.trapTimer hd hlive hdue
  stays s d tf hd hlive hdue := by
    have hrun : deliver d s.km tf a = some (s.km, tf, []) := if_neg hdue
    exact ⟨_, trapTimer_resumes hd hlive hrun, by simp [Kernel.setProc], rfl⟩

/-- Along every run without another call of `alarm`, the timer interrupts of the slot redirect it to
`h` at the multiples of `n` and at no other, as far as there is a stack for it. -/
def Periodic (K : Linker M) (s : AlarmTable) (k : ProcIdx) (n : Nat) (h : Word) : Prop :=
  ∀ (acts : List AlarmAct) (s' : AlarmTable), (∀ act ∈ acts, act.isAlarm k = false) →
    acts.foldlM alarmStep s = some s' →
    ((s'.alarms k).Due ↔ n ∣ acts.countP (·.isTick k) + 1) ∧ Redirects K k (s'.alarms k) h

/-- The action of the table that stands for a call of `alarm`: the call returns 0 and sets the two
fields, or it returns -1 and leaves them alone. -/
theorem sysAlarm_cases {m m' : Kmem M} {p : Proc M} {a a' : Alarm} {r : Word}
    (h : sysAlarm m p a = some (r, m', a')) :
    r = 0 ∧ (∃ ticks handler, a' = a.set ticks handler) ∨ r = -1 ∧ a' = a := by
  unfold sysAlarm at h
  split at h
  · cases h
  · cases h
    exact .inr ⟨rfl, rfl⟩
  split at h
  · cases h
  · cases h
    exact .inr ⟨rfl, rfl⟩
  · cases h
    exact .inl ⟨rfl, _, _, rfl⟩

theorem run_ticks {k : ProcIdx} (j : Nat) : ∀ {s : AlarmTable}, s.Runs k →
    ∃ s', (replicate j (AlarmAct.tick k)).foldlM alarmStep s = some s' := by
  induction j with
  | zero =>
    intro s _
    exact ⟨s, rfl⟩
  | succ j ih =>
    intro s hs
    obtain ⟨s', hrun⟩ := ih (s := { s with
      alarms := update s.alarms k (s.alarms k).tick }) hs
    refine ⟨s', ?_⟩
    rw [replicate_succ, foldlM_cons]
    simp only [alarmStep, if_pos hs]
    exact hrun

/-- **`alarm` is periodic**, for a process with a stack, if and only if the counter is 0 when it is
called. -/
theorem alarm_periodic_iff (K : Linker M) {s s' : AlarmTable} {k : ProcIdx} {n h : Word}
    (hn : n ≠ 0) (hcall : alarmStep s (.alarm k n h) = some s') :
    Periodic K s' k n.toNat h ↔ (s.alarms k).curalarmticks = 0 := by
  obtain ⟨hruns, ha⟩ : s'.Runs k ∧ s'.alarms k = (s.alarms k).set n h := by
    simp only [alarmStep] at hcall
    split at hcall
    · rename_i hruns
      cases hcall
      exact ⟨hruns, update_self _ _ _⟩
    · cases hcall
  have hticks : (s'.alarms k).alarmticks = n := by rw [ha]; rfl
  have hcur : (s'.alarms k).curalarmticks = (s.alarms k).curalarmticks := by rw [ha]; rfl
  have hhandler : (s'.alarms k).alarmhandler = h := by rw [ha]; rfl
  constructor
  · intro hper
    rw [← hcur]
    refine zero_of_due_iterate (by rw [hticks]; exact hn) fun j => ?_
    obtain ⟨s1, hrun⟩ := run_ticks j hruns
    have hno : ∀ act ∈ replicate j (AlarmAct.tick k), act.isAlarm k = false := by
      intro act hact
      rw [eq_of_mem_replicate hact]
      rfl
    have hdue := (hper _ s1 hno hrun).1
    have hcount : (replicate j (AlarmAct.tick k)).countP (·.isTick k) = j := by
      simp [countP_replicate, AlarmAct.isTick]
    rw [run_alarms _ hno hrun, hcount] at hdue
    rw [hticks]
    exact hdue
  · intro hzero acts s1 hno hrun
    have halarms := run_alarms acts hno hrun
    refine ⟨?_, ?_⟩
    · rw [halarms, due_iterate_iff (by rw [hticks]; exact hn) (hcur.trans hzero), hticks]
    · rw [halarms, ← hhandler, ← (iterate_tick_fixed (s'.alarms k) _).2]
      exact redirects K k _

/-- The first process, once it runs. -/
def firstRuns : Option AlarmTable := alarmStep firstAlarms (.table (.schedule 0))

/-- It may set an alarm for every second interrupt; and a stack whose page is not there yet
will do. -/
theorem alarm_periodic_first : (∃ s s', firstRuns = some s ∧
    alarmStep s (.alarm 0 2 0x40) = some s' ∧ Periodic tinyLinker s' 0 2 0x40) ∧
    StackReady tinyLinker tinyMemory 258 8192 := by
  have heval : (firstRuns.bind fun s => (alarmStep s (.alarm 0 2 0x40)).map fun _ =>
      decide ((s.alarms 0).curalarmticks = 0)) = some true := by
    decide +kernel
  obtain ⟨s, hs, hmap⟩ := bind_eq_some_iff.mp heval
  obtain ⟨s', hs', hzero⟩ := map_eq_some_iff.mp hmap
  refine ⟨⟨s, s', hs, hs',
    (alarm_periodic_iff tinyLinker (by decide) hs').mpr (of_decide_eq_true hzero)⟩, ?_⟩
  exact ⟨tinyMemory_owned.1, by decide, by decide,
    .inr ⟨by decide, tinyMemory_empty (by decide), tinyMemory_room _⟩⟩

/-- After one timer interrupt an alarm for two is due at the next. -/
theorem alarm_early : (firstRuns.bind fun s =>
    [AlarmAct.tick 0, .alarm 0 2 0x40].foldlM alarmStep s).map (fun s => decide (s.alarms 0).Due) =
      some true := by
  decide +kernel

/-! ### Whose alarm it is -/

/-- No alarm is set, and the counter is not about to come round to 0. -/
def Alarm.Silent (a : Alarm) : Prop := a.alarmticks = 0 ∧ a.curalarmticks ≠ 0xffffffff

theorem Alarm.Silent.not_due {a : Alarm} (h : a.Silent) : ¬ a.Due := by
  obtain ⟨hticks, hcur⟩ := h
  unfold Alarm.Due
  bv_omega

/-- The processes redirected by the timer have asked for it. -/
def OwnAlarms (s : AlarmTable) : Prop :=
  ∀ k, (s.alarms k).Due → (s.alarms k).alarmhandler ∈ s.own k

/-- Processes are made in slots without an alarm and execute programs without one, and a counter
that nobody has asked for does not come round. -/
def AlarmOk (s : AlarmTable) : AlarmAct → Prop
  | .table act => ∀ t k, tableStep s.table act = some t → Created s.table t k → (s.alarms k).Silent
  | .exec k => (s.alarms k).Silent
  | .alarm _ _ _ => True
  | .tick k => (s.alarms k).alarmhandler ∉ s.own k → (s.alarms k).tick.Silent

/-- The handler of a slot is its process's own, or it has no alarm. -/
def AlarmInv (s : AlarmTable) : Prop :=
  ∀ k, (s.alarms k).alarmhandler ∈ s.own k ∨ (s.alarms k).Silent

theorem alarmInv_step (s : AlarmTable) (act : AlarmAct) (s' : AlarmTable) (h : AlarmInv s)
    (hok : AlarmOk s act) (hstep : alarmStep s act = some s') : AlarmInv s' := by
  intro k
  cases act with
  | table act =>
    obtain ⟨t, ht, rfl⟩ := map_eq_some_iff.mp hstep
    show _ ∈ (if Created s.table t k then [] else s.own k) ∨ _
    split_ifs with hcreated
    · exact .inr (hok t k ht hcreated)
    · exact h k
  | exec k' =>
    simp only [alarmStep] at hstep
    split at hstep
    · cases hstep
      by_cases hk : k = k'
      · subst hk
        exact .inr hok
      · simp only [update_of_ne hk]
        exact h k
    · cases hstep
  | alarm k' ticks handler =>
    simp only [alarmStep] at hstep
    split at hstep
    · cases hstep
      by_cases hk : k = k'
      · subst hk
        left
        simp [Alarm.set]
      · simp only [update_of_ne hk]
        exact h k
    · cases hstep
  | tick k' =>
    simp only [alarmStep] at hstep
    split at hstep
    · cases hstep
      by_cases hk : k = k'
      · subst hk
        simp only [update_self, tick_alarmhandler]
        by_cases hown : (s.alarms k).alarmhandler ∈ s.own k
        · exact .inl hown
        · exact .inr (hok hown)
      · simp only [update_of_ne hk]
        exact h k
    · cases hstep

theorem silent_first (k : ProcIdx) : (firstAlarms.alarms k).Silent :=
  ⟨rfl, (by decide : (0 : Word) ≠ 0xffffffff)⟩

/-- **Alarms belong to the program that set them**, in every run in which no slot with an alarm is
used again and no program with one executes another. -/
theorem own_alarms {s : AlarmTable} (hrun : Run alarmStep AlarmOk firstAlarms s) : OwnAlarms s := by
  have hinv : AlarmInv s := hrun.inv (fun k => .inr (silent_first k)) alarmInv_step
  intro k hdue
  rcases hinv k with hown | hsilent
  · exact hown
  · exact absurd hdue hsilent.not_due

/-- The first process sets an alarm, which is due at once. -/
theorem own_alarms_first : ∃ s s', firstRuns = some s ∧
    alarmStep s (.alarm 0 1 0x40) = some s' ∧ OwnAlarms s' ∧ (s'.alarms 0).Due := by
  have heval : (firstRuns.bind fun s => (alarmStep s (.alarm 0 1 0x40)).map fun s' =>
      decide (s'.alarms 0).Due) = some true := by
    decide +kernel
  obtain ⟨s, hs, hmap⟩ := bind_eq_some_iff.mp heval
  obtain ⟨s', hs', hdue⟩ := map_eq_some_iff.mp hmap
  have hok : AlarmOk firstAlarms (.table (.schedule 0)) :=
    fun _ k _ _ => silent_first k
  have hcall : AlarmOk s (.alarm 0 1 0x40) := trivial
  have hrun : Run alarmStep AlarmOk firstAlarms s' := (Run.start.next hok hs).next hcall hs'
  exact ⟨s, s', hs, hs', own_alarms hrun, of_decide_eq_true hdue⟩

/-- The process in slot 1 sets an alarm and ends, and its slot is used for the next one. -/
def usedAgain : List AlarmAct :=
  [.table (.schedule 0), .table (.forkAlloc 0), .table (.forkParent 0), .table (.forkRuns 0),
    .table (.schedule 1), .alarm 1 1 0x40, .table (.exit 1), .table (.wait 0),
    .table (.forkAlloc 0), .table (.forkParent 0), .table (.forkRuns 0), .table (.schedule 1)]

/-- The new process has made no call of `alarm`, and the next timer interrupt redirects it. -/
theorem alarm_inherited : (usedAgain.foldlM alarmStep firstAlarms).map (fun s =>
    (decide (s.Runs 1 ∧ (s.alarms 1).Due), s.own 1)) = some (true, []) := by
  decide +kernel

end Xv6
