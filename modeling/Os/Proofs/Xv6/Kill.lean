/-
`kill`, and what a new process starts with.

A slot keeps its pid and its `killed` flag when `fork` gives it back, and a slot that was never
used has the pid 0.  `kill` looks at the pid alone, so it may mark a slot that no process has, and
the next process in that slot is killed.  As long as no call of `kill` finds such a slot, slots
without a process are not marked.
-/
import Os.Proofs.Xv6.Ptable

namespace Xv6

open Runs Option Function

variable {s s' : Ptable} {k cur : ProcIdx} {p : Slot} {pid : Word}

/-- No process has the slot, or `fork` has not finished with it. -/
def Slot.Idle (p : Slot) : Prop := p.state = .unused ∨ p.state = .embryo

/-- No slot without a process is marked as killed. -/
def Unmarked (s : Ptable) : Prop := ∀ k, (s.procs k).Idle → (s.procs k).killed = false

/-- No call of `kill` is for the pid that a slot without a process has. -/
def KillFits (s : Ptable) : TableAct → Prop
  | .kill pid => ∀ k, (s.procs k).pid = pid → ¬ (s.procs k).Idle
  | _ => True

/-! ### Steps -/

namespace Unmarked

section

variable (h : Unmarked s)
include h

theorem set (hp : p.Idle → p.killed = false) : Unmarked (s.set k p) := by
  intro j
  show (update s.procs k p j).Idle → (update s.procs k p j).killed = false
  by_cases hj : j = k
  · rw [hj, update_self]
    exact hp
  · rw [update_of_ne hj]
    exact h j

theorem wakeup1 (chan : Chan) : Unmarked (Xv6.wakeup1 s chan) := by
  intro j hidle
  have hj := h j
  unfold Xv6.wakeup1 rouse at hidle ⊢
  dsimp only at hidle ⊢
  split at hidle
  next => rcases hidle with hc | hc <;> cases hc
  next hawake =>
    rw [if_neg hawake]
    exact hj hidle

theorem exitChild (k : ProcIdx) : Unmarked (Xv6.exitChild cur s k) := by
  have hadopt : Unmarked (adopt s k) := h.set (h k)
  unfold Xv6.exitChild
  split
  next =>
    split
    next => exact hadopt.wakeup1 _
    next => exact hadopt
  next => exact h

theorem exitSection : Unmarked (Xv6.exitSection s cur) := by
  have hloop : ∀ (l : List ProcIdx) (t : Ptable), Unmarked t →
      Unmarked (l.foldl (Xv6.exitChild cur) t) := by
    intro l
    induction l with
    | nil => exact fun _ ht => ht
    | cons k l ih => exact fun t ht => ih _ (ht.exitChild k)
  have hzombie : ∀ t, Unmarked t → Unmarked (becomeZombie t cur) :=
    fun t ht j => ht.set (by rintro (hc | hc) <;> cases hc) j
  unfold Xv6.exitSection
  exact hzombie _ (hloop _ _ (h.wakeup1 _))

theorem forkAlloc : Unmarked (Xv6.forkAlloc s cur) := by
  unfold Xv6.forkAlloc
  split
  next => exact h
  next np hfind =>
    have hnp : (s.procs np).state = .unused := by simpa using List.find?_some hfind
    have halloc : Unmarked (s.set np
        { s.procs np with state := .embryo, pid := s.nextpid, born := s.births }) :=
      h.set fun _ => h np (.inl hnp)
    exact set (fun j => halloc j) (h cur)

theorem waitTurn : Unmarked (Xv6.waitTurn s cur) := by
  have hreturns : ∀ (t : Ptable) (r : WaitReturn), Unmarked t → Unmarked (waitReturns t cur r) :=
    fun t r ht => ht.set (by rintro (hc | hc) <;> cases hc)
  unfold Xv6.waitTurn
  split
  next k _ _ => exact hreturns _ _ (h.set fun _ => rfl)
  next =>
    split
    next => exact hreturns _ _ h
    next => exact h.set (by rintro (hc | hc) <;> cases hc)

theorem killPid (hfit : KillFits s (.kill pid)) :
    Unmarked (Xv6.killPid s pid) := by
  unfold Xv6.killPid
  split
  next => exact h
  next k hfind =>
    refine h.set fun hidle => absurd ?_ (hfit k (by simpa using List.find?_some hfind))
    unfold Slot.Idle at hidle ⊢
    split at hidle
    next => rcases hidle with hc | hc <;> cases hc
    next => exact hidle

end

theorem tableStep {a : TableAct} (hf : Family s) (h : Unmarked s) (hfit : KillFits s a)
    (hs : Xv6.tableStep s a = some s') : Unmarked s' := by
  cases a with
  | schedule k | yield k | sleep k c =>
    obtain ⟨-, rfl⟩ := ite_some_none_eq_some.mp hs
    exact h.set (by rintro (hc | hc) <;> cases hc)
  | wakeup c =>
    cases hs
    exact h.wakeup1 _
  | forkAlloc k =>
    obtain ⟨-, rfl⟩ := ite_some_none_eq_some.mp hs
    exact h.forkAlloc
  | forkFails k =>
    rw [Xv6.tableStep] at hs
    split at hs
    next np _ hplace =>
      cases hs
      have hembryo := (hf.forker k np (by rw [hplace]; rfl)).2
      exact set (h.set fun _ => h np (.inr hembryo)) (by exact h k)
    next => cases hs
  | forkParent k =>
    rw [Xv6.tableStep] at hs
    split at hs
    next np _ _ =>
      cases hs
      exact set (h.set (by exact h np)) (by exact h k)
    next => cases hs
  | forkRuns k =>
    rw [Xv6.tableStep] at hs
    split at hs
    next =>
      cases hs
      exact set (h.set (by rintro (hc | hc) <;> cases hc)) (by exact h k)
    next => cases hs
  | exit k =>
    obtain ⟨-, rfl⟩ := ite_some_none_eq_some.mp hs
    exact h.exitSection
  | wait k | rewait k =>
    obtain ⟨-, rfl⟩ := ite_some_none_eq_some.mp hs
    exact h.waitTurn
  | kill pid =>
    cases hs
    exact h.killPid hfit

end Unmarked

/-! ### Runs -/

/-- `kill` returns 0 if and only if some process has the pid; then it marks such a process, which
wakes up if it sleeps, and otherwise it does nothing. -/
def KillExact (s : Ptable) (pid : Word) : Prop :=
  (killResult s pid = 0 ↔ ∃ k, (s.procs k).state ≠ .unused ∧ (s.procs k).pid = pid) ∧
  (killResult s pid = 0 → ∃ k, (s.procs k).state ≠ .unused ∧ (s.procs k).pid = pid ∧
    killPid s pid = s.set k { s.procs k with
      killed := true
      state := if (s.procs k).state = .sleeping then .runnable else (s.procs k).state }) ∧
  (killResult s pid ≠ 0 → killResult s pid = -1 ∧ killPid s pid = s)

theorem killExact_of_used (hused : ∀ k, (s.procs k).pid = pid → (s.procs k).state ≠ .unused) :
    KillExact s pid := by
  unfold KillExact killResult killPid
  cases hfind : (List.finRange nproc).find? fun k => (s.procs k).pid = pid with
  | none =>
    have hnone := List.find?_eq_none.mp hfind
    refine ⟨iff_of_false (by decide) ?_, fun hc => absurd hc (by decide), fun _ => ⟨rfl, rfl⟩⟩
    rintro ⟨k, -, hk⟩
    exact hnone k (List.mem_finRange k) (by simpa using hk)
  | some k =>
    have hk : (s.procs k).pid = pid := by simpa using List.find?_some hfind
    exact ⟨iff_of_true rfl ⟨k, hused k hk, hk⟩, fun _ => ⟨k, hused k hk, hk, rfl⟩,
      fun hc => absurd rfl hc⟩

/--
**`kill` is exact and new processes are not killed**, in every state that any interleaving reaches
without a `kill` of the pid of a slot that no process has.
-/
theorem kill_exact (hrun : Run tableStep KillFits firstTable s) :
    (∀ pid, (∀ k, (s.procs k).pid = pid → (s.procs k).state ≠ .unused) → KillExact s pid) ∧
    ∀ k np s', (s.procs k).place = .forked np → tableStep s (.forkRuns k) = some s' →
      (s'.procs np).state = .runnable ∧ (s'.procs np).killed = false := by
  refine ⟨fun pid hused => killExact_of_used hused, fun k np s' hplace hs => ?_⟩
  obtain ⟨hf, -, hmarks⟩ : Family s ∧ Records s ∧ Unmarked s :=
    hrun.inv (I := fun s => Family s ∧ Records s ∧ Unmarked s)
      ⟨family_firstTable, records_firstTable, fun _ _ => rfl⟩ fun _ _ _ ⟨hf, hr, h⟩ hok hs => by
        obtain ⟨hf', hr'⟩ := tableStep_inv hf hr hs
        exact ⟨hf', hr', h.tableStep hf hok hs⟩
  have hslot : (s.procs k).place.slot = some np := by rw [hplace]; rfl
  have hnew := hmarks np (.inr (hf.forker k np hslot).2)
  have hne := hf.forker_ne hslot
  rw [tableStep, hplace] at hs
  split at hs
  next heq =>
    cases heq
    cases hs
    simp [Ptable.set, update_of_ne hne, hnew]
  next => cases hs

/-- `init` has forked a child. -/
def firstFork : List TableAct := [.schedule 0, .forkAlloc 0, .forkParent 0]

theorem kill_exact_firstFork :
    ∃ s s', firstFork.foldlM tableStep firstTable = some s ∧ KillExact s 1 ∧
      tableStep s (.forkRuns 0) = some s' ∧ (s'.procs 1).killed = false := by
  have heval : ((firstFork.foldlM tableStep firstTable).bind fun s =>
      (tableStep s (.forkRuns 0)).map fun _ => decide ((s.procs 0).place = .forked 1 ∧
        ∀ k, (s.procs k).pid = 1 → (s.procs k).state ≠ .unused)) = some true := by
    decide +kernel
  obtain ⟨s, hs, hmap⟩ := bind_eq_some_iff.mp heval
  obtain ⟨s', hs', hfacts⟩ := map_eq_some_iff.mp hmap
  obtain ⟨hplace, hused⟩ := of_decide_eq_true hfacts
  have hrun : Run tableStep KillFits firstTable s := by
    refine Run.of_foldlM hs fun _ a ha => ?_
    simp only [firstFork, List.mem_cons, List.not_mem_nil, or_false] at ha
    obtain rfl | rfl | rfl := ha <;> trivial
  obtain ⟨hkill, hnew⟩ := kill_exact hrun
  exact ⟨s, s', hs, hkill 1 hused, hs', (hnew 0 1 s' hplace hs').2⟩

def markedFork : List TableAct := .kill 0 :: firstFork ++ [.forkRuns 0]

/-- No process has the pid 0, and still `kill` of it returns 0; the next child of `init` starts
as killed. -/
theorem kill_zero : killResult firstTable 0 = 0 ∧
    (∀ k, (firstTable.procs k).state ≠ .unused → (firstTable.procs k).pid ≠ 0) ∧
    (markedFork.foldlM tableStep firstTable).map
      (fun s => ((s.procs 1).state, (s.procs 1).killed)) = some (.runnable, true) := by
  decide +kernel

end Xv6
