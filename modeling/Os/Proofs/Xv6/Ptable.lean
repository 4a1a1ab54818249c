/-
The process tree, and what `wait` can return.

`Family` is the invariant of the table itself: who is whose child in which state, who is
being forked by whom, and that a process asleep in `wait` has no child that has exited.
Most actions only change how live processes run and keep it for that reason (`Family.calm`).
`Records` ties the table to the record of exits and of what `wait` returned.
-/
import Mathlib.Order.Fin.Basic
import Os.Lib.Runs
import Os.Xv6.Ptable

namespace Xv6

open Runs List Option Function

variable {s s' : Ptable} {k cur : ProcIdx}

theorem ProcState.ne_of_alive {st : ProcState} (h : st.alive = true) :
    st ≠ .unused ∧ st ≠ .embryo ∧ st ≠ .zombie := by
  cases st <;> simp_all [alive]

/-- Asleep in `wait`, when the slot is that of `k`. -/
def Slot.inWait (p : Slot) (k : ProcIdx) : Prop := p.state = .sleeping ∧ p.chan = .proc k

/-- The slot a process is forking a child into. -/
def Place.slot : Place → Option ProcIdx
  | .forking k | .forked k => some k
  | _ => none

attribute [local grind] ProcState.alive Place.slot Slot.inWait

structure Family (s : Ptable) : Prop where
  init_alive : (s.procs s.initproc).state.alive = true
  init_root : (s.procs s.initproc).parent = none
  parent : ∀ k, k ≠ s.initproc → (s.procs k).state ≠ .unused → (s.procs k).state ≠ .embryo →
    ∃ q, (s.procs k).parent = some q ∧ (s.procs q).state.alive = true
  not_self : ∀ k, (s.procs k).parent ≠ some k
  unused : ∀ k, (s.procs k).state = .unused → (s.procs k).parent = none
  forker : ∀ k np, (s.procs k).place.slot = some np → (s.procs k).state.alive = true ∧
    (s.procs np).state = .embryo
  forking : ∀ k np, (s.procs k).place = .forking np → (s.procs np).parent = none
  forked : ∀ k np, (s.procs k).place = .forked np → (s.procs np).parent = some k
  forks_one : ∀ k k' np, (s.procs k).place.slot = some np → (s.procs k').place.slot = some np →
    k = k'
  waiting : ∀ k q, (s.procs q).inWait q → (s.procs k).parent = some q → (s.procs k).state ≠ .zombie

/-- A slot that only runs in another way than before. -/
structure Calm (k : ProcIdx) (p p' : Slot) : Prop where
  state : p'.state = p.state ∨ p.state.alive = true ∧ p'.state.alive = true
  parent : p'.parent = p.parent
  born : p'.born = p.born
  place : p'.place = p.place ∨ p'.place.slot = none
  inWait : p'.inWait k → p.inWait k

namespace Calm

variable {p p' : Slot}

theorem refl (k : ProcIdx) (p : Slot) : Calm k p p := ⟨.inl rfl, rfl, rfl, .inl rfl, id⟩

theorem alive (h : Calm k p p') : p'.state.alive = p.state.alive := by
  obtain hs | ⟨h1, h2⟩ := h.state
  · rw [hs]
  · rw [h1, h2]

theorem state_iff {st : ProcState} (h : Calm k p p') (hst : st.alive = false) :
    p'.state = st ↔ p.state = st := by
  obtain hs | ⟨h1, h2⟩ := h.state
  · rw [hs]
  constructor
  · rintro rfl
    rw [h2] at hst
    cases hst
  · rintro rfl
    rw [h1] at hst
    cases hst

theorem slot {np : ProcIdx} (h : Calm k p p') (hp : p'.place.slot = some np) :
    p'.place = p.place := by
  obtain he | hn := h.place
  · exact he
  · rw [hn] at hp
    cases hp

end Calm

theorem Family.calm (h : Family s) (hinit : s'.initproc = s.initproc)
    (hcalm : ∀ k, Calm k (s.procs k) (s'.procs k)) : Family s' where
  init_alive := by rw [hinit, (hcalm _).alive]; exact h.init_alive
  init_root := by rw [hinit, (hcalm _).parent]; exact h.init_root
  parent := fun k hk hu he => by
    rw [hinit] at hk
    obtain ⟨q, hq, halive⟩ := h.parent k hk (fun hc => hu (((hcalm k).state_iff rfl).mpr hc))
      fun hc => he (((hcalm k).state_iff rfl).mpr hc)
    exact ⟨q, (hcalm k).parent.trans hq, (hcalm q).alive.trans halive⟩
  not_self := fun k => by rw [(hcalm k).parent]; exact h.not_self k
  unused := fun k hk => by
    rw [(hcalm k).parent]
    exact h.unused k (((hcalm k).state_iff rfl).mp hk)
  forker := fun k np hk => by
    rw [(hcalm k).slot hk] at hk
    rw [(hcalm k).alive, (hcalm np).state_iff rfl]
    exact h.forker k np hk
  forking := fun k np hk => by
    rw [(hcalm k).slot (by rw [hk]; rfl)] at hk
    rw [(hcalm np).parent]
    exact h.forking k np hk
  forked := fun k np hk => by
    rw [(hcalm k).slot (by rw [hk]; rfl)] at hk
    rw [(hcalm np).parent]
    exact h.forked k np hk
  forks_one := fun k k' np hk hk' => by
    rw [(hcalm k).slot hk] at hk
    rw [(hcalm k').slot hk'] at hk'
    exact h.forks_one k k' np hk hk'
  waiting := fun k q hq hk => by
    rw [(hcalm k).parent] at hk
    rw [Ne, (hcalm k).state_iff rfl]
    exact h.waiting k q ((hcalm q).inWait hq) hk

theorem Calm.set (p : Slot) (h : Calm k (s.procs k) p) (j : ProcIdx) :
    Calm j (s.procs j) ((s.set k p).procs j) := by
  by_cases hj : j = k
  · subst hj
    simpa [Ptable.set] using h
  · simpa [Ptable.set, update_of_ne hj] using Calm.refl j (s.procs j)

theorem rouse_calm (chan : Chan) (k : ProcIdx) (p : Slot) : Calm k p (rouse chan p) := by
  unfold rouse
  split
  next h => exact ⟨.inr ⟨by rw [h.1]; rfl, rfl⟩, rfl, rfl, .inl rfl, fun hw => nomatch hw.1⟩
  next => exact .refl k p

/-- The slot of a child and the place of its parent, before, between and after the critical
sections of `fork`. -/
def Forks (cur np : ProcIdx) (p : Slot) (place : Place) : Prop :=
  p.state = .unused ∧ p.parent = none ∧ place = .elsewhere ∨
  p.state = .embryo ∧ p.parent = none ∧ place = .forking np ∨
  p.state = .embryo ∧ p.parent = some cur ∧ place = .forked np ∨
  p.state = .runnable ∧ p.parent = some cur ∧ place = .elsewhere

namespace Family

section

variable (h : Family s)
include h

/-- A forker is alive and its child an embryo, so they are two slots. -/
theorem forker_ne {np : ProcIdx} (hcur : (s.procs cur).place.slot = some np) :
    np ≠ cur := by
  rintro rfl
  obtain ⟨halive, hembryo⟩ := h.forker np np hcur
  rw [hembryo] at halive
  cases halive

section

variable {np : ProcIdx} {p : Slot} {place : Place}

/-- The slot is not alive, so it is no one's parent. -/
theorem pair (hcur : (s.procs cur).state.alive = true) (hnp : (s.procs np).state.alive = false)
    (hfree : ∀ k, k ≠ cur → (s.procs k).place.slot ≠ some np) (hkept : p.place = (s.procs np).place)
    (hf : Forks cur np p place) :
    Family ((s.set np p).set cur { s.procs cur with place := place }) := by
  have hne : np ≠ cur := by
    rintro rfl
    rw [hcur] at hnp
    cases hnp
  have hnone : ∀ k, p.place.slot ≠ some k := by
    intro k hk
    rw [hkept] at hk
    rw [(h.forker np k hk).1] at hnp
    cases hnp
  have hstate : p.state = .unused ∧ p.parent = none ∨ p.state = .embryo ∧ p.parent ≠ some np ∨
      p.state = .runnable ∧ p.parent = some cur := by grind [Forks]
  have hslot : ∀ k, place.slot = some k → k = np ∧ p.state = .embryo := by grind [Forks]
  have hforking : place = .forking np → p.parent = none := by grind [Forks]
  have hforked : place = .forked np → p.parent = some cur := by grind [Forks]
  clear hf
  obtain ⟨_, _, _, _, _, _, _, _, _, _⟩ := h
  constructor
  all_goals
    simp only [Ptable.set, update_apply]
    grind

theorem forkAlloc (hrun : (s.procs cur).state = .running) : Family (forkAlloc s cur) := by
  unfold Xv6.forkAlloc
  split
  next => exact h
  next np hfind =>
    have hun : (s.procs np).state = .unused := by simpa using List.find?_some hfind
    -- no one forks into a slot that is UNUSED
    have hno : ∀ k, (s.procs k).place.slot ≠ some np := by
      intro k hk
      rw [(h.forker k np hk).2] at hun
      cases hun
    have hpair : Family ((s.set np { s.procs np with
        state := .embryo, pid := s.nextpid, born := s.births }).set cur
        { s.procs cur with place := .forking np }) :=
      h.pair (by rw [hrun]; rfl) (by rw [hun]; rfl) (fun k _ => hno k) rfl
        (.inr (.inl ⟨rfl, h.unused np hun, rfl⟩))
    exact hpair.calm rfl fun k => .refl k _

/-- A step of `fork` after the first one. -/
theorem child (hcur : (s.procs cur).place.slot = some np) (hkept : p.place = (s.procs np).place)
    (hf : Forks cur np p place) :
    Family ((s.set np p).set cur { s.procs cur with place := place }) := by
  obtain ⟨halive, hembryo⟩ := h.forker cur np hcur
  refine h.pair halive (by rw [hembryo]; rfl) (fun k hk hnp => ?_) hkept hf
  exact hk (h.forks_one k cur np hnp hcur)

end

/-- A child that has exited is no one's parent, so its slot can be given back. -/
theorem reap (hk : (s.procs k).state = .zombie) :
    Family (s.set k (reapedSlot (s.procs k))) := by
  obtain ⟨_, _, _, _, _, _, _, _, _, _⟩ := h
  constructor
  all_goals
    simp only [Ptable.set, update_apply, reapedSlot]
    grind

/-- The caller of `wait` goes to sleep when no child of its has exited. -/
theorem waitSleeps (halive : (s.procs cur).state.alive = true)
    (hno : ∀ k, (s.procs k).parent = some cur → (s.procs k).state ≠ .zombie) :
    Family (s.set cur { s.procs cur with
      state := .sleeping, chan := .proc cur, place := .waiting }) := by
  obtain ⟨hunused, hembryo, hzombie⟩ := ProcState.ne_of_alive halive
  obtain ⟨_, _, _, _, _, _, _, _, _, _⟩ := h
  constructor
  all_goals
    simp only [Ptable.set, update_apply]
    grind

end

end Family

/-! ### `exit` -/

/-- The table when the loop of `exit` has come past the slots in `done`. -/
structure Orphaned (cur : ProcIdx) (done : List ProcIdx) (s s' : Ptable) : Prop where
  initproc : s'.initproc = s.initproc
  births : s'.births = s.births
  exits : s'.exits = s.exits
  waits : s'.waits = s.waits
  state : ∀ j, (s'.procs j).state = (s.procs j).state ∨
    (s.procs j).state = .sleeping ∧ (s'.procs j).state = .runnable
  chan : ∀ j, (s'.procs j).chan = (s.procs j).chan
  place : ∀ j, (s'.procs j).place = (s.procs j).place
  born : ∀ j, (s'.procs j).born = (s.procs j).born
  parent : ∀ j, (s'.procs j).parent =
    if j ∈ done ∧ (s.procs j).parent = some cur then some s.initproc else (s.procs j).parent
  parent_woken : ∀ q, (s.procs cur).parent = some q → ¬ (s'.procs q).inWait q
  init_woken : ∀ j ∈ done, (s.procs j).parent = some cur → (s.procs j).state = .zombie →
    ¬ (s'.procs s.initproc).inWait s.initproc

theorem wakeup1_orphaned (cur : ProcIdx) (s : Ptable) :
    Orphaned cur [] s (wakeup1 s (parentChan (s.procs cur).parent)) := by
  constructor <;> simp only [wakeup1, rouse]
  all_goals grind [parentChan]

theorem Orphaned.next {done : List ProcIdx} {s1 : Ptable} (h : Orphaned cur done s s1)
    (k : ProcIdx) :
    Orphaned cur (k :: done) s (exitChild cur s1 k) := by
  obtain ⟨_, _, _, _, _, _, _, _, hparent, _, _⟩ := h
  have hk := hparent k
  unfold exitChild
  split
  next hcur =>
    split
    next hzombie =>
      constructor <;> simp only [wakeup1, rouse, adopt, Ptable.set, update_apply]
      all_goals grind
    next hzombie =>
      constructor <;> simp only [adopt, Ptable.set, update_apply]
      all_goals grind
  next hcur => constructor <;> grind

theorem Orphaned.foldl {done : List ProcIdx} {s1 : Ptable} (h : Orphaned cur done s s1)
    (l : List ProcIdx) : Orphaned cur (l.reverse ++ done) s (l.foldl (exitChild cur) s1) := by
  induction l generalizing done s1 with
  | nil => exact h
  | cons k l ih => simpa using ih (h.next k)

/-- The parent of the process and `init` are awake when they get a child that has exited. -/
theorem Family.exit (h : Family s) (hcur : (s.procs cur).state = .running)
    (hplace : (s.procs cur).place = .elsewhere) (hinit : cur ≠ s.initproc) :
    Family (exitSection s cur) := by
  obtain ⟨heq, _, _, _, hstate, hchan, hplaces, _, hparent, hpw, hiw⟩ :=
    (wakeup1_orphaned cur s).foldl (finRange nproc)
  simp only [append_nil, mem_reverse, mem_finRange, true_and] at hparent hiw
  unfold exitSection
  generalize (finRange nproc).foldl (exitChild cur) _ = s1 at *
  obtain ⟨_, _, _, _, _, _, _, _, _, _⟩ := h
  constructor
  all_goals
    simp only [becomeZombie, Ptable.set, update_apply]
    grind

/-! ### What `wait` returned -/

/-- The child that a call of `wait` returned. -/
def WaitReturn.returned : WaitReturn → Option Nat
  | .child born _ _ => some born
  | .failed _ _ _ => none

/-- The children that calls of `wait` returned. -/
def Ptable.returned (s : Ptable) : List Nat := s.waits.filterMap WaitReturn.returned

/-- A child comes from its own parent's `wait`; -1 means that the caller was killed or had
no children. -/
def WaitReturn.Fair : WaitReturn → Prop
  | .child _ caller parent => parent = some caller
  | .failed _ killed kids => killed = false → kids = false

structure Records (s : Ptable) : Prop where
  lt : ∀ k, (s.procs k).state ≠ .unused → (s.procs k).born < s.births
  inj : ∀ k k', (s.procs k).state ≠ .unused → (s.procs k').state ≠ .unused →
    (s.procs k).born = (s.procs k').born → k = k'
  exited : ∀ k, (s.procs k).state = .zombie → (s.procs k).born ∈ s.exits
  past : ∀ b ∈ s.returned, b < s.births ∧ b ∈ s.exits ∧
    ∀ k, (s.procs k).state ≠ .unused → (s.procs k).born ≠ b
  nodup : s.returned.Nodup
  fair : ∀ r ∈ s.waits, r.Fair

namespace Records

section

variable (h : Records s)
include h

theorem mono (hbirths : s'.births = s.births) (hexits : s.exits ⊆ s'.exits)
    (hwaits : s'.waits = s.waits)
    (hslot : ∀ k, (s'.procs k).state ≠ .unused →
      (s.procs k).state ≠ .unused ∧ (s'.procs k).born = (s.procs k).born)
    (hzombie : ∀ k, (s'.procs k).state = .zombie →
      (s.procs k).state = .zombie ∨ (s'.procs k).born ∈ s'.exits) : Records s' where
  lt := fun k hk => by
    rw [hbirths, (hslot k hk).2]
    exact h.lt k (hslot k hk).1
  inj := fun k k' hk hk' hb => by
    rw [(hslot k hk).2, (hslot k' hk').2] at hb
    exact h.inj k k' (hslot k hk).1 (hslot k' hk').1 hb
  exited := fun k hk => by
    obtain hz | hz := hzombie k hk
    · have hb := (hslot k (by rw [hk]; exact nofun)).2
      rw [hb]
      exact hexits (h.exited k hz)
    · exact hz
  past := fun b hb => by
    rw [Ptable.returned, hwaits] at hb
    obtain ⟨hlt, hex, hno⟩ := h.past b hb
    refine ⟨hbirths ▸ hlt, hexits hex, fun k hk => ?_⟩
    rw [(hslot k hk).2]
    exact hno k (hslot k hk).1
  nodup := by
    rw [Ptable.returned, hwaits]
    exact h.nodup
  fair := by
    rw [hwaits]
    exact h.fair

theorem calm (hbirths : s'.births = s.births) (hexits : s'.exits = s.exits)
    (hwaits : s'.waits = s.waits) (hcalm : ∀ k, Calm k (s.procs k) (s'.procs k)) : Records s' := by
  refine h.mono hbirths (hexits ▸ List.Subset.refl _) hwaits (fun k hk => ?_) fun k hk => ?_
  · exact ⟨fun hu => hk (((hcalm k).state_iff rfl).mpr hu), (hcalm k).born⟩
  · exact .inl (((hcalm k).state_iff rfl).mp hk)

theorem forkAlloc (hrun : (s.procs cur).state = .running) :
    Records (forkAlloc s cur) := by
  unfold Xv6.forkAlloc
  split
  next => exact h
  next np hfind =>
    have hun : (s.procs np).state = .unused := by simpa using List.find?_some hfind
    obtain ⟨_, _, _, hpast, hnodup, hfair⟩ := h
    refine ⟨?_, ?_, ?_, fun b hb => ?_, hnodup, hfair⟩
    case refine_4 =>
      obtain ⟨hlt, hex, hno⟩ := hpast b hb
      simp only [Ptable.set, update_apply]
      grind
    all_goals
      simp only [Ptable.set, update_apply]
      grind

theorem exit (hcur : (s.procs cur).state = .running) :
    Records (exitSection s cur) := by
  obtain ⟨_, hbirths, hexits, hwaits, hstate, _, _, hborn, _, _, _⟩ :=
    (wakeup1_orphaned cur s).foldl (finRange nproc)
  unfold exitSection
  generalize (finRange nproc).foldl (exitChild cur) _ = s1 at *
  refine h.mono hbirths ?_ hwaits (fun k => ?_) fun k => ?_
  · exact hexits ▸ subset_cons_self _ _
  · simp only [becomeZombie, Ptable.set, update_apply]
    grind
  · simp only [becomeZombie, Ptable.set, update_apply]
    grind

/-- A process that has exited and has no slot any more is returned for the first time. -/
theorem returnsChild {b : Nat} (hlt : b < s.births) (hexit : b ∈ s.exits)
    (hno : ∀ k, (s.procs k).state ≠ .unused → (s.procs k).born ≠ b) (hnew : b ∉ s.returned) :
    Records { s with waits := .child b cur (some cur) :: s.waits } where
  lt := h.lt
  inj := h.inj
  exited := h.exited
  past := fun b' hb => by
    obtain rfl | hb := mem_cons.mp hb
    · exact ⟨hlt, hexit, hno⟩
    · exact h.past b' hb
  nodup := nodup_cons.mpr ⟨hnew, h.nodup⟩
  fair := forall_mem_cons.mpr ⟨rfl, h.fair⟩

theorem returnsFailed {killed kids : Bool} (cur : ProcIdx) (hfair : killed = false → kids = false) :
    Records { s with waits := .failed cur killed kids :: s.waits } :=
  ⟨h.lt, h.inj, h.exited, h.past, h.nodup, forall_mem_cons.mpr ⟨hfair, h.fair⟩⟩

theorem reap (hk : (s.procs k).state = .zombie)
    (hparent : (s.procs k).parent = some cur) :
    Records { s.set k (reapedSlot (s.procs k)) with
      waits := .child (s.procs k).born cur (s.procs k).parent :: s.waits } := by
  have hused : (s.procs k).state ≠ .unused := by rw [hk]; exact nofun
  have hslot : ∀ j, ((s.set k (reapedSlot (s.procs k))).procs j).state ≠ .unused →
      j ≠ k ∧ (s.set k (reapedSlot (s.procs k))).procs j = s.procs j := by
    intro j hj
    simp only [Ptable.set, update_apply, reapedSlot] at hj ⊢
    grind
  have hback : Records (s.set k (reapedSlot (s.procs k))) := by
    refine h.mono rfl (List.Subset.refl _) rfl (fun j hj => ?_) fun j hj => ?_
    · obtain ⟨-, he⟩ := hslot j hj
      exact ⟨he ▸ hj, by rw [he]⟩
    · obtain ⟨-, he⟩ := hslot j (by rw [hj]; exact nofun)
      exact .inl (he ▸ hj)
  rw [hparent]
  refine hback.returnsChild (h.lt k hused) (h.exited k hk) (fun j hj hb => ?_)
    fun hb => (h.past _ hb).2.2 k hused rfl
  obtain ⟨hne, he⟩ := hslot j hj
  rw [he] at hj hb
  exact hne (h.inj j k hj hused hb)

end

end Records

/-! ### Runs -/

theorem waitScan_child {l : List ProcIdx} {havekids kids : Bool}
    (h : waitScan s cur l havekids = (some k, kids)) :
    (s.procs k).parent = some cur ∧ (s.procs k).state = .zombie := by
  induction l generalizing havekids with
  | nil => simp [waitScan] at h
  | cons j l ih =>
    simp only [waitScan] at h
    split at h
    next => exact ih h
    next hp =>
      split at h
      next hz =>
        obtain ⟨rfl, -⟩ : j = k ∧ true = kids := by simpa using h
        exact ⟨not_not.mp hp, hz⟩
      next => exact ih h

/-- Without a child that has exited, `havekids` tells whether there are children. -/
theorem waitScan_none {l : List ProcIdx} {havekids kids : Bool}
    (h : waitScan s cur l havekids = (none, kids)) :
    (∀ k ∈ l, (s.procs k).parent = some cur → (s.procs k).state ≠ .zombie) ∧
      (kids = true ↔ havekids = true ∨ ∃ k ∈ l, (s.procs k).parent = some cur) := by
  induction l generalizing havekids with
  | nil =>
    obtain rfl : havekids = kids := by simpa [waitScan] using h
    simp
  | cons j l ih =>
    simp only [waitScan] at h
    split at h
    next hp => grind
    next hp =>
      split at h
      next => simp at h
      next hz => grind

theorem waitCaller_calm (halive : (s.procs cur).state.alive = true) (j : ProcIdx) :
    Calm j (s.procs j) ((s.set cur { s.procs cur with
      state := .running, chan := .none, place := .elsewhere }).procs j) := by
  refine Calm.set _ ?_ j
  exact ⟨.inr ⟨halive, rfl⟩, rfl, rfl, .inr rfl, fun hw => nomatch hw.1⟩

theorem waitTurn_inv (hf : Family s) (hr : Records s) (halive : (s.procs cur).state.alive = true) :
    Family (waitTurn s cur) ∧ Records (waitTurn s cur) := by
  unfold waitTurn
  split
  next k kids hscan =>
    obtain ⟨hparent, hzombie⟩ := waitScan_child hscan
    have hne : cur ≠ k := by
      rintro rfl
      rw [hzombie] at halive
      cases halive
    have halive' : ((s.set k (reapedSlot (s.procs k))).procs cur).state.alive = true := by
      simpa [Ptable.set, update_of_ne hne] using halive
    have hcalm := waitCaller_calm halive'
    exact ⟨(hf.reap hzombie).calm rfl hcalm, (hr.reap hzombie hparent).calm rfl rfl rfl hcalm⟩
  next havekids hscan =>
    obtain ⟨hno, hkids⟩ := waitScan_none hscan
    split
    next hret =>
      have hcalm := waitCaller_calm halive
      refine ⟨hf.calm rfl hcalm, ?_⟩
      refine (hr.returnsFailed cur fun hkilled => ?_).calm rfl rfl rfl hcalm
      have hnone : havekids = false := by simpa [hkilled] using hret
      simpa [hnone] using hkids
    next hsleep =>
      have hno' : ∀ k, (s.procs k).parent = some cur → (s.procs k).state ≠ .zombie :=
        fun k => hno k (mem_finRange k)
      refine ⟨hf.waitSleeps halive hno', hr.mono rfl (List.Subset.refl _) rfl ?_ ?_⟩
      all_goals
        intro j
        simp only [Ptable.set, update_apply]
        grind

/-- A step that touches one slot and leaves it as alive as it was. -/
theorem set_inv (p : Slot) (hf : Family s) (hr : Records s) (hcalm : Calm k (s.procs k) p) :
    Family (s.set k p) ∧ Records (s.set k p) :=
  ⟨hf.calm rfl (hcalm.set p), hr.calm rfl rfl rfl (hcalm.set p)⟩

theorem wakeup1_inv (hf : Family s) (hr : Records s) (chan : Chan) :
    Family (wakeup1 s chan) ∧ Records (wakeup1 s chan) :=
  ⟨hf.calm rfl fun k => rouse_calm chan k (s.procs k),
    hr.calm rfl rfl rfl fun k => rouse_calm chan k (s.procs k)⟩

theorem killPid_inv (hf : Family s) (hr : Records s) (pid : Word) :
    Family (killPid s pid) ∧ Records (killPid s pid) := by
  unfold killPid
  split
  next => exact ⟨hf, hr⟩
  next k hfind =>
    refine set_inv _ hf hr ⟨?_, rfl, rfl, .inl rfl, fun hw => ?_⟩
    · by_cases hsleep : (s.procs k).state = .sleeping
      · exact .inr ⟨by rw [hsleep]; rfl, by simp [hsleep, ProcState.alive]⟩
      · exact .inl (by simp [hsleep])
    · simp only [Slot.inWait] at hw
      grind

/-- In a step of `fork` the slots keep their numbers, and no process exits. -/
theorem Records.forkStep {np : ProcIdx} {p q : Slot} (h : Records s)
    (hnp : (s.procs np).state = .embryo) (hcur : (s.procs cur).state = .running)
    (hp : p.born = (s.procs np).born) (hpz : p.state ≠ .zombie)
    (hq : q.born = (s.procs cur).born) (hqz : q.state ≠ .zombie) :
    Records ((s.set np p).set cur q) := by
  refine h.mono rfl (List.Subset.refl _) rfl (fun j => ?_) fun j => ?_
  all_goals
    simp only [Ptable.set, update_apply]
    grind

theorem tableStep_inv {a : TableAct} (hf : Family s) (hr : Records s)
    (hs : tableStep s a = some s') : Family s' ∧ Records s' := by
  cases a with
  | schedule k =>
    obtain ⟨⟨hstate, -⟩, rfl⟩ := ite_some_none_eq_some.mp hs
    exact set_inv _ hf hr
      ⟨.inr ⟨by rw [hstate]; rfl, rfl⟩, rfl, rfl, .inl rfl, fun hw => nomatch hw.1⟩
  | yield k =>
    obtain ⟨hstate, rfl⟩ := ite_some_none_eq_some.mp hs
    exact set_inv _ hf hr
      ⟨.inr ⟨by rw [hstate]; rfl, rfl⟩, rfl, rfl, .inl rfl, fun hw => nomatch hw.1⟩
  | sleep k c =>
    obtain ⟨⟨hstate, -⟩, rfl⟩ := ite_some_none_eq_some.mp hs
    exact set_inv _ hf hr
      ⟨.inr ⟨by rw [hstate]; rfl, rfl⟩, rfl, rfl, .inl rfl, fun hw => nomatch hw.2⟩
  | wakeup c =>
    rw [tableStep] at hs
    cases hs
    exact wakeup1_inv hf hr (.other c)
  | forkAlloc k =>
    obtain ⟨⟨hstate, hplace⟩, rfl⟩ := ite_some_none_eq_some.mp hs
    exact ⟨hf.forkAlloc hstate, hr.forkAlloc hstate⟩
  | forkFails k =>
    rw [tableStep] at hs
    split at hs
    next np hstate hplace =>
      cases hs
      have hslot : (s.procs k).place.slot = some np := by rw [hplace]; rfl
      have hembryo := (hf.forker k np hslot).2
      exact ⟨hf.child hslot rfl (.inl ⟨rfl, hf.forking k np hplace, rfl⟩),
        hr.forkStep hembryo hstate rfl nofun rfl (by simp [hstate])⟩
    next => cases hs
  | forkParent k =>
    rw [tableStep] at hs
    split at hs
    next np hstate hplace =>
      cases hs
      have hslot : (s.procs k).place.slot = some np := by rw [hplace]; rfl
      have hembryo := (hf.forker k np hslot).2
      exact ⟨hf.child hslot rfl (.inr (.inr (.inl ⟨hembryo, rfl, rfl⟩))),
        hr.forkStep hembryo hstate rfl (by simp [hembryo]) rfl (by simp [hstate])⟩
    next => cases hs
  | forkRuns k =>
    rw [tableStep] at hs
    split at hs
    next np hstate hplace =>
      cases hs
      have hslot : (s.procs k).place.slot = some np := by rw [hplace]; rfl
      have hembryo := (hf.forker k np hslot).2
      exact ⟨hf.child hslot rfl (.inr (.inr (.inr ⟨rfl, hf.forked k np hplace, rfl⟩))),
        hr.forkStep hembryo hstate rfl nofun rfl (by simp [hstate])⟩
    next => cases hs
  | exit k =>
    obtain ⟨⟨hstate, hplace, hinit⟩, rfl⟩ := ite_some_none_eq_some.mp hs
    exact ⟨hf.exit hstate hplace hinit, hr.exit hstate⟩
  | wait k =>
    obtain ⟨⟨hstate, -⟩, rfl⟩ := ite_some_none_eq_some.mp hs
    exact waitTurn_inv hf hr (by rw [hstate]; rfl)
  | rewait k =>
    obtain ⟨⟨hstate, -⟩, rfl⟩ := ite_some_none_eq_some.mp hs
    exact waitTurn_inv hf hr (by rw [hstate]; rfl)
  | kill pid =>
    rw [tableStep] at hs
    cases hs
    exact killPid_inv hf hr pid

theorem family_firstTable : Family firstTable := by
  constructor <;> simp only [firstTable] <;> grind

theorem records_firstTable : Records firstTable := by
  refine ⟨?_, ?_, ?_, nofun, nodup_nil, nofun⟩ <;> simp only [firstTable] <;> grind

/-- **The process tree and `wait`, in every state that any interleaving reaches.** -/
theorem process_tree (hrun : Run tableStep (fun _ _ => True) firstTable s) :
    (∀ k, k ≠ s.initproc → (s.procs k).state ≠ .unused → (s.procs k).state ≠ .embryo →
      ∃ q, (s.procs k).parent = some q ∧ (s.procs q).state ≠ .unused ∧
        (s.procs q).state ≠ .zombie) ∧
    s.returned.Nodup ∧
    (∀ b caller parent, .child b caller parent ∈ s.waits → b ∈ s.exits ∧ parent = some caller) ∧
    (∀ caller kids, .failed caller false kids ∈ s.waits → kids = false) ∧
    ¬ ∃ q k, (s.procs q).state = .sleeping ∧ (s.procs q).chan = .proc q ∧
      (s.procs k).parent = some q ∧ (s.procs k).state = .zombie := by
  obtain ⟨hf, hr⟩ : Family s ∧ Records s :=
    hrun.inv ⟨family_firstTable, records_firstTable⟩ fun _ _ _ h _ hs => tableStep_inv h.1 h.2 hs
  refine ⟨fun k hk hu he => ?_, hr.nodup, fun b caller parent hw => ?_, fun caller kids hw => ?_,
    ?_⟩
  · obtain ⟨q, hq, halive⟩ := hf.parent k hk hu he
    obtain ⟨hunused, -, hzombie⟩ := ProcState.ne_of_alive halive
    exact ⟨q, hq, hunused, hzombie⟩
  · exact ⟨(hr.past b (mem_filterMap.mpr ⟨_, hw, rfl⟩)).2.1, hr.fair _ hw⟩
  · exact hr.fair _ hw rfl
  · rintro ⟨q, k, hsleep, hchan, hparent, hzombie⟩
    exact hf.waiting k q ⟨hsleep, hchan⟩ hparent hzombie

/-- `init` sleeps in `wait`; its child forks and exits, so `init` adopts a grandchild, reaps
the child and later the grandchild, and at last has no children. -/
def grandchild : List TableAct :=
  [.schedule 0, .forkAlloc 0, .forkParent 0, .forkRuns 0, .wait 0, .schedule 1, .forkAlloc 1,
    .forkParent 1, .forkRuns 1, .exit 1, .rewait 0, .schedule 2, .wait 0, .exit 2, .rewait 0,
    .wait 0]

theorem process_tree_grandchild :
    (grandchild.foldlM tableStep firstTable).map (fun s => s.waits)
      = some [.failed 0 false false, .child 2 0 (some 0), .child 1 0 (some 0)] ∧
    ∀ s, grandchild.foldlM tableStep firstTable = some s →
      (∀ k, k ≠ s.initproc → (s.procs k).state ≠ .unused → (s.procs k).state ≠ .embryo →
        ∃ q, (s.procs k).parent = some q ∧ (s.procs q).state ≠ .unused ∧
          (s.procs q).state ≠ .zombie) ∧
      s.returned.Nodup ∧
      (∀ b caller parent, .child b caller parent ∈ s.waits → b ∈ s.exits ∧ parent = some caller) ∧
      (∀ caller kids, .failed caller false kids ∈ s.waits → kids = false) ∧
      ¬ ∃ q k, (s.procs q).state = .sleeping ∧ (s.procs q).chan = .proc q ∧
        (s.procs k).parent = some q ∧ (s.procs k).state = .zombie :=
  ⟨by decide +kernel, fun _ h => process_tree (.of_foldlM h fun _ _ _ => trivial)⟩

end Xv6
