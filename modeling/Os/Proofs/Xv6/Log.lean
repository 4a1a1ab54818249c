/-
A crash leaves every operation done or undone.

Between two commits operations change the cache only, and the disk is what the groups
committed so far have made of it.  From the moment the header is written the new group
counts, and the log holds all of its blocks, so the disk is on its way to the new state
and stays so however often copying is interrupted.  Both are one statement,
`Redo.Pending`, and no step breaks it.

What makes a group complete is that a commit starts when no operation is outstanding.
What makes it fit is the buffer cache: a group too large for the log has taken all
buffers, and `write_log` finds none for its first block.
-/
import Mathlib.Data.Finset.Card
import Os.Lib.Redo
import Os.Lib.Runs
import Os.Xv6.Log

namespace Xv6

open Finset hiding map_singleton mem_singleton

open List Option Function
open Redo (replay replay_append replay_of_forall_ne replay_concat Pending pending_nil_iff)
open Runs (Run)

variable {D : Type} {L : LogDev} {s s' s0 : LogState D} {d0 : Nat → D} {o o' b : Nat} {v : D}
variable {x : OpState} {tail : Nat}

/-! ### What the committed groups make of the disk -/

def LogWrite.pair (w : LogWrite D) : Nat × D := (w.block, w.data)

/-- The disk after groups of operations. -/
def replayAll (d : Nat → D) (gs : List (List (LogWrite D))) : Nat → D :=
  replay d (gs.flatten.map LogWrite.pair)

theorem replayAll_concat (d : Nat → D) (gs : List (List (LogWrite D))) (g : List (LogWrite D)) :
    replayAll d (gs ++ [g]) = replay (replayAll d gs) (g.map LogWrite.pair) := by
  unfold replayAll
  rw [flatten_append, map_append, replay_append, flatten_singleton]

theorem replayAll_concat_nil (d : Nat → D) (gs : List (List (LogWrite D))) :
    replayAll d (gs ++ [[]]) = replayAll d gs := by
  rw [replayAll_concat]
  rfl

/-! ### What becomes of an operation -/

def writesOf (o : Nat) (l : List (LogWrite D)) : List (LogWrite D) := l.filter fun w => w.op = o

theorem writesOf_append (o : Nat) (l l' : List (LogWrite D)) :
    writesOf o (l ++ l') = writesOf o l ++ writesOf o l' := filter_append _ _

theorem writesOf_of_ne (h : o' ≠ o) (b : Nat) (v : D) : writesOf o [⟨o', b, v⟩] = [] := by
  simp [writesOf, h]

namespace LogHist

variable {h : LogHist D}

/-- All of the operation's writes are in the committed groups. -/
def Present (h : LogHist D) (o : Nat) : Prop :=
  writesOf o h.committed.flatten = writesOf o h.writes

/-- None of them is. -/
def Absent (h : LogHist D) (o : Nat) : Prop := writesOf o h.committed.flatten = []

/-- The operation belongs to the group that is open. -/
structure Open (h : LogHist D) (o : Nat) : Prop where
  absent : h.Absent o
  all : writesOf o h.opened = writesOf o h.writes

/-- It was in an earlier group, or was cut off by a crash. -/
structure Past (h : LogHist D) (o : Nat) : Prop where
  fate : h.Present o ∨ h.Absent o
  closed : writesOf o h.opened = []

theorem flatten_commit (h : LogHist D) :
    h.commit.committed.flatten = h.committed.flatten ++ h.opened := by
  show (h.committed ++ [h.opened]).flatten = _
  rw [flatten_append, flatten_singleton]

/-- **A commit takes in the whole of each operation of the group.** -/
theorem Open.commit (ho : h.Open o) : h.commit.Present o := by
  show writesOf o h.commit.committed.flatten = writesOf o h.writes
  rw [flatten_commit, writesOf_append, ho.absent, ho.all, nil_append]

theorem Past.commit (ho : h.Past o) : h.commit.Past o := by
  have hsame : writesOf o h.commit.committed.flatten = writesOf o h.committed.flatten := by
    rw [flatten_commit, writesOf_append, ho.closed, append_nil]
  refine ⟨?_, rfl⟩
  rcases ho.fate with hp | ha
  · exact .inl (hsame.trans hp)
  · exact .inr (hsame.trans ha)

end LogHist

/-- What an operation has done fits its state. -/
def FateOf (h : LogHist D) (o : Nat) : OpState → Prop
  | .fresh => h.Absent o ∧ writesOf o h.opened = [] ∧ writesOf o h.writes = []
  | .active _ => h.Open o
  | .checked _ _ => h.Open o
  | .ended => h.Open o ∨ h.Past o

def OpState.Live : OpState → Prop
  | .active _ => True
  | .checked _ _ => True
  | _ => False

section

variable {ops : Nat → OpState} {A : Finset Nat} (hA : ∀ o, (ops o).Live ↔ o ∈ A)
include hA

theorem live_insert (hx : x.Live) (o' : Nat) : (update ops o x o').Live ↔ o' ∈ insert o A := by
  by_cases ho : o' = o
  · rw [ho, update_self]
    exact iff_of_true hx (mem_insert_self o A)
  · rw [update_of_ne ho, hA, mem_insert]
    exact ⟨.inr, fun h => h.resolve_left ho⟩

theorem live_erase (hx : ¬ x.Live) (o' : Nat) : (update ops o x o').Live ↔ o' ∈ A.erase o := by
  by_cases ho : o' = o
  · rw [ho, update_self]
    exact iff_of_false hx (notMem_erase o A)
  · rw [update_of_ne ho, hA, mem_erase]
    exact ⟨fun h => ⟨ho, h⟩, fun h => h.2⟩

end

/-- Operations, the count of those that are under way, and what they have done. -/
structure OpsInv (ops : Nat → OpState) (outstanding : Nat) (h : LogHist D) : Prop where
  live : ∃ A : Finset Nat, (∀ o, (ops o).Live ↔ o ∈ A) ∧ A.card = outstanding
  fate : ∀ o, FateOf h o (ops o)
  synced : ∀ o ∈ h.synced, ops o = .ended ∧ h.Present o ∧ writesOf o h.opened = []

namespace OpsInv

variable {ops : Nat → OpState} {n : Nat} {h : LogHist D}

theorem not_live (hi : OpsInv ops 0 h) (o : Nat) : ¬ (ops o).Live := by
  obtain ⟨A, hA, hcard⟩ := hi.live
  rw [card_eq_zero] at hcard
  rw [hA, hcard]
  exact notMem_empty o

section

variable (hi : OpsInv ops n h)
include hi

theorem not_synced (hlive : ops o ≠ .ended) : o ∉ h.synced :=
  fun ho => hlive (hi.synced o ho).1

theorem synced_update (hlive : ops o ≠ .ended) :
    ∀ o' ∈ h.synced, update ops o x o' = .ended ∧ h.Present o' ∧
      writesOf o' h.opened = [] := by
  intro o' ho'
  have ho : o' ≠ o := by
    intro ho
    exact hi.not_synced hlive (ho ▸ ho')
  rw [update_of_ne ho]
  exact hi.synced o' ho'

theorem fate_update (hx : FateOf h o x) (o' : Nat) :
    FateOf h o' (update ops o x o') := by
  by_cases ho : o' = o
  · rw [ho, update_self]
    exact hx
  · rw [update_of_ne ho]
    exact hi.fate o'

theorem begin (hop : ops o = .fresh) :
    OpsInv (update ops o (.active [])) (n + 1) h := by
  have hfate := hi.fate o
  rw [hop] at hfate
  obtain ⟨habsent, hopened, hwrites⟩ := hfate
  obtain ⟨A, hA, hcard⟩ := hi.live
  have hoA : o ∉ A := by
    rw [← hA, hop]
    exact id
  refine ⟨⟨insert o A, live_insert hA trivial, ?_⟩, ?_, hi.synced_update (by simp [hop])⟩
  · rw [card_insert_of_notMem hoA, hcard]
  · exact hi.fate_update ⟨habsent, hopened.trans hwrites.symm⟩

/-- An operation that is under way takes its next step. -/
theorem alter (hold : (ops o).Live) (hnew : x.Live) (hfate : FateOf h o x) :
    OpsInv (update ops o x) n h := by
  obtain ⟨A, hA, hcard⟩ := hi.live
  refine ⟨⟨A, fun o' => ?_, hcard⟩, hi.fate_update hfate, hi.synced_update ?_⟩
  · by_cases ho : o' = o
    · rw [ho, update_self, ← hA]
      exact iff_of_true hnew hold
    · rw [update_of_ne ho, hA]
  · intro hended
    rw [hended] at hold
    exact hold

theorem finish {logged : List Nat} (hop : ops o = .active logged) :
    OpsInv (update ops o .ended) (n - 1) h := by
  obtain ⟨A, hA, hcard⟩ := hi.live
  have hfate := hi.fate o
  rw [hop] at hfate
  have hoA : o ∈ A := by
    rw [← hA, hop]
    trivial
  refine ⟨⟨A.erase o, live_erase hA id, ?_⟩, hi.fate_update (.inl hfate),
    hi.synced_update (by simp [hop])⟩
  · rw [card_erase_of_mem hoA, hcard]

theorem write {logged : List Nat} (hop : ops o = .active logged)
    (b : Nat) (v : D) : OpsInv (update ops o (.checked logged b)) n
      { h with writes := h.writes ++ [⟨o, b, v⟩], opened := h.opened ++ [⟨o, b, v⟩] } := by
  have hopen : h.Open o := by
    have hfate := hi.fate o
    rwa [hop] at hfate
  have hlive :=
    (hi.alter (o := o) (x := .checked logged b) (by rw [hop]; trivial) trivial hopen).live
  have hother : ∀ o' (l : List (LogWrite D)), o' ≠ o →
      writesOf o' (l ++ [⟨o, b, v⟩]) = writesOf o' l := by
    intro o' l ho
    rw [writesOf_append, writesOf_of_ne (Ne.symm ho), append_nil]
  refine ⟨hlive, fun o' => ?_, fun o' ho' => ?_⟩
  · by_cases ho : o' = o
    · rw [ho, update_self]
      refine ⟨hopen.absent, ?_⟩
      rw [writesOf_append, writesOf_append, hopen.all]
    · rw [update_of_ne ho]
      have hfate := hi.fate o'
      cases hst : ops o' with
      | fresh =>
        rw [hst] at hfate
        exact ⟨hfate.1, (hother o' _ ho).trans hfate.2.1, (hother o' _ ho).trans hfate.2.2⟩
      | active l =>
        rw [hst] at hfate
        refine ⟨hfate.absent, ?_⟩
        exact (hother o' _ ho).trans (hfate.all.trans (hother o' _ ho).symm)
      | checked l b' =>
        rw [hst] at hfate
        refine ⟨hfate.absent, ?_⟩
        exact (hother o' _ ho).trans (hfate.all.trans (hother o' _ ho).symm)
      | ended =>
        rw [hst] at hfate
        rcases hfate with hopen' | hpast
        · refine .inl ⟨hopen'.absent, ?_⟩
          exact (hother o' _ ho).trans (hopen'.all.trans (hother o' _ ho).symm)
        · refine .inr ⟨?_, (hother o' _ ho).trans hpast.closed⟩
          exact hpast.fate.imp_left fun hp => hp.trans (hother o' _ ho).symm
  · obtain ⟨hended, hpresent, hclosed⟩ :=
      hi.synced_update (o := o) (x := .checked logged b) (by simp [hop]) o' ho'
    have ho : o' ≠ o := by
      intro ho
      exact hi.not_synced (by simp [hop]) (ho ▸ ho')
    exact ⟨hended, hpresent.trans (hother o' _ ho).symm, (hother o' _ ho).trans hclosed⟩

end

/-- **The commit of a group**: no operation is in the middle of it. -/
theorem commit (hi : OpsInv ops 0 h) : OpsInv ops 0 h.commit := by
  refine ⟨hi.live, fun o => ?_, fun o ho => ?_⟩
  · have hfate := hi.fate o
    have hlive := hi.not_live o
    cases hst : ops o with
    | fresh =>
      rw [hst] at hfate
      refine ⟨?_, rfl, hfate.2.2⟩
      show writesOf o h.commit.committed.flatten = []
      rw [LogHist.flatten_commit, writesOf_append, hfate.1, hfate.2.1, append_nil]
    | active l =>
      rw [hst] at hlive
      exact absurd trivial hlive
    | checked l b =>
      rw [hst] at hlive
      exact absurd trivial hlive
    | ended =>
      rw [hst] at hfate
      rcases hfate with hopen | hpast
      · exact .inr ⟨.inl hopen.commit, rfl⟩
      · exact .inr hpast.commit
  · obtain ⟨hended, hpresent, hclosed⟩ := hi.synced o ho
    refine ⟨hended, ?_, rfl⟩
    show writesOf o h.commit.committed.flatten = _
    rw [LogHist.flatten_commit, writesOf_append, hclosed, append_nil]
    exact hpresent

/-- The operation that made the commit has all of its writes in it. -/
theorem sync (hi : OpsInv ops n h) (hop : ops o = .ended) (hpresent : h.Present o)
    (hclosed : writesOf o h.opened = []) : OpsInv ops n (h.sync o) := by
  refine ⟨hi.live, fun o' => ?_, fun o' ho' => ?_⟩
  · have hfate := hi.fate o'
    cases hst : ops o' with
    | fresh => rwa [hst] at hfate
    | active l =>
      rw [hst] at hfate
      exact ⟨hfate.absent, hfate.all⟩
    | checked l b =>
      rw [hst] at hfate
      exact ⟨hfate.absent, hfate.all⟩
    | ended =>
      rw [hst] at hfate
      rcases hfate with hopen | hpast
      · exact .inl ⟨hopen.absent, hopen.all⟩
      · exact .inr ⟨hpast.fate, hpast.closed⟩
  · rcases mem_cons.mp ho' with rfl | hold
    · exact ⟨hop, hpresent, hclosed⟩
    · exact hi.synced o' hold

/-- **A crash** cuts off the operations of the open group. -/
theorem crash (hi : OpsInv ops n h) :
    OpsInv (fun o => (ops o).stopped) 0 { h with opened := [] } := by
  refine ⟨⟨∅, fun o => ?_, rfl⟩, fun o => ?_, fun o ho => ?_⟩
  · refine iff_of_false ?_ (notMem_empty o)
    cases ops o <;> exact id
  · have hfate := hi.fate o
    cases hst : ops o with
    | fresh =>
      rw [hst] at hfate
      exact ⟨hfate.1, rfl, hfate.2.2⟩
    | active l =>
      rw [hst] at hfate
      exact .inr ⟨.inr hfate.absent, rfl⟩
    | checked l b =>
      rw [hst] at hfate
      exact .inr ⟨.inr hfate.absent, rfl⟩
    | ended =>
      rw [hst] at hfate
      rcases hfate with hopen | hpast
      · exact .inr ⟨.inr hopen.absent, rfl⟩
      · exact .inr ⟨hpast.fate, rfl⟩
  · obtain ⟨hended, hpresent, -⟩ := hi.synced o ho
    refine ⟨?_, hpresent, rfl⟩
    rw [hended]
    rfl

/-- All of an operation's writes have been committed, or none. -/
theorem present_or_absent (hi : OpsInv ops n h) (o : Nat) : h.Present o ∨ h.Absent o := by
  have hfate := hi.fate o
  cases hst : ops o with
  | fresh =>
    rw [hst] at hfate
    exact .inr hfate.1
  | active l =>
    rw [hst] at hfate
    exact .inr hfate.absent
  | checked l b =>
    rw [hst] at hfate
    exact .inr hfate.absent
  | ended =>
    rw [hst] at hfate
    rcases hfate with hopen | hpast
    · exact .inr hopen.absent
    · exact hpast.fate

end OpsInv

/-! ### What each action does -/

theorem beginOp_eq (h : beginOp s o = some s') : s.phase = .running ∧ s.ops o = .fresh ∧
    s.lh.length + (s.outstanding + 1) * maxopblocks ≤ logsize ∧
    s' = { s with
      outstanding := s.outstanding + 1
      ops := update s.ops o (.active []) } := by
  unfold beginOp at h
  split at h
  · rename_i hphase hop
    split at h
    · simp at h
    · rename_i hroom
      exact ⟨hphase, hop, Nat.le_of_not_lt hroom, (some.inj h).symm⟩
  · simp at h

theorem modify_cases (h : modify L s o b v = some s') : s.phase = .running ∧ L.Home b ∧
    ∃ logged, s.ops o = .active logged ∧
      ((∃ p, s' = { s with phase := .panicked p } ∧
          (p = .tooBig → logsize ≤ s.lh.length ∨ L.size - 1 ≤ s.lh.length)) ∨
        s' = s.modified o logged b v) := by
  unfold modify at h
  split at h
  · rename_i logged hphase hop
    split at h
    · simp at h
    rename_i hok
    rw [not_or, not_not] at hok
    refine ⟨hphase, hok.1, logged, hop, ?_⟩
    split at h
    · exact .inl ⟨_, (some.inj h).symm, by simp⟩
    split at h
    · rename_i hbig
      exact .inl ⟨_, (some.inj h).symm, fun _ => hbig⟩
    · split at h
      · exact .inl ⟨_, (some.inj h).symm, by simp⟩
      · exact .inr (some.inj h).symm
  · simp at h

theorem logWrite_eq (h : logWrite s o = some s') : s.phase = .running ∧
    ∃ logged b, s.ops o = .checked logged b ∧
      s' = { s with
        lh := absorb s.lh b
        held := s.held.erase b
        ops := update s.ops o (.active (absorb logged b)) } := by
  unfold logWrite at h
  split at h
  · rename_i logged b hphase hop
    exact ⟨hphase, logged, b, hop, (some.inj h).symm⟩
  · simp at h

theorem endOp_cases (h : endOp s o = some s') : s.phase = .running ∧
    ∃ logged, s.ops o = .active logged ∧
      ((s.outstanding - 1 = 0 ∧ s.lh = [] ∧ s' = { s.ended o with hist := s.hist.commit.sync o }) ∨
        (s.outstanding - 1 = 0 ∧ s.lh ≠ [] ∧ s' = { s.ended o with phase := .writing o 0 }) ∨
        (s.outstanding - 1 ≠ 0 ∧ s' = s.ended o)) := by
  unfold endOp at h
  split at h
  · rename_i logged hphase hop
    refine ⟨hphase, logged, hop, ?_⟩
    split at h
    · rename_i hlast
      split at h
      · rename_i hempty
        exact .inl ⟨hlast, hempty, (some.inj h).symm⟩
      · rename_i hsome
        exact .inr (.inl ⟨hlast, hsome, (some.inj h).symm⟩)
    · rename_i hmore
      exact .inr (.inr ⟨hmore, (some.inj h).symm⟩)
  · simp at h

theorem mem_absorb {l : List Nat} {b b' : Nat} : b' ∈ absorb l b ↔ b' ∈ l ∨ b' = b := by
  unfold absorb
  split
  · rename_i hb
    exact ⟨.inl, fun h => h.elim id fun hbb => hbb ▸ hb⟩
  · simp

/-! ### The disk -/

/-- What the disk is to be once the header is on it. -/
abbrev target (d0 : Nat → D) (s : LogState D) : Nat → D := replayAll d0 s.hist.committed

/-- Operations are collected: their changes are in the cache. -/
structure Collecting (L : LogDev) (d0 : Nat → D) (s : LogState D) : Prop where
  head : s.head = []
  home : ∀ b ∈ s.lh, L.Home b
  cache : ∀ b, L.Home b → s.cache b = replayAll d0 s.hist.commit.committed b
  logged : ∀ w ∈ s.hist.opened, w.block ∈ s.lh ∨ ∃ o l, s.ops o = .checked l w.block
  held : ∀ o l b, s.ops o = .checked l b → L.Home b

/-- `write_log` has copied the first blocks. -/
structure Writing (L : LogDev) (d0 : Nat → D) (s : LogState D) (tail : Nat) : Prop where
  head : s.head = []
  home : ∀ b ∈ s.lh, L.Home b
  cache : ∀ b, L.Home b → s.cache b = replayAll d0 s.hist.commit.committed b
  logged : ∀ w ∈ s.hist.opened, w.block ∈ s.lh
  copied : ∀ i b, i < tail → s.lh[i]? = some b →
    s.disk (L.block i) = s.cache b ∧ s.cache (L.block i) = s.cache b
  room : 0 < tail → s.lh.length < nbuf

/-- `install_trans` has copied the first blocks. -/
structure Installing (L : LogDev) (d0 : Nat → D) (s : LogState D) (tail : Nat) : Prop where
  head : s.head = s.lh
  opened : s.hist.opened = []
  cache : ∀ b, L.Home b → b ∉ s.lh.drop tail → s.cache b = target d0 s b
  slot : ∀ i b, s.lh[i]? = some b → s.cache (L.block i) = s.disk (L.block i)
  done : ∀ i b, i < tail → s.lh[i]? = some b → s.disk b = target d0 s b

def PhaseInv (L : LogDev) (d0 : Nat → D) (s : LogState D) : LogPhase → Prop
  | .running => Collecting L d0 s
  | .writing o tail => Writing L d0 s tail ∧ s.outstanding = 0 ∧ s.ops o = .ended ∧ s.hist.Open o
  | .installing o tail => Installing L d0 s tail ∧ s.outstanding = 0 ∧ s.ops o = .ended ∧
      s.hist.Present o ∧ writesOf o s.hist.opened = []
  | .recovering tail => Installing L d0 s tail ∧ s.outstanding = 0
  | .panicked _ => True

/-- **The invariant**: the disk is on its way to what the committed groups make of it. -/
structure LogInv (L : LogDev) (d0 : Nat → D) (s : LogState D) : Prop where
  pending : Pending L.Home L.block s.head s.disk (target d0 s)
  ops : OpsInv s.ops s.outstanding s.hist
  phase : PhaseInv L d0 s s.phase

theorem LogDev.not_home_block {i : Nat} (h : i + 1 < L.size) : ¬ L.Home (L.block i) := by
  unfold LogDev.Home LogDev.block
  omega

theorem LogInv.running (h : LogInv L d0 s) (hphase : s.phase = .running) : Collecting L d0 s := by
  have hp := h.phase
  rwa [hphase] at hp

theorem LogInv.of_running (hpending : Pending L.Home L.block s.head s.disk (target d0 s))
    (hops : OpsInv s.ops s.outstanding s.hist) (hphase : s.phase = .running)
    (hcol : Collecting L d0 s) : LogInv L d0 s := by
  refine ⟨hpending, hops, ?_⟩
  rw [hphase]
  exact hcol

/-! ### Every action keeps it -/

/-- An operation that holds no buffer changes what it is doing. -/
theorem checked_update {ops : Nat → OpState} {o o' : Nat} {l : List Nat} (x : OpState)
    (hop : ∀ l b, ops o ≠ .checked l b) (h : ops o' = .checked l b) :
    ∃ o' l, update ops o x o' = .checked l b := by
  have hne : o' ≠ o := by
    intro ho
    exact hop l b (ho ▸ h)
  exact ⟨o', l, by rw [update_of_ne hne, h]⟩

/-- Blocks that are held are home blocks after such a change too. -/
theorem Collecting.held_update (h : Collecting L d0 s) (hx : ∀ l b, x = .checked l b → L.Home b) :
    ∀ o' l b, update s.ops o x o' = .checked l b → L.Home b := by
  intro o' l b ho'
  by_cases hoo : o' = o
  · rw [hoo, update_self] at ho'
    exact hx l b ho'
  · rw [update_of_ne hoo] at ho'
    exact h.held o' l b ho'

theorem LogInv.beginOp (h : LogInv L d0 s) (hs : Xv6.beginOp s o = some s') : LogInv L d0 s' := by
  obtain ⟨hphase, hop, -, rfl⟩ := beginOp_eq hs
  have hcol := h.running hphase
  refine .of_running h.pending (h.ops.begin hop) hphase
    ⟨hcol.head, hcol.home, hcol.cache, ?_, hcol.held_update (by simp)⟩
  intro w hw
  rcases hcol.logged w hw with hlh | ⟨o', l, ho'⟩
  · exact .inl hlh
  · exact .inr (checked_update _ (by simp [hop]) ho')

theorem LogInv.modify (h : LogInv L d0 s) (hs : Xv6.modify L s o b v = some s') :
    LogInv L d0 s' := by
  obtain ⟨hphase, hhome, logged, hop, hcase⟩ := modify_cases hs
  have hcol := h.running hphase
  rcases hcase with ⟨p, rfl, -⟩ | rfl
  · exact ⟨h.pending, h.ops, trivial⟩
  have hheld := hcol.held_update (o := o) (x := .checked logged b) fun l b' heq => by
    rw [← (OpState.checked.inj heq).2]
    exact hhome
  refine .of_running h.pending (h.ops.write hop b v) hphase ⟨hcol.head, hcol.home, ?_, ?_, hheld⟩
  · intro b' hb'
    show update s.cache b v b'
      = replayAll d0 (s.hist.committed ++ [s.hist.opened ++ [⟨o, b, v⟩]]) b'
    have hupd : replayAll d0 (s.hist.committed ++ [s.hist.opened ++ [⟨o, b, v⟩]])
        = update (replayAll d0 s.hist.commit.committed) b v := by
      rw [replayAll_concat, map_append, map_singleton, replay_concat,
        ← replayAll_concat]
      rfl
    rw [hupd]
    by_cases hbb : b' = b
    · rw [hbb, update_self, update_self]
    · rw [update_of_ne hbb, update_of_ne hbb, hcol.cache b' hb']
  · intro w hw
    rcases mem_append.mp hw with hold | hnew
    · rcases hcol.logged w hold with hlh | ⟨o', l, ho'⟩
      · exact .inl hlh
      · exact .inr (checked_update _ (by simp [hop]) ho')
    · rw [mem_singleton] at hnew
      subst hnew
      exact .inr ⟨o, logged, update_self _ _ _⟩

theorem LogInv.logWrite (h : LogInv L d0 s) (hs : Xv6.logWrite s o = some s') :
    LogInv L d0 s' := by
  obtain ⟨hphase, logged, b, hop, rfl⟩ := logWrite_eq hs
  have hcol := h.running hphase
  have hopen : s.hist.Open o := by
    have hfate := h.ops.fate o
    rwa [hop] at hfate
  have hlive : (s.ops o).Live := by
    rw [hop]
    trivial
  refine .of_running h.pending (h.ops.alter hlive trivial hopen) hphase
    ⟨hcol.head, ?_, hcol.cache, ?_, hcol.held_update (by simp)⟩
  · intro b' hb'
    rcases mem_absorb.mp hb' with hold | rfl
    · exact hcol.home b' hold
    · exact hcol.held o logged b' hop
  · intro w hw
    rcases hcol.logged w hw with hlh | ⟨o', l, ho'⟩
    · exact .inl (mem_absorb.mpr (.inl hlh))
    by_cases hoo : o' = o
    · -- the block that was waiting is now logged
      rw [hoo, hop] at ho'
      exact .inl (mem_absorb.mpr (.inr (OpState.checked.inj ho').2.symm))
    · exact .inr ⟨o', l, (update_of_ne hoo _ _).trans ho'⟩

/-- With no operation under way, everything written has been logged. -/
theorem Collecting.all_logged (h : Collecting L d0 s) {ops : Nat → OpState}
    (hops : ∀ o' l b, s.ops o' = .checked l b → (ops o').Live) (hlive : ∀ o, ¬ (ops o).Live) :
    ∀ w ∈ s.hist.opened, w.block ∈ s.lh := by
  intro w hw
  rcases h.logged w hw with hlh | ⟨o', l, ho'⟩
  · exact hlh
  · exact absurd (hops o' l _ ho') (hlive o')

theorem LogInv.endOp (h : LogInv L d0 s) (hs : Xv6.endOp s o = some s') : LogInv L d0 s' := by
  obtain ⟨hphase, logged, hop, hcase⟩ := endOp_cases hs
  have hcol := h.running hphase
  have hfin := h.ops.finish hop
  have hopen : s.hist.Open o := by
    have hfate := h.ops.fate o
    rwa [hop] at hfate
  have hstill : ∀ o' l b, s.ops o' = .checked l b →
      (update s.ops o .ended o').Live := by
    intro o' l b ho'
    have hne : o' ≠ o := by
      intro hoo
      rw [hoo, hop] at ho'
      simp at ho'
    rw [update_of_ne hne, ho']
    trivial
  have hended : update s.ops o .ended o = .ended := update_self _ _ _
  rcases hcase with ⟨hlast, hempty, rfl⟩ | ⟨hlast, -, rfl⟩ | ⟨-, rfl⟩
  · -- nothing was logged, so the group is empty
    rw [hlast] at hfin
    have hnil : s.hist.opened = [] := by
      refine eq_nil_iff_forall_not_mem.mpr fun w hw => ?_
      have hw' := hcol.all_logged hstill hfin.not_live w hw
      rw [hempty] at hw'
      simp at hw'
    have htarget : replayAll d0 s.hist.commit.committed = target d0 s := by
      show replayAll d0 (s.hist.committed ++ [s.hist.opened]) = _
      rw [hnil, replayAll_concat_nil]
    have hops : OpsInv (update s.ops o .ended) (s.outstanding - 1) (s.hist.commit.sync o) := by
      rw [hlast]
      exact hfin.commit.sync hended hopen.commit rfl
    refine .of_running ?_ hops hphase ⟨hcol.head, hcol.home, ?_, ?_, hcol.held_update (by simp)⟩
    · show Pending L.Home L.block s.head s.disk (replayAll d0 s.hist.commit.committed)
      rw [htarget]
      exact h.pending
    · intro b hb
      show s.cache b = replayAll d0 (s.hist.commit.committed ++ [[]]) b
      rw [replayAll_concat_nil]
      exact hcol.cache b hb
    · intro w hw
      exact absurd hw not_mem_nil
  · refine ⟨h.pending, hfin, ?_⟩
    refine ⟨⟨hcol.head, hcol.home, hcol.cache, ?_, ?_, ?_⟩, hlast, hended, hopen⟩
    · rw [hlast] at hfin
      exact hcol.all_logged hstill hfin.not_live
    · intro i b hi
      omega
    · intro hpos
      omega
  · refine .of_running h.pending hfin hphase
      ⟨hcol.head, hcol.home, hcol.cache, ?_, hcol.held_update (by simp)⟩
    intro w hw
    rcases hcol.logged w hw with hlh | ⟨o', l, ho'⟩
    · exact .inl hlh
    · exact .inr (checked_update _ (by simp [hop]) ho')

/-! ### The writes of a commit and of a recovery -/

theorem LogDev.block_injective {i j : Nat} (h : L.block i = L.block j) : i = j := by
  unfold LogDev.block at h
  omega

/-- **A turn of `write_log`.** -/
theorem Writing.copy {o : Nat} (h : Writing L d0 s tail) (hsize : nbuf ≤ L.size)
    (hb : s.lh[tail]? = some b) (hroom : s.lh.length < nbuf) :
    ¬ L.Home (L.block tail) ∧ Writing L d0
      { s.bwrite (L.block tail) (s.cache b) with phase := .writing o (tail + 1) } (tail + 1) := by
  have hlt : ∀ i b', s.lh[i]? = some b' → i < s.lh.length :=
    fun i b' hi => (List.getElem?_eq_some_iff.mp hi).1
  have hslot : ¬ L.Home (L.block tail) := LogDev.not_home_block (by have := hlt tail b hb; omega)
  have hother : ∀ b', L.Home b' → update s.cache (L.block tail) (s.cache b) b' = s.cache b' := by
    intro b' hb'
    refine update_of_ne ?_ _ _
    intro hbb
    exact hslot (hbb ▸ hb')
  refine ⟨hslot,
    ⟨h.head, h.home, fun b' hb' => (hother b' hb').trans (h.cache b' hb'), h.logged, ?_,
    fun _ => hroom⟩⟩
  intro i b' hi hlh
  have hb' : L.Home b' := h.home b' (mem_of_getElem? hlh)
  show update s.disk (L.block tail) (s.cache b) (L.block i)
      = update s.cache (L.block tail) (s.cache b) b' ∧
    update s.cache (L.block tail) (s.cache b) (L.block i)
      = update s.cache (L.block tail) (s.cache b) b'
  rw [hother b' hb']
  by_cases hit : i = tail
  · subst hit
    have hlh' : s.lh[i]? = some b' := hlh
    obtain rfl := some.inj (hb.symm.trans hlh')
    exact ⟨update_self _ _ _, update_self _ _ _⟩
  · have hne : L.block i ≠ L.block tail := fun hbb => hit (LogDev.block_injective hbb)
    rw [update_of_ne hne, update_of_ne hne]
    exact h.copied i b' (by omega) hlh

/-- **The commit point**: when the header is written, the log holds the whole group. -/
theorem Writing.commit (h : Writing L d0 s tail) (hsize : nbuf ≤ L.size)
    (hpending : Pending L.Home L.block [] s.disk (target d0 s)) (hend : s.lh[tail]? = none) :
    Pending L.Home L.block s.lh s.disk (replayAll d0 s.hist.commit.committed) := by
  have hlen : s.lh.length ≤ tail := List.getElem?_eq_none_iff.mp hend
  have hlt : ∀ i b', s.lh[i]? = some b' → i < s.lh.length :=
    fun i b' hi => (List.getElem?_eq_some_iff.mp hi).1
  refine ⟨?_, ?_, h.home, ?_⟩
  · intro i b hi
    have hib := hlt i b hi
    rw [(h.copied i b (by omega) hi).1]
    exact h.cache b (h.home b (mem_of_getElem? hi))
  · intro b hb hnot
    rw [pending_nil_iff.mp hpending b hb]
    show replayAll d0 s.hist.committed b = replayAll d0 (s.hist.committed ++ [s.hist.opened]) b
    rw [replayAll_concat]
    refine (replay_of_forall_ne fun w hw => ?_).symm
    obtain ⟨w', hw', rfl⟩ := mem_map.mp hw
    intro hbb
    exact hnot (hbb ▸ h.logged w' hw')
  · intro i b hi
    have hib := hlt i b hi
    have hroom := h.room (by omega)
    exact LogDev.not_home_block (by omega)

/-- **A turn of `install_trans`**, in a commit or in a recovery. -/
theorem Installing.copy (phase : LogPhase) (h : Installing L d0 s tail)
    (hpending : Pending L.Home L.block s.head s.disk (target d0 s)) (hb : s.lh[tail]? = some b) :
    Pending L.Home L.block s.head (s.install L tail b).disk (target d0 s) ∧
      Installing L d0 { s.install L tail b with phase := phase } (tail + 1) := by
  rw [h.head] at hpending ⊢
  have hvalue : s.cache (L.block tail) = s.disk (L.block tail) := h.slot tail b hb
  have hdisk : (s.install L tail b).disk = update s.disk b (s.disk (L.block tail)) :=
    congrArg (update s.disk b) hvalue
  have hcache : (s.install L tail b).cache = update s.cache b (s.disk (L.block tail)) :=
    congrArg (update s.cache b) hvalue
  have hX : s.disk (L.block tail) = target d0 s b := hpending.copy tail b hb
  have hhome : L.Home b := hpending.target b (mem_of_getElem? hb)
  refine ⟨by rw [hdisk]; exact hpending.install hb, ⟨h.head, h.opened, ?_, ?_, ?_⟩⟩
  · intro b' hb' hnot
    show (s.install L tail b).cache b' = target d0 s b'
    rw [hcache]
    by_cases hbb : b' = b
    · rw [hbb, update_self, hX]
    rw [update_of_ne hbb]
    refine h.cache b' hb' fun hmem => hnot ?_
    have hlt : tail < s.lh.length := (List.getElem?_eq_some_iff.mp hb).1
    rw [drop_eq_getElem_cons hlt] at hmem
    rcases mem_cons.mp hmem with heq | hrest
    · exact absurd (heq.trans (List.getElem?_eq_some_iff.mp hb).2) hbb
    · exact hrest
  · intro i b' hi
    have hne : L.block i ≠ b := by
      intro hbb
      exact hpending.apart i b' hi (hbb ▸ hhome)
    rw [hcache, hdisk, update_of_ne hne, update_of_ne hne]
    exact h.slot i b' hi
  · intro i b' hi hlh
    rw [hdisk]
    by_cases hit : i = tail
    · subst hit
      have hlh' : s.lh[i]? = some b' := hlh
      obtain rfl := some.inj (hb.symm.trans hlh')
      exact hpending.install_self hb
    · exact hpending.install_keeps hb (h.done i b' (by omega) hlh)

theorem Installing.clear (h : Installing L d0 s tail) (hops : OpsInv s.ops 0 s.hist)
    (hpending : Pending L.Home L.block s.head s.disk (target d0 s)) (hend : s.lh[tail]? = none) :
    Pending L.Home L.block [] s.disk (target d0 s) ∧ Collecting L d0 s.cleared := by
  have hlen : s.lh.length ≤ tail := List.getElem?_eq_none_iff.mp hend
  rw [h.head] at hpending
  have hall : ∀ b ∈ s.lh, s.disk b = target d0 s b := by
    intro b hb
    obtain ⟨i, hi⟩ := mem_iff_getElem?.mp hb
    have hlt : i < s.lh.length := (List.getElem?_eq_some_iff.mp hi).1
    exact h.done i b (by omega) hi
  refine ⟨hpending.clear hall, ⟨rfl, ?_, ?_, ?_, ?_⟩⟩
  · intro b hb
    exact absurd hb not_mem_nil
  · intro b hb
    show s.cache b = replayAll d0 (s.hist.committed ++ [s.hist.opened]) b
    rw [h.opened, replayAll_concat_nil]
    refine h.cache b hb ?_
    rw [drop_of_length_le hlen]
    exact not_mem_nil
  · intro w hw
    have hw' : w ∈ s.hist.opened := hw
    rw [h.opened] at hw'
    exact absurd hw' not_mem_nil
  · intro o l b ho
    have hlive := hops.not_live o
    rw [show s.ops o = .checked l b from ho] at hlive
    exact absurd trivial hlive

theorem LogInv.diskWrite (h : LogInv L d0 s) (hsize : nbuf ≤ L.size)
    (hs : Xv6.diskWrite L s = some s') : LogInv L d0 s' := by
  have hp := h.phase
  have hops := h.ops
  unfold Xv6.diskWrite at hs
  split at hs
  · rename_i o tail hphase
    rw [hphase] at hp
    obtain ⟨hw, hzero, hended, hopen⟩ := hp
    have hpending := h.pending
    rw [hw.head] at hpending
    split at hs
    · rename_i b hb
      split at hs
      · cases hs
        exact ⟨h.pending, h.ops, trivial⟩
      rename_i hroom
      cases hs
      obtain ⟨hslot, hw'⟩ := hw.copy (o := o) hsize hb (Nat.lt_of_not_le hroom)
      refine ⟨?_, h.ops, hw', hzero, hended, hopen⟩
      show Pending L.Home L.block s.head _ _
      rw [hw.head]
      exact hpending.scribble hslot
    · rename_i hend
      cases hs
      rw [hzero] at hops
      have hops' : OpsInv s.ops s.outstanding s.hist.commit := by
        rw [hzero]
        exact hops.commit
      refine ⟨hw.commit hsize hpending hend, hops', ⟨rfl, rfl, ?_, ?_, ?_⟩, hzero, hended,
        hopen.commit, rfl⟩
      · exact fun b hb _ => hw.cache b hb
      · intro i b hi
        have hlt : i < s.lh.length := (List.getElem?_eq_some_iff.mp hi).1
        have hlen : s.lh.length ≤ tail := List.getElem?_eq_none_iff.mp hend
        obtain ⟨hd, hc⟩ := hw.copied i b (by omega) hi
        exact hc.trans hd.symm
      · intro i b hi
        omega
  · rename_i o tail hphase
    rw [hphase] at hp
    obtain ⟨hins, hzero, hended, hpresent, hclosed⟩ := hp
    split at hs
    · rename_i b hb
      cases hs
      obtain ⟨hpend, hins'⟩ := hins.copy (.installing o (tail + 1)) h.pending hb
      exact ⟨hpend, h.ops, hins', hzero, hended, hpresent, hclosed⟩
    · rename_i hend
      cases hs
      rw [hzero] at hops
      obtain ⟨hpend, hcol⟩ := hins.clear hops h.pending hend
      exact .of_running hpend (h.ops.sync hended hpresent hclosed) rfl
        ⟨hcol.head, hcol.home, hcol.cache, hcol.logged, hcol.held⟩
  · rename_i tail hphase
    rw [hphase] at hp
    obtain ⟨hins, hzero⟩ := hp
    split at hs
    · rename_i b hb
      cases hs
      obtain ⟨hpend, hins'⟩ := hins.copy (.recovering (tail + 1)) h.pending hb
      exact ⟨hpend, h.ops, hins', hzero⟩
    · rename_i hend
      cases hs
      rw [hzero] at hops
      obtain ⟨hpend, hcol⟩ := hins.clear hops h.pending hend
      exact .of_running hpend h.ops rfl hcol
  · simp at hs

/-- **A crash** at any point leaves a disk that can be recovered. -/
theorem LogInv.crash (h : LogInv L d0 s) : LogInv L d0 (Xv6.crash s) := by
  refine ⟨h.pending, h.ops.crash, ⟨rfl, rfl, ?_, ?_, ?_⟩, rfl⟩
  · exact fun b hb hnot => h.pending.rest b hb hnot
  · exact fun i b _ => rfl
  · intro i b hi
    omega

/-- **One step.** -/
theorem LogInv.step {a : LogAct D} (h : LogInv L d0 s) (hsize : nbuf ≤ L.size)
    (hs : logStep L s a = some s') : LogInv L d0 s' := by
  cases a with
  | beginOp o => exact h.beginOp hs
  | modify o b v => exact h.modify hs
  | logWrite o => exact h.logWrite hs
  | endOp o => exact h.endOp hs
  | diskWrite => exact h.diskWrite hsize hs
  | crash =>
    cases hs
    exact h.crash

/-! ### Whole runs -/

/-- A log that is empty on the disk, before the first operation. -/
structure CleanLog (s : LogState D) : Prop where
  phase : s.phase = .running
  head : s.head = []
  lh : s.lh = []
  outstanding : s.outstanding = 0
  cache : s.cache = s.disk
  ops : ∀ o, s.ops o = .fresh
  hist : s.hist = ⟨[], [], [], []⟩

theorem CleanLog.inv (h : CleanLog s) : LogInv L s.disk s := by
  have htarget : target s.disk s = s.disk := by
    unfold target
    rw [h.hist]
    rfl
  have hops : OpsInv s.ops s.outstanding s.hist := by
    rw [h.outstanding, h.hist]
    refine ⟨⟨∅, fun o => ?_, rfl⟩, fun o => ?_, ?_⟩
    · rw [h.ops o]
      exact iff_of_false id (notMem_empty o)
    · rw [h.ops o]
      exact ⟨rfl, rfl, rfl⟩
    · intro o ho
      exact absurd ho not_mem_nil
  refine .of_running ?_ hops h.phase ⟨h.head, ?_, ?_, ?_, ?_⟩
  · rw [h.head, htarget]
    exact pending_nil_iff.mpr fun _ _ => rfl
  · rw [h.lh]
    intro b hb
    exact absurd hb not_mem_nil
  · intro b _
    rw [h.cache, h.hist]
    rfl
  · rw [h.hist]
    intro w hw
    exact absurd hw not_mem_nil
  · intro o l b ho
    rw [h.ops o] at ho
    simp at ho

/-- **Recovery comes to an end**, after as many writes as the header lists and one more. -/
theorem recovery_ends (L : LogDev) (n : Nat) : ∀ {s : LogState D} {tail : Nat},
    s.phase = .recovering tail → s.lh.length = tail + n →
    ∃ s', (List.replicate (n + 1) LogAct.diskWrite).foldlM (logStep L) s = some s' ∧
      s'.phase = .running ∧ s'.hist = s.hist := by
  induction n with
  | zero =>
    intro s tail hphase hlen
    have hend : s.lh[tail]? = none := List.getElem?_eq_none_iff.mpr (by omega)
    refine ⟨s.cleared, ?_, rfl, rfl⟩
    show (diskWrite L s).bind some = _
    unfold diskWrite
    rw [hphase]
    simp only [hend]
    rfl
  | succ n ih =>
    intro s tail hphase hlen
    have hlt : tail < s.lh.length := by omega
    have hb : s.lh[tail]? = some (s.lh[tail]) := List.getElem?_eq_getElem hlt
    have hlen' : s.lh.length = tail + 1 + n := by omega
    obtain ⟨s', hfold, hrun, hhist⟩ := ih (s := { s.install L tail (s.lh[tail]) with
      phase := .recovering (tail + 1) }) rfl hlen'
    refine ⟨s', ?_, hrun, hhist⟩
    rw [replicate_succ, foldlM_cons]
    have hstep : logStep L s .diskWrite = some { s.install L tail (s.lh[tail]) with
        phase := .recovering (tail + 1) } := by
      show diskWrite L s = _
      unfold diskWrite
      rw [hphase]
      simp only [hb]
    rw [hstep]
    exact hfold

/--
**Crash atomicity of the log.**  Stop the machine in any state that operations, commits,
crashes and interrupted recoveries can lead to.  Recovery comes to an end, and the home
blocks are then what the committed groups make of the disk at the start; of every
operation all writes are among them or none, and all of one whose `end_op` has returned
from its commit.
-/
theorem log_crash_atomic {L : LogDev} {s0 s : LogState D} (hsize : nbuf ≤ L.size)
    (h0 : CleanLog s0) (h : Run (logStep L) (fun _ _ => True) s0 s) :
    (∃ s', (List.replicate (s.head.length + 1) LogAct.diskWrite).foldlM (logStep L) (crash s)
          = some s' ∧ s'.phase = .running ∧
        ∀ b, L.Home b → s'.disk b = replayAll s0.disk s.hist.committed b) ∧
      (∀ o, s.hist.Present o ∨ s.hist.Absent o) ∧ ∀ o ∈ s.hist.synced, s.hist.Present o := by
  have hinv : LogInv L s0.disk s :=
    h.inv h0.inv fun _ _ _ hi _ hstep => hi.step hsize hstep
  refine ⟨?_, hinv.ops.present_or_absent, fun o ho => (hinv.ops.synced o ho).2.1⟩
  obtain ⟨s', hfold, hrun, hhist⟩ := recovery_ends L s.head.length (s := crash s) rfl
    (Nat.zero_add _).symm
  refine ⟨s', hfold, hrun, ?_⟩
  have hcrash : LogInv L s0.disk s' :=
    (Run.of_foldlM hfold fun _ _ _ => trivial).inv hinv.crash
      fun _ _ _ hi _ hstep => hi.step hsize hstep
  have hpending := hcrash.pending
  rw [(hcrash.running hrun).head] at hpending
  intro b hb
  rw [pending_nil_iff.mp hpending b hb, target, hhist]
  rfl

/-- The log as `mkfs` lays it out, and an empty disk. -/
def mkfsLog : LogDev := ⟨2, logsize⟩

def blankLog : LogState (BitVec 4096) :=
  ⟨fun _ => 0, [], fun _ => 0, [], [], 0, fun _ => .fresh, .running, ⟨[], [], [], []⟩⟩

theorem blankLog_clean : CleanLog blankLog := ⟨rfl, rfl, rfl, rfl, rfl, fun _ => rfl, rfl⟩

/-- An operation of two blocks, stopped after the first of them has been installed. -/
def interruptedCommit : List (LogAct (BitVec 4096)) :=
  [.beginOp 0, .modify 0 100 7, .logWrite 0, .modify 0 101 8, .logWrite 0, .endOp 0,
    .diskWrite, .diskWrite, .diskWrite, .diskWrite, .crash]

theorem log_crash_atomic_interrupted :
    (interruptedCommit.foldlM (logStep mkfsLog) blankLog).isSome = true ∧
    ∀ s, interruptedCommit.foldlM (logStep mkfsLog) blankLog = some s →
      (∃ s', (List.replicate (s.head.length + 1) LogAct.diskWrite).foldlM (logStep mkfsLog)
            (crash s) = some s' ∧ s'.phase = .running ∧
          ∀ b, mkfsLog.Home b → s'.disk b = replayAll blankLog.disk s.hist.committed b) ∧
        (∀ o, s.hist.Present o ∨ s.hist.Absent o) ∧ ∀ o ∈ s.hist.synced, s.hist.Present o :=
  ⟨by decide +kernel, fun _ h => log_crash_atomic (by decide) blankLog_clean
    (.of_foldlM h fun _ _ _ => trivial)⟩

end Xv6
