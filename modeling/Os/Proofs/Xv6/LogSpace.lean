/-
How much an operation may log.

`begin_op` reserves `MAXOPBLOCKS` blocks for each operation out of `LOGSIZE`, and the log
has one block less than that, because the header takes one.  So the reservation is one
block short: `log_write` panics if the operations admitted together use all of it, and
never does if each of them leaves one block of its share.
-/
import Mathlib.Algebra.Order.BigOperators.Group.Finset
import Os.Proofs.Xv6.Log

namespace Xv6

open List Finset Function
open Runs (Run)

variable {D : Type} {L : LogDev} {s s' : LogState D} {o b B : Nat} {v : D}
variable {A : Finset Nat} {x : OpState}

/-- The operation stays within `B` distinct blocks when it logs `b`. -/
def OpState.MayLog (B b : Nat) : OpState → Prop
  | .active logged => (absorb logged b).length ≤ B
  | _ => True

instance (B b : Nat) (x : OpState) : Decidable (x.MayLog B b) :=
  match x with
  | .active logged => inferInstanceAs (Decidable ((absorb logged b).length ≤ B))
  | .fresh => instDecidableTrue
  | .checked _ _ => instDecidableTrue
  | .ended => instDecidableTrue

/-- No operation logs more than `B` distinct blocks. -/
def AtMost (B : Nat) (s : LogState D) : LogAct D → Prop
  | .modify o b _ => (s.ops o).MayLog B b
  | _ => True

instance (B : Nat) (s : LogState D) (a : LogAct D) : Decidable (AtMost B s a) :=
  match a with
  | .modify o b _ => inferInstanceAs (Decidable ((s.ops o).MayLog B b))
  | .beginOp _ => instDecidableTrue
  | .logWrite _ => instDecidableTrue
  | .endOp _ => instDecidableTrue
  | .diskWrite => instDecidableTrue
  | .crash => instDecidableTrue

/-- The blocks an operation has logged. -/
def OpState.logged : OpState → List Nat
  | .active logged => logged
  | .checked logged _ => logged
  | _ => []

/-! ### What is left of the shares -/

/-- What is left of the operations' shares, if each is one block short of the reservation. -/
def sharesLeft (A : Finset Nat) (ops : Nat → OpState) : Nat :=
  ∑ o ∈ A, (9 - (ops o).logged.length)

theorem sharesLeft_le (A : Finset Nat) (ops : Nat → OpState) : sharesLeft A ops ≤ 9 * A.card := by
  have h : sharesLeft A ops ≤ A.card * 9 :=
    sum_le_card_nsmul A _ 9 fun o _ => Nat.sub_le 9 _
  rwa [Nat.mul_comm] at h

theorem sharesLeft_congr {ops : Nat → OpState} (h : o ∉ A) :
    sharesLeft A (update ops o x) = sharesLeft A ops := by
  refine sum_congr rfl fun o' ho' => ?_
  rw [update_of_ne]
  intro ho
  exact h (ho ▸ ho')

theorem sharesLeft_erase (ops : Nat → OpState) (h : o ∈ A) :
    (9 - (ops o).logged.length) + sharesLeft (A.erase o) ops = sharesLeft A ops :=
  add_sum_erase A (fun o => 9 - (ops o).logged.length) h

theorem sharesLeft_update (ops : Nat → OpState) (x : OpState) (h : o ∈ A) :
    sharesLeft A (update ops o x) + (9 - (ops o).logged.length)
      = sharesLeft A ops + (9 - x.logged.length) := by
  rw [← sharesLeft_erase _ h, ← sharesLeft_erase _ h, sharesLeft_congr (notMem_erase o A),
    update_self]
  omega

/-! ### The invariant -/

/-- The log has room for what the operations may still log. -/
structure SpaceInv (s : LogState D) : Prop where
  room : ∃ A : Finset Nat, (∀ o, (s.ops o).Live ↔ o ∈ A) ∧ A.card = s.outstanding ∧
    s.lh.length + sharesLeft A s.ops ≤ 28
  logged : ∀ o, ∀ b ∈ (s.ops o).logged, b ∈ s.lh
  share : ∀ o l b, s.ops o = .checked l b → (absorb l b).length ≤ 9
  quiet : s.outstanding = 0 → s.phase = .running → s.lh = []
  idle : (∀ p, s.phase ≠ .panicked p) → s.phase ≠ .running → s.outstanding = 0
  head : s.head.length ≤ 28
  phase : s.phase ≠ .panicked .tooBig

theorem length_absorb (l : List Nat) (b : Nat) : (absorb l b).length ≤ l.length + 1 := by
  unfold absorb
  split
  · omega
  · simp

theorem absorb_of_mem {l : List Nat} (h : b ∈ l) : absorb l b = l := if_pos h

theorem length_absorb_of_not_mem {l : List Nat} (h : b ∉ l) :
    (absorb l b).length = l.length + 1 := by
  rw [absorb, if_neg h]
  simp

namespace SpaceInv

theorem length_le (h : SpaceInv s) : s.lh.length ≤ 28 := by
  obtain ⟨A, -, -, hroom⟩ := h.room
  omega

theorem logged_update {lh : List Nat} (h : SpaceInv s) (hsub : ∀ b ∈ s.lh, b ∈ lh)
    (hx : ∀ b ∈ x.logged, b ∈ lh) :
    ∀ o', ∀ b ∈ (update s.ops o x o').logged, b ∈ lh := by
  intro o' b hb
  by_cases ho : o' = o
  · rw [ho, update_self] at hb
    exact hx b hb
  · rw [update_of_ne ho] at hb
    exact hsub b (h.logged o' b hb)

theorem share_update (h : SpaceInv s) (hx : ∀ l b, x = .checked l b → (absorb l b).length ≤ 9) :
    ∀ o' l b, update s.ops o x o' = .checked l b → (absorb l b).length ≤ 9 := by
  intro o' l b ho'
  by_cases ho : o' = o
  · rw [ho, update_self] at ho'
    exact hx l b ho'
  · rw [update_of_ne ho] at ho'
    exact h.share o' l b ho'

/-- The operations that are under way, after one of them has taken a step. -/
theorem live_update {ops : Nat → OpState} (hA : ∀ o, (ops o).Live ↔ o ∈ A) (hold : (ops o).Live)
    (hnew : x.Live) :
    ∀ o', (update ops o x o').Live ↔ o' ∈ A := by
  intro o'
  by_cases ho : o' = o
  · rw [ho, update_self, ← hA]
    exact iff_of_true hnew hold
  · rw [update_of_ne ho, hA]

section

variable (h : SpaceInv s)
include h

theorem beginOp (hs : Xv6.beginOp s o = some s') : SpaceInv s' := by
  obtain ⟨hphase, hop, hadmit, rfl⟩ := beginOp_eq hs
  obtain ⟨A, hA, hcard, hroom⟩ := h.room
  have hoA : o ∉ A := by
    rw [← hA, hop]
    exact id
  have hsum : sharesLeft (insert o A) (update s.ops o (.active [])) = 9 + sharesLeft A s.ops := by
    rw [← sharesLeft_erase _ (mem_insert_self o A), erase_insert hoA,
      sharesLeft_congr hoA, update_self]
    rfl
  refine ⟨⟨insert o A, live_insert hA trivial, ?_, ?_⟩, ?_, h.share_update (by simp), ?_,
    fun _ hrun => absurd hphase hrun, h.head, h.phase⟩
  · rw [card_insert_of_notMem hoA, hcard]
  · show s.lh.length + sharesLeft (insert o A) (update s.ops o (.active [])) ≤ 28
    have hle := sharesLeft_le A s.ops
    unfold logsize maxopblocks at hadmit
    by_cases hzero : s.outstanding = 0
    · -- the first of a group finds the log empty
      have hempty : s.lh.length = 0 := by rw [h.quiet hzero hphase, length_nil]
      omega
    · omega
  · exact h.logged_update (fun _ hb => hb) fun b hb => absurd hb not_mem_nil
  · intro hzero
    exact absurd hzero (Nat.succ_ne_zero _)

theorem modify (hB : B ≤ 9) (hsize : L.size = logsize)
    (hok : AtMost B s (.modify o b v)) (hs : Xv6.modify L s o b v = some s') : SpaceInv s' := by
  obtain ⟨hphase, -, logged, hop, hcase⟩ := modify_cases hs
  obtain ⟨A, hA, hcard, hroom⟩ := h.room
  rcases hcase with ⟨p, rfl, hbig⟩ | rfl
  · refine ⟨⟨A, hA, hcard, hroom⟩, h.logged, h.share, fun _ hrun => ?_,
      fun hno => absurd rfl (hno p), h.head, fun hp => ?_⟩
    · exact absurd hrun (by simp)
    · -- 28 blocks are not too many
      have hfull := hbig (LogPhase.panicked.inj hp)
      rw [hsize] at hfull
      unfold logsize maxopblocks at hfull
      omega
  · have hlive : (s.ops o).Live := by
      rw [hop]
      trivial
    have hshare : (absorb logged b).length ≤ B := by
      have hmay : (s.ops o).MayLog B b := hok
      rwa [hop] at hmay
    have hsame := sharesLeft_update s.ops (.checked logged b) ((hA o).mp hlive)
    rw [hop] at hsame
    refine ⟨⟨A, live_update hA hlive trivial, hcard, ?_⟩, ?_, h.share_update ?_,
      h.quiet, h.idle, h.head, h.phase⟩
    · show s.lh.length + sharesLeft A (update s.ops o (.checked logged b)) ≤ 28
      have hlogged : (OpState.checked logged b).logged = (OpState.active logged).logged := rfl
      rw [hlogged] at hsame
      omega
    · refine h.logged_update (fun _ hb => hb) fun b' hb' => h.logged o b' ?_
      rw [hop]
      exact hb'
    · intro l b' heq
      obtain ⟨rfl, rfl⟩ := OpState.checked.inj heq
      omega

theorem logWrite (hs : Xv6.logWrite s o = some s') : SpaceInv s' := by
  obtain ⟨hphase, logged, b, hop, rfl⟩ := logWrite_eq hs
  obtain ⟨A, hA, hcard, hroom⟩ := h.room
  have hlive : (s.ops o).Live := by
    rw [hop]
    trivial
  have hshare := h.share o logged b hop
  have hin : ∀ b' ∈ logged, b' ∈ s.lh := by
    intro b' hb'
    refine h.logged o b' ?_
    rw [hop]
    exact hb'
  have hsum := sharesLeft_update s.ops (.active (absorb logged b)) ((hA o).mp hlive)
  rw [hop] at hsum
  have hsum' : sharesLeft A (update s.ops o (.active (absorb logged b)))
      + (9 - logged.length) = sharesLeft A s.ops + (9 - (absorb logged b).length) := hsum
  have hpos : s.outstanding ≠ 0 := by
    intro hzero
    rw [hzero, card_eq_zero] at hcard
    have hmem := (hA o).mp hlive
    rw [hcard] at hmem
    exact notMem_empty o hmem
  refine ⟨⟨A, live_update hA hlive trivial, hcard, ?_⟩, ?_, h.share_update (by simp), ?_,
    fun _ hrun => absurd hphase hrun, h.head, h.phase⟩
  · show (absorb s.lh b).length + sharesLeft A (update s.ops o (.active (absorb logged b))) ≤ 28
    -- a block that is new to the log is new to the operation
    by_cases hb : b ∈ logged
    · rw [absorb_of_mem hb] at hsum' ⊢
      rw [absorb_of_mem (hin b hb)]
      omega
    · rw [length_absorb_of_not_mem hb] at hsum' hshare
      have hlen := length_absorb s.lh b
      omega
  · refine h.logged_update (fun b' hb' => mem_absorb.mpr (.inl hb')) fun b' hb' => ?_
    exact mem_absorb.mpr ((mem_absorb.mp hb').imp_left (hin b'))
  · intro hzero
    exact absurd hzero hpos

theorem endOp (hs : Xv6.endOp s o = some s') : SpaceInv s' := by
  obtain ⟨hphase, logged, hop, hcase⟩ := endOp_cases hs
  obtain ⟨A, hA, hcard, hroom⟩ := h.room
  have hoA : o ∈ A := by
    rw [← hA, hop]
    trivial
  have hroom' : ∃ A : Finset Nat, (∀ o', (update s.ops o .ended o').Live ↔ o' ∈ A) ∧
      A.card = s.outstanding - 1 ∧
      s.lh.length + sharesLeft A (update s.ops o .ended) ≤ 28 := by
    refine ⟨A.erase o, live_erase hA id, ?_, ?_⟩
    · rw [card_erase_of_mem hoA, hcard]
    · rw [sharesLeft_congr (notMem_erase o A)]
      have hsplit := sharesLeft_erase s.ops hoA
      omega
  have hlogged : ∀ o', ∀ b ∈ (update s.ops o .ended o').logged, b ∈ s.lh :=
    h.logged_update (fun _ hb => hb) fun b hb => absurd hb not_mem_nil
  have hshare : ∀ o' l b, update s.ops o .ended o' = .checked l b →
      (absorb l b).length ≤ 9 := h.share_update (by simp)
  rcases hcase with ⟨-, hempty, rfl⟩ | ⟨hlast, -, rfl⟩ | ⟨hmore, rfl⟩
  · exact ⟨hroom', hlogged, hshare, fun _ _ => hempty, fun _ hrun => absurd hphase hrun, h.head,
      h.phase⟩
  · exact ⟨hroom', hlogged, hshare, fun _ hrun => absurd hrun (by simp), fun _ _ => hlast, h.head,
      by simp⟩
  · exact ⟨hroom', hlogged, hshare, fun hzero => absurd hzero hmore,
      fun _ hrun => absurd hphase hrun, h.head, h.phase⟩

/-- The commit and the recovery go on with the same log. -/
theorem sameLog {head : List Nat} {phase : LogPhase}
    (hops : s'.ops = s.ops) (hout : s'.outstanding = s.outstanding) (hlh : s'.lh = s.lh)
    (hzero : s.outstanding = 0) (hhead : s'.head = head) (hlen : head.length ≤ 28)
    (hphase : s'.phase = phase) (hrun : phase ≠ .running) (hbig : phase ≠ .panicked .tooBig) :
    SpaceInv s' := by
  refine ⟨?_, ?_, ?_, ?_, ?_, ?_, ?_⟩
  · rw [hops, hout, hlh]
    exact h.room
  · rw [hops, hlh]
    exact h.logged
  · rw [hops]
    exact h.share
  · intro _ hr
    exact absurd (hphase.symm.trans hr) hrun
  · intro _ _
    rw [hout, hzero]
  · rw [hhead]
    exact hlen
  · rw [hphase]
    exact hbig

/-- With no operation under way the log may be cleared. -/
theorem cleared {hist : LogHist D} (hzero : s.outstanding = 0) :
    SpaceInv { s.cleared with hist := hist } := by
  obtain ⟨A, hA, hcard, -⟩ := h.room
  rw [hzero, card_eq_zero] at hcard
  subst hcard
  have hlogged : ∀ o, (s.ops o).logged = [] := by
    intro o
    have hnot : ¬ (s.ops o).Live := by
      rw [hA]
      exact notMem_empty o
    cases hst : s.ops o with
    | fresh => rfl
    | active l =>
      rw [hst] at hnot
      exact absurd trivial hnot
    | checked l b =>
      rw [hst] at hnot
      exact absurd trivial hnot
    | ended => rfl
  refine ⟨⟨∅, hA, hzero.symm, Nat.zero_le _⟩, fun o b hb => ?_, h.share, fun _ _ => rfl,
    fun _ hrun => absurd rfl hrun, Nat.zero_le _, by simp [LogState.cleared]⟩
  have hb' : b ∈ (s.ops o).logged := hb
  rw [hlogged o] at hb'
  exact absurd hb' not_mem_nil

theorem diskWrite (hs : Xv6.diskWrite L s = some s') : SpaceInv s' := by
  have hlen := h.length_le
  unfold Xv6.diskWrite at hs
  split at hs
  · rename_i o tail hphase
    have hzero := h.idle (by simp [hphase]) (by simp [hphase])
    split at hs
    · split at hs
      all_goals
        cases hs
        exact h.sameLog rfl rfl rfl hzero rfl h.head rfl (by simp) (by simp)
    · cases hs
      exact h.sameLog rfl rfl rfl hzero rfl hlen rfl (by simp) (by simp)
  · rename_i o tail hphase
    have hzero := h.idle (by simp [hphase]) (by simp [hphase])
    split at hs
    · cases hs
      exact h.sameLog rfl rfl rfl hzero rfl h.head rfl (by simp) (by simp)
    · cases hs
      exact h.cleared hzero
  · rename_i tail hphase
    have hzero := h.idle (by simp [hphase]) (by simp [hphase])
    split at hs
    · cases hs
      exact h.sameLog rfl rfl rfl hzero rfl h.head rfl (by simp) (by simp)
    · cases hs
      exact h.cleared hzero
  · simp at hs

theorem crash : SpaceInv (Xv6.crash s) := by
  have hstop : ∀ x : OpState, ¬ x.stopped.Live ∧ x.stopped.logged = [] := by
    intro x
    cases x <;> exact ⟨id, rfl⟩
  refine ⟨⟨∅, fun o => iff_of_false (hstop _).1 (notMem_empty o), rfl, h.head⟩,
    fun o b hb => ?_, fun o l b ho => ?_, fun _ hrun => absurd hrun (by simp [Xv6.crash]),
    fun _ _ => rfl, h.head, by simp [Xv6.crash]⟩
  · rw [show ((Xv6.crash s).ops o).logged = [] from (hstop _).2] at hb
    exact absurd hb not_mem_nil
  · have hlive := (hstop (s.ops o)).1
    rw [show (s.ops o).stopped = .checked l b from ho] at hlive
    exact absurd trivial hlive

end

end SpaceInv

theorem SpaceInv.step {a : LogAct D} (h : SpaceInv s) (hB : B ≤ 9) (hsize : L.size = logsize)
    (hok : AtMost B s a) (hs : logStep L s a = some s') : SpaceInv s' := by
  cases a with
  | beginOp o => exact h.beginOp hs
  | modify o b v => exact h.modify hB hsize hok hs
  | logWrite o => exact h.logWrite hs
  | endOp o => exact h.endOp hs
  | diskWrite => exact h.diskWrite hs
  | crash =>
    cases hs
    exact h.crash

theorem CleanLog.space (h : CleanLog s) : SpaceInv s := by
  refine ⟨⟨∅, fun o => ?_, h.outstanding.symm, ?_⟩, fun o b hb => ?_, fun o l b ho => ?_,
    fun _ _ => h.lh, fun _ hrun => absurd h.phase hrun, ?_, ?_⟩
  · rw [h.ops o]
    exact iff_of_false id (notMem_empty o)
  · rw [h.lh]
    exact Nat.zero_le _
  · rw [h.ops o] at hb
    exact absurd hb not_mem_nil
  · rw [h.ops o] at ho
    simp at ho
  · rw [h.head]
    exact Nat.zero_le _
  · rw [h.phase]
    simp

/-! ### The reservation is one block short -/

/-- The header lists no more blocks than the log can hold. -/
theorem LogInv.length_head_lt {d0 : Nat → D} (h : LogInv L d0 s) (hne : s.head ≠ []) :
    s.head.length < L.size := by
  have hpos : 0 < s.head.length := length_pos_iff.mpr hne
  have hlast : s.head[s.head.length - 1]? = some (s.head[s.head.length - 1]) :=
    List.getElem?_eq_getElem _
  have hslot := h.pending.apart _ _ hlast
  unfold LogDev.Home LogDev.block at hslot
  omega

/-- Three operations of ten blocks each, up to the last block. -/
def fullShares : List (LogAct (BitVec 4096)) :=
  [.beginOp 0, .beginOp 1, .beginOp 2] ++
    (List.range 29).flatMap (fun i => [.modify (i / 10) (100 + i) 0, .logWrite (i / 10)]) ++
    [.modify 2 129 0]

/-- **Ten blocks each are too many**: the thirtieth panics. -/
theorem fullShares_too_big :
    (fullShares.foldlM (fun s a => if AtMost maxopblocks s a then logStep mkfsLog s a else none)
      blankLog).map (fun s => (s.phase, s.lh.length)) = some (.panicked .tooBig, 29) := by
  decide +kernel

theorem fullShares_run : ∃ s, Run (logStep mkfsLog) (AtMost maxopblocks) blankLog s ∧
    s.phase = .panicked .tooBig := by
  obtain ⟨s, hs, heq⟩ := Option.map_eq_some_iff.mp fullShares_too_big
  exact ⟨s, .of_guarded hs, congrArg Prod.fst heq⟩

/--
**The log has room** for every mix of operations that `begin_op` admits exactly if each of
them logs fewer than `MAXOPBLOCKS` distinct blocks.  A header that does not fit is never
written, whatever the operations log.
-/
theorem log_space_iff (B : Nat) :
    ((∀ s0 s : LogState (BitVec 4096), CleanLog s0 → Run (logStep mkfsLog) (AtMost B) s0 s →
        s.phase ≠ .panicked .tooBig) ↔ B < maxopblocks) ∧
      ∀ s0 s : LogState (BitVec 4096), CleanLog s0 →
        Run (logStep mkfsLog) (fun _ _ => True) s0 s → s.head.length ≤ mkfsLog.size - 1 := by
  refine ⟨⟨fun hsafe => ?_, fun hB s0 s h0 h => ?_⟩, fun s0 s h0 h => ?_⟩
  · by_contra hge
    obtain ⟨s, hrun, hbig⟩ := fullShares_run
    have hmono : ∀ (s : LogState (BitVec 4096)) a, AtMost maxopblocks s a → AtMost B s a := by
      intro s a hok
      cases a with
      | modify o b v =>
        have hmay : (s.ops o).MayLog maxopblocks b := hok
        show (s.ops o).MayLog B b
        cases hst : s.ops o with
        | active logged =>
          rw [hst] at hmay
          exact Nat.le_trans hmay (Nat.le_of_not_lt hge)
        | _ => trivial
      | _ => trivial
    exact hsafe blankLog s blankLog_clean (hrun.mono hmono) hbig
  · have hB' : B ≤ 9 := Nat.le_of_lt_succ hB
    have hinv : SpaceInv s := h.inv h0.space fun _ _ _ hi hok hstep => hi.step hB' rfl hok hstep
    exact hinv.phase
  · have hinv : LogInv mkfsLog s0.disk s :=
      h.inv h0.inv fun _ _ _ hi _ hstep => hi.step (by decide) hstep
    by_cases hne : s.head = []
    · rw [hne]
      exact Nat.zero_le _
    · exact Nat.le_sub_one_of_lt (hinv.length_head_lt hne)

/-- Three operations that keep to `MAXOPBLOCKS` make `log_write` panic. -/
theorem reservation_one_short : ∃ s, Run (logStep mkfsLog) (AtMost maxopblocks) blankLog s ∧
    s.phase = .panicked .tooBig := fullShares_run

end Xv6
