/-
Runs of a machine whose steps may fail.

A machine is a function `step : σ → α → Option σ`: the action `a` takes the state `s`
to `step s a`, and `none` is an action that does not come to an end there.  A `Run`
takes such steps one after the other, each of them one that `ok` admits; a condition
on a whole run is a condition `ok` on its steps.  `Run.inv` is the only induction on
runs there is.

A loop of a program is a run over a fixed list of actions, `List.foldlM`.  Its rule
is stated with the part of the list that has been worked off, so that what a loop
does to each element can be said of the elements it has come past.
-/
import Mathlib.Data.List.Basic

namespace Runs

open List Option

variable {σ α : Type*}

/-- The states that steps admitted by `ok` lead to from `s0`. -/
inductive Run (step : σ → α → Option σ) (ok : σ → α → Prop) (s0 : σ) : σ → Prop
  | start : Run step ok s0 s0
  | next {s s' : σ} {a : α} (hrun : Run step ok s0 s) (hok : ok s a) (hstep : step s a = some s') :
      Run step ok s0 s'

variable {step : σ → α → Option σ} {ok : σ → α → Prop} {s0 s s' : σ}

/-- **What every admitted step keeps holds after every run.** -/
theorem Run.inv {I : σ → Prop} (hrun : Run step ok s0 s) (hstart : I s0)
    (hkeep : ∀ s a s', I s → ok s a → step s a = some s' → I s') : I s := by
  induction hrun with
  | start => exact hstart
  | next _ hok hstep ih => exact hkeep _ _ _ ih hok hstep

theorem Run.trans {s1 : σ} (h1 : Run step ok s0 s1) (h2 : Run step ok s1 s) :
    Run step ok s0 s := by
  induction h2 with
  | start => exact h1
  | next _ hok hstep ih => exact ih.next hok hstep

theorem Run.of_foldlM {l : List α} (h : l.foldlM step s0 = some s)
    (hok : ∀ s, ∀ a ∈ l, ok s a) : Run step ok s0 s := by
  induction l generalizing s0 with
  | nil =>
    cases h
    exact .start
  | cons a l ih =>
    rw [foldlM_cons] at h
    obtain ⟨s1, h1, h2⟩ := bind_eq_some_iff.mp h
    have hfirst : Run step ok s0 s1 := Run.start.next (hok s0 a (by simp)) h1
    exact hfirst.trans (ih h2 fun s b hb => hok s b (by simp [hb]))

theorem Run.mono {ok' : σ → α → Prop} (hrun : Run step ok s0 s) (h : ∀ s a, ok s a → ok' s a) :
    Run step ok' s0 s := by
  induction hrun with
  | start => exact .start
  | next _ hok hstep ih => exact ih.next (h _ _ hok) hstep

/-- A list of actions, each admitted in the state it is taken in. -/
theorem Run.of_guarded [∀ s a, Decidable (ok s a)] {l : List α}
    (h : l.foldlM (fun s a => if ok s a then step s a else none) s0 = some s) :
    Run step ok s0 s := by
  induction l generalizing s0 with
  | nil =>
    cases h
    exact .start
  | cons a l ih =>
    rw [foldlM_cons] at h
    obtain ⟨s1, h1, h2⟩ := bind_eq_some_iff.mp h
    obtain ⟨hok, hstep⟩ := ite_none_right_eq_some.mp h1
    exact (Run.start.next hok hstep).trans (ih h2)

/--
**The rule for a loop**: `P l s` says that the elements `l` have been worked off and
the state is `s`.
-/
theorem foldlM_rule {P : List α → σ → Prop} {l : List α} (h : l.foldlM step s0 = some s)
    (hstart : P [] s0)
    (hkeep : ∀ done a s s', a ∈ l → P done s → step s a = some s' → P (done ++ [a]) s') :
    P l s := by
  -- generalise over the part already done, and grow it from the left
  suffices hgen : ∀ (todo done : List α) (s1 : σ), (∀ a ∈ todo, a ∈ l) → P done s1 →
      todo.foldlM step s1 = some s → P (done ++ todo) s by
    simpa using hgen l [] s0 (fun _ ha => ha) hstart h
  intro todo
  induction todo with
  | nil =>
    intro done s1 _ hP hfold
    cases hfold
    simpa using hP
  | cons a todo ih =>
    intro done s1 hsub hP hfold
    rw [foldlM_cons] at hfold
    obtain ⟨s2, h1, h2⟩ := bind_eq_some_iff.mp hfold
    have hP2 := hkeep done a s1 s2 (hsub a (by simp)) hP h1
    simpa using ih (done ++ [a]) s2 (fun b hb => hsub b (by simp [hb])) hP2 h2

theorem foldlM_stay {l : List α} (h : ∀ a ∈ l, step s a = some s) : l.foldlM step s = some s := by
  induction l with
  | nil => rfl
  | cons a l ih =>
    rw [foldlM_cons, h a (by simp)]
    exact ih fun b hb => h b (by simp [hb])

/-! ### Calls that return something -/

section Calls

variable {β : Type*} {call : σ → α → Option (β × σ)}

/-- One call after the other, each noted with what it returned. -/
def calls (call : σ → α → Option (β × σ)) : σ → List α → Option (List (α × β) × σ)
  | s, [] => some ([], s)
  | s, a :: l =>
    (call s a).bind fun (b, s) => (calls call s l).map fun (log, s) => ((a, b) :: log, s)

theorem calls_cons {a : α} {l : List α} {log : List (α × β)}
    (h : calls call s (a :: l) = some (log, s')) :
    ∃ b s1 log1, call s a = some (b, s1) ∧ calls call s1 l = some (log1, s') ∧
      log = (a, b) :: log1 := by
  obtain ⟨⟨b, s1⟩, hcall, h⟩ := bind_eq_some_iff.mp h
  obtain ⟨⟨log1, s2⟩, hrest, h⟩ := map_eq_some_iff.mp h
  cases h
  exact ⟨b, s1, log1, hcall, hrest, rfl⟩

theorem calls_fst {l : List α} {log : List (α × β)} (h : calls call s l = some (log, s')) :
    log.map Prod.fst = l := by
  induction l generalizing s log with
  | nil =>
    cases h
    rfl
  | cons a l ih =>
    obtain ⟨b, s1, log1, -, hrest, rfl⟩ := calls_cons h
    rw [map_cons, ih hrest]

end Calls

end Runs
