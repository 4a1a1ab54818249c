/-
Programs over a state that can stop early.

A program takes a state and returns a result with a new state, or stops with an error.  The lemmas
say when a program built from smaller ones returns: they take a run of it apart into runs of its
parts, so that no proof about a program has to look at the monad it is written in.
-/
import Mathlib.Init

namespace Prog

variable {σ ε α β : Type} {s s' s'' : σ}

@[simp] theorem pure_ok {a b : α} :
    (pure a : StateT σ (Except ε) α) s = .ok (b, s') ↔ b = a ∧ s' = s := by
  constructor
  · rintro ⟨⟩
    exact ⟨rfl, rfl⟩
  · rintro ⟨rfl, rfl⟩
    rfl

@[simp] theorem get_ok {a : σ} :
    (get : StateT σ (Except ε) σ) s = .ok (a, s') ↔ a = s ∧ s' = s := by
  constructor
  · rintro ⟨⟩
    exact ⟨rfl, rfl⟩
  · rintro ⟨rfl, rfl⟩
    rfl

@[simp] theorem set_ok {x : σ} {a : PUnit} :
    (set x : StateT σ (Except ε) PUnit) s = .ok (a, s') ↔ s' = x := by
  constructor
  · rintro ⟨⟩
    rfl
  · rintro rfl
    rfl

@[simp] theorem throw_ok {e : ε} {a : α} :
    (throw e : StateT σ (Except ε) α) s = .ok (a, s') ↔ False :=
  iff_of_false nofun id

@[simp] theorem bind_ok {c : StateT σ (Except ε) α} {f : α → StateT σ (Except ε) β} {b : β} :
    (c >>= f) s = .ok (b, s'') ↔ ∃ a s', c s = .ok (a, s') ∧ f a s' = .ok (b, s'') := by
  change (c s >>= fun r => f r.1 r.2) = .ok (b, s'') ↔ _
  cases c s with
  | error e => exact iff_of_false nofun nofun
  | ok r =>
    constructor
    · exact fun h => ⟨r.1, r.2, rfl, h⟩
    · rintro ⟨a, s', ⟨⟩, h⟩
      exact h

theorem get_bind_ok {f : σ → StateT σ (Except ε) β} {b : β} :
    (get >>= f) s = .ok (b, s') ↔ f s s = .ok (b, s') :=
  Iff.rfl

theorem bind_pure_ok {c : StateT σ (Except ε) α} {f : α → β} {b : β} :
    (c >>= fun a => pure (f a)) s = .ok (b, s') ↔ ∃ a, c s = .ok (a, s') ∧ b = f a := by
  simp only [bind_ok, pure_ok]
  constructor
  · rintro ⟨a, s1, h, hb, rfl⟩
    exact ⟨a, h, hb⟩
  · rintro ⟨a, h, hb⟩
    exact ⟨a, s', h, hb, rfl⟩

@[simp] theorem ite_ok {p : Prop} [Decidable p] {c c' : StateT σ (Except ε) α} {a : α} :
    (if p then c else c') s = .ok (a, s') ↔
      (p ∧ c s = .ok (a, s')) ∨ (¬p ∧ c' s = .ok (a, s')) := by
  by_cases hp : p
  · simp [hp]
  · simp [hp]

theorem ite_throw_ok {p : Prop} [Decidable p] {c : StateT σ (Except ε) α} {e : ε} {a : α} :
    (if p then throw e else c) s = .ok (a, s') ↔ ¬p ∧ c s = .ok (a, s') := by
  simp only [ite_ok, throw_ok, and_false, false_or]

/-! ### Programs that stop -/

@[simp] theorem pure_error {a : α} {e : ε} : (pure a : StateT σ (Except ε) α) s ≠ .error e := nofun

@[simp] theorem set_error {x : σ} {e : ε} : (set x : StateT σ (Except ε) PUnit) s ≠ .error e :=
    nofun

@[simp] theorem throw_error {e e' : ε} :
    (throw e : StateT σ (Except ε) α) s = .error e' ↔ e = e' := by
  constructor
  · rintro ⟨⟩
    rfl
  · rintro rfl
    rfl

/-- Of two programs the first stops, or the second does. -/
@[simp] theorem bind_error {c : StateT σ (Except ε) α} {f : α → StateT σ (Except ε) β} {e : ε} :
    (c >>= f) s = .error e ↔ c s = .error e ∨ ∃ a s', c s = .ok (a, s') ∧ f a s' = .error e := by
  change (c s >>= fun r => f r.1 r.2) = .error e ↔ _
  cases c s with
  | error e' =>
    constructor
    · rintro ⟨⟩
      exact .inl rfl
    · rintro (⟨⟨⟩⟩ | ⟨a, s', ⟨⟩, -⟩)
      rfl
  | ok r =>
    constructor
    · exact fun h => .inr ⟨r.1, r.2, rfl, h⟩
    · rintro (⟨⟨⟩⟩ | ⟨a, s', ⟨⟩, h⟩)
      exact h

theorem get_bind_error {f : σ → StateT σ (Except ε) β} {e : ε} :
    (get >>= f) s = .error e ↔ f s s = .error e :=
  Iff.rfl

theorem bind_pure_error {c : StateT σ (Except ε) α} {f : α → β} {e : ε} :
    (c >>= fun a => pure (f a)) s = .error e ↔ c s = .error e := by
  simp only [bind_error, pure_error, and_false, exists_false, or_false]

@[simp] theorem ite_error {p : Prop} [Decidable p] {c c' : StateT σ (Except ε) α} {e : ε} :
    (if p then c else c') s = .error e ↔ (p ∧ c s = .error e) ∨ (¬p ∧ c' s = .error e) := by
  by_cases hp : p
  · simp [hp]
  · simp [hp]

end Prog
