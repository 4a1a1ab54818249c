/-
Counting references.

`R r = some a` says that slot `r` refers to `a`.  There are finitely many slots, and
`refCount R a` is how many of them refer to `a`.  Everything a reference-counting
allocator does to its slots is to write one of them, so one lemma is enough:
`refCount_update` is the balance of a single write.

Tearing a structure down clears a whole set of slots, one after the other; `Cleared`
says which, without saying in what order.
-/
import Os.Lib.Runs
import Mathlib.Data.Fintype.Sum

namespace RefMap

open Finset Function

theorem proj_update {κ β γ : Type*} [DecidableEq κ] (g : β → γ) {f : κ → β} {a : κ} {b : β}
    (h : g b = g (f a)) (x : κ) : g (Function.update f a b x) = g (f x) := by
  rw [apply_update (fun _ => g), h, update_eq_self]

variable {ι α : Type*} [Fintype ι] [DecidableEq α]

/-- How many slots refer to `a`. -/
def refCount (R : ι → Option α) (a : α) : Nat :=
  (Finset.univ.filter fun r => R r = some a).card

theorem refCount_eq_zero {R : ι → Option α} {a : α} :
    refCount R a = 0 ↔ ∀ r, R r ≠ some a := by
  simp [refCount, card_eq_zero, filter_eq_empty_iff]

theorem refCount_pos {R : ι → Option α} {a : α} {r : ι} (h : R r = some a) :
    0 < refCount R a := by
  rw [Nat.pos_iff_ne_zero]
  intro hc
  exact refCount_eq_zero.mp hc r h

/-- A count is bounded by what tells the slots that refer to `a` apart. -/
theorem refCount_le_card {κ : Type*} [Fintype κ] {R : ι → Option α} {a : α} (f : ι → κ)
    (h : ∀ r r', R r = some a → R r' = some a → f r = f r' → r = r') :
    refCount R a ≤ Fintype.card κ := by
  refine card_le_card_of_injOn f (fun _ _ => mem_univ _) fun r hr r' hr' => h r r' ?_ ?_
  · exact (mem_filter.mp hr).2
  · exact (mem_filter.mp hr').2

theorem refCount_equiv {κ : Type*} [Fintype κ] (ε : κ ≃ ι) (R : ι → Option α) (a : α) :
    refCount (R ∘ ε) a = refCount R a := by
  refine card_bij (fun k _ => ε k) ?_ ?_ ?_
  · intro k hk
    exact mem_filter.mpr ⟨mem_univ _, (mem_filter.mp hk).2⟩
  · intro k _ k' _ heq
    exact ε.injective heq
  · intro r hr
    refine ⟨ε.symm r, mem_filter.mpr ⟨mem_univ _, ?_⟩, ε.apply_symm_apply r⟩
    simpa using (mem_filter.mp hr).2

theorem refCount_sum {κ : Type*} [Fintype κ] (R : ι ⊕ κ → Option α) (a : α) :
    refCount R a = refCount (R ∘ Sum.inl) a + refCount (R ∘ Sum.inr) a := by
  have hsplit : (Finset.univ.filter fun r => R r = some a)
      = (Finset.univ.filter fun r => (R ∘ Sum.inl) r = some a).disjSum
        (Finset.univ.filter fun r => (R ∘ Sum.inr) r = some a) := by
    ext r
    cases r <;> simp
  unfold refCount
  rw [hsplit, card_disjSum]

variable [DecidableEq ι]

/-- **The balance of one write**: what the slot gains, the old target loses. -/
theorem refCount_update (R : ι → Option α) (r : ι) (x : Option α) (a : α) :
    refCount (Function.update R r x) a + (if R r = some a then 1 else 0)
      = refCount R a + (if x = some a then 1 else 0) := by
  have hoff : (Finset.univ.erase r).filter (fun q => Function.update R r x q = some a)
      = (Finset.univ.erase r).filter fun q => R q = some a := by
    refine filter_congr fun q hq => ?_
    rw [update_of_ne (ne_of_mem_erase hq)]
  have hsplit : ∀ S : ι → Option α,
      refCount S a = ((Finset.univ.erase r).filter fun q => S q = some a).card
        + (if S r = some a then 1 else 0) := by
    intro S
    unfold refCount
    rw [← insert_erase (mem_univ r), filter_insert]
    split
    · rw [card_insert_of_notMem (by simp)]
      simp
    · simp
  rw [hsplit (Function.update R r x), hsplit R, hoff, update_self]
  omega

/-! ### Clearing slots -/

/-- `R'` is `R` with the slots in `S` cleared. -/
def Cleared {ι α : Type*} (R R' : ι → Option α) (S : Set ι) : Prop :=
  (∀ r ∈ S, R' r = none) ∧ ∀ r, r ∉ S → R' r = R r

namespace Cleared

variable {ι α : Type*} {R R' R'' : ι → Option α} {S T : Set ι} {r : ι} {a : α}

theorem refl (R : ι → Option α) : Cleared R R ∅ :=
  ⟨fun _ hr => absurd hr (Set.notMem_empty _), fun _ _ => rfl⟩

theorem trans (h : Cleared R R' S) (h' : Cleared R' R'' T) : Cleared R R'' (S ∪ T) := by
  constructor
  · intro r hr
    by_cases hT : r ∈ T
    · exact h'.1 r hT
    · rw [h'.2 r hT]
      exact h.1 r (hr.resolve_right hT)
  · intro r hr
    rw [h'.2 r fun hc => hr (.inr hc), h.2 r fun hc => hr (.inl hc)]

theorem update_none [DecidableEq ι] (R : ι → Option α) (r : ι) :
    Cleared R (Function.update R r none) {r} := by
  constructor
  · rintro q rfl
    exact update_self ..
  · intro q hq
    exact update_of_ne hq ..

theorem of_eq_some (h : Cleared R R' S) (hr : R' r = some a) : R r = some a := by
  by_cases hS : r ∈ S
  · rw [h.1 r hS] at hr
    simp at hr
  · rw [← h.2 r hS]
    exact hr

theorem refCount_le [Fintype ι] [DecidableEq α] (h : Cleared R R' S) (a : α) :
    refCount R' a ≤ refCount R a := by
  refine card_le_card fun r hr => ?_
  have hr' : R' r = some a := (mem_filter.mp hr).2
  exact mem_filter.mpr ⟨mem_univ r, h.of_eq_some hr'⟩

/-- **A loop whose turns clear slots** clears the slots of all its turns. -/
theorem loop {σ β : Type*} {step : σ → β → Option σ} (view : σ → ι → Option α)
    (slots : β → Set ι) {I : σ → Prop} {l : List β} {s0 s : σ} (h : l.foldlM step s0 = some s)
    (h0 : I s0)
    (hkeep : ∀ a s s', I s → step s a = some s' →
      I s' ∧ Cleared (view s) (view s') (slots a)) :
    I s ∧ Cleared (view s0) (view s) {r | ∃ a ∈ l, r ∈ slots a} := by
  refine Runs.foldlM_rule (P := fun done s =>
    I s ∧ Cleared (view s0) (view s) {r | ∃ a ∈ done, r ∈ slots a}) h ?_ ?_
  · exact ⟨h0, by simpa using refl (view s0)⟩
  · rintro done a s1 s2 - ⟨hI, hc⟩ hstep
    obtain ⟨hI2, hc2⟩ := hkeep a s1 s2 hI hstep
    have hset : {r | ∃ b ∈ done ++ [a], r ∈ slots b} = {r | ∃ b ∈ done, r ∈ slots b} ∪ slots a := by
      ext r
      simp only [List.mem_append, List.mem_singleton, Set.mem_ofPred_eq, Set.mem_union]
      constructor
      · rintro ⟨b, hb | rfl, hr⟩
        · exact .inl ⟨b, hb, hr⟩
        · exact .inr hr
      · rintro (⟨b, hb, hr⟩ | hr)
        · exact ⟨b, .inl hb, hr⟩
        · exact ⟨a, .inr rfl, hr⟩
    rw [hset]
    exact ⟨hI2, hc.trans hc2⟩

end Cleared

end RefMap
