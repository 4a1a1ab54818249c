/-
Singly linked lists threaded through the elements themselves.

A free list in C is a head pointer and a link field in every element.  Nothing in
that representation says it is a list: the links may run in a circle, and an
element may be reached from two heads.  `Chain link head l` says that following
`link` from `head` visits exactly the elements of `l`, in order, and then stops.

Stopping is what makes it a list.  The links are a function, so a chain that came
back to an element would go round for ever; `Chain.nodup` is that argument, and
with it pushing and popping are the usual list operations.
-/
import Mathlib.Data.List.Nodup

namespace Linked

open List

variable {α : Type*}

/-- Following `link` from `head` visits the elements of the list and stops. -/
def Chain (link : α → Option α) : Option α → List α → Prop
  | head, [] => head = none
  | head, a :: l => head = some a ∧ Chain link (link a) l

variable {link : α → Option α} {head : Option α} {l : List α} {a : α}

@[simp] theorem chain_nil : Chain link head [] ↔ head = none := Iff.rfl

@[simp] theorem chain_cons :
    Chain link head (a :: l) ↔ head = some a ∧ Chain link (link a) l := Iff.rfl

instance Chain.decidable [DecidableEq α] :
    (head : Option α) → (l : List α) → Decidable (Chain link head l)
  | head, [] => inferInstanceAs (Decidable (head = none))
  | head, a :: l =>
    @instDecidableAnd _ _ (inferInstanceAs (Decidable (head = some a))) (Chain.decidable (link a) l)

/-- A chain that starts at an element is that element and the chain from its link. -/
theorem Chain.of_some (h : Chain link (some a) l) : ∃ m, l = a :: m ∧ Chain link (link a) m := by
  cases l with
  | nil => simp at h
  | cons b m =>
    obtain ⟨hb, hm⟩ := h
    cases hb
    exact ⟨m, rfl, hm⟩

/-- Links that lead from each element of a list to the next one. -/
theorem chain_of_getElem (h : ∀ (i : Nat) (hi : i < l.length), link l[i] = l[i + 1]?) :
    Chain link l.head? l := by
  induction l with
  | nil => rfl
  | cons a l ih =>
    refine ⟨rfl, ?_⟩
    have hlink : link a = l.head? := by
      rw [List.head?_eq_getElem?]
      exact h 0 (by simp)
    rw [hlink]
    refine ih fun i hi => ?_
    have hi' : i + 1 < (a :: l).length := Nat.succ_lt_succ hi
    exact h (i + 1) hi'

section

variable (h : Chain link head l)
include h

theorem Chain.unique {l' : List α} (h' : Chain link head l') :
    l = l' := by
  induction l generalizing head l' with
  | nil =>
    cases l' with
    | nil => rfl
    | cons b m => simp_all
  | cons a l ih =>
    cases l' with
    | nil => simp_all
    | cons b m =>
      obtain ⟨ha, hl⟩ := h
      obtain ⟨hb, hm⟩ := h'
      have hab : a = b := by simpa [ha] using hb
      subst hab
      rw [ih hl hm]

/-- Every element on a chain starts a chain of its own, no longer than the rest. -/
theorem Chain.from_mem (ha : a ∈ l) :
    ∃ m, Chain link (some a) m ∧ m.length ≤ l.length := by
  induction l generalizing head with
  | nil => simp at ha
  | cons b l ih =>
    obtain ⟨hb, hl⟩ := h
    rcases mem_cons.mp ha with rfl | ha'
    · exact ⟨a :: l, ⟨rfl, hl⟩, Nat.le_refl _⟩
    · obtain ⟨m, hm, hlen⟩ := ih hl ha'
      exact ⟨m, hm, Nat.le_succ_of_le hlen⟩

/-- **A chain that stops visits nothing twice.** -/
theorem Chain.nodup : l.Nodup := by
  induction l generalizing head with
  | nil => exact nodup_nil
  | cons a l ih =>
    obtain ⟨-, hl⟩ := h
    refine nodup_cons.mpr ⟨?_, ih hl⟩
    intro ha
    -- the chain from `a` would be both `a :: l` and something no longer than `l`
    obtain ⟨m, hm, hlen⟩ := hl.from_mem ha
    have heq : m = a :: l := hm.unique ⟨rfl, hl⟩
    rw [heq, length_cons] at hlen
    omega

theorem Chain.congr {link' : α → Option α}
    (hl : ∀ b ∈ l, link' b = link b) : Chain link' head l := by
  induction l generalizing head with
  | nil => exact h
  | cons b l ih =>
    obtain ⟨hb, hrest⟩ := h
    refine ⟨hb, ?_⟩
    rw [hl b (by simp)]
    exact ih hrest fun c hc => hl c (by simp [hc])

end

variable [DecidableEq α]

theorem Chain.update_of_notMem {x : Option α} (h : Chain link head l) (ha : a ∉ l) :
    Chain (Function.update link a x) head l := by
  refine h.congr fun b hb => ?_
  have hne : b ≠ a := by
    rintro rfl
    exact ha hb
  exact Function.update_of_ne hne _ _

/-- Pushing: the new element is linked to the old head. -/
theorem Chain.push (h : Chain link head l) (ha : a ∉ l) :
    Chain (Function.update link a head) (some a) (a :: l) := by
  refine ⟨rfl, ?_⟩
  rw [Function.update_self]
  exact h.update_of_notMem ha

/-- Popping: the rest survives clearing the link of the element taken. -/
theorem Chain.pop {x : Option α} (h : Chain link head (a :: l)) :
    Chain (Function.update link a x) (link a) l :=
  h.2.update_of_notMem (nodup_cons.mp h.nodup).1

end Linked
