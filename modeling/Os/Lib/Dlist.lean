/-
Doubly linked lists threaded through the elements themselves.

`Link next prev x l z` says that going from `x` along `next` visits the elements of `l` and
comes to `z`, and that `prev` leads back the same way.  A circular list with a head that is
no element is a link from the head to itself, over elements that differ from one another
and from the head.

Taking an element out and putting one behind the head are written as the assignments of a
C program, one field of one element after the other.
-/
import Mathlib.Data.List.Nodup
import Mathlib.Data.List.Perm.Basic

namespace Dlist

open List Function

variable {α : Type*}

def Link (next prev : α → α) : α → List α → α → Prop
  | x, [], z => next x = z ∧ prev z = x
  | x, b :: l, z => next x = b ∧ prev b = x ∧ Link next prev b l z

variable {next prev next' prev' : α → α} {x z b : α} {l l1 l2 : List α}

theorem link_append_cons :
    Link next prev x (l1 ++ b :: l2) z ↔ Link next prev x l1 b ∧ Link next prev b l2 z := by
  induction l1 generalizing x with
  | nil => simp [Link, and_assoc]
  | cons a l ih => simp [Link, ih, and_assoc]

namespace Link

section

variable (h : Link next prev x l z)
include h

theorem reverse : Link prev next z l.reverse x := by
  induction l generalizing x with
  | nil => exact ⟨h.2, h.1⟩
  | cons b l ih =>
    obtain ⟨hn, hp, hl⟩ := h
    rw [reverse_cons]
    exact link_append_cons.mpr ⟨ih hl, hp, hn⟩

theorem congr (hn : ∀ a ∈ x :: l, next' a = next a)
    (hp : ∀ a, a ∈ l ∨ a = z → prev' a = prev a) : Link next' prev' x l z := by
  induction l generalizing x with
  | nil => exact ⟨(hn x (by simp)).trans h.1, (hp z (by simp)).trans h.2⟩
  | cons b l ih =>
    obtain ⟨hxb, hbx, hl⟩ := h
    refine ⟨(hn x (by simp)).trans hxb, (hp b (by simp)).trans hbx, ih hl ?_ ?_⟩
    · exact fun a ha => hn a (mem_cons_of_mem x ha)
    · exact fun a ha => hp a (ha.imp_left (mem_cons_of_mem b))

theorem next_mem : next x ∈ l ∨ next x = z := by
  cases l with
  | nil => exact .inr h.1
  | cons b l => exact .inl (by simp [h.1])

theorem prev_mem : prev z ∈ l ∨ prev z = x := by
  have hrev := h.reverse.next_mem
  rwa [mem_reverse] at hrev

end

end Link

/-- The elements of `l` are threaded behind `head`, each of them once. -/
structure Ring (next prev : α → α) (head : α) (l : List α) : Prop where
  link : Link next prev head l head
  nodup : (head :: l).Nodup

theorem Ring.head_notMem {head : α} (h : Ring next prev head l) : head ∉ l :=
  (nodup_cons.mp h.nodup).1

/-! ### Searching -/

section Scan

variable [DecidableEq α]

/-- Goes along `step` from `b` until `ok` holds or the head is reached; `none` after too many
steps. -/
def scan (step : α → α) (head : α) (ok : α → Bool) : Nat → α → Option (Option α)
  | 0, _ => none
  | n + 1, b =>
    if b = head then some none
    else if ok b then some (some b)
    else scan step head ok n (step b)

/-- **A search comes to an end** and finds the first element there is. -/
theorem Link.scan {head : α} {ok : α → Bool} (h : Link next prev x l head) (hhead : head ∉ l)
    {n : Nat} (hn : l.length < n) : Dlist.scan next head ok n (next x) = some (l.find? ok) := by
  induction l generalizing x n with
  | nil =>
    obtain ⟨n, rfl⟩ := Nat.exists_eq_add_one_of_ne_zero (Nat.ne_zero_of_lt hn)
    rw [Dlist.scan, if_pos h.1]
    rfl
  | cons b l ih =>
    obtain ⟨n, rfl⟩ := Nat.exists_eq_add_one_of_ne_zero (Nat.ne_zero_of_lt hn)
    obtain ⟨hb, -, hl⟩ := h
    rw [mem_cons, not_or] at hhead
    rw [hb, Dlist.scan, if_neg (Ne.symm hhead.1), List.find?_cons]
    cases hok : ok b with
    | true => rfl
    | false => exact ih hl hhead.2 (Nat.lt_of_succ_lt_succ hn)

end Scan

/-! ### Changing a circular list -/

section Edit

variable [DecidableEq α]

/-- `b->next->prev = b->prev; b->prev->next = b->next`. -/
def unlink (next prev : α → α) (b : α) : (α → α) × (α → α) :=
  (update next (update prev (next b) (prev b) b) (next b),
    update prev (next b) (prev b))

/-- `b->next = head.next; b->prev = &head; head.next->prev = b; head.next = b`. -/
def pushFront (next prev : α → α) (head b : α) : (α → α) × (α → α) :=
  (update (update next b (next head)) head b,
    update (update prev b head) (update next b (next head) head) b)

theorem Link.unlink (hl1 : Link next prev x l1 b) (hl2 : Link next prev b l2 z)
    (hnodup : (x :: l1 ++ b :: l2).Nodup) (hz : z ∉ l1 ++ b :: l2) :
    Link (Dlist.unlink next prev b).1 (Dlist.unlink next prev b).2 x (l1 ++ l2) z := by
  have hfirst := hl2.next_mem
  have hb : next b ≠ b := by
    intro hc
    rw [hc] at hfirst
    grind
  have hunlink : Dlist.unlink next prev b
      = (update next (prev b) (next b), update prev (next b) (prev b)) := by
    unfold Dlist.unlink
    rw [update_of_ne (Ne.symm hb)]
  rw [hunlink]
  dsimp only
  -- induction on what stands before the element
  induction l1 generalizing x with
  | nil =>
    obtain ⟨hxb, hbx⟩ := hl1
    rw [hbx]
    cases l2 with
    | nil =>
      rw [hl2.1]
      exact ⟨update_self .., update_self ..⟩
    | cons c l2 =>
      obtain ⟨hbc, hcb, hl2⟩ := hl2
      rw [hbc]
      refine ⟨update_self .., update_self .., hl2.congr ?_ ?_⟩
      · intro a ha
        rw [update_of_ne (by grind)]
      · intro a ha
        rw [update_of_ne (by grind)]
  | cons a l1 ih =>
    obtain ⟨hxa, hax, hl1⟩ := hl1
    have hlast := hl1.prev_mem
    refine ⟨?_, ?_, ih hl1 (by grind) (by grind)⟩
    · rw [update_of_ne (by grind), hxa]
    · rw [update_of_ne (by grind), hax]

theorem Link.pushFront {head : α} (h : Link next prev head l head) (hb : b ∉ head :: l)
    (hnodup : (head :: l).Nodup) :
    Link (Dlist.pushFront next prev head b).1 (Dlist.pushFront next prev head b).2 head (b :: l)
      head := by
  obtain ⟨hbh, hbl⟩ : b ≠ head ∧ b ∉ l := by simpa using hb
  have hpush : Dlist.pushFront next prev head b
      = (update (update next b (next head)) head b,
        update (update prev b head) (next head) b) := by
    unfold Dlist.pushFront
    rw [update_of_ne (Ne.symm hbh)]
  rw [hpush]
  dsimp only
  have hfirst := h.next_mem
  refine ⟨update_self .., ?_, ?_⟩
  · rw [update_of_ne (by grind), update_self]
  cases l with
  | nil =>
    obtain ⟨hn, -⟩ := h
    refine ⟨?_, ?_⟩
    · rw [update_of_ne hbh, update_self, hn]
    · rw [hn, update_self]
  | cons c l =>
    obtain ⟨hn, hp, hl⟩ := h
    refine ⟨?_, ?_, hl.congr (fun a ha => ?_) fun a ha => ?_⟩
    · rw [update_of_ne hbh, update_self, hn]
    · rw [hn, update_self]
    · rw [update_of_ne (by grind), update_of_ne (by grind)]
    · rw [update_of_ne (by grind), update_of_ne (by grind)]

/-! ### Circular lists -/

namespace Ring

variable {head : α}

theorem scan_next (h : Ring next prev head l) {ok : α → Bool} {n : Nat} (hn : l.length < n) :
    scan next head ok n (next head) = some (l.find? ok) :=
  h.link.scan h.head_notMem hn

theorem scan_prev (h : Ring next prev head l) {ok : α → Bool} {n : Nat} (hn : l.length < n) :
    scan prev head ok n (prev head) = some (l.reverse.find? ok) :=
  h.link.reverse.scan (by simpa using h.head_notMem) (by simpa using hn)

theorem push (h : Ring next prev head l) (hb : b ∉ head :: l) :
    Ring (Dlist.pushFront next prev head b).1 (Dlist.pushFront next prev head b).2 head (b :: l) :=
  ⟨h.link.pushFront hb h.nodup, (List.Perm.swap _ _ _).nodup (nodup_cons.mpr ⟨hb, h.nodup⟩)⟩

/-- **An element is taken out and put behind the head.** -/
theorem moveFront (h : Ring next prev head (l1 ++ b :: l2)) :
    Ring (Dlist.pushFront (Dlist.unlink next prev b).1 (Dlist.unlink next prev b).2 head b).1
      (Dlist.pushFront (Dlist.unlink next prev b).1 (Dlist.unlink next prev b).2 head b).2 head
      (b :: (l1 ++ l2)) := by
  obtain ⟨h1, h2⟩ := link_append_cons.mp h.link
  have hnodup := h.nodup
  have hout : Ring (Dlist.unlink next prev b).1 (Dlist.unlink next prev b).2 head (l1 ++ l2) :=
    ⟨h1.unlink h2 hnodup h.head_notMem, by grind⟩
  exact hout.push (by grind)

end Ring

end Edit

end Dlist
