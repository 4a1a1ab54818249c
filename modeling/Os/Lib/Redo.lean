/-
Redo logging.

Blocks that belong together are first copied to slots outside of the blocks in use, and
then, when a list of them has been written down, copied from there to where they belong.
`Pending` says that a disk is on its way to `X`: the slots hold what the listed blocks
are to be, and every other block is there already.  It does not say how many have been
copied, so it holds after every copy and after any number of new starts.
-/
import Mathlib.Data.List.Basic

namespace Redo

open List Function

variable {B D : Type*} [DecidableEq B]

/-! ### Writes in order -/

/-- The blocks after a list of writes. -/
def replay (d : B → D) (ws : List (B × D)) : B → D :=
  ws.foldl (fun d w => update d w.1 w.2) d

theorem replay_append (d : B → D) (ws ws' : List (B × D)) :
    replay d (ws ++ ws') = replay (replay d ws) ws' := foldl_append

theorem replay_concat (d : B → D) (ws : List (B × D)) (w : B × D) :
    replay d (ws ++ [w]) = update (replay d ws) w.1 w.2 := by
  rw [replay_append]
  rfl

theorem replay_of_forall_ne {d : B → D} {ws : List (B × D)} {b : B} (h : ∀ w ∈ ws, w.1 ≠ b) :
    replay d ws b = d b := by
  induction ws generalizing d with
  | nil => rfl
  | cons w ws ih =>
    have hrest : replay (update d w.1 w.2) ws b = update d w.1 w.2 b :=
      ih fun w' hw' => h w' (mem_cons_of_mem w hw')
    have hne : b ≠ w.1 := fun hb => h w mem_cons_self hb.symm
    exact hrest.trans (update_of_ne hne _ _)

/-! ### Copies still to be made -/

/-- Once the blocks of `l` have been copied from their slots, the disk is `X`. -/
structure Pending (home : B → Prop) (slot : Nat → B) (l : List B) (disk X : B → D) : Prop where
  copy : ∀ i b, l[i]? = some b → disk (slot i) = X b
  rest : ∀ b, home b → b ∉ l → disk b = X b
  target : ∀ b ∈ l, home b
  apart : ∀ i b, l[i]? = some b → ¬ home (slot i)

variable {home : B → Prop} {slot : Nat → B} {l : List B} {disk X : B → D} {b : B} {i : Nat}

omit [DecidableEq B] in
theorem pending_nil_iff : Pending home slot [] disk X ↔ ∀ b, home b → disk b = X b := by
  refine ⟨fun h b hb => h.rest b hb not_mem_nil, fun h => ⟨?_, fun b hb _ => h b hb, ?_, ?_⟩⟩
  · intro i b hi
    simp at hi
  · intro b hb
    simp at hb
  · intro i b hi
    simp at hi

namespace Pending

section

variable (h : Pending home slot l disk X) (hi : l[i]? = some b)
include h hi

/-- **One copy**, and it may be made again. -/
theorem install :
    Pending home slot l (update disk b (disk (slot i))) X := by
  have hb : home b := h.target b (mem_of_getElem? hi)
  refine ⟨?_, ?_, h.target, h.apart⟩
  · intro j b' hj
    have hne : slot j ≠ b := by
      intro hs
      exact h.apart j b' hj (hs ▸ hb)
    rw [update_of_ne hne]
    exact h.copy j b' hj
  · intro b' hb' hnot
    have hne : b' ≠ b := by
      intro hbb
      exact hnot (hbb ▸ mem_of_getElem? hi)
    rw [update_of_ne hne]
    exact h.rest b' hb' hnot

theorem install_self :
    update disk b (disk (slot i)) b = X b := by
  rw [update_self]
  exact h.copy i b hi

theorem install_keeps {b' : B}
    (hb' : disk b' = X b') : update disk b (disk (slot i)) b' = X b' := by
  by_cases hbb : b' = b
  · rw [hbb]
    exact h.install_self hi
  · rw [update_of_ne hbb]
    exact hb'

end

omit [DecidableEq B] in
theorem clear (h : Pending home slot l disk X) (hall : ∀ b ∈ l, disk b = X b) :
    Pending home slot [] disk X := by
  refine pending_nil_iff.mpr fun b hb => ?_
  by_cases hl : b ∈ l
  · exact hall b hl
  · exact h.rest b hb hl

/-- Outside of the blocks in use anything may be written while nothing is listed. -/
theorem scribble {v : D} (h : Pending home slot [] disk X) (hb : ¬ home b) :
    Pending home slot [] (update disk b v) X := by
  refine pending_nil_iff.mpr fun b' hb' => ?_
  have hne : b' ≠ b := by
    intro hbb
    exact hb (hbb ▸ hb')
  rw [update_of_ne hne]
  exact pending_nil_iff.mp h b' hb'

end Pending

end Redo
