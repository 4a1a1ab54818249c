/-
Processes that share only what never changes again.

Each process has a state of its own.  Besides there is knowledge all of them share, such as who
has come to an end or what a name was given to, and it only grows: `g ≤ g'` says that `g'` knows all
that `g` knows.  A statement about one process that stays true when more is known is then a
statement no other process can spoil, and a step has to be looked at only for the process that
makes it (`All.move`) and the one it makes (`All.spawn`).

Statements about two processes have no such excuse: `Apart` has to be shown for the pair.  The one
that is needed is that no two processes have the same thing ahead of them (`Owned`), so that what is
done once is not done again.
-/
import Mathlib.Order.Basic

namespace Procs

open Function

variable {G L : Type*}

/-- Processes by number; those below `next` have been made. -/
structure Pool (G L : Type*) where
  shared : G
  procs : Nat → Option L
  next : Nat

/-- Process `a` has come to `l`, and `g` is known now. -/
def Pool.move (s : Pool G L) (a : Nat) (g : G) (l : L) : Pool G L :=
  { s with shared := g, procs := Function.update s.procs a (some l) }

/-- A new process. -/
def Pool.spawn (s : Pool G L) (l : L) : Pool G L :=
  { s with procs := Function.update s.procs s.next (some l), next := s.next + 1 }

variable {s : Pool G L} {a b : Nat} {g : G} {l m : L}

theorem procs_move_self : (s.move a g l).procs a = some l := update_self ..

theorem procs_move_of_ne (h : b ≠ a) : (s.move a g l).procs b = s.procs b :=
  update_of_ne h ..

theorem procs_spawn_self : (s.spawn l).procs s.next = some l := update_self ..

theorem procs_spawn_of_ne (h : b ≠ s.next) : (s.spawn l).procs b = s.procs b :=
  update_of_ne h ..

/-- A process after a step of `a` is `a` or one that has not moved. -/
theorem procs_move_cases (h : (s.move a g l).procs b = some m) :
    (b = a ∧ m = l) ∨ (b ≠ a ∧ s.procs b = some m) := by
  by_cases hb : b = a
  · subst hb
    rw [procs_move_self] at h
    exact .inl ⟨rfl, (Option.some.inj h).symm⟩
  · rw [procs_move_of_ne hb] at h
    exact .inr ⟨hb, h⟩

theorem procs_spawn_cases (h : (s.spawn l).procs b = some m) :
    (b = s.next ∧ m = l) ∨ (b ≠ s.next ∧ s.procs b = some m) := by
  by_cases hb : b = s.next
  · subst hb
    rw [procs_spawn_self] at h
    exact .inl ⟨rfl, (Option.some.inj h).symm⟩
  · rw [procs_spawn_of_ne hb] at h
    exact .inr ⟨hb, h⟩

/-- The processes there are have been made. -/
def Made (s : Pool G L) : Prop := ∀ a l, s.procs a = some l → a < s.next

theorem Made.move {l0 : L} (h : Made s) (ha : s.procs a = some l0) : Made (s.move a g l) := by
  intro b m hb
  rcases procs_move_cases hb with ⟨rfl, -⟩ | ⟨-, hm⟩
  · exact h _ _ ha
  · exact h b m hm

theorem Made.spawn (h : Made s) : Made (s.spawn l) := by
  intro b m hb
  rcases procs_spawn_cases hb with ⟨rfl, -⟩ | ⟨-, hm⟩
  · exact Nat.lt_succ_self s.next
  · exact Nat.lt_succ_of_lt (h b m hm)

/-! ### What holds of each process -/

/-- Every process satisfies `I`, given what is known. -/
def All (I : G → L → Prop) (s : Pool G L) : Prop := ∀ a l, s.procs a = some l → I s.shared l

variable {I : G → L → Prop}

/-- **One process moves**: it has to satisfy `I`, and for the others more is known. -/
theorem All.move [LE G] (h : All I s) (hmono : ∀ g g' l, g ≤ g' → I g l → I g' l)
    (hle : s.shared ≤ g) (hl : I g l) : All I (s.move a g l) := by
  intro b m hb
  rcases procs_move_cases hb with ⟨-, rfl⟩ | ⟨-, hb⟩
  · exact hl
  · exact hmono _ _ _ hle (h b m hb)

theorem All.spawn (h : All I s) (hl : I s.shared l) : All I (s.spawn l) := by
  intro b m hb
  rcases procs_spawn_cases hb with ⟨-, rfl⟩ | ⟨-, hb⟩
  · exact hl
  · exact h b m hb

/-! ### What holds of two processes -/

/-- Any two processes are related. -/
def Apart (R : L → L → Prop) (s : Pool G L) : Prop :=
  ∀ a b l m, a ≠ b → s.procs a = some l → s.procs b = some m → R l m

variable {R : L → L → Prop}

/-- One process moves, to a state that is related to at least as much. -/
theorem Apart.move {l0 : L} (h : Apart R s) (hsymm : ∀ l m, R l m → R m l)
    (ha : s.procs a = some l0)
    (hl : ∀ m, R l0 m → R l m) : Apart R (s.move a g l) := by
  intro b c m n hne hb hc
  rcases procs_move_cases hb with ⟨rfl, rfl⟩ | ⟨-, hm⟩
  · rcases procs_move_cases hc with ⟨rfl, -⟩ | ⟨-, hc⟩
    · exact absurd rfl hne
    · exact hl n (h _ _ _ _ hne ha hc)
  · rcases procs_move_cases hc with ⟨rfl, rfl⟩ | ⟨-, hc⟩
    · exact hsymm _ _ (hl m (h _ _ _ _ hne.symm ha hm))
    · exact h b c m n hne hm hc

theorem Apart.spawn (h : Apart R s) (hsymm : ∀ l m, R l m → R m l)
    (hl : ∀ b m, s.procs b = some m → R l m) : Apart R (s.spawn l) := by
  intro b c m n hne hb hc
  rcases procs_spawn_cases hb with ⟨rfl, rfl⟩ | ⟨-, hm⟩
  · rcases procs_spawn_cases hc with ⟨rfl, -⟩ | ⟨-, hc⟩
    · exact absurd rfl hne
    · exact hl c n hc
  · rcases procs_spawn_cases hc with ⟨rfl, rfl⟩ | ⟨-, hc⟩
    · exact hsymm _ _ (hl b m hm)
    · exact h b c m n hne hm hc

/-! ### Things that happen once -/

variable {E : Type*} {owns : L → E → Prop} {past : G → E → Prop}

/-- `owns l e`: the event `e` may be ahead of a process at `l`.  No other process has it ahead, and
it has not happened. -/
structure Owned (owns : L → E → Prop) (past : G → E → Prop) (s : Pool G L) : Prop where
  apart : Apart (fun l m => ∀ e, owns l e → ¬owns m e) s
  ahead : ∀ a l e, s.procs a = some l → owns l e → ¬past s.shared e

theorem Owned.symm (l m : L) (h : ∀ e, owns l e → ¬owns m e) : ∀ e, owns m e → ¬owns l e :=
  fun e hm hl => h e hl hm

/-- A process moves.  What happens was ahead of it and is so no longer. -/
theorem Owned.move {l0 : L} (h : Owned owns past s) (ha : s.procs a = some l0)
    (hsub : ∀ e, owns l e → owns l0 e) (hpast : ∀ e, past g e → past s.shared e ∨ owns l0 e)
    (hnew : ∀ e, owns l e → ¬past g e) : Owned owns past (s.move a g l) := by
  refine ⟨h.apart.move Owned.symm ha fun m hm e he => hm e (hsub e he), ?_⟩
  intro b m e hb he hp
  rcases procs_move_cases hb with ⟨-, rfl⟩ | ⟨hne, hm⟩
  · exact hnew e he hp
  · rcases hpast e hp with hp | ho
    · exact h.ahead b m e hm he hp
    · exact h.apart b a m l0 hne hm ha e he ho

/-- A process shares what is ahead of it with a new one. -/
theorem Owned.fork {l0 c : L} (h : Owned owns past s) (ha : s.procs a = some l0)
    (hsub : ∀ e, owns l e → owns l0 e) (hchild : ∀ e, owns c e → owns l0 e)
    (hsplit : ∀ e, owns c e → ¬owns l e) (hpast : ∀ e, past g e → past s.shared e ∨ owns l0 e)
    (hnew : ∀ e, owns l e ∨ owns c e → ¬past g e) :
    Owned owns past ((s.move a g l).spawn c) := by
  have hmove : Owned owns past (s.move a g l) :=
    h.move ha hsub hpast fun e he => hnew e (.inl he)
  refine ⟨hmove.apart.spawn Owned.symm ?_, ?_⟩
  · intro b m hb e he
    rcases procs_move_cases hb with ⟨-, rfl⟩ | ⟨hne, hm⟩
    · exact hsplit e he
    · exact fun hm' => h.apart b a m l0 hne hm ha e hm' (hchild e he)
  · intro b m e hb he
    rcases procs_spawn_cases hb with ⟨-, rfl⟩ | ⟨-, hm⟩
    · exact hnew e (.inr he)
    · exact hmove.ahead b m e hm he

end Procs
