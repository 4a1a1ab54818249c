/-
All processes of the shell at once.

`Outcome` says what a step can be: the process ends, it goes on without anybody noticing (`Next`),
it makes a pipe, or it forks.  The last two are what can happen once only.  `Ahead` are the pipes
and forks that the code of a process may still come to, its own and those of every command it will
run; calling `runcmd` replaces a command by its parts, and `fork` gives some of them away.
-/
import Mathlib.Data.List.Nodup
import Os.Proofs.Sh.Parsecmd
import Os.Proofs.Sh.Runcmd

namespace Sh

open Procs Runs List Option

variable {α β : Type} {nofile : Nat} {tree : Cmd α} {t0 : Table α β} {g g' : World}
variable {s' : Sys α β} {k code : List (Instr α)} {c : Cmd (List UInt8)} {cmd : Path}
variable {st : Status α} {ts : List Token}

/-! ### What a step can be -/

/-- The instructions that concern only the process itself. -/
inductive Next (nofile : Nat) (tree : Cmd α) (g : World) (p : Frame α β) :
    List (Instr α) → Frame α β → Status α → Prop
  | op {o : Op} {k : List (Instr α)} :
      Next nofile tree g p (.op o :: k) { p with table := p.apply nofile p.table o } (.shell k)
  | opened {file : α} {mode : OpenMode} {k : List (Instr α)} {t : Table α β}
      (ht : p.table.opened nofile (.named file mode) = some t) :
      Next nofile tree g p (.openFile file mode :: k) { p with table := t } (.shell k)
  | waited {k : List (Instr α)} (hkids : p.kids = []) :
      Next nofile tree g p (.wait :: k) p (.shell k)
  | reaped {k : List (Instr α)} {q : Nat} (hkid : q ∈ p.kids) (hexit : q ∈ g.exited) :
      Next nofile tree g p (.wait :: k) { p with kids := p.kids.erase q } (.shell k)
  | run {cmd : Path} {c : Cmd α} {k : List (Instr α)} (hget : tree.get cmd = some c) :
      Next nofile tree g p (.run cmd :: k) { p with cmd := cmd } (.shell (runcmd cmd c))
  | execFails {argv : List α} {k : List (Instr α)} :
      Next nofile tree g p (.exec argv :: k) p (.shell k)
  | exec {argv : List α} {k : List (Instr α)} :
      Next nofile tree g p (.exec argv :: k) p (.program argv)

/-- What a step of process `a`, which is at `p`, makes of `s`. -/
inductive Outcome (nofile : Nat) (tree : Cmd α) (s : Sys α β) (a : Nat) (p : Proc α β) :
    Sys α β → Prop
  | ended : Outcome nofile tree s a p (exit s a p)
  | moved {code : List (Instr α)} {f : Frame α β} {st : Status α} (hcode : p.status = .shell code)
      (hnext : Next nofile tree s.shared p.toFrame code f st) :
      Outcome nofile tree s a p (s.move a s.shared ⟨f, st⟩)
  | piped {k : List (Instr α)} {n m : Nat} {t : Table α β} (hcode : p.status = .shell (.pipe :: k))
      (ht : p.table.pipe nofile s.shared.pipes.length = some (n, m, t)) :
      Outcome nofile tree s a p
        (s.move a { s.shared with pipes := (p.cmd, s.shared.pipes.length) :: s.shared.pipes }
          { p with table := t, p0 := n, p1 := m, status := .shell k })
  | forked {setup : List Op} {cmd : Path} {k : List (Instr α)}
      (hcode : p.status = .shell (.fork setup cmd :: k)) :
      Outcome nofile tree s a p
        ((s.move a { s.shared with forks := (cmd, s.next) :: s.shared.forks }
          { p with kids := s.next :: p.kids, status := .shell k }).spawn
            { p with kids := [], status := .shell (setup.map .op ++ [.run cmd]) })

theorem instr_outcome {s : Sys α β} {a : Nat} {p : Proc α β} {x : Choice} {i : Instr α}
    (hcode : p.status = .shell (i :: k)) (h : instr nofile tree s a p x k i = some s') :
    Outcome nofile tree s a p s' := by
  cases i with
  | op o =>
    cases h
    exact .moved hcode .op
  | openFile file mode =>
    simp only [instr] at h
    split at h
    · cases h
      exact .ended
    · rename_i t ht
      cases h
      exact .moved hcode (.opened (ite_none_left_eq_some.mp ht).2)
  | pipe =>
    simp only [instr] at h
    split at h
    · cases h
      exact .ended
    · rename_i n m t ht
      cases h
      exact .piped hcode (ite_none_left_eq_some.mp ht).2
  | fork setup cmd =>
    simp only [instr] at h
    split at h
    · cases h
      exact .ended
    · cases h
      exact .forked hcode
  | wait =>
    simp only [instr] at h
    split at h
    · rename_i hkids
      cases h
      exact .moved hcode (.waited hkids)
    · obtain ⟨⟨hkid, hexit⟩, rfl⟩ := ite_some_none_eq_some.mp h
      exact .moved hcode (.reaped hkid hexit)
  | run cmd =>
    simp only [instr] at h
    split at h
    · cases h
    · rename_i c hget
      cases h
      exact .moved hcode (.run hget)
  | exec argv =>
    simp only [instr] at h
    split at h
    · cases h
      exact .moved hcode .execFails
    · cases h
      exact .moved hcode .exec
  | exit =>
    cases h
    exact .ended

theorem step_outcome {s : Sys α β} {x : Nat × Choice} (h : step nofile tree s x = some s') :
    ∃ p, s.procs x.1 = some p ∧ p.status ≠ .exited ∧ Outcome nofile tree s x.1 p s' := by
  unfold step at h
  split at h
  · cases h
  rename_i p hp
  refine ⟨p, hp, ?_⟩
  split at h
  · cases h
  · rename_i i k hcode
    exact ⟨by simp [hcode], instr_outcome hcode h⟩
  · rename_i argv hcode
    cases h
    exact ⟨by simp [hcode], .ended⟩
  · cases h

/-! ### What is ahead -/

inductive Event
  | piped (cmd : Path)
  | forked (cmd : Path)

/-- What running the command at `π` may bring. -/
def Below (π : Path) : Event → Prop
  | .piped σ => π <+: σ
  | .forked σ => π <+: σ ∧ σ ≠ π

/-- What the code of a process that runs `cmd` may bring. -/
def Ahead (cmd : Path) : List (Instr α) → Event → Prop
  | [], _ => False
  | .pipe :: k, e => e = .piped cmd ∨ Ahead cmd k e
  | .fork _ π :: k, e => e = .forked π ∨ Below π e ∨ Ahead cmd k e
  | .run π :: k, e => Below π e ∨ Ahead cmd k e
  | .op _ :: k, e => Ahead cmd k e
  | .openFile _ _ :: k, e => Ahead cmd k e
  | .wait :: k, e => Ahead cmd k e
  | .exec _ :: k, e => Ahead cmd k e
  | .exit :: k, e => Ahead cmd k e

/-- No part of the code brings what an earlier part has brought or given away. -/
def Linear (cmd : Path) : List (Instr α) → Prop
  | [] => True
  | .pipe :: k => ¬Ahead cmd k (.piped cmd) ∧ Linear cmd k
  | .fork _ π :: k =>
    ¬Ahead cmd k (.forked π) ∧ (∀ e, Below π e → ¬Ahead cmd k e) ∧ Linear cmd k
  | .run _ :: k => Linear cmd k
  | .op _ :: k => Linear cmd k
  | .openFile _ _ :: k => Linear cmd k
  | .wait :: k => Linear cmd k
  | .exec _ :: k => Linear cmd k
  | .exit :: k => Linear cmd k

def Proc.Owns (p : Proc α β) (e : Event) : Prop :=
  ∃ code, p.status = .shell code ∧ Ahead p.cmd code e

/-- What has happened. -/
def World.Past (g : World) : Event → Prop
  | .piped π => π ∈ g.pipes.map Prod.fst
  | .forked π => π ∈ g.forks.map Prod.fst

section Below

variable {π : Path} {f f' : Field} {e : Event}

theorem not_snoc_le : ¬π ++ [f] <+: π := by
  intro h
  have hlen := h.length_le
  rw [length_append, length_singleton] at hlen
  omega

theorem Below.up (h : Below (π ++ [f]) e) : Below π e := by
  cases e with
  | piped σ => exact (prefix_append π [f]).trans h
  | forked σ =>
    refine ⟨(prefix_append π [f]).trans h.1, ?_⟩
    rintro rfl
    exact not_snoc_le h.1

theorem below_forked : Below π (.forked (π ++ [f])) :=
  ⟨prefix_append π [f], by simp⟩

/-- Two commands beside each other have nothing in common. -/
theorem field_eq_of_le {σ : Path} (h : π ++ [f] <+: σ) (h' : π ++ [f'] <+: σ) : f = f' := by
  have hlen : (π ++ [f]).length = (π ++ [f']).length := by simp
  have heq := (prefix_of_prefix_length_le h h' (Nat.le_of_eq hlen)).eq_of_length hlen
  simpa using heq

theorem Below.eq (h : Below (π ++ [f]) e) (h' : Below (π ++ [f']) e) : f = f' := by
  cases e with
  | piped σ => exact field_eq_of_le h h'
  | forked σ => exact field_eq_of_le h.1 h'.1

theorem not_below_forked : ¬Below (π ++ [f]) (.forked (π ++ [f'])) := by
  intro h
  exact h.2 (by rw [field_eq_of_le h.1 (prefix_refl _)])

end Below

/-- A command brings what its parts bring, and its own pipe and forks. -/
theorem ahead_runcmd {π : Path} {c : Cmd α} {e : Event} (h : Ahead π (runcmd π c) e) :
    Below π e := by
  cases c with
  | exec argv =>
    rw [runcmd] at h
    split at h <;> cases h
  | redir cmd file mode fd =>
    rcases h with h | h
    · exact h.up
    · cases h
  | pipe left right =>
    rcases h with rfl | rfl | h | rfl | h | h
    · exact prefix_refl π
    · exact below_forked
    · exact h.up
    · exact below_forked
    · exact h.up
    · cases h
  | list left right =>
    rcases h with rfl | h | h | h
    · exact below_forked
    · exact h.up
    · exact h.up
    · cases h
  | back cmd =>
    rcases h with rfl | h | h
    · exact below_forked
    · exact h.up
    · cases h

theorem linear_runcmd {π : Path} {c : Cmd α} : Linear π (runcmd π c) := by
  cases c with
  | exec argv =>
    rw [runcmd]
    split <;> trivial
  | redir cmd file mode fd => trivial
  | pipe left right =>
    refine ⟨?_, ⟨?_, ?_, ?_, ?_, trivial⟩⟩
    · rintro (h | h | h | h | h)
      · cases h
      · exact not_snoc_le h
      · cases h
      · exact not_snoc_le h
      · cases h
    · rintro (h | h | h)
      · simp at h
      · exact not_below_forked h
      · cases h
    · rintro e he (rfl | h | h)
      · exact not_below_forked he
      · cases he.eq h
      · cases h
    · rintro ⟨⟩
    · rintro e - ⟨⟩
  | list left right =>
    refine ⟨?_, ?_, trivial⟩
    · rintro (h | h)
      · exact not_below_forked h
      · cases h
    · rintro e he (h | h)
      · cases he.eq h
      · cases h
  | back cmd =>
    refine ⟨?_, ?_, trivial⟩
    · rintro ⟨⟩
    · rintro e - ⟨⟩

theorem ahead_setup {π : Path} {ops : List Op} {e : Event} :
    Ahead (α := α) cmd (ops.map .op ++ [.run π]) e ↔ Below π e := by
  induction ops with
  | nil => exact or_iff_left id
  | cons o ops ih => exact ih

theorem linear_setup {π : Path} {ops : List Op} :
    Linear (α := α) cmd (ops.map .op ++ [.run π]) := by
  induction ops with
  | nil => trivial
  | cons o ops ih => exact ih

/-! ### One process -/

/-- A process is on its way to what is prescribed. -/
structure Good (nofile : Nat) (tree : Cmd α) (t0 : Table α β) (g : World) (p : Proc α β) :
    Prop where
  ordered : Ordered tree g p.cmd
  linear : ∀ code, p.status = .shell code → Linear p.cmd code
  fine : ∀ code, p.status = .shell code → Fine nofile tree t0 code g p.toFrame
  program : ∀ argv, p.status = .program argv →
    tree.get p.cmd = some (.exec argv) ∧ Prescribed tree t0 g p.cmd p.table

theorem Good.mono (g g' : World) (p : Proc α β) (hle : g ≤ g') (h : Good nofile tree t0 g p) :
    Good nofile tree t0 g' p where
  ordered := h.ordered.mono hle
  linear := h.linear
  fine code hcode := (h.fine code hcode).mono hle
  program argv hargv := ⟨(h.program argv hargv).1, (h.program argv hargv).2.mono hle⟩

theorem Good.of_shell {f : Frame α β} (hord : Ordered tree g f.cmd) (hlin : Linear f.cmd k)
    (hfine : Fine nofile tree t0 k g f) :
    Good nofile tree t0 g ⟨f, .shell k⟩ where
  ordered := hord
  linear := by
    rintro _ ⟨⟩
    exact hlin
  fine := by
    rintro _ ⟨⟩
    exact hfine
  program := nofun

theorem Good.next {p : Proc α β} {f : Frame α β} (hstd : tree.Standard)
    (h0 : ∀ n ≤ 2, t0 n ≠ none) (hfile : 2 < nofile) (h : Good nofile tree t0 g p)
    (hcode : p.status = .shell code) (hnext : Next nofile tree g p.toFrame code f st) :
    Good nofile tree t0 g ⟨f, st⟩ := by
  have hlin := h.linear code hcode
  have hfine := h.fine code hcode
  cases hnext with
  | op => exact .of_shell h.ordered hlin hfine
  | opened ht => exact .of_shell h.ordered hlin (hfine _ ht)
  | waited hkids => exact .of_shell h.ordered hlin (hfine.2.1 hkids)
  | reaped hkid hexit => exact .of_shell h.ordered hlin (hfine.2.2 g _ le_rfl hkid hexit)
  | run hget =>
    obtain ⟨hpre, hord, hkids⟩ := hfine
    exact .of_shell hord linear_runcmd
      (fine_runcmd (p := { p.toFrame with cmd := _ }) hstd h0 hfile hpre hord hkids hget)
  | execFails => exact .of_shell h.ordered hlin hfine.2.2
  | exec =>
    refine ⟨h.ordered, nofun, nofun, ?_⟩
    rintro _ ⟨⟩
    exact ⟨hfine.1, hfine.2.1⟩

/-- Nothing comes ahead of a process that was not there before. -/
theorem ahead_next {p f : Frame α β} {e : Event} (hnext : Next nofile tree g p code f st)
    (he : Proc.Owns ⟨f, st⟩ e) : Ahead p.cmd code e := by
  obtain ⟨k, hk, he⟩ := he
  cases hnext with
  | op =>
    cases hk
    exact he
  | opened _ =>
    cases hk
    exact he
  | waited _ =>
    cases hk
    exact he
  | reaped _ _ =>
    cases hk
    exact he
  | run _ =>
    cases hk
    exact .inl (ahead_runcmd he)
  | execFails =>
    cases hk
    exact he
  | exec => cases hk

/-! ### All processes -/

structure World.Once (g : World) : Prop where
  pipes : (g.pipes.map Prod.fst).Nodup
  numbers : g.pipes.map Prod.snd = (range g.pipes.length).reverse
  forks : (g.forks.map Prod.fst).Nodup

structure Inv (nofile : Nat) (tree : Cmd α) (t0 : Table α β) (s : Sys α β) : Prop where
  good : All (Good nofile tree t0) s
  owned : Owned Proc.Owns World.Past s
  once : s.shared.Once
  made : Made s
  exited : ∀ q ∈ s.shared.exited, ∃ p, s.procs q = some p ∧ p.status = .exited

section Inv

variable {s : Sys α β} {a : Nat} {p : Proc α β}

/-- Processes that have exited stay where they are when another one moves. -/
theorem exited_move (h : ∀ q ∈ s.shared.exited, ∃ p, s.procs q = some p ∧ p.status = .exited)
    (ha : s.procs a = some p) (hp : p.status ≠ .exited) {p' : Proc α β} :
    ∀ q ∈ s.shared.exited, ∃ r, (s.move a g p').procs q = some r ∧ r.status = .exited := by
  intro q hq
  obtain ⟨r, hr, hexit⟩ := h q hq
  have hne : q ≠ a := by
    rintro rfl
    rw [ha] at hr
    exact hp (some.inj hr ▸ hexit)
  exact ⟨r, (procs_move_of_ne hne).trans hr, hexit⟩

theorem Inv.exit (h : Inv nofile tree t0 s) (ha : s.procs a = some p) (hp : p.status ≠ .exited) :
    Inv nofile tree t0 (exit s a p) := by
  have hle : s.shared ≤ { s.shared with exited := a :: s.shared.exited } :=
    ⟨List.Subset.refl _, List.Subset.refl _, subset_cons_self _ _⟩
  refine ⟨?_, ?_, ⟨h.once.pipes, h.once.numbers, h.once.forks⟩, h.made.move ha, ?_⟩
  · exact h.good.move Good.mono hle ⟨(h.good a p ha).ordered.mono hle, nofun, nofun, nofun⟩
  · refine h.owned.move ha ?_ ?_ ?_
    · rintro e ⟨_, ⟨⟩, _⟩
    · intro e he
      cases e <;> exact .inl he
    · rintro e ⟨_, ⟨⟩, _⟩
  · intro q hq
    rcases mem_cons.mp hq with rfl | hq
    · exact ⟨_, procs_move_self, rfl⟩
    · exact exited_move h.exited ha hp q hq

theorem Inv.moved {f : Frame α β} (hstd : tree.Standard) (h0 : ∀ n ≤ 2, t0 n ≠ none)
    (hfile : 2 < nofile) (h : Inv nofile tree t0 s) (ha : s.procs a = some p)
    (hcode : p.status = .shell code) (hnext : Next nofile tree s.shared p.toFrame code f st) :
    Inv nofile tree t0 (s.move a s.shared ⟨f, st⟩) := by
  have hsub : ∀ e, Proc.Owns ⟨f, st⟩ e → p.Owns e := fun e he => ⟨code, hcode, ahead_next hnext he⟩
  refine ⟨?_, ?_, h.once, h.made.move ha, ?_⟩
  · exact h.good.move Good.mono le_rfl ((h.good a p ha).next hstd h0 hfile hcode hnext)
  · exact h.owned.move ha hsub (fun e => .inl) fun e he => h.owned.ahead a p e ha (hsub e he)
  · exact exited_move h.exited ha (by simp [hcode])

theorem Inv.piped {n m : Nat} {t : Table α β} (h : Inv nofile tree t0 s) (ha : s.procs a = some p)
    (hcode : p.status = .shell (.pipe :: k))
    (ht : p.table.pipe nofile s.shared.pipes.length = some (n, m, t)) :
    Inv nofile tree t0
      (s.move a { s.shared with pipes := (p.cmd, s.shared.pipes.length) :: s.shared.pipes }
        { p with table := t, p0 := n, p1 := m, status := .shell k }) := by
  have hgood := h.good a p ha
  obtain ⟨hnot, hlin⟩ := hgood.linear _ hcode
  have hown : p.Owns (.piped p.cmd) := ⟨_, hcode, .inl rfl⟩
  have hle : s.shared ≤
      { s.shared with pipes := (p.cmd, s.shared.pipes.length) :: s.shared.pipes } :=
    ⟨subset_cons_self _ _, List.Subset.refl _, List.Subset.refl _⟩
  refine ⟨?_, ?_, ⟨?_, ?_, h.once.forks⟩, h.made.move ha, ?_⟩
  · exact h.good.move Good.mono hle (.of_shell (hgood.ordered.mono hle) hlin
      (hgood.fine _ hcode _ _ n m t hle ht (mem_cons_self ..)))
  · refine h.owned.move ha ?_ ?_ ?_
    · rintro e ⟨_, ⟨⟩, he⟩
      exact ⟨_, hcode, .inr he⟩
    · intro e he
      cases e with
      | piped π =>
        rcases mem_cons.mp he with rfl | he
        · exact .inr hown
        · exact .inl he
      | forked π => exact .inl he
    · rintro e ⟨_, ⟨⟩, he⟩ hpast
      have hold := h.owned.ahead a p e ha ⟨_, hcode, .inr he⟩
      cases e with
      | piped π =>
        rcases mem_cons.mp hpast with rfl | hpast
        · exact hnot he
        · exact hold hpast
      | forked π => exact hold hpast
  · exact nodup_cons.mpr ⟨h.owned.ahead a p _ ha hown, h.once.pipes⟩
  · change s.shared.pipes.length :: s.shared.pipes.map Prod.snd =
      (range (s.shared.pipes.length + 1)).reverse
    rw [h.once.numbers, range_succ, reverse_append]
    rfl
  · exact exited_move h.exited ha (by simp [hcode])

theorem Inv.forked {setup : List Op} (h : Inv nofile tree t0 s) (ha : s.procs a = some p)
    (hcode : p.status = .shell (.fork setup cmd :: k)) :
    Inv nofile tree t0
      ((s.move a { s.shared with forks := (cmd, s.next) :: s.shared.forks }
        { p with kids := s.next :: p.kids, status := .shell k }).spawn
          { p with kids := [], status := .shell (setup.map .op ++ [.run cmd]) }) := by
  have hgood := h.good a p ha
  obtain ⟨hnot, hapart, hlin⟩ := hgood.linear _ hcode
  obtain ⟨hpre, hord, hrest⟩ := hgood.fine _ hcode
  have hown : p.Owns (.forked cmd) := ⟨_, hcode, .inl rfl⟩
  have hle : s.shared ≤ { s.shared with forks := (cmd, s.next) :: s.shared.forks } :=
    ⟨List.Subset.refl _, subset_cons_self _ _, List.Subset.refl _⟩
  refine ⟨?_, ?_, ⟨h.once.pipes, h.once.numbers, ?_⟩, (h.made.move ha).spawn, ?_⟩
  · refine (h.good.move Good.mono hle ?_).spawn ?_
    · exact .of_shell (hgood.ordered.mono hle) hlin (hrest _ _ hle (mem_cons_self ..))
    · exact .of_shell (hgood.ordered.mono hle) linear_setup
        (fine_setup (hpre.mono hle) (hord.mono hle) rfl)
  · refine h.owned.fork ha ?_ ?_ ?_ ?_ ?_
    · rintro e ⟨_, ⟨⟩, he⟩
      exact ⟨_, hcode, .inr (.inr he)⟩
    · rintro e ⟨_, ⟨⟩, he⟩
      exact ⟨_, hcode, .inr (.inl (ahead_setup.mp he))⟩
    · rintro e ⟨_, ⟨⟩, he⟩ ⟨_, ⟨⟩, hk⟩
      exact hapart e (ahead_setup.mp he) hk
    · intro e he
      cases e with
      | piped π => exact .inl he
      | forked π =>
        rcases mem_cons.mp he with rfl | he
        · exact .inr hown
        · exact .inl he
    · intro e he hpast
      -- `e` is not the fork that has just been made
      have hother : e ≠ .forked cmd ∧ p.Owns e := by
        rcases he with ⟨_, ⟨⟩, he⟩ | ⟨_, ⟨⟩, he⟩
        · refine ⟨?_, _, hcode, .inr (.inr he)⟩
          rintro rfl
          exact hnot he
        · refine ⟨?_, _, hcode, .inr (.inl (ahead_setup.mp he))⟩
          rintro rfl
          exact (ahead_setup.mp he).2 rfl
      have hold := h.owned.ahead a p e ha hother.2
      cases e with
      | piped π => exact hold hpast
      | forked π =>
        rcases mem_cons.mp hpast with rfl | hpast
        · exact hother.1 rfl
        · exact hold hpast
  · exact nodup_cons.mpr ⟨h.owned.ahead a p _ ha hown, h.once.forks⟩
  · intro q hq
    obtain ⟨r, hr, hexit⟩ := exited_move h.exited ha (by simp [hcode]) q hq
    have hne : q ≠ s.next := Nat.ne_of_lt (h.made.move ha q r hr)
    exact ⟨r, (procs_spawn_of_ne (s := s.move a _ _) hne).trans hr, hexit⟩

/-- **Every step keeps the invariant.** -/
theorem Inv.step {x : Nat × Choice} (hstd : tree.Standard) (h0 : ∀ n ≤ 2, t0 n ≠ none)
    (hfile : 2 < nofile) (h : Inv nofile tree t0 s) (hstep : step nofile tree s x = some s') :
    Inv nofile tree t0 s' := by
  obtain ⟨p, ha, hp, hout⟩ := step_outcome hstep
  cases hout with
  | ended => exact h.exit ha hp
  | moved hcode hnext => exact h.moved hstd h0 hfile ha hcode hnext
  | piped hcode ht => exact h.piped ha hcode ht
  | forked hcode => exact h.forked ha hcode

end Inv

/-! ### Whole runs -/

/-- The descriptors that the shell has been given. -/
def given (t : Nat → Option β) : Table α β := fun n => (t n).map .given

theorem procs_start {t : Nat → Option β} {a : Nat} {p : Proc α β} (h : (start t).procs a = some p) :
    a = 0 ∧ p = ⟨⟨given t, 0, 0, [], []⟩, .shell [.run []]⟩ := by
  obtain ⟨ha, hp⟩ := ite_none_right_eq_some.mp h
  exact ⟨ha, (some.inj hp).symm⟩

theorem inv_start (t : Nat → Option β) : Inv nofile tree (given t) (start t) where
  good := by
    intro a p h
    obtain ⟨-, rfl⟩ := procs_start h
    have hord : Ordered tree (start (α := α) t).shared [] := by
      intro σ left right _ hpre
      simp at hpre
    exact .of_shell hord trivial ⟨.root, hord, rfl⟩
  owned := by
    refine ⟨?_, ?_⟩
    · intro a b p q hne ha hb
      obtain ⟨rfl, -⟩ := procs_start ha
      obtain ⟨rfl, -⟩ := procs_start hb
      exact absurd rfl hne
    · rintro a p (π | π) - - ⟨⟩
  once := ⟨nodup_nil, rfl, nodup_nil⟩
  made := by
    intro a p h
    obtain ⟨rfl, -⟩ := procs_start h
    exact Nat.zero_lt_one
  exited := nofun

theorem Inv.prescribed {s : Sys α β} {a : Nat} {p : Proc α β} (h : Inv nofile tree t0 s)
    (ha : s.procs a = some p) (hrest : p.AtRest) : Prescribed tree t0 s.shared p.cmd p.table := by
  rcases hrest with ⟨argv, hp⟩ | ⟨k, hp⟩
  · exact ((h.good a p ha).program argv hp).2
  · exact ((h.good a p ha).fine _ hp).1

theorem World.Once.pipe_unique (h : g.Once) (π : Path) (k k' : Nat) (hk : (π, k) ∈ g.pipes)
    (hk' : (π, k') ∈ g.pipes) : k = k' :=
  congrArg Prod.snd (inj_on_of_nodup_map h.pipes hk hk' rfl)

theorem Inv.wired {s : Sys α β} {a : Nat} {p : Proc α β} (hstd : tree.Standard)
    (hends : ∀ n k, t0 n ≠ some (.writeEnd k) ∧ t0 n ≠ some (.readEnd k))
    (h : Inv nofile tree t0 s) (ha : s.procs a = some p) (hrest : p.AtRest) :
    Wired tree t0 s.shared p := by
  have hpre := h.prescribed ha hrest
  refine ⟨?_, ?_, ?_, ?_⟩
  · intro t
    constructor
    · intro ht
      exact ht.unique h.once.pipe_unique hpre
    · rintro rfl
      exact hpre
  · intro n hn
    exact hpre.others hstd hn
  · intro n k
    exact (hpre.ends hstd hends n k).1
  · intro n k
    exact (hpre.ends hstd hends n k).2

theorem given_ne_end (t : Nat → Option β) (n k : Nat) :
    (given t : Table α β) n ≠ some (.writeEnd k) ∧ (given t : Table α β) n ≠ some (.readEnd k) := by
  unfold given
  cases t n with
  | none => exact ⟨nofun, nofun⟩
  | some x => exact ⟨nofun, nofun⟩

/-- **Every command runs with the descriptors that the tree prescribes**, in every run of the shell
on any tree, whatever descriptors it was given besides the standard three: on its own standard input
and output, with no end of a pipe left over, and on the right of a `LIST` only when the left side
has come to its end. -/
theorem commands_plumbed {t : Nat → Option β} {s : Sys α β} (hstd : tree.Standard)
    (hopen : ∀ n ≤ 2, t n ≠ none) (hfile : 2 < nofile)
    (hrun : Run (step nofile tree) (fun _ _ => True) (start t) s) : Plumbed tree (given t) s := by
  have h0 : ∀ n ≤ 2, (given t : Table α β) n ≠ none := by
    intro n hn hnone
    exact hopen n hn (map_eq_none_iff.mp hnone)
  have h : Inv nofile tree (given t) s :=
    hrun.inv (inv_start t) fun s x s' hs _ hstep => hs.step hstd h0 hfile hstep
  constructor
  case wired =>
    intro a p ha hrest
    exact h.wired hstd (given_ne_end t) ha hrest
  case program =>
    intro a p argv ha hp
    exact ((h.good a p ha).program argv hp).1
  case pipes =>
    refine ⟨h.once.pipes, ?_⟩
    rw [h.once.numbers]
    exact nodup_reverse.mpr nodup_range
  case forks => exact h.once.forks
  case ordered =>
    intro a p σ left right ha hget hpre
    obtain ⟨q, hfork, hexit⟩ := (h.good a p ha).ordered σ left right hget hpre
    obtain ⟨r, hr, hstatus⟩ := h.exited q hexit
    exact ⟨q, r, hfork, hr, hstatus⟩

/-- What the first three processes do, and their first five descriptors. -/
def snapshot (s : Sys Nat Nat) : List (Option (Status Nat × List (Option (File Nat Nat)))) :=
  [0, 1, 2].map fun a => (s.procs a).map fun p => (p.status, (range 5).map p.table)

/-- `1 | 2 >9`, up to where both programs run and the shell waits. -/
theorem commands_plumbed_pipe :
    let tree : Cmd Nat := .pipe (.exec [1]) (.redir (.exec [2]) 9 .wronlyCreat 1)
    let t : Nat → Option Nat := fun n => if n ≤ 2 then some n else none
    let tables : List (Option (Status Nat × List (Option (File Nat Nat)))) :=
      [some (.shell [.wait, .wait, .exit],
        [some (.given 0), some (.given 1), some (.given 2), none, none]),
      some (.program [1], [some (.given 0), some (.writeEnd 0), some (.given 2), none, none]),
      some (.program [2],
        [some (.readEnd 0), some (.named 9 .wronlyCreat), some (.given 2), none, none])]
    ∃ s : Sys Nat Nat, Run (step 16 tree) (fun _ _ => True) (start t) s ∧ snapshot s = tables ∧
      Plumbed tree (given t) s := by
  intro tree t tables
  let steps : List (Nat × Choice) :=
    ([0, 0, 0, 0, 0, 0, 1, 1, 1, 1, 1, 1, 2, 2, 2, 2, 2, 2, 2, 2, 2] : List Nat).map
      fun a => (a, ⟨false, 0⟩)
  have heval : ((steps.foldlM (step 16 tree) (start t)).map fun s => decide (snapshot s = tables)) =
      some true := by
    decide +kernel
  obtain ⟨s, hs, htables⟩ := map_eq_some_iff.mp heval
  have hrun : Run (step 16 tree) (fun _ _ => True) (start t) s := .of_foldlM hs fun _ _ _ => trivial
  exact ⟨s, hrun, of_decide_eq_true htables,
    commands_plumbed ⟨trivial, by decide, trivial⟩ (by decide) (by decide) hrun⟩

/-! ### The trees of the parser -/

theorem Cmd.Standard.wrap (h : c.Standard) (rs : List Redir) :
    (wrap c rs).Standard := by
  induction rs generalizing c with
  | nil => exact h
  | cons r rs ih =>
    refine ih ?_
    unfold Redir.wrap
    cases r.op with
    | lt => exact ⟨by omega, h⟩
    | gt => exact ⟨by omega, h⟩
    | gtgt => exact ⟨by omega, h⟩

theorem Cmd.Standard.backs {c : Cmd α} (h : c.Standard) (k : Nat) : (Cmd.back^[k] c).Standard := by
  induction k generalizing c with
  | zero => exact h
  | succ k ih => exact ih h

mutual

/-- **The trees of command lines are standard.** -/
theorem Line.standard {ts : List Token} {c : Cmd (List UInt8)} : Line ts c → c.Standard
  | .last k hc => hc.standard.backs k
  | .list k hc hd => ⟨hc.standard.backs k, hd.standard⟩

theorem Pipe.standard {ts : List Token} {c : Cmd (List UInt8)} : Pipe ts c → c.Standard
  | .last hc => hc.standard
  | .pipe hc hd => ⟨hc.standard, hd.standard⟩

theorem Exec.standard {ts : List Token} {c : Cmd (List UInt8)} : Exec ts c → c.Standard
  | .block rs hc => hc.standard.wrap rs
  | .simple rs args _ => Cmd.Standard.wrap (c := .exec _) trivial _

end

/-- **From the line to the processes.**  A line is refused, or its tree is one that the grammar
gives it and in every run on this tree a program is a command of the line, with the descriptors that
the tree prescribes. -/
theorem line_plumbed (line : CString) : (∃ msg, parsecmd line = .error (.panic msg)) ∨
    ∃ mem c tree, parsecmd line = .ok (mem, c) ∧ c.strings mem line.es = tree ∧
      Line (tokens line.chars) tree ∧ ∀ (t : Nat → Option β) s, (∀ n ≤ 2, t n ≠ none) →
        2 < nofile → Run (step nofile tree) (fun _ _ => True) (start t) s → ∀ a p argv,
          s.procs a = some p → p.status = .program argv →
            tree.get p.cmd = some (.exec argv) ∧ Wired tree (given t) s.shared p := by
  refine (parsecmd_sound line).imp_right ?_
  rintro ⟨mem, c, tree, hok, htree, hline⟩
  refine ⟨mem, c, tree, hok, htree, hline, fun t s hopen hfile hrun a p argv ha hp => ?_⟩
  have h : Inv nofile tree (given t) s := hrun.inv (inv_start t) fun _ _ _ hs _ hstep =>
    hs.step hline.standard (fun n hn hnone => hopen n hn (map_eq_none_iff.mp hnone)) hfile hstep
  exact ⟨((h.good a p ha).program argv hp).1,
    h.wired hline.standard (given_ne_end t) ha (.inl ⟨argv, hp⟩)⟩

end Sh
