/-
The descriptors of the commands that `runcmd` runs.

A process is followed through its code with what it will need: `Fine k g p` says that from the
frame `p`, and knowing `g`, the code `k` comes to no command with the wrong descriptors.  It is
defined by recursion on the code, one clause for each instruction, and it stays true when more is
known.  So the whole argument about tables is `Fine` of the code of `runcmd` for each kind of
command, and what other processes do in between does not matter.

That a `PIPE` makes one pipe and a command is forked for once needs more, because it is about all
processes.  What a process may still do is a set of events, a `fork` splits it, and no two
processes have an event in common.
-/
import Os.Lib.Runs
import Os.Sh.Wiring
import Os.Sh.Grammar

namespace Sh

open List Option Function
open Procs

variable {α β : Type} {nofile : Nat} {tree : Cmd α} {t0 t : Table α β} {g g' : World} {π : Path}

/-! ### Tables -/

namespace Table

theorem lowest_eq_some {n : Nat} :
    t.lowest nofile = some n ↔ n < nofile ∧ t n = none ∧ ∀ m < n, t m ≠ none := by
  rw [lowest, List.find?_range_eq_some]
  simp only [isNone_iff_eq_none, mem_range, Bool.not_eq_true', ne_eq,
    isNone_eq_false_iff, isSome_iff_ne_none]
  tauto

/-- A descriptor that is closed is the next to be taken, if all below it are open. -/
theorem lowest_close {n : Nat} (hn : n < nofile) (h : ∀ m < n, t m ≠ none) :
    (t.close n).lowest nofile = some n := by
  refine lowest_eq_some.mpr ⟨hn, update_self .., ?_⟩
  intro m hm
  rw [close, update_of_ne (Nat.ne_of_lt hm)]
  exact h m hm

theorem opened_close {n : Nat} {f : File α β} {t' : Table α β} (hn : n < nofile)
    (h : ∀ m < n, t m ≠ none) (ht : (t.close n).opened nofile f = some t') :
    t' = update t n (some f) := by
  rw [opened, lowest_close hn h] at ht
  rw [← some.inj ht, close, update_idem]

theorem pipe_eq_some {k n m : Nat} {t' : Table α β} (h : t.pipe nofile k = some (n, m, t')) :
    t n = none ∧ t m = none ∧ t' n = some (.readEnd k) ∧ t' m = some (.writeEnd k) ∧
      ∀ j, j ≠ n → j ≠ m → t' j = t j := by
  unfold pipe at h
  split at h
  · cases h
  rename_i n' hn
  dsimp only at h
  split at h
  · cases h
  rename_i m' hm
  obtain ⟨rfl, hrest⟩ := Prod.mk.inj (some.inj h)
  obtain ⟨rfl, rfl⟩ := Prod.mk.inj hrest
  obtain ⟨-, hn, -⟩ := lowest_eq_some.mp hn
  obtain ⟨-, hm, -⟩ := lowest_eq_some.mp hm
  have hne : m' ≠ n' := by
    rintro rfl
    rw [update_self] at hm
    cases hm
  rw [update_of_ne hne] at hm
  refine ⟨hn, hm, ?_, update_self .., ?_⟩
  · rw [update_of_ne hne.symm, update_self]
  · intro j hjn hjm
    rw [update_of_ne hjm, update_of_ne hjn]

/-- A child of a `PIPE` moves an end to `i` and closes both ends where they were. -/
theorem setup_end {i e n m : Nat} {f : File α β} {t' : Table α β} (hi : i < nofile)
    (hlow : ∀ j ≤ i, t j ≠ none) (hn : t n = none) (hm : t m = none)
    (he : t' e = some f) (hei : e ≠ i) (ht' : ∀ j, j ≠ n → j ≠ m → t' j = t j) :
    ((((t'.close i).dup nofile e).close n).close m) = update t i (some f) := by
  have hne : ∀ j ≤ i, j ≠ n ∧ j ≠ m := fun j hj =>
    ⟨fun h => hlow j hj (h ▸ hn), fun h => hlow j hj (h ▸ hm)⟩
  have hfree : (t'.close i).lowest nofile = some i := by
    refine lowest_close hi fun j hj => ?_
    obtain ⟨hjn, hjm⟩ := hne j (Nat.le_of_lt hj)
    rw [ht' j hjn hjm]
    exact hlow j (Nat.le_of_lt hj)
  have hdup : (t'.close i).dup nofile e = update t' i (some f) := by
    have hsrc : (t'.close i) e = some f := by rw [close, update_of_ne hei, he]
    simp only [dup, hsrc, hfree]
    rw [close, update_idem]
  rw [hdup]
  funext j
  simp only [close, update_apply]
  obtain ⟨hin, him⟩ := hne i (Nat.le_refl i)
  by_cases hjm : j = m
  · subst hjm
    rw [if_pos rfl, if_neg him.symm, hm]
  rw [if_neg hjm]
  by_cases hjn : j = n
  · subst hjn
    rw [if_pos rfl, if_neg hin.symm, hn]
  · rw [if_neg hjn, ht' j hjn hjm]

theorem close_close {n m : Nat} {t' : Table α β} (hn : t n = none) (hm : t m = none)
    (ht' : ∀ j, j ≠ n → j ≠ m → t' j = t j) : (t'.close n).close m = t := by
  funext j
  simp only [close, update_apply]
  by_cases hjm : j = m
  · rw [if_pos hjm, hjm, hm]
  · by_cases hjn : j = n
    · rw [if_neg hjm, if_pos hjn, hjn, hn]
    · rw [if_neg hjm, if_neg hjn, ht' j hjn hjm]

end Table

/-! ### Commands in the tree -/

theorem Cmd.Standard.field {c d : Cmd α} {f : Field} (h : c.Standard) (hd : c.field f = some d) :
    d.Standard := by
  cases c <;> cases f <;> cases hd
  case redir.cmd.refl => exact h.2
  case pipe.left.refl => exact h.1
  case pipe.right.refl => exact h.2
  case list.left.refl => exact h.1
  case list.right.refl => exact h.2
  case back.cmd.refl => exact h

theorem Cmd.Standard.get {c d : Cmd α} (h : c.Standard) (hd : c.get π = some d) : d.Standard := by
  induction π generalizing c with
  | nil =>
    cases hd
    exact h
  | cons f π ih =>
    obtain ⟨e, he, hd⟩ := bind_eq_some_iff.mp hd
    exact ih (h.field he) hd

/-! ### More is known later -/

instance : Preorder World where
  le g g' := g.pipes ⊆ g'.pipes ∧ g.forks ⊆ g'.forks ∧ g.exited ⊆ g'.exited
  le_refl g := ⟨List.Subset.refl _, List.Subset.refl _, List.Subset.refl _⟩
  le_trans _ _ _ h h' := ⟨List.Subset.trans h.1 h'.1, List.Subset.trans h.2.1 h'.2.1,
    List.Subset.trans h.2.2 h'.2.2⟩

section Link

variable {c : Cmd α} {f : Field} {t' : Table α β}

theorem Link.mono (h : Link g π c f t t') (hle : g ≤ g') : Link g' π c f t t' := by
  cases h with
  | redir => exact .redir
  | pipeLeft hpipe => exact .pipeLeft (hle.1 hpipe)
  | pipeRight hpipe => exact .pipeRight (hle.1 hpipe)
  | listLeft => exact .listLeft
  | listRight => exact .listRight
  | back => exact .back

theorem Link.cases_update (h : Link g π c f t t') (hstd : c.Standard) :
    t' = t ∨ ∃ i x, i < 2 ∧ t' = update t i (some x) ∧
      ∀ k, (x = .writeEnd k → i = 1 ∧ f = .left ∧ (π, k) ∈ g.pipes) ∧
        (x = .readEnd k → i = 0 ∧ f = .right ∧ (π, k) ∈ g.pipes) := by
  cases h with
  | redir => exact .inr ⟨_, _, hstd.1, rfl, fun _ => ⟨nofun, nofun⟩⟩
  | pipeLeft hpipe =>
    refine .inr ⟨1, _, by omega, rfl, fun k => ⟨fun hk => ?_, nofun⟩⟩
    cases hk
    exact ⟨rfl, rfl, hpipe⟩
  | pipeRight hpipe =>
    refine .inr ⟨0, _, by omega, rfl, fun k => ⟨nofun, fun hk => ?_⟩⟩
    cases hk
    exact ⟨rfl, rfl, hpipe⟩
  | listLeft => exact .inl rfl
  | listRight => exact .inl rfl
  | back => exact .inl rfl

theorem Link.unique {u : Table α β} (hpipes : ∀ k k', (π, k) ∈ g.pipes → (π, k') ∈ g.pipes → k = k')
    (h : Link g π c f t t') (h' : Link g π c f t u) : t' = u := by
  cases h with
  | redir =>
    cases h'
    rfl
  | pipeLeft hk =>
    cases h' with
    | pipeLeft hk' => rw [hpipes _ _ hk hk']
  | pipeRight hk =>
    cases h' with
    | pipeRight hk' => rw [hpipes _ _ hk hk']
  | listLeft =>
    cases h'
    rfl
  | listRight =>
    cases h'
    rfl
  | back =>
    cases h'
    rfl

end Link

theorem Prescribed.mono (h : Prescribed tree t0 g π t) (hle : g ≤ g') :
    Prescribed tree t0 g' π t := by
  induction h with
  | root => exact .root
  | next _ hget hlink ih => exact .next ih hget (hlink.mono hle)

theorem Ordered.mono (h : Ordered tree g π) (hle : g ≤ g') : Ordered tree g' π := by
  intro σ left right hget hpre
  obtain ⟨q, hfork, hexit⟩ := h σ left right hget hpre
  exact ⟨q, hle.2.1 hfork, hle.2.2 hexit⟩

/-- One step down the tree, where only the right side of a `LIST` asks for something. -/
theorem Ordered.snoc {f : Field} (h : Ordered tree g π)
    (hright : f = .right → ∀ left right, tree.get π = some (.list left right) →
      ∃ q, (π ++ [.left], q) ∈ g.forks ∧ q ∈ g.exited) : Ordered tree g (π ++ [f]) := by
  intro σ left right hget hpre
  rcases prefix_concat_iff.mp hpre with heq | hpre
  · obtain ⟨rfl, hf⟩ := append_inj' heq rfl
    obtain ⟨hf, -⟩ := List.cons.inj hf
    exact hright hf.symm left right hget
  · exact h σ left right hget hpre

/-! ### What is prescribed -/

/-- Standard input, output and error are open everywhere. -/
theorem Prescribed.opened (hstd : tree.Standard) (h0 : ∀ n ≤ 2, t0 n ≠ none)
    (h : Prescribed tree t0 g π t) : ∀ n ≤ 2, t n ≠ none := by
  induction h with
  | root => exact h0
  | next _ hget hlink ih =>
    rcases hlink.cases_update (hstd.get hget) with rfl | ⟨i, x, -, rfl, -⟩
    · exact ih
    intro n hn
    by_cases hni : n = i
    · rw [hni, update_self]
      exact some_ne_none x
    · rw [update_of_ne hni]
      exact ih n hn

theorem Prescribed.others (hstd : tree.Standard) (h : Prescribed tree t0 g π t) {n : Nat}
    (hn : 2 ≤ n) : t n = t0 n := by
  induction h with
  | root => rfl
  | next _ hget hlink ih =>
    rcases hlink.cases_update (hstd.get hget) with rfl | ⟨i, x, hi, rfl, -⟩
    · exact ih
    · rw [update_of_ne (by omega), ih]

/-- An end of a pipe is at 1 on the left, or at 0 on the right, of the `PIPE` that made it. -/
theorem Prescribed.ends (hstd : tree.Standard) (h0 : ∀ n k, t0 n ≠ some (.writeEnd k) ∧
    t0 n ≠ some (.readEnd k)) (h : Prescribed tree t0 g π t) (n k : Nat) :
    (t n = some (.writeEnd k) → n = 1 ∧ ∃ σ, (σ, k) ∈ g.pipes ∧ σ ++ [.left] <+: π) ∧
      (t n = some (.readEnd k) → n = 0 ∧ ∃ σ, (σ, k) ∈ g.pipes ∧ σ ++ [.right] <+: π) := by
  induction h with
  | root => exact ⟨fun h => absurd h (h0 n k).1, fun h => absurd h (h0 n k).2⟩
  | @next π c f t t' _ hget hlink ih =>
    have hup : ∀ {σ}, σ <+: π → σ <+: π ++ [f] := fun h => h.trans (prefix_append _ _)
    have hold := ih
    obtain ⟨hw, hr⟩ := hold
    have hw' : t n = some (.writeEnd k) →
        n = 1 ∧ ∃ σ, (σ, k) ∈ g.pipes ∧ σ ++ [.left] <+: π ++ [f] := by
      intro h
      obtain ⟨hn, σ, hσ, hpre⟩ := hw h
      exact ⟨hn, σ, hσ, hup hpre⟩
    have hr' : t n = some (.readEnd k) →
        n = 0 ∧ ∃ σ, (σ, k) ∈ g.pipes ∧ σ ++ [.right] <+: π ++ [f] := by
      intro h
      obtain ⟨hn, σ, hσ, hpre⟩ := hr h
      exact ⟨hn, σ, hσ, hup hpre⟩
    rcases hlink.cases_update (hstd.get hget) with rfl | ⟨i, x, -, rfl, hx⟩
    · exact ⟨hw', hr'⟩
    by_cases hni : n = i
    · subst hni
      rw [update_self]
      refine ⟨fun h => ?_, fun h => ?_⟩
      · obtain ⟨hn, rfl, hmem⟩ := (hx k).1 (some.inj h)
        exact ⟨hn, π, hmem, prefix_refl _⟩
      · obtain ⟨hn, rfl, hmem⟩ := (hx k).2 (some.inj h)
        exact ⟨hn, π, hmem, prefix_refl _⟩
    · rw [update_of_ne hni]
      exact ⟨hw', hr'⟩

theorem Prescribed.unique {t' : Table α β}
    (hpipes : ∀ π k k', (π, k) ∈ g.pipes → (π, k') ∈ g.pipes → k = k')
    (h : Prescribed tree t0 g π t) (h' : Prescribed tree t0 g π t') : t = t' := by
  induction h generalizing t' with
  | root =>
    generalize hσ : ([] : Path) = σ at h'
    cases h' with
    | root => rfl
    | next _ _ _ => simp at hσ
  | @next π c f t u _ hget hlink ih =>
    generalize hσ : π ++ [f] = σ at h'
    cases h' with
    | root => simp at hσ
    | next h' hget' hlink' =>
      obtain ⟨rfl, hf⟩ := append_inj' hσ rfl
      obtain ⟨rfl, -⟩ := List.cons.inj hf
      obtain rfl : c = _ := some.inj (hget.symm.trans hget')
      obtain rfl := ih h'
      exact hlink.unique (hpipes π) hlink'

/-! ### Following the code -/

/-- From the frame `p`, and knowing `g`, the code comes to no command with the wrong descriptors. -/
def Fine (nofile : Nat) (tree : Cmd α) (t0 : Table α β) :
    List (Instr α) → World → Frame α β → Prop
  | [], _, _ => True
  | .op o :: k, g, p => Fine nofile tree t0 k g { p with table := p.apply nofile p.table o }
  | .openFile file mode :: k, g, p =>
    ∀ t, p.table.opened nofile (.named file mode) = some t →
      Fine nofile tree t0 k g { p with table := t }
  | .pipe :: k, g, p =>
    ∀ g' id n m t, g ≤ g' → p.table.pipe nofile id = some (n, m, t) → (p.cmd, id) ∈ g'.pipes →
      Fine nofile tree t0 k g' { p with table := t, p0 := n, p1 := m }
  | .fork setup cmd :: k, g, p =>
    Prescribed tree t0 g cmd (setup.foldl (p.apply nofile) p.table) ∧ Ordered tree g cmd ∧
      ∀ g' q, g ≤ g' → (cmd, q) ∈ g'.forks →
        Fine nofile tree t0 k g' { p with kids := q :: p.kids }
  | .wait :: k, g, p =>
    Prescribed tree t0 g p.cmd p.table ∧ (p.kids = [] → Fine nofile tree t0 k g p) ∧
      ∀ g' q, g ≤ g' → q ∈ p.kids → q ∈ g'.exited →
        Fine nofile tree t0 k g' { p with kids := p.kids.erase q }
  | .run cmd :: _, g, p => Prescribed tree t0 g cmd p.table ∧ Ordered tree g cmd ∧ p.kids = []
  | .exec argv :: k, g, p =>
    tree.get p.cmd = some (.exec argv) ∧ Prescribed tree t0 g p.cmd p.table ∧
      Fine nofile tree t0 k g p
  | .exit :: _, _, _ => True

theorem Fine.mono {k : List (Instr α)} {p : Frame α β} (h : Fine nofile tree t0 k g p)
    (hle : g ≤ g') : Fine nofile tree t0 k g' p := by
  induction k generalizing p with
  | nil => trivial
  | cons i k ih =>
    cases i with
    | op o => exact ih h
    | openFile file mode => exact fun t ht => ih (h t ht)
    | pipe => exact fun g'' id n m t hg => h g'' id n m t (le_trans hle hg)
    | fork setup cmd =>
      obtain ⟨hpre, hord, hrest⟩ := h
      exact ⟨hpre.mono hle, hord.mono hle, fun g'' q hg => hrest g'' q (le_trans hle hg)⟩
    | wait =>
      obtain ⟨hpre, hnone, hrest⟩ := h
      exact ⟨hpre.mono hle, fun hk => ih (hnone hk),
        fun g'' q hg => hrest g'' q (le_trans hle hg)⟩
    | run cmd => exact ⟨h.1.mono hle, h.2.1.mono hle, h.2.2⟩
    | exec argv => exact ⟨h.1, h.2.1.mono hle, ih h.2.2⟩
    | exit => trivial

theorem fine_setup {ops : List Op} {cmd : Path} {p : Frame α β}
    (hpre : Prescribed tree t0 g cmd (ops.foldl (p.apply nofile) p.table))
    (hord : Ordered tree g cmd) (hkids : p.kids = []) :
    Fine nofile tree t0 (ops.map .op ++ [.run cmd]) g p := by
  induction ops generalizing p with
  | nil => exact ⟨hpre, hord, hkids⟩
  | cons o ops ih =>
    -- the table is not among what `apply` reads
    exact ih (p := { p with table := p.apply nofile p.table o }) hpre hkids

/-! ### The code of `runcmd` -/

section Runcmd

variable {p : Frame α β} (hstd : tree.Standard) (h0 : ∀ n ≤ 2, t0 n ≠ none) (hfile : 2 < nofile)
  (hpre : Prescribed tree t0 g p.cmd p.table) (hord : Ordered tree g p.cmd)

include hpre

theorem fine_exec {argv : List α} (hget : tree.get p.cmd = some (.exec argv)) :
    Fine nofile tree t0 (runcmd p.cmd (.exec argv)) g p := by
  rw [runcmd]
  split
  · trivial
  · exact ⟨hget, hpre, trivial⟩

include hord

theorem fine_back {c : Cmd α} (hget : tree.get p.cmd = some (.back c)) :
    Fine nofile tree t0 (runcmd p.cmd (.back c)) g p :=
  ⟨.next hpre hget .back, hord.snoc nofun, fun _ _ _ _ => trivial⟩

theorem fine_list {left right : Cmd α} (hkids : p.kids = [])
    (hget : tree.get p.cmd = some (.list left right)) :
    Fine nofile tree t0 (runcmd p.cmd (.list left right)) g p := by
  refine ⟨.next hpre hget .listLeft, hord.snoc nofun, ?_⟩
  intro g1 q hle1 hfork
  refine ⟨hpre.mono hle1, nofun, ?_⟩
  -- the only child there is to wait for is that of the left side
  intro g2 q' hle2 hq' hexit
  rw [hkids] at hq'
  obtain rfl : q' = q := mem_singleton.mp hq'
  refine ⟨.next (hpre.mono (le_trans hle1 hle2)) hget .listRight, ?_, ?_⟩
  · exact (hord.mono (le_trans hle1 hle2)).snoc fun _ _ _ _ => ⟨q', hle2.2.1 hfork, hexit⟩
  · simp only [hkids, erase_cons_head]

include hstd h0 hfile

theorem fine_redir {c : Cmd α} {file : α} {mode : OpenMode} {fd : Nat} (hkids : p.kids = [])
    (hget : tree.get p.cmd = some (.redir c file mode fd)) :
    Fine nofile tree t0 (runcmd p.cmd (.redir c file mode fd)) g p := by
  intro t ht
  have hopen := hpre.opened hstd h0
  have hfd : fd < 2 := (hstd.get hget).1
  have ht : t = update p.table fd (some (.named file mode)) :=
    Table.opened_close (by omega) (fun m hm => hopen m (by omega)) ht
  subst ht
  exact ⟨.next hpre hget .redir, hord.snoc nofun, hkids⟩

theorem fine_pipe {left right : Cmd α} (hget : tree.get p.cmd = some (.pipe left right)) :
    Fine nofile tree t0 (runcmd p.cmd (.pipe left right)) g p := by
  intro g1 id n m t hle1 ht hid
  have hopen := hpre.opened hstd h0
  obtain ⟨hn, hm, hread, hwrite, hother⟩ := Table.pipe_eq_some ht
  have hfree : ∀ i ≤ 2, n ≠ i ∧ m ≠ i := fun i hi =>
    ⟨fun h => hopen i hi (h ▸ hn), fun h => hopen i hi (h ▸ hm)⟩
  -- the first child, with the write end at 1
  refine ⟨?_, (hord.mono hle1).snoc nofun, ?_⟩
  · have hend := Table.setup_end (i := 1) (Nat.lt_trans (by omega) hfile)
      (fun j hj => hopen j (by omega)) hn hm hwrite (hfree 1 (by omega)).2 hother
    change Prescribed tree t0 g1 _ ((((t.close 1).dup nofile m).close n).close m)
    rw [hend]
    exact .next (hpre.mono hle1) hget (.pipeLeft hid)
  intro g2 q1 hle2 _
  have hle := le_trans hle1 hle2
  -- the second, with the read end at 0
  refine ⟨?_, (hord.mono hle).snoc ?_, ?_⟩
  · have hend := Table.setup_end (i := 0) (Nat.lt_trans (by omega) hfile)
      (fun j hj => hopen j (by omega)) hn hm hread (hfree 0 (by omega)).1 hother
    change Prescribed tree t0 g2 _ ((((t.close 0).dup nofile n).close n).close m)
    rw [hend]
    exact .next (hpre.mono hle) hget (.pipeRight (hle2.1 hid))
  · intro _ l r hlist
    rw [hget] at hlist
    cases hlist
  intro g3 q2 hle3 _
  -- the parent has neither end when it waits
  have hback : ∀ g', g2 ≤ g' → Prescribed tree t0 g' p.cmd ((t.close n).close m) := by
    intro g' hle'
    rw [Table.close_close hn hm hother]
    exact hpre.mono (le_trans hle hle')
  refine ⟨hback g3 hle3, nofun, ?_⟩
  intro g4 q3 hle4 _ _
  exact ⟨hback g4 (le_trans hle3 hle4), fun _ => trivial, fun _ _ _ _ _ => trivial⟩

/-- **Every call of `runcmd` is fine**, made with the descriptors that are prescribed for it. -/
theorem fine_runcmd {c : Cmd α} (hkids : p.kids = []) (hget : tree.get p.cmd = some c) :
    Fine nofile tree t0 (runcmd p.cmd c) g p := by
  cases c with
  | exec argv => exact fine_exec hpre hget
  | redir c file mode fd => exact fine_redir hstd h0 hfile hpre hord hkids hget
  | pipe left right => exact fine_pipe hstd h0 hfile hpre hord hget
  | list left right => exact fine_list hpre hord hkids hget
  | back c => exact fine_back hpre hord hget

end Runcmd

end Sh
