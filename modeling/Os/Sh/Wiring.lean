/-
What a tree of commands prescribes for the descriptors of each of its commands.

A redirection puts a file in the place of one descriptor of the command it is about, a `PIPE` puts
the ends of its pipe in the place of 1 on the left and 0 on the right, and otherwise a command has
what the command around it has.  Which pipe belongs to which `PIPE` is a matter of the run; the
statement reads it off the history.
-/
import Os.Sh.Runcmd

namespace Sh

variable {α β : Type}

/-- The redirections are of 0 and of 1, as all that the parser builds are. -/
def Cmd.Standard : Cmd α → Prop
  | .exec _ => True
  | .redir cmd _ _ fd => fd < 2 ∧ cmd.Standard
  | .pipe left right => left.Standard ∧ right.Standard
  | .list left right => left.Standard ∧ right.Standard
  | .back cmd => cmd.Standard

/-- The command at `π` is `c` and has the descriptors `t`: what the command at `f` of it has. -/
inductive Link (g : World) (π : Path) : Cmd α → Field → Table α β → Table α β → Prop
  | redir {cmd : Cmd α} {file : α} {mode : OpenMode} {fd : Nat} {t : Table α β} :
      Link g π (.redir cmd file mode fd) .cmd t (Function.update t fd (some (.named file mode)))
  | pipeLeft {left right : Cmd α} {t : Table α β} {k : Nat} (hpipe : (π, k) ∈ g.pipes) :
      Link g π (.pipe left right) .left t (Function.update t 1 (some (.writeEnd k)))
  | pipeRight {left right : Cmd α} {t : Table α β} {k : Nat} (hpipe : (π, k) ∈ g.pipes) :
      Link g π (.pipe left right) .right t (Function.update t 0 (some (.readEnd k)))
  | listLeft {left right : Cmd α} {t : Table α β} : Link g π (.list left right) .left t t
  | listRight {left right : Cmd α} {t : Table α β} : Link g π (.list left right) .right t t
  | back {cmd : Cmd α} {t : Table α β} : Link g π (.back cmd) .cmd t t

/-- The command at `π` is to have the descriptors `t`, if the whole tree has `t0`. -/
inductive Prescribed (tree : Cmd α) (t0 : Table α β) (g : World) : Path → Table α β → Prop
  | root : Prescribed tree t0 g [] t0
  | next {π : Path} {c : Cmd α} {f : Field} {t t' : Table α β} (h : Prescribed tree t0 g π t)
      (hget : tree.get π = some c) (hlink : Link g π c f t t') :
      Prescribed tree t0 g (π ++ [f]) t'

/-- Of every `LIST` on whose right side `π` is, the process of the left side has exited. -/
def Ordered (tree : Cmd α) (g : World) (π : Path) : Prop :=
  ∀ σ left right, tree.get σ = some (.list left right) → σ ++ [.right] <+: π →
    ∃ q, (σ ++ [.left], q) ∈ g.forks ∧ q ∈ g.exited

/-! ### A system whose commands are wired as prescribed -/

/-- A process the shell is done with setting up: it runs a program, or waits for its children. -/
def Proc.AtRest (p : Proc α β) : Prop :=
  (∃ argv, p.status = .program argv) ∨ ∃ k, p.status = .shell (.wait :: k)

/-- The descriptors of a process are those of its command, and no others are left over. -/
structure Wired (tree : Cmd α) (t0 : Table α β) (g : World) (p : Proc α β) : Prop where
  prescribed : ∀ t, Prescribed tree t0 g p.cmd t ↔ t = p.table
  others : ∀ n, 2 ≤ n → p.table n = t0 n
  writers : ∀ n k, p.table n = some (.writeEnd k) →
    n = 1 ∧ ∃ σ, (σ, k) ∈ g.pipes ∧ σ ++ [.left] <+: p.cmd
  readers : ∀ n k, p.table n = some (.readEnd k) →
    n = 0 ∧ ∃ σ, (σ, k) ∈ g.pipes ∧ σ ++ [.right] <+: p.cmd

structure Plumbed (tree : Cmd α) (t0 : Table α β) (s : Sys α β) : Prop where
  wired : ∀ a p, s.procs a = some p → p.AtRest → Wired tree t0 s.shared p
  program : ∀ a p argv, s.procs a = some p → p.status = .program argv →
    tree.get p.cmd = some (.exec argv)
  /-- Every `PIPE` has one pipe, and every pipe is that of one `PIPE`. -/
  pipes : (s.shared.pipes.map Prod.fst).Nodup ∧ (s.shared.pipes.map Prod.snd).Nodup
  /-- A command is forked for once. -/
  forks : (s.shared.forks.map Prod.fst).Nodup
  /-- On the right of a `LIST` there is a process only when that of the left side has exited. -/
  ordered : ∀ a p σ left right, s.procs a = some p → tree.get σ = some (.list left right) →
    σ ++ [.right] <+: p.cmd →
      ∃ q p', (σ ++ [.left], q) ∈ s.shared.forks ∧ s.procs q = some p' ∧ p'.status = .exited

end Sh
