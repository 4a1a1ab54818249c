/-
The log of the file system: `log.c`, with what it needs of `bio.c`.

A state holds the disk, the blocks as the buffer cache shows them, and the log.  The
actions are what one process does between two points where another can come in.
`log_write` is two of them: its tests come before it takes the lock.  The commit and the
recovery take one action for each block they write, so a crash can come between any two.

The header block is kept apart from the others and decoded.  The buffer cache is seen
through `bread`: it gives the newest data of a block, and it panics when all buffers are
in use.  A block keeps its buffer from the time it is logged until it is installed.

An operation has a number and is not started twice.  `hist` records what has been
written; no step looks at it.
-/
import Mathlib.Data.List.Basic

namespace Xv6

variable {D : Type}

def maxopblocks : Nat := 10
def logsize : Nat := maxopblocks * 3
def nbuf : Nat := maxopblocks * 3

/-- Where the log is: `log.start` and `log.size`. -/
structure LogDev where
  start : Nat
  size : Nat

/-- A block outside of the log. -/
def LogDev.Home (L : LogDev) (b : Nat) : Prop := ¬ (L.start ≤ b ∧ b < L.start + L.size)

instance (L : LogDev) (b : Nat) : Decidable (L.Home b) := inferInstanceAs (Decidable (¬ _))

/-- The log's copy of the block with index `tail`. -/
def LogDev.block (L : LogDev) (tail : Nat) : Nat := L.start + tail + 1

/-! ### The state -/

/-- A file-system operation and the blocks it has logged.  One that is `checked` has passed
the tests of `log_write` for a block, whose buffer it holds. -/
inductive OpState
  | fresh
  | active (logged : List Nat)
  | checked (logged : List Nat) (b : Nat)
  | ended
  deriving DecidableEq

inductive LogPanic
  | noBuffers
  | tooBig
  | outsideTrans
  deriving DecidableEq

/-- What the log is doing.  `writing` and `installing` are the loops of `commit`, called
from the `end_op` of an operation. -/
inductive LogPhase
  | running
  | writing (o tail : Nat)
  | installing (o tail : Nat)
  | recovering (tail : Nat)
  | panicked (p : LogPanic)
  deriving DecidableEq

structure LogWrite (D : Type) where
  op : Nat
  block : Nat
  data : D

/-- All writes that were logged, those since the last commit, those of the groups whose
header has been written, and the operations that have come back from a commit. -/
structure LogHist (D : Type) where
  writes : List (LogWrite D)
  opened : List (LogWrite D)
  committed : List (List (LogWrite D))
  synced : List Nat

structure LogState (D : Type) where
  disk : Nat → D
  /-- The header block on the disk. -/
  head : List Nat
  cache : Nat → D
  /-- `log.lh`. -/
  lh : List Nat
  /-- Blocks whose buffers are held. -/
  held : List Nat
  outstanding : Nat
  ops : Nat → OpState
  phase : LogPhase
  hist : LogHist D

namespace LogState

def bwrite (s : LogState D) (b : Nat) (v : D) : LogState D :=
  { s with disk := Function.update s.disk b v, cache := Function.update s.cache b v }

/-- No buffer is left for a block: all are held or logged. -/
def NoBuffer (s : LogState D) (b : Nat) : Prop :=
  b ∉ s.lh ∧ nbuf ≤ s.lh.length + (s.held.filter fun b' => b' ∉ s.lh).length

instance (s : LogState D) (b : Nat) : Decidable (s.NoBuffer b) :=
  inferInstanceAs (Decidable (_ ∧ _))

end LogState

/-! ### `log.c` -/

/-- A `begin_op` that does not sleep. -/
def beginOp (s : LogState D) (o : Nat) : Option (LogState D) :=
  match s.phase, s.ops o with
  | .running, .fresh =>
    if logsize < s.lh.length + (s.outstanding + 1) * maxopblocks then none
    else some { s with
      outstanding := s.outstanding + 1
      ops := Function.update s.ops o (.active []) }
  | _, _ => none

/-- The block has been changed and the operation may log it. -/
def LogState.modified (s : LogState D) (o : Nat) (logged : List Nat) (b : Nat) (v : D) :
    LogState D :=
  { s with
    cache := Function.update s.cache b v
    held := b :: s.held
    ops := Function.update s.ops o (.checked logged b)
    hist := { s.hist with
      writes := s.hist.writes ++ [⟨o, b, v⟩]
      opened := s.hist.opened ++ [⟨o, b, v⟩] } }

/-- `bread`, a change of the block, and the tests of `log_write`. -/
def modify (L : LogDev) (s : LogState D) (o b : Nat) (v : D) : Option (LogState D) :=
  match s.phase, s.ops o with
  | .running, .active logged =>
    if ¬ L.Home b ∨ b ∈ s.held then none
    else if s.NoBuffer b then some { s with phase := .panicked .noBuffers }
    else if logsize ≤ s.lh.length ∨ L.size - 1 ≤ s.lh.length then
      some { s with phase := .panicked .tooBig }
    else if s.outstanding < 1 then some { s with phase := .panicked .outsideTrans }
    else some (s.modified o logged b v)
  | _, _ => none

/-- A list of blocks with one more, unless it is there. -/
def absorb (l : List Nat) (b : Nat) : List Nat := if b ∈ l then l else l ++ [b]

/-- The rest of `log_write`, with absorption, and `brelse`. -/
def logWrite (s : LogState D) (o : Nat) : Option (LogState D) :=
  match s.phase, s.ops o with
  | .running, .checked logged b =>
    some { s with
      lh := absorb s.lh b
      held := s.held.erase b
      ops := Function.update s.ops o (.active (absorb logged b)) }
  | _, _ => none

/-- The group is on the disk. -/
def LogHist.commit (h : LogHist D) : LogHist D :=
  { h with committed := h.committed ++ [h.opened], opened := [] }

/-- The `end_op` of an operation returns after its commit. -/
def LogHist.sync (h : LogHist D) (o : Nat) : LogHist D := { h with synced := o :: h.synced }

/-- The operation no longer counts. -/
def LogState.ended (s : LogState D) (o : Nat) : LogState D :=
  { s with outstanding := s.outstanding - 1, ops := Function.update s.ops o .ended }

/-- The last operation of a group starts the commit, which has nothing to do if nothing was
logged. -/
def endOp (s : LogState D) (o : Nat) : Option (LogState D) :=
  match s.phase, s.ops o with
  | .running, .active _ =>
    if s.outstanding - 1 = 0 then
      if s.lh = [] then some { s.ended o with hist := s.hist.commit.sync o }
      else some { s.ended o with phase := .writing o 0 }
    else some (s.ended o)
  | _, _ => none

/-- One turn of `install_trans`. -/
def LogState.install (L : LogDev) (s : LogState D) (tail b : Nat) : LogState D :=
  s.bwrite b (s.cache (L.block tail))

/-- `write_head` with an empty log. -/
def LogState.cleared (s : LogState D) : LogState D :=
  { s with lh := [], head := [], phase := .running }

/-- The next block that `commit` or `recover_from_log` writes: a turn of `write_log` or of
`install_trans`, or `write_head` at the end of the loop. -/
def diskWrite (L : LogDev) (s : LogState D) : Option (LogState D) :=
  match s.phase with
  | .writing o tail =>
    match s.lh[tail]? with
    | some b =>
      if nbuf ≤ s.lh.length then some { s with phase := .panicked .noBuffers }
      else some { s.bwrite (L.block tail) (s.cache b) with phase := .writing o (tail + 1) }
    | none => some { s with head := s.lh, phase := .installing o 0, hist := s.hist.commit }
  | .installing o tail =>
    match s.lh[tail]? with
    | some b => some { s.install L tail b with phase := .installing o (tail + 1) }
    | none => some { s.cleared with hist := s.hist.sync o }
  | .recovering tail =>
    match s.lh[tail]? with
    | some b => some { s.install L tail b with phase := .recovering (tail + 1) }
    | none => some s.cleared
  | _ => none

/-- What an operation that was running when the machine stopped becomes. -/
def OpState.stopped : OpState → OpState
  | .fresh => .fresh
  | _ => .ended

/-- The machine stops and starts again, up to `read_head` in `recover_from_log`. -/
def crash (s : LogState D) : LogState D :=
  { s with
    cache := s.disk
    lh := s.head
    held := []
    outstanding := 0
    ops := fun o => (s.ops o).stopped
    phase := .recovering 0
    hist := { s.hist with opened := [] } }

inductive LogAct (D : Type)
  | beginOp (o : Nat)
  | modify (o b : Nat) (v : D)
  | logWrite (o : Nat)
  | endOp (o : Nat)
  | diskWrite
  | crash

def logStep (L : LogDev) (s : LogState D) : LogAct D → Option (LogState D)
  | .beginOp o => beginOp s o
  | .modify o b v => modify L s o b v
  | .logWrite o => logWrite s o
  | .endOp o => endOp s o
  | .diskWrite => diskWrite L s
  | .crash => some (crash s)

end Xv6
