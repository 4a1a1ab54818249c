/-
The process table as `ptable.lock` protects it: `fork`, `exit`, `wait` and `kill` of `proc.c`.

A critical section is one action, and so is what `fork` does to the new slot without the
lock.  In between processes are switched, preempted, put to sleep elsewhere and woken.
A `wait` that has slept holds the lock again when it goes on, so waking up and scanning
the table once more is one action.

`born` numbers the processes in the order in which `fork` found a slot for them; a pid does
not do that once `nextpid` has come round.  `exits` and `waits` record what exited and what
the calls of `wait` returned.  No action looks at any of these.
-/
import Os.Xv6.Proc

namespace Xv6

/-- What a process sleeps on: nothing, the address of a slot, or another address. -/
inductive Chan
  | none
  | proc (k : ProcIdx)
  | other (c : Nat)
  deriving DecidableEq

/-- Where a process is in the kernel, as far as the table is concerned. -/
inductive Place
  | elsewhere
  /-- In `fork`, with the slot that `allocproc` found. -/
  | forking (k : ProcIdx)
  /-- In `fork`, past `np->parent = curproc`. -/
  | forked (k : ProcIdx)
  /-- Asleep in `wait`, or woken there and not yet back on a processor. -/
  | waiting
  deriving DecidableEq

structure Slot where
  state : ProcState
  pid : Word
  parent : Option ProcIdx
  chan : Chan
  killed : Bool
  place : Place
  born : Nat
  deriving DecidableEq

/-- What a call of `wait` returned. -/
inductive WaitReturn
  /-- A child, with the parent that its slot named then. -/
  | child (born : Nat) (caller : ProcIdx) (parent : Option ProcIdx)
  /-- -1, with whether the caller was killed and whether some slot named it as parent. -/
  | failed (caller : ProcIdx) (killed kids : Bool)
  deriving DecidableEq

structure Ptable where
  procs : ProcIdx → Slot
  initproc : ProcIdx
  nextpid : Word
  births : Nat
  exits : List Nat
  waits : List WaitReturn

namespace Ptable

def set (s : Ptable) (k : ProcIdx) (p : Slot) : Ptable :=
  { s with procs := Function.update s.procs k p }

end Ptable

/-- A slot that sleeps on the channel is made RUNNABLE. -/
def rouse (chan : Chan) (p : Slot) : Slot :=
  if p.state = .sleeping ∧ p.chan = chan then { p with state := .runnable } else p

/-- `wakeup1`. -/
def wakeup1 (s : Ptable) (chan : Chan) : Ptable :=
  { s with procs := fun k => rouse chan (s.procs k) }

/-- The channel that a parent sleeps on in `wait`. -/
def parentChan : Option ProcIdx → Chan
  | none => .none
  | some k => .proc k

/-- The first critical section of `fork`, in `allocproc`; with no free slot `fork` returns -1. -/
def forkAlloc (s : Ptable) (cur : ProcIdx) : Ptable :=
  match (List.finRange nproc).find? fun k => (s.procs k).state = .unused with
  | none => s
  | some k =>
    { s.set k { s.procs k with state := .embryo, pid := s.nextpid, born := s.births } with
      nextpid := s.nextpid + 1
      births := s.births + 1 }.set cur { s.procs cur with place := .forking k }

/-- `p->parent = initproc`. -/
def adopt (s : Ptable) (k : ProcIdx) : Ptable :=
  s.set k { s.procs k with parent := some s.initproc }

/-- A turn of the loop of `exit` over the table. -/
def exitChild (cur : ProcIdx) (s : Ptable) (k : ProcIdx) : Ptable :=
  if (s.procs k).parent = some cur then
    if (s.procs k).state = .zombie then wakeup1 (adopt s k) (.proc s.initproc) else adopt s k
  else s

/-- `curproc->state = ZOMBIE`. -/
def becomeZombie (s : Ptable) (cur : ProcIdx) : Ptable :=
  { s.set cur { s.procs cur with state := .zombie } with
    exits := (s.procs cur).born :: s.exits }

/-- The critical section of `exit`. -/
def exitSection (s : Ptable) (cur : ProcIdx) : Ptable :=
  becomeZombie ((List.finRange nproc).foldl (exitChild cur)
    (wakeup1 s (parentChan (s.procs cur).parent))) cur

/-- The loop of `wait` over the table: a child that has exited, and `havekids`. -/
def waitScan (s : Ptable) (cur : ProcIdx) : List ProcIdx → Bool → Option ProcIdx × Bool
  | [], havekids => (none, havekids)
  | k :: l, havekids =>
    if (s.procs k).parent ≠ some cur then waitScan s cur l havekids
    else if (s.procs k).state = .zombie then (some k, true)
    else waitScan s cur l true

/-- What `wait` leaves of the slot of a child it has found. -/
def reapedSlot (p : Slot) : Slot :=
  { p with pid := 0, parent := none, killed := false, state := .unused }

/-- `wait` returns. -/
def waitReturns (s : Ptable) (cur : ProcIdx) (r : WaitReturn) : Ptable :=
  { s.set cur { s.procs cur with state := .running, chan := .none, place := .elsewhere } with
    waits := r :: s.waits }

/-- A turn of the outer loop of `wait`, up to its return or its `sleep`. -/
def waitTurn (s : Ptable) (cur : ProcIdx) : Ptable :=
  match waitScan s cur (List.finRange nproc) false with
  | (some k, _) =>
    waitReturns (s.set k (reapedSlot (s.procs k))) cur
      (.child (s.procs k).born cur (s.procs k).parent)
  | (none, havekids) =>
    if !havekids || (s.procs cur).killed then
      waitReturns s cur (.failed cur (s.procs cur).killed
        (decide (∃ k, (s.procs k).parent = some cur)))
    else s.set cur { s.procs cur with state := .sleeping, chan := .proc cur, place := .waiting }

/-- `kill`: the first slot with the pid, whatever its state. -/
def killPid (s : Ptable) (pid : Word) : Ptable :=
  match (List.finRange nproc).find? fun k => (s.procs k).pid = pid with
  | none => s
  | some k =>
    s.set k { s.procs k with
      killed := true
      state := if (s.procs k).state = .sleeping then .runnable else (s.procs k).state }

/-- What `kill` returns. -/
def killResult (s : Ptable) (pid : Word) : Int :=
  if ((List.finRange nproc).find? fun k => (s.procs k).pid = pid).isSome then 0 else -1

inductive TableAct
  /-- The scheduler switches to a process that is not in `wait`. -/
  | schedule (k : ProcIdx)
  | yield (k : ProcIdx)
  /-- `sleep` outside `wait`. -/
  | sleep (k : ProcIdx) (c : Nat)
  /-- `wakeup` of such a channel, by a process or an interrupt. -/
  | wakeup (c : Nat)
  | forkAlloc (k : ProcIdx)
  /-- No kernel stack or no copy of the memory: the slot is given back. -/
  | forkFails (k : ProcIdx)
  /-- `np->parent = curproc`. -/
  | forkParent (k : ProcIdx)
  /-- `np->state = RUNNABLE`. -/
  | forkRuns (k : ProcIdx)
  | exit (k : ProcIdx)
  /-- A call of `wait`. -/
  | wait (k : ProcIdx)
  /-- A process that was woken in `wait` goes on there. -/
  | rewait (k : ProcIdx)
  | kill (pid : Word)

def tableStep (s : Ptable) : TableAct → Option Ptable
  | .schedule k =>
    if (s.procs k).state = .runnable ∧ (s.procs k).place ≠ .waiting then
      some (s.set k { s.procs k with state := .running, chan := .none })
    else none
  | .yield k =>
    if (s.procs k).state = .running then
      some (s.set k { s.procs k with state := .runnable })
    else none
  | .sleep k c =>
    if (s.procs k).state = .running ∧ (s.procs k).place = .elsewhere then
      some (s.set k { s.procs k with state := .sleeping, chan := .other c })
    else none
  | .wakeup c => some (wakeup1 s (.other c))
  | .forkAlloc k =>
    if (s.procs k).state = .running ∧ (s.procs k).place = .elsewhere then some (forkAlloc s k)
    else none
  | .forkFails k =>
    match (s.procs k).state, (s.procs k).place with
    | .running, .forking np =>
      some ((s.set np { s.procs np with state := .unused }).set k
        { s.procs k with place := .elsewhere })
    | _, _ => none
  | .forkParent k =>
    match (s.procs k).state, (s.procs k).place with
    | .running, .forking np =>
      some ((s.set np { s.procs np with parent := some k }).set k
        { s.procs k with place := .forked np })
    | _, _ => none
  | .forkRuns k =>
    match (s.procs k).state, (s.procs k).place with
    | .running, .forked np =>
      some ((s.set np { s.procs np with state := .runnable }).set k
        { s.procs k with place := .elsewhere })
    | _, _ => none
  | .exit k =>
    -- `exit` of the first process panics
    if (s.procs k).state = .running ∧ (s.procs k).place = .elsewhere ∧ k ≠ s.initproc then
      some (exitSection s k)
    else none
  | .wait k =>
    if (s.procs k).state = .running ∧ (s.procs k).place = .elsewhere then some (waitTurn s k)
    else none
  | .rewait k =>
    if (s.procs k).state = .runnable ∧ (s.procs k).place = .waiting then some (waitTurn s k)
    else none
  | .kill pid => some (killPid s pid)

/-- The table after `userinit`. -/
def firstTable : Ptable where
  procs := fun k =>
    { state := if k = 0 then .runnable else .unused, pid := if k = 0 then 1 else 0, parent := none,
      chan := .none, killed := false, place := .elsewhere, born := 0 }
  initproc := 0
  nextpid := 2
  births := 1
  exits := []
  waits := []

end Xv6
