/-
Waiting for a condition: `sleep`, `wakeup`, `yield` and the scheduler of `proc.c`.

Any number of processes wait for a condition that the spin lock `lk` protects, or make it
true and wake the others.  Each acquire and each release is an action, and so is what a
process does between two of them.  `wakeup1` looks at one slot of the table at a time.
A process that has called `sched` is gone until a scheduler switches back to it;
`ptable.lock` passes from the one to the other with the switch.  Processors are not
counted: every process that is RUNNING can take the next step.
-/
import Os.Xv6.Proc

namespace Xv6

/-- Where a process is. -/
inductive SleepPc
  /-- Holding no lock. -/
  | out
  /-- `acquire(lk)` at the head of the waiting loop, or at the end of `sleep`. -/
  | waitAcquire
  /-- Holding `lk`, at the test of the loop. -/
  | waitTest
  /-- Past the loop, holding `lk`. -/
  | waitDone
  /-- In `sleep`, at `acquire(&ptable.lock)`. -/
  | sleepAcquire
  /-- Holding both locks, at `release(lk)`. -/
  | sleepRelease
  /-- Holding `ptable.lock`, before `p->state = SLEEPING`. -/
  | sleepSet
  /-- Switched away in `sleep`. -/
  | sleepGone
  /-- Switched back, before `p->chan = 0` and the release of `ptable.lock`. -/
  | sleepTidy
  /-- `acquire(lk)`, to make the condition true. -/
  | wakeAcquire
  /-- Holding `lk`, before it makes the condition true. -/
  | wakeSet
  /-- The condition has been made true; at `acquire(&ptable.lock)` of `wakeup`. -/
  | wakeupAcquire
  /-- In `wakeup1`, before the slot with index `i`. -/
  | wakeup1 (i : Nat)
  /-- `wakeup` has returned and `lk` is still to be released. -/
  | wakeDone
  /-- Switched away in `yield`. -/
  | yieldGone
  /-- Switched back in `yield`, before the release of `ptable.lock`. -/
  | yieldTidy
  deriving DecidableEq

/-- The holder of `ptable.lock`. -/
inductive PtableLock (n : Nat)
  | free
  | scheduler
  | proc (p : Fin n)
  deriving DecidableEq

structure SleepProc where
  state : ProcState
  /-- Whether `p->chan` is the channel of the condition. -/
  chan : Bool
  pc : SleepPc
  deriving DecidableEq

/-- SLEEPING on the channel. -/
def SleepProc.asleep (x : SleepProc) : Bool := x.state == .sleeping && x.chan

structure SleepState (n : Nat) where
  cond : Bool
  lk : Option (Fin n)
  ptable : PtableLock n
  procs : Fin n → SleepProc

namespace SleepState

variable {n : Nat}

/-- Process `p` goes on at `pc`. -/
def goto (s : SleepState n) (p : Fin n) (pc : SleepPc) : SleepState n :=
  { s with procs := Function.update s.procs p { s.procs p with pc := pc } }

/-- What `wakeup1` and `kill` do to a slot they wake. -/
def rouse (s : SleepState n) (p : Fin n) : SleepState n :=
  { s with procs := Function.update s.procs p { s.procs p with state := .runnable } }

/-- The slot with index `i`, if it is asleep on the channel. -/
def rouseSlot (s : SleepState n) (i : Fin n) : SleepState n :=
  if (s.procs i).asleep then s.rouse i else s

end SleepState

inductive SleepAct (n : Nat)
  /-- A process comes to the waiting loop. -/
  | wait (p : Fin n)
  /-- A process is about to make the condition true. -/
  | wake (p : Fin n)
  /-- A process gives up its processor, which an interrupt can force on it. -/
  | yield (p : Fin n)
  /-- The next step of a process. -/
  | go (p : Fin n)
  /-- A holder of `lk` makes the condition false. -/
  | spend (p : Fin n)
  /-- `lk` is released before the call of `wakeup`. -/
  | unlock (p : Fin n)
  /-- A scheduler switches to a process. -/
  | schedule (p : Fin n)
  /-- A scheduler has come to the end of the table. -/
  | rest
  /-- `kill` of a process, by anyone. -/
  | kill (p : Fin n)

variable {n : Nat}

/-- The next step of a RUNNING process; `none` where it spins. -/
def sleepGo (s : SleepState n) (p : Fin n) : Option (SleepState n) :=
  match (s.procs p).pc with
  | .waitAcquire =>
    if s.lk = none then some { s.goto p .waitTest with lk := some p } else none
  | .waitTest => if s.cond then some (s.goto p .waitDone) else some (s.goto p .sleepAcquire)
  | .waitDone => some { s.goto p .out with lk := none }
  | .sleepAcquire =>
    if s.ptable = .free then some { s.goto p .sleepRelease with ptable := .proc p } else none
  | .sleepRelease => some { s.goto p .sleepSet with lk := none }
  | .sleepSet =>
    -- `sched` switches to the scheduler, which goes on holding `ptable.lock`
    some { s with
      ptable := .scheduler
      procs := Function.update s.procs p { state := .sleeping, chan := true, pc := .sleepGone } }
  | .sleepTidy =>
    some { s with
      ptable := .free
      procs := Function.update s.procs p
        { s.procs p with chan := false, pc := .waitAcquire } }
  | .wakeAcquire =>
    if s.lk = none then some { s.goto p .wakeSet with lk := some p } else none
  | .wakeSet => some { s.goto p .wakeupAcquire with cond := true }
  | .wakeupAcquire =>
    if s.ptable = .free then some { s.goto p (.wakeup1 0) with ptable := .proc p } else none
  | .wakeup1 i =>
    if h : i < n then some ((s.rouseSlot ⟨i, h⟩).goto p (.wakeup1 (i + 1)))
    else some { s.goto p (if s.lk = some p then .wakeDone else .out) with ptable := .free }
  | .wakeDone => some { s.goto p .out with lk := none }
  | .yieldTidy => some { s.goto p .out with ptable := .free }
  | _ => none

def sleepStep (s : SleepState n) : SleepAct n → Option (SleepState n)
  | .wait p =>
    if (s.procs p).state = .running ∧ (s.procs p).pc = .out then some (s.goto p .waitAcquire)
    else none
  | .wake p =>
    if (s.procs p).state = .running ∧ (s.procs p).pc = .out then some (s.goto p .wakeAcquire)
    else none
  | .yield p =>
    if (s.procs p).state = .running ∧ (s.procs p).pc = .out ∧ s.ptable = .free then
      some { s with
        ptable := .scheduler
        procs := Function.update s.procs p
          { s.procs p with state := .runnable, pc := .yieldGone } }
    else none
  | .go p => if (s.procs p).state = .running then sleepGo s p else none
  | .spend p =>
    if (s.procs p).state = .running ∧ ((s.procs p).pc = .waitDone ∨ (s.procs p).pc = .wakeSet) then
      some { s with cond := false }
    else none
  | .unlock p =>
    if (s.procs p).state = .running ∧ (s.procs p).pc = .wakeupAcquire ∧ s.lk = some p then
      some { s with lk := none }
    else none
  | .schedule p =>
    if (s.procs p).state = .runnable ∧ (s.ptable = .free ∨ s.ptable = .scheduler) then
      match (s.procs p).pc with
      | .sleepGone =>
        some { s with
          ptable := .proc p
          procs := Function.update s.procs p
            { s.procs p with state := .running, pc := .sleepTidy } }
      | .yieldGone =>
        some { s with
          ptable := .proc p
          procs := Function.update s.procs p
            { s.procs p with state := .running, pc := .yieldTidy } }
      | _ => none
    else none
  | .rest => if s.ptable = .scheduler then some { s with ptable := .free } else none
  | .kill p =>
    if s.ptable = .free then
      some (if (s.procs p).state = .sleeping then s.rouse p else s)
    else none

end Xv6
