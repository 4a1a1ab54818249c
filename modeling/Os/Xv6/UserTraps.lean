/-
Traps that interrupt a process in user mode: page faults, and the timer with `alarm` (`trap.c`,
`sys_alarm` in `syscall.c`).

The alarm fields of `struct proc` are kept beside the process, because no other function reads or
writes them: neither `allocproc` nor `fork`, `exec` or `wait`.

Ticks and the other interrupts are left out.
-/
import Os.Xv6.Ptable
import Os.Xv6.System

namespace Xv6

variable {M : Machine}

/-! ### Leaving a trap -/

/-- What becomes of the process. -/
inductive TrapEnd
  | resumes
  | exits
  deriving DecidableEq

/-- The end of `trap`: a process that has been killed exits, and `exit` panics for `init`. -/
def leaveTrap (s : Kernel M) (k : ProcIdx) : Option (TrapEnd × Kernel M) :=
  if (s.procs k).killed then
    if k = s.initproc then none else some (.exits, s)
  else some (.resumes, s)

/-- `trap` for a page fault in user mode. -/
def trapPageFault (s : Kernel M) (k : ProcIdx) (cr2 : Word) : Option (TrapEnd × Kernel M) :=
  match (s.procs k).pgdir with
  | none => none
  | some pgdir =>
    match trapPgflt s.km pgdir cr2 with
    | none => none
    | some (true, m) => leaveTrap { s with km := m } k
    | some (false, m) =>
      leaveTrap ({ s with km := m }.setProc k { s.procs k with killed := true }) k

/-! ### `alarm` -/

/-- The alarm fields of `struct proc`. -/
structure Alarm where
  alarmticks : Word
  curalarmticks : Word
  alarmhandler : Word
  deriving DecidableEq

/-- What `sys_alarm` sets. -/
def Alarm.set (a : Alarm) (ticks handler : Word) : Alarm :=
  { a with alarmticks := ticks, alarmhandler := handler }

def sysAlarm (m : Kmem M) (p : Proc M) (a : Alarm) : Option (Word × Kmem M × Alarm) :=
  match argint m p 0 with
  | none => none
  | some (none, m) => some (-1, m, a)
  | some (some ticks, m) =>
    match argptr m p 1 1 with
    | none => none
    | some (none, m) => some (-1, m, a)
    | some (some handler, m) => some (0, m, a.set ticks handler)

/-- The next timer interrupt in user mode delivers the alarm. -/
def Alarm.Due (a : Alarm) : Prop := a.alarmticks = a.curalarmticks + 1

instance (a : Alarm) : Decidable a.Due := inferInstanceAs (Decidable (_ = _))

/-- The fields after a timer interrupt in user mode. -/
def Alarm.tick (a : Alarm) : Alarm :=
  { a with curalarmticks := if a.Due then 0 else a.curalarmticks + 1 }

/-- Stores the bytes of a word where the page table has them. -/
def putWord (pgdir : Ppn M) (m : Kmem M) (va w : Word) : Option (Kmem M) := do
  let a0 ← translate m pgdir va false true
  let a1 ← translate m pgdir (va + 1) false true
  let a2 ← translate m pgdir (va + 2) false true
  let a3 ← translate m pgdir (va + 3) false true
  let m := m.storeByte a0.1 a0.2 (getByte w 0)
  let m := m.storeByte a1.1 a1.2 (getByte w 1)
  let m := m.storeByte a2.1 a2.2 (getByte w 2)
  return m.storeByte a3.1 a3.2 (getByte w 3)

/-- A store of a word in kernel mode.  The one or two pages it touches may fault first. -/
def kstoreWord (pgdir : Ppn M) (m : Kmem M) (va w : Word) : Option (Kmem M) :=
  match access pgdir va false true (M.npages + 1) m with
  | some (some _, m) =>
    match access pgdir (va + 3) false true (M.npages + 1) m with
    | some (some _, m) => putWord pgdir m va w
    | _ => none
  | _ => none

/-- The alarm's part of a timer interrupt in user mode: memory and registers afterwards, and the
addresses written.  The interrupted `eip` is pushed by the kernel. -/
def deliver (pgdir : Ppn M) (m : Kmem M) (tf : Trapframe) (a : Alarm) :
    Option (Kmem M × Trapframe × List Word) :=
  if a.Due then
    let esp := tf.esp - 4
    (kstoreWord pgdir m esp tf.eip).map fun m =>
      (m, { tf with esp := esp, eip := a.alarmhandler }, [esp, esp + 1, esp + 2, esp + 3])
  else some (m, tf, [])

/-- `trap` for a timer interrupt of process `k` in user mode, up to `yield`. -/
def trapTimer (s : Kernel M) (k : ProcIdx) (tf : Trapframe) (a : Alarm) :
    Option (TrapEnd × Kernel M × Alarm) :=
  match (s.procs k).pgdir with
  | none => none
  | some pgdir =>
    match deliver pgdir s.km tf a with
    | none => none
    | some (m, tf, _) =>
      (leaveTrap ({ s with km := m }.setProc k { s.procs k with tf := tf }) k).map fun r =>
        (r.1, r.2, a.tick)

/-! ### Alarms in the process table -/

/-- The process table with the alarm fields.  `own` records the handlers that the process in a slot
has passed to `alarm`, since it was made or since its last `exec`. -/
structure AlarmTable where
  table : Ptable
  alarms : ProcIdx → Alarm
  own : ProcIdx → List Word

inductive AlarmAct
  | table (act : TableAct)
  /-- An `exec` that succeeds. -/
  | exec (k : ProcIdx)
  /-- A call of `alarm` that succeeds. -/
  | alarm (k : ProcIdx) (ticks handler : Word)
  /-- A timer interrupt in user mode. -/
  | tick (k : ProcIdx)

/-- The process is on a processor, outside the kernel or about to enter or leave it. -/
abbrev AlarmTable.Runs (s : AlarmTable) (k : ProcIdx) : Prop :=
  (s.table.procs k).state = .running ∧ (s.table.procs k).place = .elsewhere

/-- The slots that an action gives to a new process. -/
abbrev Created (s s' : Ptable) (k : ProcIdx) : Prop :=
  (s.procs k).state = .unused ∧ (s'.procs k).state = .embryo

def alarmStep (s : AlarmTable) : AlarmAct → Option AlarmTable
  | .table act => (tableStep s.table act).map fun table =>
    { s with table := table, own := fun k => if Created s.table table k then [] else s.own k }
  | .exec k => if s.Runs k then some { s with own := Function.update s.own k [] } else none
  | .alarm k ticks handler =>
    if s.Runs k then
      some { s with
        alarms := Function.update s.alarms k ((s.alarms k).set ticks handler)
        own := Function.update s.own k (handler :: s.own k) }
    else none
  | .tick k =>
    if s.Runs k then some { s with alarms := Function.update s.alarms k (s.alarms k).tick }
    else none

/-- The table after `userinit`. -/
def firstAlarms : AlarmTable := ⟨firstTable, fun _ => ⟨0, 0, 0⟩, fun _ => []⟩

end Xv6
