/-
Reading and writing a pipe: `pipewrite` and `piperead` of `pipe.c`.

Any number of calls can be inside.  A call holds `p->lock` except while it sleeps, so the
others come in where it goes to sleep and where it returns; here every turn of a loop is
an action of its own.  A sleeper may wake at any time, which includes every time it is
woken.  Calls are numbered.  `stored` and `fetched` record the bytes in the order in
which the counters advance, with the call that moved them; no step looks at them.
-/
import Os.Lib.Ring
import Os.Xv6.Layout

namespace Xv6

open RingBuffer (Ring slot)

abbrev pipesize : Nat := 512

/-- `struct pipe` without its lock. -/
structure Pipe where
  data : Fin pipesize → Byte
  nread : Word
  nwrite : Word
  readopen : Bool
  writeopen : Bool

/-- Where a call is. -/
inductive PipeCall
  | fresh
  /-- `pipewrite(p, addr, n)` at the byte with index `i`. -/
  | writing (addr : List Byte) (i : Nat)
  /-- It has returned after `i` bytes. -/
  | wrote (addr : List Byte) (i : Nat)
  /-- `piperead(p, addr, n)` in its first loop. -/
  | waiting (n : Nat)
  /-- In its second loop, with what it has got so far. -/
  | reading (n : Nat) (got : List Byte)
  /-- It has returned these bytes. -/
  | got (bytes : List Byte)

structure PipeState where
  pipe : Pipe
  /-- The call that holds `p->lock`. -/
  lock : Option Nat
  calls : Nat → PipeCall
  stored : List (Nat × Byte)
  fetched : List (Nat × Byte)

namespace PipeState

/-- The call goes on holding the lock. -/
def goOn (s : PipeState) (c : Nat) (x : PipeCall) : PipeState :=
  { s with calls := Function.update s.calls c x }

/-- The call releases the lock, to sleep or to return. -/
def release (s : PipeState) (c : Nat) (x : PipeCall) : PipeState :=
  { s with lock := none, calls := Function.update s.calls c x }

/-- `p->data[p->nwrite++ % PIPESIZE] = b`. -/
def put (s : PipeState) (c : Nat) (b : Byte) : PipeState :=
  { s with
    pipe := { s.pipe with
      data := Function.update s.pipe.data (slot pipesize s.pipe.nwrite) b
      nwrite := s.pipe.nwrite + 1 }
    stored := s.stored ++ [(c, b)] }

/-- The byte at `p->data[p->nread % PIPESIZE]`. -/
def next (s : PipeState) : Byte := s.pipe.data (slot pipesize s.pipe.nread)

def take (s : PipeState) (c : Nat) : PipeState :=
  { s with
    pipe := { s.pipe with nread := s.pipe.nread + 1 }
    fetched := s.fetched ++ [(c, s.next)] }

end PipeState

/-- A turn of the loop of `pipewrite`. -/
def pipewriteTurn (s : PipeState) (c : Nat) (addr : List Byte) (i : Nat) (killed : Bool) :
    PipeState :=
  match addr[i]? with
  | none => s.release c (.wrote addr i)
  | some b =>
    if s.pipe.nwrite = s.pipe.nread + BitVec.ofNat 32 pipesize then
      if s.pipe.readopen = false ∨ killed then s.release c (.wrote addr i)
      else s.release c (.writing addr i)
    else (s.put c b).goOn c (.writing addr (i + 1))

/-- A turn of the first loop of `piperead`. -/
def pipereadWait (s : PipeState) (c n : Nat) (killed : Bool) : PipeState :=
  if s.pipe.nread = s.pipe.nwrite ∧ s.pipe.writeopen then
    if killed then s.release c (.got []) else s.release c (.waiting n)
  else s.goOn c (.reading n [])

/-- A turn of the second loop. -/
def pipereadTurn (s : PipeState) (c n : Nat) (got : List Byte) : PipeState :=
  if got.length < n ∧ s.pipe.nread ≠ s.pipe.nwrite then
    (s.take c).goOn c (.reading n (got ++ [s.next]))
  else s.release c (.got got)

inductive PipeAct
  | write (c : Nat) (addr : List Byte)
  | read (c n : Nat)
  /-- A sleeping call takes the lock again. -/
  | wake (c : Nat)
  /-- The call that holds the lock goes on; `killed` is `myproc()->killed`. -/
  | turn (c : Nat) (killed : Bool)
  /-- `pipeclose` of one end. -/
  | close (writable : Bool)

def pipeStep (s : PipeState) : PipeAct → Option PipeState
  | .write c addr =>
    match s.lock, s.calls c with
    | none, .fresh => some { s.goOn c (.writing addr 0) with lock := some c }
    | _, _ => none
  | .read c n =>
    match s.lock, s.calls c with
    | none, .fresh => some { s.goOn c (.waiting n) with lock := some c }
    | _, _ => none
  | .wake c =>
    match s.lock, s.calls c with
    | none, .writing _ _ => some { s with lock := some c }
    | none, .waiting _ => some { s with lock := some c }
    | _, _ => none
  | .turn c killed =>
    if s.lock = some c then
      match s.calls c with
      | .writing addr i => some (pipewriteTurn s c addr i killed)
      | .waiting n => some (pipereadWait s c n killed)
      | .reading n got => some (pipereadTurn s c n got)
      | _ => none
    else none
  | .close writable =>
    if s.lock = none then
      some { s with pipe :=
        if writable then { s.pipe with writeopen := false }
        else { s.pipe with readopen := false } }
    else none

end Xv6
