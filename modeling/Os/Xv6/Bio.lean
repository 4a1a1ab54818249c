/-
The buffer cache: `bio.c`, with what `log_write`, `iderw` and `ideintr` do to a buffer.

Every critical section of `bcache.lock` is one action.  A use of a buffer goes from the call
of `bread` to the end of `brelse`; there are any number of them, and a process may have
several.  Sleep locks are taken and released one at a time, and the disk serves its requests
in any order.  The documented discipline is that whoever changes the data calls `bwrite` or
`log_write` before `brelse`.

What a block holds is of any type.  `stored` records what was last stored for a block, and
`returns` what the calls of `bread` returned together with what was stored then.
-/
import Os.Lib.Dlist
import Os.Xv6.Layout
import Os.Xv6.Log

namespace Xv6

open Dlist (scan unlink pushFront)

def rootdev : Word := 1

/-- An address of `bcache.buf`, or `none` for `bcache.head`. -/
abbrev BufPtr := Option (Fin nbuf)

/-- `dev` and `blockno`. -/
abbrev BlockAddr := Word × Word

/-- `struct buf` without its links. -/
structure Buf (D : Type) (n : Nat) where
  valid : Bool
  dirty : Bool
  addr : BlockAddr
  /-- The use that holds the sleep lock. -/
  lock : Option (Fin n)
  refcnt : Nat
  data : D

/-- Where a use of a buffer is. -/
inductive BufUse
  | idle
  /-- Past `bget`'s critical section, at `acquiresleep`. -/
  | waiting (b : Fin nbuf) (a : BlockAddr)
  /-- In `iderw`, called by `bread`. -/
  | reading (b : Fin nbuf) (a : BlockAddr)
  /-- `bread` has returned.  `changed`: the data was changed since it was last stored. -/
  | holding (b : Fin nbuf) (changed : Bool)
  /-- In `iderw`, called by `bwrite`. -/
  | writing (b : Fin nbuf)
  /-- In `brelse`, past `releasesleep`. -/
  | releasing (b : Fin nbuf)
  deriving DecidableEq

structure Bcache (D : Type) (n : Nat) where
  next : BufPtr → BufPtr
  prev : BufPtr → BufPtr
  bufs : Fin nbuf → Buf D n
  disk : BlockAddr → D
  uses : Fin n → BufUse
  stored : BlockAddr → D
  returns : List (BlockAddr × D × D)

variable {D : Type} {n : Nat}

namespace Bcache

def setBuf (s : Bcache D n) (b : Fin nbuf) (x : Buf D n) : Bcache D n :=
  { s with bufs := Function.update s.bufs b x }

def setUse (s : Bcache D n) (h : Fin n) (u : BufUse) : Bcache D n :=
  { s with uses := Function.update s.uses h u }

/-- The data of the buffer is stored for its block. -/
def store (s : Bcache D n) (b : Fin nbuf) : Bcache D n :=
  { s with stored := Function.update s.stored (s.bufs b).addr (s.bufs b).data }

/-- `bread` of the block at `a` returns the buffer. -/
def returned (s : Bcache D n) (h : Fin n) (b : Fin nbuf) (a : BlockAddr) : Bcache D n :=
  { s.setUse h (.holding b false) with
    returns := (a, (s.bufs b).data, s.stored a) :: s.returns }

end Bcache

/-- The loop of `binit`. -/
def binitLinks : (BufPtr → BufPtr) × (BufPtr → BufPtr) :=
  (List.finRange nbuf).foldl (fun r b => pushFront r.1 r.2 none (some b))
    (fun _ => none, fun _ => none)

/-- After `binit`; nobody has set the other fields of a buffer. -/
def binit (data : Fin nbuf → D) (disk : BlockAddr → D) : Bcache D n where
  next := binitLinks.1
  prev := binitLinks.2
  bufs := fun b => ⟨false, false, (0, 0), none, 0, data b⟩
  disk := disk
  uses := fun _ => .idle
  stored := disk
  returns := []

/-- Is the block already cached? -/
def cached (s : Bcache D n) (a : BlockAddr) : Option (Option BufPtr) :=
  scan s.next none (Option.any fun b => (s.bufs b).addr = a) (nbuf + 1) (s.next none)

/-- A buffer that can be recycled. -/
def recyclable (s : Bcache D n) : Option (Option BufPtr) :=
  scan s.prev none (Option.any fun b => (s.bufs b).refcnt = 0 ∧ (s.bufs b).dirty = false)
    (nbuf + 1) (s.prev none)

/-- The critical section of `bget`; `none` for the panic. -/
def bget (s : Bcache D n) (h : Fin n) (a : BlockAddr) : Option (Bcache D n) :=
  match cached s a with
  | some (some (some b)) =>
    some ((s.setBuf b { s.bufs b with refcnt := (s.bufs b).refcnt + 1 }).setUse h (.waiting b a))
  | some none =>
    match recyclable s with
    | some (some (some b)) =>
      some ((s.setBuf b
        { s.bufs b with addr := a, valid := false, dirty := false, refcnt := 1 }).setUse
        h (.waiting b a))
    | _ => none
  | _ => none

/-- `acquiresleep`; then `bread` returns the buffer, or has it read. -/
def bread (s : Bcache D n) (h : Fin n) : Option (Bcache D n) :=
  match s.uses h with
  | .waiting b a =>
    if (s.bufs b).lock = none then
      if (s.bufs b).valid then
        some ((s.setBuf b { s.bufs b with lock := some h }).returned h b a)
      else
        some ((s.setBuf b { s.bufs b with lock := some h }).setUse h (.reading b a))
    else none
  | _ => none

/-- What the disk does with a buffer, by its flags. -/
def ideDone (s : Bcache D n) (b : Fin nbuf) : Bcache D n :=
  if (s.bufs b).dirty then
    { s.setBuf b { s.bufs b with valid := true, dirty := false } with
      disk := Function.update s.disk (s.bufs b).addr (s.bufs b).data }
  else s.setBuf b { s.bufs b with valid := true, data := s.disk (s.bufs b).addr }

/-- `ideintr` for the request of a use, and the end of its `iderw`. -/
def ideintr (s : Bcache D n) (h : Fin n) : Option (Bcache D n) :=
  match s.uses h with
  | .reading b a => some ((ideDone s b).returned h b a)
  | .writing b => some ((ideDone s b).setUse h (.holding b false))
  | _ => none

/-- `bwrite`, up to the request to the disk. -/
def bwrite (s : Bcache D n) (h : Fin n) : Option (Bcache D n) :=
  match s.uses h with
  | .holding b _ =>
    some (((s.store b).setBuf b { s.bufs b with dirty := true }).setUse h (.writing b))
  | _ => none

def logWriteBuf (s : Bcache D n) (h : Fin n) : Option (Bcache D n) :=
  match s.uses h with
  | .holding b _ =>
    some (((s.store b).setBuf b { s.bufs b with dirty := true }).setUse h (.holding b false))
  | _ => none

/-- The holder writes to the data. -/
def modifyBuf (s : Bcache D n) (h : Fin n) (d : D) : Option (Bcache D n) :=
  match s.uses h with
  | .holding b _ => some ((s.setBuf b { s.bufs b with data := d }).setUse h (.holding b true))
  | _ => none

/-- `brelse` up to `releasesleep`. -/
def unlockBuf (s : Bcache D n) (h : Fin n) : Option (Bcache D n) :=
  match s.uses h with
  | .holding b false => some ((s.setBuf b { s.bufs b with lock := none }).setUse h (.releasing b))
  | _ => none

/-- The buffer goes to the head of the list. -/
def Bcache.moveFront (s : Bcache D n) (b : Fin nbuf) : Bcache D n :=
  { s with
    next := (pushFront (unlink s.next s.prev (some b)).1 (unlink s.next s.prev (some b)).2 none
      (some b)).1
    prev := (pushFront (unlink s.next s.prev (some b)).1 (unlink s.next s.prev (some b)).2 none
      (some b)).2 }

/-- The critical section of `brelse`. -/
def brelse (s : Bcache D n) (h : Fin n) : Option (Bcache D n) :=
  match s.uses h with
  | .releasing b =>
    if (s.bufs b).refcnt - 1 = 0 then
      some (((s.setBuf b { s.bufs b with refcnt := (s.bufs b).refcnt - 1 }).moveFront b).setUse
        h .idle)
    else
      some ((s.setBuf b { s.bufs b with refcnt := (s.bufs b).refcnt - 1 }).setUse h .idle)
  | _ => none

inductive BioAct (D : Type) (n : Nat)
  | bget (h : Fin n) (a : BlockAddr)
  | bread (h : Fin n)
  | ideintr (h : Fin n)
  | modify (h : Fin n) (d : D)
  | bwrite (h : Fin n)
  | logWrite (h : Fin n)
  | unlock (h : Fin n)
  | brelse (h : Fin n)

def bioStep (s : Bcache D n) : BioAct D n → Option (Bcache D n)
  | .bget h a => if s.uses h = .idle then bget s h a else none
  | .bread h => bread s h
  | .ideintr h => ideintr s h
  | .modify h d => modifyBuf s h d
  | .bwrite h => bwrite s h
  | .logWrite h => logWriteBuf s h
  | .unlock h => unlockBuf s h
  | .brelse h => brelse s h

end Xv6
