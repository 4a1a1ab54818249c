/-
Open files and pipes: `file.c` and `pipe.c`.

A pipe lives in a page of its own, and its fields are words of that page.  The bytes that
go through it are not modelled, nor are the locks: an operation runs to its end.  Of an
inode a file keeps nothing here.
-/
import Os.Xv6.Kalloc

namespace Xv6

variable {M : Machine}

inductive FileType
  | none
  | pipe
  | inode
  deriving DecidableEq

structure File (M : Machine) where
  type : FileType
  ref : Nat
  readable : Bool
  writable : Bool
  pipe : Option (Ppn M)

/-- `ftable.file`. -/
abbrev Ftable (M : Machine) := FileIdx → File M

/-! ### `struct pipe` -/

/-- The lock takes 13 words and the data 128. -/
def pipeNread : Fin nptentries := 141
def pipeNwrite : Fin nptentries := 142
def pipeReadopen : Fin nptentries := 143
def pipeWriteopen : Fin nptentries := 144

/-! ### `file.c` -/

/-- Takes the first file that nobody refers to. -/
def filealloc (files : Ftable M) : Option (FileIdx × Ftable M) :=
  ((List.finRange nfile).find? fun f => (files f).ref = 0).map fun f =>
    (f, Function.update files f { files f with ref := 1 })

def filedup (files : Ftable M) (f : FileIdx) : Option (Ftable M) :=
  if (files f).ref < 1 then none
  else some (Function.update files f { files f with ref := (files f).ref + 1 })

def pipeclose (K : Linker M) (m : Kmem M) (p : Ppn M) (writable : Bool) : Option (Kmem M) :=
  let m := m.store (p, if writable then pipeWriteopen else pipeReadopen) 0
  if m.load (p, pipeReadopen) = 0 ∧ m.load (p, pipeWriteopen) = 0 then kfree K m p else some m

/-- Gives up one reference, and the pipe end with the last one. -/
def fileclose (K : Linker M) (m : Kmem M) (files : Ftable M) (f : FileIdx) :
    Option (Kmem M × Ftable M) :=
  if (files f).ref < 1 then none
  else if 0 < (files f).ref - 1 then
    some (m, Function.update files f { files f with ref := (files f).ref - 1 })
  else
    let ff := files f
    let files := Function.update files f { files f with ref := 0, type := .none }
    if ff.type = .pipe then
      match ff.pipe with
      | none => none
      | some p => (pipeclose K m p ff.writable).map fun m => (m, files)
    else some (m, files)

/-! ### `pipe.c` -/

/-- A pipe and its two ends; an inner `none` is the result -1. -/
def pipealloc (K : Linker M) (m : Kmem M) (files : Ftable M) :
    Option (Option (FileIdx × FileIdx) × Kmem M × Ftable M) :=
  match filealloc files with
  | none => some (none, m, files)
  | some (f0, files) =>
    match filealloc files with
    | none => (fileclose K m files f0).map fun r => (none, r)
    | some (f1, files) =>
      match kalloc m with
      | (none, m) => do
        let (m, files) ← fileclose K m files f0
        let r ← fileclose K m files f1
        some (none, r)
      | (some p, m) =>
        let m := m.store (p, pipeReadopen) 1
        let m := m.store (p, pipeWriteopen) 1
        let m := m.store (p, pipeNwrite) 0
        let m := m.store (p, pipeNread) 0
        let files := Function.update files f0
          { files f0 with type := .pipe, readable := true, writable := false, pipe := some p }
        let files := Function.update files f1
          { files f1 with type := .pipe, readable := false, writable := true, pipe := some p }
        some (some (f0, f1), m, files)

end Xv6
