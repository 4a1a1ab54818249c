/-
The process table: `proc.c`.

An operation runs to its end, so the locks, the scheduler and the sleeping and waking of
processes are left out.  A `wait` that has to sleep leaves everything as it is; the next
turn of its loop is the next call.

The trap frame is a field of the process here, and what else is on a kernel stack is not
modelled.
-/
import Os.Xv6.File
import Os.Xv6.Proc

namespace Xv6

variable {M : Machine}

structure Kernel (M : Machine) where
  km : Kmem M
  /-- The page table of the scheduler. -/
  kpgdir : Ppn M
  procs : ProcIdx → Proc M
  files : Ftable M
  initproc : ProcIdx
  nextpid : Word

def Kernel.setProc (s : Kernel M) (k : ProcIdx) (p : Proc M) : Kernel M :=
  { s with procs := Function.update s.procs k p }

/-- A slot and a kernel stack for a new process; without a stack the slot is given up. -/
def allocproc (s : Kernel M) : Option ProcIdx × Kernel M :=
  match (List.finRange nproc).find? fun k => (s.procs k).state = .unused with
  | none => (none, s)
  | some k =>
    match kalloc s.km with
    | (none, m) =>
      (none, { s with km := m, nextpid := s.nextpid + 1 }.setProc k
        { s.procs k with state := .unused, pid := s.nextpid, kstack := none })
    | (some kstack, m) =>
      (some k, { s with km := m, nextpid := s.nextpid + 1 }.setProc k
        { s.procs k with state := .embryo, pid := s.nextpid, kstack := some kstack })

/-- One turn of the loop of `fork` over the open files. -/
def forkFile (p : Proc M) (r : Ftable M × (Fd → Option FileIdx)) (fd : Fd) :
    Option (Ftable M × (Fd → Option FileIdx)) :=
  match p.ofile fd with
  | none => some r
  | some f => (filedup r.1 f).map fun files => (files, Function.update r.2 fd (some f))

/-- The child that `fork` makes of an embryo. -/
def forkChild (np curproc : Proc M) (cur : ProcIdx) (d : Ppn M) (ofile : Fd → Option FileIdx) :
    Proc M :=
  { np with
    pgdir := some d
    sz := curproc.sz
    parent := some cur
    tf := { curproc.tf with eax := 0 }
    ofile := ofile
    name := curproc.name
    state := .runnable }

/-- The pid of the child, or -1. -/
def fork (K : Linker M) (s : Kernel M) (cur : ProcIdx) : Option (Word × Kernel M) :=
  match allocproc s with
  | (none, s) => some (-1, s)
  | (some k, s) =>
    match (s.procs cur).pgdir with
    | none => none
    | some pgdir =>
      match copyuvm K s.km pgdir (s.procs cur).sz with
      | none => none
      | some (none, m) =>
        match (s.procs k).kstack with
        | none => none
        | some kstack => (kfree K m kstack).map fun m =>
          (-1, { s with km := m }.setProc k
            { s.procs k with pgdir := none, kstack := none, state := .unused })
      | some (some d, m) =>
        ((List.finRange nofile).foldlM (forkFile (s.procs cur)) (s.files, (s.procs k).ofile)).map
          fun r => ((s.procs k).pid, { s with km := m, files := r.1 }.setProc k
            (forkChild (s.procs k) (s.procs cur) cur d r.2))

/-- One turn of the loop of `exit` over the open files. -/
def exitFile (K : Linker M) (r : Kmem M × Ftable M × (Fd → Option FileIdx)) (fd : Fd) :
    Option (Kmem M × Ftable M × (Fd → Option FileIdx)) :=
  match r.2.2 fd with
  | none => some r
  | some f => (fileclose K r.1 r.2.1 f).map fun r' => (r'.1, r'.2, Function.update r.2.2 fd none)

/-- Abandoned children go to `init`. -/
def Kernel.orphaned (s : Kernel M) (cur k : ProcIdx) : Proc M :=
  if (s.procs k).parent = some cur then { s.procs k with parent := some s.initproc } else s.procs k

/-- Closes the files of the process and makes it a zombie. -/
def exit (K : Linker M) (s : Kernel M) (cur : ProcIdx) : Option (Kernel M) :=
  -- panic: init exiting
  if cur = s.initproc then none
  else
    ((List.finRange nofile).foldlM (exitFile K) (s.km, s.files, (s.procs cur).ofile)).map fun r =>
      { s with km := r.1, files := r.2.1, procs := s.orphaned cur }.setProc cur
        { s.orphaned cur cur with ofile := r.2.2, state := .zombie }

/-- What `wait` leaves of a process it has found. -/
def reaped (p : Proc M) : Proc M :=
  { p with kstack := none, pid := 0, parent := none, name := [], killed := false, state := .unused }

/-- Reaps a child that has exited.  An inner `none` is a `wait` that sleeps. -/
def wait (K : Linker M) (s : Kernel M) (cur : ProcIdx) : Option (Option Word × Kernel M) :=
  match (List.finRange nproc).find? fun k =>
      (s.procs k).parent = some cur ∧ (s.procs k).state = .zombie with
  | some k =>
    match (s.procs k).kstack, (s.procs k).pgdir with
    | some kstack, some pgdir => do
      let m ← kfree K s.km kstack
      let m ← freevm K m pgdir
      some (some (s.procs k).pid, { s with km := m }.setProc k (reaped (s.procs k)))
    | _, _ => none
  | none =>
    if (∀ k, (s.procs k).parent ≠ some cur) ∨ (s.procs cur).killed then some (some (-1), s)
    else some (none, s)

end Xv6
