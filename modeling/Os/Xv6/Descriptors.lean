/-
File descriptors: what the system calls of `sysfile.c` and `proc.c` do to `ofile`, to the
table of open files and to the pages of pipes.

The arguments have been fetched: a descriptor is any word.  Of `open` only what comes after
the lookup of the path is here, of `fork` and `exit` only what they do to descriptors.
The rest of the kernel takes pages from the allocator, writes to the pages it has taken and
gives them back, at any time; before `kinit1` it has all of them.

Pipes are numbered in the order in which they are made.  `owner`, `pipeNo`, `made` and
`freed` record which pipe a page or a file belongs to and which pipes have had their page
freed.  That a page has been freed is seen from the free list.  No step looks at a record.
-/
import Os.Xv6.System

namespace Xv6

variable {M : Machine}

structure FileSys (M : Machine) where
  km : Kmem M
  files : Ftable M
  procs : ProcIdx → Proc M
  /-- The pages in the hands of the rest of the kernel. -/
  others : Ppn M → Bool
  /-- How many pipes have been made. -/
  made : Nat
  /-- The pipe that was last made in a page. -/
  owner : Ppn M → Nat
  /-- The pipe that a file was last an end of. -/
  pipeNo : FileIdx → Nat
  /-- The pipes whose page has been freed, the last one first. -/
  freed : List Nat

namespace FileSys

def setFds (s : FileSys M) (k : ProcIdx) (ofile : Fd → Option FileIdx) : FileSys M :=
  { s with procs := Function.update s.procs k { s.procs k with ofile := ofile } }

def setFd (s : FileSys M) (k : ProcIdx) (fd : Fd) (x : Option FileIdx) : FileSys M :=
  s.setFds k (Function.update (s.procs k).ofile fd x)

def setState (s : FileSys M) (k : ProcIdx) (st : ProcState) : FileSys M :=
  { s with procs := Function.update s.procs k { s.procs k with state := st } }

/-- What an operation leaves in memory and in the table of files; a page that has come to
the head of the free list has been freed. -/
def leave (s : FileSys M) (m : Kmem M) (files : Ftable M) : FileSys M :=
  { s with
    km := m
    files := files
    freed := match m.freelist with
      | some p => if s.km.freelist = some p then s.freed else s.owner p :: s.freed
      | none => s.freed }

end FileSys

/-- `fileclose`. -/
def closeFile (K : Linker M) (s : FileSys M) (f : FileIdx) : Option (FileSys M) :=
  (fileclose K s.km s.files f).map fun r => s.leave r.1 r.2

/-- `argfd`, when the argument has been fetched. -/
def lookupFd (p : Proc M) (fd : Word) : Option (Fd × FileIdx) :=
  if h : fd.toNat < nofile then (p.ofile ⟨fd.toNat, h⟩).map fun f => (⟨fd.toNat, h⟩, f) else none

def sysDup (s : FileSys M) (k : ProcIdx) (fd : Word) : Option (FileSys M) :=
  match lookupFd (s.procs k) fd with
  | none => some s
  | some (_, f) =>
    match fdalloc (s.procs k) f with
    | none => some s
    | some (_, p) => (filedup s.files f).map fun files => { s with files := files }.setFds k p.ofile

/-- `dup2` closes the file that the new descriptor refers to. -/
def closeOld (K : Linker M) (s : FileSys M) (k : ProcIdx) (fd : Fd) : Option (FileSys M) :=
  match (s.procs k).ofile fd with
  | none => some s
  | some f2 => closeFile K s f2

/-- It writes the new descriptor and counts the reference. -/
def dupTo (s : FileSys M) (k : ProcIdx) (fd : Fd) (f1 : FileIdx) : Option (FileSys M) :=
  (filedup s.files f1).map fun files => { s.setFd k fd (some f1) with files := files }

def sysDup2 (K : Linker M) (s : FileSys M) (k : ProcIdx) (old new : Word) : Option (FileSys M) :=
  match lookupFd (s.procs k) old with
  | none => some s
  | some (fd, f1) =>
    if h : new.toNat < nofile then
      if (⟨new.toNat, h⟩ : Fd) = fd then some s
      else (closeOld K s k ⟨new.toNat, h⟩).bind fun s => dupTo s k ⟨new.toNat, h⟩ f1
    else some s

def sysCloseFd (K : Linker M) (s : FileSys M) (k : ProcIdx) (fd : Word) : Option (FileSys M) :=
  match lookupFd (s.procs k) fd with
  | none => some s
  | some (fd, f) => closeFile K (s.setFd k fd none) f

/-- What `open` writes to the file it has allocated. -/
def File.opened (f : File M) (readable writable : Bool) : File M :=
  { f with type := .inode, readable := readable, writable := writable }

/-- `open` of a path that leads to an inode. -/
def sysOpenFd (K : Linker M) (s : FileSys M) (k : ProcIdx) (readable writable : Bool) :
    Option (FileSys M) :=
  match filealloc s.files with
  | none => some s
  | some (f, files) =>
    match fdalloc (s.procs k) f with
    | none => closeFile K { s with files := files } f
    | some (_, p) =>
      let files := Function.update files f ((files f).opened readable writable)
      some ({ s with files := files }.setFds k p.ofile)

/-- Both ends of a pipe that has found no descriptors are closed. -/
def closeEnds (K : Linker M) (s : FileSys M) (rf wf : FileIdx) : Option (FileSys M) :=
  (closeFile K s rf).bind fun s => closeFile K s wf

/-- A new pipe gets its number. -/
def FileSys.makePipe (s : FileSys M) (m : Kmem M) (files : Ftable M) (rf wf : FileIdx) :
    FileSys M :=
  { s with
    km := m
    files := files
    made := s.made + 1
    owner := match (files rf).pipe with
      | some p => Function.update s.owner p s.made
      | none => s.owner
    pipeNo := Function.update (Function.update s.pipeNo rf s.made) wf s.made }

def sysPipeFds (K : Linker M) (s : FileSys M) (k : ProcIdx) : Option (FileSys M) :=
  match pipealloc K s.km s.files with
  | none => none
  | some (none, m, files) => some (s.leave m files)
  | some (some (rf, wf), m, files) =>
    match fdalloc (s.procs k) rf with
    | none => closeEnds K (s.makePipe m files rf wf) rf wf
    | some (fd0, p) =>
      match fdalloc p wf with
      | none =>
        closeEnds K ((s.makePipe m files rf wf).setFds k (Function.update p.ofile fd0 none)) rf wf
      | some (_, p) => some ((s.makePipe m files rf wf).setFds k p.ofile)

/-- `fork` into the slot `np`: the loop over the open files. -/
def forkFds (s : FileSys M) (k np : ProcIdx) : Option (FileSys M) :=
  ((List.finRange nofile).foldlM (forkFile (s.procs k)) (s.files, (s.procs np).ofile)).map fun r =>
    ({ s with files := r.1 }.setFds np r.2).setState np .runnable

/-- A turn of the loop of `exit` over the open files. -/
def exitTurn (K : Linker M) (k : ProcIdx) (s : FileSys M) (fd : Fd) : Option (FileSys M) :=
  match (s.procs k).ofile fd with
  | none => some s
  | some f => (closeFile K s f).map fun s => s.setFd k fd none

def exitFds (K : Linker M) (s : FileSys M) (k : ProcIdx) : Option (FileSys M) :=
  ((List.finRange nofile).foldlM (exitTurn K k) s).map fun s => s.setState k .zombie

inductive FileAct (M : Machine)
  | openInode (k : ProcIdx) (readable writable : Bool)
  | dup (k : ProcIdx) (fd : Word)
  | dup2 (k : ProcIdx) (old new : Word)
  | pipe (k : ProcIdx)
  | close (k : ProcIdx) (fd : Word)
  | fork (k np : ProcIdx)
  | exit (k : ProcIdx)
  /-- The parent reaps the process. -/
  | reap (k : ProcIdx)
  /-- The rest of the kernel takes a page, gives one back, or writes to one it has. -/
  | take
  | give (p : Ppn M)
  | write (p : Ppn M) (f : Fin nptentries → Word)

/-- `kalloc` by the rest of the kernel. -/
def takePage (s : FileSys M) : FileSys M :=
  match kalloc s.km with
  | (none, m) => { s with km := m }
  | (some p, m) => { s with km := m, others := Function.update s.others p true }

/-- A system call is made by a process that can run.  A call that fails before it touches a
descriptor or a page is not an action. -/
def fileStep (K : Linker M) (s : FileSys M) : FileAct M → Option (FileSys M)
  | .openInode k r w => if (s.procs k).Ready then sysOpenFd K s k r w else none
  | .dup k fd => if (s.procs k).Ready then sysDup s k fd else none
  | .dup2 k old new => if (s.procs k).Ready then sysDup2 K s k old new else none
  | .pipe k => if (s.procs k).Ready then sysPipeFds K s k else none
  | .close k fd => if (s.procs k).Ready then sysCloseFd K s k fd else none
  | .fork k np =>
    if (s.procs k).Ready ∧ (s.procs np).state = .unused then forkFds s k np else none
  | .exit k => if (s.procs k).Ready then exitFds K s k else none
  | .reap k => if (s.procs k).state = .zombie then some (s.setState k .unused) else none
  | .take => some (takePage s)
  | .give p =>
    if s.others p then
      (kfree K s.km p).map fun m =>
        { s with km := m, others := Function.update s.others p false }
    else none
  | .write p f => if s.others p then some { s with km := s.km.fill p f } else none

/-- Before `kinit1`, with the first process ready to run. -/
def fileStart (K : Linker M) (mem : Ppn M → Fin nptentries → Word) : FileSys M where
  km := ⟨mem, none⟩
  files := fun _ => ⟨.none, 0, false, false, none⟩
  procs := Function.update (fun _ => unusedProc) 0 { unusedProc with state := .runnable }
  others := fun p => decide (K.endPage ≤ p.val)
  made := 0
  owner := fun _ => 0
  pipeNo := fun _ => 0
  freed := []

end Xv6
