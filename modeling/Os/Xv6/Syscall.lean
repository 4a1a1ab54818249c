/-
Arguments of system calls and the calls themselves: `syscall.c`, `sysproc.c`, `sysfile.c`.

An argument is read from the user stack through the page table of the process, by the
kernel, and may fault.  The only protection is that an address is compared with the size
of the process.
-/
import Os.Xv6.Exec
import Os.Xv6.Kernel

namespace Xv6

variable {M : Machine}

/-! ### `syscall.c`

A result -1 is an inner `none`. -/

def fetchint (m : Kmem M) (p : Proc M) (addr : Word) : Option (Option Word × Kmem M) :=
  if p.sz ≤ addr ∨ p.sz < addr + 4 then some (none, m)
  else p.pgdir.bind fun d => (kloadWord m d addr).map fun r => (some r.1, r.2)

/-- The characters from `s` on, up to the terminating zero. -/
def fetchstrLoop (d : Ppn M) : Nat → Kmem M → Word → Option (Option (List Byte) × Kmem M)
  | 0, m, _ => some (none, m)
  | n + 1, m, s =>
    match kload m d s with
    | none => none
    | some (b, m) =>
      if b = 0 then some (some [], m)
      else (fetchstrLoop d n m (s + 1)).map fun r => (r.1.map (b :: ·), r.2)

def fetchstr (m : Kmem M) (p : Proc M) (addr : Word) : Option (Option (List Byte) × Kmem M) :=
  if p.sz ≤ addr then some (none, m)
  else p.pgdir.bind fun d => fetchstrLoop d (p.sz - addr).toNat m addr

def argint (m : Kmem M) (p : Proc M) (n : Word) : Option (Option Word × Kmem M) :=
  fetchint m p (p.tf.esp + 4 + 4 * n)

def argptr (m : Kmem M) (p : Proc M) (n size : Word) : Option (Option Word × Kmem M) :=
  match argint m p n with
  | none => none
  | some (none, m) => some (none, m)
  | some (some i, m) =>
    if size.slt 0 ∨ p.sz ≤ i ∨ p.sz < i + size then some (none, m) else some (some i, m)

def argstr (m : Kmem M) (p : Proc M) (n : Word) : Option (Option (List Byte) × Kmem M) :=
  match argint m p n with
  | none => none
  | some (none, m) => some (none, m)
  | some (some addr, m) => fetchstr m p addr

/-! ### `sysproc.c` -/

/-- `sys_sbrk` with its argument. -/
def sysSbrkCall (s : Kernel M) (cur : ProcIdx) : Option (Word × Kernel M) :=
  match argint s.km (s.procs cur) 0 with
  | none => none
  | some (none, m) => some (-1, { s with km := m })
  | some (some n, m) =>
    some ((sysSbrk (s.procs cur) n).1, { s with km := m }.setProc cur (sysSbrk (s.procs cur) n).2)

/-! ### `sysfile.c` -/

def argfd (m : Kmem M) (p : Proc M) (n : Word) : Option (Option (Fd × FileIdx) × Kmem M) :=
  match argint m p n with
  | none => none
  | some (none, m) => some (none, m)
  | some (some fd, m) =>
    if h : fd.toNat < nofile then some ((p.ofile ⟨fd.toNat, h⟩).map fun f => (⟨fd.toNat, h⟩, f), m)
    else some (none, m)

/-- Takes the first free descriptor. -/
def fdalloc (p : Proc M) (f : FileIdx) : Option (Fd × Proc M) :=
  ((List.finRange nofile).find? fun fd => (p.ofile fd).isNone).map fun fd =>
    (fd, { p with ofile := Function.update p.ofile fd (some f) })

def sysClose (K : Linker M) (s : Kernel M) (cur : ProcIdx) : Option (Word × Kernel M) :=
  match argfd s.km (s.procs cur) 0 with
  | none => none
  | some (none, m) => some (-1, { s with km := m })
  | some (some (fd, f), m) =>
    let p := s.procs cur
    (fileclose K m s.files f).map fun r =>
      (0, { s with km := r.1, files := r.2 }.setProc cur
        { p with ofile := Function.update p.ofile fd none })

/-- Closes both ends of a pipe that has found no descriptors. -/
def closeBoth (K : Linker M) (s : Kernel M) (rf wf : FileIdx) : Option (Word × Kernel M) := do
  let (m, files) ← fileclose K s.km s.files rf
  let (m, files) ← fileclose K m files wf
  some (-1, { s with km := m, files := files })

def sysPipe (K : Linker M) (s : Kernel M) (cur : ProcIdx) : Option (Word × Kernel M) :=
  match argptr s.km (s.procs cur) 0 8 with
  | none => none
  | some (none, m) => some (-1, { s with km := m })
  | some (some ptr, m) =>
    match pipealloc K m s.files with
    | none => none
    | some (none, m, files) => some (-1, { s with km := m, files := files })
    | some (some (rf, wf), m, files) =>
      let s := { s with km := m, files := files }
      match fdalloc (s.procs cur) rf with
      | none => closeBoth K s rf wf
      | some (fd0, p) =>
        match fdalloc p wf with
        | none =>
          closeBoth K (s.setProc cur { p with ofile := Function.update p.ofile fd0 none }) rf wf
        | some (fd1, p) =>
          p.pgdir.bind fun d =>
            (kstores d m ptr (wordBytes (BitVec.ofNat 32 fd0.val)
              ++ wordBytes (BitVec.ofNat 32 fd1.val))).map fun m =>
              (0, { s with km := m }.setProc cur p)

/-- The loop of `sys_exec` over `argv`; `n` is the room that is left. -/
def fetchArgv (p : Proc M) : Nat → Kmem M → Word → Option (Option (List (List Byte)) × Kmem M)
  | 0, m, _ => some (none, m)
  | n + 1, m, uargv =>
    match fetchint m p uargv with
    | none => none
    | some (none, m) => some (none, m)
    | some (some uarg, m) =>
      if uarg = 0 then some (some [], m)
      else
        match fetchstr m p uarg with
        | none => none
        | some (none, m) => some (none, m)
        | some (some str, m) =>
          (fetchArgv p n m (uargv + 4)).map fun r => (r.1.map (str :: ·), r.2)

/-- The arguments of `exec`: the path and `argv`. -/
def execArgs (m : Kmem M) (p : Proc M) : Option (Option (List Byte × List (List Byte)) × Kmem M) :=
  match argstr m p 0 with
  | none => none
  | some (none, m) => some (none, m)
  | some (some path, m) =>
    match argint m p 1 with
    | none => none
    | some (none, m) => some (none, m)
    | some (some uargv, m) =>
      (fetchArgv p maxarg m uargv).map fun r => (r.1.map fun argv => (path, argv), r.2)

/-- `fs` gives the contents of the file at a path. -/
def sysExec (K : Linker M) (fs : List Byte → Option (List Byte)) (s : Kernel M) (cur : ProcIdx) :
    Option (Word × Kernel M) :=
  match execArgs s.km (s.procs cur) with
  | none => none
  | some (none, m) => some (-1, { s with km := m })
  | some (some (path, argv), m) =>
    (exec K m (s.procs cur) (fs path) path argv).map fun r =>
      (if r.1 then 0 else -1, { s with km := r.2.1 }.setProc cur r.2.2)

end Xv6
