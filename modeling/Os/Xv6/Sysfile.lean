/-
The system calls on files.

A path argument is `none` where `argstr` fails.  What a call needs from the rest of the kernel is
an argument of it: whether `fdalloc` finds a descriptor, what reading and writing a file gives,
whether a device has a driver.  An open file that several descriptors share is closed by the last
of them.  What is left out of `exit` is its loop over the descriptors: each turn is a `close`.
-/
import Os.Xv6.Inode

namespace Xv6

variable {n : Nat}

/-! ### Links -/

/-- The end of `sys_link` where the new name cannot be entered. -/
def linkBad (ip : InodePtr) : FsM n Bool := do
  ilock ip
  iupdate ip (addLinks (-1))
  iunlockput ip
  fsEndOp
  return false

/-- `sys_link` from the locked parent of the new name on. -/
def linkIn (ip dp : InodePtr) (name : Name) : FsM n Bool := do
  let s ← get
  if (s.icache dp).dev ≠ (s.icache ip).dev then do
    iunlockput dp
    linkBad ip
  else if ← dirlink dp name (s.icache ip).inum then do
    iunlockput dp
    iput ip
    fsEndOp
    return true
  else do
    iunlockput dp
    linkBad ip

/-- `sys_link` from the inode that gets the new name on. -/
def linkInode (p : Fin n) (ip : InodePtr) (new : Path) : FsM n Bool := do
  ilock ip
  let s ← get
  if (s.inodeOf ip).type = .dir then do
    iunlockput ip
    fsEndOp
    return false
  else do
    iupdate ip (addLinks 1)
    iunlock ip
    match ← nameiparent p new with
    | none => linkBad ip
    | some (dp, name) => do
      ilock dp
      linkIn ip dp name

def sysLink (p : Fin n) (old new : Option Path) : FsM n Bool :=
  match old, new with
  | some old, some new => do
    fsBeginOp
    match ← namei p old with
    | none => do
      fsEndOp
      return false
    | some ip => linkInode p ip new
  | _, _ => return false

/-! ### Unlinking -/

/-- Empty except for the first two slots. -/
def isdirempty (x : Inode) : Bool := (x.slots.drop 2).all fun d => d.inum = 0

def unlinkBad (dp : InodePtr) : FsM n Bool := do
  iunlockput dp
  fsEndOp
  return false

/-- `sys_unlink` after the entry is cleared. -/
def unlinkEnd (dp ip : InodePtr) : FsM n Bool := do
  iunlockput dp
  iupdate ip (addLinks (-1))
  iunlockput ip
  fsEndOp
  return true

/-- `sys_unlink` from the locked inode of the name on. -/
def unlinkSlot (dp ip : InodePtr) (off : Nat) : FsM n Bool := do
  let s ← get
  if (s.inodeOf ip).nlink < 1 then throw (.panic "unlink: nlink < 1")
  else if (s.inodeOf ip).type = .dir ∧ isdirempty (s.inodeOf ip) = false then do
    iunlockput ip
    unlinkBad dp
  else do
    iupdate dp fun x => { x with slots := writeSlot x.slots off ⟨0, []⟩ }
    if (s.inodeOf ip).type = .dir then do
      iupdate dp (addLinks (-1))
      unlinkEnd dp ip
    else unlinkEnd dp ip

/-- `sys_unlink` from the locked parent on. -/
def unlinkIn (dp : InodePtr) (name : Name) : FsM n Bool := do
  if name = dot ∨ name = dotdot then unlinkBad dp
  else
    match ← dirlookup dp name with
    | none => unlinkBad dp
    | some (ip, off) => do
      ilock ip
      unlinkSlot dp ip off

def sysUnlink (p : Fin n) (path : Option Path) : FsM n Bool :=
  match path with
  | none => return false
  | some path => do
    fsBeginOp
    match ← nameiparent p path with
    | none => do
      fsEndOp
      return false
    | some (dp, name) => do
      ilock dp
      unlinkIn dp name

/-! ### Creating -/

/-- The `.` and `..` of a new directory. -/
def createDots (dp ip : InodePtr) : FsM n Unit := do
  iupdate dp (addLinks 1)
  let s ← get
  if ← dirlink ip dot (s.icache ip).inum then
    if ← dirlink ip dotdot (s.icache dp).inum then return
    else throw (.panic "create dots")
  else throw (.panic "create dots")

/-- The new inode is entered in its directory. -/
def createEntry (dp ip : InodePtr) (name : Name) : FsM n (Option InodePtr) := do
  let s ← get
  if ← dirlink dp name (s.icache ip).inum then do
    iunlockput dp
    return some ip
  else throw (.panic "create: dirlink")

/-- `create` where the name is new. -/
def createNew (dp : InodePtr) (name : Name) (type : InodeType) :
    FsM n (Option InodePtr) := do
  let s ← get
  let ip ← ialloc (s.icache dp).dev type
  ilock ip
  iupdate ip fun x => { x with nlink := 1 }
  if type = .dir then do
    createDots dp ip
    createEntry dp ip name
  else createEntry dp ip name

/-- `create` where the name is there. -/
def createOld (dp ip : InodePtr) (type : InodeType) : FsM n (Option InodePtr) := do
  iunlockput dp
  ilock ip
  let s ← get
  if type = .file ∧ (s.inodeOf ip).type = .file then return some ip
  else do
    iunlockput ip
    return none

/-- The inode is returned locked. -/
def create (p : Fin n) (path : Path) (type : InodeType) : FsM n (Option InodePtr) := do
  match ← nameiparent p path with
  | none => return none
  | some (dp, name) => do
    ilock dp
    match ← dirlookup dp name with
    | some (ip, _) => createOld dp ip type
    | none => createNew dp name type

/-- `sys_mkdir` and `sys_mknod`. -/
def sysMake (p : Fin n) (path : Option Path) (type : InodeType) : FsM n Bool := do
  fsBeginOp
  match path with
  | none => do
    fsEndOp
    return false
  | some path =>
    match ← create p path type with
    | none => do
      fsEndOp
      return false
    | some ip => do
      iunlockput ip
      fsEndOp
      return true

def sysMkdir (p : Fin n) (path : Option Path) : FsM n Bool := sysMake p path .dir

/-- `args`: the device numbers could be fetched. -/
def sysMknod (p : Fin n) (path : Option Path) (args : Bool) : FsM n Bool :=
  sysMake p (if args then path else none) .dev

/-! ### Opening -/

/-- The part of `omode` that decides what is opened. -/
structure Omode where
  create : Bool
  rdonly : Bool
  deriving DecidableEq

/-- `namei` and the check that a directory is opened for reading only. -/
def openOld (p : Fin n) (path : Path) (omode : Omode) : FsM n (Option InodePtr) := do
  match ← namei p path with
  | none => return none
  | some ip => do
    ilock ip
    let s ← get
    if (s.inodeOf ip).type = .dir ∧ omode.rdonly = false then do
      iunlockput ip
      return none
    else return some ip

def openInode (p : Fin n) (path : Path) (omode : Omode) : FsM n (Option InodePtr) :=
  if omode.create then create p path .file else openOld p path omode

/-- `filealloc`. -/
def freeFile (s : Fs n) : Option FileIdx := (List.finRange nfile).find? fun f => s.file f = none

/-- The end of `sys_open`; `fd`: `fdalloc` finds a descriptor. -/
def openFile (ip : InodePtr) (fd : Bool) : FsM n (Option FileIdx) := do
  let s ← get
  match freeFile s, fd with
  | some f, true => do
    iunlock ip
    fsEndOp
    changeFs fun s => { s with file := Function.update s.file f (some ip) }
    return some f
  | _, _ => do
    iunlockput ip
    fsEndOp
    return none

def sysOpen (p : Fin n) (path : Option Path) (omode : Omode) (fd : Bool) :
    FsM n (Option FileIdx) :=
  match path with
  | none => return none
  | some path => do
    fsBeginOp
    match ← openInode p path omode with
    | none => do
      fsEndOp
      return none
    | some ip => openFile ip fd

/-! ### The other calls -/

/-- A change of the current directory; the old one is let go. -/
def enterDir (p : Fin n) (ip old : InodePtr) : FsM n Unit := do
  iput old
  fsEndOp
  changeFs fun s => { s with cwd := Function.update s.cwd p (some ip) }

def sysChdir (p : Fin n) (path : Option Path) : FsM n Bool := do
  fsBeginOp
  match path with
  | none => do
    fsEndOp
    return false
  | some path =>
    match ← namei p path with
    | none => do
      fsEndOp
      return false
    | some ip => do
      ilock ip
      let s ← get
      if (s.inodeOf ip).type ≠ .dir then do
        iunlockput ip
        fsEndOp
        return false
      else do
        iunlock ip
        let old ← cwdOf p
        enterDir p ip old
        return true

/-- The driver of the console lets the inode go while it waits. -/
def consoleIo (ip : InodePtr) : FsM n Unit := do
  iunlock ip
  ilock ip

/-- `readi` and `writei` as far as locks go; `driver`: the device has one. -/
def inodeIo (ip : InodePtr) (driver : Bool) : FsM n Unit := do
  let s ← get
  if (s.inodeOf ip).type = .dev ∧ driver then consoleIo ip else return

/-- `exec` as far as the file system goes; `loaded`: the image could be read. -/
def execInode (p : Fin n) (path : Option Path) (driver loaded : Bool) : FsM n Bool :=
  match path with
  | none => return false
  | some path => do
    fsBeginOp
    match ← namei p path with
    | none => do
      fsEndOp
      return false
    | some ip => do
      ilock ip
      inodeIo ip driver
      iunlockput ip
      fsEndOp
      return loaded

/-- `last`: no other descriptor has the file. -/
def sysCloseFile (f : FileIdx) (last : Bool) : FsM n Unit := do
  match (← get).file f with
  | none => throw .unused
  | some ip =>
    if last then do
      changeFs fun s => { s with file := Function.update s.file f none }
      fsBeginOp
      iput ip
      fsEndOp
    else return

def fileOf (f : FileIdx) : FsM n InodePtr := do
  match (← get).file f with
  | none => throw .unused
  | some ip => return ip

/-- `fileread` of an inode, where the file is readable, and `filestat`. -/
def sysReadFile (f : FileIdx) (readable driver : Bool) : FsM n Bool := do
  let ip ← fileOf f
  if readable then do
    ilock ip
    inodeIo ip driver
    iunlock ip
    return true
  else return false

/-- The chunks of `filewrite`, each with what `writei` gives: `false` ends the loop. -/
def writeChunks (ip : InodePtr) (driver : Bool) : List Bool → FsM n Unit
  | [] => return
  | good :: rest => do
    fsBeginOp
    ilock ip
    inodeIo ip driver
    iunlock ip
    fsEndOp
    if good then writeChunks ip driver rest else return

def sysWriteFile (f : FileIdx) (writable driver : Bool) (chunks : List Bool) : FsM n Bool := do
  let ip ← fileOf f
  if writable then do
    writeChunks ip driver chunks
    return true
  else return false

/-- `fork`: the child gets the current directory. -/
def forkCwd (p q : Fin n) : FsM n Unit := do
  let s ← get
  if s.cwd q = none then do
    let ip ← cwdOf p >>= idup
    changeFs fun s => { s with cwd := Function.update s.cwd q (some ip) }
  else throw .unused

/-- `exit`, after the loop over the descriptors. -/
def exitCwd (p : Fin n) : FsM n Unit := do
  let ip ← cwdOf p
  fsBeginOp
  iput ip
  fsEndOp
  changeFs fun s => { s with cwd := Function.update s.cwd p none }

inductive FsCall (n : Nat)
  | open (p : Fin n) (path : Option Path) (omode : Omode) (fd : Bool)
  | mkdir (p : Fin n) (path : Option Path)
  | mknod (p : Fin n) (path : Option Path) (args : Bool)
  | link (p : Fin n) (old new : Option Path)
  | unlink (p : Fin n) (path : Option Path)
  | chdir (p : Fin n) (path : Option Path)
  | exec (p : Fin n) (path : Option Path) (driver loaded : Bool)
  | close (f : FileIdx) (last : Bool)
  | read (f : FileIdx) (readable driver : Bool)
  | write (f : FileIdx) (writable driver : Bool) (chunks : List Bool)
  | fork (p q : Fin n)
  | exit (p : Fin n)

/-- The call, without what it returns. -/
def FsCall.run : FsCall n → FsM n Unit
  | .open p path omode fd => do let _ ← sysOpen p path omode fd
  | .mkdir p path => do let _ ← sysMkdir p path
  | .mknod p path args => do let _ ← sysMknod p path args
  | .link p old new => do let _ ← sysLink p old new
  | .unlink p path => do let _ ← sysUnlink p path
  | .chdir p path => do let _ ← sysChdir p path
  | .exec p path driver loaded => do let _ ← execInode p path driver loaded
  | .close f last => sysCloseFile f last
  | .read f readable driver => do let _ ← sysReadFile f readable driver
  | .write f writable driver chunks => do let _ ← sysWriteFile f writable driver chunks
  | .fork p q => forkCwd p q
  | .exit p => exitCwd p

/-- A call that returns. -/
def fsStep (s : Fs n) (call : FsCall n) : Option (Fs n) :=
  match call.run s with
  | .ok (_, s') => some s'
  | .error _ => none

/-! ### Booting from the image of `mkfs` -/

/-- The root directory of the image, whose size is rounded up to the next block. -/
def mkfsRoot (names : List Name) : List Dirent :=
  let used := [⟨rootino, dot⟩, ⟨rootino, dotdot⟩] ++ names.mapIdx fun i name => ⟨i + 2, name⟩
  used ++ List.replicate ((used.length / 32 + 1) * 32 - used.length) ⟨0, []⟩

/-- The inodes of the image: the root directory and a file for every name. -/
def mkfsInode (names : List Name) (i : Nat) : Inode :=
  if i = rootino then ⟨.dir, 1, mkfsRoot names⟩
  else if 2 ≤ i ∧ i < names.length + 2 then ⟨.file, 1, []⟩
  else ⟨.free, 0, []⟩

/-- The first process is in the root directory. -/
def fsBoot (n : Nat) (names : List Name) : Fs n where
  ninodes := 200
  inode := mkfsInode names
  icache := fun e =>
    if e = ⟨0, ninode_pos⟩ then ⟨rootdev, rootino, 1, false, false⟩ else ⟨0, 0, 0, false, false⟩
  outstanding := 0
  cwd := fun p => if p.val = 0 then some ⟨0, ninode_pos⟩ else none
  file := fun _ => none

end Xv6
