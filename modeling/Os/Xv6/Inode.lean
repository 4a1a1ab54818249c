/-
Inodes, directories and path names.

The contents of the disk are a table of inodes, a directory with its slots; what a regular file
holds is left out here.  Every change that the kernel makes to an inode in memory is written
through (`iupdate`) before the inode is unlocked, so one copy is kept, and an entry of the inode
cache has what the disk does not: who it is for, `ref`, `valid` and its lock.

A function of the kernel is a program over this state.  It stops early with a `panic`, or at an
`acquiresleep` of a lock that is taken.
-/
import Os.Xv6.Bio

namespace Xv6

def ninode : Nat := 50

theorem ninode_pos : 0 < ninode := by decide

def rootino : Nat := 1

def dirsiz : Nat := 14

/-- The slots that fit a directory of `MAXFILE` blocks. -/
def maxslots : Nat := (12 + 128) * 512 / 16

abbrev InodePtr := Fin ninode

/-- The characters of a name before its padding, at most `DIRSIZ` of them. -/
abbrev Name := List UInt8

def dot : Name := [46]

def dotdot : Name := [46, 46]

structure Dirent where
  inum : Nat
  name : Name
  deriving DecidableEq

inductive InodeType
  | free
  | dir
  | file
  | dev
  deriving DecidableEq

structure Inode where
  type : InodeType
  nlink : Int
  slots : List Dirent
  deriving DecidableEq

/-- An entry of the inode cache. -/
structure CachedInode where
  dev : Word
  inum : Nat
  ref : Int
  valid : Bool
  locked : Bool
  deriving DecidableEq

/-- The file system, with the pointers to inodes that `n` processes and the open files have. -/
structure Fs (n : Nat) where
  ninodes : Nat
  inode : Nat → Inode
  icache : InodePtr → CachedInode
  outstanding : Int
  cwd : Fin n → Option InodePtr
  file : FileIdx → Option InodePtr

inductive Stop
  | panic (msg : String)
  | wait
  | unused
  deriving DecidableEq

abbrev FsM (n : Nat) := StateT (Fs n) (Except Stop)

variable {n : Nat}

namespace Fs

def inodeOf (s : Fs n) (ip : InodePtr) : Inode := s.inode (s.icache ip).inum

def setEntry (s : Fs n) (ip : InodePtr) (x : CachedInode) : Fs n :=
  { s with icache := Function.update s.icache ip x }

def addRef (s : Fs n) (ip : InodePtr) (k : Int) : Fs n :=
  s.setEntry ip { s.icache ip with ref := (s.icache ip).ref + k }

def setLocked (s : Fs n) (ip : InodePtr) (locked : Bool) : Fs n :=
  s.setEntry ip { s.icache ip with locked := locked }

def setValid (s : Fs n) (ip : InodePtr) (valid : Bool) : Fs n :=
  s.setEntry ip { s.icache ip with valid := valid }

/-- A free entry is taken for an inode. -/
def recycle (s : Fs n) (ip : InodePtr) (dev : Word) (inum : Nat) : Fs n :=
  s.setEntry ip { s.icache ip with dev := dev, inum := inum, ref := 1, valid := false }

def setInode (s : Fs n) (i : Nat) (x : Inode) : Fs n :=
  { s with inode := Function.update s.inode i x }

end Fs

/-- A step that cannot fail. -/
def changeFs (f : Fs n → Fs n) : FsM n Unit := fun s => .ok ((), f s)

/-! ### Transactions -/

def fsBeginOp : FsM n Unit := changeFs fun s => { s with outstanding := s.outstanding + 1 }

def fsEndOp : FsM n Unit := changeFs fun s => { s with outstanding := s.outstanding - 1 }

/-! ### The inode cache -/

def entryFor (s : Fs n) (dev : Word) (inum : Nat) : Option InodePtr :=
  (List.finRange ninode).find? fun e =>
    0 < (s.icache e).ref ∧ (s.icache e).dev = dev ∧ (s.icache e).inum = inum

def emptyEntry (s : Fs n) : Option InodePtr :=
  (List.finRange ninode).find? fun e => (s.icache e).ref = 0

def iget (dev : Word) (inum : Nat) : FsM n InodePtr := do
  let s ← get
  match entryFor s dev inum with
  | some ip =>
    set (s.addRef ip 1)
    return ip
  | none =>
    match emptyEntry s with
    | some ip =>
      set (s.recycle ip dev inum)
      return ip
    | none => throw (.panic "iget: no inodes")

def idup (ip : InodePtr) : FsM n InodePtr := do
  changeFs fun s => s.addRef ip 1
  return ip

def acquiresleep (ip : InodePtr) : FsM n Unit := do
  let s ← get
  if (s.icache ip).locked then throw .wait
  else set (s.setLocked ip true)

def releasesleep (ip : InodePtr) : FsM n Unit :=
  changeFs fun s => s.setLocked ip false

/-- The inode is read from disk. -/
def readInode (ip : InodePtr) : FsM n Unit := do
  let s ← get
  if (s.icache ip).valid then return
  else if (s.inodeOf ip).type = .free then throw (.panic "ilock: no type")
  else set (s.setValid ip true)

def ilock (ip : InodePtr) : FsM n Unit := do
  let s ← get
  if (s.icache ip).ref < 1 then throw (.panic "ilock")
  else do
    acquiresleep ip
    readInode ip

def iunlock (ip : InodePtr) : FsM n Unit := do
  let s ← get
  if (s.icache ip).locked = false ∨ (s.icache ip).ref < 1 then throw (.panic "iunlock")
  else releasesleep ip

/-- `itrunc`, and the inode is marked free. -/
def Fs.freeInode (s : Fs n) (ip : InodePtr) : Fs n :=
  (s.setInode (s.icache ip).inum { s.inodeOf ip with type := .free, slots := [] }).setValid ip false

/-- Nobody else has the inode, and it has no links. -/
def Fs.lastRef (s : Fs n) (ip : InodePtr) : Bool :=
  (s.icache ip).valid && (s.inodeOf ip).nlink = 0 && (s.icache ip).ref = 1

def iput (ip : InodePtr) : FsM n Unit := do
  acquiresleep ip
  changeFs fun s => if s.lastRef ip then s.freeInode ip else s
  releasesleep ip
  changeFs fun s => s.addRef ip (-1)

def iunlockput (ip : InodePtr) : FsM n Unit := do
  iunlock ip
  iput ip

/-- The first free inode; inode 0 is never given out. -/
def freeInum (s : Fs n) : Option Nat :=
  (List.range s.ninodes).find? fun i => i ≠ 0 ∧ (s.inode i).type = .free

def ialloc (dev : Word) (type : InodeType) : FsM n InodePtr := do
  let s ← get
  match freeInum s with
  | some i =>
    set (s.setInode i ⟨type, 0, []⟩)
    iget dev i
  | none => throw (.panic "ialloc: no inodes")

/-- A change of the inode, written through. -/
def iupdate (ip : InodePtr) (f : Inode → Inode) : FsM n Unit :=
  changeFs fun s => s.setInode (s.icache ip).inum (f (s.inodeOf ip))

def addLinks (k : Int) (x : Inode) : Inode := { x with nlink := x.nlink + k }

/-! ### Directories -/

/-- The slot of a name. -/
def slotOf (slots : List Dirent) (name : Name) : Option Nat :=
  slots.findIdx? fun d => d.inum ≠ 0 ∧ d.name = name

def dirlookup (dp : InodePtr) (name : Name) : FsM n (Option (InodePtr × Nat)) := do
  let s ← get
  if (s.inodeOf dp).type ≠ .dir then throw (.panic "dirlookup not DIR")
  else
    match slotOf (s.inodeOf dp).slots name with
    | none => return none
    | some off => do
      let ip ← iget (s.icache dp).dev ((s.inodeOf dp).slots.getD off ⟨0, []⟩).inum
      return some (ip, off)

/-- `writei` of one slot. -/
def writeSlot (slots : List Dirent) (off : Nat) (d : Dirent) : List Dirent :=
  if off < slots.length then slots.set off d else slots ++ [d]

/-- The first empty slot, or the end of the directory. -/
def emptySlot (slots : List Dirent) : Nat := slots.findIdx fun d => d.inum = 0

def dirlink (dp : InodePtr) (name : Name) (inum : Nat) : FsM n Bool := do
  match ← dirlookup dp name with
  | some (ip, _) => do
    iput ip
    return false
  | none => do
    let s ← get
    if maxslots ≤ emptySlot (s.inodeOf dp).slots then throw (.panic "dirlink")
    else do
      iupdate dp fun x =>
        { x with slots := writeSlot x.slots (emptySlot x.slots) ⟨inum, name⟩ }
      return true

/-! ### Paths -/

abbrev Path := List UInt8

def slash : UInt8 := 47

/-- The next element of the path and what is behind it. -/
def skipelem (path : Path) : Option (Name × Path) :=
  match path.dropWhile (· = slash) with
  | [] => none
  | c :: cs =>
    some (((c :: cs).takeWhile (· ≠ slash)).take dirsiz,
      ((c :: cs).dropWhile (· ≠ slash)).dropWhile (· = slash))

/-- The elements that the loop of `namex` takes from the path. -/
def elems : Nat → Path → List Name
  | 0, _ => []
  | k + 1, path =>
    match skipelem path with
    | none => []
    | some (name, rest) => name :: elems k rest

def cwdOf (p : Fin n) : FsM n InodePtr := do
  match (← get).cwd p with
  | some ip => return ip
  | none => throw .unused

/-- The loop of `namex`.  With `parent` it stops one level early. -/
def namexLoop (parent : Bool) : List Name → InodePtr → FsM n (Option (InodePtr × Name))
  | [], ip =>
    if parent then do
      iput ip
      return none
    else return some (ip, [])
  | name :: rest, ip => do
    ilock ip
    let s ← get
    if (s.inodeOf ip).type ≠ .dir then do
      iunlockput ip
      return none
    else if parent ∧ rest = [] then do
      iunlock ip
      return some (ip, name)
    else
      match ← dirlookup ip name with
      | none => do
        iunlockput ip
        return none
      | some (next, _) => do
        iunlockput ip
        namexLoop parent rest next

/-- Where a path starts. -/
def namexStart (p : Fin n) (path : Path) : FsM n InodePtr :=
  if path.head? = some slash then iget rootdev rootino else cwdOf p >>= idup

def namex (p : Fin n) (path : Path) (parent : Bool) : FsM n (Option (InodePtr × Name)) := do
  let ip ← namexStart p path
  namexLoop parent (elems path.length path) ip

def namei (p : Fin n) (path : Path) : FsM n (Option InodePtr) := do
  return (← namex p path false).map Prod.fst

def nameiparent (p : Fin n) (path : Path) : FsM n (Option (InodePtr × Name)) := namex p path true

/-! ### The critical sections of the cache -/

/-- The cache with the pointers into it: current directories, open files and the variables of the
functions that are running, `m` of them. -/
structure Icache (n m : Nat) where
  fs : Fs n
  ptr : Fin m → Option InodePtr

inductive IcacheAct (m : Nat)
  | iget (k : Fin m) (dev : Word) (inum : Nat)
  | idup (j k : Fin m)
  /-- The end of `iput`. -/
  | iput (j : Fin m)
  /-- What the holder of the inode's lock may do to the entry. -/
  | touch (ip : InodePtr) (valid locked : Bool)

def icacheStep {m : Nat} (s : Icache n m) : IcacheAct m → Option (Icache n m)
  | .iget k dev inum =>
    match s.ptr k, iget dev inum s.fs with
    | none, .ok (ip, fs) => some ⟨fs, Function.update s.ptr k (some ip)⟩
    | _, _ => none
  | .idup j k =>
    match s.ptr j, s.ptr k with
    | some ip, none => some ⟨s.fs.addRef ip 1, Function.update s.ptr k (some ip)⟩
    | _, _ => none
  | .iput j =>
    (s.ptr j).map fun ip => ⟨s.fs.addRef ip (-1), Function.update s.ptr j none⟩
  | .touch ip valid locked => some ⟨(s.fs.setValid ip valid).setLocked ip locked, s.ptr⟩

end Xv6
