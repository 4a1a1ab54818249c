/-
Loading a program: `exec.c`, and the functions of `vm.c` that only it calls.

What `exec` reads is an ELF file, which is here the bytes it holds.  Files that are
devices are not modelled.  `exec` works on a page table of its own, so that the process
is as it was if anything fails.
-/
import Os.Xv6.Trap

namespace Xv6

variable {M : Machine}

/-- `readi` on an ordinary file; -1 is `none`. -/
def readi (data : List Byte) (off n : Word) : Option (List Byte) :=
  if data.length < off.toNat ∨ off + n < off then none
  else some ((data.drop off.toNat).take n.toNat)

/-! ### `elf.h` -/

def elfMagic : Word := 0x464C457F
def elfProgLoad : Word := 1

/-- The little-endian number in some bytes of a header. -/
def field (l : List Byte) (off n : Nat) : Word :=
  ((l.drop off).take n).foldr (fun b w => w <<< 8 ||| b.setWidth 32) 0

structure Elfhdr where
  magic : Word
  entry : Word
  phoff : Word
  phnum : Word

def Elfhdr.read (data : List Byte) : Option Elfhdr :=
  match readi data 0 52 with
  | none => none
  | some l =>
    if l.length ≠ 52 then none
    else some ⟨field l 0 4, field l 24 4, field l 28 4, field l 44 2⟩

structure Proghdr where
  type : Word
  off : Word
  vaddr : Word
  filesz : Word
  memsz : Word

def Proghdr.read (data : List Byte) (off : Word) : Option Proghdr :=
  match readi data off 32 with
  | none => none
  | some l =>
    if l.length ≠ 32 then none
    else some ⟨field l 0 4, field l 4 4, field l 8 4, field l 16 4, field l 20 4⟩

/-! ### Loading a segment -/

def loadLoop (data : List Byte) (pgdir : Ppn M) (addr offset sz : Word) : Nat → Kmem M → Word →
    Option (Bool × Kmem M)
  | 0, m, i => if i < sz then none else some (true, m)
  | k + 1, m, i =>
    if i < sz then
      match walkpgdir m pgdir (addr + i) false with
      | none => none
      -- panic: address should exist
      | some (none, _) => none
      | some (some pte, m) =>
        let n := if sz - i < pgsize then sz - i else pgsize
        match frame M (pteAddr (m.load pte)) with
        | none => none
        | some pa =>
          match readi data (offset + i) n with
          | none => some (false, m)
          | some l =>
            let m := m.storeBytes pa 0 l
            if l.length ≠ n.toNat then some (false, m)
            else loadLoop data pgdir addr offset sz k m (i + pgsize)
    else some (true, m)

/-- `true` is the result 0 and `false` the result -1. -/
def loaduvm (m : Kmem M) (pgdir : Ppn M) (addr : Word) (data : List Byte) (offset sz : Word) :
    Option (Bool × Kmem M) :=
  if pgoff addr ≠ 0 then none
  else loadLoop data pgdir addr offset sz ((sz.toNat + 4095) / 4096) m 0

/-- The loop over the program headers: the size of the image, or -1. -/
def loadSegments (K : Linker M) (data : List Byte) (pgdir : Ppn M) : Nat → Kmem M → Word → Word →
    Option (Option Word × Kmem M)
  | 0, m, _, sz => some (some sz, m)
  | n + 1, m, off, sz =>
    match Proghdr.read data off with
    | none => some (none, m)
    | some ph =>
      if ph.type ≠ elfProgLoad then loadSegments K data pgdir n m (off + 32) sz
      else if ph.memsz < ph.filesz then some (none, m)
      else if ph.vaddr + ph.memsz < ph.vaddr then some (none, m)
      else
        match allocuvm K m pgdir sz (ph.vaddr + ph.memsz) with
        | none => none
        | some (sz, m) =>
          if sz = 0 then some (none, m)
          else if pgoff ph.vaddr ≠ 0 then some (none, m)
          else
            match loaduvm m pgdir ph.vaddr data ph.off ph.filesz with
            | none => none
            | some (false, m) => some (none, m)
            | some (true, m) => loadSegments K data pgdir n m (off + 32) sz

/-! ### Copying to a page table that is not in use -/

/-- What `uva2ka` makes of an entry. -/
def pteKa (pte : Word) (m : Kmem M) : Option (Option (Ppn M) × Kmem M) :=
  if ¬ present pte then some (none, m)
  else if pte &&& pteU = 0 then some (none, m)
  else (frame M (pteAddr pte)).map fun p => (some p, m)

/-- The page behind a user address.  The pointer from `walkpgdir` is not tested: where it is
null, the entry is read from address 0 of the running process, `cur`. -/
def uva2ka (m : Kmem M) (cur pgdir : Ppn M) (uva : Word) : Option (Option (Ppn M) × Kmem M) :=
  match walkpgdir m pgdir uva false with
  | none => none
  | some (none, m) => (kloadWord m cur 0).bind fun r => pteKa r.1 r.2
  | some (some pte, m) => pteKa (m.load pte) m

def copyoutLoop (cur pgdir : Ppn M) : Nat → Kmem M → Word → List Byte → Option (Bool × Kmem M)
  | _, m, _, [] => some (true, m)
  | 0, _, _, _ :: _ => none
  | n + 1, m, va, p =>
    let va0 := pgrounddown va
    match uva2ka m cur pgdir va0 with
    | none => none
    | some (none, m) => some (false, m)
    | some (some pa0, m) =>
      let k := 4096 - (va - va0).toNat
      let m := m.storeBytes pa0 (va - va0).toNat (p.take k)
      copyoutLoop cur pgdir n m (va0 + pgsize) (p.drop k)

/-- Copies bytes to user addresses of `pgdir`. -/
def copyout (m : Kmem M) (cur pgdir : Ppn M) (va : Word) (p : List Byte) :
    Option (Bool × Kmem M) :=
  copyoutLoop cur pgdir p.length m va p

/-! ### `exec` -/

/-- Pushes the argument strings.  The result is the stack pointer and the pointers to the
strings, or -1. -/
def pushArgs (cur pgdir : Ppn M) : List (List Byte) → Nat → Kmem M → Word → List Word →
    Option (Option (Word × List Word) × Kmem M)
  | [], _, m, sp, ustack => some (some (sp, ustack), m)
  | s :: argv, argc, m, sp, ustack =>
    if maxarg ≤ argc then some (none, m)
    else
      let sp := (sp - BitVec.ofNat 32 (s.length + 1)) &&& ~~~3
      match copyout m cur pgdir sp (s ++ [0]) with
      | none => none
      | some (false, m) => some (none, m)
      | some (true, m) => pushArgs cur pgdir argv (argc + 1) m sp (ustack ++ [sp])

/-- The fake return address, `argc`, `argv` and what it points to. -/
def userStack (sp : Word) (ptrs : List Word) : List Word :=
  [0xFFFFFFFF, BitVec.ofNat 32 ptrs.length, sp - BitVec.ofNat 32 ((ptrs.length + 1) * 4)]
    ++ ptrs ++ [0]

/-- Pushes the arguments and what `main` is called with: the stack pointer, or -1. -/
def pushFrame (cur pgdir : Ppn M) (argv : List (List Byte)) (m : Kmem M) (sp : Word) :
    Option (Option Word × Kmem M) :=
  match pushArgs cur pgdir argv 0 m sp [] with
  | none => none
  | some (none, m) => some (none, m)
  | some (some (sp, ptrs), m) =>
    let ustack := userStack sp ptrs
    let sp := sp - BitVec.ofNat 32 (4 * ustack.length)
    match copyout m cur pgdir sp (ustack.flatMap wordBytes) with
    | none => none
    | some (false, m) => some (none, m)
    | some (true, m) => some (some sp, m)

/-- Two pages above the program, the guard page and the stack: the size, or -1. -/
def allocStack (K : Linker M) (pgdir : Ppn M) (m : Kmem M) (sz : Word) :
    Option (Option Word × Kmem M) :=
  match allocuvm K m pgdir (pgroundup sz) (pgroundup sz + 2 * pgsize) with
  | none => none
  | some (sz, m) =>
    if sz = 0 then some (none, m)
    else (clearpteu m pgdir (sz - 2 * pgsize)).map fun m => (some sz, m)

/-- The program and its stack: the size and the stack pointer, or -1. -/
def buildImage (K : Linker M) (m : Kmem M) (cur pgdir : Ppn M) (data : List Byte) (elf : Elfhdr)
    (argv : List (List Byte)) : Option (Option (Word × Word) × Kmem M) :=
  match loadSegments K data pgdir elf.phnum.toNat m elf.phoff 0 with
  | none => none
  | some (none, m) => some (none, m)
  | some (some sz, m) =>
    match allocStack K pgdir m sz with
    | none => none
    | some (none, m) => some (none, m)
    | some (some sz, m) =>
      (pushFrame cur pgdir argv m sz).map fun r => (r.1.map fun sp => (sz, sp), r.2)

/-- What follows the last slash. -/
def lastElement (path : List Byte) : List Byte :=
  path.foldl (fun last b => if b = 0x2F then [] else last ++ [b]) []

/-- The header of a program that can be executed. -/
def readHeader (file : Option (List Byte)) : Option (List Byte × Elfhdr) :=
  file.bind fun data =>
    (Elfhdr.read data).bind fun elf => if elf.magic ≠ elfMagic then none else some (data, elf)

/-- The process with its new image. -/
def commitImage (p : Proc M) (pgdir : Ppn M) (path : List Byte) (elf : Elfhdr) (sz sp : Word) :
    Proc M :=
  { p with
    name := (lastElement path).take 15
    pgdir := some pgdir
    sz := sz
    tf := { p.tf with eip := elf.entry, esp := sp } }

/-- Replaces the program of a process by the one in `file`, which is what `namei` finds.
`false` is the result -1. -/
def exec (K : Linker M) (m : Kmem M) (p : Proc M) (file : Option (List Byte)) (path : List Byte)
    (argv : List (List Byte)) : Option (Bool × Kmem M × Proc M) :=
  match readHeader file with
  | none => some (false, m, p)
  | some (data, elf) =>
    match setupkvm K m with
    | none => none
    | some (none, m) => some (false, m, p)
    | some (some pgdir, m) =>
      match p.pgdir with
      | none => none
      | some oldpgdir =>
        match buildImage K m oldpgdir pgdir data elf argv with
        | none => none
        | some (none, m) => (freevm K m pgdir).map fun m => (false, m, p)
        | some (some (sz, sp), m) =>
          (freevm K m oldpgdir).map fun m => (true, m, commitImage p pgdir path elf sz sp)

end Xv6
