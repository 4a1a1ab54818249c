/-
Finding the processors: `kern/mpconfig.c`.

`mem` is what lies at a physical address.  A table may claim any length and any number of entries,
so `mp_init` also says at which offsets in the table it has read.  `cpus` is indexed by natural
numbers: `bootcpu` and the write to its `cpu_status` may be outside the array.

`cprintf` is left out except for the processors it reports as disabled.
-/
import Os.Jos.Layout

namespace Jos

/-- `KADDR`, which panics for an address beyond the memory. -/
def physKaddr (npages : Nat) (pa : Word) : Option Word :=
  if npages ≤ pa.toNat / 4096 then none else some pa

section

variable (npages : Nat) (mem : Word → BitVec 8)

def byteSum (addr : Word) (len : Nat) : BitVec 8 :=
  (List.range len).foldl (fun sum i => sum + mem (addr + BitVec.ofNat 32 i)) 0

/-- `memcmp(addr, s, 4) == 0` -/
abbrev Signed (addr : Word) (s : List (BitVec 8)) : Prop :=
  (List.range 4).map (fun i => mem (addr + BitVec.ofNat 32 i)) = s

def word16 (addr : Word) : BitVec 16 := mem (addr + 1) ++ mem addr

/-! ### The floating pointer -/

/-- The loop of `mpsearch1`, over `n` candidates 16 bytes apart. -/
def mpsearchLoop : Nat → Word → Option Word
  | 0, _ => none
  | n + 1, mp =>
    if Signed mem mp [0x5f, 0x4d, 0x50, 0x5f] ∧ byteSum mem mp 16 = 0 then some mp
    else mpsearchLoop n (mp + 16)

def mpsearch1 (a : Word) (len : Nat) : Option (Option Word) := do
  let mp ← physKaddr npages a
  let _ ← physKaddr npages (a + BitVec.ofNat 32 len)
  return mpsearchLoop mem (len / 16) mp

def mpsearch : Option (Option Word) := do
  let bda ← physKaddr npages (0x40 <<< 4)
  let p := (word16 mem (bda + 0x0e)).zeroExtend 32
  let found ←
    if p ≠ 0 then mpsearch1 npages mem (p <<< 4) 1024
    else mpsearch1 npages mem ((word16 mem (bda + 0x13)).zeroExtend 32 * 1024 - 1024) 1024
  match found with
  | some mp => return some mp
  | none => mpsearch1 npages mem 0xf0000 0x10000

/-! ### The table -/

/-- `conf->length`, and the other fields of the header. -/
def confLength (conf : Word) : Nat := (word16 mem (conf + 4)).toNat
def confVersion (conf : Word) : BitVec 8 := mem (conf + 6)
def confEntry (conf : Word) : Nat := (word16 mem (conf + 34)).toNat
def confLapicaddr (conf : Word) : Word := wordAt mem (conf + 36)
def confXlength (conf : Word) : Nat := (word16 mem (conf + 40)).toNat
def confXchecksum (conf : Word) : BitVec 8 := mem (conf + 42)

/-- The checks of `mpconfig`. -/
abbrev Accepted (conf : Word) : Prop :=
  Signed mem conf [0x50, 0x43, 0x4d, 0x50] ∧
  byteSum mem conf (confLength mem conf) = 0 ∧
  (confVersion mem conf = 1 ∨ confVersion mem conf = 4) ∧
  byteSum mem (conf + BitVec.ofNat 32 (confLength mem conf)) (confXlength mem conf) +
    confXchecksum mem conf = 0

/-- The floating pointer and the table; the outer `none` is a panic. -/
def mpconfig : Option (Option (Word × Word)) := do
  match ← mpsearch npages mem with
  | none => return none
  | some mp =>
    if wordAt mem (mp + 4) = 0 ∨ mem (mp + 11) ≠ 0 then return none
    else
      let conf ← physKaddr npages (wordAt mem (mp + 4))
      return if Accepted mem conf then some (mp, conf) else none

/-! ### `mp_init` -/

structure Cpus where
  ncpu : Nat
  bootcpu : Nat
  cpuId : Nat → Nat
  started : Nat → Bool
  ismp : Bool
  lapicaddr : Word
  disabled : List (BitVec 8)
  imcr : Bool
  /-- The offsets in the table that were read, the latest first. -/
  reads : List Nat

/-- The variables before `mp_init`. -/
def Cpus.zero : Cpus := ⟨0, 0, fun _ => 0, fun _ => false, false, 0, [], false, []⟩

def mpprocBoot : BitVec 8 := 0x02

/-- `case MPPROC` for the entry at offset `p`. -/
def mpproc (conf : Word) (p : Nat) (s : Cpus) : Cpus :=
  let s := { s with reads := (p + 3) :: s.reads }
  let s := if mem (conf + BitVec.ofNat 32 (p + 3)) &&& mpprocBoot ≠ 0 then
    { s with bootcpu := s.ncpu } else s
  if s.ncpu < ncpu then
    { s with cpuId := Function.update s.cpuId s.ncpu s.ncpu, ncpu := s.ncpu + 1 }
  else
    { s with
      disabled := mem (conf + BitVec.ofNat 32 (p + 1)) :: s.disabled, reads := (p + 1) :: s.reads }

/-- `*p` for the entry at offset `p`. -/
def entryType (conf : Word) (p : Nat) : Nat := (mem (conf + BitVec.ofNat 32 p)).toNat

/-- The loop over the entries, with `n` to go. -/
def mpEntries (conf : Word) : Nat → Nat → Cpus → Cpus
  | 0, _, s => { s with reads := 35 :: 34 :: s.reads }
  | n + 1, p, s =>
    let s := { s with reads := p :: 35 :: 34 :: s.reads }
    if entryType mem conf p = 0 then mpEntries conf n (p + 20) (mpproc mem conf p s)
    else if entryType mem conf p ≤ 4 then mpEntries conf n (p + 8) s
    -- the loop is left by setting i to the number of entries
    else { s with ismp := false, reads := 35 :: 34 :: s.reads }

def mpInit : Option Cpus := do
  let s := Cpus.zero
  match ← mpconfig npages mem with
  | none => return s
  | some (mp, conf) =>
    let s := { s with
      ismp := true, lapicaddr := confLapicaddr mem conf, reads := [36, 37, 38, 39] }
    let s := mpEntries mem conf (confEntry mem conf) 44 s
    let s := { s with started := Function.update s.started s.bootcpu true }
    if s.ismp then return { s with imcr := decide (mem (mp + 12) ≠ 0) }
    else return { s with ncpu := 1, lapicaddr := 0 }

end

end Jos
