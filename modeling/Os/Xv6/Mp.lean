/-
Finding the processors: `mp.c`.

The header of a table is laid out as in `kern/mpconfig.c`, and `p` is an offset in the table again.
The loop over the entries has a fuel, since nothing in it need ever end.  The write to the IMCR
after the loop is left out.
-/
import Os.Jos.Mpconfig

namespace Xv6

open Jos (Word byteSum Signed confLength confVersion confLapicaddr entryType)

variable (mem : Word → BitVec 8) (conf : Word)

/-- The checks of `mpconfig`. -/
abbrev MpAccepted : Prop :=
  Signed mem conf [0x50, 0x43, 0x4d, 0x50] ∧ (confVersion mem conf = 1 ∨ confVersion mem conf = 4) ∧
    byteSum mem conf (confLength mem conf) = 0

structure Mp where
  ncpu : Nat
  apicid : Nat → BitVec 8
  ioapicid : BitVec 8
  ismp : Bool
  lapic : Word

/-- `NCPU` -/
def maxCpus : Nat := 8

/-- `case MPPROC` for the entry at offset `p`. -/
def mpproc (p : Nat) (s : Mp) : Mp :=
  if s.ncpu < maxCpus then
    { s with
      apicid := Function.update s.apicid s.ncpu (mem (conf + BitVec.ofNat 32 (p + 1)))
      ncpu := s.ncpu + 1 }
  else s

/-- The loop of `mpinit`. -/
def mpLoop : Nat → Nat → Mp → Option Mp
  | 0, _, _ => none
  | n + 1, p, s =>
    if p < confLength mem conf then
      if entryType mem conf p = 0 then mpLoop n (p + 20) (mpproc mem conf p s)
      else if entryType mem conf p = 2 then
        mpLoop n (p + 8) { s with ioapicid := mem (conf + BitVec.ofNat 32 (p + 1)) }
      else if entryType mem conf p ≤ 4 then mpLoop n (p + 8) s
      -- `break` leaves the switch, not the loop
      else mpLoop n p { s with ismp := false }
    else some s

/-- `mpinit` with the table that was found; the inner `none` is the panic. -/
def mpinit (fuel : Nat) : Option (Option Mp) :=
  (mpLoop mem conf fuel 44 ⟨0, fun _ => 0, 0, true, confLapicaddr mem conf⟩).map fun s =>
    if s.ismp then some s else none

end Xv6
