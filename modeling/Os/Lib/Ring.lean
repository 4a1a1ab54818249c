/-
Ring buffers with counters that wrap.

A buffer of `N` slots is filled and emptied by two counters of `w` bits that only go up.
The slot of a counter is its value modulo `N`, so the buffer survives the wrap of a
counter exactly when `N` divides `2 ^ w`.  `Tracks` compares a buffer with the lists of
what has gone in and come out: the counters are their lengths, and what is in the buffer
is what the first list has more.
-/
import Mathlib.Data.BitVec

namespace RingBuffer

open List BitVec

variable {α : Type*} {N w : Nat} [NeZero N]

structure Ring (α : Type*) (N w : Nat) where
  data : Fin N → α
  nread : BitVec w
  nwrite : BitVec w

def slot (N : Nat) [NeZero N] (c : BitVec w) : Fin N := Fin.ofNat N c.toNat

def Ring.push (r : Ring α N w) (a : α) : Ring α N w :=
  { r with data := Function.update r.data (slot N r.nwrite) a, nwrite := r.nwrite + 1 }

def Ring.top (r : Ring α N w) : α := r.data (slot N r.nread)

def Ring.pop (r : Ring α N w) : Ring α N w := { r with nread := r.nread + 1 }

/-- What has gone in and what has come out. -/
structure Tracks (r : Ring α N w) (ins outs : List α) : Prop where
  nwrite : r.nwrite = BitVec.ofNat w ins.length
  nread : r.nread = BitVec.ofNat w outs.length
  done : outs <+: ins
  fits : ins.length ≤ outs.length + N
  data : ∀ j a, outs.length ≤ j → ins[j]? = some a → r.data (Fin.ofNat N j) = a

variable {r : Ring α N w} {ins outs : List α} {a : α}

/-- A slot is found again after the counter has wrapped. -/
theorem slot_ofNat (hdvd : N ∣ 2 ^ w) (n : Nat) : slot N (BitVec.ofNat w n) = Fin.ofNat N n := by
  refine Fin.ext ?_
  show (BitVec.ofNat w n).toNat % N = n % N
  rw [toNat_ofNat, Nat.mod_mod_of_dvd n hdvd]

omit [NeZero N] in
theorem ofNat_add_one (n : Nat) : BitVec.ofNat w n + 1 = BitVec.ofNat w (n + 1) := by
  rw [ofNat_add]
  rfl

namespace Tracks

section

variable (h : Tracks r ins outs)
include h

/-- **The counters differ by what is in the buffer.** -/
theorem toNat_sub (hlt : N < 2 ^ w) :
    (r.nwrite - r.nread).toNat = ins.length - outs.length := by
  have hle := h.done.length_le
  have hfits := h.fits
  have hsum : ins.length = (ins.length - outs.length) + outs.length := by omega
  have hsub : r.nwrite - r.nread = BitVec.ofNat w (ins.length - outs.length) := by
    rw [h.nwrite, h.nread]
    conv_lhs => rw [hsum, ofNat_add]
    exact add_sub_cancel _ _
  rw [hsub, toNat_ofNat, Nat.mod_eq_of_lt]
  omega

theorem empty_iff (hlt : N < 2 ^ w) :
    r.nread = r.nwrite ↔ outs.length = ins.length := by
  have hle := h.done.length_le
  have hsub := h.toNat_sub hlt
  constructor
  · intro heq
    have hzero : r.nwrite - r.nread = 0 := by
      rw [heq]
      exact sub_self _
    rw [hzero] at hsub
    have h0 : (0 : BitVec w).toNat = 0 := rfl
    omega
  · intro heq
    rw [h.nread, h.nwrite, heq]

theorem full_iff (hlt : N < 2 ^ w) :
    r.nwrite = r.nread + BitVec.ofNat w N ↔ ins.length = outs.length + N := by
  have hsub := h.toNat_sub hlt
  have hle := h.done.length_le
  constructor
  · intro heq
    have hN : r.nwrite - r.nread = BitVec.ofNat w N := by
      rw [heq, add_comm]
      exact add_sub_cancel _ _
    rw [hN, toNat_ofNat, Nat.mod_eq_of_lt hlt] at hsub
    omega
  · intro heq
    rw [h.nwrite, h.nread, heq, ofNat_add]

/-- **One more goes in**, into a slot that holds nothing. -/
theorem push (hdvd : N ∣ 2 ^ w) (hroom : ins.length < outs.length + N) :
    Tracks (r.push a) (ins ++ [a]) outs := by
  have hslot : slot N r.nwrite = Fin.ofNat N ins.length := by rw [h.nwrite, slot_ofNat hdvd]
  refine ⟨?_, h.nread, h.done.trans (prefix_append _ _), ?_, ?_⟩
  · show r.nwrite + 1 = _
    rw [h.nwrite, ofNat_add_one, length_append, length_singleton]
  · rw [length_append, length_singleton]
    omega
  intro j b hj hb
  show Function.update r.data (slot N r.nwrite) a (Fin.ofNat N j) = b
  rw [hslot]
  by_cases hjlast : j = ins.length
  · rw [hjlast, List.getElem?_concat_length] at hb
    rw [hjlast, Function.update_self]
    exact Option.some.inj hb
  have hjlt : j < ins.length := by
    have hlen : j < (ins ++ [a]).length := (List.getElem?_eq_some_iff.mp hb).1
    rw [length_append, length_singleton] at hlen
    omega
  rw [List.getElem?_append_left hjlt] at hb
  -- two places less than `N` apart have different slots
  have hne : Fin.ofNat N j ≠ Fin.ofNat N ins.length := by
    intro heq
    have hmod : j % N = ins.length % N := congrArg Fin.val heq
    have hdiv : N ∣ ins.length - j := (Nat.modEq_iff_dvd' (Nat.le_of_lt hjlt)).mp hmod
    have hge := Nat.le_of_dvd (by omega) hdiv
    omega
  rw [Function.update_of_ne hne]
  exact h.data j b hj hb

/-- **What comes out** is the oldest there is. -/
theorem pop (hdvd : N ∣ 2 ^ w) (hsome : outs.length < ins.length) :
    Tracks r.pop ins (outs ++ [r.top]) := by
  have htop : ins[outs.length]? = some r.top := by
    have hget : ins[outs.length]? = some ins[outs.length] := List.getElem?_eq_getElem hsome
    have hdata := h.data outs.length _ (Nat.le_refl _) hget
    rw [hget, Ring.top, h.nread, slot_ofNat hdvd, hdata]
  refine ⟨h.nwrite, ?_, ?_, ?_, ?_⟩
  · show r.nread + 1 = _
    rw [h.nread, ofNat_add_one, length_append, length_singleton]
  · obtain ⟨rest, rfl⟩ := h.done
    rw [List.getElem?_append_right (Nat.le_refl _), Nat.sub_self] at htop
    cases rest with
    | nil => simp at htop
    | cons b rest =>
      cases htop
      exact ⟨rest, append_assoc _ _ _⟩
  · rw [length_append, length_singleton]
    have := h.fits
    omega
  · intro j b hj hb
    rw [length_append, length_singleton] at hj
    exact h.data j b (by omega) hb

end

end Tracks

end RingBuffer
