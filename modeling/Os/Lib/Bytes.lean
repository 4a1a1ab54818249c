/-
Byte-addressed memory with 32-bit addresses.

A word occupies four bytes, least significant first, at any address; addresses wrap
around.  Two words that overlap in part read back as a mixture of both, so the rules
for reading after writing ask for the same address or for addresses at least four
bytes apart on both sides.
-/
import Mathlib.Tactic.IntervalCases

namespace Bytes

open BitVec

abbrev Mem := BitVec 32 → BitVec 8

/-- The word at `a`. -/
def read32 (m : Mem) (a : BitVec 32) : BitVec 32 := m (a + 3) ++ m (a + 2) ++ m (a + 1) ++ m a

def write32 (m : Mem) (a : BitVec 32) (w : BitVec 32) : Mem :=
  fun x => if (x - a).toNat < 4 then w.extractLsb' (8 * (x - a).toNat) 8 else m x

variable {m m' : Mem} {a b x w : BitVec 32}

theorem write32_of_le (h : 4 ≤ (x - a).toNat) : write32 m a w x = m x := by
  unfold write32
  rw [if_neg (by omega)]

theorem add_sub_self_toNat (a : BitVec 32) (k : Nat) (hk : k < 4) :
    (a + BitVec.ofNat 32 k - a).toNat = k := by
  rw [BitVec.add_comm, add_sub_cancel, toNat_ofNat]
  omega

theorem write32_add (k : Nat) (hk : k < 4) :
    write32 m a w (a + BitVec.ofNat 32 k) = w.extractLsb' (8 * k) 8 := by
  unfold write32
  rw [add_sub_self_toNat a k hk, if_pos hk]

theorem read32_congr (h : ∀ k < 4, m' (a + BitVec.ofNat 32 k) = m (a + BitVec.ofNat 32 k)) :
    read32 m' a = read32 m a := by
  have h0 : m' a = m a := by simpa using h 0 (by omega)
  have h1 : m' (a + 1) = m (a + 1) := h 1 (by omega)
  have h2 : m' (a + 2) = m (a + 2) := h 2 (by omega)
  have h3 : m' (a + 3) = m (a + 3) := h 3 (by omega)
  unfold read32
  rw [h0, h1, h2, h3]

theorem join_bytes (w : BitVec 32) :
    w.extractLsb' 24 8 ++ w.extractLsb' 16 8 ++ w.extractLsb' 8 8 ++ w.extractLsb' 0 8 = w := by
  apply eq_of_getLsbD_eq
  intro i hi
  simp only [getLsbD_append, getLsbD_extractLsb']
  by_cases h0 : i < 8
  · simp [h0]
  by_cases h1 : i < 16
  · simp [h0, show i - 8 < 8 by omega, show 8 + (i - 8) = i by omega]
  by_cases h2 : i < 24
  · simp [h0, show ¬ i - 8 < 8 by omega, show i - 8 - 8 < 8 by omega,
      show 16 + (i - 8 - 8) = i by omega]
  · simp [h0, show ¬ i - 8 < 8 by omega, show ¬ i - 8 - 8 < 8 by omega,
      show i - 8 - 8 - 8 < 8 by omega, show 24 + (i - 8 - 8 - 8) = i by omega]

theorem read32_write32_self : read32 (write32 m a w) a = w := by
  have h0 : write32 m a w a = w.extractLsb' 0 8 := by simpa using write32_add (m := m) 0 (by omega)
  have h1 : write32 m a w (a + 1) = w.extractLsb' 8 8 := write32_add 1 (by omega)
  have h2 : write32 m a w (a + 2) = w.extractLsb' 16 8 := write32_add 2 (by omega)
  have h3 : write32 m a w (a + 3) = w.extractLsb' 24 8 := write32_add 3 (by omega)
  unfold read32
  rw [h0, h1, h2, h3]
  exact join_bytes w

/-- Byte `k` of a word. -/
abbrev byte (w : BitVec 32) (k : Nat) : BitVec 8 := w.extractLsb' (8 * k) 8

theorem byte_read32 {k : Nat} (hk : k < 4) : byte (read32 m a) k = m (a + BitVec.ofNat 32 k) := by
  have hhigh : ∀ {v : Nat} (y : BitVec v) (b : BitVec 8) (k : Nat),
      (y ++ b).extractLsb' (8 * (k + 1)) 8 = y.extractLsb' (8 * k) 8 := by
    intro v y b k
    rw [extractLsb'_append_eq_of_le (by omega), Nat.mul_add, Nat.add_sub_cancel]
  unfold read32
  interval_cases k
  · rw [byte, Nat.mul_zero, extractLsb'_append_eq_right, BitVec.add_zero]
  · rw [byte, hhigh _ _ 0, Nat.mul_zero, extractLsb'_append_eq_right]
    rfl
  · rw [byte, hhigh _ _ 1, hhigh _ _ 0, Nat.mul_zero, extractLsb'_append_eq_right]
    rfl
  · rw [byte, hhigh _ _ 2, hhigh _ _ 1, hhigh _ _ 0, Nat.mul_zero, extractLsb'_eq_self]
    rfl

theorem read32_eq_iff : read32 m a = w ↔ ∀ k < 4, m (a + BitVec.ofNat 32 k) = byte w k := by
  constructor
  · rintro rfl k hk
    exact (byte_read32 hk).symm
  · intro h
    exact (read32_congr fun k hk => (h k hk).trans (write32_add k hk).symm).trans
      (read32_write32_self (m := m))

theorem read32_write32_of_apart (h : 4 ≤ (b - a).toNat) (h' : 4 ≤ (a - b).toNat) :
    read32 (write32 m a w) b = read32 m b := by
  refine read32_congr fun k hk => write32_of_le ?_
  have hb := b.isLt
  have ha := a.isLt
  rw [toNat_sub] at h h' ⊢
  rw [toNat_add, toNat_ofNat]
  omega

/-- The same, for two words at known distances from one place. -/
theorem read32_write32_add {i j : BitVec 32} (h : 4 ≤ (j - i).toNat) (h' : 4 ≤ (i - j).toNat) :
    read32 (write32 m (a + i) w) (a + j) = read32 m (a + j) := by
  have hsub : ∀ x y : BitVec 32, a + x - (a + y) = x - y := by
    intro x y
    bv_omega
  refine read32_write32_of_apart ?_ ?_
  · rw [hsub]
    exact h
  · rw [hsub]
    exact h'

theorem write32_of_beyond {i : BitVec 32} (h : i.toNat + 4 ≤ (x - a).toNat) :
    write32 m (a + i) w x = m x := by
  have hsub : x - (a + i) = x - a - i := by bv_omega
  refine write32_of_le ?_
  have hlt := (x - a).isLt
  have hi := i.isLt
  rw [hsub, toNat_sub]
  omega

end Bytes
