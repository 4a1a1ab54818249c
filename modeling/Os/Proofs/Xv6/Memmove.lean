/-
When the two `memmove` do the same.

The loop of `ulib.c` only goes up.  A byte of the source that it has written over by the time it
reads it is one of the source again, further down by the distance of the ranges, and so the bytes
it should have moved up are right if they were the same before.
-/
import Os.Xv6.Memmove
import Os.Proofs.Jos.Memmove

namespace Xv6

open Function
open Jos (Word copyUp movs movs_zero)

variable {mem : Word → BitVec 8} {d s a : Word} {n : Nat}

/-- The byte behind the first `n`. -/
theorem eq_add_ofNat_iff (hn : n < 2 ^ 32) : a = d + BitVec.ofNat 32 n ↔ (a - d).toNat = n := by
  rw [← sub_eq_iff_eq_add', BitVec.toNat_eq, BitVec.toNat_ofNat, Nat.mod_eq_of_lt hn]

theorem movs_succ (hn : n < 2 ^ 32) :
    movs (n + 1) mem d s =
      update (movs n mem d s) (d + BitVec.ofNat 32 n) (mem (s + BitVec.ofNat 32 n)) := by
  funext a
  simp only [update_apply, eq_add_ofNat_iff hn, movs]
  by_cases ha : (a - d).toNat = n
  · rw [if_pos (by omega), if_pos ha, ← ha, BitVec.ofNat_toNat, BitVec.setWidth_eq]
  · simp only [if_neg ha, show (a - d).toNat < n + 1 ↔ (a - d).toNat < n by omega]

/-- The loop, with the last byte apart. -/
theorem copyUp_succ : copyUp (n + 1) mem d s = update (copyUp n mem d s)
    (d + BitVec.ofNat 32 n) (copyUp n mem d s (s + BitVec.ofNat 32 n)) := by
  induction n generalizing mem d s with
  | zero => simp [copyUp]
  | succ n ih =>
    rw [copyUp, ih, copyUp, Jos.add_ofNat_succ, Jos.add_ofNat_succ]

/-- Nothing is written behind the destination. -/
theorem copyUp_beyond (hn : n < 2 ^ 32) (ha : n ≤ (a - d).toNat) :
    copyUp n mem d s a = mem a := by
  induction n with
  | zero => rfl
  | succ n ih =>
    rw [copyUp_succ, update_of_ne, ih (by omega) (by omega)]
    rw [Ne, eq_add_ofNat_iff (by omega)]
    omega

/-- What the loop reads last, when all was right before. -/
theorem movs_read (hn : n < 2 ^ 32) :
    movs n mem d s (s + BitVec.ofNat 32 n) = mem (s + BitVec.ofNat 32 n) ↔
      ∀ j, j + (d - s).toNat = n → mem (d + BitVec.ofNat 32 j) = mem (s + BitVec.ofNat 32 j) := by
  have hback : s + BitVec.ofNat 32 (d - s).toNat = d := Jos.add_ofNat_sub d s
  by_cases hk : (d - s).toNat ≤ n
  · -- the byte was the `j`th to be written
    obtain ⟨j, rfl⟩ := Nat.exists_eq_add_of_le' hk
    have hread : s + BitVec.ofNat 32 (j + (d - s).toNat) = d + BitVec.ofNat 32 j := by
      rw [BitVec.ofNat_add, add_left_comm, hback, add_comm]
    have hj : (d + BitVec.ofNat 32 j - d).toNat = j := (eq_add_ofNat_iff (by omega)).mp rfl
    rw [hread, movs, hj, add_sub_cancel_left]
    simp only [Nat.add_right_cancel_iff, forall_eq]
    split
    next => exact eq_comm
    next hlt =>
      have hsame : d = s := sub_eq_zero.mp (BitVec.eq_of_toNat_eq (by omega : _ = 0))
      rw [hsame]
  · have hfar : ¬(s + BitVec.ofNat 32 n - d).toNat < n := by
      have hlt := (d - s).isLt
      rw [show s + BitVec.ofNat 32 n - d = BitVec.ofNat 32 n - (d - s) by abel, BitVec.toNat_sub,
        BitVec.toNat_ofNat, Nat.mod_eq_of_lt hn]
      omega
    rw [movs, if_neg hfar]
    exact ⟨fun _ j hj => absurd hj (by omega), fun _ => rfl⟩

/-- The loop moves the bytes as they were if and only if those it writes over before it has read
them were right already. -/
theorem copyUp_eq_movs_iff (hn : n < 2 ^ 32) :
    copyUp n mem d s = movs n mem d s ↔
      ∀ j, j + (d - s).toNat < n → mem (d + BitVec.ofNat 32 j) = mem (s + BitVec.ofNat 32 j) := by
  induction n with
  | zero => simp [copyUp, movs_zero]
  | succ n ih =>
    have hn' : n < 2 ^ 32 := by omega
    have hstep : copyUp (n + 1) mem d s = movs (n + 1) mem d s ↔ copyUp n mem d s = movs n mem d s ∧
        copyUp n mem d s (s + BitVec.ofNat 32 n) = mem (s + BitVec.ofNat 32 n) := by
      rw [copyUp_succ, movs_succ hn']
      refine ⟨fun h => ⟨funext fun a => ?_, ?_⟩, fun h => by rw [h.2, h.1]⟩
      · by_cases ha : a = d + BitVec.ofNat 32 n
        · have hge : (a - d).toNat = n := (eq_add_ofNat_iff hn').mp ha
          rw [copyUp_beyond hn' hge.ge, movs, if_neg hge.not_lt]
        · simpa [ha] using congrFun h a
      · simpa using congrFun h (d + BitVec.ofNat 32 n)
    rw [hstep, and_congr_right fun heq => by rw [heq, movs_read hn'], ih hn']
    simp only [Nat.lt_succ_iff_lt_or_eq, or_imp, forall_and]

/-- The bytes of the destination that are also of the source. -/
theorem add_distance_lt_iff {dst src n : Word} (hd : dst.toNat + n.toNat ≤ 2 ^ 32)
    (hs : src.toNat + n.toNat ≤ 2 ^ 32) (j : Nat) :
    j + (dst - src).toNat < n.toNat ↔ src ≤ dst ∧ dst.toNat + j < src.toNat + n.toNat := by
  rw [BitVec.le_def, BitVec.toNat_sub]
  omega

/-- **The two `memmove`**: that of the kernel moves the bytes as they were before, whatever the
overlap, and changes no others; that of the programs does the same if and only if the bytes of the
source that lie behind the beginning of the destination were already right. -/
theorem memmoves_agree_iff (mem : Word → BitVec 8) {dst src n : Word} (hn : 0 ≤ n.toInt)
    (hd : dst.toNat + n.toNat ≤ 2 ^ 32) (hs : src.toNat + n.toNat ≤ 2 ^ 32) :
    (∀ i < n.toNat, memmove mem dst src n (dst + BitVec.ofNat 32 i) =
      mem (src + BitVec.ofNat 32 i)) ∧
    (∀ a, (∀ i < n.toNat, a ≠ dst + BitVec.ofNat 32 i) → memmove mem dst src n a = mem a) ∧
    (ulibMemmove mem dst src n = memmove mem dst src n ↔
      (src ≤ dst → ∀ i, dst.toNat + i < src.toNat + n.toNat →
        mem (dst + BitVec.ofNat 32 i) = mem (src + BitVec.ofNat 32 i))) := by
  have hlen : n.toInt.toNat = n.toNat := by
    rw [BitVec.toInt_eq_toNat_cond] at hn ⊢
    split at hn
    next h => rw [if_pos h, Int.toNat_natCast]
    next => omega
  rw [memmove, Jos.memmove_eq hd hs, ulibMemmove, hlen, copyUp_eq_movs_iff n.isLt]
  refine ⟨fun i hi => Jos.movs_inside n.isLt hi, fun a ha => Jos.movs_outside ha, ?_⟩
  simp only [add_distance_lt_iff hd hs, and_imp]
  exact ⟨fun h hle i => h i hle, fun h i hle => h hle i⟩

/-- Two bytes are moved down by one. -/
theorem memmoves_agree_down : ulibMemmove (fun a => a.setWidth 8) 0 1 2 =
    memmove (fun a => a.setWidth 8) 0 1 2 :=
  (memmoves_agree_iff _ (by decide) (by decide) (by decide)).2.2.mpr fun hle =>
    absurd hle (by decide)

/-- Two bytes are moved up by one, and the first is moved twice. -/
theorem memmoves_differ_up : ulibMemmove (fun a => a.setWidth 8) 1 0 2 2 = 0 ∧
    memmove (fun a => a.setWidth 8) 1 0 2 2 = 1 := by
  decide

end Xv6
