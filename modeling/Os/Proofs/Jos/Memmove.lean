/-
Both `memmove` are one `movs` of all bytes.

A copy in pieces reads what was there before as long as no piece is written over bytes that are
still to be read.
-/
import Os.Jos.Memmove
import Os.Proofs.Jos.UserBytes
import Mathlib.Data.BitVec
import Mathlib.Tactic.Abel

namespace Jos

variable {mem : Word → BitVec 8} {d s : Word} {u n : Nat}

/-- Going up, no byte is written before it is read. -/
def SafeUp (d s : Word) (n : Nat) : Prop :=
  ∀ i j, i < j → j < n → d + BitVec.ofNat 32 i ≠ s + BitVec.ofNat 32 j

/-- Going down, no byte is written before it is read. -/
def SafeDown (d s : Word) (n : Nat) : Prop :=
  ∀ i j, j < i → i < n → d + BitVec.ofNat 32 i ≠ s + BitVec.ofNat 32 j

theorem add_ofNat_sub (a d : Word) : d + BitVec.ofNat 32 (a - d).toNat = a := by
  rw [BitVec.ofNat_toNat, BitVec.setWidth_eq, add_sub_cancel]

/-- The bytes from `u` on. -/
theorem sub_add_toNat_lt (a : Word) (h : u + n < 2 ^ 32) :
    (a - (d + BitVec.ofNat 32 u)).toNat < n ↔ u ≤ (a - d).toNat ∧ (a - d).toNat < u + n := by
  have hlt := (a - d).isLt
  rw [← sub_sub, BitVec.toNat_sub, BitVec.toNat_ofNat, Nat.mod_eq_of_lt (by omega : u < 2 ^ 32)]
  omega

theorem add_sub_add (s a d k : Word) : s + k + (a - (d + k)) = s + (a - d) := by
  abel

theorem movs_up (h : SafeUp d s (u + n)) (hle : u + n < 2 ^ 32) :
    movs n (movs u mem d s) (d + BitVec.ofNat 32 u) (s + BitVec.ofNat 32 u) =
      movs (u + n) mem d s := by
  funext a
  simp only [movs, sub_add_toNat_lt a hle, add_sub_add]
  by_cases hu : (a - d).toNat < u
  · rw [if_neg (by omega), if_pos hu, if_pos (by omega)]
  by_cases hn : (a - d).toNat < u + n
  · rw [if_pos (by omega), if_pos hn, if_neg]
    intro hc
    refine h _ _ (by omega : (s + (a - d) - d).toNat < (a - d).toNat) hn ?_
    rw [add_ofNat_sub, BitVec.ofNat_toNat, BitVec.setWidth_eq]
  · rw [if_neg (by omega), if_neg hu, if_neg hn]

theorem movs_down (h : SafeDown d s (n + u)) (hle : n + u < 2 ^ 32) :
    movs n (movs u mem (d + BitVec.ofNat 32 n) (s + BitVec.ofNat 32 n)) d s =
      movs (n + u) mem d s := by
  funext a
  simp only [movs, sub_add_toNat_lt _ hle, add_sub_add]
  by_cases hn : (a - d).toNat < n
  · rw [if_pos hn, if_pos (by omega : (a - d).toNat < n + u), if_neg]
    intro hc
    refine h _ _ (by omega : (a - d).toNat < (s + (a - d) - d).toNat) hc.2 ?_
    rw [add_ofNat_sub, BitVec.ofNat_toNat, BitVec.setWidth_eq]
  by_cases hu : (a - d).toNat < n + u
  · rw [if_neg hn, if_pos (by omega), if_pos hu]
  · rw [if_neg hn, if_neg (by omega), if_neg hu]

/-- What one `movs` of all bytes leaves. -/
theorem movs_inside {i : Nat} (hn : n < 2 ^ 32) (hi : i < n) :
    movs n mem d s (d + BitVec.ofNat 32 i) = mem (s + BitVec.ofNat 32 i) := by
  rw [movs, add_sub_cancel_left, BitVec.toNat_ofNat, Nat.mod_eq_of_lt (by omega), if_pos hi]

theorem movs_outside {a : Word} (ha : ∀ i < n, a ≠ d + BitVec.ofNat 32 i) :
    movs n mem d s a = mem a :=
  if_neg fun hc => ha _ hc (add_ofNat_sub a d).symm

theorem movs_zero : movs 0 mem d s = mem := by
  funext a
  exact if_neg (Nat.not_lt_zero _)

theorem repMovs_up (h : SafeUp d s (u * n)) (hle : u * n < 2 ^ 32) :
    repMovs u false n mem d s = movs (u * n) mem d s := by
  induction n generalizing mem d s with
  | zero => exact movs_zero.symm
  | succ n ih =>
    rw [Nat.mul_succ, Nat.add_comm (u * n)] at h hle ⊢
    rw [← movs_up h hle]
    refine ih (fun i j hij hj => ?_) (by omega)
    rw [add_assoc, add_assoc, ← BitVec.ofNat_add, ← BitVec.ofNat_add]
    exact h (u + i) (u + j) (by omega) (by omega)

theorem repMovs_down (h : SafeDown d s (u * n)) (hle : u * n < 2 ^ 32) :
    repMovs u true n mem (d + BitVec.ofNat 32 (u * n) - BitVec.ofNat 32 u)
      (s + BitVec.ofNat 32 (u * n) - BitVec.ofNat 32 u) = movs (u * n) mem d s := by
  induction n generalizing mem with
  | zero => exact movs_zero.symm
  | succ n ih =>
    rw [Nat.mul_succ] at h hle ⊢
    rw [← movs_down h hle, BitVec.ofNat_add, ← add_assoc, ← add_assoc, add_sub_cancel_right,
      add_sub_cancel_right]
    exact ih (fun i j hij hi => h i j hij (by omega)) (by omega)

theorem movs_one : movs 1 mem d s = Function.update mem d (mem s) := by
  funext a
  rw [movs, Function.update_apply]
  by_cases ha : a = d
  · simp [ha]
  · have hne : (a - d).toNat ≠ 0 := fun hc => ha (sub_eq_zero.mp (BitVec.eq_of_toNat_eq hc))
    rw [if_neg ha, if_neg (by omega)]

theorem copyUp_eq : copyUp n mem d s = repMovs 1 false n mem d s := by
  induction n generalizing mem d s with
  | zero => rfl
  | succ n ih =>
    rw [copyUp, ih, ← movs_one]
    rfl

theorem copyDown_eq : copyDown n mem d s = repMovs 1 true n mem (d - 1) (s - 1) := by
  induction n generalizing mem d s with
  | zero => rfl
  | succ n ih =>
    rw [copyDown, ih, ← movs_one]
    rfl

section

variable {dst src n : Word} (hd : dst.toNat + n.toNat ≤ 2 ^ 32) (hs : src.toNat + n.toNat ≤ 2 ^ 32)
include hd hs

theorem ne_of_toNat_add_ne {i j : Nat} (hi : i < n.toNat) (hj : j < n.toNat)
    (h : dst.toNat + i ≠ src.toNat + j) : dst + BitVec.ofNat 32 i ≠ src + BitVec.ofNat 32 j := by
  intro heq
  have hnat := congrArg BitVec.toNat heq
  rw [toNat_add_ofNat (by omega), toNat_add_ofNat (by omega)] at hnat
  exact h hnat

/-- The ranges overlap, and the source begins first. -/
theorem safeDown (h : src < dst) : SafeDown dst src n.toNat :=
  fun i j hij hi => ne_of_toNat_add_ne hd hs hi (by omega) (by have := BitVec.lt_def.mp h; omega)

theorem safeUp (h : ¬(src < dst ∧ dst < src + n)) : SafeUp dst src n.toNat := by
  intro i j hij hj
  refine ne_of_toNat_add_ne hd hs (by omega) hj ?_
  rw [BitVec.lt_def, BitVec.lt_def, BitVec.toNat_add] at h
  omega

/-- Whatever the pieces are, going up. -/
theorem pieces_up (h : ¬(src < dst ∧ dst < src + n)) {q : Nat} (hq : u * q = n.toNat) :
    repMovs u false q mem dst src = movs n.toNat mem dst src := by
  rw [repMovs_up (hq ▸ safeUp hd hs h) (hq ▸ n.isLt), hq]

theorem pieces_down (h : src < dst) {q : Nat} (hq : u * q = n.toNat) :
    repMovs u true q mem (dst + n - BitVec.ofNat 32 u) (src + n - BitVec.ofNat 32 u) =
      movs n.toNat mem dst src := by
  have hend : _ = movs (u * q) mem dst src :=
    repMovs_down (hq ▸ safeDown hd hs h) (hq ▸ n.isLt)
  rwa [hq, BitVec.ofNat_toNat, BitVec.setWidth_eq] at hend

theorem memmoveAsm_eq : memmoveAsm mem dst src n = movs n.toNat mem dst src := by
  unfold memmoveAsm
  split
  next h =>
    dsimp only
    split
    next hal => exact pieces_down hd hs h.1 (by omega)
    next => exact pieces_down hd hs h.1 (one_mul _)
  next h =>
    split
    next hal => exact pieces_up hd hs h (by omega)
    next => exact pieces_up hd hs h (one_mul _)

theorem memmove_eq : memmove mem dst src n = movs n.toNat mem dst src := by
  unfold memmove
  split
  next h =>
    rw [copyDown_eq]
    exact pieces_down hd hs h.1 (one_mul _)
  next h =>
    rw [copyUp_eq]
    exact pieces_up hd hs h (one_mul _)

end

/-- **Moving memory**: the string instructions move the bytes as they were before, whatever the
overlap, and change no others; the loops do the same. -/
theorem memmove_moves (mem : Word → BitVec 8) {dst src n : Word}
    (hd : dst.toNat + n.toNat ≤ 2 ^ 32) (hs : src.toNat + n.toNat ≤ 2 ^ 32) :
    (∀ i < n.toNat, memmoveAsm mem dst src n (dst + BitVec.ofNat 32 i) =
      mem (src + BitVec.ofNat 32 i)) ∧
    (∀ a, (∀ i < n.toNat, a ≠ dst + BitVec.ofNat 32 i) → memmoveAsm mem dst src n a = mem a) ∧
    memmoveAsm mem dst src n = memmove mem dst src n := by
  rw [memmoveAsm_eq hd hs, memmove_eq hd hs]
  exact ⟨fun i hi => movs_inside n.isLt hi, fun a ha => movs_outside ha, rfl⟩

/-- Two words are moved up by one. -/
theorem memmove_moves_words : memmoveAsm (fun a => a.setWidth 8) 4 0 8 8 = 4 :=
  (memmove_moves (fun a => a.setWidth 8) (by decide) (by decide)).1 4 (by decide)

end Jos
