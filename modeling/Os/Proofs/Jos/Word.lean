/-
The address macros as arithmetic.

The source takes addresses apart with shifts and masks.  Read as numbers, the
directory index is the quotient by 4 MiB, the table index the next ten bits, and the
frame of an entry its quotient by the page size; every later fact about addresses is
then linear arithmetic.
-/
import Os.Jos.Pmap

namespace Jos

open BitVec

variable {M : Machine}

theorem toNat_and_mask10 (w : Word) : (w &&& 0x3FF).toNat = w.toNat % 1024 := by
  rw [toNat_and]
  exact Nat.and_two_pow_sub_one_eq_mod _ 10

theorem toNat_and_not_add (w m : Word) : (w &&& ~~~m).toNat + (w &&& m).toNat = w.toNat := by
  have hdisj : (w &&& ~~~m) &&& (w &&& m) = 0 := by
    ext i
    simp +contextual
  have hjoin : (w &&& ~~~m) + (w &&& m) = w := by
    have hall : ~~~m ||| m = BitVec.allOnes 32 := by
      ext i hi
      simp only [getElem_or, getElem_not, getElem_allOnes, Bool.not_or_self]
    rw [add_eq_or_of_and_eq_zero _ _ hdisj, ← and_or_distrib_left, hall,
      and_allOnes]
  have hsum := toNat_add_of_and_eq_zero hdisj
  rw [hjoin] at hsum
  exact hsum.symm

/-- Masking the low ten bits off takes the remainder away. -/
theorem toNat_and_not_mask10 (w : Word) : (w &&& ~~~0x3FF).toNat + w.toNat % 1024 = w.toNat := by
  rw [← toNat_and_mask10, toNat_and_not_add]

theorem sle_zero_iff (w : Word) : w.sle 0 = true ↔ w.toNat = 0 ∨ 2147483648 ≤ w.toNat := by
  have hw : w.toNat < 4294967296 := w.isLt
  have h0 : (0 : Word).toInt = 0 := rfl
  rw [sle_iff_toInt_le, toInt_eq_toNat_cond, h0]
  split <;> omega

theorem val_pdx (va : Word) : (pdx va).val = va.toNat / 4194304 := by
  have h : va.toNat < 4294967296 := va.isLt
  unfold pdx
  rw [toNat_and_mask10, Fin.val_ofNat, toNat_ushiftRight, Nat.shiftRight_eq_div_pow]
  show va.toNat / 2 ^ 22 % 1024 % 1024 = _
  omega

theorem val_ptx (va : Word) : (ptx va).val = va.toNat / 4096 % 1024 := by
  unfold ptx
  rw [toNat_and_mask10, Fin.val_ofNat, toNat_ushiftRight, Nat.shiftRight_eq_div_pow]
  show va.toNat / 2 ^ 12 % 1024 % 1024 = _
  omega

theorem toNat_pgoff (va : Word) : (pgoff va).toNat = va.toNat % 4096 := by
  unfold pgoff
  rw [toNat_and]
  exact Nat.and_two_pow_sub_one_eq_mod _ 12

theorem toNat_rounddown (a : Word) : (rounddown a pgsize).toNat = a.toNat - a.toNat % 4096 := by
  have ha : a.toNat < 4294967296 := a.isLt
  unfold rounddown
  rw [toNat_sub, toNat_umod]
  show (2 ^ 32 - a.toNat % 4096 + a.toNat) % 2 ^ 32 = _
  omega

theorem toNat_pgsize_sub_one {a : Word} (h : a.toNat ≤ 4294963200) :
    (a + pgsize - 1).toNat = a.toNat + 4095 := by
  rw [toNat_sub, toNat_add]
  show (2 ^ 32 - 1 + (a.toNat + 4096) % 2 ^ 32) % 2 ^ 32 = _
  omega

theorem toNat_roundup {a : Word} (h : a.toNat ≤ 4294963200) :
    (roundup a pgsize).toNat = (a.toNat + 4095) / 4096 * 4096 := by
  unfold roundup
  rw [toNat_rounddown, toNat_pgsize_sub_one h]
  omega

theorem toNat_roundup_mod (a : Word) : (roundup a pgsize).toNat % 4096 = 0 := by
  unfold roundup
  rw [toNat_rounddown]
  omega

theorem val_envx (id : Word) : (envx id).val = id.toNat % 1024 := by
  unfold envx
  rw [toNat_and_mask10, Fin.val_ofNat]
  show id.toNat % 1024 % 1024 = _
  omega

/-! ### Building an address from its indices -/

section

variable (d : Fin npdentries) (t : Fin nptentries)
include d t

theorem toNat_pgaddr :
    (pgaddr d t 0).toNat = d.val * 4194304 + t.val * 4096 := by
  have hd : d.val < 1024 := d.isLt
  have ht : t.val < 1024 := t.isLt
  have hdw : (BitVec.ofNat 32 d.val <<< 22).toNat = d.val <<< 22 := by
    rw [toNat_shiftLeft, toNat_ofNat, Nat.shiftLeft_eq, Nat.shiftLeft_eq]
    omega
  have htw : (BitVec.ofNat 32 t.val <<< 12).toNat = t.val * 4096 := by
    rw [toNat_shiftLeft, toNat_ofNat, Nat.shiftLeft_eq]
    omega
  show (BitVec.ofNat 32 d.val <<< 22 ||| BitVec.ofNat 32 t.val <<< 12 ||| 0#32).toNat = _
  rw [or_zero, toNat_or, hdw, htw, ← Nat.shiftLeft_add_eq_or_of_lt (by omega),
    Nat.shiftLeft_eq]

@[simp] theorem pdx_pgaddr :
    pdx (pgaddr d t 0) = d := by
  have ht : t.val < 1024 := t.isLt
  apply Fin.ext
  rw [val_pdx, toNat_pgaddr]
  omega

@[simp] theorem ptx_pgaddr :
    ptx (pgaddr d t 0) = t := by
  have ht : t.val < 1024 := t.isLt
  apply Fin.ext
  rw [val_ptx, toNat_pgaddr]
  omega

end

/-! ### The user half of the address space -/

theorem toNat_utop : utop.toNat = 955 * 4194304 := by decide

/-- An address below `UTOP` has a directory index of the user half. -/
theorem pdx_lt_of_lt_utop {va : Word} (h : va < utop) : (pdx va).val < 955 := by
  have h' : va.toNat < utop.toNat := h
  rw [toNat_utop] at h'
  rw [val_pdx]
  omega

/-- The directory index of a user address, as one of the user half. -/
def upde (va : Word) (h : va < utop) : Upde := ⟨(pdx va).val, pdx_lt_of_lt_utop h⟩

@[simp] theorem toPde_upde (va : Word) (h : va < utop) : toPde (upde va h) = pdx va := rfl

theorem toPde_injective {i i' : Upde} (h : toPde i = toPde i') : i = i' :=
  Fin.ext (congrArg Fin.val h :)

/-! ### Entries -/

theorem toNat_page2pa (p : Ppn M) : (page2pa p).toNat = p.val * 4096 := by
  have hp : p.val < 65536 := Nat.lt_of_lt_of_le p.isLt M.npagesLe
  unfold page2pa
  rw [toNat_shiftLeft, toNat_ofNat, Nat.shiftLeft_eq]
  omega

theorem pgnum_pteAddr (w : Word) : pgnum (pteAddr w) = w.toNat / 4096 := by
  have hw : w.toNat < 4294967296 := w.isLt
  have hmask : (~~~0xFFF : Word) >>> 12 = 0xFFFFF := by decide
  unfold pgnum pteAddr
  rw [ushiftRight_and_distrib, hmask, toNat_and, toNat_ushiftRight,
    Nat.shiftRight_eq_div_pow]
  show w.toNat / 2 ^ 12 &&& 2 ^ 20 - 1 = _
  rw [Nat.and_two_pow_sub_one_eq_mod]
  omega

/-- Only the low twelve bits are set. -/
abbrev FlagsOnly (f : Word) : Prop := f.toNat < 4096

theorem flagsOnly_or {f g : Word} (hf : FlagsOnly f) (hg : FlagsOnly g) : FlagsOnly (f ||| g) := by
  show (f ||| g).toNat < 2 ^ 12
  rw [toNat_or]
  exact Nat.or_lt_two_pow hf hg

/-- The frame of an entry made of a page and flags is that page. -/
theorem frame_page2pa_or (p : Ppn M) {f : Word} (hf : FlagsOnly f) :
    frame M (pteAddr (page2pa p ||| f)) = some p := by
  have hnum : pgnum (pteAddr (page2pa p ||| f)) = p.val := by
    have hshift : p.val * 4096 = p.val <<< 12 := by rw [Nat.shiftLeft_eq]
    rw [pgnum_pteAddr, toNat_or, toNat_page2pa, hshift,
      ← Nat.shiftLeft_add_eq_or_of_lt (show f.toNat < 2 ^ 12 from hf), Nat.shiftLeft_eq]
    have hf' : f.toNat < 4096 := hf
    omega
  simp [frame, hnum]

theorem page2pa_and_flags (p : Ppn M) {f : Word} (hf : FlagsOnly f) : page2pa p &&& f = 0 := by
  apply eq_of_toNat_eq
  have hshift : p.val * 4096 = p.val <<< 12 := by rw [Nat.shiftLeft_eq]
  rw [toNat_and, toNat_page2pa, hshift]
  show _ = 0
  apply Nat.eq_of_testBit_eq
  intro i
  rw [Nat.testBit_and, Nat.testBit_shiftLeft, Nat.zero_testBit]
  by_cases hi : 12 ≤ i
  · have hpow : 2 ^ 12 ≤ 2 ^ i := Nat.pow_le_pow_right (Nat.succ_pos 1) hi
    have hbit : f.toNat.testBit i = false :=
      Nat.testBit_lt_two_pow (Nat.lt_of_lt_of_le (show f.toNat < 2 ^ 12 from hf) hpow)
    simp [hbit]
  · simp [hi]

/-- The flags of an entry are the ones it was made with. -/
theorem pte_and_flags (p : Ppn M) (perm : Word) {f : Word} (hf : FlagsOnly f) :
    (page2pa p ||| perm ||| pteP) &&& f = (perm ||| pteP) &&& f := by
  rw [BitVec.or_assoc, and_or_distrib_right, page2pa_and_flags p hf]
  exact zero_or

theorem frame_or_flags (w : Word) {f : Word} (hf : FlagsOnly f) :
    frame M (pteAddr (w ||| f)) = frame M (pteAddr w) := by
  have hnum : pgnum (pteAddr (w ||| f)) = pgnum (pteAddr w) := by
    rw [pgnum_pteAddr, pgnum_pteAddr, toNat_or,
      ← Nat.shiftRight_eq_div_pow _ 12, ← Nat.shiftRight_eq_div_pow _ 12,
      Nat.shiftRight_or_distrib, Nat.shiftRight_eq_div_pow f.toNat 12,
      Nat.div_eq_of_lt (show f.toNat < 2 ^ 12 from hf), Nat.or_zero]
  simp [frame, hnum]

theorem present_or_left {w f : Word} (h : present w) : present (w ||| f) := by
  intro hc
  apply h
  rw [and_or_distrib_right] at hc
  exact (or_eq_zero_iff.mp hc).1

theorem present_or_right {w f : Word} (h : present f) : present (w ||| f) := by
  rw [BitVec.or_comm]
  exact present_or_left h

theorem not_present_zero : ¬ present 0 := by decide

theorem present_pteP : present pteP := by decide

theorem flagsOnly_pteP : FlagsOnly pteP := by decide

theorem flagsOnly_regionPerm : FlagsOnly (pteW ||| pteU) := by decide

/-- A permission that passes the system calls' test has no bit above the flags. -/
theorem flagsOnly_of_syscall {perm : Word} (h : perm &&& ~~~pteSyscall = 0) : FlagsOnly perm := by
  have hsub : perm = perm &&& pteSyscall := by
    have hall : perm &&& (pteSyscall ||| ~~~pteSyscall) = perm := by
      rw [show pteSyscall ||| ~~~pteSyscall = BitVec.allOnes 32 by decide, and_allOnes]
    rw [and_or_distrib_left, h] at hall
    simpa using hall.symm
  show perm.toNat < 4096
  rw [hsub, toNat_and]
  exact Nat.lt_of_le_of_lt Nat.and_le_right (by decide)

end Jos
