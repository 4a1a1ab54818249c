/-
The rounding macros of xv6 as arithmetic.
-/
import Os.Xv6.Vm
import Os.Proofs.Jos.Word

namespace Xv6

open BitVec
open Jos (val_pdx val_ptx toNat_pgoff toNat_and_not_add toNat_pgsize_sub_one)

variable {M : Machine}

theorem toNat_pgrounddown (a : Word) : (pgrounddown a).toNat = a.toNat / 4096 * 4096 := by
  have hsum := toNat_and_not_add a 0xFFF
  have hoff : (a &&& 0xFFF).toNat = a.toNat % 4096 := toNat_pgoff a
  have hdown : pgrounddown a = a &&& ~~~0xFFF := by
    unfold pgrounddown
    rw [show (pgsize - 1 : Word) = 0xFFF by decide]
  rw [hdown]
  omega

theorem toNat_pgroundup {a : Word} (h : a.toNat ≤ 4294963200) :
    (pgroundup a).toNat = (a.toNat + 4095) / 4096 * 4096 := by
  have hup : pgroundup a = pgrounddown (a + pgsize - 1) := rfl
  rw [hup, toNat_pgrounddown, toNat_pgsize_sub_one h]

theorem toNat_kernbase : kernbase.toNat = 2147483648 := by decide

theorem toNat_add_pgsize {a : Word} (h : a.toNat < 4294963200) :
    (a + pgsize).toNat = a.toNat + 4096 := by
  rw [toNat_add]
  show (a.toNat + 4096) % 2 ^ 32 = _
  omega

/-- The number of the page an address lies in. -/
abbrev vpn (va : Word) : Nat := va.toNat / 4096

theorem vpn_add_pgsize {a : Word} (h : a.toNat < 4294963200) : vpn (a + pgsize) = vpn a + 1 := by
  rw [vpn, vpn, toNat_add_pgsize h]
  omega

/-- An address is in the user's half exactly when its directory index is. -/
theorem pdx_lt_iff {va : Word} : (pdx va).val < 512 ↔ va.toNat < 2147483648 := by
  rw [val_pdx]
  omega

theorem vpn_eq_iff {va va' : Word} : vpn va = vpn va' ↔ pdx va = pdx va' ∧ ptx va = ptx va' := by
  have hva : va.toNat < 4294967296 := va.isLt
  have hva' : va'.toNat < 4294967296 := va'.isLt
  rw [Fin.ext_iff, Fin.ext_iff, val_pdx, val_pdx, val_ptx, val_ptx]
  constructor
  · intro h
    have hdiv : va.toNat / 4096 = va'.toNat / 4096 := h
    constructor <;> omega
  · intro ⟨hd, ht⟩
    show va.toNat / 4096 = va'.toNat / 4096
    omega

theorem pgrounddown_of_aligned {a : Word} (h : a.toNat % 4096 = 0) : pgrounddown a = a := by
  apply eq_of_toNat_eq
  rw [toNat_pgrounddown]
  omega

theorem mappages_page {m : Kmem M} {pgdir : Ppn M} {va pa perm : Word} (h : va.toNat % 4096 = 0) :
    mappages m pgdir va pgsize pa perm = mappagesLoop pgdir perm 0 m va pa := by
  have hva : va.toNat < 4294967296 := va.isLt
  have hlast : (va + pgsize - 1).toNat = va.toNat + 4095 := by
    rw [toNat_sub, toNat_add]
    show (2 ^ 32 - 1 + (va.toNat + 4096) % 2 ^ 32) % 2 ^ 32 = _
    omega
  have hround : pgrounddown (va + pgsize - 1) = va := by
    apply eq_of_toNat_eq
    rw [toNat_pgrounddown, hlast]
    omega
  show mappagesLoop pgdir perm ((pgrounddown (va + pgsize - 1) - pgrounddown va) >>> 12).toNat m
    (pgrounddown va) pa = _
  rw [pgrounddown_of_aligned h, hround, BitVec.sub_self]
  rfl

end Xv6
