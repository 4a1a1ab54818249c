/-
Bytes stored at user addresses.

`storeBytes` translates the address of every byte anew.  The bytes go to pages that the
environment maps, and a page table is not one of those, so the translations are the same at the end
as at the beginning.  Two addresses less than a page apart have different offsets in their pages.
So a store that is shorter than a page changes exactly the bytes it is given, wherever its pages
lie in physical memory.
-/
import Os.Proofs.Jos.UserWrites
import Mathlib.Tactic.IntervalCases

namespace Jos

open BitVec

variable {M : Machine} {root : EnvIdx → Option (Ppn M)} {tmp : Option (Ppn M)}
variable {pm pm' : Pmap M} {e e' : EnvIdx} {d p : Ppn M} {va : Word}

/-! ### Bytes of memory -/

theorem extractLsb'_setByte (w : Word) {j k : Nat} (hj : j < 4) (hk : k < 4) (b : BitVec 8) :
    (setByte w j b).extractLsb' (8 * k) 8 = if k = j then b else w.extractLsb' (8 * k) 8 := by
  apply eq_of_getLsbD_eq
  intro i hi
  have hff : ∀ n, (0xFF#32).getLsbD n = decide (n < 8) := by
    intro n
    by_cases hn : n < 32
    · interval_cases n <;> rfl
    · rw [getLsbD_of_ge _ _ (by omega)]
      simp only [Bool.false_eq, decide_eq_false_iff_not]
      omega
  simp only [setByte, getLsbD_extractLsb', getLsbD_or, getLsbD_and,
    getLsbD_not, getLsbD_shiftLeft, getLsbD_setWidth, hff]
  by_cases hkj : k = j
  · subst hkj
    have hlt : 8 * k + i < 32 := by omega
    have hi' : i < 32 := by omega
    simp [hi, hlt, hi']
  · rcases Nat.lt_or_gt_of_ne hkj with hlt | hlt
    · have h1 : 8 * k + i < 32 := by omega
      have h2 : 8 * k + i < 8 * j := by omega
      simp [hi, h1, h2, hkj]
    have h1 : 8 * k + i < 32 := by omega
    have h2 : ¬ 8 * k + i < 8 * j := by omega
    have h3 : ¬ 8 * k + i - 8 * j < 8 := by omega
    have hb : b.getLsbD (8 * k + i - 8 * j) = false := getLsbD_of_ge b _ (by omega)
    simp [hi, h1, h2, h3, hkj, hb]

theorem toNat_and_three (a : Word) : (a &&& 3).toNat = a.toNat % 4 := by
  rw [toNat_and]
  exact Nat.and_two_pow_sub_one_eq_mod _ 2

theorem val_wordIdx (a : Word) : (wordIdx a).val = a.toNat % 4096 / 4 := by
  unfold wordIdx
  rw [Fin.val_ofNat, toNat_ushiftRight, toNat_pgoff, Nat.shiftRight_eq_div_pow]
  show a.toNat % 4096 / 2 ^ 2 % 1024 = _
  omega

/-- The byte of frame `p` at the offset of `va`. -/
def byteAt (pm : Pmap M) (p : Ppn M) (va : Word) : BitVec 8 :=
  (pm.load (p, wordIdx va)).extractLsb' (8 * (va &&& 3).toNat) 8

theorem loadByte_eq (pm : Pmap M) (d : Ppn M) (va : Word) :
    loadByte pm d va = (translate pm d pteP va).map fun p => byteAt pm p va := by
  unfold loadByte
  cases translate pm d pteP va <;> rfl

theorem pgoff_eq_iff {a a' : Word} :
    pgoff a = pgoff a' ↔ wordIdx a = wordIdx a' ∧ (a &&& 3).toNat = (a' &&& 3).toNat := by
  rw [toNat_eq, Fin.ext_iff, val_wordIdx, val_wordIdx, toNat_pgoff, toNat_pgoff,
    toNat_and_three, toNat_and_three]
  omega

/-- **One byte stored** is one byte changed. -/
theorem byteAt_store (pm : Pmap M) (p q : Ppn M) (va a : Word) (b : BitVec 8) :
    byteAt (pm.store (p, wordIdx va) (setByte (pm.load (p, wordIdx va)) (va &&& 3).toNat b)) q a
      = if q = p ∧ pgoff a = pgoff va then b else byteAt pm q a := by
  have hlt : ∀ x : Word, (x &&& 3).toNat < 4 := by
    intro x
    rw [toNat_and_three]
    omega
  simp only [pgoff_eq_iff, byteAt]
  by_cases hword : ((q, wordIdx a) : PtePtr M) = (p, wordIdx va)
  · obtain ⟨rfl, hidx⟩ := Prod.mk.inj hword
    rw [hidx, load_store_self, extractLsb'_setByte _ (hlt va) (hlt a)]
    simp
  · rw [load_store_of_ne hword]
    rw [if_neg]
    rintro ⟨rfl, hidx, -⟩
    exact hword (by rw [hidx])

/-- Stores to mapped pages leave the translations alone. -/
theorem translate_writes {need : Word} (hx : Excl (refs root tmp pm))
    (hw : WritesLeaves (refs root tmp pm) e' pm pm') (hroot : root e = some d) (hva : va < utop)
    (hneed : need &&& pteP = pteP) : translate pm' d need va = translate pm d need va := by
  have hdir : pm'.mem d = pm.mem d := hw.mem_node hx (r := .dir e) trivial hroot
  have hload : pm'.load (d, pdx va) = pm.load (d, pdx va) := congrFun hdir (pdx va)
  simp only [translate, hload]
  split
  · rename_i hpde
    split
    · rfl
    rename_i t ht
    have htable : refs root tmp pm (.table e (upde va hva)) = some t := by
      rw [refs, tableOf, hroot, Option.bind_some]
      exact entryOf_eq_some.mpr ⟨present_of_and_eq hneed hpde, ht⟩
    have hmem : pm'.mem t = pm.mem t := hw.mem_node hx (r := .table e (upde va hva)) trivial htable
    have hpte : pm'.load (t, ptx va) = pm.load (t, ptx va) := congrFun hmem (ptx va)
    rw [hpte]
  · rfl

/-- The bits the kernel needs to store include the one it needs to read. -/
theorem translate_read (h : translate pm d (pteP ||| pteW) va = some p) :
    translate pm d pteP va = some p :=
  translate_mono (by decide) h

theorem toNat_add_ofNat {n : Nat} (h : va.toNat + n < 4294967296) :
    (va + BitVec.ofNat 32 n).toNat = va.toNat + n := by
  rw [toNat_add, toNat_ofNat]
  omega

theorem add_ofNat_succ (va : Word) (n : Nat) :
    va + BitVec.ofNat 32 (n + 1) = va + 1 + BitVec.ofNat 32 n := by
  rw [BitVec.add_assoc, BitVec.add_comm 1, ofNat_add]
  rfl

theorem pgoff_ne_add {n : Nat} (hpos : 0 < n) (hlt : n < 4096) (hle : va.toNat + n < 4294967296) :
    pgoff va ≠ pgoff (va + BitVec.ofNat 32 n) := by
  intro heq
  have hmod := congrArg BitVec.toNat heq
  rw [toNat_pgoff, toNat_pgoff, toNat_add_ofNat hle] at hmod
  omega

/-- What a store of the bytes `bs` at `va` has changed. -/
structure Stored (pm pm' : Pmap M) (d : Ppn M) (va : Word) (bs : List (BitVec 8)) : Prop where
  bytes : ∀ j < bs.length, loadByte pm' d (va + BitVec.ofNat 32 j) = bs[j]?
  rest : ∀ p a, (∀ j < bs.length, translate pm d pteP (va + BitVec.ofNat 32 j) = some p →
    pgoff a ≠ pgoff (va + BitVec.ofNat 32 j)) → byteAt pm' p a = byteAt pm p a

/-- **A run of bytes below `UTOP`**, no longer than a page, to addresses that may be written. -/
theorem storeBytes_stored (bs : List (BitVec 8)) : ∀ {pm : Pmap M} {va : Word},
    Excl (refs root tmp pm) → root e = some d → va.toNat + bs.length ≤ utop.toNat →
    bs.length ≤ 4096 →
    (∀ j < bs.length, (translate pm d (pteP ||| pteW) (va + BitVec.ofNat 32 j)).isSome) →
    ∃ pm', storeBytes pm d va bs = some pm' ∧ Stored pm pm' d va bs := by
  induction bs with
  | nil =>
    intro pm va _ _ _ _ _
    exact ⟨pm, rfl, fun j hj => absurd hj (Nat.not_lt_zero j), fun _ _ _ => rfl⟩
  | cons b bs ih =>
    intro pm va hx hroot hle hlen hmay
    rw [List.length_cons] at hle hlen hmay
    rw [toNat_utop] at hle
    have hbelow : ∀ j ≤ bs.length, va + BitVec.ofNat 32 j < utop := by
      intro j hj
      rw [lt_def, toNat_add_ofNat (by omega), toNat_utop]
      omega
    have hzero : va + BitVec.ofNat 32 0 = va := BitVec.add_zero va
    have hva : va < utop := by
      rw [← hzero]
      exact hbelow 0 (Nat.zero_le _)
    have hnext : (va + 1).toNat = va.toNat + 1 := by
      rw [toNat_add]
      show (va.toNat + 1) % 2 ^ 32 = _
      omega
    obtain ⟨p, hp⟩ := Option.isSome_iff_exists.mp (hmay 0 (Nat.succ_pos _))
    rw [hzero] at hp
    -- the first byte
    have hfirst : storeByte pm d va b = some (pm.store (p, wordIdx va)
        (setByte (pm.load (p, wordIdx va)) (va &&& 3).toNat b)) := by
      simp only [storeByte, hp]
    have hchange := fun q a => byteAt_store pm p q va a b
    generalize pm.store (p, wordIdx va) _ = pm1 at hfirst hchange
    have hw := storeByte_writes tmp hroot hva hfirst
    have hx1 : Excl (refs root tmp pm1) := by
      rw [hw.refs_eq hx]
      exact hx
    have htr : ∀ j ≤ bs.length, ∀ need, need &&& pteP = pteP →
        translate pm1 d need (va + BitVec.ofNat 32 j)
          = translate pm d need (va + BitVec.ofNat 32 j) :=
      fun j hj need hneed => translate_writes hx hw hroot (hbelow j hj) hneed
    -- the others
    have hle1 : (va + 1).toNat + bs.length ≤ utop.toNat := by
      rw [hnext, toNat_utop]
      omega
    obtain ⟨pm', hstore, hbytes, hrest⟩ := ih hx1 hroot hle1 (by omega) (by
      intro j hj
      rw [← add_ofNat_succ, htr (j + 1) hj _ (by decide)]
      exact hmay (j + 1) (Nat.succ_lt_succ hj))
    have hw' := storeBytes_writes bs hx1 hroot hle1 hstore
    refine ⟨pm', ?_, ?_, ?_⟩
    · simp only [storeBytes, hfirst]
      exact hstore
    · intro j hj
      cases j with
      | zero =>
        have hread : translate pm' d pteP va = some p := by
          have hsame := htr 0 (Nat.zero_le _) pteP (by decide)
          rw [hzero] at hsame
          rw [translate_writes hx1 hw' hroot hva (by decide), hsame]
          exact translate_read hp
        have hkeep : byteAt pm' p va = byteAt pm1 p va := by
          refine hrest p va fun j hj _ => ?_
          rw [← add_ofNat_succ]
          exact pgoff_ne_add (Nat.succ_pos j) (by omega) (by omega)
        rw [hzero, loadByte_eq, hread, Option.map_some, hkeep, hchange, if_pos ⟨rfl, rfl⟩]
        rfl
      | succ j =>
        rw [add_ofNat_succ, List.getElem?_cons_succ]
        exact hbytes j (Nat.lt_of_succ_lt_succ hj)
    · intro q a hne
      have hlater : byteAt pm' q a = byteAt pm1 q a := by
        refine hrest q a fun j hj ht => ?_
        rw [← add_ofNat_succ] at ht ⊢
        rw [htr (j + 1) hj pteP (by decide)] at ht
        exact hne (j + 1) (Nat.succ_lt_succ hj) ht
      rw [hlater, hchange, if_neg]
      rintro ⟨rfl, hoff⟩
      have hfirst' := hne 0 (Nat.succ_pos _)
      rw [hzero] at hfirst'
      exact hfirst' (translate_read hp) hoff

end Jos
