/-
Stores at user addresses.

`load_icode`, `page_fault_handler` and the programs themselves store bytes through an
environment's page tables.  Below `UTOP` such a store ends up in a page that an entry
of a page table refers to.  As long as page tables and directories are not referred to
in that way, which is what `Excl` says, no store can change what refers to what.
-/
import Os.Proofs.Jos.Refs
import Os.Jos.System

namespace Jos

open BitVec

variable {M : Machine} {root : EnvIdx → Option (Ppn M)} {tmp : Option (Ppn M)}
variable {R : Ref → Option (Ppn M)} {pm pm' pm'' : Pmap M} {e : EnvIdx} {d p : Ppn M} {va : Word}

/-- Only pages that `e` maps are written, and the allocator is left alone. -/
structure WritesLeaves (R : Ref → Option (Ppn M)) (e : EnvIdx) (pm pm' : Pmap M) : Prop where
  pages : pm'.pages = pm.pages
  freeList : pm'.pageFreeList = pm.pageFreeList
  kern : pm'.kernPgdir = pm.kernPgdir
  mem : ∀ p, (∀ i j, R (.leaf e i j) ≠ some p) → pm'.mem p = pm.mem p

namespace WritesLeaves

theorem refl (pm : Pmap M) : WritesLeaves R e pm pm := ⟨rfl, rfl, rfl, fun _ _ => rfl⟩

theorem trans (h : WritesLeaves R e pm pm') (h' : WritesLeaves R e pm' pm'') :
    WritesLeaves R e pm pm'' where
  pages := h'.pages.trans h.pages
  freeList := h'.freeList.trans h.freeList
  kern := h'.kern.trans h.kern
  mem p hp := (h'.mem p hp).trans (h.mem p hp)

theorem store {i : Upde} {j : Fin nptentries} (hp : R (.leaf e i j) = some p)
    (k : Fin nptentries) (w : Word) : WritesLeaves R e pm (pm.store (p, k) w) where
  pages := rfl
  freeList := rfl
  kern := rfl
  mem q hq := by
    have hne : q ≠ p := fun hc => hq i j (hc ▸ hp)
    simp [Pmap.store, Pmap.fill, Function.update_of_ne hne]

theorem mem_node (hx : Excl R) (h : WritesLeaves R e pm pm') {r : Ref} (hr : r.isNode)
    (hp : R r = some p) : pm'.mem p = pm.mem p := by
  refine h.mem p fun i j hc => ?_
  have heq := hx r _ p hp hc hr
  rw [← heq] at hr
  exact hr

/-- **Stores change no reference.** -/
theorem refs_eq (hx : Excl (refs root tmp pm)) (h : WritesLeaves (refs root tmp pm) e pm pm') :
    refs root tmp pm' = refs root tmp pm :=
  refs_congr_nodes fun _ _ hr hq => h.mem_node hx hr hq

end WritesLeaves

/-! ### The stores of the kernel and of the programs -/

theorem present_of_and_eq {w need : Word} (hneed : need &&& pteP = pteP)
    (h : w &&& need = need) : present w := by
  intro hc
  have hp : w &&& need &&& pteP = pteP := by rw [h, hneed]
  rw [BitVec.and_assoc, and_comm need, ← BitVec.and_assoc, hc] at hp
  simp [pteP] at hp

/-- An address below `UTOP` that translates is mapped by a leaf. -/
theorem translate_leaf {need : Word} (hneed : need &&& pteP = pteP) (hroot : root e = some d)
    (hva : va < utop) (h : translate pm d need va = some p) :
    refs root tmp pm (.leaf e (upde va hva) (ptx va)) = some p := by
  simp only [translate] at h
  split at h
  · rename_i hpde
    split at h
    · simp at h
    rename_i t ht
    split at h
    · rename_i hpte
      refine refs_leaf_eq_some.mpr ⟨t, ?_, ?_⟩
      · rw [refs, tableOf, hroot, Option.bind_some]
        exact entryOf_eq_some.mpr ⟨present_of_and_eq hneed hpde, ht⟩
      · exact entryOf_eq_some.mpr ⟨present_of_and_eq hneed hpte, h⟩
    · simp at h
  · simp at h

theorem storeByte_writes (tmp : Option (Ppn M)) {b : BitVec 8} (hroot : root e = some d)
    (hva : va < utop)
    (h : storeByte pm d va b = some pm') : WritesLeaves (refs root tmp pm) e pm pm' := by
  unfold storeByte at h
  split at h
  · simp at h
  · rename_i p hp
    cases h
    exact .store (translate_leaf (by decide) hroot hva hp) _ _

/-- **A run of bytes below `UTOP`** is written to pages of the environment. -/
theorem storeBytes_writes (bs : List (BitVec 8)) : ∀ {pm : Pmap M} {va : Word},
    Excl (refs root tmp pm) → root e = some d → va.toNat + bs.length ≤ utop.toNat →
    storeBytes pm d va bs = some pm' → WritesLeaves (refs root tmp pm) e pm pm' := by
  induction bs with
  | nil =>
    intro pm va _ _ _ h
    cases h
    exact .refl _
  | cons b bs ih =>
    intro pm va hx hroot hle h
    rw [List.length_cons] at hle
    have hva : va < utop := show va.toNat < utop.toNat by omega
    unfold storeBytes at h
    split at h
    · simp at h
    rename_i pm1 h1
    have hw := storeByte_writes tmp hroot hva h1
    have hrefs := hw.refs_eq hx
    have hnext : (va + 1).toNat = va.toNat + 1 := by
      rw [toNat_utop] at hle
      rw [toNat_add]
      show (va.toNat + 1) % 2 ^ 32 = _
      omega
    have hrest := ih (by rw [hrefs]; exact hx) hroot (by rw [hnext]; omega) h
    rw [hrefs] at hrest
    exact hw.trans hrest

/-- What is mapped with some flags is mapped with fewer. -/
theorem translate_mono {need need' : Word} (hsub : need &&& need' = need')
    (h : translate pm d need va = some p) : translate pm d need' va = some p := by
  have hkeep : ∀ w : Word, w &&& need = need → w &&& need' = need' := by
    intro w hw
    rw [← hsub, ← BitVec.and_assoc, hw]
  simp only [translate] at h ⊢
  split at h
  · rename_i hpde
    rw [if_pos (hkeep _ hpde)]
    split at h
    · simp at h
    split at h
    · rename_i hpte
      rw [if_pos (hkeep _ hpte)]
      exact h
    · simp at h
  · simp at h

/-- What the user program may write, the kernel may write. -/
theorem translate_user (h : translate pm d (pteP ||| pteW ||| pteU) va = some p) :
    translate pm d (pteP ||| pteW) va = some p :=
  translate_mono (by decide) h

/-- A store of the program running on `c` is one byte stored through the page tables in `%cr3`. -/
theorem userStore_cases {s s' : Kern M} {c : CpuIdx} {b : BitVec 8}
    (h : userStore s c va b = some s') :
    ∃ e d pm, s.curenv c = some e ∧ s.cr3 c = some d ∧
      ((s.envs e).envPgdir = some d → va < utop) ∧
      storeBytes s.pm d va [b] = some pm ∧ s' = { s with pm := pm } := by
  unfold userStore at h
  split at h
  · simp at h
  rename_i e he
  split at h
  · simp at h
  rename_i d hd
  split at h
  · simp at h
  rename_i hva
  split at h
  · simp at h
  · rename_i p hp
    cases h
    refine ⟨e, d, _, he, hd, fun hdir => BitVec.not_le.mp fun hle => hva ⟨hdir, hle⟩, ?_, rfl⟩
    simp only [storeBytes, storeByte, translate_user hp]

theorem utfAddr_le (esp : Word) : (utfAddr esp).toNat + 52 ≤ utop.toNat := by
  have htop : uxstacktop.toNat = 4005560320 := by decide
  have hlow : (uxstacktop - pgsize).toNat = 4005556224 := by decide
  rw [toNat_utop]
  unfold utfAddr
  split
  · rename_i h
    have h1 : (uxstacktop - pgsize).toNat ≤ esp.toNat := h.1
    have h2 : esp.toNat < uxstacktop.toNat := h.2
    have hsub : (esp - sizeofUTrapframe - 4).toNat = esp.toNat - 56 := by
      rw [toNat_sub, toNat_sub]
      show (2 ^ 32 - 4 + (2 ^ 32 - 52 + esp.toNat) % 2 ^ 32) % 2 ^ 32 = _
      omega
    omega
  · decide

theorem length_bytes (u : UTrapframe) : u.bytes.length = 52 := by
  simp [UTrapframe.bytes, UTrapframe.words, PushRegs.words, leBytes]

end Jos
