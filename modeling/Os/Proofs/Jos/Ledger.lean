/-
The page allocator keeps the books.

`Ledger` is what the page allocator is for: over the pages it manages, the reference
count of a page is the number of slots that refer to it, and the pages on the free
list are the ones no slot refers to.  Two things stand between those facts.  A page
that `page_alloc` has handed out and nobody refers to yet is on neither side, so the
books carry the set `H` of pages in that position.  And `pp_ref` is a 16-bit counter,
so it is the number of references modulo 2^16.

Dropping a reference is where the counter matters.  `page_decref` frees the page when
the counter reaches zero, and that is the right moment as long as there are no more
than 2^16 references: `Ledger.decref` needs exactly that.
-/
import Os.Lib.Linked
import Os.Proofs.Jos.Refs

namespace Jos

open BitVec Function
open Linked RefMap

variable {M : Machine}

/-- The free list's links. -/
def links (pm : Pmap M) (p : Ppn M) : Option (Ppn M) := (pm.pages p).ppLink

/-- The pages on `page_free_list`, in order. -/
def FreeList (pm : Pmap M) (l : List (Ppn M)) : Prop := Chain (links pm) pm.pageFreeList l

instance (pm : Pmap M) (l : List (Ppn M)) : Decidable (FreeList pm l) :=
  inferInstanceAs (Decidable (Chain (links pm) pm.pageFreeList l))

/-- The books over the managed pages `A` are in order. -/
structure Ledger (A H : Set (Ppn M)) (R : Ref → Option (Ppn M)) (pm : Pmap M) : Prop where
  /-- Free is what nothing refers to; a page off the list has no link. -/
  free : ∃ l, FreeList pm l ∧ (∀ p, p ∈ l ↔ p ∈ A ∧ refCount R p = 0 ∧ p ∉ H) ∧
    ∀ p ∈ A, p ∉ l → links pm p = none
  /-- The counter counts the references. -/
  ref : ∀ p ∈ A, (pm.pages p).ppRef = BitVec.ofNat 16 (refCount R p)
  /-- Only managed pages are referred to. -/
  managed : ∀ r p, R r = some p → p ∈ A
  /-- A held page is managed and nothing refers to it. -/
  heldFree : ∀ p ∈ H, p ∈ A ∧ refCount R p = 0

/-- What one write to a slot does to the count of a page. -/
theorem refCount_update_none {R : Ref → Option (Ppn M)} {r : Ref} {p : Ppn M} (q : Ppn M)
    (hr : R r = some p) :
    refCount (update R r none) q + (if p = q then 1 else 0) = refCount R q := by
  have h := refCount_update R r none q
  rw [hr] at h
  simpa using h

theorem refCount_update_some {R : Ref → Option (Ppn M)} {r : Ref} (p q : Ppn M) (hr : R r = none) :
    refCount (update R r (some p)) q = refCount R q + (if p = q then 1 else 0) := by
  have h := refCount_update R r (some p) q
  rw [hr] at h
  simpa using h

@[simp] theorem links_setRef (pm : Pmap M) (p : Ppn M) (n : BitVec 16) :
    links (pm.setRef p n) = links pm := by
  funext q
  by_cases hq : q = p
  · subst hq
    simp [links, Pmap.setRef]
  · simp [links, Pmap.setRef, update_of_ne hq]

@[simp] theorem links_setLink (pm : Pmap M) (p : Ppn M) (x : Option (Ppn M)) :
    links (pm.setLink p x) = update (links pm) p x := by
  funext q
  by_cases hq : q = p
  · subst hq
    simp [links, Pmap.setLink]
  · simp [links, Pmap.setLink, update_of_ne hq]

@[simp] theorem ppRef_setLink (pm : Pmap M) (p q : Ppn M) (x : Option (Ppn M)) :
    ((pm.setLink p x).pages q).ppRef = (pm.pages q).ppRef := by
  by_cases hq : q = p
  · subst hq
    simp [Pmap.setLink]
  · simp [Pmap.setLink, update_of_ne hq]

@[simp] theorem ppRef_setRef_self (pm : Pmap M) (p : Ppn M) (n : BitVec 16) :
    ((pm.setRef p n).pages p).ppRef = n := by
  simp [Pmap.setRef]

theorem ppRef_setRef_of_ne {pm : Pmap M} {p q : Ppn M} (h : q ≠ p) (n : BitVec 16) :
    ((pm.setRef p n).pages q).ppRef = (pm.pages q).ppRef := by
  simp [Pmap.setRef, update_of_ne h]

/-! ### What the allocator functions do -/

theorem pageAlloc_cases {pm pm' : Pmap M} {flags : Word} {o : Option (Ppn M)}
    (h : pageAlloc pm flags = (o, pm')) :
    (o = none ∧ pm.pageFreeList = none ∧ pm' = pm) ∨
    ∃ p, o = some p ∧ pm.pageFreeList = some p ∧ pm'.pageFreeList = links pm p ∧
      pm'.pages = (pm.setLink p none).pages ∧ pm'.kernPgdir = pm.kernPgdir ∧
      pm'.mem = if flags &&& allocZero ≠ 0 then (pm.fill p fun _ => 0).mem else pm.mem := by
  unfold pageAlloc at h
  cases hl : pm.pageFreeList with
  | none =>
    rw [hl] at h
    cases h
    exact .inl ⟨rfl, rfl, rfl⟩
  | some p =>
    rw [hl] at h
    cases h
    refine .inr ⟨p, rfl, rfl, ?_, ?_, ?_, ?_⟩ <;> split <;> rfl

/-- `page_free` puts a page with no references and no link at the head. -/
theorem pageFree_cases {pm pm' : Pmap M} {p : Ppn M} (h : pageFree pm p = some pm') :
    (pm.pages p).ppRef = 0 ∧ links pm p = none ∧ pm'.pageFreeList = some p ∧
      pm'.pages = (pm.setLink p pm.pageFreeList).pages ∧ pm'.mem = pm.mem ∧
      pm'.kernPgdir = pm.kernPgdir := by
  unfold pageFree at h
  split at h
  · rename_i hok
    cases h
    exact ⟨hok.1, hok.2, rfl, rfl, rfl, rfl⟩
  · simp at h

theorem pageFree_mem {pm pm' : Pmap M} {p : Ppn M} (h : pageFree pm p = some pm') :
    pm'.mem = pm.mem := (pageFree_cases h).2.2.2.2.1

theorem pageDecref_mem {pm pm' : Pmap M} {p : Ppn M} (h : pageDecref pm p = some pm') :
    pm'.mem = pm.mem ∧ pm'.kernPgdir = pm.kernPgdir := by
  simp only [pageDecref] at h
  split at h
  · have hf := pageFree_cases h
    exact ⟨hf.2.2.2.2.1, hf.2.2.2.2.2⟩
  · cases h
    exact ⟨rfl, rfl⟩

theorem links_of_pages {pm pm' : Pmap M} (h : pm'.pages = pm.pages) : links pm' = links pm := by
  funext p
  simp [links, h]

namespace Ledger

variable {A H : Set (Ppn M)} {R : Ref → Option (Ppn M)} {pm pm' : Pmap M}
variable {p : Ppn M} {r : Ref}

section

variable (h : Ledger A H R pm)
include h

/-- The books look only at the free list and the counters. -/
theorem congr (hp : pm'.pages = pm.pages)
    (hl : pm'.pageFreeList = pm.pageFreeList) : Ledger A H R pm' := by
  obtain ⟨l, hchain, hmem, hlink⟩ := h.free
  refine ⟨⟨l, ?_, hmem, ?_⟩, ?_, h.managed, h.heldFree⟩
  · unfold FreeList
    rw [links_of_pages hp, hl]
    exact hchain
  · rw [links_of_pages hp]
    exact hlink
  · rw [hp]
    exact h.ref

/-- The head of the free list is managed and nothing refers to it. -/
theorem head_free (hp : pm.pageFreeList = some p) :
    p ∈ A ∧ refCount R p = 0 ∧ p ∉ H := by
  obtain ⟨l, hchain, hmem, -⟩ := h.free
  refine (hmem p).mp ?_
  cases l with
  | nil =>
    have hnil : pm.pageFreeList = none := hchain
    rw [hp] at hnil
    simp at hnil
  | cons a l =>
    have hhead : pm.pageFreeList = some a := hchain.1
    rw [hp] at hhead
    cases hhead
    simp

/-- A page that is referred to or held is not next on the free list. -/
theorem ne_head (huse : p ∈ H ∨ 0 < refCount R p) :
    pm.pageFreeList ≠ some p := by
  intro hc
  obtain ⟨-, hzero, hheld⟩ := h.head_free hc
  rcases huse with hu | hu
  · exact hheld hu
  · omega

/-- A page that is referred to or held is not on the free list, and has no link. -/
theorem link_none (hp : p ∈ A)
    (huse : p ∈ H ∨ 0 < refCount R p) : links pm p = none := by
  obtain ⟨l, -, hmem, hlink⟩ := h.free
  refine hlink p hp ?_
  intro hl
  obtain ⟨-, hzero, hne⟩ := (hmem p).mp hl
  rcases huse with hheld | hpos
  · exact hne hheld
  · omega

/-- **Allocation** takes a page out of the free list and nothing else. -/
theorem alloc {flags : Word}
    (ha : pageAlloc pm flags = (some p, pm')) : Ledger A (insert p H) R pm' := by
  rcases pageAlloc_cases ha with ⟨hc, -, -⟩ | ⟨q, hq, hhead, hfl, hpages, -, -⟩
  · simp at hc
  cases hq
  obtain ⟨hpA, hzero, -⟩ := h.head_free hhead
  obtain ⟨l, hchain, hmem, hlink⟩ := h.free
  have hlinks : links pm' = update (links pm) p none := by
    rw [← links_setLink]
    exact links_of_pages hpages
  cases l with
  | nil =>
    have hnil : pm.pageFreeList = none := hchain
    rw [hhead] at hnil
    simp at hnil
  | cons a l =>
    have hpa : a = p := by
      have hc : pm.pageFreeList = some a := hchain.1
      rw [hhead] at hc
      simpa using hc.symm
    subst hpa
    have hnd : a ∉ l := (List.nodup_cons.mp (Chain.nodup hchain)).1
    refine ⟨⟨l, ?_, ?_, ?_⟩, ?_, h.managed, ?_⟩
    · unfold FreeList
      rw [hlinks, hfl]
      exact Chain.pop hchain
    · intro q
      by_cases hqa : q = a
      · subst hqa
        simp [hnd]
      · have hq := hmem q
        simp only [List.mem_cons, hqa, false_or] at hq
        rw [hq]
        simp [hqa]
    · intro q hqA hql
      rw [hlinks]
      by_cases hqa : q = a
      · rw [hqa, update_self]
      · rw [update_of_ne hqa]
        exact hlink q hqA (by simp [hqa, hql])
    · intro q hqA
      rw [hpages, ppRef_setLink]
      exact h.ref q hqA
    · rintro q (rfl | hq)
      · exact ⟨hpA, hzero⟩
      · exact h.heldFree q hq

/-- A reference more, to a page that is held or already in use; it is held no longer. -/
theorem incref {H' : Set (Ppn M)} (hr : R r = none)
    (huse : p ∈ H ∨ 0 < refCount R p) (hH' : ∀ q, q ∈ H' ↔ q ∈ H ∧ q ≠ p) :
    Ledger A H' (update R r (some p)) (pm.incRef p) := by
  have hpA : p ∈ A := by
    rcases huse with hheld | hpos
    · exact (h.heldFree p hheld).1
    · by_contra hc
      have hzero : refCount R p = 0 := refCount_eq_zero.mpr fun q hq => hc (h.managed q p hq)
      omega
  have hcount := fun q => refCount_update_some p q hr
  obtain ⟨l, hchain, hmem, hlink⟩ := h.free
  have hlinks : links (pm.incRef p) = links pm := links_setRef pm p _
  refine ⟨⟨l, ?_, ?_, ?_⟩, ?_, ?_, ?_⟩
  · unfold FreeList
    rw [hlinks]
    exact hchain
  · intro q
    rw [hmem q, hcount q, hH' q]
    by_cases hqp : p = q
    · subst hqp
      rcases huse with hheld | hpos
      · simp [hheld]
      · simp; omega
    · simp [hqp, Ne.symm hqp]
  · rw [hlinks]
    exact hlink
  · intro q hqA
    rw [hcount q]
    by_cases hqp : p = q
    · subst hqp
      rw [Pmap.incRef, ppRef_setRef_self, h.ref p hpA, if_pos rfl, ofNat_add]
      rfl
    · rw [Pmap.incRef, ppRef_setRef_of_ne (Ne.symm hqp), h.ref q hqA, if_neg hqp, Nat.add_zero]
  · intro q x hx
    by_cases hqr : q = r
    · rw [hqr, update_self] at hx
      cases hx
      exact hpA
    · rw [update_of_ne hqr] at hx
      exact h.managed q x hx
  · intro q hq
    obtain ⟨hqH, hqp⟩ := (hH' q).mp hq
    rw [hcount q, if_neg (Ne.symm hqp), Nat.add_zero]
    exact h.heldFree q hqH

end

/-- The counter is zero after a decrement exactly when that was the last reference. -/
theorem decref_zero {n : Nat} (hpos : 0 < n) (hle : n ≤ 65536) :
    BitVec.ofNat 16 n - 1 = 0 ↔ n = 1 := by
  constructor
  · intro hc
    have hn := congrArg BitVec.toNat hc
    simp only [toNat_sub, toNat_ofNat] at hn
    have h1 : (1 : BitVec 16).toNat = 1 := rfl
    have h0 : (0 : BitVec 16).toNat = 0 := rfl
    omega
  · rintro rfl
    rfl

/--
**Dropping a reference** keeps the books, as long as the page has no more than 2^16 of
them; the assertions of `page_free` hold.
-/
theorem decref (h : Ledger A H R pm) (hr : R r = some p) (hle : refCount R p ≤ 65536) :
    ∃ pm', pageDecref pm p = some pm' ∧ Ledger A H (update R r none) pm' := by
  have hpA : p ∈ A := h.managed r p hr
  have hpos : 0 < refCount R p := refCount_pos hr
  have hcount := fun q => refCount_update_none q hr
  have hself : refCount (update R r none) p + 1 = refCount R p := by
    simpa using hcount p
  have hother : ∀ q, q ≠ p → refCount (update R r none) q = refCount R q := by
    intro q hq
    simpa [Ne.symm hq] using hcount q
  have hheld : p ∉ H := by
    intro hc
    have := (h.heldFree p hc).2
    omega
  have hmanaged : ∀ q x, update R r none q = some x → x ∈ A := by
    intro q x hx
    by_cases hqr : q = r
    · rw [hqr, update_self] at hx
      simp at hx
    · rw [update_of_ne hqr] at hx
      exact h.managed q x hx
  have hheldFree : ∀ q ∈ H, q ∈ A ∧ refCount (update R r none) q = 0 := by
    intro q hq
    have hqp : q ≠ p := by
      rintro rfl
      exact hheld hq
    rw [hother q hqp]
    exact h.heldFree q hq
  have href : ∀ q ∈ A, ((pm.setRef p ((pm.pages p).ppRef - 1)).pages q).ppRef
      = BitVec.ofNat 16 (refCount (update R r none) q) := by
    intro q hqA
    by_cases hqp : q = p
    · subst hqp
      rw [ppRef_setRef_self, h.ref q hqA, ← hself, ofNat_add]
      exact BitVec.add_sub_cancel _ _
    · rw [ppRef_setRef_of_ne hqp, h.ref q hqA, hother q hqp]
  obtain ⟨l, hchain, hmem, hlink⟩ := h.free
  have hpl : p ∉ l := fun hc => by
    have := ((hmem p).mp hc).2.1
    omega
  have hzero := decref_zero hpos hle
  rw [← h.ref p hpA] at hzero
  by_cases hlast : refCount R p = 1
  · -- the last reference: the page goes to the head of the free list
    have hnone : links pm p = none := hlink p hpA hpl
    refine ⟨{ (pm.setRef p ((pm.pages p).ppRef - 1)).setLink p pm.pageFreeList with
      pageFreeList := some p }, ?_, ⟨⟨p :: l, ?_, ?_, ?_⟩, ?_, hmanaged, hheldFree⟩⟩
    · have hlinkp : ((pm.setRef p ((pm.pages p).ppRef - 1)).pages p).ppLink = none := by
        simpa [Pmap.setRef, links] using hnone
      unfold pageDecref pageFree
      simp only [ppRef_setRef_self, hzero.mpr hlast, if_true]
      rw [hzero.mpr hlast] at hlinkp
      rw [if_pos ⟨trivial, hlinkp⟩]
      rfl
    · show Chain (links ((pm.setRef p _).setLink p pm.pageFreeList)) (some p) (p :: l)
      rw [links_setLink, links_setRef]
      exact Chain.push hchain hpl
    · intro q
      by_cases hqp : q = p
      · subst hqp
        have hz : refCount (update R r none) q = 0 := by omega
        simp [hpA, hz, hheld]
      · rw [hother q hqp, List.mem_cons, hmem q]
        simp [hqp]
    · intro q hqA hql
      show links ((pm.setRef p _).setLink p pm.pageFreeList) q = none
      have hqp : q ≠ p := fun hc => hql (by simp [hc])
      rw [links_setLink, links_setRef, update_of_ne hqp]
      exact hlink q hqA fun hc => hql (by simp [hc])
    · intro q hqA
      rw [ppRef_setLink]
      exact href q hqA
  · -- references remain: only the counter moves
    refine ⟨pm.setRef p ((pm.pages p).ppRef - 1), ?_, ⟨⟨l, ?_, ?_, ?_⟩, href, hmanaged, hheldFree⟩⟩
    · unfold pageDecref
      simp only [ppRef_setRef_self]
      rw [if_neg (fun hc => hlast (hzero.mp hc))]
    · show Chain (links (pm.setRef p _)) pm.pageFreeList l
      rw [links_setRef]
      exact hchain
    · intro q
      by_cases hqp : q = p
      · subst hqp
        simp only [hpl, false_iff]
        rintro ⟨-, hz, -⟩
        omega
      · rw [hother q hqp]
        exact hmem q
    · rw [links_setRef]
      exact hlink

theorem free_held (h : Ledger A (insert p H) R pm) (hpH : p ∉ H) :
    ∃ pm', pageFree pm p = some pm' ∧ Ledger A H R pm' := by
  obtain ⟨hpA, hzero⟩ := h.heldFree p (by simp)
  obtain ⟨l, hchain, hmem, hlink⟩ := h.free
  have hpl : p ∉ l := fun hc => ((hmem p).mp hc).2.2 (by simp)
  have hnone : links pm p = none := hlink p hpA hpl
  have href : (pm.pages p).ppRef = 0 := by
    rw [h.ref p hpA, hzero]
    rfl
  refine ⟨{ pm.setLink p pm.pageFreeList with pageFreeList := some p }, ?_,
    ⟨⟨p :: l, ?_, ?_, ?_⟩, ?_, h.managed, fun q hq => h.heldFree q (by simp [hq])⟩⟩
  · unfold pageFree
    rw [if_pos ⟨href, hnone⟩]
  · show Chain (links (pm.setLink p pm.pageFreeList)) (some p) (p :: l)
    rw [links_setLink]
    exact Chain.push hchain hpl
  · intro q
    by_cases hqp : q = p
    · subst hqp
      simp [hpA, hzero, hpH]
    · rw [List.mem_cons, hmem q]
      simp [hqp]
  · intro q hqA hql
    show links (pm.setLink p pm.pageFreeList) q = none
    have hqp : q ≠ p := fun hc => hql (by simp [hc])
    rw [links_setLink, update_of_ne hqp]
    exact hlink q hqA fun hc => hql (by simp [hc])
  · intro q hqA
    rw [ppRef_setLink]
    exact h.ref q hqA

theorem move (h : Ledger A H R pm) (r r' : Ref) (hr : R r = some p) (hr' : R r' = none) :
    Ledger A H (update (update R r none) r' (some p)) pm := by
  have hne : r' ≠ r := by
    rintro rfl
    rw [hr] at hr'
    simp at hr'
  have hcount : ∀ q, refCount (update (update R r none) r' (some p)) q = refCount R q := by
    intro q
    have h1 := refCount_update_none q hr
    rw [refCount_update_some p q (by rw [update_of_ne hne]; exact hr')]
    omega
  obtain ⟨l, hchain, hmem, hlink⟩ := h.free
  refine ⟨⟨l, hchain, ?_, hlink⟩, ?_, ?_, ?_⟩
  · intro q
    rw [hcount q]
    exact hmem q
  · intro q hqA
    rw [hcount q]
    exact h.ref q hqA
  · intro q x hx
    by_cases hqr' : q = r'
    · rw [hqr', update_self] at hx
      cases hx
      exact h.managed r p hr
    rw [update_of_ne hqr'] at hx
    by_cases hqr : q = r
    · rw [hqr, update_self] at hx
      simp at hx
    · rw [update_of_ne hqr] at hx
      exact h.managed q x hx
  · intro q hq
    rw [hcount q]
    exact h.heldFree q hq

/-- A page taken from the free list and given its first reference at once. -/
theorem alloc_incref {flags : Word} (h : Ledger A H R pm) (hr : R r = none)
    (ha : pageAlloc pm flags = (some p, pm')) :
    Ledger A H (update R r (some p)) (pm'.incRef p) := by
  have hp : p ∉ H := by
    rcases pageAlloc_cases ha with ⟨hc, -, -⟩ | ⟨q, hq, hhead, -⟩
    · simp at hc
    · cases hq
      exact (h.head_free hhead).2.2
  refine (h.alloc ha).incref hr (.inl (by simp)) ?_
  intro q
  by_cases hqp : q = p
  · subst hqp
    simp [hp]
  · simp [hqp]

end Ledger

end Jos
