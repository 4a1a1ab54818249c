/-
The list that `page_init` builds.

`page_init` goes through `pages[]` once and pushes every page it takes to be free.  The loop
keeps three things about the list so far: the links run through it, every page on it has
`pp_ref` 0, and it has exactly the free ones among the pages already passed.

What it takes to be free is not what is free.  It counts the pages in use from `KERNBASE` on,
and skips that many from the end of the I/O hole on.  The pages of base memory and of the hole
are counted twice, and as many pages behind the kernel's memory are never listed.
-/
import Os.Jos.Boot
import Os.Lib.Linked

namespace Jos

open Linked List

/-- The pages `page_init` puts on the list. -/
def FreeAtBoot (b n i : Nat) : Prop := i ≠ 0 ∧ i ≠ 7 ∧ ¬ (b ≤ i ∧ i < b + 96 + n)

/-- The pages that nobody uses, when the memory handed out so far ends at page `n`: not the
first one, not the one the other processors start in, and neither in the hole nor in the
kernel's memory. -/
def UnusedAtBoot (b n i : Nat) : Prop :=
  i ≠ 0 ∧ i ≠ mpentryPaddr.toNat / pgsize.toNat ∧ (i < b ∨ n ≤ i)

instance (b n i : Nat) : Decidable (UnusedAtBoot b n i) :=
  inferInstanceAs (Decidable (_ ∧ _ ∧ _))

namespace PageArray

variable {npages : Nat} {a : PageArray npages} {l : List (Fin npages)} {i : Fin npages}

/-- The list, and the counts of the pages on it. -/
structure Lists (a : PageArray npages) (l : List (Fin npages)) : Prop where
  chain : Chain a.ppLink a.pageFreeList l
  ref : ∀ p ∈ l, a.ppRef p = 0

theorem initStep_cases (b n : Nat) (a : PageArray npages) (i : Fin npages) :
    (FreeAtBoot b n i.val ∧
      initStep b n a i = { a.set i a.pageFreeList 0 with pageFreeList := some i }) ∨
    (¬ FreeAtBoot b n i.val ∧ (initStep b n a i = a ∨ initStep b n a i = a.set i none 1)) := by
  have hmp : mpentryPaddr.toNat / pgsize.toNat = 7 := by decide
  have hhole : (extphysmem - iophysmem).toNat / pgsize.toNat = 96 := by decide
  unfold initStep FreeAtBoot
  rw [hmp, hhole]
  split_ifs with h0 h7 hused
  · exact .inr ⟨fun hc => hc.1 h0, .inr rfl⟩
  · exact .inr ⟨fun hc => hc.2.1 h7, .inl rfl⟩
  · exact .inr ⟨fun hc => hc.2.2 hused, .inr rfl⟩
  · exact .inl ⟨⟨h0, h7, hused⟩, rfl⟩

namespace Lists

/-- A page off the list may be given any count and link. -/
theorem set (h : Lists a l) (hi : i ∉ l) (link : Option (Fin npages)) (ref : BitVec 16) :
    Lists (a.set i link ref) l where
  chain := h.chain.update_of_notMem hi
  ref p hp := by
    have hne : p ≠ i := by
      rintro rfl
      exact hi hp
    exact (Function.update_of_ne hne _ _).trans (h.ref p hp)

theorem push (h : Lists a l) (hi : i ∉ l) :
    Lists { a.set i a.pageFreeList 0 with pageFreeList := some i } (i :: l) where
  chain := h.chain.push hi
  ref p hp := by
    rcases mem_cons.mp hp with rfl | hp
    · exact Function.update_self ..
    · exact (h.set hi a.pageFreeList 0).ref p hp

/-- **The loop of `page_init`** over the pages of `is`, none of which is on the list yet. -/
theorem foldl (b n : Nat) (is : List (Fin npages)) (hnodup : is.Nodup) :
    ∀ {a : PageArray npages} {l : List (Fin npages)}, Lists a l → (∀ i ∈ is, i ∉ l) →
      ∃ l', Lists (is.foldl (initStep b n) a) l' ∧
        ∀ p, p ∈ l' ↔ p ∈ l ∨ p ∈ is ∧ FreeAtBoot b n p.val := by
  induction is with
  | nil =>
    intro a l hl _
    exact ⟨l, hl, by simp⟩
  | cons i is ih =>
    intro a l hl hnew
    obtain ⟨hi, hnodup'⟩ := nodup_cons.mp hnodup
    have hil : i ∉ l := hnew i mem_cons_self
    have hrest : ∀ j ∈ is, j ∉ l := fun j hj => hnew j (mem_cons_of_mem i hj)
    rw [foldl_cons]
    rcases initStep_cases b n a i with ⟨hfree, heq⟩ | ⟨hused, heq⟩
    · have hnew' : ∀ j ∈ is, j ∉ i :: l := by
        intro j hj hc
        rcases mem_cons.mp hc with rfl | hc
        · exact hi hj
        · exact hrest j hj hc
      rw [heq]
      obtain ⟨l', hlist, hiff⟩ := ih hnodup' (hl.push hil) hnew'
      refine ⟨l', hlist, fun p => ?_⟩
      rw [hiff, mem_cons, mem_cons]
      constructor
      · rintro ((rfl | hp) | hp)
        · exact .inr ⟨.inl rfl, hfree⟩
        · exact .inl hp
        · exact .inr ⟨.inr hp.1, hp.2⟩
      · rintro (hp | ⟨rfl | hp, hpf⟩)
        · exact .inl (.inr hp)
        · exact .inl (.inl rfl)
        · exact .inr ⟨hp, hpf⟩
    · have hl' : Lists (initStep b n a i) l := by
        rcases heq with heq | heq
        · rw [heq]
          exact hl
        · rw [heq]
          exact hl.set hil none 1
      obtain ⟨l', hlist, hiff⟩ := ih hnodup' hl' hrest
      refine ⟨l', hlist, fun p => ?_⟩
      rw [hiff, mem_cons]
      constructor
      · rintro (hp | ⟨hp, hpf⟩)
        · exact .inl hp
        · exact .inr ⟨.inr hp, hpf⟩
      · rintro (hp | ⟨rfl | hp, hpf⟩)
        · exact .inl hp
        · exact absurd hpf hused
        · exact .inr ⟨hp, hpf⟩

end Lists

/-- **`page_init`** lists exactly the pages it takes to be free. -/
theorem init_lists (b n : Nat) (a : PageArray npages) :
    ∃ l, Lists (init b n a) l ∧ ∀ p, p ∈ l ↔ FreeAtBoot b n p.val := by
  have hempty : Lists ({ a with pageFreeList := none } : PageArray npages) [] :=
    ⟨rfl, fun _ hp => absurd hp not_mem_nil⟩
  obtain ⟨l, hl, hiff⟩ := Lists.foldl b n (finRange npages) (nodup_finRange _) hempty
    fun _ _ => not_mem_nil
  refine ⟨l, hl, fun p => ?_⟩
  rw [hiff]
  simp

end PageArray

/-- Where every page is below the end of the kernel's memory, only base memory is left to list;
otherwise the first page behind the kernel's memory is unused and not listed. -/
theorem free_iff_unused_iff {npages b n : Nat} (hb : b ≤ 160) (hn : 256 ≤ n) :
    (∀ i < npages, FreeAtBoot b n i ↔ UnusedAtBoot b n i) ↔ npages ≤ n := by
  have hmp : mpentryPaddr.toNat / pgsize.toNat = 7 := by decide
  simp only [FreeAtBoot, UnusedAtBoot, hmp]
  constructor
  · intro h
    by_contra hlt
    have hfirst := h n (by omega)
    omega
  · intro h i hi
    omega

/-- **`page_init` lists the unused memory exactly when there is none behind the kernel.**  In any
case the list has nothing twice, and the pages on it have no references. -/
theorem page_init_exact_iff {npages b : Nat} {e : Word} (hb : b ≤ iophysmem.toNat / pgsize.toNat)
    (hext : extphysmem ≤ e) (a : PageArray npages) :
    ∃ l, Chain (a.init b (e / pgsize).toNat).ppLink (a.init b (e / pgsize).toNat).pageFreeList l ∧
      l.Nodup ∧ (∀ p ∈ l, (a.init b (e / pgsize).toNat).ppRef p = 0) ∧
      ((∀ i, i ∈ l ↔ UnusedAtBoot b (e / pgsize).toNat i.val) ↔ npages ≤ (e / pgsize).toNat) := by
  have hb' : b ≤ 160 := hb
  have hn : 256 ≤ (e / pgsize).toNat := by
    rw [BitVec.toNat_udiv]
    have hle : 1048576 ≤ e.toNat := BitVec.le_def.mp hext
    show 256 ≤ e.toNat / 4096
    omega
  obtain ⟨l, hl, hiff⟩ := a.init_lists b (e / pgsize).toNat
  refine ⟨l, hl.chain, hl.chain.nodup, hl.ref, ?_⟩
  rw [← free_iff_unused_iff hb' hn]
  constructor
  · intro h i hi
    rw [← hiff ⟨i, hi⟩]
    exact h ⟨i, hi⟩
  · intro h i
    rw [hiff]
    exact h i.val i.isLt

/-- `pages[]` as `memset` leaves it. -/
def PageArray.zero (npages : Nat) : PageArray npages := ⟨fun _ => none, fun _ => 0, none⟩

/-- A machine whose memory ends where the kernel's does. -/
theorem page_init_exact_iff_full :
    ∃ l, Chain ((PageArray.zero 384).init 160 384).ppLink
        ((PageArray.zero 384).init 160 384).pageFreeList l ∧
      ∀ i, i ∈ l ↔ UnusedAtBoot 160 384 i.val := by
  obtain ⟨l, hl, -, -, hiff⟩ :=
    page_init_exact_iff (b := 160) (e := 0x180000) (by decide) (by decide) (PageArray.zero 384)
  exact ⟨l, hl, hiff.mpr (by decide)⟩

/-- On a machine with 400 pages and the kernel's memory ending at page 384, the pages from there
on are unused, and `page_init` does not list them. -/
theorem page_init_wastes :
    UnusedAtBoot 160 384 384 ∧
      ∀ l, Chain ((PageArray.zero 400).init 160 384).ppLink
        ((PageArray.zero 400).init 160 384).pageFreeList l → ∀ i ∈ l, i.val < 384 := by
  refine ⟨by decide, ?_⟩
  intro l hl i hi
  obtain ⟨l', hl', hiff⟩ := (PageArray.zero 400).init_lists 160 384
  rw [hl.unique hl'.chain, hiff] at hi
  have hlt := i.isLt
  have hfree := hi.2.2
  omega

end Jos
