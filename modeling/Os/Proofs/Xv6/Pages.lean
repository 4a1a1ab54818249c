/-
What an address space maps, and what the primitive changes do to it.

`pageAt m d va` is the page the directory `d` maps at `va`: the flags of its entry and
its contents.  Since pages have one owner each, a write to one of them shows at one place
of one directory, and everything else an operation does not touch stays as it is.
-/
import Os.Proofs.Xv6.Owned

namespace Xv6

open Option Function
open Jos (entryOf entryOf_zero entryOf_eq_some entryOf_of_not_present entryOf_pde)

variable {M : Machine} {K : Linker M} {m m' m'' : Kmem M} {role role' role'' : Ppn M → Role M}
variable {d t u p : Ppn M} {i : Fin npdentries} {j : Fin nptentries} {o : Owner} {r : Role M}
variable {w va va' : Word}

/-- The flags and the contents of the page mapped at an address. -/
def pageAt (m : Kmem M) (d : Ppn M) (va : Word) : Option (Word × (Fin nptentries → Word)) :=
  (entryOf M (m.mem d (pdx va))).bind fun t =>
    (entryOf M (m.mem t (ptx va))).map fun u => (pteFlags (m.mem t (ptx va)), m.mem u)

theorem pageAt_vpn (m : Kmem M) (d : Ppn M) (h : vpn va' = vpn va) :
    pageAt m d va' = pageAt m d va := by
  obtain ⟨hpd, hpt⟩ := vpn_eq_iff.mp h
  rw [pageAt, pageAt, hpd, hpt]

/-- Something is mapped at the address, whether it is memory or not. -/
def KernAt (m : Kmem M) (d : Ppn M) (va : Word) : Prop :=
  ∃ t, entryOf M (m.mem d (pdx va)) = some t ∧ present (m.mem t (ptx va))

/-- The entry for an address, if there is a page table for it. -/
def pteAt (m : Kmem M) (d : Ppn M) (va : Word) : Option Word :=
  (entryOf M (m.mem d (pdx va))).map fun t => m.mem t (ptx va)

/-- The kernel's half of the directory is as it was. -/
def SameKern (d : Ppn M) (m m' : Kmem M) : Prop :=
  ∀ va, 2147483648 ≤ va.toNat → pteAt m' d va = pteAt m d va

theorem SameKern.trans (h : SameKern d m m') (h' : SameKern d m' m'') : SameKern d m m'' :=
  fun va hva => (h' va hva).trans (h va hva)

/-! ### What an operation on one directory may touch -/

/-- A page table or a user page of the directory. -/
def Role.Of (d : Ppn M) (r : Role M) : Prop := (∃ i, r = .pgtab d i) ∨ ∃ i j, r = .user d i j

/-- The directory's own pages, and those the operation holds. -/
def Role.Mine (d : Ppn M) (r : Role M) : Prop :=
  r = .held ∨ (∃ i, r = .pgtab d i) ∨ ∃ i j, r = .user d i j

/-- An operation on the directory `d`: it takes free pages, gives pages back, and writes
only to its own. -/
structure Within (d : Ppn M) (m : Kmem M) (role : Ppn M → Role M) (m' : Kmem M)
    (role' : Ppn M → Role M) : Prop where
  kept : ∀ p, role p ≠ .free → ¬ (role p).Mine d → role' p = role p ∧ (p ≠ d → m'.mem p = m.mem p)
  only : ∀ p, role' p ≠ role p → role' p = .free ∨ (role' p).Mine d

namespace Within

theorem refl (d : Ppn M) (m : Kmem M) (role : Ppn M → Role M) : Within d m role m role :=
  ⟨fun _ _ _ => ⟨rfl, fun _ => rfl⟩, fun _ h => absurd rfl h⟩

theorem trans (h : Within d m role m' role') (h' : Within d m' role' m'' role'') :
    Within d m role m'' role'' := by
  constructor
  · intro p hfree hmine
    obtain ⟨hrole, hmem⟩ := h.kept p hfree hmine
    rw [← hrole] at hfree hmine
    obtain ⟨hrole', hmem'⟩ := h'.kept p hfree hmine
    exact ⟨hrole'.trans hrole, fun hp => (hmem' hp).trans (hmem hp)⟩
  · intro p hne
    by_cases heq : role'' p = role' p
    · rw [heq] at hne ⊢
      exact h.only p hne
    · exact h'.only p heq

/-- One page, free or the operation's own, is put to another such use. -/
theorem update (hold : role p = .free ∨ (role p).Mine d) (hnew : r = .free ∨ r.Mine d)
    (hmem : ∀ q, q ≠ p → q ≠ d → ¬ (role q).Mine d → m'.mem q = m.mem q) :
    Within d m role m' (update role p r) := by
  constructor
  · intro q hfree hmine
    have hqp : q ≠ p := by
      intro hqp
      rw [hqp] at hfree hmine
      exact hold.elim hfree hmine
    exact ⟨update_of_ne hqp _ _, fun hqd => hmem q hqp hqd hmine⟩
  · intro q hne
    by_cases hqp : q = p
    · rw [hqp, update_self]
      exact hnew
    · rw [update_of_ne hqp] at hne
      exact absurd rfl hne

/-- Only memory of the directory and its pages is written. -/
theorem write (hmem : ∀ q, q ≠ d → ¬ (role q).Mine d → m'.mem q = m.mem q) :
    Within d m role m' role :=
  ⟨fun q _ hmine => ⟨rfl, fun hqd => hmem q hqd hmine⟩, fun _ h => absurd rfl h⟩

end Within

/-! ### Reading through a directory -/

namespace Owned

section

variable (h : Owned K m role)
include h

theorem entry_dir (hd : Live role d) (i : Fin npdentries) :
    entryOf M (m.mem d i) = some t ↔ role t = .pgtab d i := by
  rw [h.tables.pgtab]
  exact (and_iff_right hd).symm

theorem exists_table (hd : Live role d) (hpres : present (m.mem d i)) :
    ∃ t, role t = .pgtab d i := by
  obtain ⟨t, ht⟩ := h.tables.pde d i hd hpres
  refine ⟨t, (h.entry_dir hd i).mp ?_⟩
  rw [ht, entryOf_pde]

theorem present_of_pgtab (ht : role t = .pgtab d i) :
    present (m.mem d i) := (entryOf_eq_some.mp ((h.tables.pgtab t d i).mp ht).2).1

theorem live_of_pgtab (ht : role t = .pgtab d i) : Live role d :=
  ((h.tables.pgtab t d i).mp ht).1

theorem pageAt_of_pgtab (ht : role t = .pgtab d (pdx va)) :
    pageAt m d va = (entryOf M (m.mem t (ptx va))).map fun u =>
      (pteFlags (m.mem t (ptx va)), m.mem u) := by
  rw [pageAt, ((h.tables.pgtab t d (pdx va)).mp ht).2]
  rfl

/-- A page stays what it is if its entries and its contents do. -/
theorem pageAt_congr (hd : Live role d) (hva : va.toNat < 2147483648)
    (hdir : m'.mem d (pdx va) = m.mem d (pdx va))
    (htab : ∀ t, role t = .pgtab d (pdx va) → m'.mem t (ptx va) = m.mem t (ptx va))
    (huser : ∀ u, role u = .user d (pdx va) (ptx va) → m'.mem u = m.mem u) :
    pageAt m' d va = pageAt m d va := by
  unfold pageAt
  rw [hdir]
  cases ht : entryOf M (m.mem d (pdx va)) with
  | none => rfl
  | some t =>
    have hrole : role t = .pgtab d (pdx va) := (h.entry_dir hd _).mp ht
    simp only [bind_some, htab t hrole]
    cases hu : entryOf M (m.mem t (ptx va)) with
    | none => rfl
    | some u =>
      have hrole' : role u = .user d (pdx va) (ptx va) :=
        (h.tables.user u d _ _).mpr ⟨pdx_lt_iff.mpr hva, t, hrole, hu⟩
      simp only [map_some, huser u hrole']

end

end Owned

theorem pageAt_of_not_present (hpres : ¬ present (m.mem d (pdx va))) : pageAt m d va = none := by
  rw [pageAt, entryOf_of_not_present hpres]
  rfl

theorem Within.pageAt_other {d' : Ppn M} (hw : Within d m role m' role') (h : Owned K m role)
    (hd : Live role d') (hne : d' ≠ d) (hlive : Live role d) (hva : va.toNat < 2147483648) :
    pageAt m' d' va = pageAt m d' va := by
  obtain ⟨o, ho⟩ := hd
  obtain ⟨o', ho'⟩ := hlive
  have hkept : ∀ p, role p ≠ .free → ¬ (role p).Mine d → p ≠ d → m'.mem p = m.mem p :=
    fun p hfree hmine hp => (hw.kept p hfree hmine).2 hp
  refine h.pageAt_congr ⟨o, ho⟩ hva ?_ ?_ ?_
  · rw [hkept d' (by simp [ho]) (by simp [Role.Mine, ho]) hne]
  · intro t ht
    rw [hkept t (by simp [ht]) (by simp [Role.Mine, ht, hne]) (ne_of_role ht ho' (by simp))]
  · intro u hu
    exact hkept u (by simp [hu]) (by simp [Role.Mine, hu, hne]) (ne_of_role hu ho' (by simp))

/-! ### A page is taken from the allocator -/

namespace Owned

/-- Memory once a free page has been taken and filled. -/
def taken (m : Kmem M) (p : Ppn M) (f : Fin nptentries → Word) : Kmem M :=
  ({ m with freelist := runNext m p } : Kmem M).fill p f

variable {f : Fin nptentries → Word}

theorem mem_taken_of_ne {q : Ppn M} (h : q ≠ p) : (taken m p f).mem q = m.mem q :=
  mem_fill_of_ne h

theorem mem_taken_self : (taken m p f).mem p = f := mem_fill_self _ _ _

theorem take (h : Owned K m role) (hp : m.freelist = some p) (f : Fin nptentries → Word) :
    role p = .free ∧ Owned K (taken m p f) (update role p .held) := by
  obtain ⟨hrole, hpop⟩ := h.pop hp
  have hheld : update role p Role.held p = .held := update_self _ _ _
  exact ⟨hrole, hpop.fill (by rw [hheld]; trivial) (by rw [hheld]; simp)⟩

theorem within_taken (hp : role p = .free) :
    Within d m role (taken m p f) (update role p .held) :=
  Within.update (.inl hp) (.inr (.inl rfl)) fun _ hqp _ _ => mem_taken_of_ne hqp

theorem pageAt_taken (h : Owned K m role) (hd : Live role d) (hp : role p = .free)
    (hva : va.toNat < 2147483648) : pageAt (taken m p f) d va = pageAt m d va := by
  obtain ⟨o, ho⟩ := hd
  refine h.pageAt_congr ⟨o, ho⟩ hva ?_ ?_ ?_
  · rw [mem_taken_of_ne (ne_of_role ho hp (by simp))]
  · intro t ht
    rw [mem_taken_of_ne (ne_of_role ht hp (by simp))]
  · intro u hu
    exact mem_taken_of_ne (ne_of_role hu hp (by simp))

end Owned

/-! ### A page table is added -/

namespace Owned

/-- Memory once a free page has become the page table behind an entry. -/
def withTable (m : Kmem M) (d t : Ppn M) (i : Fin npdentries) : Kmem M :=
  (({ m with freelist := runNext m t } : Kmem M).fill t fun _ => 0).store (d, i)
    (page2pa t ||| pteP ||| pteW ||| pteU)

theorem mem_withTable_of_ne (hpt : p ≠ t) (hpd : p ≠ d) :
    (withTable m d t i).mem p = m.mem p := by
  unfold withTable
  rw [mem_store_of_ne hpd, mem_fill_of_ne hpt]

theorem mem_withTable_self (htd : t ≠ d) : (withTable m d t i).mem t = fun _ => 0 := by
  unfold withTable
  rw [mem_store_of_ne htd, mem_fill_self]

section

variable (h : Owned K m role) (hd : Live role d) (hfree : ¬ present (m.mem d i))
include h hd hfree

theorem addTable
    (ht : m.freelist = some t) :
    role t = .free ∧ Owned K (withTable m d t i) (update role t (.pgtab d i)) := by
  obtain ⟨hrole, hpop⟩ := h.pop ht
  obtain ⟨o, ho⟩ := hd
  have htd : t ≠ d := ne_of_role hrole ho (by simp)
  have hheld : update role t Role.held t = .held := update_self _ _ _
  have hzero := hpop.fill (p := t) (f := fun _ => 0) (by rw [hheld]; trivial) (by rw [hheld]; simp)
  have hlive : update role t Role.held d = .pgdir o := by
    rw [update_of_ne htd.symm, ho]
  have htables := hzero.tables.installTable (i := i) ⟨o, hlive⟩
    (by rw [mem_fill_of_ne htd.symm]; exact hfree) (by rw [hheld]; trivial) (t := t)
    (by intro j; rw [mem_fill_self])
  rw [update_idem] at htables
  refine ⟨hrole, hzero.rebuild rfl ?_ ?_ ?_ htables⟩
  · intro q
    by_cases hqt : q = t
    · rw [hqt, hheld, update_self]
      simp
    · rw [update_of_ne hqt, update_of_ne hqt]
  · intro q hq
    exact mem_store_of_ne (ne_of_role hq hlive (by simp))
  · intro q hq
    have hqt : q ≠ t := ne_of_role hq hheld (by simp)
    rw [update_of_ne hqt] at hq ⊢
    exact hq

theorem pageAt_withTable (ht : role t = .free) (hva : va.toNat < 2147483648) :
    pageAt (withTable m d t i) d va = pageAt m d va := by
  obtain ⟨o, ho⟩ := hd
  have htd : t ≠ d := ne_of_role ht ho (by simp)
  by_cases hi : pdx va = i
  · subst hi
    rw [pageAt_of_not_present hfree, pageAt]
    have hentry : entryOf M ((withTable m d t (pdx va)).mem d (pdx va)) = some t := by
      unfold withTable
      rw [mem_store_self, update_self, entryOf_pde]
    rw [hentry, bind_some, mem_withTable_self htd, entryOf_zero]
    rfl
  · refine h.pageAt_congr ⟨o, ho⟩ hva ?_ ?_ ?_
    · unfold withTable
      rw [mem_store_self, update_of_ne hi, mem_fill_of_ne htd.symm]
    · intro t' ht'
      rw [mem_withTable_of_ne (ne_of_role ht' ht (by simp)) (ne_of_role ht' ho (by simp))]
    · intro u hu
      exact mem_withTable_of_ne (ne_of_role hu ht (by simp)) (ne_of_role hu ho (by simp))

theorem kernAt_withTable
    (ht : role t = .free) : KernAt (withTable m d t i) d va ↔ KernAt m d va := by
  obtain ⟨o, ho⟩ := hd
  have htd : t ≠ d := ne_of_role ht ho (by simp)
  have hdir : (withTable m d t i).mem d = update (m.mem d) i
      (page2pa t ||| pteP ||| pteW ||| pteU) := by
    unfold withTable
    rw [mem_store_self, mem_fill_of_ne htd.symm]
  by_cases hi : pdx va = i
  · -- the table is empty, and there was none
    subst hi
    refine iff_of_false ?_ ?_
    · rintro ⟨t', ht', hpte⟩
      rw [hdir, update_self, entryOf_pde] at ht'
      cases ht'
      rw [mem_withTable_self htd] at hpte
      exact Jos.not_present_zero hpte
    · rintro ⟨t', ht', -⟩
      exact hfree (entryOf_eq_some.mp ht').1
  · refine exists_congr fun t' => ?_
    rw [hdir, update_of_ne hi]
    refine and_congr_right fun ht' => ?_
    have htab := (h.entry_dir ⟨o, ho⟩ _).mp ht'
    rw [mem_withTable_of_ne (ne_of_role htab ht (by simp))
      (Tables.ne_of_pgtab_of_live htab ⟨o, ho⟩)]

end

theorem within_withTable (ht : role t = .free) :
    Within d m role (withTable m d t i) (update role t (.pgtab d i)) :=
  Within.update (.inl ht) (.inr (.inr (.inl ⟨i, rfl⟩)))
    fun _ hqt hqd _ => mem_withTable_of_ne hqt hqd

/-! ### An entry of a page table is written -/

section

variable (h : Owned K m role) (ht : role t = .pgtab d (pdx va))
include h ht

/-- Everywhere else the pages stay, wherever the entry written does not lead to them. -/
theorem pageAt_store_other
    (hva : va'.toNat < 2147483648) (hne : vpn va' ≠ vpn va) :
    pageAt (m.store (t, ptx va) w) d va' = pageAt m d va' := by
  have hd := h.live_of_pgtab ht
  refine h.pageAt_congr hd hva ?_ ?_ ?_
  · rw [mem_store_of_ne (Tables.ne_of_pgtab_of_live ht hd).symm]
  · intro t' ht'
    by_cases htt : t' = t
    · subst htt
      rw [ht] at ht'
      simp only [Role.pgtab.injEq, true_and] at ht'
      have hpt : ptx va' ≠ ptx va := fun hpt => hne (vpn_eq_iff.mpr ⟨ht'.symm, hpt⟩)
      rw [mem_store_self, update_of_ne hpt]
    · rw [mem_store_of_ne htt]
  · intro u hu
    exact mem_store_of_ne (ne_of_role hu ht (by simp))

theorem kernAt_store_other
    (hne : vpn va' ≠ vpn va) : KernAt (m.store (t, ptx va) w) d va' ↔ KernAt m d va' := by
  have hd := h.live_of_pgtab ht
  unfold KernAt
  rw [mem_store_of_ne (Tables.ne_of_pgtab_of_live ht hd).symm]
  refine exists_congr fun t' => and_congr_right fun ht' => ?_
  have htab := (h.entry_dir hd _).mp ht'
  by_cases htt : t' = t
  · subst htt
    rw [ht] at htab
    have hpt : ptx va' ≠ ptx va :=
      fun hpt => hne (vpn_eq_iff.mpr ⟨(Role.pgtab.inj htab).2.symm, hpt⟩)
    rw [mem_store_self, update_of_ne hpt]
  · rw [mem_store_of_ne htt]

/-- At the entry itself the page is the one it leads to. -/
theorem pageAt_store_self
    (hne : vpn va' = vpn va) :
    pageAt (m.store (t, ptx va) w) d va' = (entryOf M w).map fun u =>
      (pteFlags w, (m.store (t, ptx va) w).mem u) := by
  obtain ⟨hpd, hpt⟩ := vpn_eq_iff.mp hne
  have htd := Tables.ne_of_pgtab_of_live ht (h.live_of_pgtab ht)
  have hentry : entryOf M ((m.store (t, ptx va) w).mem d (pdx va')) = some t := by
    rw [mem_store_of_ne htd.symm, hpd, h.entry_dir (h.live_of_pgtab ht), ht]
  have hload : (m.store (t, ptx va) w).mem t (ptx va') = w := by
    rw [mem_store_self, hpt, update_self]
  rw [pageAt, hentry, bind_some, hload]

end

/-- Nothing has been written in the kernel's half of the directory, nor in its page tables. -/
theorem sameKern (h : Owned K m role) (hd : Live role d)
    (hdir : ∀ i : Fin npdentries, 512 ≤ i.val → m'.mem d i = m.mem d i)
    (htab : ∀ (t : Ppn M) (i : Fin npdentries), 512 ≤ i.val → role t = .pgtab d i →
      m'.mem t = m.mem t) : SameKern d m m' := by
  intro va hva
  have hi : 512 ≤ (pdx va).val := Nat.not_lt.mp fun hlt => Nat.not_lt.mpr hva (pdx_lt_iff.mp hlt)
  rw [pteAt, pteAt, hdir _ hi]
  cases hentry : entryOf M (m.mem d (pdx va)) with
  | none => rfl
  | some t => rw [map_some, map_some, htab t _ hi ((h.entry_dir hd _).mp hentry)]

/-- One page has been written that is neither the directory nor a page table of its kernel half. -/
theorem sameKern_of_ne (h : Owned K m role) (hd : Live role d) (hne : d ≠ u)
    (htab : ∀ (t : Ppn M) (i : Fin npdentries), 512 ≤ i.val → role t = .pgtab d i → t ≠ u)
    (hmem : ∀ q, q ≠ u → m'.mem q = m.mem q) : SameKern d m m' :=
  h.sameKern hd (fun i _ => by rw [hmem d hne]) fun t i hi ht => hmem t (htab t i hi ht)

theorem sameKern_taken (h : Owned K m role) (hd : Live role d) (hu : role u = .free)
    (f : Fin nptentries → Word) : SameKern d m (taken m u f) := by
  obtain ⟨o, ho⟩ := hd
  exact h.sameKern_of_ne ⟨o, ho⟩ (ne_of_role ho hu (by simp))
    (fun t i _ ht => ne_of_role ht hu (by simp)) fun q hq => mem_taken_of_ne hq

/-- A page table of the user's half is none of the kernel's. -/
theorem sameKern_store (h : Owned K m role) (ht : role t = .pgtab d i) (hi : i.val < 512) :
    SameKern d m (m.store (t, j) w) := by
  refine h.sameKern_of_ne (h.live_of_pgtab ht)
    (Tables.ne_of_pgtab_of_live ht (h.live_of_pgtab ht)).symm ?_ fun q hq => mem_store_of_ne hq
  rintro t' i' hi' ht' rfl
  rw [ht] at ht'
  cases ht'
  omega

theorem sameKern_withTable (h : Owned K m role) (hd : Live role d) (ht : role t = .free)
    (hi : i.val < 512) : SameKern d m (withTable m d t i) := by
  obtain ⟨o, ho⟩ := hd
  refine h.sameKern ⟨o, ho⟩ (fun i' hi' => ?_) fun t' i' _ ht' =>
    mem_withTable_of_ne (ne_of_role ht' ht (by simp)) (ne_of_role ht' ho (by simp))
  have hne : i' ≠ i := by
    rintro rfl
    omega
  unfold withTable
  rw [mem_store_self, update_of_ne hne, mem_fill_of_ne (ne_of_role ho ht (by simp))]

/-- **A page is mapped** at an entry of the user's half that was not there. -/
theorem mapPage (h : Owned K m role) (ht : role t = .pgtab d i) (hi : i.val < 512)
    (hfree : ¬ present (m.mem t j)) (hu : role u = .held) (hw : entryOf M w = some u) :
    Owned K (m.store (t, j) w) (update role u (.user d i j)) := by
  have htables := h.tables.installUser ht hi hfree (by rw [hu]; trivial) hw
  refine h.rebuild rfl (fun q => update_eq_iff (by simp [hu]) (by simp)) ?_ ?_ htables
  · intro q hq
    exact mem_store_of_ne (ne_of_role hq ht (by simp))
  · intro q hq
    rw [update_of_ne (ne_of_role hq hu (by simp)), hq]

/-- A page is taken out of the table and freed; the source does it in the other order. -/
theorem freed_store (htu : t ≠ u) :
    freed (m.store (t, j) w) u = (freed m u).store (t, j) w := by
  have hmem : (freed (m.store (t, j) w) u).mem = ((freed m u).store (t, j) w).mem := by
    funext q
    by_cases hqu : q = u
    · rw [hqu, mem_store_of_ne htu.symm]
      show ((((m.store (t, j) w).fill u _).store (u, 0) _).mem u) =
        ((m.fill u _).store (u, 0) _).mem u
      rw [mem_store_self, mem_store_self, mem_fill_self, mem_fill_self]
      rfl
    · rw [mem_freed_of_ne hqu]
      by_cases hqt : q = t
      · rw [hqt, mem_store_self, mem_store_self, mem_freed_of_ne htu]
      · rw [mem_store_of_ne hqt, mem_store_of_ne hqt, mem_freed_of_ne hqu]
  show Kmem.mk _ _ = Kmem.mk _ _
  congr 1

/-- **A user page is unmapped and freed.** -/
theorem unmapPage (h : Owned K m role) (ht : role t = .pgtab d i) (hu : role u = .user d i j) :
    Xv6.kfree K m u = some (freed m u) ∧
      Owned K ((freed m u).store (t, j) 0) (update role u .free) := by
  have hheld : (Role.held : Role M).Aside := trivial
  have htables := h.tables.removeUser ht hu hheld
  have hout : Owned K (m.store (t, j) 0) (update role u .held) := by
    refine h.rebuild rfl (fun q => update_eq_iff (by simp [hu]) (by simp)) ?_ ?_ htables
    · intro q hq
      exact mem_store_of_ne (ne_of_role hq ht (by simp))
    · intro q hq
      rw [update_of_ne (ne_of_role hq hu (by simp)), hq]
  have hself : update role u Role.held u = .held := update_self _ _ _
  obtain ⟨-, howned⟩ := hout.kfree (p := u) (by rw [hself]; trivial) (by rw [hself]; simp)
  rw [update_idem, freed_store (ne_of_role ht hu (by simp))] at howned
  exact ⟨kfree_eq_freed (h.endPage_le (by simp [hu])), howned⟩

theorem pageAt_unmapPage (h : Owned K m role) (ht : role t = .pgtab d (pdx va))
    (hu : role u = .user d (pdx va) (ptx va)) (hva : va'.toNat < 2147483648) :
    pageAt ((freed m u).store (t, ptx va) 0) d va'
      = if vpn va' = vpn va then none else pageAt m d va' := by
  have hd := h.live_of_pgtab ht
  obtain ⟨o, ho⟩ := hd
  have hdt : d ≠ t := ne_of_role ho ht (by simp)
  have hdu : d ≠ u := ne_of_role ho hu (by simp)
  have htu : t ≠ u := ne_of_role ht hu (by simp)
  have hdir : ((freed m u).store (t, ptx va) 0).mem d = m.mem d := by
    rw [mem_store_of_ne hdt, mem_freed_of_ne hdu]
  by_cases hvpn : vpn va' = vpn va
  · obtain ⟨hpd, hpt⟩ := vpn_eq_iff.mp hvpn
    have hload : ((freed m u).store (t, ptx va) 0).mem t (ptx va') = 0 := by
      rw [mem_store_self, hpt, update_self]
    rw [if_pos hvpn, pageAt, hdir, hpd, (h.entry_dir ⟨o, ho⟩ _).mpr ht, bind_some, hload,
      entryOf_zero]
    rfl
  · rw [if_neg hvpn]
    refine h.pageAt_congr ⟨o, ho⟩ hva (by rw [hdir]) ?_ ?_
    · intro t' ht'
      by_cases htt : t' = t
      · subst htt
        rw [ht] at ht'
        simp only [Role.pgtab.injEq, true_and] at ht'
        have hpt : ptx va' ≠ ptx va := fun hpt => hvpn (vpn_eq_iff.mpr ⟨ht'.symm, hpt⟩)
        rw [mem_store_self, update_of_ne hpt, mem_freed_of_ne htu]
      · rw [mem_store_of_ne htt, mem_freed_of_ne (ne_of_role ht' hu (by simp))]
    · intro u' hu'
      have huu : u' ≠ u := by
        refine ne_of_role hu' hu fun hc => hvpn ?_
        simp only [Role.user.injEq, true_and] at hc
        exact vpn_eq_iff.mpr hc
      rw [mem_store_of_ne (ne_of_role hu' ht (by simp)), mem_freed_of_ne huu]

theorem exists_user (h : Owned K m role) (ht : role t = .pgtab d (pdx va))
    (hva : va.toNat < 2147483648) (hpres : present (m.mem t (ptx va))) :
    ∃ u, entryOf M (m.mem t (ptx va)) = some u ∧ role u = .user d (pdx va) (ptx va) := by
  obtain ⟨u, hu⟩ := h.tables.pte t d _ _ ht (pdx_lt_iff.mpr hva) hpres
  exact ⟨u, hu, (h.tables.user u d _ _).mpr ⟨pdx_lt_iff.mpr hva, t, ht, hu⟩⟩

end Owned

end Xv6
