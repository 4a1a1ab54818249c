/-
Every page has one owner.

Nothing in memory says what a page is for.  `role` says it, and being a function it
gives each page one purpose.  The rest is that the role agrees with what can be found by
following pointers: the pages on the free list are those with the role `free`, and a page
is a page table or a user page exactly if some directory leads to it.

Roles and memory change one page at a time.  Each lemma here is one such change, and an
operation of `vm.c` is a sequence of them.
-/
import Os.Lib.Linked
import Os.Xv6.Trap
import Os.Proofs.Xv6.Word
import Os.Proofs.Jos.Refs

namespace Xv6

open List Option Function
open Jos (entryOf entryOf_zero entryOf_of_not_present entryOf_pde toNat_page2pa)
open Linked (Chain)

variable {M : Machine}

/-- Whose page directory it is; `temp` is one that an operation is working on. -/
inductive Owner
  | kernel
  | proc (k : ProcIdx)
  | temp
  deriving DecidableEq

/-- What a page is used for. -/
inductive Role (M : Machine)
  /-- Below `end`: the allocator never has it. -/
  | boot
  | free
  /-- In the hands of the operation that is running. -/
  | held
  | kstack (k : ProcIdx)
  | pipe
  | pgdir (o : Owner)
  | pgtab (d : Ppn M) (i : Fin npdentries)
  | user (d : Ppn M) (i : Fin npdentries) (j : Fin nptentries)
  deriving DecidableEq

/-- No page table leads to the page. -/
def Role.Aside : Role M → Prop
  | .free | .held | .kstack _ | .pipe => True
  | _ => False

/-- The page is a directory. -/
def Live (role : Ppn M → Role M) (d : Ppn M) : Prop := ∃ o, role d = .pgdir o

/-- Roles and page tables agree.  Only the user's half of a directory owns what it maps. -/
structure Tables (mem : Ppn M → Fin nptentries → Word) (role : Ppn M → Role M) : Prop where
  pgtab : ∀ t d i, role t = .pgtab d i ↔ Live role d ∧ entryOf M (mem d i) = some t
  pde : ∀ d i, Live role d → present (mem d i) →
    ∃ t : Ppn M, mem d i = page2pa t ||| pteP ||| pteW ||| pteU
  user : ∀ u d i j, role u = .user d i j ↔
    i.val < 512 ∧ ∃ t, role t = .pgtab d i ∧ entryOf M (mem t j) = some u
  pte : ∀ t d i j, role t = .pgtab d i → i.val < 512 → present (mem t j) →
    ∃ u, entryOf M (mem t j) = some u

/-- Memory in which every page has the owner `role` gives it. -/
structure Owned (K : Linker M) (m : Kmem M) (role : Ppn M → Role M) : Prop where
  free : ∃ l, Chain (runNext m) m.freelist l ∧ ∀ p, p ∈ l ↔ role p = .free
  boot : ∀ p, p.val < K.endPage → role p = .boot
  tables : Tables m.mem role

variable {K : Linker M} {m m' : Kmem M} {role : Ppn M → Role M}
variable {mem mem' : Ppn M → Fin nptentries → Word}
variable {d t u p : Ppn M} {i i' : Fin npdentries} {j : Fin nptentries} {o : Owner} {r : Role M}
variable {w : Word}

/-! ### A write changes one page -/

theorem mem_fill_of_ne {f : Fin nptentries → Word} (h : p ≠ t) :
    (m.fill t f).mem p = m.mem p := update_of_ne h _ _

@[simp] theorem mem_fill_self (m : Kmem M) (t : Ppn M) (f : Fin nptentries → Word) :
    (m.fill t f).mem t = f := update_self _ _ _

theorem mem_store_of_ne (h : p ≠ t) : (m.store (t, j) w).mem p = m.mem p :=
  update_of_ne h _ _

theorem mem_store_self (m : Kmem M) (t : Ppn M) (j : Fin nptentries) (w : Word) :
    (m.store (t, j) w).mem t = update (m.mem t) j w := update_self _ _ _

/-! ### Changing one role -/

theorem ne_of_role {q : Ppn M} {r' : Role M} (hp : role p = r) (hq : role q = r')
    (hne : r ≠ r') : p ≠ q := by
  intro hpq
  rw [hpq] at hp
  exact hne (hp.symm.trans hq)

/-- A role that a page neither had nor gets is where it was. -/
theorem update_eq_iff {r' : Role M} (hold : role p ≠ r') (hnew : r ≠ r') :
    update role p r t = r' ↔ role t = r' := by
  by_cases ht : t = p
  · subst ht
    rw [update_self]
    exact iff_of_false hnew hold
  · rw [update_of_ne ht]

theorem Role.Aside.ne_pgtab (h : r.Aside) : r ≠ .pgtab d i := by
  intro hr
  rw [hr] at h
  exact h

theorem Role.Aside.ne_user (h : r.Aside) : r ≠ .user d i j := by
  intro hr
  rw [hr] at h
  exact h

theorem Role.Aside.ne_pgdir (h : r.Aside) : r ≠ .pgdir o := by
  intro hr
  rw [hr] at h
  exact h

theorem Role.Aside.not_live (h : (role p).Aside) : ¬ Live role p :=
  fun ⟨_, ho⟩ => h.ne_pgdir ho

theorem live_update_iff (hold : ¬ Live role p) (hnew : ∀ o, r ≠ .pgdir o) :
    Live (update role p r) d ↔ Live role d :=
  exists_congr fun o => update_eq_iff (fun hc => hold ⟨o, hc⟩) (hnew o)

namespace Tables

section

variable (h : Tables mem role)
include h

/-- What is not a directory or a page table may be written. -/
theorem congr
    (hag : ∀ p, Live role p ∨ (∃ d i, role p = .pgtab d i) → mem' p = mem p) :
    Tables mem' role := by
  have hdir : ∀ d, Live role d → mem' d = mem d := fun d hd => hag d (.inl hd)
  have htab : ∀ t d i, role t = .pgtab d i → mem' t = mem t :=
    fun t d i ht => hag t (.inr ⟨d, i, ht⟩)
  refine ⟨?_, ?_, ?_, ?_⟩
  · intro t d i
    rw [h.pgtab]
    exact and_congr_right fun hd => by rw [hdir d hd]
  · intro d i hd
    rw [hdir d hd]
    exact h.pde d i hd
  · intro u d i j
    rw [h.user]
    refine and_congr_right fun _ => exists_congr fun t => and_congr_right fun ht => ?_
    rw [htab t d i ht]
  · intro t d i j ht
    rw [htab t d i ht]
    exact h.pte t d i j ht

/-- Roles may change as long as tables and user pages stay and every new directory is
empty. -/
theorem rename {role' : Ppn M → Role M}
    (hpgtab : ∀ t d i, role' t = .pgtab d i ↔ role t = .pgtab d i)
    (huser : ∀ u d i j, role' u = .user d i j ↔ role u = .user d i j)
    (hkeep : ∀ d, Live role d → Live role' d)
    (hgain : ∀ d, Live role' d → Live role d ∨ ∀ i, mem d i = 0) : Tables mem role' := by
  refine ⟨?_, ?_, ?_, ?_⟩
  · intro t d i
    rw [hpgtab, h.pgtab]
    refine and_congr_left fun ht => ⟨hkeep d, fun hd => ?_⟩
    rcases hgain d hd with hold | hzero
    · exact hold
    · rw [hzero i, entryOf_zero] at ht
      simp at ht
  · intro d i hd hpres
    rcases hgain d hd with hold | hzero
    · exact h.pde d i hold hpres
    · rw [hzero i] at hpres
      exact absurd hpres Jos.not_present_zero
  · intro u d i j
    rw [huser, h.user]
    exact and_congr_right fun _ => exists_congr fun t => by rw [hpgtab]
  · intro t d i j ht
    exact h.pte t d i j ((hpgtab t d i).mp ht)

/-- A page no table leads to may be put to any such use. -/
theorem retag (hold : (role p).Aside) (hnew : r.Aside) :
    Tables mem (update role p r) := by
  have hlive : ∀ d, Live (update role p r) d ↔ Live role d :=
    fun d => live_update_iff hold.not_live fun _ => hnew.ne_pgdir
  exact h.rename (fun _ _ _ => update_eq_iff hold.ne_pgtab hnew.ne_pgtab)
    (fun _ _ _ _ => update_eq_iff hold.ne_user hnew.ne_user)
    (fun d hd => (hlive d).mpr hd) (fun d hd => .inl ((hlive d).mp hd))

/-- A page of zeros is a directory without page tables. -/
theorem newDir (hold : (role p).Aside) (hzero : ∀ i, mem p i = 0) :
    Tables mem (update role p (.pgdir o)) := by
  refine h.rename (fun _ _ _ => update_eq_iff hold.ne_pgtab (by simp))
    (fun _ _ _ _ => update_eq_iff hold.ne_user (by simp)) ?_ ?_
  · intro d ⟨o', hd⟩
    have hne : d ≠ p := by
      intro hdp
      rw [hdp] at hd
      exact hold.ne_pgdir hd
    exact ⟨o', by rw [update_of_ne hne, hd]⟩
  · intro d ⟨o', hd⟩
    by_cases hdp : d = p
    · rw [hdp]
      exact .inr hzero
    · rw [update_of_ne hdp] at hd
      exact .inl ⟨o', hd⟩

theorem reown {o' : Owner} (hold : role p = .pgdir o) :
    Tables mem (update role p (.pgdir o')) := by
  refine h.rename (fun _ _ _ => update_eq_iff (by simp [hold]) (by simp))
    (fun _ _ _ _ => update_eq_iff (by simp [hold]) (by simp)) ?_ ?_
  · intro d ⟨o'', hd⟩
    by_cases hdp : d = p
    · exact ⟨o', by rw [hdp, update_self]⟩
    · exact ⟨o'', by rw [update_of_ne hdp, hd]⟩
  · intro d ⟨o'', hd⟩
    by_cases hdp : d = p
    · rw [hdp]
      exact .inl ⟨o, hold⟩
    · rw [update_of_ne hdp] at hd
      exact .inl ⟨o'', hd⟩

end

/-! ### Entries of a directory and of a page table -/

variable {f : Fin nptentries → Word}

theorem ne_of_pgtab_of_live (ht : role t = .pgtab d i) {d' : Ppn M} (hd : Live role d') :
    t ≠ d' := by
  obtain ⟨o, ho⟩ := hd
  exact ne_of_role ht ho (by simp)

/-- Where an entry is not there, no page has its role. -/
theorem ne_pgtab_of_not_present (h : Tables mem role) (hfree : ¬ present (mem d i)) :
    role t ≠ .pgtab d i := by
  intro ht
  have hentry := ((h.pgtab t d i).mp ht).2
  rw [entryOf_of_not_present hfree] at hentry
  simp at hentry

/-- **A new page table**: a page of zeros, and an entry that was not there leads to it. -/
theorem installTable (h : Tables mem role) (hd : Live role d) (hfree : ¬ present (mem d i))
    (hold : (role t).Aside) (hzero : ∀ j, mem t j = 0) :
    Tables (update mem d (update (mem d) i
      (page2pa t ||| pteP ||| pteW ||| pteU))) (update role t (.pgtab d i)) := by
  have htd : t ≠ d := by
    intro htd
    rw [htd] at hold
    exact hold.not_live hd
  have hlive : ∀ d', Live (update role t (.pgtab d i)) d' ↔ Live role d' :=
    fun d' => live_update_iff hold.not_live (by simp)
  have hpage : ∀ {t' d' i'}, role t' = .pgtab d' i' →
      update mem d (update (mem d) i (page2pa t ||| pteP ||| pteW ||| pteU)) t' = mem t' :=
    fun ht' => update_of_ne (ne_of_pgtab_of_live ht' hd) _ _
  refine ⟨?_, ?_, ?_, ?_⟩
  · intro t' d' i'
    rw [hlive]
    by_cases hcell : d' = d ∧ i' = i
    · obtain ⟨rfl, rfl⟩ := hcell
      rw [update_self, update_self, entryOf_pde]
      by_cases ht' : t' = t
      · subst ht'
        rw [update_self]
        exact iff_of_true rfl ⟨hd, rfl⟩
      · rw [update_of_ne ht']
        refine iff_of_false (h.ne_pgtab_of_not_present hfree) fun hc => ht' ?_
        exact (some.inj hc.2).symm
    · have hentry : update mem d (update (mem d) i
          (page2pa t ||| pteP ||| pteW ||| pteU)) d' i' = mem d' i' := by
        by_cases hdd : d' = d
        · subst hdd
          have hii : i' ≠ i := fun hii => hcell ⟨rfl, hii⟩
          rw [update_self, update_of_ne hii]
        · rw [update_of_ne hdd]
      rw [hentry, ← h.pgtab]
      refine update_eq_iff hold.ne_pgtab fun hc => hcell ?_
      simp only [Role.pgtab.injEq] at hc
      exact ⟨hc.1.symm, hc.2.symm⟩
  · intro d' i' hd' hpres
    by_cases hdd : d' = d
    · subst hdd
      rw [update_self] at hpres ⊢
      by_cases hii : i' = i
      · subst hii
        exact ⟨t, update_self _ _ _⟩
      · rw [update_of_ne hii] at hpres ⊢
        exact h.pde d' i' hd hpres
    · rw [update_of_ne hdd] at hpres ⊢
      exact h.pde d' i' ((hlive d').mp hd') hpres
  · intro u d' i' j
    rw [update_eq_iff hold.ne_user (by simp), h.user]
    refine and_congr_right fun _ => ⟨?_, ?_⟩
    · intro ⟨t', ht', hu⟩
      have hne : t' ≠ t := by
        rintro rfl
        exact hold.ne_pgtab ht'
      exact ⟨t', by rw [update_of_ne hne, ht'], by rw [hpage ht', hu]⟩
    · intro ⟨t', ht', hu⟩
      by_cases hne : t' = t
      · -- the new table maps nothing
        subst hne
        rw [update_of_ne htd, hzero, entryOf_zero] at hu
        simp at hu
      · rw [update_of_ne hne] at ht'
        exact ⟨t', ht', by rw [← hu, hpage ht']⟩
  · intro t' d' i' j ht' hi hpres
    by_cases hne : t' = t
    · subst hne
      rw [update_of_ne htd, hzero] at hpres
      exact absurd hpres Jos.not_present_zero
    · rw [update_of_ne hne] at ht'
      rw [hpage ht'] at hpres ⊢
      exact h.pte t' d' i' j ht' hi hpres

section

variable (h : Tables mem role) (ht : role t = .pgtab d i)
include h ht

/-- A page table belongs to one place of one directory. -/
theorem pgtab_unique {t' : Ppn M}
    (ht' : role t' = .pgtab d i) : t = t' := by
  have he := ((h.pgtab t d i).mp ht).2
  rw [((h.pgtab t' d i).mp ht').2] at he
  exact (some.inj he).symm

/-- **Writing an entry of a page table**, where the roles keep up with the user's half. -/
theorem storePte {role' : Ppn M → Role M}
    (hpgtab : ∀ t d i, role' t = .pgtab d i ↔ role t = .pgtab d i)
    (hlive : ∀ d, Live role' d ↔ Live role d)
    (hrange : i.val < 512 → present w → ∃ u, entryOf M w = some u)
    (hcell : i.val < 512 → ∀ u, role' u = .user d i j ↔ entryOf M w = some u)
    (hother : ∀ u d' i' j', ¬ (d' = d ∧ i' = i ∧ j' = j ∧ i.val < 512) →
      (role' u = .user d' i' j' ↔ role u = .user d' i' j')) :
    Tables (update mem t (update (mem t) j w)) role' := by
  have hdir : ∀ {d'}, Live role d' →
      update mem t (update (mem t) j w) d' = mem d' :=
    fun hd' => update_of_ne (ne_of_pgtab_of_live ht hd').symm _ _
  -- what an entry of the tables of `d'` is now
  have hload : ∀ {t' d' i'} j', role t' = .pgtab d' i' → ¬ (d' = d ∧ i' = i ∧ j' = j) →
      update mem t (update (mem t) j w) t' j' = mem t' j' := by
    intro t' d' i' j' ht' hne
    by_cases htt : t' = t
    · subst htt
      rw [ht] at ht'
      simp only [Role.pgtab.injEq] at ht'
      have hjj : j' ≠ j := fun hjj => hne ⟨ht'.1.symm, ht'.2.symm, hjj⟩
      rw [update_self, update_of_ne hjj]
    · rw [update_of_ne htt]
  have hself : update mem t (update (mem t) j w) t j = w := by
    rw [update_self, update_self]
  refine ⟨?_, ?_, ?_, ?_⟩
  · intro t' d' i'
    rw [hpgtab, h.pgtab, hlive]
    exact and_congr_right fun hd' => by rw [hdir hd']
  · intro d' i' hd'
    rw [hdir ((hlive d').mp hd')]
    exact h.pde d' i' ((hlive d').mp hd')
  · intro u d' i' j'
    by_cases hc : d' = d ∧ i' = i ∧ j' = j
    · obtain ⟨rfl, rfl, rfl⟩ := hc
      by_cases hi : i'.val < 512
      · rw [hcell hi]
        constructor
        · intro hw
          exact ⟨hi, t, (hpgtab t d' i').mpr ht, by rw [hself, hw]⟩
        · intro ⟨_, t', ht', hu⟩
          rw [h.pgtab_unique ((hpgtab t' d' i').mp ht') ht, hself] at hu
          exact hu
      · rw [hother u d' i' j' (fun hc => hi hc.2.2.2), h.user]
        exact iff_of_false (fun hc => hi hc.1) (fun hc => hi hc.1)
    · rw [hother u d' i' j' (fun hc' => hc ⟨hc'.1, hc'.2.1, hc'.2.2.1⟩), h.user]
      refine and_congr_right fun _ => exists_congr fun t' => ?_
      rw [hpgtab]
      exact and_congr_right fun ht' => by rw [hload j' ht' hc]
  · intro t' d' i' j' ht' hi hpres
    rw [hpgtab] at ht'
    by_cases hc : d' = d ∧ i' = i ∧ j' = j
    · obtain ⟨rfl, rfl, rfl⟩ := hc
      rw [h.pgtab_unique ht' ht, hself] at hpres ⊢
      exact hrange hi hpres
    · rw [hload j' ht' hc] at hpres ⊢
      exact h.pte t' d' i' j' ht' hi hpres

theorem storeKern (hi : ¬ i.val < 512) :
    Tables (update mem t (update (mem t) j w)) role :=
  h.storePte ht (fun _ _ _ => Iff.rfl) (fun _ => Iff.rfl) (fun hc => absurd hc hi)
    (fun hc => absurd hc hi) (fun _ _ _ _ _ => Iff.rfl)

theorem reflag
    (hw : entryOf M w = entryOf M (mem t j)) (hpres : present w → present (mem t j)) :
    Tables (update mem t (update (mem t) j w)) role := by
  refine h.storePte ht (fun _ _ _ => Iff.rfl) (fun _ => Iff.rfl) ?_ ?_ (fun _ _ _ _ _ => Iff.rfl)
  · intro hi hp
    obtain ⟨u, hu⟩ := h.pte t d i j ht hi (hpres hp)
    exact ⟨u, by rw [hw, hu]⟩
  intro hi u
  rw [hw, h.user]
  constructor
  · intro ⟨_, t', ht', hu⟩
    rw [h.pgtab_unique ht' ht] at hu
    exact hu
  · intro hu
    exact ⟨hi, t, ht, hu⟩

/-- **A new user page**, at an entry that was not there. -/
theorem installUser (hi : i.val < 512)
    (hfree : ¬ present (mem t j)) (hold : (role u).Aside) (hw : entryOf M w = some u) :
    Tables (update mem t (update (mem t) j w)) (update role u (.user d i j)) := by
  have hnone : ∀ u', role u' ≠ .user d i j := by
    intro u' hu'
    obtain ⟨-, t', ht', he⟩ := (h.user u' d i j).mp hu'
    rw [h.pgtab_unique ht' ht, entryOf_of_not_present hfree] at he
    simp at he
  refine h.storePte ht (fun _ _ _ => update_eq_iff hold.ne_pgtab (by simp))
    (fun _ => live_update_iff hold.not_live (by simp)) (fun _ _ => ⟨u, hw⟩) ?_ ?_
  · intro _ u'
    rw [hw]
    by_cases hu : u' = u
    · rw [hu, update_self]
      exact iff_of_true rfl rfl
    · rw [update_of_ne hu]
      exact iff_of_false (hnone u') fun hc => hu (some.inj hc).symm
  · intro u' d' i' j' hne
    refine update_eq_iff hold.ne_user fun hc => hne ?_
    simp only [Role.user.injEq] at hc
    exact ⟨hc.1.symm, hc.2.1.symm, hc.2.2.symm, hi⟩

/-- **A user page is unmapped** and put to a use no table leads to. -/
theorem removeUser
    (hu : role u = .user d i j) (hnew : r.Aside) :
    Tables (update mem t (update (mem t) j 0)) (update role u r) := by
  have hold : ∀ u', role u' = .user d i j → u' = u := by
    intro u' hu'
    obtain ⟨-, t1, ht1, he1⟩ := (h.user u d i j).mp hu
    obtain ⟨-, t2, ht2, he2⟩ := (h.user u' d i j).mp hu'
    rw [h.pgtab_unique ht1 ht2, he2] at he1
    exact some.inj he1
  have hlive : ¬ Live role u := by
    intro ⟨o, ho⟩
    rw [hu] at ho
    simp at ho
  refine h.storePte ht (fun _ _ _ => update_eq_iff (by simp [hu]) hnew.ne_pgtab)
    (fun _ => live_update_iff hlive fun _ => hnew.ne_pgdir)
    (fun _ hc => absurd hc Jos.not_present_zero) ?_ ?_
  · intro _ u'
    rw [entryOf_zero]
    refine iff_of_false ?_ (by simp)
    by_cases hne : u' = u
    · rw [hne, update_self]
      exact hnew.ne_user
    · rw [update_of_ne hne]
      exact fun hc => hne (hold u' hc)
  · intro u' d' i' j' hne
    refine update_eq_iff (fun hc => hne ?_) hnew.ne_user
    rw [hu] at hc
    simp only [Role.user.injEq] at hc
    exact ⟨hc.1.symm, hc.2.1.symm, hc.2.2.symm, ((h.user u d i j).mp hu).1⟩

end

end Tables

/-- The roles once a directory and its page tables are nobody's any more. -/
def retired (d : Ppn M) (role : Ppn M → Role M) (p : Ppn M) : Role M :=
  if p = d then .held
  else
    match role p with
    | .pgtab d' i => if d' = d then .held else .pgtab d' i
    | r => r

theorem retired_eq_pgtab_iff {d' : Ppn M} (hd : Live role d) :
    retired d role t = .pgtab d' i ↔ d' ≠ d ∧ role t = .pgtab d' i := by
  unfold retired
  by_cases htd : t = d
  · rw [if_pos htd]
    refine iff_of_false (by simp) fun hc => ?_
    exact Tables.ne_of_pgtab_of_live hc.2 hd htd
  rw [if_neg htd]
  cases hrole : role t with
  | pgtab d1 i1 =>
    by_cases hdd : d1 = d
    · simp only [hdd, if_true, Role.pgtab.injEq]
      refine iff_of_false (by simp) fun hc => hc.1 hc.2.1.symm
    · simp only [if_neg hdd, Role.pgtab.injEq]
      exact ⟨fun hc => ⟨fun hd' => hdd (hc.1.trans hd'), hc⟩, fun hc => hc.2⟩
  | _ => simp

theorem retired_eq_iff (hr : r ≠ .held) (hpgtab : ∀ d i, r ≠ .pgtab d i)
    (hd : role d ≠ r) : retired d role t = r ↔ role t = r := by
  unfold retired
  by_cases htd : t = d
  · rw [if_pos htd, htd]
    exact iff_of_false hr.symm hd
  rw [if_neg htd]
  cases hrole : role t with
  | pgtab d1 i1 =>
    refine iff_of_false ?_ (hpgtab d1 i1).symm
    by_cases hdd : d1 = d
    · simp only [hdd, if_true]
      exact hr.symm
    · simp only [if_neg hdd]
      exact (hpgtab d1 i1).symm
  | _ => exact Iff.rfl

theorem live_retired_iff {d' : Ppn M} : Live (retired d role) d' ↔ d' ≠ d ∧ Live role d' := by
  by_cases hdd : d' = d
  · subst hdd
    refine iff_of_false (fun ⟨o, ho⟩ => ?_) fun hc => hc.1 rfl
    rw [retired, if_pos rfl] at ho
    simp at ho
  · simp only [ne_eq, hdd, not_false_eq_true, true_and]
    refine exists_congr fun o => ?_
    rw [retired, if_neg hdd]
    cases hrole : role d' with
    | pgtab d1 i1 =>
      refine iff_of_false ?_ (by simp)
      show (if d1 = d then Role.held else .pgtab d1 i1) ≠ _
      split <;> simp
    | _ => exact Iff.rfl

/-- **A directory without user pages is given up**, its page tables with it. -/
theorem Tables.retire (h : Tables mem role) (hd : Live role d)
    (hnone : ∀ u i j, role u ≠ .user d i j) : Tables mem (retired d role) := by
  have huser : ∀ u d' i j, retired d role u = .user d' i j ↔ role u = .user d' i j := by
    intro u d' i j
    refine retired_eq_iff (by simp) (by simp) fun hc => ?_
    obtain ⟨o, ho⟩ := hd
    rw [ho] at hc
    simp at hc
  refine ⟨?_, ?_, ?_, ?_⟩
  · intro t d' i
    rw [retired_eq_pgtab_iff hd, live_retired_iff, h.pgtab, and_assoc]
  · intro d' i hd'
    exact h.pde d' i (live_retired_iff.mp hd').2
  · intro u d' i j
    rw [huser, h.user]
    refine and_congr_right fun hi => exists_congr fun t => ?_
    rw [retired_eq_pgtab_iff hd]
    constructor
    · intro ⟨ht, hu⟩
      refine ⟨⟨fun hdd => ?_, ht⟩, hu⟩
      rw [hdd] at ht
      exact hnone u i j ((h.user u d i j).mpr ⟨hi, t, ht, hu⟩)
    · intro ⟨ht, hu⟩
      exact ⟨ht.2, hu⟩
  · intro t d' i j ht
    exact h.pte t d' i j ((retired_eq_pgtab_iff hd).mp ht).2

/-! ### Pages leave the free list and come back -/

namespace Owned

theorem runNext_congr {q : Ppn M} (h : m'.mem q = m.mem q) : runNext m' q = runNext m q := by
  unfold runNext Kmem.load
  rw [h]

section

variable (h : Owned K m role)
include h

/-- Page tables and roles change, the free list does not. -/
theorem rebuild {role' : Ppn M → Role M} (hlist : m'.freelist = m.freelist)
    (hfree : ∀ q, role' q = .free ↔ role q = .free)
    (hmem : ∀ q, role q = .free → m'.mem q = m.mem q)
    (hboot : ∀ q, role q = .boot → role' q = .boot) (htab : Tables m'.mem role') :
    Owned K m' role' := by
  obtain ⟨l, hchain, hl⟩ := h.free
  refine ⟨⟨l, ?_, fun q => (hl q).trans (hfree q).symm⟩, fun q hq => hboot q (h.boot q hq), htab⟩
  rw [hlist]
  exact hchain.congr fun q hq => runNext_congr (hmem q ((hl q).mp hq))

theorem congr (hlist : m'.freelist = m.freelist)
    (hag : ∀ p, role p = .free ∨ Live role p ∨ (∃ d i, role p = .pgtab d i) →
      m'.mem p = m.mem p) : Owned K m' role :=
  h.rebuild hlist (fun _ => Iff.rfl) (fun q hq => hag q (.inl hq)) (fun _ hq => hq)
    (h.tables.congr fun p hp => hag p (.inr hp))

theorem fill {f : Fin nptentries → Word} (hp : (role p).Aside)
    (hne : role p ≠ .free) : Owned K (m.fill p f) role := by
  refine h.congr rfl fun q hq => mem_fill_of_ne ?_
  intro hqp
  rw [hqp] at hq
  rcases hq with hfree | hlive | ⟨d, i, htab⟩
  · exact hne hfree
  · exact hp.not_live hlive
  · exact hp.ne_pgtab htab

theorem retag (hold : (role p).Aside) (hne : role p ≠ .free)
    (hnew : r.Aside) (hne' : r ≠ .free) : Owned K m (update role p r) := by
  refine h.rebuild rfl (fun q => update_eq_iff hne hne') (fun _ _ => rfl) ?_
    (h.tables.retag hold hnew)
  intro q hboot
  have hqp : q ≠ p := by
    intro hqp
    rw [← hqp, hboot] at hold
    exact hold
  rw [update_of_ne hqp, hboot]

/-- **Taking a page off the free list.** -/
theorem pop (hp : m.freelist = some p) :
    role p = .free ∧
      Owned K { m with freelist := runNext m p } (update role p .held) := by
  obtain ⟨l, hchain, hmem⟩ := h.free
  rw [hp] at hchain
  obtain ⟨l', hl, hrest⟩ := hchain.of_some
  subst hl
  have hfree : role p = .free := (hmem p).mp (by simp)
  refine ⟨hfree, ⟨l', hrest, fun q => ?_⟩, fun q hq => ?_, ?_⟩
  · by_cases hqp : q = p
    · rw [hqp, update_self]
      exact iff_of_false (nodup_cons.mp hchain.nodup).1 (by simp)
    · rw [update_of_ne hqp, ← hmem]
      simp [hqp]
  · have hboot := h.boot q hq
    have hqp : q ≠ p := by
      intro hqp
      rw [← hqp, hboot] at hfree
      simp at hfree
    rw [update_of_ne hqp, hboot]
  · exact h.tables.retag (by rw [hfree]; trivial) trivial

end

theorem toNat_kva (p : Ppn M) : (kva p).toNat = p.val * 4096 + 2147483648 := by
  have hp : p.val < 65536 := Nat.lt_of_lt_of_le p.isLt M.npagesLe
  unfold kva
  rw [BitVec.toNat_add, toNat_page2pa, toNat_kernbase]
  omega

theorem frame_kva_sub (p : Ppn M) : frame M (kva p - kernbase) = some p := by
  have hsub : kva p - kernbase = page2pa p := BitVec.add_sub_cancel _ _
  have hnum : Jos.pgnum (page2pa p) = p.val := by
    unfold Jos.pgnum
    rw [BitVec.toNat_ushiftRight, toNat_page2pa, Nat.shiftRight_eq_div_pow]
    omega
  rw [hsub]
  simp [frame, Jos.frame, hnum]

theorem not_kva_lt_kend (h : K.endPage ≤ p.val) : ¬ kva p < K.kend := by
  intro hlt
  have hlt' : (kva p).toNat < K.kend.toNat := hlt
  rw [toNat_kva] at hlt'
  have hend : (K.kend.toNat - 2147483648 + 4095) / 4096 ≤ p.val := h
  omega

/-- Memory with a page put back. -/
def freed (m : Kmem M) (p : Ppn M) : Kmem M where
  mem := ((m.fill p fun _ => 0x01010101).store (p, 0)
    (match m.freelist with | none => 0 | some r => kva r)).mem
  freelist := some p

theorem kfree_eq_freed (h : K.endPage ≤ p.val) : Xv6.kfree K m p = some (freed m p) :=
  if_neg (not_kva_lt_kend h)

theorem mem_freed_of_ne {q : Ppn M} (h : q ≠ p) : (freed m p).mem q = m.mem q := by
  show ((m.fill p _).store (p, 0) _).mem q = _
  rw [mem_store_of_ne h, mem_fill_of_ne h]

theorem runNext_freed_of_ne {q : Ppn M} (h : q ≠ p) : runNext (freed m p) q = runNext m q :=
  runNext_congr (mem_freed_of_ne h)

theorem runNext_freed_self (m : Kmem M) (p : Ppn M) : runNext (freed m p) p = m.freelist := by
  have hload : (freed m p).load (p, 0) = match m.freelist with | none => 0 | some r => kva r := by
    show ((m.fill p _).store (p, 0) _).mem p 0 = _
    rw [mem_store_self, update_self]
  unfold runNext
  rw [hload]
  cases m.freelist with
  | none => rfl
  | some r =>
    have hnz : kva r ≠ 0 := by
      intro hz
      have hval := toNat_kva r
      rw [hz] at hval
      have h0 : (0 : Word).toNat = 0 := rfl
      omega
    rw [if_neg hnz, frame_kva_sub]

theorem endPage_le (h : Owned K m role) (hp : role p ≠ .boot) : K.endPage ≤ p.val := by
  by_contra hlt
  exact hp (h.boot p (Nat.lt_of_not_le hlt))

/-- **Freeing a page** that is in the kernel's hands. -/
theorem kfree (h : Owned K m role) (hp : (role p).Aside) (hne : role p ≠ .free) :
    Xv6.kfree K m p = some (freed m p) ∧ Owned K (freed m p) (update role p .free) := by
  have hend : K.endPage ≤ p.val := h.endPage_le fun hboot => by
    rw [hboot] at hp
    exact hp
  obtain ⟨l, hchain, hmem⟩ := h.free
  have hpl : p ∉ l := fun hc => hne ((hmem p).mp hc)
  refine ⟨kfree_eq_freed hend, ⟨p :: l, ⟨rfl, ?_⟩, fun q => ?_⟩, fun q hq => ?_, ?_⟩
  · rw [runNext_freed_self]
    refine hchain.congr fun q hq => runNext_freed_of_ne ?_
    intro hqp
    rw [hqp] at hq
    exact hpl hq
  · by_cases hqp : q = p
    · rw [hqp, update_self]
      simp
    · rw [update_of_ne hqp, ← hmem]
      simp [hqp]
  · have hqp : q ≠ p := by
      intro hqp
      rw [hqp] at hq
      omega
    rw [update_of_ne hqp, h.boot q hq]
  · have hfree : (Role.free : Role M).Aside := trivial
    refine (h.tables.retag hp hfree).congr fun q hq => mem_freed_of_ne ?_
    intro hqp
    rw [hqp] at hq
    rcases hq with ⟨o, ho⟩ | ⟨d, i, ht⟩
    · rw [update_self] at ho
      simp at ho
    · rw [update_self] at ht
      simp at ht

/-- The role of a page after the pages of a list have been given back. -/
def returned (role : Ppn M → Role M) (l : List (Ppn M)) (p : Ppn M) : Role M :=
  if p ∈ l then .free else role p

/-- **Giving back pages one after the other.** -/
theorem kfrees (l : List (Ppn M)) : ∀ {m : Kmem M} {role : Ppn M → Role M}, Owned K m role →
    (∀ p ∈ l, role p = .held) → l.Nodup →
    l.foldlM (Xv6.kfree K) m = some (l.foldl freed m) ∧
      Owned K (l.foldl freed m) (returned role l) ∧
      ∀ p ∉ l, (l.foldl freed m).mem p = m.mem p := by
  induction l with
  | nil =>
    intro m role h _ _
    refine ⟨rfl, ?_, fun _ _ => rfl⟩
    have hsame : returned role [] = role := funext fun p => if_neg not_mem_nil
    rwa [hsame]
  | cons q l ih =>
    intro m role h hheld hnodup
    obtain ⟨hq, hl⟩ := nodup_cons.mp hnodup
    have hrole : role q = .held := hheld q mem_cons_self
    obtain ⟨heq, hfreed⟩ := h.kfree (p := q) (by rw [hrole]; trivial) (by rw [hrole]; simp)
    have hrest : ∀ p ∈ l, update role q .free p = .held := by
      intro p hp
      have hpq : p ≠ q := by
        intro hpq
        exact hq (hpq ▸ hp)
      rw [update_of_ne hpq]
      exact hheld p (mem_cons_of_mem q hp)
    obtain ⟨hfold, howned, hmem⟩ := ih hfreed hrest hl
    refine ⟨?_, ?_, fun p hp => ?_⟩
    · rw [foldlM_cons, heq]
      exact hfold
    · have hsame : returned (update role q .free) l = returned role (q :: l) := by
        funext p
        unfold returned
        by_cases hpq : p = q
        · subst hpq
          rw [if_neg hq, if_pos mem_cons_self, update_self]
        · rw [update_of_ne hpq]
          exact if_congr (by simp [hpq]) rfl rfl
      rwa [hsame] at howned
    · rw [mem_cons, not_or] at hp
      rw [foldl_cons, hmem p hp.2, mem_freed_of_ne hp.1]

/-- A page in the kernel's hands becomes an empty directory. -/
theorem newDir (h : Owned K m role) (hold : (role p).Aside) (hne : role p ≠ .free)
    (hzero : ∀ i, m.mem p i = 0) : Owned K m (update role p (.pgdir o)) := by
  refine h.rebuild rfl (fun q => update_eq_iff hne (by simp)) (fun _ _ => rfl) ?_
    (h.tables.newDir hold hzero)
  intro q hboot
  have hqp : q ≠ p := by
    intro hqp
    rw [← hqp, hboot] at hold
    exact hold
  rw [update_of_ne hqp, hboot]

/-- Before `kinit1` no page is free and none is in use. -/
def unclaimed (K : Linker M) (p : Ppn M) : Role M := if p.val < K.endPage then .boot else .held

theorem unclaimed_cases (K : Linker M) (p : Ppn M) :
    unclaimed K p = .boot ∨ unclaimed K p = .held := by
  unfold unclaimed
  split
  · exact .inl rfl
  · exact .inr rfl

theorem start (m : Kmem M) (hlist : m.freelist = none) : Owned K m (unclaimed K) := by
  have hne : ∀ p (r : Role M), r ≠ .boot → r ≠ .held → unclaimed K p ≠ r := by
    intro p r hboot hheld hr
    rcases unclaimed_cases K p with h | h
    · exact hboot (hr.symm.trans h)
    · exact hheld (hr.symm.trans h)
  have hlive : ∀ d, ¬ Live (unclaimed K) d :=
    fun d ⟨o, ho⟩ => hne d _ (by simp) (by simp) ho
  have htab : ∀ t d i, unclaimed K t ≠ .pgtab d i := fun t d i => hne t _ (by simp) (by simp)
  refine ⟨⟨[], hlist, fun p => ?_⟩, fun p hp => if_pos hp, ?_, ?_, ?_, ?_⟩
  · exact iff_of_false (by simp) (hne p _ (by simp) (by simp))
  · exact fun t d i => iff_of_false (htab t d i) fun ⟨hd, _⟩ => hlive d hd
  · exact fun d i hd _ => absurd hd (hlive d)
  · exact fun u d i j => iff_of_false (hne u _ (by simp) (by simp))
      fun ⟨_, t, ht, _⟩ => htab t d i ht
  · exact fun t d i j ht _ _ => absurd ht (htab t d i)

end Owned

end Xv6
