/-
The operations of `vm.c` on an address space.

Each function gets one lemma that says what it returns, that pages keep having one owner,
what it does to the pages of the directory it works on, and that it touches no others.
Loops are inductions on the number of turns, with the part of the address space that is
done as the invariant.
-/
import Os.Proofs.Xv6.Pages

namespace Xv6

open BitVec (le_def not_lt)
open Option Function
open Jos (entryOf entryOf_eq_some entryOf_of_not_present entryOf_pte FlagsOnly val_pdx)

variable {M : Machine} {K : Linker M} {m m' m'' : Kmem M} {role role' role'' : Ppn M → Role M}
variable {d t u p : Ppn M} {o : Owner} {va va' perm : Word}

/-! ### `walkpgdir` -/

section

variable (hpres : ¬ present (m.mem d (pdx va)))
include hpres

theorem walkpgdir_absent :
    walkpgdir m d va false = some (none, m) := by
  unfold walkpgdir Kmem.load
  rw [if_neg hpres, if_neg (by simp)]

theorem walkpgdir_full (hfree : m.freelist = none) :
    walkpgdir m d va true = some (none, m) := by
  unfold walkpgdir kalloc Kmem.load
  rw [if_neg hpres, if_pos rfl, hfree]

theorem walkpgdir_new (hfree : m.freelist = some t) :
    walkpgdir m d va true = some (some (t, ptx va), Owned.withTable m d t (pdx va)) := by
  unfold walkpgdir kalloc Kmem.load
  rw [if_neg hpres, if_pos rfl, hfree]
  rfl

end

theorem Owned.walkpgdir_found (h : Owned K m role) (ht : role t = .pgtab d (pdx va))
    (alloc : Bool) : walkpgdir m d va alloc = some (some (t, ptx va), m) := by
  have hentry := ((h.tables.pgtab t d (pdx va)).mp ht).2
  obtain ⟨hpres, hframe⟩ := entryOf_eq_some.mp hentry
  unfold walkpgdir Kmem.load
  rw [if_pos hpres]
  rw [show frame M (pteAddr (m.mem d (pdx va))) = some t from hframe]

/-! ### `mappages`, one page -/

theorem Within.live (hw : Within d m role m' role') (hd : Live role d) : Live role' d := by
  obtain ⟨o, ho⟩ := hd
  exact ⟨o, by rw [(hw.kept d (by simp [ho]) (by simp [Role.Mine, ho])).1, ho]⟩

theorem pteFlags_page2pa (u : Ppn M) (hperm : FlagsOnly perm) :
    pteFlags (page2pa u ||| perm ||| pteP) = perm ||| pteP := by
  have hflags : FlagsOnly (perm ||| pteP) := Jos.flagsOnly_or hperm Jos.flagsOnly_pteP
  unfold pteFlags
  rw [Jos.pte_and_flags u perm (by decide)]
  apply BitVec.eq_of_toNat_eq
  rw [BitVec.toNat_and]
  have hmask : (0xFFF : Word).toNat = 2 ^ 12 - 1 := rfl
  rw [hmask, Nat.and_two_pow_sub_one_eq_mod]
  exact Nat.mod_eq_of_lt hflags

/-- What mapping the page `u` at `va` comes to. -/
structure MapsPage (K : Linker M) (d : Ppn M) (va flags : Word) (u : Ppn M) (m : Kmem M)
    (role : Ppn M → Role M) (m' : Kmem M) (role' : Ppn M → Role M) : Prop where
  owned : Owned K m' role'
  within : Within d m role m' role'
  page : ∀ va', va'.toNat < 2147483648 →
    pageAt m' d va' = if vpn va' = vpn va then some (flags, m.mem u) else pageAt m d va'
  held : ∀ p, role p = .held → p ≠ u → role' p = .held ∧ m'.mem p = m.mem p
  kern : SameKern d m m'

theorem Owned.mapsPage_table (h : Owned K m role) (ht : role t = .pgtab d (pdx va))
    (hva : va.toNat < 2147483648) (hnone : pageAt m d va = none) (hu : role u = .held)
    (hperm : FlagsOnly perm) :
    ¬ present (m.mem t (ptx va)) ∧ MapsPage K d va (perm ||| pteP) u m role
      (m.store (t, ptx va) (page2pa u ||| perm ||| pteP))
      (update role u (.user d (pdx va) (ptx va))) := by
  have hfree : ¬ present (m.mem t (ptx va)) := by
    intro hpres
    obtain ⟨u', hu'⟩ := h.tables.pte t d _ _ ht (pdx_lt_iff.mpr hva) hpres
    rw [h.pageAt_of_pgtab ht, hu'] at hnone
    simp at hnone
  have hentry : entryOf M (page2pa u ||| perm ||| pteP) = some u := entryOf_pte u hperm
  have hut : u ≠ t := ne_of_role hu ht (by simp)
  refine ⟨hfree, h.mapPage ht (pdx_lt_iff.mpr hva) hfree hu hentry, ?_, ?_, ?_,
    h.sameKern_store ht (pdx_lt_iff.mpr hva)⟩
  · refine Within.update (.inr (.inl hu)) (.inr (.inr (.inr ⟨_, _, rfl⟩))) ?_
    intro q _ _ hmine
    refine mem_store_of_ne fun hqt => hmine ?_
    rw [hqt]
    exact .inr (.inl ⟨_, ht⟩)
  · intro va' hva'
    by_cases hvpn : vpn va' = vpn va
    · rw [if_pos hvpn, h.pageAt_store_self ht hvpn, hentry, map_some,
        pteFlags_page2pa u hperm, mem_store_of_ne hut]
    · rw [if_neg hvpn, h.pageAt_store_other ht hva' hvpn]
  · intro p hp hpu
    rw [update_of_ne hpu]
    exact ⟨hp, mem_store_of_ne (ne_of_role hp ht (by simp))⟩

/-- `mappages` of a page that the operation holds, where nothing is mapped, and what becomes of the
pages: the one that is mapped and perhaps a free one that becomes a page table are the
directory's. -/
theorem Owned.mappages_gains (h : Owned K m role) (hd : Live role d) (hva : va.toNat < 2147483648)
    (halign : va.toNat % 4096 = 0) (hnone : pageAt m d va = none) (hu : role u = .held)
    (hperm : FlagsOnly perm) :
    (m.freelist = none ∧ ¬ present (m.mem d (pdx va)) ∧
      Xv6.mappages m d va pgsize (page2pa u) perm = some (false, m)) ∨
    ∃ m' role', Xv6.mappages m d va pgsize (page2pa u) perm = some (true, m') ∧
      MapsPage K d va (perm ||| pteP) u m role m' role' ∧ (role' u).Of d ∧
      (∀ p, p ≠ u → role' p = role p ∨ (role p = .free ∧ (role' p).Of d)) ∧
      ∀ va', vpn va' ≠ vpn va → (KernAt m' d va' ↔ KernAt m d va') := by
  rw [mappages_page halign]
  unfold mappagesLoop
  by_cases hpres : present (m.mem d (pdx va))
  · right
    obtain ⟨t, ht⟩ := h.exists_table hd hpres
    obtain ⟨hfree, hmaps⟩ := h.mapsPage_table ht hva hnone hu hperm
    refine ⟨_, _, ?_, hmaps, ?_, fun p hpu => .inl (update_of_ne hpu _ _),
      fun va' hne => h.kernAt_store_other ht hne⟩
    · rw [h.walkpgdir_found ht true]
      exact if_neg hfree
    · rw [update_self]
      exact .inr ⟨_, _, rfl⟩
  · cases hlist : m.freelist with
    | none =>
      left
      refine ⟨rfl, hpres, ?_⟩
      rw [walkpgdir_full hpres hlist]
    | some t =>
      right
      obtain ⟨hrole, howned⟩ := h.addTable hd hpres hlist
      have hself : update role t (.pgtab d (pdx va)) t = .pgtab d (pdx va) :=
        update_self _ _ _
      have hut : u ≠ t := ne_of_role hu hrole (by simp)
      have hud : u ≠ d := by
        obtain ⟨o, ho⟩ := hd
        exact ne_of_role hu ho (by simp)
      have hview : ∀ va', va'.toNat < 2147483648 →
          pageAt (withTable m d t (pdx va)) d va' = pageAt m d va' :=
        fun va' hva' => h.pageAt_withTable hd hpres hrole hva'
      obtain ⟨hfree, hmaps⟩ := howned.mapsPage_table (u := u) hself hva
        ((hview va hva).trans hnone) (by rw [update_of_ne hut, hu]) hperm
      refine ⟨_, _, ?_,
        ⟨hmaps.owned, (within_withTable hrole).trans hmaps.within, ?_, ?_,
          (h.sameKern_withTable hd hrole (pdx_lt_iff.mpr hva)).trans hmaps.kern⟩, ?_,
        fun p hpu => ?_,
        fun va' hne => (howned.kernAt_store_other hself hne).trans
          (h.kernAt_withTable hd hpres hrole)⟩
      · rw [walkpgdir_new hpres hlist]
        exact if_neg hfree
      · intro va' hva'
        rw [hmaps.page va' hva', hview va' hva', mem_withTable_of_ne hut hud]
      · intro p hp hpu
        obtain ⟨o, ho⟩ := hd
        have hpt : p ≠ t := ne_of_role hp hrole (by simp)
        obtain ⟨hp', hmem⟩ := hmaps.held p (by rw [update_of_ne hpt, hp]) hpu
        exact ⟨hp', hmem.trans (mem_withTable_of_ne hpt (ne_of_role hp ho (by simp)))⟩
      · rw [update_self]
        exact .inr ⟨_, _, rfl⟩
      · rw [update_of_ne hpu]
        by_cases hpt : p = t
        · subst hpt
          rw [update_self]
          exact .inr ⟨hrole, .inl ⟨_, rfl⟩⟩
        · exact .inl (update_of_ne hpt _ _)

/-! ### Growing -/

/-- Free pages have become the directory's; only they and its own have been written. -/
structure Grows (K : Linker M) (d : Ppn M) (m : Kmem M) (role : Ppn M → Role M) (m' : Kmem M)
    (role' : Ppn M → Role M) : Prop where
  owned : Owned K m' role'
  roles : ∀ p, role' p = role p ∨ (role p = .free ∧ (role' p).Of d)
  kept : ∀ p, role p ≠ .free → ¬ (role p).Of d → p ≠ d → m'.mem p = m.mem p

theorem Role.Of.ne_free {r : Role M} (h : r.Of d) : r ≠ .free := by
  rintro rfl
  rcases h with ⟨i, hi⟩ | ⟨i, j, hu⟩
  · cases hi
  · cases hu

namespace Grows

theorem refl (h : Owned K m role) : Grows K d m role m role :=
  ⟨h, fun _ => .inl rfl, fun _ _ _ _ => rfl⟩

section

variable (h : Grows K d m role m' role')
include h

theorem role_eq (hp : role p ≠ .free) : role' p = role p :=
  (h.roles p).resolve_right fun hc => hp hc.1

theorem live {d' : Ppn M} (hd : Live role d') : Live role' d' := by
  obtain ⟨o, ho⟩ := hd
  exact ⟨o, by rw [h.role_eq (by simp [ho]), ho]⟩

theorem trans (h' : Grows K d m' role' m'' role'') :
    Grows K d m role m'' role'' where
  owned := h'.owned
  roles := by
    intro p
    rcases h.roles p with heq | ⟨hfree, hof⟩
    · rw [← heq]
      exact h'.roles p
    · rw [h'.role_eq hof.ne_free]
      exact .inr ⟨hfree, hof⟩
  kept := by
    intro p hfree hof hpd
    have heq := h.role_eq hfree
    rw [h'.kept p (by rw [heq]; exact hfree) (by rw [heq]; exact hof) hpd, h.kept p hfree hof hpd]

theorem within : Within d m role m' role' where
  kept p hfree hmine := ⟨h.role_eq hfree, h.kept p hfree fun hof => hmine (.inr hof)⟩
  only p hne := .inr (.inr ((h.roles p).resolve_left hne).2)

end

end Grows

/-- **A page with given contents** is mapped where there was none; only a page table can be
missing. -/
theorem Owned.growPage (h : Owned K m role) (hd : Live role d) (hva : va.toNat < 2147483648)
    (halign : va.toNat % 4096 = 0) (hnone : pageAt m d va = none) (hfree : m.freelist = some u)
    (hperm : FlagsOnly perm) (c : Fin nptentries → Word) :
    ((taken m u c).freelist = none ∧ ¬ present (m.mem d (pdx va)) ∧
      Xv6.mappages (taken m u c) d va pgsize (page2pa u) perm = some (false, taken m u c)) ∨
    ∃ m' role', Xv6.mappages (taken m u c) d va pgsize (page2pa u) perm = some (true, m') ∧
      Grows K d m role m' role' ∧
      (∀ va', va'.toNat < 2147483648 → pageAt m' d va' =
        if vpn va' = vpn va then some (perm ||| pteP, c) else pageAt m d va') ∧
      (∀ va', vpn va' ≠ vpn va → (KernAt m' d va' ↔ KernAt (taken m u c) d va')) ∧
      SameKern d m m' := by
  obtain ⟨hrole, howned⟩ := h.take hfree c
  obtain ⟨o, ho⟩ := hd
  have hdu : d ≠ u := ne_of_role ho hrole (by simp)
  have hself : update role u Role.held u = .held := update_self _ _ _
  have hlive : Live (update role u Role.held) d :=
    ⟨o, by rw [update_of_ne hdu, ho]⟩
  have hview : ∀ va', va'.toNat < 2147483648 → pageAt (taken m u c) d va' = pageAt m d va' :=
    fun va' hva' => h.pageAt_taken ⟨o, ho⟩ hrole hva'
  rcases howned.mappages_gains hlive hva halign ((hview va hva).trans hnone) hself hperm with
    ⟨hlist, hpres, hfail⟩ | ⟨m', role', hok, hmaps, hof, hroles, hkern⟩
  · rw [mem_taken_of_ne hdu] at hpres
    exact .inl ⟨hlist, hpres, hfail⟩
  · right
    refine ⟨m', role', hok, ⟨hmaps.owned, fun p => ?_, fun p hp hnot hpd => ?_⟩, ?_, hkern,
      (h.sameKern_taken ⟨o, ho⟩ hrole c).trans hmaps.kern⟩
    · by_cases hpu : p = u
      · subst hpu
        exact .inr ⟨hrole, hof⟩
      · have hp := hroles p hpu
        rw [update_of_ne hpu] at hp
        exact hp
    · have hpu : p ≠ u := by
        rintro rfl
        exact hp hrole
      have hother : update role u Role.held p = role p := update_of_ne hpu _ _
      rw [← mem_taken_of_ne (m := m) (f := c) hpu]
      by_cases hheld : role p = .held
      · exact (hmaps.held p (hother.trans hheld) hpu).2
      · refine (hmaps.within.kept p (by rw [hother]; exact hp) ?_).2 hpd
        rw [hother]
        exact fun hmine => hmine.elim hheld hnot
    · intro va' hva'
      rw [hmaps.page va' hva', hview va' hva', mem_taken_self]

/-! ### `deallocuvm` -/

/-- A page of the directory that is not mapped any more. -/
def Role.Gone (m' : Kmem M) (d : Ppn M) (r : Role M) : Prop :=
  ∃ va, va.toNat < 2147483648 ∧ r = .user d (pdx va) (ptx va) ∧ pageAt m' d va = none

/-- Giving back the pages from number `lo` on that begin below `hi`. -/
structure Unmaps (K : Linker M) (d : Ppn M) (lo hi : Nat) (m : Kmem M) (role : Ppn M → Role M)
    (m' : Kmem M) (role' : Ppn M → Role M) : Prop where
  owned : Owned K m' role'
  within : Within d m role m' role'
  page : ∀ va', va'.toNat < 2147483648 →
    pageAt m' d va' = if lo ≤ vpn va' ∧ vpn va' * 4096 < hi then none else pageAt m d va'
  roles : ∀ p, role' p = role p ∨ role' p = .free ∧ (role p).Gone m' d
  held : ∀ p, role p = .held → role' p = .held ∧ m'.mem p = m.mem p
  kern : SameKern d m m'

theorem Unmaps.refl {lo hi : Nat} (h : Owned K m role) (hempty : hi ≤ lo * 4096) :
    Unmaps K d lo hi m role m role where
  owned := h
  within := .refl d m role
  page := by
    intro va' _
    rw [if_neg]
    omega
  roles := fun _ => .inl rfl
  held := fun _ hp => ⟨hp, rfl⟩
  kern := fun _ _ => rfl

theorem Owned.unmaps_page (h : Owned K m role) (hva : va.toNat < 2147483648)
    (ht : role t = .pgtab d (pdx va)) (hu : role u = .user d (pdx va) (ptx va)) :
    Unmaps K d (vpn va) (vpn va * 4096 + 1) m role ((freed m u).store (t, ptx va) 0)
      (update role u .free) where
  owned := (h.unmapPage ht hu).2
  within := by
    refine Within.update (.inr (.inr (.inr ⟨_, _, hu⟩))) (.inl rfl) ?_
    intro q hqu _ hmine
    have hqt : q ≠ t := by
      intro hqt
      rw [hqt, ht] at hmine
      exact hmine (.inr (.inl ⟨_, rfl⟩))
    rw [mem_store_of_ne hqt, mem_freed_of_ne hqu]
  page := by
    intro va' hva'
    rw [h.pageAt_unmapPage ht hu hva']
    refine if_congr ⟨fun hv => ?_, fun hv => ?_⟩ rfl rfl
    · omega
    · omega
  roles := by
    intro p
    by_cases hp : p = u
    · refine .inr ⟨by rw [hp, update_self], va, hva, by rw [hp, hu], ?_⟩
      rw [h.pageAt_unmapPage ht hu hva, if_pos rfl]
    · exact .inl (update_of_ne hp _ _)
  held := by
    intro p hp
    have hpu : p ≠ u := ne_of_role hp hu (by simp)
    rw [update_of_ne hpu, mem_store_of_ne (ne_of_role hp ht (by simp)),
      mem_freed_of_ne hpu]
    exact ⟨hp, rfl⟩
  kern := by
    obtain ⟨o, ho⟩ := h.live_of_pgtab ht
    refine h.sameKern ⟨o, ho⟩ (fun i _ => ?_) fun t' i hi ht' => ?_
    · rw [mem_store_of_ne (ne_of_role ho ht (by simp)),
        mem_freed_of_ne (ne_of_role ho hu (by simp))]
    · have htt : t' ≠ t := by
        rintro rfl
        rw [ht] at ht'
        cases ht'
        exact absurd (pdx_lt_iff.mpr hva) (Nat.not_lt.mpr hi)
      rw [mem_store_of_ne htt, mem_freed_of_ne (ne_of_role ht' hu (by simp))]

theorem Unmaps.trans {lo mid hi hi' : Nat} {m'' : Kmem M} {role'' : Ppn M → Role M}
    (h : Unmaps K d lo hi m role m' role') (h' : Unmaps K d mid hi' m' role' m'' role'')
    (hsplit : ∀ va' : Word, va'.toNat < 2147483648 → pageAt m d va' ≠ none →
      ((lo ≤ vpn va' ∧ vpn va' * 4096 < hi ∨ mid ≤ vpn va' ∧ vpn va' * 4096 < hi') ↔
        lo ≤ vpn va' ∧ vpn va' * 4096 < hi')) :
    Unmaps K d lo hi' m role m'' role'' where
  owned := h'.owned
  within := h.within.trans h'.within
  page := by
    intro va' hva'
    rw [h'.page va' hva', h.page va' hva']
    by_cases hnone : pageAt m d va' = none
    · rw [hnone]
      simp
    have hiff := hsplit va' hva' hnone
    by_cases h1 : lo ≤ vpn va' ∧ vpn va' * 4096 < hi
    · rw [if_pos h1, if_pos (hiff.mp (.inl h1))]
      simp
    · by_cases h2 : mid ≤ vpn va' ∧ vpn va' * 4096 < hi'
      · rw [if_pos h2, if_pos (hiff.mp (.inr h2))]
      · rw [if_neg h2, if_neg h1, if_neg fun hc => (hiff.mpr hc).elim h1 h2]
  roles := by
    intro p
    rcases h'.roles p with heq | hgone
    · rw [heq]
      refine (h.roles p).imp_right fun ⟨hfree, va, hva, hu, hnone⟩ => ⟨hfree, va, hva, hu, ?_⟩
      rw [h'.page va hva, hnone, ite_self]
    · rcases h.roles p with heq | ⟨hfree, -⟩
      · rw [← heq]
        exact .inr hgone
      · obtain ⟨-, va, -, hu, -⟩ := hgone
        rw [hfree] at hu
        cases hu
  held := by
    intro p hp
    obtain ⟨hp', hmem⟩ := h.held p hp
    obtain ⟨hp'', hmem'⟩ := h'.held p hp'
    exact ⟨hp'', hmem'.trans hmem⟩
  kern := h.kern.trans h'.kern

theorem Unmaps.lower {lo lo' hi : Nat} (h : Unmaps K d lo' hi m role m' role')
    (hle : lo ≤ lo') (hgap : ∀ va' : Word, va'.toNat < 2147483648 → lo ≤ vpn va' →
      vpn va' < lo' → pageAt m d va' = none) : Unmaps K d lo hi m role m' role' where
  owned := h.owned
  within := h.within
  page := by
    intro va' hva'
    rw [h.page va' hva']
    by_cases hlow : vpn va' < lo'
    · rw [if_neg (fun hc => Nat.not_le.mpr hlow hc.1)]
      by_cases hin : lo ≤ vpn va'
      · rw [hgap va' hva' hin hlow]
        simp
      · rw [if_neg fun hc => hin hc.1]
    · refine if_congr ?_ rfl rfl
      omega
  roles := h.roles
  held := h.held
  kern := h.kern

theorem toNat_next_table {a : Word} (ha : a.toNat < 2147483648) :
    (BitVec.ofNat 32 ((pdx a).val + 1) <<< 22 - pgsize + pgsize).toNat
      = ((pdx a).val + 1) * 4194304 := by
  have hpdx : (pdx a).val < 512 := pdx_lt_iff.mpr ha
  rw [BitVec.sub_add_cancel, BitVec.toNat_shiftLeft, BitVec.toNat_ofNat, Nat.shiftLeft_eq]
  omega

theorem Owned.pteAddr_ne_zero {w : Word} (h : Owned K m role) (hu : entryOf M w = some u)
    (hrole : role u ≠ .boot) : pteAddr w ≠ 0 := by
  intro hz
  have hframe := (entryOf_eq_some.mp hu).2
  rw [hz] at hframe
  have hval : u.val = 0 := by
    unfold Jos.frame at hframe
    split at hframe
    · exact (congrArg Fin.val (some.inj hframe)).symm
    · simp at hframe
  have hend := h.endPage_le hrole
  have hdata := K.dataAbove
  have hkend := K.dataBelow
  unfold Linker.endPage at hend
  omega

section Turn

variable {oldsz a : Word} {n : Nat} {pte : PtePtr M}

theorem deallocLoop_skip (hlt : a < oldsz) (hwalk : walkpgdir m d a false = some (none, m)) :
    deallocLoop K d oldsz (n + 1) m a
      = deallocLoop K d oldsz n m (BitVec.ofNat 32 ((pdx a).val + 1) <<< 22 - pgsize + pgsize) := by
  rw [deallocLoop, if_pos hlt, hwalk]

theorem deallocLoop_hole (hlt : a < oldsz) (hwalk : walkpgdir m d a false = some (some pte, m))
    (hpte : ¬ present (m.load pte)) :
    deallocLoop K d oldsz (n + 1) m a = deallocLoop K d oldsz n m (a + pgsize) := by
  rw [deallocLoop, if_pos hlt, hwalk]
  exact if_neg hpte

theorem deallocLoop_page (hlt : a < oldsz) (hwalk : walkpgdir m d a false = some (some pte, m))
    (hpte : present (m.load pte)) (hzero : pteAddr (m.load pte) ≠ 0)
    (hfree : (frame M (pteAddr (m.load pte))).bind (kfree K m) = some m') :
    deallocLoop K d oldsz (n + 1) m a = deallocLoop K d oldsz n (m'.store pte 0) (a + pgsize) := by
  rw [deallocLoop, if_pos hlt, hwalk]
  show (if present (m.load pte) then _ else _) = _
  rw [if_pos hpte, if_neg hzero, hfree]

end Turn

theorem Owned.deallocLoop {oldsz : Word} (hold : oldsz.toNat ≤ 2147483648) : ∀ (n : Nat)
    {m : Kmem M} {role : Ppn M → Role M} {a : Word}, Owned K m role → Live role d →
    a.toNat % 4096 = 0 → (oldsz.toNat + 4095) / 4096 ≤ vpn a + n →
    ∃ m' role', Xv6.deallocLoop K d oldsz n m a = some m' ∧
      Unmaps K d (vpn a) oldsz.toNat m role m' role' := by
  intro n
  induction n with
  | zero =>
    intro m role a h _ halign hn
    have hv : vpn a = a.toNat / 4096 := rfl
    have hle : oldsz.toNat ≤ a.toNat := by omega
    refine ⟨m, role, ?_, .refl h (by omega)⟩
    exact if_neg (not_lt.mpr (le_def.mpr hle))
  | succ n ih =>
    intro m role a h hd halign hn
    have hv : vpn a = a.toNat / 4096 := rfl
    by_cases hlt : a < oldsz
    · have hlt' : a.toNat < oldsz.toNat := hlt
      have hnext : (a + pgsize).toNat = a.toNat + 4096 := toNat_add_pgsize (by omega)
      have hvnext : vpn (a + pgsize) = vpn a + 1 := vpn_add_pgsize (by omega)
      by_cases hpres : present (m.mem d (pdx a))
      · obtain ⟨t, ht⟩ := h.exists_table hd hpres
        have hwalk := h.walkpgdir_found ht false
        by_cases hpte : present (m.mem t (ptx a))
        · obtain ⟨u, hu, hrole⟩ := h.exists_user ht (by omega) hpte
          have hstep := h.unmaps_page (by omega) ht hrole
          have hfree : (frame M (pteAddr (m.mem t (ptx a)))).bind (Xv6.kfree K m)
              = some (freed m u) := by
            rw [show frame M (pteAddr (m.mem t (ptx a))) = some u from
              (entryOf_eq_some.mp hu).2, bind_some, (h.unmapPage ht hrole).1]
          obtain ⟨m', role', hloop, hrest⟩ := ih hstep.owned (hstep.within.live hd)
            (a := a + pgsize) (by omega) (by omega)
          refine ⟨m', role', ?_, hstep.trans hrest ?_⟩
          · rw [deallocLoop_page hlt hwalk hpte
              (h.pteAddr_ne_zero hu (by simp [hrole])) hfree, hloop]
          · intro va' _ _
            omega
        · obtain ⟨m', role', hloop, hrest⟩ := ih h hd (a := a + pgsize) (by omega) (by omega)
          refine ⟨m', role', ?_, hrest.lower (by omega) ?_⟩
          · rw [deallocLoop_hole hlt hwalk hpte, hloop]
          intro va' _ hlo hhi
          have hsame : vpn va' = vpn a := by omega
          obtain ⟨hpd, hpt⟩ := vpn_eq_iff.mp hsame
          have ht' : role t = .pgtab d (pdx va') := by rw [hpd, ht]
          rw [h.pageAt_of_pgtab ht', hpt, entryOf_of_not_present hpte]
          rfl
      · -- no page table: the loop goes on at the next one
        have hskip := toNat_next_table (a := a) (by omega)
        have hpdx := val_pdx a
        have hturn := deallocLoop_skip (K := K) (n := n) hlt (walkpgdir_absent hpres)
        generalize BitVec.ofNat 32 ((pdx a).val + 1) <<< 22 - pgsize + pgsize = b at hskip hturn
        have hvb : vpn b = b.toNat / 4096 := rfl
        obtain ⟨m', role', hloop, hrest⟩ := ih h hd (a := b) (by omega) (by omega)
        refine ⟨m', role', by rw [hturn, hloop], hrest.lower (by omega) ?_⟩
        intro va' _ hlo hhi
        have hvv : vpn va' = va'.toNat / 4096 := rfl
        have hsame : pdx va' = pdx a := by
          apply Fin.ext
          rw [val_pdx, hpdx]
          omega
        exact pageAt_of_not_present (by rw [hsame]; exact hpres)
    · have hle : oldsz.toNat ≤ a.toNat := le_def.mp (not_lt.mp hlt)
      refine ⟨m, role, ?_, .refl h (by omega)⟩
      rw [Xv6.deallocLoop, if_neg hlt]

/-- **`deallocuvm`** gives back the pages from `newsz`, rounded up, to `oldsz`. -/
theorem Owned.deallocuvm {oldsz : Word} (newsz : Word) (h : Owned K m role) (hd : Live role d)
    (hold : oldsz.toNat ≤ 2147483648) :
    ∃ m' role', Xv6.deallocuvm K m d oldsz newsz
        = some (if oldsz ≤ newsz then oldsz else newsz, m') ∧
      Unmaps K d ((newsz.toNat + 4095) / 4096) oldsz.toNat m role m' role' := by
  unfold Xv6.deallocuvm
  by_cases hle : oldsz ≤ newsz
  · have hle' : oldsz.toNat ≤ newsz.toNat := le_def.mp hle
    rw [if_pos hle, if_pos hle]
    exact ⟨m, role, rfl, .refl h (by omega)⟩
  have hlt : newsz.toNat < oldsz.toNat := BitVec.lt_def.mp (BitVec.not_le.mp hle)
  have hup : (pgroundup newsz).toNat = (newsz.toNat + 4095) / 4096 * 4096 :=
    toNat_pgroundup (by omega)
  have hv : vpn (pgroundup newsz) = (newsz.toNat + 4095) / 4096 := by
    show (pgroundup newsz).toNat / 4096 = _
    omega
  obtain ⟨m', role', hloop, hun⟩ := h.deallocLoop hold
    ((oldsz.toNat + 4095) / 4096 - newsz.toNat / 4096) hd (a := pgroundup newsz) (by omega)
    (by omega)
  rw [hv] at hun
  refine ⟨m', role', ?_, hun⟩
  rw [if_neg hle, if_neg hle]
  exact congrArg (Option.map fun m => (newsz, m)) hloop

/-! ### `allocuvm` -/

/-- A page of an address space, or that there is none. -/
abbrev Page := Option (Word × (Fin nptentries → Word))

/-- The pages of the directory become what `g` says, and nothing else changes that is not
free or its own. -/
structure Alters (K : Linker M) (d : Ppn M) (g : Word → Page → Page) (m : Kmem M)
    (role : Ppn M → Role M) (m' : Kmem M) (role' : Ppn M → Role M) : Prop where
  owned : Owned K m' role'
  within : Within d m role m' role'
  page : ∀ va', va'.toNat < 2147483648 → pageAt m' d va' = g va' (pageAt m d va')
  held : ∀ p, role p = .held → role' p = .held ∧ m'.mem p = m.mem p
  roles : ∀ p, role' p = role p ∨ (role p = .free ∧ (role' p).Of d) ∨
    role' p = .free ∧ (role p).Gone m' d
  kern : SameKern d m m'

theorem Alters.trans {g g' g'' : Word → Page → Page} {m'' : Kmem M} {role'' : Ppn M → Role M}
    (h : Alters K d g m role m' role')
    (hgains : ∀ p, role' p = role p ∨ role p = .free ∧ (role' p).Of d)
    (h' : Alters K d g' m' role' m'' role'') (hg : ∀ va' x, g' va' (g va' x) = g'' va' x) :
    Alters K d g'' m role m'' role'' where
  owned := h'.owned
  within := h.within.trans h'.within
  roles := by
    intro p
    rcases hgains p with heq | ⟨hfree, hof⟩
    · rw [← heq]
      exact h'.roles p
    rcases h'.roles p with heq | ⟨hfree', -⟩ | ⟨hfree', -⟩
    · rw [heq]
      exact .inr (.inl ⟨hfree, hof⟩)
    · exact absurd hfree' hof.ne_free
    · exact .inl (hfree'.trans hfree.symm)
  page := by
    intro va' hva'
    rw [h'.page va' hva', h.page va' hva', hg]
  held := by
    intro p hp
    obtain ⟨hp', hmem⟩ := h.held p hp
    obtain ⟨hp'', hmem'⟩ := h'.held p hp'
    exact ⟨hp'', hmem'.trans hmem⟩
  kern := h.kern.trans h'.kern

/-- A new page: all zeros, and the user may write it. -/
def zeroPage : Page := some (pteW ||| pteU ||| pteP, fun _ => 0)

/-- `va` gets a new page. -/
def putZero (va va' : Word) (x : Page) : Page := if vpn va' = vpn va then zeroPage else x

/-- The pages from number `lo` on that begin below `hi` are removed. -/
def cut (lo hi : Nat) (va' : Word) (x : Page) : Page :=
  if lo ≤ vpn va' ∧ vpn va' * 4096 < hi then none else x

/-- The pages from number `lo` on that begin below `hi` are new. -/
def putZeros (lo hi : Nat) (va' : Word) (x : Page) : Page :=
  if lo ≤ vpn va' ∧ vpn va' * 4096 < hi then zeroPage else x

theorem Unmaps.alters {lo hi : Nat} (h : Unmaps K d lo hi m role m' role') :
    Alters K d (cut lo hi) m role m' role' :=
  ⟨h.owned, h.within, h.page, h.held, fun p => (h.roles p).imp_right .inr, h.kern⟩

/-- **A new page where there was none**: the page fault and one turn of `allocuvm`. -/
theorem Owned.mapZero (h : Owned K m role) (hd : Live role d) (hva : va.toNat < 2147483648)
    (halign : va.toNat % 4096 = 0) (hnone : pageAt m d va = none) (hfree : m.freelist = some u) :
    ((taken m u fun _ => 0).freelist = none ∧ ¬ present (m.mem d (pdx va)) ∧
      Xv6.mappages (taken m u fun _ => 0) d va pgsize (page2pa u) (pteW ||| pteU)
        = some (false, taken m u fun _ => 0)) ∨
    ∃ m' role', Xv6.mappages (taken m u fun _ => 0) d va pgsize (page2pa u) (pteW ||| pteU)
        = some (true, m') ∧ Grows K d m role m' role' ∧
          Alters K d (putZero va) m role m' role' := by
  rcases h.growPage hd hva halign hnone hfree Jos.flagsOnly_regionPerm fun _ => 0 with
    hfail | ⟨m', role', hok, hgrows, hpage, -, hkern⟩
  · exact .inl hfail
  · refine .inr ⟨m', role', hok, hgrows, hgrows.owned, hgrows.within, hpage, fun p hp => ?_,
      fun p => (hgrows.roles p).imp_right .inl, hkern⟩
    obtain ⟨o, ho⟩ := hd
    rw [hgrows.role_eq (by simp [hp])]
    exact ⟨hp, hgrows.kept p (by simp [hp]) (by simp [Role.Of, hp]) (ne_of_role hp ho (by simp))⟩

/-- A page that was taken and could not be used goes back to the allocator. -/
theorem Owned.giveBack {g : Word → Page → Page} {m1 : Kmem M} {role1 : Ppn M → Role M}
    (h : Owned K m role) (hd : Live role d) (hfree : m.freelist = some u)
    (f : Fin nptentries → Word)
    (hal : Alters K d g (taken m u f) (update role u .held) m1 role1) :
    Xv6.kfree K m1 u = some (freed m1 u) ∧
      Alters K d g m role (freed m1 u) (update role1 u .free) := by
  obtain ⟨hrole, howned⟩ := h.take hfree f
  have hself : update role u Role.held u = .held := update_self _ _ _
  obtain ⟨hheld, -⟩ := hal.held u hself
  obtain ⟨hok, howned'⟩ := hal.owned.kfree (p := u) (by rw [hheld]; trivial) (by rw [hheld]; simp)
  have hlive : Live role1 d := ((within_taken hrole).trans hal.within).live hd
  obtain ⟨o, ho⟩ := hlive
  have hview : ∀ va', va'.toNat < 2147483648 → pageAt (freed m1 u) d va' = pageAt m1 d va' := by
    intro va' hva'
    refine hal.owned.pageAt_congr ⟨o, ho⟩ hva' ?_ ?_ ?_
    · rw [mem_freed_of_ne (ne_of_role ho hheld (by simp))]
    · intro t ht
      rw [mem_freed_of_ne (ne_of_role ht hheld (by simp))]
    · intro u' hu'
      exact mem_freed_of_ne (ne_of_role hu' hheld (by simp))
  refine ⟨hok, howned', ?_, ?_, ?_, ?_, ?_⟩
  · have hback : Within d m1 role1 (freed m1 u) (update role1 u .free) :=
      Within.update (.inr (.inl hheld)) (.inl rfl) fun _ hq _ _ => mem_freed_of_ne hq
    exact ((within_taken hrole).trans hal.within).trans hback
  · intro va' hva'
    rw [hview va' hva', hal.page va' hva', h.pageAt_taken hd hrole hva']
  · intro p hp
    have hpu : p ≠ u := ne_of_role hp hrole (by simp)
    obtain ⟨hp', hmem⟩ := hal.held p (by rw [update_of_ne hpu, hp])
    rw [update_of_ne hpu, mem_freed_of_ne hpu]
    exact ⟨hp', hmem.trans (mem_taken_of_ne hpu)⟩
  · intro p
    by_cases hpu : p = u
    · rw [hpu, update_self, hrole]
      exact .inl rfl
    · have hp := hal.roles p
      rw [update_of_ne hpu] at hp ⊢
      exact hp.imp_right (Or.imp_right fun ⟨hfree, va, hva, hu, hnone⟩ =>
        ⟨hfree, va, hva, hu, (hview va hva).trans hnone⟩)
  · refine ((h.sameKern_taken hd hrole f).trans hal.kern).trans ?_
    exact hal.owned.sameKern_of_ne ⟨o, ho⟩ (ne_of_role ho hheld (by simp))
      (fun t i _ ht => ne_of_role ht hheld (by simp)) fun q hq => mem_freed_of_ne hq

section Turn

variable {oldsz newsz a : Word} {n : Nat}

theorem allocLoop_stop (h : ¬ a < newsz) : allocLoop K d oldsz newsz n m a = some (newsz, m) := by
  cases n with
  | zero => rw [allocLoop, if_neg h]
  | succ n => rw [allocLoop, if_neg h]

theorem allocLoop_full (hlt : a < newsz) (hfree : m.freelist = none) :
    allocLoop K d oldsz newsz (n + 1) m a
      = (deallocuvm K m d newsz oldsz).map fun r => (0, r.2) := by
  rw [allocLoop, if_pos hlt, kalloc, hfree]

theorem allocLoop_take (hlt : a < newsz) (hfree : m.freelist = some u) :
    allocLoop K d oldsz newsz (n + 1) m a
      = match mappages (Owned.taken m u fun _ => 0) d a pgsize (page2pa u) (pteW ||| pteU) with
        | none => none
        | some (false, m) => (deallocuvm K m d newsz oldsz).bind fun r =>
          (kfree K r.2 u).bind fun m => some (0, m)
        | some (true, m) => allocLoop K d oldsz newsz n m (a + pgsize) := by
  rw [allocLoop, if_pos hlt, kalloc, hfree]
  rfl

end Turn

/-- The loop of `allocuvm`: all pages it is asked for, or none of them. -/
theorem Owned.allocLoop (oldsz : Word) {newsz : Word} (hnew : newsz.toNat < 2147483648) :
    ∀ (n : Nat)
    {m : Kmem M} {role : Ppn M → Role M} {a : Word}, Owned K m role → Live role d →
    a.toNat % 4096 = 0 → (oldsz.toNat + 4095) / 4096 ≤ vpn a →
    (newsz.toNat + 4095) / 4096 ≤ vpn a + n →
    (∀ va' : Word, va'.toNat < 2147483648 → vpn a ≤ vpn va' → vpn va' * 4096 < newsz.toNat →
      pageAt m d va' = none) →
    ∃ r m' role', Xv6.allocLoop K d oldsz newsz n m a = some (r, m') ∧
      (r = newsz ∧ Alters K d (putZeros (vpn a) newsz.toNat) m role m' role' ∨
        r = 0 ∧ Alters K d (cut ((oldsz.toNat + 4095) / 4096) newsz.toNat) m role m' role') := by
  have hstop : ∀ {n : Nat} {m : Kmem M} {role : Ppn M → Role M} {a : Word}, Owned K m role →
      a.toNat % 4096 = 0 → ¬ a < newsz →
      ∃ r m' role', Xv6.allocLoop K d oldsz newsz n m a = some (r, m') ∧
        (r = newsz ∧ Alters K d (putZeros (vpn a) newsz.toNat) m role m' role' ∨
          r = 0 ∧ Alters K d (cut ((oldsz.toNat + 4095) / 4096) newsz.toNat) m role m' role') := by
    intro n m role a h halign hge
    have hle : newsz.toNat ≤ a.toNat := le_def.mp (not_lt.mp hge)
    refine ⟨newsz, m, role, allocLoop_stop hge, .inl ⟨rfl, h, .refl d m role, ?_, ?_,
      fun _ => .inl rfl, fun _ _ => rfl⟩⟩
    · intro va' _
      have hv : vpn a = a.toNat / 4096 := rfl
      rw [putZeros, if_neg (by omega)]
    · exact fun _ hp => ⟨hp, rfl⟩
  intro n
  induction n with
  | zero =>
    intro m role a h hd halign hlo hn hnone
    have hv : vpn a = a.toNat / 4096 := rfl
    refine hstop h halign (not_lt.mpr (le_def.mpr ?_))
    omega
  | succ n ih =>
    intro m role a h hd halign hlo hn hnone
    by_cases hlt : a < newsz
    · have hlt' : a.toNat < newsz.toNat := hlt
      have hv : vpn a = a.toNat / 4096 := rfl
      have hnext : (a + pgsize).toNat = a.toNat + 4096 := toNat_add_pgsize (by omega)
      have hvnext : vpn (a + pgsize) = vpn a + 1 := vpn_add_pgsize (by omega)
      cases hfree : m.freelist with
      | none =>
        obtain ⟨m', role', hdealloc, hun⟩ := h.deallocuvm oldsz hd (Nat.le_of_lt hnew)
        refine ⟨0, m', role', ?_, .inr ⟨rfl, hun.alters⟩⟩
        rw [allocLoop_full hlt hfree, hdealloc, map_some]
      | some u =>
        rw [allocLoop_take hlt hfree]
        rcases h.mapZero hd (by omega) halign (hnone a (by omega) (Nat.le_refl _) (by omega))
          hfree with ⟨-, -, hfail⟩ | ⟨m1, role1, hok, hgrows, hstep⟩
        · -- no page table: what has been mapped so far goes, and the page with it
          obtain ⟨hrole, howned⟩ := h.take hfree fun _ => 0
          have hlive := (within_taken (m := m) (f := fun _ => 0) hrole).live hd
          obtain ⟨m2, role2, hdealloc, hun⟩ := howned.deallocuvm oldsz hlive (Nat.le_of_lt hnew)
          obtain ⟨hkfree, hback⟩ := h.giveBack hd hfree _ hun.alters
          refine ⟨0, freed m2 u, _, ?_, .inr ⟨rfl, hback⟩⟩
          rw [hfail]
          show (Xv6.deallocuvm K (taken m u fun _ => 0) d newsz oldsz).bind _ = _
          rw [hdealloc, bind_some, hkfree, bind_some]
        · obtain ⟨r, m', role', hloop, hres⟩ := ih hstep.owned (hstep.within.live hd)
            (a := a + pgsize) (by omega) (by omega) (by omega) (by
              intro va' hva' hle hhi
              rw [hstep.page va' hva', putZero, if_neg (by omega)]
              exact hnone va' hva' (by omega) hhi)
          refine ⟨r, m', role', by rw [hok]; exact hloop, ?_⟩
          rcases hres with ⟨hr, hal⟩ | ⟨hr, hal⟩
          · refine .inl ⟨hr, hstep.trans hgrows.roles hal fun va' x => ?_⟩
            unfold putZeros putZero
            by_cases hsame : vpn va' = vpn a
            · rw [if_pos hsame, if_neg (by omega), if_pos (by omega)]
            · rw [if_neg hsame]
              refine if_congr ?_ rfl rfl
              omega
          · refine .inr ⟨hr, hstep.trans hgrows.roles hal fun va' x => ?_⟩
            unfold cut putZero
            by_cases hsame : vpn va' = vpn a
            · rw [if_pos (by omega), if_pos (by omega)]
            · rw [if_neg hsame]
    · exact hstop h halign hlt

/-- **`allocuvm`** gives the process all the pages up to `newsz`, or none. -/
theorem Owned.allocuvm (oldsz newsz : Word) (h : Owned K m role) (hd : Live role d)
    (hle : oldsz.toNat ≤ newsz.toNat) (hnew : newsz.toNat < 2147483648)
    (hnone : ∀ va' : Word, va'.toNat < 2147483648 → (oldsz.toNat + 4095) / 4096 ≤ vpn va' →
      vpn va' * 4096 < newsz.toNat → pageAt m d va' = none) :
    ∃ r m' role', Xv6.allocuvm K m d oldsz newsz = some (r, m') ∧
      (r = newsz ∧
          Alters K d (putZeros ((oldsz.toNat + 4095) / 4096) newsz.toNat) m role m' role' ∨
        r = 0 ∧ Alters K d (cut ((oldsz.toNat + 4095) / 4096) newsz.toNat) m role m' role') := by
  have hup : (pgroundup oldsz).toNat = (oldsz.toNat + 4095) / 4096 * 4096 :=
    toNat_pgroundup (by omega)
  have hv : vpn (pgroundup oldsz) = (oldsz.toNat + 4095) / 4096 := by
    show (pgroundup oldsz).toNat / 4096 = _
    omega
  have hbase : ¬ kernbase ≤ newsz := by
    intro hc
    have hc' := le_def.mp hc
    rw [toNat_kernbase] at hc'
    omega
  have hlt : ¬ newsz < oldsz := not_lt.mpr (le_def.mpr hle)
  obtain ⟨r, m', role', hloop, hres⟩ := h.allocLoop oldsz hnew
    ((newsz.toNat + 4095) / 4096 - oldsz.toNat / 4096) hd (a := pgroundup oldsz) (by omega)
    (by omega) (by omega) (by rw [hv]; exact hnone)
  rw [hv] at hres
  refine ⟨r, m', role', ?_, hres⟩
  unfold Xv6.allocuvm
  rw [if_neg hbase, if_neg hlt]
  exact hloop

end Xv6
