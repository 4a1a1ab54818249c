/-
`copyuvm`: a copy of an address space, or nothing at all.

The loop copies the pages below the size one after the other into a directory that `setupkvm` has
made.  It ends in one of three ways: with the copy, without memory and with everything given back,
or with a panic, and that only where a page is missing or the size is beyond `KERNBASE`.
-/
import Os.Proofs.Xv6.AlarmWrites
import Os.Proofs.Xv6.Kvm

namespace Xv6

open Jos (entryOf_eq_some entryOf_of_not_present FlagsOnly)

variable {M : Machine} {K : Linker M} {m m' : Kmem M} {role role' : Ppn M → Role M}
variable {d src t u p : Ppn M} {va sz a perm : Word} {n : Nat} {c : Fin nptentries → Word}

/-! ### One page -/

theorem Owned.kernAt_taken (h : Owned K m role) (hd : Live role d) (hu : role u = .free)
    (hkern : KernAt m d va) : KernAt (taken m u c) d va := by
  obtain ⟨t, ht, hpte⟩ := hkern
  obtain ⟨o, ho⟩ := hd
  have htab := (h.entry_dir ⟨o, ho⟩ _).mp ht
  refine ⟨t, ?_, ?_⟩
  · rw [mem_taken_of_ne (ne_of_role ho hu (by simp))]
    exact ht
  · rw [mem_taken_of_ne (ne_of_role htab hu (by simp))]
    exact hpte

theorem mappages_remap {pa : Word} (halign : va.toNat % 4096 = 0) (hkern : KernAt m d va) :
    mappages m d va pgsize pa perm = none := by
  obtain ⟨t, ht, hpte⟩ := hkern
  obtain ⟨hpres, hframe⟩ := entryOf_eq_some.mp ht
  rw [mappages_page halign]
  unfold mappagesLoop walkpgdir Kmem.load
  rw [if_pos hpres, hframe]
  exact if_pos hpte

/-! ### One turn of the loop -/

theorem copyLoop_stop (h : ¬ a < sz) : copyLoop K src d sz n m a = some (some d, m) := by
  cases n with
  | zero => rw [copyLoop, if_neg h]
  | succ n => rw [copyLoop, if_neg h]

theorem copyLoop_absent (hlt : a < sz) (hwalk : walkpgdir m src a false = some (none, m)) :
    copyLoop K src d sz (n + 1) m a = none := by
  rw [copyLoop, if_pos hlt, hwalk]

theorem copyLoop_hole {pte : PtePtr M} (hlt : a < sz)
    (hwalk : walkpgdir m src a false = some (some pte, m)) (hpte : ¬ present (m.load pte)) :
    copyLoop K src d sz (n + 1) m a = none := by
  rw [copyLoop, if_pos hlt, hwalk]
  exact if_pos hpte

theorem copyLoop_page {pte : PtePtr M} (hlt : a < sz)
    (hwalk : walkpgdir m src a false = some (some pte, m)) (hpte : present (m.load pte))
    (hframe : frame M (pteAddr (m.load pte)) = some p) :
    copyLoop K src d sz (n + 1) m a = match m.freelist with
      | none => (freevm K m d).map fun m => (none, m)
      | some u => match mappages (Owned.taken m u (m.mem p)) d a pgsize (page2pa u)
          (pteFlags (m.load pte)) with
        | none => none
        | some (false, m) => (kfree K m u).bind fun m => (freevm K m d).bind fun m => some (none, m)
        | some (true, m) => copyLoop K src d sz n m (a + pgsize) := by
  rw [copyLoop, if_pos hlt, hwalk]
  dsimp only
  rw [if_neg (not_not_intro hpte), hframe]
  unfold kalloc
  cases m.freelist with
  | none => rfl
  | some u => rfl

theorem Owned.copyLoop_missing (h : Owned K m role) (hsrc : Live role src)
    (hnone : pageAt m src a = none) (ha : a.toNat < 2147483648) (hlt : a < sz) :
    Xv6.copyLoop K src d sz (n + 1) m a = none := by
  by_cases hpres : present (m.mem src (pdx a))
  · obtain ⟨t, ht⟩ := h.exists_table hsrc hpres
    refine copyLoop_hole hlt (h.walkpgdir_found ht false) fun hpte => ?_
    obtain ⟨u, hu, -⟩ := h.exists_user ht ha hpte
    rw [h.pageAt_of_pgtab ht, hu] at hnone
    cases hnone
  · exact copyLoop_absent hlt (walkpgdir_absent hpres)

theorem copyLoop_outside {pte : PtePtr M} (hlt : a < sz)
    (hwalk : walkpgdir m src a false = some (some pte, m)) (hpte : present (m.load pte))
    (hframe : frame M (pteAddr (m.load pte)) = none) :
    copyLoop K src d sz (n + 1) m a = none := by
  rw [copyLoop, if_pos hlt, hwalk]
  dsimp only
  rw [if_neg (not_not_intro hpte), hframe]

theorem Owned.source_page (h : Owned K m role) (hsrc : Live role src) (ha : a.toNat < 2147483648)
    (hthere : pageAt m src a ≠ none) : ∃ t, role t = .pgtab src (pdx a) ∧
      present (m.mem t (ptx a)) ∧ ∃ p, frame M (pteAddr (m.mem t (ptx a))) = some p ∧
      pageAt m src a = some (pteFlags (m.mem t (ptx a)), m.mem p) := by
  have hpres : present (m.mem src (pdx a)) :=
    Decidable.byContradiction fun hpres => hthere (pageAt_of_not_present hpres)
  obtain ⟨t, ht⟩ := h.exists_table hsrc hpres
  have hpte : present (m.mem t (ptx a)) := by
    refine Decidable.byContradiction fun hpte => hthere ?_
    rw [h.pageAt_of_pgtab ht, entryOf_of_not_present hpte]
    rfl
  obtain ⟨p, hp, -⟩ := h.exists_user ht ha hpte
  refine ⟨t, ht, hpte, p, (entryOf_eq_some.mp hp).2, ?_⟩
  rw [h.pageAt_of_pgtab ht, hp]
  rfl

theorem pteFlags_or_pteP {w : Word} (h : present w) : pteFlags w ||| pteP = pteFlags w := by
  have hbit : w &&& pteP = pteP := by
    have hne : (w &&& pteP).toNat ≠ 0 := fun hc => h (BitVec.eq_of_toNat_eq hc)
    have hmod : (w &&& pteP).toNat = w.toNat % 2 := by
      exact Nat.and_one_is_mod _
    apply BitVec.eq_of_toNat_eq
    show (w &&& pteP).toNat = 1
    omega
  unfold pteFlags
  rw [← hbit, ← BitVec.and_or_distrib_left]
  congr 1

theorem flagsOnly_pteFlags (w : Word) : FlagsOnly (pteFlags w) := by
  have hle : (w &&& 0xFFF).toNat ≤ (0xFFF : Word).toNat := by
    exact Nat.and_le_right
  exact Nat.lt_of_le_of_lt hle (by decide)

/-! ### The loop -/

/-- How the loop ends that has come to `a`. -/
inductive CopyEnds (K : Linker M) (src d : Ppn M) (sz a : Word) (m : Kmem M)
    (role : Ppn M → Role M) : Option (Option (Ppn M) × Kmem M) → Prop
  /-- The pages below the size have been there and have been copied. -/
  | copied {m' : Kmem M} {role' : Ppn M → Role M} (grows : Grows K d m role m' role')
      (size : sz.toNat ≤ 2147483648)
      (all : ∀ va, va.toNat < 2147483648 → vpn a ≤ vpn va → vpn va * 4096 < sz.toNat →
        pageAt m src va ≠ none)
      (page : ∀ va, va.toNat < 2147483648 → pageAt m' d va =
        if vpn a ≤ vpn va ∧ vpn va * 4096 < sz.toNat then pageAt m src va else pageAt m d va) :
      CopyEnds K src d sz a m role (some (some d, m'))
  /-- There was no memory, and the directory has been given up. -/
  | failed {m' : Kmem M} (owned : Owned K m' (released d role))
      (kept : ∀ p, role p ≠ .free → p ≠ d → ¬ (role p).Of d → m'.mem p = m.mem p) :
      CopyEnds K src d sz a m role (some (none, m'))
  /-- A page is missing, or the size is beyond `KERNBASE`. -/
  | panics (h : 2147483648 < sz.toNat ∨ ∃ va, va.toNat < 2147483648 ∧ vpn a ≤ vpn va ∧
        vpn va * 4096 < sz.toNat ∧ pageAt m src va = none) :
      CopyEnds K src d sz a m role none

theorem CopyEnds.full (h : Owned K m role) (hd : Live role d) :
    CopyEnds K src d sz a m role ((freevm K m d).map fun m => (none, m)) := by
  obtain ⟨m', hfree, howned, hkept⟩ := h.freevm hd
  rw [hfree]
  exact .failed howned hkept

/-- So it is, with the page that was to be mapped, if there is none for the page table. -/
theorem CopyEnds.noTable (h : Owned K m role) (hd : Live role d) (hfree : m.freelist = some u)
    (c : Fin nptentries → Word) : CopyEnds K src d sz a m role
      ((kfree K (Owned.taken m u c) u).bind fun m => (freevm K m d).bind fun m =>
        some (none, m)) := by
  obtain ⟨hrole, htake⟩ := h.take hfree c
  have hself : Function.update role u Role.held u = .held := Function.update_self _ _ _
  obtain ⟨hkfree, hback⟩ := htake.kfree (p := u) (by rw [hself]; trivial) (by rw [hself]; simp)
  rw [Function.update_idem, ← hrole, Function.update_eq_self] at hback
  obtain ⟨m', hrun, howned, hkept⟩ := hback.freevm hd
  rw [hkfree, Option.bind_some, hrun]
  refine .failed howned fun p hp hpd hof => ?_
  have hpu : p ≠ u := by
    rintro rfl
    exact hp hrole
  rw [hkept p hp hpd hof, Owned.mem_freed_of_ne hpu, Owned.mem_taken_of_ne hpu]

theorem CopyEnds.step {r : Option (Option (Ppn M) × Kmem M)} {a' : Word} (hva : vpn a' = vpn a + 1)
    (hgrows : Grows K d m role m' role') (hthere : pageAt m src a ≠ none)
    (hsrc : ∀ va, va.toNat < 2147483648 → pageAt m' src va = pageAt m src va)
    (hlt : vpn a * 4096 < sz.toNat)
    (hpage : ∀ va, va.toNat < 2147483648 → pageAt m' d va =
      if vpn va = vpn a then pageAt m src va else pageAt m d va)
    (h : CopyEnds K src d sz a' m' role' r) : CopyEnds K src d sz a m role r := by
  cases h with
  | copied grows size all page =>
    refine .copied (hgrows.trans grows) size (fun va hva' hlo hhi => ?_) fun va hva' => ?_
    · by_cases heq : vpn va = vpn a
      · rw [pageAt_vpn m src heq]
        exact hthere
      · rw [← hsrc va hva']
        exact all va hva' (by omega) hhi
    · rw [page va hva', hsrc va hva', hpage va hva']
      by_cases heq : vpn va = vpn a
      · have hin : vpn a ≤ vpn va ∧ vpn va * 4096 < sz.toNat := ⟨heq.ge, by rw [heq]; exact hlt⟩
        have hout : ¬ (vpn a' ≤ vpn va ∧ vpn va * 4096 < sz.toNat) := by omega
        rw [if_neg hout, if_pos heq, if_pos hin]
      · rw [if_neg heq]
        refine if_congr ?_ rfl rfl
        omega
  | failed owned kept =>
    rw [hgrows.released_eq] at owned
    refine .failed owned fun p hp hpd hof => ?_
    have heq := hgrows.role_eq hp
    rw [kept p (by rw [heq]; exact hp) hpd (by rw [heq]; exact hof), hgrows.kept p hp hof hpd]
  | panics h =>
    refine .panics (h.imp_right ?_)
    rintro ⟨va, hva', hlo, hhi, hnone⟩
    exact ⟨va, hva', by omega, hhi, (hsrc va hva').symm.trans hnone⟩

/-- At `KERNBASE` the loop does not go on: the directory has the kernel's mapping there. -/
theorem CopyEnds.kern (h : Owned K m role) (hsrc : Live role src) (hd : Live role d)
    (ha : a = kernbase) (hkern : KernAt m d kernbase) (hlt : a < sz) (n : Nat) :
    CopyEnds K src d sz a m role (copyLoop K src d sz (n + 1) m a) := by
  have hbeyond : 2147483648 < sz.toNat := by
    have hlt' : a.toNat < sz.toNat := hlt
    rw [ha, toNat_kernbase] at hlt'
    exact hlt'
  have hpanic : CopyEnds K src d sz a m role none := .panics (.inl hbeyond)
  by_cases hpres : present (m.mem src (pdx a))
  · obtain ⟨t, ht⟩ := h.exists_table hsrc hpres
    have hwalk := h.walkpgdir_found ht false
    by_cases hpte : present (m.load (t, ptx a))
    · cases hframe : frame M (pteAddr (m.load (t, ptx a))) with
      | none =>
        rw [copyLoop_outside hlt hwalk hpte hframe]
        exact hpanic
      | some p =>
        rw [copyLoop_page hlt hwalk hpte hframe]
        cases hlist : m.freelist with
        | none => exact .full h hd
        | some u =>
          dsimp only
          rw [mappages_remap (by rw [ha]; decide)
            (by rw [ha]; exact h.kernAt_taken hd (h.take hlist fun _ => 0).1 hkern)]
          exact hpanic
    · rw [copyLoop_hole hlt hwalk hpte]
      exact hpanic
  · rw [copyLoop_absent hlt (walkpgdir_absent hpres)]
    exact hpanic

/-- **The loop of `copyuvm`.** -/
theorem Owned.copyLoop (sz : Word) : ∀ (n : Nat) {m : Kmem M} {role : Ppn M → Role M} (a : Word),
    Owned K m role → Live role src → Live role d → src ≠ d → a.toNat % 4096 = 0 →
    a.toNat ≤ 2147483648 → (sz.toNat + 4095) / 4096 ≤ vpn a + n → KernAt m d kernbase →
    (∀ va, va.toNat < 2147483648 → vpn a ≤ vpn va → pageAt m d va = none) →
    CopyEnds K src d sz a m role (Xv6.copyLoop K src d sz n m a) := by
  intro n
  induction n with
  | zero =>
    intro m role a h _ _ _ halign ha hn _ _
    have hv : vpn a = a.toNat / 4096 := rfl
    have hle : ¬ a < sz := fun hlt => by
      have hlt' : a.toNat < sz.toNat := hlt
      omega
    rw [copyLoop_stop hle]
    refine .copied (.refl h) (by omega) (fun va _ _ _ => by omega) fun va _ => ?_
    rw [if_neg (by omega)]
  | succ n ih =>
    intro m role a h hsrc hd hne halign ha hn hkern hnone
    have hv : vpn a = a.toNat / 4096 := rfl
    by_cases hlt : a < sz
    · have hlt' : a.toNat < sz.toNat := hlt
      by_cases hbase : a.toNat = 2147483648
      · exact .kern h hsrc hd (BitVec.eq_of_toNat_eq hbase) hkern hlt n
      have hauser : a.toNat < 2147483648 := by omega
      cases hpage : pageAt m src a with
      | none =>
        rw [h.copyLoop_missing hsrc hpage hauser hlt]
        exact .panics (.inr ⟨a, hauser, le_rfl, by omega, hpage⟩)
      | some x =>
        have hthere : pageAt m src a ≠ none := by simp [hpage]
        obtain ⟨t, ht, hpte, p, hframe, hcopy⟩ := h.source_page hsrc hauser hthere
        have hwalk := h.walkpgdir_found ht false
        have hpte' : present (m.load (t, ptx a)) := hpte
        have hframe' : frame M (pteAddr (m.load (t, ptx a))) = some p := hframe
        rw [copyLoop_page hlt hwalk hpte' hframe']
        cases hlist : m.freelist with
        | none => exact .full h hd
        | some u =>
          dsimp only
          rcases h.growPage hd hauser halign (hnone a hauser le_rfl) hlist
              (flagsOnly_pteFlags (m.load (t, ptx a))) (m.mem p) with
            ⟨-, -, hfail⟩ | ⟨m', role', hok, hgrows, hview, hkern', -⟩
          · rw [hfail]
            exact .noTable h hd hlist _
          · rw [hok]
            have hnext : (a + pgsize).toNat = a.toNat + 4096 := toNat_add_pgsize (by omega)
            have hvnext : vpn (a + pgsize) = vpn a + 1 := vpn_add_pgsize (by omega)
            have hother : ∀ va, va.toNat < 2147483648 → pageAt m' src va = pageAt m src va :=
              fun va hva => hgrows.within.pageAt_other h hsrc hne hd hva
            have hpage' : ∀ va, va.toNat < 2147483648 → pageAt m' d va =
                if vpn va = vpn a then pageAt m src va else pageAt m d va := by
              intro va hva
              rw [hview va hva]
              by_cases heq : vpn va = vpn a
              · rw [if_pos heq, if_pos heq, pageAt_vpn m src heq, hcopy,
                  pteFlags_or_pteP hpte']
                rfl
              · rw [if_neg heq, if_neg heq]
            have hbase' : vpn kernbase ≠ vpn a := by
              show kernbase.toNat / 4096 ≠ a.toNat / 4096
              rw [toNat_kernbase]
              omega
            refine CopyEnds.step hvnext hgrows hthere hother (by omega) hpage'
              (ih (a + pgsize) hgrows.owned (hgrows.live hsrc) (hgrows.live hd) hne (by omega)
                (by omega) (by omega) ?_ fun va hva hge => ?_)
            · exact (hkern' kernbase hbase').mpr
                (h.kernAt_taken hd (h.take hlist fun _ => 0).1 hkern)
            · rw [hpage' va hva, if_neg (by omega)]
              exact hnone va hva (by omega)
    · rw [copyLoop_stop hlt]
      have hle : sz.toNat ≤ a.toNat := BitVec.le_def.mp (BitVec.not_lt.mp hlt)
      refine .copied (Grows.refl h) (by omega) (fun va _ _ _ => by omega) fun va _ => ?_
      rw [if_neg (by omega)]

/-! ### `copyuvm` -/

/-- Every page below the size is there. -/
def Whole (m : Kmem M) (d : Ppn M) (sz : Word) : Prop :=
  sz.toNat ≤ 2147483648 ∧
    ∀ va : Word, va.toNat < 2147483648 → vpn va * 4096 < sz.toNat → pageAt m d va ≠ none

/-- **Without its first page** an address space is not copied, however much memory there is. -/
theorem Owned.copyuvm_panics (h : Owned K m role) (hsrc : Live role src)
    (hmany : ¬ Scarce role 1025)
    (hnone : pageAt m src 0 = none) (hsz : 0 < sz) : Xv6.copyuvm K m src sz = none := by
  unfold Xv6.copyuvm
  rcases h.setupkvm with ⟨m', -, -, -, hscarce⟩ | ⟨d, m', role', hset, hbuilds, -⟩
  · exact absurd hscarce hmany
  rw [hset]
  have hpos : 0 < sz.toNat := hsz
  obtain ⟨n, hn⟩ : ∃ n, (sz.toNat + 4095) / 4096 = n + 1 := ⟨(sz.toNat + 4095) / 4096 - 1, by omega⟩
  rw [hn]
  refine hbuilds.owned.copyLoop_missing (hbuilds.live_other hsrc).1 ?_ (by decide) hsz
  rw [hbuilds.pageAt_other h hsrc (by decide), hnone]

/-- How `copyuvm` ends. -/
inductive Copies (K : Linker M) (src : Ppn M) (sz : Word) (m : Kmem M) (role : Ppn M → Role M) :
    Option (Option (Ppn M) × Kmem M) → Prop
  | copied {d : Ppn M} {m' : Kmem M} {role' : Ppn M → Role M} (builds : Builds K d m role m' role')
      (whole : Whole m src sz)
      (page : ∀ va, va.toNat < 2147483648 → pageAt m' d va =
        if vpn va * 4096 < sz.toNat then pageAt m src va else none) :
      Copies K src sz m role (some (some d, m'))
  | failed {m' : Kmem M} (owned : Owned K m' role)
      (kept : ∀ p, role p ≠ .free → m'.mem p = m.mem p) : Copies K src sz m role (some (none, m'))
  | panics (missing : ¬ Whole m src sz) : Copies K src sz m role none

/-- **`copyuvm`** makes a copy, or fails and leaves everything as it was; it panics only if a page
is missing. -/
theorem Owned.copyuvm (h : Owned K m role) (hsrc : Live role src) (sz : Word) :
    Copies K src sz m role (Xv6.copyuvm K m src sz) := by
  unfold Xv6.copyuvm
  rcases h.setupkvm with ⟨m', hset, howned, hkept, -⟩ | ⟨d, m', role', hset, hbuilds, hnone, hkern⟩
  · rw [hset]
    exact .failed howned hkept
  rw [hset]
  dsimp only
  obtain ⟨hsrc', hne⟩ := hbuilds.live_other hsrc
  have hview : ∀ va, va.toNat < 2147483648 → pageAt m' src va = pageAt m src va :=
    fun va hva => hbuilds.pageAt_other h hsrc hva
  have hends := Owned.copyLoop sz ((sz.toNat + 4095) / 4096) 0 hbuilds.owned hsrc' hbuilds.live
    hne rfl (by decide) (Nat.le_add_left _ _) hkern fun va hva _ => hnone va hva
  generalize Xv6.copyLoop K src d sz ((sz.toNat + 4095) / 4096) m' 0 = r at hends
  have hzero : ∀ va : Word, vpn 0 ≤ vpn va := fun _ => Nat.zero_le _
  cases hends with
  | copied grows size all page =>
    refine .copied (hbuilds.grow h grows) ⟨size, fun va hva hlt => ?_⟩ fun va hva => ?_
    · rw [← hview va hva]
      exact all va hva (hzero va) hlt
    · rw [page va hva, hview va hva, hnone va hva]
      exact if_congr (and_iff_right (hzero va)) rfl rfl
  | failed owned kept =>
    rw [hbuilds.released_eq h] at owned
    refine .failed owned fun p hp => ?_
    have heq := hbuilds.role_eq hp
    have hpd : p ≠ d := by
      rintro rfl
      exact hp hbuilds.fresh
    have hof : ¬ (role p).Of d := h.not_of (not_live_of_free hbuilds.fresh)
    rw [kept p (by rw [heq]; exact hp) hpd (by rw [heq]; exact hof), hbuilds.kept p hp]
  | panics hmissing =>
    refine .panics fun hwhole => ?_
    rcases hmissing with hsize | ⟨va, hva, -, hlt, hgone⟩
    · exact absurd hwhole.1 (by omega)
    · exact hwhole.2 va hva hlt ((hview va hva).symm.trans hgone)

end Xv6
