/-
Changing the size of an address space.

`allocuvm` gives all the pages it is asked for or none, and `deallocuvm` gives back exactly the
pages that are there; a page table made on the way stays.  So the one undoes the other.
-/
import Os.Proofs.Xv6.Copy

namespace Xv6

variable {M : Machine} {K : Linker M} {m m' : Kmem M} {role role' : Ppn M → Role M}
variable {d p u : Ppn M} {va : Word} {lo hi : Nat} {g : Word → Page → Page}

/-- The user pages are those below the size, rounded up. -/
def UserBelow (m : Kmem M) (d : Ppn M) (sz : Word) : Prop :=
  ∀ va, va.toNat < 2147483648 → (pageAt m d va ≠ none ↔ va.toNat < (pgroundup sz).toNat)

/-- The address space is larger: the old pages are what they were and the new ones are zero. -/
structure Grown (d : Ppn M) (oldsz newsz : Word) (m : Kmem M) (role : Ppn M → Role M)
    (m' : Kmem M) (role' : Ppn M → Role M) : Prop where
  page : ∀ va, va.toNat < 2147483648 → pageAt m' d va =
    if (pgroundup oldsz).toNat ≤ va.toNat ∧ va.toNat < (pgroundup newsz).toNat then zeroPage
    else pageAt m d va
  below : UserBelow m' d newsz
  roles : ∀ p, role p ≠ .free → role' p = role p
  kern : SameKern d m m'

/-- The address space is as before, and so are the free pages, except for those that have become
page tables. -/
structure Restored (d : Ppn M) (m : Kmem M) (role : Ppn M → Role M) (m' : Kmem M)
    (role' : Ppn M → Role M) : Prop where
  page : ∀ va, va.toNat < 2147483648 → pageAt m' d va = pageAt m d va
  roles : ∀ p, role' p = role p ∨ role p = .free ∧ ∃ i, role' p = .pgtab d i
  kern : SameKern d m m'

/-- Pages are freed that begin below `oldsz` and not below `newsz`, rounded up. -/
structure Shrunk (d : Ppn M) (oldsz newsz : Word) (m : Kmem M) (role : Ppn M → Role M)
    (m' : Kmem M) (role' : Ppn M → Role M) : Prop where
  page : ∀ va, va.toNat < 2147483648 → pageAt m' d va =
    if (pgroundup newsz).toNat ≤ va.toNat ∧ vpn va * 4096 < oldsz.toNat then none
    else pageAt m d va
  free : ∀ p, role' p = .free ↔ role p = .free ∨ ∃ va, va.toNat < 2147483648 ∧
    ((pgroundup newsz).toNat ≤ va.toNat ∧ vpn va * 4096 < oldsz.toNat) ∧
      role p = .user d (pdx va) (ptx va)
  roles : ∀ p, role' p ≠ .free → role' p = role p
  kern : SameKern d m m'

/-! ### Frames -/

theorem Owned.user_unique {i : Fin npdentries} {j : Fin nptentries} (h : Owned K m role)
    (hu : role u = .user d i j) (hp : role p = .user d i j) : u = p := by
  obtain ⟨-, t, ht, hentry⟩ := (h.tables.user u d i j).mp hu
  obtain ⟨-, t', ht', hentry'⟩ := (h.tables.user p d i j).mp hp
  obtain rfl := h.tables.pgtab_unique ht ht'
  exact Option.some.inj (hentry.symm.trans hentry')

theorem Owned.mapped_iff (h : Owned K m role) (hd : Live role d) (hva : va.toNat < 2147483648) :
    pageAt m d va ≠ none ↔ ∃ u, role u = .user d (pdx va) (ptx va) := by
  constructor
  · intro hne
    obtain ⟨t, ht, hpte, -⟩ := h.source_page hd hva hne
    obtain ⟨u, -, hu⟩ := h.exists_user ht hva hpte
    exact ⟨u, hu⟩
  · rintro ⟨u, hu⟩
    obtain ⟨-, t, ht, hentry⟩ := (h.tables.user u d _ _).mp hu
    rw [h.pageAt_of_pgtab ht, hentry]
    exact nofun

theorem Owned.not_gone (h : Owned K m role) (hd : Live role d)
    (hstay : ∀ va, va.toNat < 2147483648 → pageAt m d va ≠ none → pageAt m' d va ≠ none) :
    ¬ (role p).Gone m' d := by
  rintro ⟨va, hva, hu, hnone⟩
  exact hstay va hva ((h.mapped_iff hd hva).mpr ⟨p, hu⟩) hnone

theorem putZeros_ne_none (va : Word) (x : Page) (hx : x ≠ none) : putZeros lo hi va x ≠ none := by
  rw [putZeros]
  split
  · simp [zeroPage]
  · exact hx

namespace Alters

/-- Where no page is taken away, pages are only gained. -/
theorem gains (h : Owned K m role) (hd : Live role d) (hal : Alters K d g m role m' role')
    (hg : ∀ va x, x ≠ none → g va x ≠ none) (p : Ppn M) :
    role' p = role p ∨ role p = .free ∧ (role' p).Of d :=
  (hal.roles p).imp_right fun hp => hp.resolve_right fun hc =>
    h.not_gone hd (fun va hva hne => by rw [hal.page va hva]; exact hg va _ hne) hc.2

theorem restored (h : Owned K m role) (hd : Live role d)
    (hal : Alters K d (cut lo hi) m role m' role') (hnone : ∀ va : Word, va.toNat < 2147483648 →
      lo ≤ vpn va → vpn va * 4096 < hi → pageAt m d va = none) : Restored d m role m' role' := by
  have hpage : ∀ va, va.toNat < 2147483648 → pageAt m' d va = pageAt m d va := by
    intro va hva
    rw [hal.page va hva, cut]
    split
    next hin => rw [hnone va hva hin.1 hin.2]
    next => rfl
  have hstay : ∀ q, ¬ (role q).Gone m' d := fun q =>
    h.not_gone hd fun va hva hne => by rw [hpage va hva]; exact hne
  refine ⟨hpage, fun p => ?_, hal.kern⟩
  rcases hal.roles p with heq | ⟨hfree, hi | ⟨i, j, hu⟩⟩ | hgone
  · exact .inl heq
  · exact .inr ⟨hfree, hi⟩
  · -- what is mapped there now was mapped there before, and is not free
    obtain ⟨va, hva, rfl, rfl⟩ := exists_va ((hal.owned.tables.user p d i j).mp hu).1 j
    have hmapped := (hal.owned.mapped_iff (hal.within.live hd) hva).mpr ⟨p, hu⟩
    rw [hpage va hva, h.mapped_iff hd hva] at hmapped
    obtain ⟨q, hq⟩ := hmapped
    rcases hal.roles q with heq | ⟨hqfree, -⟩ | hgone
    · obtain rfl := hal.owned.user_unique hu (heq.trans hq)
      rw [hq] at hfree
      cases hfree
    · rw [hq] at hqfree
      cases hqfree
    · exact absurd hgone.2 (hstay q)
  · exact absurd hgone.2 (hstay p)

end Alters

theorem Unmaps.free_iff (h : Owned K m role) (hd : Live role d)
    (hun : Unmaps K d lo hi m role m' role') (p : Ppn M) :
    role' p = .free ↔ role p = .free ∨ ∃ va, va.toNat < 2147483648 ∧
      (lo ≤ vpn va ∧ vpn va * 4096 < hi) ∧ role p = .user d (pdx va) (ptx va) := by
  constructor
  · intro hfree
    rcases hun.roles p with heq | ⟨-, va, hva, hu, hnone⟩
    · exact .inl (heq.symm.trans hfree)
    refine .inr ⟨va, hva, ?_, hu⟩
    by_contra hout
    rw [hun.page va hva, if_neg hout] at hnone
    exact (h.mapped_iff hd hva).mpr ⟨p, hu⟩ hnone
  · rintro (hfree | ⟨va, hva, hin, hu⟩)
    · rcases hun.roles p with heq | ⟨hfree', -⟩
      · exact heq.trans hfree
      · exact hfree'
    · rcases hun.roles p with heq | ⟨hfree, -⟩
      · have hmapped := (hun.owned.mapped_iff (hun.within.live hd) hva).mpr ⟨p, heq.trans hu⟩
        rw [hun.page va hva, if_pos hin] at hmapped
        exact absurd rfl hmapped
      · exact hfree

/-! ### Sizes -/

/-- A page is within the pages of a size if it begins below that size. -/
theorem below_pgroundup_iff {sz : Word} (hsz : sz.toNat ≤ 2147483648) :
    va.toNat < (pgroundup sz).toNat ↔ vpn va * 4096 < sz.toNat := by
  have hup : (pgroundup sz).toNat = (sz.toNat + 4095) / 4096 * 4096 := toNat_pgroundup (by omega)
  have hv : vpn va = va.toNat / 4096 := rfl
  omega

theorem pgroundup_le_iff {sz : Word} (hsz : sz.toNat ≤ 2147483648) :
    (pgroundup sz).toNat ≤ va.toNat ↔ (sz.toNat + 4095) / 4096 ≤ vpn va := by
  have hup : (pgroundup sz).toNat = (sz.toNat + 4095) / 4096 * 4096 := toNat_pgroundup (by omega)
  have hv : vpn va = va.toNat / 4096 := rfl
  omega

theorem Alters.grown {oldsz newsz : Word} (h : Owned K m role) (hd : Live role d)
    (hbelow : UserBelow m d oldsz) (hle : oldsz.toNat ≤ newsz.toNat)
    (hlt : newsz.toNat < 2147483648)
    (hal : Alters K d (putZeros ((oldsz.toNat + 4095) / 4096) newsz.toNat) m role m' role') :
    Grown d oldsz newsz m role m' role' := by
  have hpage : ∀ va, va.toNat < 2147483648 → pageAt m' d va =
      if (pgroundup oldsz).toNat ≤ va.toNat ∧ va.toNat < (pgroundup newsz).toNat then zeroPage
      else pageAt m d va := by
    simpa only [putZeros, pgroundup_le_iff (hle.trans hlt.le), below_pgroundup_iff hlt.le]
      using hal.page
  have hold : (pgroundup oldsz).toNat ≤ (pgroundup newsz).toNat := by
    rw [toNat_pgroundup (by omega), toNat_pgroundup (by omega)]
    omega
  refine ⟨hpage, fun va hva => ?_, fun p hp => ?_, hal.kern⟩
  · rw [hpage va hva]
    split
    next hin => exact iff_of_true (by simp [zeroPage]) hin.2
    next hout =>
      rw [hbelow va hva]
      omega
  · exact (hal.gains h hd putZeros_ne_none p).resolve_right fun hc => hp hc.1

/-- **`allocuvm`** maps all the new pages or restores what was there; **`deallocuvm`** frees the
pages in its range, no others, and so undoes `allocuvm`. -/
theorem resize (h : Owned K m role) (hd : Live role d) :
    (∀ oldsz newsz, UserBelow m d oldsz → oldsz ≤ newsz → newsz < kernbase →
      ∃ r m' role', allocuvm K m d oldsz newsz = some (r, m') ∧ Owned K m' role' ∧
        Within d m role m' role' ∧
        (r = newsz ∧ Grown d oldsz newsz m role m' role' ∧
            (∃ m'' role'', deallocuvm K m' d newsz oldsz = some (oldsz, m'') ∧
              Owned K m'' role'' ∧ Restored d m role m'' role'') ∨
          r = 0 ∧ Restored d m role m' role')) ∧
    ∀ oldsz newsz, newsz < oldsz → oldsz ≤ kernbase →
      ∃ m' role', deallocuvm K m d oldsz newsz = some (newsz, m') ∧ Owned K m' role' ∧
        Within d m role m' role' ∧ Shrunk d oldsz newsz m role m' role' := by
  refine ⟨fun oldsz newsz hbelow hle hlt => ?_, fun oldsz newsz hlt hle => ?_⟩
  · have hle' := BitVec.le_def.mp hle
    have hlt' := BitVec.lt_def.mp hlt
    rw [toNat_kernbase] at hlt'
    have hnone : ∀ va : Word, va.toNat < 2147483648 → (oldsz.toNat + 4095) / 4096 ≤ vpn va →
        vpn va * 4096 < newsz.toNat → pageAt m d va = none := by
      intro va hva hlo _
      by_contra hne
      exact Nat.not_lt.mpr ((pgroundup_le_iff (by omega)).mpr hlo) ((hbelow va hva).mp hne)
    obtain ⟨r, m', role', halloc, ⟨rfl, hal⟩ | ⟨rfl, hal⟩⟩ :=
      h.allocuvm oldsz newsz hd hle' hlt' hnone
    · obtain ⟨m'', role'', hdealloc, hun⟩ :=
        hal.owned.deallocuvm oldsz (hal.within.live hd) hlt'.le
      refine ⟨r, m', role', halloc, hal.owned, hal.within, .inl ⟨rfl,
        hal.grown h hd hbelow hle' hlt', m'', role'', ?_, hun.owned, ?_⟩⟩
      · rw [hdealloc]
        split
        next hge => rw [BitVec.le_antisymm hge hle]
        next => rfl
      · refine (hal.trans (hal.gains h hd putZeros_ne_none) hun.alters fun va x => ?_).restored h hd
          hnone
        rw [cut, cut, putZeros]
        split <;> rfl
    · exact ⟨0, m', role', halloc, hal.owned, hal.within, .inr ⟨rfl, hal.restored h hd hnone⟩⟩
  · have hle' := BitVec.le_def.mp hle
    have hlt' := BitVec.lt_def.mp hlt
    obtain ⟨m', role', hdealloc, hun⟩ := h.deallocuvm newsz hd hle'
    rw [if_neg (BitVec.not_le.mpr hlt)] at hdealloc
    refine ⟨m', role', hdealloc, hun.owned, hun.within, ?_, ?_, fun p hp => ?_, hun.kern⟩
    · simpa only [pgroundup_le_iff (hlt'.le.trans hle')] using hun.page
    · simpa only [pgroundup_le_iff (hlt'.le.trans hle')] using hun.free_iff h hd
    · exact (hun.roles p).resolve_right fun hc => hp hc.1

/-- An empty address space gets a page, and gives it back. -/
theorem resize_empty : (∃ role, Owned tinyLinker tinyMemory role ∧ Live role 258) ∧
    UserBelow tinyMemory 258 0 ∧
    ∃ m', allocuvm tinyLinker tinyMemory 258 0 4096 = some (4096, m') ∧ UserBelow m' 258 4096 ∧
      ∃ m'', deallocuvm tinyLinker m' 258 4096 0 = some (0, m'') ∧
        ∀ va, va.toNat < 2147483648 → pageAt m'' 258 va = pageAt tinyMemory 258 va := by
  obtain ⟨⟨role, h, hd⟩, -⟩ := tinyMemory_owned
  have hbelow : UserBelow tinyMemory 258 0 := fun va hva =>
    iff_of_false (fun hne => hne (tinyMemory_empty hva)) (Nat.not_lt_zero _)
  -- there is memory for the page and for its table
  have hroom : (allocuvm tinyLinker tinyMemory 258 0 4096).map (·.1) = some 4096 := by
    decide +kernel
  obtain ⟨r, m', role', halloc, -, -, hends⟩ :=
    (resize h hd).1 0 4096 hbelow (by decide) (by decide)
  rw [halloc] at hroom
  obtain ⟨rfl, hgrown, m'', role'', hback, -, hsame⟩ := hends.resolve_right fun hr => by
    rw [hr.1] at hroom
    cases hroom
  exact ⟨⟨role, h, hd⟩, hbelow, m', halloc, hgrown.below, m'', hback, hsame.page⟩

end Xv6
