/-
What the processor makes of an address space, and what a page fault adds to it.

Directory entries carry every flag, so whether an access passes is decided by the entry
of the page alone: `translate` is a function of `pageAt`.
-/
import Os.Proofs.Xv6.Vm

namespace Xv6

open Jos (entryOf entryOf_eq_some entryOf_pde)

variable {M : Machine} {K : Linker M} {m m' : Kmem M} {role role' : Ppn M → Role M}
variable {d t u p : Ppn M} {va va' w flags : Word} {wr : Bool} {c : Fin nptentries → Word}

/-- The byte an address selects in its page. -/
def pageOff (va : Word) : Fin 4096 := Fin.ofNat 4096 (pgoff va).toNat

/-- The flags of a page let a user's access pass. -/
def UserMay (wr : Bool) (flags : Word) : Prop :=
  flags &&& pteU ≠ 0 ∧ (wr = true → flags &&& pteW ≠ 0)

instance : Decidable (UserMay wr flags) := inferInstanceAs (Decidable (_ ∧ _))

theorem pteFlags_and {f : Word} (hf : (0xFFF : Word) &&& f = f) : pteFlags w &&& f = w &&& f := by
  unfold pteFlags
  rw [BitVec.and_assoc, hf]

theorem pde_and (t : Ppn M) {f : Word} (hf : (7 : Word) &&& f = f) :
    (page2pa t ||| pteP ||| pteW ||| pteU) &&& f = f := by
  have hall : (page2pa t ||| pteP ||| pteW ||| pteU) &&& 7 = 7 := by
    rw [BitVec.or_assoc, BitVec.or_assoc, BitVec.and_or_distrib_right,
      Jos.page2pa_and_flags t (by decide)]
    decide
  rw [← hf, ← BitVec.and_assoc, hall]

theorem allows_pde (t : Ppn M) (user wr : Bool) :
    Allows user wr (page2pa t ||| pteP ||| pteW ||| pteU) := by
  refine ⟨(entryOf_eq_some.mp (entryOf_pde t)).1, fun _ => ?_, fun _ => ?_⟩
  · rw [pde_and t (by decide)]
    decide
  · rw [pde_and t (by decide)]
    decide

theorem allows_iff (h : present w) : Allows true wr w ↔ UserMay wr (pteFlags w) := by
  unfold UserMay
  rw [pteFlags_and (by decide), pteFlags_and (by decide)]
  exact ⟨fun hw => ⟨hw.2.1 rfl, hw.2.2⟩, fun hw => ⟨h, fun _ => hw.1, hw.2⟩⟩

namespace Owned

/-- With the page table in place, the entry of the page decides. -/
theorem translate_of_pgtab (h : Owned K m role) (ht : role t = .pgtab d (pdx va)) :
    translate m d va true wr = if Allows true wr (m.mem t (ptx va)) then
      (frame M (pteAddr (m.mem t (ptx va)))).map fun p => (p, pageOff va) else none := by
  have hd := h.live_of_pgtab ht
  obtain ⟨t', ht'⟩ := h.tables.pde d (pdx va) hd (h.present_of_pgtab ht)
  have hentry := (h.entry_dir hd (pdx va)).mpr ht
  have hframe := (entryOf_eq_some.mp hentry).2
  have hallow : Allows true wr (m.mem d (pdx va)) := by
    rw [ht']
    exact allows_pde t' true wr
  simp only [translate, Kmem.load, if_pos hallow, hframe]
  rfl

theorem translate_none (wr : Bool) (h : Owned K m role) (hd : Live role d)
    (hnone : pageAt m d va = none) (hva : va.toNat < 2147483648) :
    translate m d va true wr = none := by
  by_cases hpres : present (m.mem d (pdx va))
  · obtain ⟨t, ht⟩ := h.exists_table hd hpres
    rw [h.translate_of_pgtab ht]
    refine if_neg fun hallow => ?_
    obtain ⟨u, hu, -⟩ := h.exists_user ht hva hallow.1
    rw [h.pageAt_of_pgtab ht, hu] at hnone
    simp at hnone
  · unfold translate
    exact if_neg fun hallow => hpres hallow.1

theorem translate_page (wr : Bool) (h : Owned K m role) (hd : Live role d)
    (hva : va.toNat < 2147483648) (hpage : pageAt m d va = some (flags, c)) :
    ∃ u, role u = .user d (pdx va) (ptx va) ∧ m.mem u = c ∧
      translate m d va true wr = if UserMay wr flags then some (u, pageOff va) else none := by
  have hpres : present (m.mem d (pdx va)) := by
    refine Decidable.byContradiction fun hpres => ?_
    rw [pageAt_of_not_present hpres] at hpage
    simp at hpage
  obtain ⟨t, ht⟩ := h.exists_table hd hpres
  rw [h.pageAt_of_pgtab ht] at hpage
  obtain ⟨u, hu, heq⟩ := Option.map_eq_some_iff.mp hpage
  obtain ⟨hpte, hframe⟩ := entryOf_eq_some.mp hu
  simp only [Prod.mk.injEq] at heq
  obtain ⟨hflags, hmem⟩ := heq
  refine ⟨u, (h.tables.user u d _ _).mpr ⟨pdx_lt_iff.mpr hva, t, ht, hu⟩, hmem, ?_⟩
  rw [h.translate_of_pgtab ht, show frame M (pteAddr (m.mem t (ptx va))) = some u from hframe,
    ← hflags]
  exact if_congr (allows_iff hpte) rfl rfl

theorem congr_user {i : Fin npdentries} {j : Fin nptentries} (h : Owned K m role)
    (hu : role u = .user d i j) (hlist : m'.freelist = m.freelist)
    (hmem : ∀ q, q ≠ u → m'.mem q = m.mem q) : Owned K m' role := by
  refine h.congr hlist fun q hq => hmem q ?_
  rcases hq with hq | ⟨o', hq⟩ | ⟨d', i, hq⟩ <;> exact ne_of_role hq hu (by simp)

/-- **A write to a user page** shows at its address and nowhere else. -/
theorem writeUser (h : Owned K m role) (hu : role u = .user d (pdx va) (ptx va))
    (f : Fin nptentries → Word) :
    Owned K (m.fill u f) role ∧ ∀ va', va'.toNat < 2147483648 →
      pageAt (m.fill u f) d va' = if vpn va' = vpn va then
        (pageAt m d va').map fun x => (x.1, f) else pageAt m d va' := by
  obtain ⟨hi, t, ht, hentry⟩ := (h.tables.user u d _ _).mp hu
  have hd := h.live_of_pgtab ht
  obtain ⟨o, ho⟩ := hd
  have hdu : d ≠ u := ne_of_role ho hu (by simp)
  refine ⟨h.congr_user hu rfl fun q hq => mem_fill_of_ne hq, fun va' hva' => ?_⟩
  by_cases hvpn : vpn va' = vpn va
  · obtain ⟨hpd, hpt⟩ := vpn_eq_iff.mp hvpn
    have hdir : entryOf M (m.mem d (pdx va)) = some t := (h.entry_dir ⟨o, ho⟩ _).mpr ht
    have htu : t ≠ u := ne_of_role ht hu (by simp)
    rw [if_pos hvpn, pageAt, pageAt, mem_fill_of_ne hdu, hpd, hpt, hdir]
    simp only [Option.bind_some, mem_fill_of_ne htu, hentry, Option.map_some, mem_fill_self]
  · rw [if_neg hvpn]
    refine h.pageAt_congr ⟨o, ho⟩ hva' (by rw [mem_fill_of_ne hdu]) ?_ ?_
    · intro t' ht'
      rw [mem_fill_of_ne (ne_of_role ht' hu (by simp))]
    · intro u' hu'
      refine mem_fill_of_ne (ne_of_role hu' hu fun hc => hvpn ?_)
      simp only [Role.user.injEq, true_and] at hc
      exact vpn_eq_iff.mpr hc

/-- **The page fault** at an address where nothing is mapped. -/
theorem trapPgflt (h : Owned K m role) (hd : Live role d) (hva : va.toNat < 2147483648)
    (hnone : pageAt m d va = none) :
    (∃ m', Xv6.trapPgflt m d va = some (false, m')) ∨
    ∃ m' role', Xv6.trapPgflt m d va = some (true, m') ∧
      Alters K d (putZero va) m role m' role' := by
  have hdown := toNat_pgrounddown va
  have hv : vpn (pgrounddown va) = vpn va := by
    show (pgrounddown va).toNat / 4096 = va.toNat / 4096
    omega
  have hzero : putZero (pgrounddown va) = putZero va := by
    funext va' x
    rw [putZero, putZero, hv]
  have hnone' : pageAt m d (pgrounddown va) = none := by
    obtain ⟨hpd, hpt⟩ := vpn_eq_iff.mp hv
    rw [← hnone, pageAt, pageAt, hpd, hpt]
  unfold Xv6.trapPgflt kalloc
  cases hfree : m.freelist with
  | none => exact .inl ⟨m, rfl⟩
  | some u =>
    rcases h.mapZero hd (by omega) (by omega) hnone' hfree with
      ⟨-, -, hfail⟩ | ⟨m', role', hok, -, hal⟩
    · exact .inl ⟨_, hfail⟩
    · rw [hzero] at hal
      exact .inr ⟨m', role', hok, hal⟩

end Owned

end Xv6
