/-
A page fault in user mode.

The handler takes a page and maps it where the fault was, without looking at the address or at
what is mapped there.  There are three outcomes: no memory, a page that is there already, for
which `mappages` panics, and a new page, wherever the address is.  Everything said here about the
handler is read off these three.
-/
import Os.Xv6.UserTraps
import Os.Proofs.Xv6.Pointers

namespace Xv6

open Jos (entryOf entryOf_eq_some entryOf_of_not_present entryOf_pde)
open Function

variable {M : Machine} {K : Linker M} {m m' : Kmem M} {role : Ppn M → Role M}
variable {d t u : Ppn M} {va va' : Word}

/-! ### Entries of a page table -/

/-- The entry for an address, 0 if there is no page table. -/
def pteOf (m : Kmem M) (d : Ppn M) (va : Word) : Word :=
  match entryOf M (m.mem d (pdx va)) with
  | none => 0
  | some t => m.mem t (ptx va)

theorem pteOf_of_not_present (hpres : ¬ present (m.mem d (pdx va))) : pteOf m d va = 0 := by
  rw [pteOf, entryOf_of_not_present hpres]

theorem pteOf_of_entry (h : entryOf M (m.mem d (pdx va)) = some t) :
    pteOf m d va = m.mem t (ptx va) := by
  rw [pteOf, h]

/-- An entry stays what it is if the directory and its page tables do. -/
theorem Owned.pteOf_congr (h : Owned K m role) (hd : Live role d)
    (hdir : m'.mem d (pdx va) = m.mem d (pdx va))
    (htab : ∀ t, role t = .pgtab d (pdx va) → m'.mem t (ptx va) = m.mem t (ptx va)) :
    pteOf m' d va = pteOf m d va := by
  unfold pteOf
  rw [hdir]
  cases ht : entryOf M (m.mem d (pdx va)) with
  | none => rfl
  | some t => exact htab t ((h.entry_dir hd _).mp ht)

theorem Owned.pteOf_store (h : Owned K m role) (ht : role t = .pgtab d (pdx va)) (w : Word) :
    pteOf (m.store (t, ptx va) w) d va' = if vpn va' = vpn va then w else pteOf m d va' := by
  have hd := h.live_of_pgtab ht
  have hdt : d ≠ t := (Tables.ne_of_pgtab_of_live ht hd).symm
  by_cases hvpn : vpn va' = vpn va
  · obtain ⟨hpd, hpt⟩ := vpn_eq_iff.mp hvpn
    have hentry : entryOf M ((m.store (t, ptx va) w).mem d (pdx va')) = some t := by
      rw [mem_store_of_ne hdt, hpd]
      exact (h.entry_dir hd _).mpr ht
    rw [if_pos hvpn, pteOf_of_entry hentry, mem_store_self, hpt, update_self]
  · rw [if_neg hvpn]
    refine h.pteOf_congr hd (by rw [mem_store_of_ne hdt]) fun t' ht' => ?_
    by_cases htt : t' = t
    · subst htt
      have hpd : pdx va' = pdx va := by
        rw [ht] at ht'
        simp only [Role.pgtab.injEq, true_and] at ht'
        exact ht'.symm
      have hpt : ptx va' ≠ ptx va := fun hpt => hvpn (vpn_eq_iff.mpr ⟨hpd, hpt⟩)
      rw [mem_store_self, update_of_ne hpt]
    · rw [mem_store_of_ne htt]

theorem Owned.pteOf_taken (h : Owned K m role) (hd : Live role d) (hu : role u = .free)
    (f : Fin nptentries → Word) : pteOf (taken m u f) d va = pteOf m d va := by
  obtain ⟨o, ho⟩ := hd
  refine h.pteOf_congr ⟨o, ho⟩ ?_ fun t ht => ?_
  · rw [mem_taken_of_ne (ne_of_role ho hu (by simp))]
  · rw [mem_taken_of_ne (ne_of_role ht hu (by simp))]

theorem Owned.pteOf_withTable (h : Owned K m role) (hd : Live role d)
    (hpres : ¬ present (m.mem d (pdx va))) (ht : role t = .free) :
    pteOf (withTable m d t (pdx va)) d va' = pteOf m d va' := by
  obtain ⟨o, ho⟩ := hd
  have htd : t ≠ d := ne_of_role ht ho (by simp)
  have hdir : (withTable m d t (pdx va)).mem d =
      update (m.mem d) (pdx va) (page2pa t ||| pteP ||| pteW ||| pteU) := by
    unfold withTable
    rw [mem_store_self, mem_fill_of_ne htd.symm]
  by_cases hpd : pdx va' = pdx va
  · have hentry : entryOf M ((withTable m d t (pdx va)).mem d (pdx va')) = some t := by
      rw [hdir, hpd, update_self, entryOf_pde]
    rw [pteOf_of_entry hentry, mem_withTable_self htd,
      pteOf_of_not_present (by rw [hpd]; exact hpres)]
  · refine h.pteOf_congr ⟨o, ho⟩ ?_ fun t' ht' => ?_
    · rw [hdir, update_of_ne hpd]
    · rw [mem_withTable_of_ne (ne_of_role ht' ht (by simp)) (ne_of_role ht' ho (by simp))]

/-! ### The handler -/

/-- There is no page to map, or none for the page table it needs. -/
def NoMemory (m : Kmem M) (d : Ppn M) (va : Word) : Prop :=
  ∀ u, m.freelist = some u → ¬ present (m.mem d (pdx va)) ∧ runNext m u = none

/-- The entry of a page that the handler has mapped. -/
def newPte (u : Ppn M) : Word := page2pa u ||| (pteW ||| pteU) ||| pteP

theorem present_newPte (u : Ppn M) : present (newPte u) :=
  (entryOf_eq_some.mp (Jos.entryOf_pte u (by decide))).1

/-- What the handler does to the directory `d`. -/
inductive Handled (m : Kmem M) (d : Ppn M) (va : Word) : Option (Bool × Kmem M) → Prop
  | full {m' : Kmem M} (hmem : NoMemory m d va) (hsame : ∀ va', pteOf m' d va' = pteOf m d va') :
      Handled m d va (some (false, m'))
  | remap (hmem : ¬ NoMemory m d va) (hpres : present (pteOf m d va)) : Handled m d va none
  | mapped {m' : Kmem M} {u : Ppn M} (hmem : ¬ NoMemory m d va) (hpres : ¬ present (pteOf m d va))
      (hzero : m'.mem u = fun _ => 0)
      (hpte : ∀ va', pteOf m' d va' = if vpn va' = vpn va then newPte u else pteOf m d va') :
      Handled m d va (some (true, m'))

theorem vpn_pgrounddown (va : Word) : vpn (pgrounddown va) = vpn va := by
  have hdown := toNat_pgrounddown va
  show (pgrounddown va).toNat / 4096 = va.toNat / 4096
  omega

theorem pgrounddown_aligned (va : Word) : (pgrounddown va).toNat % 4096 = 0 := by
  have hdown := toNat_pgrounddown va
  omega

theorem Owned.map_table (h : Owned K m role) (ht : role t = .pgtab d (pdx va)) (u : Ppn M) :
    Xv6.mappages m d (pgrounddown va) pgsize (page2pa u) (pteW ||| pteU) =
      if present (m.mem t (ptx va)) then none else some (true, m.store (t, ptx va) (newPte u)) := by
  obtain ⟨hpd, hpt⟩ := vpn_eq_iff.mp (vpn_pgrounddown va)
  rw [mappages_page (pgrounddown_aligned va)]
  unfold mappagesLoop
  rw [h.walkpgdir_found (hpd ▸ ht) true, hpt]
  rfl

/-- **The handler of a page fault** at any address. -/
theorem Owned.handled (h : Owned K m role) (hd : Live role d) (va : Word) :
    Handled m d va (Xv6.trapPgflt m d va) := by
  unfold Xv6.trapPgflt kalloc
  cases hfree : m.freelist with
  | none => exact .full (fun u hu => by rw [hfree] at hu; cases hu) fun _ => rfl
  | some u =>
    obtain ⟨hu, howned⟩ := h.take hfree fun _ => 0
    have hd' : Live (update role u .held) d := by
      obtain ⟨o, ho⟩ := hd
      exact ⟨o, by rw [update_of_ne (ne_of_role ho hu (by simp)), ho]⟩
    have hdu : d ≠ u := by
      obtain ⟨o, ho⟩ := hd
      exact ne_of_role ho hu (by simp)
    have hdir : (taken m u fun _ => 0).mem d = m.mem d := mem_taken_of_ne hdu
    show Handled m d va (Xv6.mappages (taken m u fun _ => 0) d (pgrounddown va) pgsize (page2pa u)
      (pteW ||| pteU))
    by_cases hpres : present (m.mem d (pdx va))
    · have hmem : ¬ NoMemory m d va := fun hno => (hno u hfree).1 hpres
      obtain ⟨t, ht⟩ := howned.exists_table (i := pdx va) hd' (by rw [hdir]; exact hpres)
      have hpte : pteOf m d va = (taken m u fun _ => 0).mem t (ptx va) := by
        rw [← h.pteOf_taken hd hu fun _ => 0]
        exact pteOf_of_entry ((howned.entry_dir hd' _).mpr ht)
      have hut : u ≠ t := by
        rintro rfl
        rw [update_self] at ht
        cases ht
      rw [howned.map_table ht u]
      split_ifs with hp
      · exact .remap hmem (hpte ▸ hp)
      · refine .mapped (u := u) hmem (fun hc => hp (hpte ▸ hc)) ?_ fun va' => ?_
        · rw [mem_store_of_ne hut, mem_taken_self]
        · rw [howned.pteOf_store ht, h.pteOf_taken hd hu]
    · obtain ⟨hpd, hpt⟩ := vpn_eq_iff.mp (vpn_pgrounddown va)
      have hpres' : ¬ present ((taken m u fun _ => 0).mem d (pdx (pgrounddown va))) := by
        rw [hdir, hpd]
        exact hpres
      rw [mappages_page (pgrounddown_aligned va)]
      unfold mappagesLoop
      cases hnext : runNext m u with
      | none =>
        rw [walkpgdir_full hpres' hnext]
        refine .full (fun u' hu' => ⟨hpres, ?_⟩) fun va' => h.pteOf_taken hd hu _
        rw [hfree] at hu'
        cases hu'
        exact hnext
      | some t =>
        have hmem : ¬ NoMemory m d va := fun hno => by
          rw [(hno u hfree).2] at hnext
          cases hnext
        obtain ⟨ht, howned'⟩ := howned.addTable hd' hpres' hnext
        have hself : update (update role u .held) t
            (.pgtab d (pdx (pgrounddown va))) t = .pgtab d (pdx (pgrounddown va)) :=
          update_self _ _ _
        have hut : u ≠ t := by
          rintro rfl
          rw [update_self] at ht
          cases ht
        have htd : t ≠ d := by
          obtain ⟨o, ho⟩ := hd'
          exact ne_of_role ht ho (by simp)
        rw [walkpgdir_new hpres' hnext]
        have hempty : ¬ present ((withTable (taken m u fun _ => 0) d t
            (pdx (pgrounddown va))).load (t, ptx (pgrounddown va))) := by
          rw [Kmem.load, mem_withTable_self htd]
          exact Jos.not_present_zero
        dsimp only
        rw [if_neg hempty]
        refine .mapped (u := u) hmem ?_ ?_ fun va' => ?_
        · rw [pteOf_of_not_present hpres]
          exact Jos.not_present_zero
        · rw [mem_store_of_ne hut, mem_withTable_of_ne hut hdu.symm, mem_taken_self]
        · rw [howned'.pteOf_store hself, vpn_pgrounddown, howned.pteOf_withTable hd' hpres' ht,
            h.pteOf_taken hd hu]
          rfl

/-! ### The fault as the process sees it -/

theorem leaveTrap_killed {s : Kernel M} {k : ProcIdx} (h : (s.procs k).killed = true) :
    leaveTrap s k = if k = s.initproc then none else some (.exits, s) := if_pos h

/-- What a page fault of process `k` may come to, if its directory is `d`. -/
structure FaultOk (s : Kernel M) (k : ProcIdx) (d : Ppn M) (va : Word) (e : TrapEnd)
    (s' : Kernel M) : Prop where
  installed : ∀ va', pteOf s'.km d va' ≠ pteOf s.km d va' →
    vpn va' = vpn va ∧ va'.toNat < 2147483648 ∧ pgrounddown va' < (s.procs k).sz
  resumes : e = .resumes → va.toNat < 2147483648 ∧ pgrounddown va < (s.procs k).sz ∧
    ∃ u, pteOf s'.km d va = newPte u ∧ s'.km.mem u = fun _ => 0
  exits : e = .exits → (s'.procs k).killed = true

/-- **Page faults in user mode**, at any address and whatever the access was.  The handler keeps the
kernel safe if and only if there is no memory, or the page is one of the process that is not there
yet; and if the process has to exit it must not be `init`. -/
theorem trapPageFault_ok_iff {s : Kernel M} {k : ProcIdx} (h : Owned K s.km role) (hd : Live role d)
    (hpgdir : (s.procs k).pgdir = some d) (va : Word) :
    (∃ e s', trapPageFault s k va = some (e, s') ∧ FaultOk s k d va e s') ↔
      (NoMemory s.km d va ∧ k ≠ s.initproc) ∨
      (¬ NoMemory s.km d va ∧ ¬ present (pteOf s.km d va) ∧ va.toNat < 2147483648 ∧
        pgrounddown va < (s.procs k).sz ∧ ((s.procs k).killed = true → k ≠ s.initproc)) := by
  have hhandled := h.handled hd va
  unfold trapPageFault
  rw [hpgdir]
  dsimp only
  generalize trapPgflt s.km d va = r at hhandled ⊢
  cases hhandled with
  | @full m' hmem hsame =>
    dsimp only
    have hkilled : (({ s with km := m' } : Kernel M).setProc k
        { s.procs k with killed := true }).procs k = { s.procs k with killed := true } :=
      update_self _ _ _
    rw [leaveTrap_killed (by rw [hkilled])]
    constructor
    · rintro ⟨e, s', hrun, -⟩
      refine .inl ⟨hmem, fun hinit => ?_⟩
      rw [if_pos (by exact hinit)] at hrun
      cases hrun
    · rintro (⟨-, hinit⟩ | ⟨hno, -⟩)
      · refine ⟨.exits, _, if_neg hinit, fun va' hne => absurd (hsame va') hne,
          (fun hc => nomatch hc),
          fun _ => ?_⟩
        rw [hkilled]
      · exact absurd hmem hno
  | remap hmem hpres =>
    refine iff_of_false ?_ ?_
    · rintro ⟨e, s', hrun, -⟩
      cases hrun
    · rintro (⟨hno, -⟩ | ⟨-, habsent, -⟩)
      · exact hmem hno
      · exact habsent hpres
  | @mapped m' u hmem hpres hzero hpte =>
    have hself : pteOf m' d va = newPte u := by
      rw [hpte va, if_pos rfl]
    have hinstalled : va.toNat < 2147483648 → pgrounddown va < (s.procs k).sz → ∀ va',
        pteOf m' d va' ≠ pteOf s.km d va' →
        vpn va' = vpn va ∧ va'.toNat < 2147483648 ∧ pgrounddown va' < (s.procs k).sz := by
      intro hva hsz va' hne
      have hvpn : vpn va' = vpn va := by
        by_contra hvpn
        rw [hpte va', if_neg hvpn] at hne
        exact hne rfl
      have hdiv : va'.toNat / 4096 = va.toNat / 4096 := hvpn
      have hdown : pgrounddown va' = pgrounddown va := by
        apply BitVec.eq_of_toNat_eq
        rw [toNat_pgrounddown, toNat_pgrounddown, hdiv]
      exact ⟨hvpn, by omega, hdown ▸ hsz⟩
    dsimp only
    constructor
    · rintro ⟨e, s', hrun, hok⟩
      have hkm : s'.km = m' := by
        unfold leaveTrap at hrun
        split_ifs at hrun <;> cases hrun <;> rfl
      have hchanged : pteOf s'.km d va ≠ pteOf s.km d va := by
        rw [hkm, hself]
        exact fun hc => hpres (hc ▸ present_newPte u)
      obtain ⟨-, hva, hsz⟩ := hok.installed va hchanged
      refine .inr ⟨hmem, hpres, hva, hsz, fun hkilled hinit => ?_⟩
      rw [leaveTrap_killed (by exact hkilled), if_pos (by exact hinit)] at hrun
      cases hrun
    · rintro (⟨hno, -⟩ | ⟨-, -, hva, hsz, hinit⟩)
      · exact absurd hno hmem
      by_cases hkilled : (s.procs k).killed = true
      · refine ⟨.exits, { s with km := m' }, ?_, hinstalled hva hsz, (fun hc => nomatch hc),
          fun _ => hkilled⟩
        rw [leaveTrap_killed (by exact hkilled), if_neg (by exact hinit hkilled)]
      · exact ⟨.resumes, { s with km := m' }, if_neg hkilled, hinstalled hva hsz,
          fun _ => ⟨hva, hsz, u, hself, hzero⟩, (fun hc => nomatch hc)⟩

/-- The only process of a small machine with an empty address space of two pages. -/
def tinyProcess (sz : Word) : Kernel tinyMachine where
  km := tinyMemory
  kpgdir := 258
  procs := fun _ => { tinyUser.p with sz := sz }
  files := fun _ => ⟨.none, 0, false, false, none⟩
  initproc := 1
  nextpid := 2

theorem tinyMemory_room (va : Word) : ¬ NoMemory tinyMemory 258 va := by
  intro hno
  have hlist : tinyMemory.freelist = some 259 := by decide +kernel
  have hnext : runNext tinyMemory 259 = some 260 := by decide +kernel
  rw [(hno 259 hlist).2] at hnext
  cases hnext

/-- Its first access to a page below its size. -/
theorem trapPageFault_ok_tiny :
    ∃ e s', trapPageFault (tinyProcess 8192) 0 0 = some (e, s') ∧
      FaultOk (tinyProcess 8192) 0 258 0 e s' := by
  obtain ⟨⟨role, howned, hlive⟩, hzero⟩ := tinyMemory_owned
  have hpte : pteOf (tinyProcess 8192).km 258 0 = 0 := by
    refine pteOf_of_not_present fun hpres => ?_
    exact Jos.not_present_zero hpres
  refine (trapPageFault_ok_iff howned hlive rfl 0).mpr
    (.inr ⟨tinyMemory_room 0, ?_, by decide, by decide, ?_⟩)
  · rw [hpte]
    exact Jos.not_present_zero
  · intro hkilled
    cases hkilled

/-- A page fault above the size of the process maps a page there, even in the kernel's half; and a
second fault at a page that is there, such as one for a write to the guard page, is a panic. -/
theorem page_fault_maps_beyond :
    ((trapPageFault (tinyProcess 0) 0 0x90000000).map fun r =>
      decide (r.1 = .resumes ∧ present (pteOf r.2.km 258 0x90000000))) = some true ∧
    ((trapPageFault (tinyProcess 0) 0 0x90000000).bind fun r =>
      trapPageFault r.2 0 0x90000000).isNone = true := by
  constructor <;> decide +kernel

end Xv6
