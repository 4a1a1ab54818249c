/-
Whole address spaces: `setupkvm` makes one and `freevm` gives it up.

While an operation builds an address space, pages only go from the free list to its directory.
`Grows` says that of one step and `Builds` of all of them; giving the directory up then makes
every page what it was before, because what `freevm` frees is what has been gained.
-/
import Os.Proofs.Xv6.Vm

namespace Xv6

open BitVec hiding or_assoc

open List
open Jos (entryOf entryOf_zero entryOf_eq_some entryOf_of_not_present val_pdx val_ptx)
open Function

variable {M : Machine} {K : Linker M} {m m' m'' : Kmem M} {role role' role'' : Ppn M → Role M}
variable {d t u p : Ppn M} {i : Fin npdentries} {j : Fin nptentries} {va va' w : Word}

/-! ### Giving up a directory -/

/-- The roles once a directory and all that belongs to it have been freed. -/
noncomputable def released (d : Ppn M) (role : Ppn M → Role M) (p : Ppn M) : Role M :=
  open Classical in if p = d ∨ (role p).Of d then .free else role p

theorem exists_va (hi : i.val < 512) (j : Fin nptentries) :
    ∃ va : Word, va.toNat < 2147483648 ∧ pdx va = i ∧ ptx va = j := by
  have hj : j.val < 1024 := j.isLt
  have hva : (BitVec.ofNat 32 (i.val * 4194304 + j.val * 4096)).toNat =
      i.val * 4194304 + j.val * 4096 := by
    rw [toNat_ofNat]
    omega
  refine ⟨BitVec.ofNat 32 (i.val * 4194304 + j.val * 4096), by omega, ?_, ?_⟩
  · apply Fin.ext
    rw [val_pdx]
    omega
  · apply Fin.ext
    rw [val_ptx]
    omega

/-- A directory without pages has no page of the role. -/
theorem Owned.ne_user (h : Owned K m role)
    (hnone : ∀ va, va.toNat < 2147483648 → pageAt m d va = none) : role u ≠ .user d i j := by
  intro hu
  obtain ⟨hi, t, ht, hentry⟩ := (h.tables.user u d i j).mp hu
  obtain ⟨va, hva, rfl, rfl⟩ := exists_va hi j
  have hpage := hnone va hva
  rw [h.pageAt_of_pgtab ht, hentry] at hpage
  cases hpage

theorem Owned.retire (h : Owned K m role) (hd : Live role d)
    (hnone : ∀ u i j, role u ≠ .user d i j) : Owned K m (retired d role) := by
  obtain ⟨o, ho⟩ := hd
  refine h.rebuild rfl (fun q => retired_eq_iff (by simp) (by simp) (by simp [ho]))
    (fun _ _ => rfl) (fun q hq => ?_) (h.tables.retire ⟨o, ho⟩ hnone)
  exact (retired_eq_iff (by simp) (by simp) (by simp [ho])).mpr hq

/-- The page tables of a directory. -/
def tablesOf (m : Kmem M) (d : Ppn M) : List (Ppn M) :=
  (finRange npdentries).filterMap fun i => entryOf M (m.mem d i)

theorem Owned.mem_tablesOf (h : Owned K m role) (hd : Live role d) :
    p ∈ tablesOf m d ↔ ∃ i, role p = .pgtab d i := by
  unfold tablesOf
  rw [mem_filterMap]
  exact exists_congr fun i => by
    rw [h.entry_dir hd i]
    exact and_iff_right (mem_finRange i)

theorem Owned.nodup_tablesOf (h : Owned K m role) (hd : Live role d) : (tablesOf m d).Nodup := by
  refine List.Nodup.filterMap (fun i i' t ht ht' => ?_) (nodup_finRange _)
  have hi := (h.entry_dir hd i).mp ht
  have hi' := (h.entry_dir hd i').mp ht'
  rw [hi] at hi'
  exact (Role.pgtab.inj hi').2

/-- The second loop of `freevm` frees the page tables one after the other: they are found in the
directory, which is not written. -/
theorem freeTables_eq (l : List (Fin npdentries)) : ∀ {m' : Kmem M}, m'.mem d = m.mem d →
    (∀ i ∈ l, present (m.mem d i) → ∃ t, entryOf M (m.mem d i) = some t ∧ t ≠ d ∧
      K.endPage ≤ t.val) →
    l.foldlM (freeTable K d) m' = (l.filterMap fun i => entryOf M (m.mem d i)).foldlM (kfree K)
      m' := by
  induction l with
  | nil =>
    intro m' _ _
    rfl
  | cons i l ih =>
    intro m' hmem hall
    have hrest := fun i' hi' => hall i' (mem_cons_of_mem i hi')
    show (if present (m'.mem d i) then
      (frame M (pteAddr (m'.mem d i))).bind (kfree K m') else some m').bind _ = _
    rw [hmem]
    by_cases hpres : present (m.mem d i)
    · obtain ⟨t, ht, htd, hend⟩ := hall i mem_cons_self hpres
      rw [if_pos hpres, filterMap_cons, ht, (entryOf_eq_some.mp ht).2, Option.bind_some,
        Owned.kfree_eq_freed hend]
      rw [foldlM_cons, Owned.kfree_eq_freed hend]
      exact ih ((Owned.mem_freed_of_ne htd.symm).trans hmem) hrest
    · rw [if_neg hpres, filterMap_cons, entryOf_of_not_present hpres]
      exact ih hmem hrest

/-- What does not belong to the directory stays when pages are given back. -/
theorem Unmaps.other {lo hi : Nat} (h : Unmaps K d lo hi m role m' role') (hof : ¬ (role p).Of d) :
    role' p = role p ∧ (role p ≠ .free → p ≠ d → m'.mem p = m.mem p) := by
  by_cases hheld : role p = .held
  · obtain ⟨hrole, hmem⟩ := h.held p hheld
    exact ⟨hrole.trans hheld.symm, fun _ _ => hmem⟩
  by_cases hfree : role p = .free
  · refine ⟨?_, fun hne => absurd hfree hne⟩
    rcases h.roles p with heq | ⟨hfree', -⟩
    · exact heq
    · rw [hfree', hfree]
  · have hkept := h.within.kept p hfree fun hmine => hmine.elim hheld hof
    exact ⟨hkept.1, fun _ => hkept.2⟩

/-- The user pages have been freed, and the page tables and the directory after them. -/
theorem Unmaps.returned_eq {lo hi : Nat} (h : Unmaps K d lo hi m role m' role') (hd : Live role' d)
    (hnone : ∀ u i j, role' u ≠ .user d i j) :
    Owned.returned (retired d role') (tablesOf m' d ++ [d]) = released d role := by
  funext p
  unfold Owned.returned released
  have htable : p ∈ tablesOf m' d ↔ ∃ i, role' p = .pgtab d i := h.owned.mem_tablesOf hd
  by_cases hpd : p = d
  · rw [if_pos (by simp [hpd]), if_pos (.inl hpd)]
  by_cases hof : (role p).Of d
  · rw [if_pos (Or.inr hof)]
    by_cases hp : p ∈ tablesOf m' d
    · exact if_pos (mem_append_left _ hp)
    rw [if_neg (by simp [hp, hpd]), retired, if_neg hpd]
    rcases h.roles p with heq | ⟨hfree, -⟩
    · rcases hof with ⟨i, hi⟩ | ⟨i, j, hu⟩
      · exact absurd (htable.mpr ⟨i, heq.trans hi⟩) hp
      · exact absurd (heq.trans hu) (hnone p i j)
    · rw [hfree]
  · have heq := (h.other hof).1
    have hno : ∀ i, role' p ≠ .pgtab d i := fun i hi => hof (.inl ⟨i, heq.symm.trans hi⟩)
    have hp : p ∉ tablesOf m' d := fun hp => by
      obtain ⟨i, hi⟩ := htable.mp hp
      exact hno i hi
    have hin : p ∉ tablesOf m' d ++ [d] := by simp [hp, hpd]
    rw [if_neg hin, if_neg fun hc => hc.elim hpd hof, retired, if_neg hpd]
    split
    · rename_i d' i hi
      rw [← heq, hi, if_neg]
      rintro rfl
      exact hno i hi
    · exact heq

/-- **`freevm`** frees the directory and all that belongs to it, and nothing else changes. -/
theorem Owned.freevm (h : Owned K m role) (hd : Live role d) :
    ∃ m', Xv6.freevm K m d = some m' ∧ Owned K m' (released d role) ∧
      ∀ p, role p ≠ .free → p ≠ d → ¬ (role p).Of d → m'.mem p = m.mem p := by
  obtain ⟨m1, role1, hdealloc, hun⟩ := h.deallocuvm 0 hd (by decide : kernbase.toNat ≤ 2147483648)
  have h1 := hun.owned
  have hd1 := hun.within.live hd
  have hnone : ∀ u i j, role1 u ≠ .user d i j := by
    refine fun _ _ _ => h1.ne_user fun va hva => ?_
    have hlt : va.toNat / 4096 * 4096 < kernbase.toNat := by
      rw [toNat_kernbase]
      omega
    rw [hun.page va hva, if_pos ⟨Nat.zero_le _, hlt⟩]
  have hdne : ∀ {p i}, role1 p = .pgtab d i → p ≠ d :=
    fun hp => Tables.ne_of_pgtab_of_live hp hd1
  have htable : ∀ {p}, p ∈ tablesOf m1 d → ∃ i, role1 p = .pgtab d i :=
    fun hp => (h1.mem_tablesOf hd1).mp hp
  have hretired : ∀ p ∈ tablesOf m1 d ++ [d], retired d role1 p = .held := by
    intro p hp
    rcases mem_append.mp hp with hp | hp
    · obtain ⟨i, hi⟩ := htable hp
      rw [retired, if_neg (hdne hi), hi]
      exact if_pos rfl
    · rw [mem_singleton.mp hp, retired, if_pos rfl]
  have hnodup : (tablesOf m1 d ++ [d]).Nodup := by
    refine List.Nodup.append (h1.nodup_tablesOf hd1) (nodup_singleton d) ?_
    intro p hp hpd
    obtain ⟨i, hi⟩ := htable hp
    exact hdne hi (mem_singleton.mp hpd)
  have hloop : (finRange npdentries).foldlM (freeTable K d) m1 =
      (tablesOf m1 d).foldlM (Xv6.kfree K) m1 := by
    refine freeTables_eq _ rfl fun i _ hpres => ?_
    obtain ⟨t, ht⟩ := h1.exists_table hd1 hpres
    exact ⟨t, (h1.entry_dir hd1 i).mpr ht, hdne ht, h1.endPage_le (by simp [ht])⟩
  obtain ⟨hfold, howned, hmem⟩ := (h1.retire hd1 hnone).kfrees _ hretired hnodup
  rw [hun.returned_eq hd1 hnone] at howned
  refine ⟨(tablesOf m1 d ++ [d]).foldl freed m1, ?_, howned, ?_⟩
  · unfold Xv6.freevm
    simp only [hdealloc, Option.bind_eq_bind, Option.bind_some]
    rw [hloop]
    rw [foldlM_append] at hfold
    simp only [foldlM_cons, foldlM_nil, bind_pure] at hfold
    exact hfold
  · intro p hfree hpd hof
    obtain ⟨hrole, hsame⟩ := hun.other hof
    have hp : p ∉ tablesOf m1 d := by
      intro hp
      obtain ⟨i, hi⟩ := htable hp
      exact hof (.inl ⟨i, hrole.symm.trans hi⟩)
    rw [hmem p (by simp [hp, hpd]), hsame hfree hpd]

theorem Owned.reown {o o' : Owner} (h : Owned K m role) (hd : role d = .pgdir o) :
    Owned K m (update role d (.pgdir o')) := by
  refine h.rebuild rfl (fun q => update_eq_iff (by simp [hd]) (by simp)) (fun _ _ => rfl) ?_
    (h.tables.reown hd)
  intro q hq
  rw [update_of_ne (ne_of_role hq hd (by simp)), hq]

/-- Giving the directory up makes everything what it was. -/
theorem Grows.released_eq (h : Grows K d m role m' role') : released d role' = released d role := by
  funext p
  unfold released
  rcases h.roles p with heq | ⟨hp, hof⟩
  · rw [heq]
  · rw [if_pos (.inr hof), hp, ite_self]

/-! ### Kernel mappings -/

/-- The directory's kernel half has mappings at the pages `S` besides, and its user half is as it
was. -/
structure MapsKern (K : Linker M) (d : Ppn M) (S : Nat → Prop) (m : Kmem M) (role : Ppn M → Role M)
    (m' : Kmem M) (role' : Ppn M → Role M) : Prop where
  grows : Grows K d m role m' role'
  page : ∀ va, va.toNat < 2147483648 → pageAt m' d va = pageAt m d va
  kern : ∀ va, KernAt m' d va ↔ KernAt m d va ∨ S (vpn va)

theorem MapsKern.refl (h : Owned K m role) : MapsKern K d (fun _ => False) m role m role :=
  ⟨.refl h, fun _ _ => rfl, fun _ => (or_false _).symm ▸ Iff.rfl⟩

theorem MapsKern.trans {S S' S'' : Nat → Prop} (h : MapsKern K d S m role m' role')
    (h' : MapsKern K d S' m' role' m'' role'') (hS : ∀ v, S'' v ↔ S v ∨ S' v) :
    MapsKern K d S'' m role m'' role'' where
  grows := h.grows.trans h'.grows
  page va hva := (h'.page va hva).trans (h.page va hva)
  kern va := by rw [h'.kern, h.kern, hS, or_assoc]

theorem Owned.mapsKern_table (h : Owned K m role) (hd : Live role d)
    (hpres : ¬ present (m.mem d i)) (hfree : m.freelist = some t) :
    MapsKern K d (fun _ => False) m role (withTable m d t i) (update role t (.pgtab d i)) := by
  obtain ⟨hrole, howned⟩ := h.addTable hd hpres hfree
  refine ⟨⟨howned, fun p => ?_, fun p hp _ hpd => ?_⟩,
    fun va hva => h.pageAt_withTable hd hpres hrole hva, fun va => ?_⟩
  · by_cases hpt : p = t
    · subst hpt
      rw [update_self]
      exact .inr ⟨hrole, .inl ⟨i, rfl⟩⟩
    · exact .inl (update_of_ne hpt _ _)
  · refine mem_withTable_of_ne ?_ hpd
    rintro rfl
    exact hp hrole
  · rw [or_false]
    exact h.kernAt_withTable hd hpres hrole

theorem Owned.mapsKern_entry (h : Owned K m role) (ht : role t = .pgtab d (pdx va))
    (hva : 2147483648 ≤ va.toNat) (hw : present w) :
    MapsKern K d (fun v => v = vpn va) m role (m.store (t, ptx va) w) role := by
  have hd := h.live_of_pgtab ht
  have hi : ¬ (pdx va).val < 512 := fun hc => by
    have := pdx_lt_iff.mp hc
    omega
  have htd : t ≠ d := Tables.ne_of_pgtab_of_live ht hd
  refine ⟨⟨?_, fun _ => .inl rfl, fun p _ hof _ => mem_store_of_ne ?_⟩, fun va' hva' => ?_,
    fun va' => ?_⟩
  · refine h.rebuild rfl (fun _ => Iff.rfl) (fun q hq => mem_store_of_ne ?_) (fun _ hq => hq)
      (h.tables.storeKern ht hi)
    exact ne_of_role hq ht (by simp)
  · rintro rfl
    exact hof (.inl ⟨_, ht⟩)
  · refine h.pageAt_store_other ht hva' ?_
    have hdiv : va'.toNat / 4096 ≠ va.toNat / 4096 := by omega
    exact hdiv
  · by_cases hv : vpn va' = vpn va
    · obtain ⟨hpd, hpt⟩ := vpn_eq_iff.mp hv
      refine iff_of_true ⟨t, ?_, ?_⟩ (.inr hv)
      · rw [mem_store_of_ne htd.symm, hpd]
        exact (h.entry_dir hd _).mpr ht
      · rw [hpt, mem_store_self, update_self]
        exact hw
    · rw [or_iff_left hv]
      exact h.kernAt_store_other ht hv

/-- One turn of `mappages` in the kernel's half: only a missing page table can stop it. -/
theorem Owned.walk_kern (h : Owned K m role) (hd : Live role d) (hva : 2147483648 ≤ va.toNat)
    (hnone : ¬ KernAt m d va) :
    (m.freelist = none ∧ walkpgdir m d va true = some (none, m)) ∨
    ∃ t m1 role', walkpgdir m d va true = some (some (t, ptx va), m1) ∧
      ¬ present (m1.load (t, ptx va)) ∧ ∀ w, present w →
        MapsKern K d (fun v => v = vpn va) m role (m1.store (t, ptx va) w) role' := by
  by_cases hpres : present (m.mem d (pdx va))
  · obtain ⟨t, ht⟩ := h.exists_table hd hpres
    refine .inr ⟨t, m, role, h.walkpgdir_found ht true, fun hpte => ?_,
      fun w hw => h.mapsKern_entry ht hva hw⟩
    exact hnone ⟨t, (h.entry_dir hd _).mpr ht, hpte⟩
  · cases hlist : m.freelist with
    | none => exact .inl ⟨rfl, walkpgdir_full hpres hlist⟩
    | some t =>
      right
      have htable := h.mapsKern_table hd hpres hlist
      have hself : update role t (.pgtab d (pdx va)) t = .pgtab d (pdx va) :=
        update_self _ _ _
      refine ⟨t, _, _, walkpgdir_new hpres hlist, fun hpte => ?_, fun w hw =>
        htable.trans (htable.grows.owned.mapsKern_entry hself hva hw) fun v => by simp⟩
      have hkern := (htable.kern va).mp
        ⟨t, (htable.grows.owned.entry_dir (htable.grows.live hd) _).mpr hself, hpte⟩
      exact hkern.elim hnone id

/-- **A range of the kernel's half is mapped**, if memory for the page tables lasts. -/
theorem Owned.mapKernLoop (perm : Word) : ∀ (n : Nat) {m : Kmem M} {role : Ppn M → Role M}
    (a pa : Word), Owned K m role → Live role d → a.toNat % 4096 = 0 → 2147483648 ≤ a.toNat →
    a.toNat + n * 4096 < 4294967296 →
    (∀ va, vpn a ≤ vpn va → vpn va ≤ vpn a + n → ¬ KernAt m d va) →
    ∃ b S m' role', mappagesLoop d perm n m a pa = some (b, m') ∧
      MapsKern K d S m role m' role' ∧ (b = false → m'.freelist = none) ∧
      (b = true → ∀ v, S v ↔ vpn a ≤ v ∧ v ≤ vpn a + n) := by
  intro n
  induction n with
  | zero =>
    intro m role a pa h hd halign hva _ hnone
    have hfree : ¬ KernAt m d a := hnone a le_rfl le_rfl
    unfold mappagesLoop
    rcases h.walk_kern hd hva hfree with ⟨hlist, hwalk⟩ | ⟨t, m1, role', hwalk, hpte, hmaps⟩
    · rw [hwalk]
      exact ⟨false, _, m, role, rfl, .refl h, fun _ => hlist, by simp⟩
    rw [hwalk]
    dsimp only
    rw [if_neg hpte]
    refine ⟨true, _, _, role', rfl, hmaps _ (Jos.present_or_right Jos.present_pteP), by simp,
      fun _ v => ?_⟩
    omega
  | succ n ih =>
    intro m role a pa h hd halign hva hroom hnone
    have hfree : ¬ KernAt m d a := hnone a le_rfl (by omega)
    have hnext : (a + pgsize).toNat = a.toNat + 4096 := toNat_add_pgsize (by omega)
    have hvnext : vpn (a + pgsize) = vpn a + 1 := vpn_add_pgsize (by omega)
    unfold mappagesLoop
    rcases h.walk_kern hd hva hfree with ⟨hlist, hwalk⟩ | ⟨t, m1, role', hwalk, hpte, hmaps⟩
    · rw [hwalk]
      exact ⟨false, _, m, role, rfl, .refl h, fun _ => hlist, by simp⟩
    rw [hwalk]
    dsimp only
    rw [if_neg hpte]
    have hstep := hmaps _ (Jos.present_or_right (w := pa ||| perm) Jos.present_pteP)
    obtain ⟨b, S, m', role'', hloop, hrest, hfull, hdone⟩ := ih (a + pgsize)
      (pa + pgsize) hstep.grows.owned (hstep.grows.live hd) (by omega) (by omega)
      (by omega) (by
        intro va hlo hhi hkern
        rcases (hstep.kern va).mp hkern with hold | heq
        · exact hnone va (by omega) (by omega) hold
        · omega)
    refine ⟨b, _, m', role'', hloop, hstep.trans hrest fun _ => Iff.rfl, hfull,
      fun hb v => ?_⟩
    rw [hdone hb]
    omega

theorem mappages_range {m : Kmem M} {virt size pa perm : Word} {lo hi : Nat}
    (hvirt : virt.toNat = lo * 4096) (hsize : size.toNat = (hi - lo) * 4096) (hlt : lo < hi)
    (hhi : hi ≤ 1048576) :
    mappages m d virt size pa perm = mappagesLoop d perm (hi - lo - 1) m virt pa := by
  have hlast : (virt + size - 1).toNat = hi * 4096 - 1 := by
    show (2 ^ 32 - 1 + (virt.toNat + size.toNat) % 2 ^ 32) % 2 ^ 32 = _
    omega
  have hround : (pgrounddown (virt + size - 1)).toNat = (hi - 1) * 4096 := by
    rw [toNat_pgrounddown, hlast]
    omega
  have hturns : ((pgrounddown (virt + size - 1) - virt) >>> 12).toNat = hi - lo - 1 := by
    rw [toNat_ushiftRight, toNat_sub, hround, hvirt, Nat.shiftRight_eq_div_pow]
    omega
  show mappagesLoop d perm ((pgrounddown (virt + size - 1) - pgrounddown virt) >>> 12).toNat m
    (pgrounddown virt) pa = _
  rw [pgrounddown_of_aligned (a := virt) (by omega), hturns]

/-! ### `setupkvm` -/

/-- The range maps the pages from `lo` to `hi`, in the kernel's half. -/
structure Kmap.Covers (k : Kmap) (lo hi : Nat) : Prop where
  virt : k.virt.toNat = lo * 4096
  size : (k.physEnd - k.physStart).toNat = (hi - lo) * 4096
  kern : 524288 ≤ lo
  pos : lo < hi
  top : hi ≤ 1048576

/-- The ranges lie one above the other, from `lo` on. -/
def Stacked : Nat → List Kmap → Prop
  | _, [] => True
  | lo, k :: ks => ∃ a b, lo ≤ a ∧ k.Covers a b ∧ Stacked b ks

theorem kmap_stacked (K : Linker M) :
    Stacked 524288 (kmap K) ∧ ∃ b, Kmap.Covers ⟨kernbase, 0, extmem, pteW⟩ 524288 b := by
  have hnp := M.npagesLe
  have haligned := K.dataAligned
  have habove := K.dataAbove
  have hbelow := K.dataBelow
  have hend := K.endBelow
  have hlink : kernlink.toNat = 2148532224 := by decide
  have hbase : kernbase.toNat = 2147483648 := toNat_kernbase
  have htop : (phystop M).toNat = M.npages * 4096 := by
    unfold phystop
    rw [toNat_ofNat]
    omega
  have hfirst : Kmap.Covers ⟨kernbase, 0, extmem, pteW⟩ 524288 524544 :=
    ⟨by decide, by decide, by decide, by decide, by decide⟩
  refine ⟨⟨524288, 524544, le_rfl, hfirst, 524544, K.data.toNat / 4096, le_rfl,
    ⟨hlink, ?_, by omega, by omega, by omega⟩, K.data.toNat / 4096, 524288 + M.npages, le_rfl,
    ⟨?_, ?_, by omega, by omega, by omega⟩, 1040384, 1048576, by omega,
    ⟨by decide, by decide, by decide, by decide, by decide⟩, trivial⟩, 524544, hfirst⟩
  · show ((K.data - kernbase) - (kernlink - kernbase)).toNat = _
    rw [toNat_sub, toNat_sub, toNat_sub, hlink, hbase]
    omega
  · show K.data.toNat = _
    omega
  · show (phystop M - (K.data - kernbase)).toNat = _
    rw [toNat_sub, toNat_sub, hbase, htop]
    omega

/-- There are at most `n` free pages. -/
def Scarce (role : Ppn M → Role M) (n : Nat) : Prop :=
  ∀ l : List (Ppn M), l.Nodup → (∀ p ∈ l, role p = .free) → l.length ≤ n

theorem Owned.freelist_ne_none (h : Owned K m role) (hp : role p = .free) : m.freelist ≠ none := by
  intro hlist
  obtain ⟨l, hchain, hl⟩ := h.free
  rw [hlist] at hchain
  have hmem := (hl p).mpr hp
  cases l with
  | nil => cases hmem
  | cons q l => exact absurd hchain.1 (by simp)

/-- If all the free pages have become page tables of one directory, there were not many. -/
theorem Grows.scarce (h : Grows K d m role m' role') (hfull : m'.freelist = none)
    (hpages : ∀ va, va.toNat < 2147483648 → pageAt m' d va = none) : Scarce role 1024 := by
  intro l hnodup hfree
  have htable : ∀ p ∈ l, ∃ i, role' p = .pgtab d i := by
    intro p hp
    rcases h.roles p with heq | ⟨-, hof⟩
    · exact absurd hfull (h.owned.freelist_ne_none (heq.trans (hfree p hp)))
    · exact hof.resolve_right fun ⟨i, j, hu⟩ => h.owned.ne_user hpages hu
  choose! f hf using htable
  have hinj : (l.map f).Nodup := by
    refine List.Nodup.map_on (fun p hp q hq heq => ?_) hnodup
    have hq' := hf q hq
    rw [← heq] at hq'
    exact h.owned.tables.pgtab_unique (hf p hp) hq'
  have hcard := hinj.length_le_card
  rw [length_map] at hcard
  exact hcard.trans_eq (Fintype.card_fin npdentries)

/-- The loop of `setupkvm`: all ranges are mapped, or there is no page left for a page table. -/
theorem Owned.setupLoop (ks : List Kmap) : ∀ {lo : Nat} {m : Kmem M} {role : Ppn M → Role M},
    Owned K m role → Live role d → (∀ va, KernAt m d va → vpn va < lo) → Stacked lo ks →
    (∃ S m' role', Xv6.setupLoop K d ks m = some (some d, m') ∧ MapsKern K d S m role m' role' ∧
      ∀ k ks' a b, ks = k :: ks' → k.Covers a b → S a) ∨
    ∃ S m' role', Xv6.setupLoop K d ks m = (Xv6.freevm K m' d).map (fun m => (none, m)) ∧
      MapsKern K d S m role m' role' ∧ m'.freelist = none := by
  induction ks with
  | nil =>
    intro lo m role h _ _ _
    exact .inl ⟨_, m, role, rfl, .refl h, fun _ _ _ _ hks => by cases hks⟩
  | cons k ks ih =>
    intro lo m role h hd hbelow hstacked
    obtain ⟨a, b, hlo, hcov, hrest⟩ := hstacked
    have hkern := hcov.kern
    have hpos := hcov.pos
    have htop := hcov.top
    have hvirt := hcov.virt
    have hv : vpn k.virt = a := by
      show k.virt.toNat / 4096 = a
      omega
    obtain ⟨r, S, m1, role1, hloop, hmaps, hfull, hdone⟩ := Owned.mapKernLoop k.perm
      (b - a - 1) k.virt k.physStart h hd (by omega) (by omega) (by omega) (by
        intro va hge _ hc
        have hlt := hbelow va hc
        omega)
    unfold Xv6.setupLoop
    rw [mappages_range hvirt hcov.size hpos htop, hloop]
    cases r with
    | false => exact .inr ⟨S, m1, role1, rfl, hmaps, hfull rfl⟩
    | true =>
      have hS := hdone rfl
      have hbelow1 : ∀ va, KernAt m1 d va → vpn va < b := by
        intro va hc
        rcases (hmaps.kern va).mp hc with hold | hnew
        · exact (hbelow va hold).trans_le (by omega)
        · have hrange := (hS _).mp hnew
          omega
      rcases ih hmaps.grows.owned (hmaps.grows.live hd) hbelow1 hrest with
        ⟨S', m', role', hset, hmaps', -⟩ | ⟨S', m', role', hset, hmaps', hfull'⟩
      · refine .inl ⟨_, m', role', hset, hmaps.trans hmaps' fun _ => Iff.rfl, ?_⟩
        intro k' ks' a' b' hks hcov'
        cases hks
        have hvirt' := hcov'.virt
        left
        rw [hS]
        omega
      · exact .inr ⟨_, m', role', hset, hmaps.trans hmaps' fun _ => Iff.rfl, hfull'⟩

/-- The directory `d` and what belongs to it have been made of free pages, and nothing else has
changed. -/
structure Builds (K : Linker M) (d : Ppn M) (m : Kmem M) (role : Ppn M → Role M) (m' : Kmem M)
    (role' : Ppn M → Role M) : Prop where
  owned : Owned K m' role'
  fresh : role d = .free
  dir : role' d = .pgdir .temp
  roles : ∀ p, p ≠ d → role' p = role p ∨ (role p = .free ∧ (role' p).Of d)
  kept : ∀ p, role p ≠ .free → m'.mem p = m.mem p

/-- Nothing belongs to a page that is not a directory. -/
theorem Owned.not_of (h : Owned K m role) (hd : ¬ Live role d) : ¬ (role p).Of d := by
  rintro (⟨i, hi⟩ | ⟨i, j, hu⟩)
  · exact hd (h.live_of_pgtab hi)
  · obtain ⟨-, t, ht, -⟩ := (h.tables.user p d i j).mp hu
    exact hd (h.live_of_pgtab ht)

theorem not_live_of_free (h : role d = .free) : ¬ Live role d := by
  rintro ⟨o, ho⟩
  rw [h] at ho
  cases ho

namespace Builds

section

variable (h : Builds K d m role m' role')
include h

theorem live : Live role' d := ⟨_, h.dir⟩

theorem role_eq (hp : role p ≠ .free) : role' p = role p := by
  have hpd : p ≠ d := by
    rintro rfl
    exact hp h.fresh
  exact (h.roles p hpd).resolve_right fun hc => hp hc.1

theorem live_other {d' : Ppn M} (hd : Live role d') :
    Live role' d' ∧ d' ≠ d := by
  obtain ⟨o, ho⟩ := hd
  refine ⟨⟨o, by rw [h.role_eq (by simp [ho]), ho]⟩, ?_⟩
  rintro rfl
  rw [h.fresh] at ho
  cases ho

theorem grow (ho : Owned K m role)
    (hg : Grows K d m' role' m'' role'') : Builds K d m role m'' role'' where
  owned := hg.owned
  fresh := h.fresh
  dir := by rw [hg.role_eq (by simp [h.dir]), h.dir]
  roles := by
    intro p hpd
    rcases h.roles p hpd with heq | ⟨hfree, hof⟩
    · rw [← heq]
      exact hg.roles p
    · rw [hg.role_eq hof.ne_free]
      exact .inr ⟨hfree, hof⟩
  kept := by
    intro p hfree
    have heq := h.role_eq hfree
    have hof : ¬ (role p).Of d := ho.not_of (not_live_of_free h.fresh)
    have hpd : p ≠ d := by
      rintro rfl
      exact hfree h.fresh
    rw [hg.kept p (by rw [heq]; exact hfree) (by rw [heq]; exact hof) hpd, h.kept p hfree]

/-- Giving the directory up makes all pages what they were. -/
theorem released_eq (ho : Owned K m role) :
    released d role' = role := by
  funext p
  unfold released
  by_cases hpd : p = d
  · rw [if_pos (.inl hpd), hpd, h.fresh]
  · rcases h.roles p hpd with heq | ⟨hfree, hof⟩
    · rw [heq, if_neg]
      exact fun hc => hc.elim hpd (ho.not_of (not_live_of_free h.fresh))
    · rw [if_pos (.inr hof), hfree]

theorem freevm (ho : Owned K m role) :
    ∃ m'', Xv6.freevm K m' d = some m'' ∧ Owned K m'' role ∧
      ∀ p, role p ≠ .free → m''.mem p = m.mem p := by
  obtain ⟨m'', hfree, howned, hkept⟩ := h.owned.freevm h.live
  rw [h.released_eq ho] at howned
  refine ⟨m'', hfree, howned, fun p hp => ?_⟩
  have heq := h.role_eq hp
  have hpd : p ≠ d := by
    rintro rfl
    exact hp h.fresh
  have hof : ¬ (role p).Of d := ho.not_of (not_live_of_free h.fresh)
  rw [hkept p (by rw [heq]; exact hp) hpd (by rw [heq]; exact hof), h.kept p hp]

theorem pageAt_other (ho : Owned K m role) {d' : Ppn M}
    (hd : Live role d') (hva : va.toNat < 2147483648) : pageAt m' d' va = pageAt m d' va := by
  obtain ⟨o, hod⟩ := hd
  refine ho.pageAt_congr ⟨o, hod⟩ hva ?_ ?_ ?_
  · rw [h.kept d' (by simp [hod])]
  · intro t ht
    rw [h.kept t (by simp [ht])]
  · intro u hu
    exact h.kept u (by simp [hu])

end

end Builds

/-- **`setupkvm`** makes a directory without user pages, or leaves all as it was; with enough free
pages it makes one. -/
theorem Owned.setupkvm (h : Owned K m role) :
    (∃ m', Xv6.setupkvm K m = some (none, m') ∧ Owned K m' role ∧
      (∀ p, role p ≠ .free → m'.mem p = m.mem p) ∧ Scarce role 1025) ∨
    ∃ d m' role', Xv6.setupkvm K m = some (some d, m') ∧ Builds K d m role m' role' ∧
      (∀ va, va.toNat < 2147483648 → pageAt m' d va = none) ∧ KernAt m' d kernbase := by
  unfold Xv6.setupkvm kalloc
  cases hlist : m.freelist with
  | none =>
    refine .inl ⟨m, rfl, h, fun _ _ => rfl, fun l _ hl => ?_⟩
    cases l with
    | nil => exact Nat.zero_le _
    | cons p l => exact absurd hlist (h.freelist_ne_none (hl p mem_cons_self))
  | some d =>
    obtain ⟨hrole, htake⟩ := h.take hlist fun _ => 0
    have hself : update role d Role.held d = .held := update_self _ _ _
    have hzero : ∀ i, (taken m d fun _ => 0).mem d i = 0 := fun i => by rw [mem_taken_self]
    have hdir := htake.newDir (o := .temp) (by rw [hself]; trivial) (by rw [hself]; simp) hzero
    rw [update_idem] at hdir
    have hdself : update role d (.pgdir .temp) d = .pgdir .temp :=
      update_self _ _ _
    have hstart : Builds K d m role (taken m d fun _ => 0) (update role d (.pgdir .temp)) := by
      refine ⟨hdir, hrole, hdself, fun p hpd => .inl (update_of_ne hpd _ _),
        fun p hp => mem_taken_of_ne ?_⟩
      rintro rfl
      exact hp hrole
    have hpages : ∀ va, va.toNat < 2147483648 → pageAt (taken m d fun _ => 0) d va = none :=
      fun va _ => pageAt_of_not_present (by rw [hzero]; exact Jos.not_present_zero)
    have hkern : ∀ va, KernAt (taken m d fun _ => 0) d va → vpn va < 524288 := by
      rintro va ⟨t, ht, -⟩
      rw [hzero, entryOf_zero] at ht
      cases ht
    obtain ⟨hstacked, b, hcov⟩ := kmap_stacked K
    have hguard : ¬ devspace < phystop M + kernbase := by
      have hnp := M.npagesLe
      intro hlt
      have hlt' : devspace.toNat < (phystop M + kernbase).toNat := hlt
      unfold phystop at hlt'
      rw [toNat_add, toNat_ofNat, toNat_kernbase] at hlt'
      have hdev : devspace.toNat = 4261412864 := by decide
      omega
    dsimp only
    rw [if_neg hguard]
    show (∃ m', Xv6.setupLoop K d (kmap K) (taken m d fun _ => 0) = _ ∧ _) ∨
      ∃ d' m' role', Xv6.setupLoop K d (kmap K) (taken m d fun _ => 0) = _ ∧ _
    rcases hdir.setupLoop (kmap K) ⟨_, hdself⟩ hkern hstacked with
      ⟨S, m', role', hset, hmaps, hS⟩ | ⟨S, m', role', hset, hmaps, hfull⟩
    · right
      refine ⟨d, m', role', hset, hstart.grow h hmaps.grows,
        fun va hva => (hmaps.page va hva).trans (hpages va hva), ?_⟩
      exact (hmaps.kern kernbase).mpr (.inr (hS _ _ _ b rfl hcov))
    · left
      obtain ⟨m'', hfree, howned, hkept⟩ := (hstart.grow h hmaps.grows).freevm h
      rw [hset, hfree]
      refine ⟨m'', rfl, howned, hkept, fun l hnodup hl => ?_⟩
      have hscarce := hmaps.grows.scarce hfull
        (fun va hva => (hmaps.page va hva).trans (hpages va hva)) (l.erase d) (hnodup.erase d)
        fun p hp => by
          rw [update_of_ne (List.Nodup.mem_erase_iff hnodup |>.mp hp).1]
          exact hl p (mem_of_mem_erase hp)
      have hlen := length_erase_add_one (a := d) (l := l)
      by_cases hd : d ∈ l
      · have := hlen hd
        omega
      · rw [erase_of_not_mem hd] at hscarce
        omega

end Xv6
