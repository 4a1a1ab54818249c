/-
`exec` builds an address space of its own.

Until it is the process's, the new directory is nobody's; what is done to it leaves the rest of
memory alone, as long as the pages that are written are its pages.  They are, since the pages below
the size are there: `Image` says so, and every stage keeps it.
-/
import Os.Proofs.Xv6.Tasks

namespace Xv6

open List Option
open Jos (entryOf entryOf_eq_some)

variable {M : Machine} {K : Linker M} {m m' : Kmem M} {role role' : Ppn M → Role M}
variable {d u : Ppn M} {sz va : Word}
variable {data : List Byte} {cur : Ppn M} {argv : List (List Byte)}

/-- The pages of the directory are those below the size. -/
structure Image (K : Linker M) (d : Ppn M) (sz : Word) (m : Kmem M) (role : Ppn M → Role M) :
    Prop where
  owned : Owned K m role
  live : Live role d
  size : sz.toNat ≤ 2147483648
  below : ∀ va, va.toNat < 2147483648 → vpn va * 4096 < sz.toNat → pageAt m d va ≠ none
  above : ∀ va, va.toNat < 2147483648 → sz.toNat ≤ vpn va * 4096 → pageAt m d va = none

/-! ### Pages -/

theorem Image.congr (h : Image K d sz m role) (howned : Owned K m' role)
    (hpage : ∀ va, va.toNat < 2147483648 → (pageAt m' d va = none ↔ pageAt m d va = none)) :
    Image K d sz m' role where
  owned := howned
  live := h.live
  size := h.size
  below va hva hlt hc := h.below va hva hlt ((hpage va hva).mp hc)
  above va hva hle := (hpage va hva).mpr (h.above va hva hle)

/-- **A page of the image is written.** -/
theorem Image.write {i : Fin npdentries} {j : Fin nptentries} (h : Image K d sz m role)
    (hu : role u = .user d i j) (hlist : m'.freelist = m.freelist)
    (hmem : ∀ q, q ≠ u → m'.mem q = m.mem q) :
    Image K d sz m' role ∧ Within d m role m' role := by
  refine ⟨h.congr (h.owned.congr_user hu hlist hmem) fun va _ => ?_,
    Within.write fun q _ hmine => hmem q ?_⟩
  · obtain ⟨o, ho⟩ := h.live
    have hdir : m'.mem d = m.mem d := hmem d (ne_of_role ho hu (by simp))
    unfold pageAt
    rw [hdir]
    cases hentry : entryOf M (m.mem d (pdx va)) with
    | none => rfl
    | some t =>
      have ht := (h.owned.entry_dir h.live _).mp hentry
      rw [bind_some, bind_some, hmem t (ne_of_role ht hu (by simp)),
        map_eq_none_iff, map_eq_none_iff]
  · rintro rfl
    exact hmine (.inr (.inr ⟨_, _, hu⟩))

/-- The entry of an address below the size leads to a page of the image. -/
theorem Image.entry (h : Image K d sz m role) (hva : va.toNat < sz.toNat) :
    ∃ t u, role t = .pgtab d (pdx va) ∧ role u = .user d (pdx va) (ptx va) ∧
      present (m.mem t (ptx va)) ∧ frame M (pteAddr (m.mem t (ptx va))) = some u := by
  have hsize := h.size
  have hlt : va.toNat / 4096 * 4096 < sz.toNat := by omega
  obtain ⟨t, ht, hpte, -⟩ := h.owned.source_page h.live (by omega) (h.below va (by omega) hlt)
  obtain ⟨u, hu, hrole⟩ := h.owned.exists_user ht (by omega) hpte
  exact ⟨t, u, ht, hrole, hpte, (entryOf_eq_some.mp hu).2⟩

theorem freelist_storeBytes (p : Ppn M) (l : List Byte) : ∀ (m : Kmem M) (o : Nat),
    (m.storeBytes p o l).freelist = m.freelist := by
  induction l with
  | nil =>
    intro m o
    rfl
  | cons b l ih =>
    intro m o
    rw [Kmem.storeBytes, ih]
    rfl

theorem mem_storeBytes_of_ne {p q : Ppn M} (h : q ≠ p) (l : List Byte) : ∀ (m : Kmem M) (o : Nat),
    (m.storeBytes p o l).mem q = m.mem q := by
  induction l with
  | nil =>
    intro m o
    rfl
  | cons b l ih =>
    intro m o
    rw [Kmem.storeBytes, ih]
    exact mem_store_of_ne h

/-! ### `allocuvm` -/

/-- **The image grows**, or the size it has been asked for is refused. -/
theorem Image.alloc {r newsz : Word} (h : Image K d sz m role)
    (hrun : allocuvm K m d sz newsz = some (r, m')) :
    ∃ role', Owned K m' role' ∧ Within d m role m' role' ∧
      (r ≠ 0 → Image K d r m' role' ∧ newsz.toNat ≤ r.toNat) := by
  by_cases hkern : kernbase ≤ newsz
  · rw [allocuvm, if_pos hkern] at hrun
    cases hrun
    exact ⟨role, h.owned, .refl d m role, fun hc => absurd rfl hc⟩
  have hnew : newsz.toNat < 2147483648 := by
    rw [← toNat_kernbase]
    exact BitVec.lt_def.mp (BitVec.not_le.mp hkern)
  by_cases hless : newsz < sz
  · rw [allocuvm, if_neg hkern, if_pos hless] at hrun
    cases hrun
    exact ⟨role, h.owned, .refl d m role, fun _ => ⟨h, (BitVec.lt_def.mp hless).le⟩⟩
  have hle : sz.toNat ≤ newsz.toNat := BitVec.le_def.mp (BitVec.not_lt.mp hless)
  obtain ⟨r', m1, role', halloc, hends⟩ := h.owned.allocuvm sz newsz h.live hle hnew
    (fun va hva hlo _ => h.above va hva (by omega))
  rw [halloc] at hrun
  cases hrun
  rcases hends with ⟨rfl, hal⟩ | ⟨rfl, hal⟩
  · refine ⟨role', hal.owned, hal.within, fun _ => ⟨⟨hal.owned, hal.within.live h.live, hnew.le,
      fun va hva hlt => ?_, fun va hva hge => ?_⟩, le_rfl⟩⟩
    · rw [hal.page va hva, putZeros]
      split_ifs with hin
      · simp [zeroPage]
      · exact h.below va hva (by omega)
    · rw [hal.page va hva, putZeros, if_neg (by omega)]
      exact h.above va hva (by omega)
  · exact ⟨role', hal.owned, hal.within, fun hc => absurd rfl hc⟩

/-! ### Loading segments -/

theorem Image.loadLoop {addr offset filesz : Word} (hin : addr.toNat + filesz.toNat ≤ sz.toNat) :
    ∀ (n : Nat) {m : Kmem M} {i : Word}
    {b : Bool} {m' : Kmem M}, Image K d sz m role →
    Xv6.loadLoop data d addr offset filesz n m i = some (b, m') →
    Image K d sz m' role ∧ Within d m role m' role := by
  intro n
  induction n with
  | zero =>
    intro m i b m' h hrun
    rw [Xv6.loadLoop] at hrun
    split at hrun
    · cases hrun
    · cases hrun
      exact ⟨h, .refl _ _ _⟩
  | succ n ih =>
    intro m i b m' h hrun
    rw [Xv6.loadLoop] at hrun
    split at hrun
    · rename_i hlt
      have hlt' : i.toNat < filesz.toNat := hlt
      have hva : (addr + i).toNat = addr.toNat + i.toNat := by
        rw [BitVec.toNat_add]
        omega
      obtain ⟨t, u, ht, hu, -, hframe⟩ := h.entry (show (addr + i).toNat < _ by omega)
      rw [h.owned.walkpgdir_found ht false] at hrun
      dsimp only [Kmem.load] at hrun
      rw [hframe] at hrun
      dsimp only at hrun
      generalize (if filesz - i < pgsize then filesz - i else pgsize) = count at hrun
      split at hrun
      · cases hrun
        exact ⟨h, .refl _ _ _⟩
      rename_i l _
      obtain ⟨hstored, hwithin⟩ := h.write hu (freelist_storeBytes u l m 0)
        fun q hq => mem_storeBytes_of_ne hq l m 0
      split at hrun
      · cases hrun
        exact ⟨hstored, hwithin⟩
      · obtain ⟨himage, hrest⟩ := ih hstored hrun
        exact ⟨himage, hwithin.trans hrest⟩
    · cases hrun
      exact ⟨h, .refl _ _ _⟩

/-- **The program headers**: the image has the size they come to, or `exec` gives up. -/
theorem Image.loadSegments : ∀ (n : Nat) {m : Kmem M} {role : Ppn M → Role M}
    {off sz : Word} {r : Option Word} {m' : Kmem M}, Image K d sz m role →
    Xv6.loadSegments K data d n m off sz = some (r, m') →
    ∃ role', Owned K m' role' ∧ Within d m role m' role' ∧
      ∀ sz', r = some sz' → Image K d sz' m' role' := by
  intro n
  induction n with
  | zero =>
    intro m role off sz r m' h hrun
    cases hrun
    refine ⟨role, h.owned, .refl _ _ _, fun sz' hsz' => ?_⟩
    cases hsz'
    exact h
  | succ n ih =>
    intro m role off sz r m' h hrun
    have hgiveUp : ∀ {m1 role1}, Owned K m1 role1 → Within d m role m1 role1 →
        some (none, m1) = some (r, m') → ∃ role', Owned K m' role' ∧ Within d m role m' role' ∧
        ∀ sz', r = some sz' → Image K d sz' m' role' := by
      intro m1 role1 howned hwithin hc
      cases hc
      exact ⟨role1, howned, hwithin, fun _ hc => by cases hc⟩
    have hsame := hgiveUp h.owned (.refl _ _ _)
    rw [Xv6.loadSegments] at hrun
    split at hrun
    · exact hsame hrun
    rename_i ph _
    split at hrun
    · exact ih h hrun
    split at hrun
    · exact hsame hrun
    rename_i hmemsz
    split at hrun
    · exact hsame hrun
    rename_i hwrap
    split at hrun
    · cases hrun
    rename_i sz1 m1 halloc
    obtain ⟨role1, howned, hwithin, himage⟩ := h.alloc halloc
    split at hrun
    · exact hgiveUp howned hwithin hrun
    rename_i hzero
    split at hrun
    · exact hgiveUp howned hwithin hrun
    rename_i haligned
    obtain ⟨himage1, hnew⟩ := himage hzero
    -- the file's part of the segment lies below the new size
    have hin : ph.vaddr.toNat + ph.filesz.toNat ≤ sz1.toNat := by
      have hmem : ph.filesz.toNat ≤ ph.memsz.toNat := BitVec.le_def.mp (BitVec.not_lt.mp hmemsz)
      have hsum : (ph.vaddr + ph.memsz).toNat = ph.vaddr.toNat + ph.memsz.toNat := by
        have hge : ph.vaddr.toNat ≤ (ph.vaddr + ph.memsz).toNat :=
          BitVec.le_def.mp (BitVec.not_lt.mp hwrap)
        rw [BitVec.toNat_add] at hge ⊢
        have hm : ph.memsz.toNat < 4294967296 := ph.memsz.isLt
        omega
      omega
    cases hload : loaduvm m1 d ph.vaddr data ph.off ph.filesz with
    | none =>
      rw [hload] at hrun
      cases hrun
    | some x =>
      obtain ⟨b, m2⟩ := x
      rw [loaduvm, if_neg haligned] at hload
      obtain ⟨himage2, hwithin2⟩ := Image.loadLoop hin _ himage1 hload
      rw [loaduvm, if_neg haligned, hload] at hrun
      cases b with
      | false => exact hgiveUp himage2.owned (hwithin.trans hwithin2) hrun
      | true =>
        obtain ⟨role', howned', hwithin', himage'⟩ := ih himage2 hrun
        exact ⟨role', howned', (hwithin.trans hwithin2).trans hwithin', himage'⟩

/-! ### The stack -/

theorem entryOf_clear (w : Word) : entryOf M (w &&& ~~~pteU) = entryOf M w := by
  have hpres : present (w &&& ~~~pteU) ↔ present w := by
    have hbit : (w &&& ~~~pteU) &&& pteP = w &&& pteP := by
      rw [BitVec.and_assoc]
      rfl
    show (w &&& ~~~pteU) &&& pteP ≠ 0 ↔ w &&& pteP ≠ 0
    rw [hbit]
  have haddr : pteAddr (w &&& ~~~pteU) = pteAddr w := by
    unfold pteAddr
    rw [BitVec.and_assoc]
    rfl
  unfold Jos.entryOf
  rw [haddr]
  exact if_congr hpres rfl rfl

theorem Image.clearpteu (h : Image K d sz m role) (hva : va.toNat < sz.toNat)
    (hrun : Xv6.clearpteu m d va = some m') :
    Image K d sz m' role ∧ Within d m role m' role := by
  obtain ⟨t, u, ht, hu, hpte, hframe⟩ := h.entry hva
  have hsize := h.size
  rw [Xv6.clearpteu, h.owned.walkpgdir_found ht false] at hrun
  cases hrun
  have hentry : entryOf M (m.load (t, ptx va) &&& ~~~pteU) = entryOf M (m.mem t (ptx va)) :=
    entryOf_clear _
  have hsome : entryOf M (m.mem t (ptx va)) = some u := entryOf_eq_some.mpr ⟨hpte, hframe⟩
  have howned : Owned K (m.store (t, ptx va) (m.load (t, ptx va) &&& ~~~pteU)) role := by
    refine h.owned.rebuild rfl (fun _ => Iff.rfl) (fun q hq => mem_store_of_ne ?_) (fun _ hq => hq)
      (h.owned.tables.reflag ht hentry fun _ => hpte)
    exact ne_of_role hq ht (by simp)
  refine ⟨h.congr howned fun va' hva' => ?_, .write fun q _ hmine => mem_store_of_ne ?_⟩
  · by_cases hv : vpn va' = vpn va
    · rw [h.owned.pageAt_store_self ht hv, pageAt_vpn m d hv, h.owned.pageAt_of_pgtab ht, hentry,
        hsome]
      simp
    · rw [h.owned.pageAt_store_other ht hva' hv]
  · rintro rfl
    exact hmine (.inr (.inl ⟨_, ht⟩))

theorem Image.allocStack {r : Option Word} (h : Image K d sz m role)
    (hrun : Xv6.allocStack K d m sz = some (r, m')) :
    ∃ role', Owned K m' role' ∧ Within d m role m' role' ∧
      ∀ sz', r = some sz' → Image K d sz' m' role' ∧ 8192 ≤ sz'.toNat := by
  have hsize := h.size
  have hup : (pgroundup sz).toNat = (sz.toNat + 4095) / 4096 * 4096 := toNat_pgroundup (by omega)
  have himage : Image K d (pgroundup sz) m role := by
    refine ⟨h.owned, h.live, by omega, fun va hva hlt => h.below va hva (by omega),
      fun va hva hle => h.above va hva (by omega)⟩
  have hnew : (pgroundup sz + 2 * pgsize).toNat = (pgroundup sz).toNat + 8192 := by
    rw [BitVec.toNat_add]
    show ((pgroundup sz).toNat + 8192) % 2 ^ 32 = _
    omega
  unfold Xv6.allocStack at hrun
  split at hrun
  · cases hrun
  rename_i sz1 m1 halloc
  obtain ⟨role1, howned, hwithin, hgrown⟩ := himage.alloc halloc
  split at hrun
  · cases hrun
    exact ⟨role1, howned, hwithin, fun _ hc => by cases hc⟩
  rename_i hzero
  obtain ⟨himage1, hge⟩ := hgrown hzero
  have hroom : 8192 ≤ sz1.toNat := by omega
  obtain ⟨m2, hclear, heq⟩ := map_eq_some_iff.mp hrun
  cases heq
  have hguard : (sz1 - 2 * pgsize).toNat < sz1.toNat := by
    have htwo : (2 * pgsize : Word).toNat = 8192 := by decide
    rw [BitVec.toNat_sub, htwo]
    omega
  obtain ⟨himage2, hwithin2⟩ := himage1.clearpteu hguard hclear
  refine ⟨role1, himage2.owned, hwithin.trans hwithin2, fun sz' hsz' => ?_⟩
  cases hsz'
  exact ⟨himage2, hroom⟩

/-! ### Arguments -/

theorem toNat_sub_pgrounddown (va : Word) : (va - pgrounddown va).toNat = va.toNat % 4096 := by
  have hdown := toNat_pgrounddown va
  have hlt : va.toNat < 4294967296 := va.isLt
  rw [BitVec.toNat_sub, hdown]
  omega

/-- **`copyout`** below the size writes to pages of the image. -/
theorem Image.copyoutLoop : ∀ (n : Nat) {m : Kmem M} {va : Word} {l : List Byte}
    {b : Bool} {m' : Kmem M}, Image K d sz m role → va.toNat + l.length ≤ sz.toNat →
    Xv6.copyoutLoop cur d n m va l = some (b, m') →
    Image K d sz m' role ∧ Within d m role m' role := by
  intro n
  induction n with
  | zero =>
    intro m va l b m' h _ hrun
    cases l with
    | nil =>
      cases hrun
      exact ⟨h, .refl _ _ _⟩
    | cons x l => cases hrun
  | succ n ih =>
    intro m va l b m' h hin hrun
    cases l with
    | nil =>
      cases hrun
      exact ⟨h, .refl _ _ _⟩
    | cons x l =>
      have hdown := toNat_pgrounddown va
      have hoff := toNat_sub_pgrounddown va
      have hsize := h.size
      rw [length_cons] at hin
      obtain ⟨t, u, ht, hu, hpte, hframe⟩ := h.entry (show (pgrounddown va).toNat < _ by omega)
      have hwalk := h.owned.walkpgdir_found ht false
      unfold Xv6.copyoutLoop uva2ka at hrun
      dsimp only at hrun
      rw [hwalk] at hrun
      dsimp only [pteKa, Kmem.load] at hrun
      rw [if_neg (not_not_intro hpte)] at hrun
      by_cases huser : m.mem t (ptx (pgrounddown va)) &&& pteU = 0
      · rw [if_pos huser] at hrun
        cases hrun
        exact ⟨h, .refl _ _ _⟩
      rw [if_neg huser, hframe] at hrun
      dsimp only [map_some] at hrun
      obtain ⟨hstored, hwithin⟩ := h.write hu
        (freelist_storeBytes u ((x :: l).take (4096 - (va - pgrounddown va).toNat)) m
          (va - pgrounddown va).toNat)
        fun q hq => mem_storeBytes_of_ne hq _ m _
      have hnext : (pgrounddown va + pgsize).toNat = va.toNat / 4096 * 4096 + 4096 := by
        rw [toNat_add_pgsize (by omega), hdown]
      by_cases hmore : (x :: l).length ≤ 4096 - (va - pgrounddown va).toNat
      · rw [drop_of_length_le hmore] at hrun
        have hlast : Xv6.copyoutLoop cur d n
            (m.storeBytes u (va - pgrounddown va).toNat
              ((x :: l).take (4096 - (va - pgrounddown va).toNat)))
            (pgrounddown va + pgsize) [] = some (true, m.storeBytes u (va - pgrounddown va).toNat
              ((x :: l).take (4096 - (va - pgrounddown va).toNat))) := by
          cases n with
          | zero => rfl
          | succ n => rfl
        rw [hlast] at hrun
        cases hrun
        exact ⟨hstored, hwithin⟩
      · obtain ⟨himage, hrest⟩ := ih hstored (by
          rw [length_drop, length_cons, hnext, hoff]
          rw [length_cons, hoff] at hmore
          omega) hrun
        exact ⟨himage, hwithin.trans hrest⟩

/-- Masking the low bits off takes the remainder away. -/
theorem toNat_and_not_three (a : Word) : (a &&& ~~~3).toNat = a.toNat / 4 * 4 := by
  have hsum := Jos.toNat_and_not_add a 3
  have hlow : (a &&& 3).toNat = a.toNat % 4 := by
    rw [BitVec.toNat_and]
    exact Nat.and_two_pow_sub_one_eq_mod _ 2
  omega

/-- What the arguments take up on the stack, at most. -/
def argBytes (argv : List (List Byte)) : Nat := (argv.map fun s => s.length + 8).sum + 16

theorem Image.pushArgs (argv : List (List Byte)) : ∀ {argc : Nat} {m : Kmem M}
    {sp : Word} {ustack : List Word} {r : Option (Word × List Word)} {m' : Kmem M},
    Image K d sz m role → (argv.map fun s => s.length + 8).sum ≤ sp.toNat → sp.toNat ≤ sz.toNat →
    Xv6.pushArgs cur d argv argc m sp ustack = some (r, m') →
    Image K d sz m' role ∧ Within d m role m' role ∧ ∀ sp' ptrs, r = some (sp', ptrs) →
      sp.toNat + 4 * ptrs.length ≤
          sp'.toNat + (argv.map fun s => s.length + 8).sum + 4 * ustack.length ∧
        sp'.toNat ≤ sp.toNat := by
  induction argv with
  | nil =>
    intro argc m sp ustack r m' h _ _ hrun
    cases hrun
    refine ⟨h, .refl _ _ _, fun sp' ptrs heq => ?_⟩
    cases heq
    exact ⟨by simp, le_rfl⟩
  | cons s argv ih =>
    intro argc m sp ustack r m' h hroom hle hrun
    rw [map_cons, sum_cons] at hroom
    unfold Xv6.pushArgs at hrun
    split at hrun
    · cases hrun
      exact ⟨h, .refl _ _ _, fun _ _ hc => by cases hc⟩
    have hsp : ((sp - BitVec.ofNat 32 (s.length + 1)) &&& ~~~3).toNat =
        (sp.toNat - (s.length + 1)) / 4 * 4 := by
      rw [toNat_and_not_three, BitVec.toNat_sub, BitVec.toNat_ofNat]
      omega
    dsimp only at hrun
    generalize (sp - BitVec.ofNat 32 (s.length + 1)) &&& ~~~3 = sp1 at hrun hsp
    split at hrun
    · cases hrun
    · rename_i m1 hcopy
      cases hrun
      obtain ⟨himage, hwithin⟩ := Image.copyoutLoop _ h
        (by rw [length_append, length_singleton]; omega) hcopy
      exact ⟨himage, hwithin, fun _ _ hc => by cases hc⟩
    · rename_i m1 hcopy
      obtain ⟨himage, hwithin⟩ := Image.copyoutLoop _ h
        (by rw [length_append, length_singleton]; omega) hcopy
      obtain ⟨himage', hwithin', hres⟩ := ih himage (by omega) (by omega) hrun
      refine ⟨himage', hwithin.trans hwithin', fun sp' ptrs heq => ?_⟩
      obtain ⟨hlow, hhigh⟩ := hres sp' ptrs heq
      rw [length_append, length_singleton] at hlow
      rw [map_cons, sum_cons]
      omega

theorem length_wordBytes (l : List Word) : (l.flatMap wordBytes).length = 4 * l.length := by
  induction l with
  | nil => rfl
  | cons w l ih =>
    rw [flatMap_cons, length_append, ih, length_cons]
    show 4 + _ = _
    omega

theorem Image.pushFrame {r : Option Word} (h : Image K d sz m role)
    (hroom : argBytes argv ≤ sz.toNat) (hrun : Xv6.pushFrame cur d argv m sz = some (r, m')) :
    Image K d sz m' role ∧ Within d m role m' role := by
  unfold argBytes at hroom
  have hsize := h.size
  unfold Xv6.pushFrame at hrun
  split at hrun
  · cases hrun
  · rename_i m1 hpush
    cases hrun
    obtain ⟨himage, hwithin, -⟩ := Image.pushArgs argv h (by omega) le_rfl hpush
    exact ⟨himage, hwithin⟩
  · rename_i sp ptrs m1 hpush
    obtain ⟨himage, hwithin, hres⟩ := Image.pushArgs argv h (by omega) le_rfl hpush
    obtain ⟨hlow, hhigh⟩ := hres sp ptrs rfl
    rw [length_nil] at hlow
    have hlen : (userStack sp ptrs).length = ptrs.length + 4 := by
      unfold userStack
      simp only [length_append, length_cons, length_nil]
      omega
    have hsp : (sp - BitVec.ofNat 32 (4 * (userStack sp ptrs).length)).toNat =
        sp.toNat - 4 * (ptrs.length + 4) := by
      rw [hlen, BitVec.toNat_sub, BitVec.toNat_ofNat]
      omega
    dsimp only at hrun
    split at hrun
    · cases hrun
    all_goals
      rename_i m2 hcopy
      cases hrun
      obtain ⟨himage', hwithin'⟩ := Image.copyoutLoop _ himage
        (by rw [length_wordBytes, hsp, hlen]; omega) hcopy
      exact ⟨himage', hwithin.trans hwithin'⟩

/-! ### `exec` -/

/-- **Building the image** takes pages for the new directory alone. -/
theorem Image.buildImage {elf : Elfhdr} {r : Option (Word × Word)} (h : Image K d 0 m role)
    (hargs : argBytes argv ≤ 8192) (hrun : Xv6.buildImage K m cur d data elf argv = some (r, m')) :
    ∃ role', Owned K m' role' ∧ Within d m role m' role' := by
  unfold Xv6.buildImage at hrun
  split at hrun
  · cases hrun
  · rename_i m1 hload
    cases hrun
    obtain ⟨role1, howned, hwithin, -⟩ := Image.loadSegments _ h hload
    exact ⟨role1, howned, hwithin⟩
  · rename_i sz1 m1 hload
    obtain ⟨role1, -, hwithin1, himage1⟩ := Image.loadSegments _ h hload
    split at hrun
    · cases hrun
    · rename_i m2 hstack
      cases hrun
      obtain ⟨role2, howned, hwithin2, -⟩ := (himage1 sz1 rfl).allocStack hstack
      exact ⟨role2, howned, hwithin1.trans hwithin2⟩
    · rename_i sz2 m2 hstack
      obtain ⟨role2, -, hwithin2, himage2⟩ := (himage1 sz1 rfl).allocStack hstack
      obtain ⟨himage, hroom⟩ := himage2 sz2 rfl
      obtain ⟨x, hpush, heq⟩ := map_eq_some_iff.mp hrun
      cases heq
      obtain ⟨himage3, hwithin3⟩ := himage.pushFrame (hargs.trans hroom) hpush
      exact ⟨role2, himage3.owned, (hwithin1.trans hwithin2).trans hwithin3⟩

/-- The pages of others stay theirs when a directory is given up. -/
theorem released_pgdir {o : Owner} {d' : Ppn M} (h : role d' = .pgdir o) (hne : d' ≠ d) :
    released d role d' = .pgdir o := by
  unfold released
  rw [if_neg, h]
  rintro (hc | ⟨i, hi⟩ | ⟨i, j, hu⟩)
  · exact hne hc
  · rw [h] at hi
    cases hi
  · rw [h] at hu
    cases hu

/-- **`exec`** leaves the process with its old directory or with a new one, and the other processes
with theirs. -/
theorem Owned.exec {p p' : Proc M} {k : ProcIdx} {old : Ppn M} {b : Bool}
    {file : Option (List Byte)} {path : List Byte} (h : Owned K m role)
    (hold : p.pgdir = some old) (hrole : role old = .pgdir (.proc k))
    (hargs : argBytes argv ≤ 8192) (hrun : Xv6.exec K m p file path argv = some (b, m', p')) :
    p'.state = p.state ∧ p'.ofile = p.ofile ∧ p'.pid = p.pid ∧
    ∃ d role', p'.pgdir = some d ∧ role' d = .pgdir (.proc k) ∧ Owned K m' role' ∧
      ∀ k' d', k' ≠ k → role d' = .pgdir (.proc k') → role' d' = .pgdir (.proc k') := by
  unfold Xv6.exec at hrun
  split at hrun
  · cases hrun
    exact ⟨rfl, rfl, rfl, old, role, hold, hrole, h, fun _ _ _ hd' => hd'⟩
  rename_i data elf _
  rcases h.setupkvm with ⟨m1, hset, howned, -⟩ | ⟨d, m1, role1, hset, hbuilds, hnone, -⟩
  · rw [hset] at hrun
    cases hrun
    exact ⟨rfl, rfl, rfl, old, role, hold, hrole, howned, fun _ _ _ hd' => hd'⟩
  rw [hset, hold] at hrun
  dsimp only at hrun
  have himage : Image K d 0 m1 role1 :=
    ⟨hbuilds.owned, hbuilds.live, by decide, fun _ _ hc => absurd hc (Nat.not_lt_zero _),
      fun va hva _ => hnone va hva⟩
  have hkeep : ∀ {k' d'}, role d' = .pgdir (.proc k') → role1 d' = .pgdir (.proc k') := by
    intro k' d' hd'
    rw [hbuilds.role_eq (by simp [hd']), hd']
  split at hrun
  · cases hrun
  · -- the new directory is given up
    rename_i m2 hbuild
    obtain ⟨role2, howned2, hwithin⟩ := himage.buildImage hargs hbuild
    obtain ⟨m3, hfree, howned3, -⟩ := howned2.freevm (hwithin.live hbuilds.live)
    rw [hfree] at hrun
    cases hrun
    have hback : ∀ {k' d'}, role d' = .pgdir (.proc k') →
        released d role2 d' = .pgdir (.proc k') := fun hd' =>
      released_pgdir (hwithin.pgdir_other (hkeep hd')) (hbuilds.live_other ⟨_, hd'⟩).2
    exact ⟨rfl, rfl, rfl, old, _, hold, hback hrole, howned3, fun _ _ _ hd' => hback hd'⟩
  · -- the old one is
    rename_i sz sp m2 hbuild
    obtain ⟨role2, howned2, hwithin⟩ := himage.buildImage hargs hbuild
    have hdir : role2 d = .pgdir .temp := by
      rw [(hwithin.kept d (by simp [hbuilds.dir]) (by simp [Role.Mine, hbuilds.dir])).1,
        hbuilds.dir]
    have hne : old ≠ d := (hbuilds.live_other ⟨_, hrole⟩).2
    obtain ⟨m3, hfree, howned3, -⟩ := howned2.freevm ⟨_, hwithin.pgdir_other (hkeep hrole)⟩
    rw [hfree] at hrun
    cases hrun
    have hdir3 : released old role2 d = .pgdir .temp := released_pgdir hdir hne.symm
    have hown : Owned K m' (Function.update (released old role2) d (.pgdir (.proc k))) :=
      howned3.reown hdir3
    refine ⟨rfl, rfl, rfl, d, _, rfl, Function.update_self _ _ _, hown, fun k' d' hk' hd' => ?_⟩
    have hdd : d' ≠ d := (hbuilds.live_other ⟨_, hd'⟩).2
    have hdo : d' ≠ old := ne_of_role hd' hrole (by simp [hk'])
    rw [Function.update_of_ne hdd]
    exact released_pgdir (hwithin.pgdir_other (hkeep hd')) hdo

end Xv6
