/-
Addresses for devices.

`mmio_map_region` hands out the 4 MB between `MMIOBASE` and `MMIOLIM` from the bottom to the top.
They belong to one directory entry, so there is one page table, which the first call may have to
make, and every call lays its pages over that table above all that was handed out before.

The size is rounded up before it is looked at, in 32 bits.  The last 4095 sizes become 0.  Such a
call neither panics nor maps anything, and it returns an address at which the next region starts as
well.
-/
import Os.Proofs.Jos.KernMap

namespace Jos

open BitVec hiding not_or

open Runs List

variable {M : Machine} {pm pm' : Pmap M} {t : Ppn M} {va pa perm : Word} {n : Nat}

/-! ### The table of the devices -/

/-- The directory entry of the devices leads to a table, or one can be made. -/
structure MmioReady (pm : Pmap M) : Prop where
  table : present (pm.load (pm.kernPgdir, pdx mmiobase)) →
    ∃ t, entry pm pm.kernPgdir (pdx mmiobase) = some t ∧ t ≠ pm.kernPgdir ∧
      pm.load (pm.kernPgdir, pdx mmiobase) &&& 7 = 7
  head : ¬ present (pm.load (pm.kernPgdir, pdx mmiobase)) → pm.pageFreeList ≠ some pm.kernPgdir

/-- An address of the devices. -/
abbrev OfDevice (a : Word) : Prop := pdx a = pdx mmiobase

theorem MmioReady.ne_dir (h : MmioReady pm)
    (ht : entry pm pm.kernPgdir (pdx mmiobase) = some t) : t ≠ pm.kernPgdir := by
  obtain ⟨t', ht', hne, -⟩ := h.table (entryOf_eq_some.mp ht).1
  rw [ht] at ht'
  cases ht'
  exact hne

section Store

variable {j : Fin nptentries} {w : Word}

section

variable (h : MmioReady pm) (ht : entry pm pm.kernPgdir (pdx mmiobase) = some t)
include h ht

theorem MmioReady.load_dir (k : Fin npdentries) :
    (pm.store (t, j) w).load (pm.kernPgdir, k) = pm.load (pm.kernPgdir, k) :=
  load_store_of_ne (fun hc => h.ne_dir ht (congrArg Prod.fst hc).symm) w

theorem MmioReady.entry_store :
    entry (pm.store (t, j) w) pm.kernPgdir (pdx mmiobase) = some t := by
  rw [entry, h.load_dir ht]
  exact ht

theorem MmioReady.store :
    MmioReady (pm.store (t, j) w) where
  table _ := by
    obtain ⟨t', ht', hne, hall⟩ := h.table (entryOf_eq_some.mp ht).1
    have hload : (pm.store (t, j) w).load (pm.kernPgdir, pdx mmiobase) &&& 7 = 7 := by
      rw [h.load_dir ht]
      exact hall
    exact ⟨t, h.entry_store ht, h.ne_dir ht, hload⟩
  head hpres := by
    have hpres' : ¬ present ((pm.store (t, j) w).load (pm.kernPgdir, pdx mmiobase)) := hpres
    rw [h.load_dir ht] at hpres'
    exact absurd (entryOf_eq_some.mp ht).1 hpres'

theorem MmioReady.leaf_store (hva : OfDevice va) {a : Word}
    (ha : OfDevice a) :
    leaf (pm.store (t, ptx va) w) a = if SamePage a va then w else leaf pm a := by
  have hpte := pteAt_store (w := w) (hva.symm ▸ ht) (h.ne_dir ht).symm fun _ =>
    ⟨rfl, ha.trans hva.symm⟩
  simp only [true_and] at hpte
  exact hpte

end

end Store

/-- The walk finds the table or makes it, and no address of a device notices. -/
theorem MmioReady.walk {pte : PtePtr M} (h : MmioReady pm) (hva : OfDevice va)
    (hw : pgdirWalk pm pm.kernPgdir va true = some (some pte, pm')) :
    ∃ t, pte = (t, ptx va) ∧ pm'.kernPgdir = pm.kernPgdir ∧
      entry pm' pm'.kernPgdir (pdx mmiobase) = some t ∧ MmioReady pm' ∧
      ∀ a, OfDevice a → leaf pm' a = leaf pm a := by
  rcases pgdirWalk_true hw with ⟨t, ht, hpte, rfl⟩ | ⟨-, -, hc, -⟩ |
    ⟨hpres, p, pm1, halloc, hpte, rfl⟩
  · rw [hva] at ht
    exact ⟨t, Option.some.inj hpte, rfl, ht, h, fun _ _ => rfl⟩
  · simp at hc
  · rw [hva] at hpres
    obtain ⟨hhead, hmem, hkern⟩ := pageAlloc_zero_mem halloc
    have hp : p ≠ pm.kernPgdir := fun hc => h.head hpres (hc ▸ hhead)
    have hdir : (installTable pm1 pm.kernPgdir va p).load (pm.kernPgdir, pdx mmiobase)
        = page2pa p ||| pteP ||| pteW ||| pteU := by
      rw [← hva]
      exact load_store_self _ _ _
    have hentry : entry (installTable pm1 pm.kernPgdir va p) pm.kernPgdir (pdx mmiobase)
        = some p := by
      rw [entry, hdir]
      exact entryOf_pde p
    have hk : (installTable pm1 pm.kernPgdir va p).kernPgdir = pm.kernPgdir := hkern
    refine ⟨p, Option.some.inj hpte, hk, by rw [hk]; exact hentry, ⟨fun _ => ?_, fun hc => ?_⟩,
      fun a ha => ?_⟩
    · rw [hk]
      refine ⟨p, hentry, hp, ?_⟩
      rw [hdir, pde_and_seven]
    · rw [hk] at hc
      exact absurd (entryOf_eq_some.mp hentry).1 hc
    · rw [leaf_of_entry (t := p) (by rw [hk, ha]; exact hentry),
        leaf_of_none (by rw [ha]; exact entryOf_of_not_present hpres)]
      rw [load_installTable halloc fun hc => hp (congrArg Prod.fst hc), if_pos rfl]

/-- **A region of device addresses**, laid over the table. -/
theorem MmioReady.bootMapLoop (n : Nat) : ∀ {pm pm' : Pmap M} {va pa : Word}, MmioReady pm →
    va.toNat + 4096 * n ≤ 2 ^ 32 → (∀ a, InPages va n a → OfDevice a) →
    Jos.bootMapLoop pm.kernPgdir perm n va pa pm = some pm' →
    MmioReady pm' ∧ ∀ a, OfDevice a → leaf pm' a = overlay (leaf pm a) va n pa perm a := by
  induction n with
  | zero =>
    intro pm pm' va pa h _ _ hloop
    cases hloop
    refine ⟨h, fun a _ => ?_⟩
    rw [overlay_of_out (by omega)]
  | succ n ih =>
    intro pm pm' va pa h hend hin hloop
    have hva : OfDevice va := hin va (by omega)
    rw [Jos.bootMapLoop] at hloop
    split at hloop
    · rename_i pte pm1 hw
      obtain ⟨t, rfl, hkern, ht, hready, hleaf⟩ := h.walk hva hw
      have hstore := hready.store (j := ptx va) (w := pa ||| perm ||| pteP) ht
      have hnext := toNat_add_pgsize hend
      rw [← hkern] at hloop
      obtain ⟨hready', hleaf'⟩ :=
        ih hstore (by omega) (fun a ha => hin a (by omega)) hloop
      refine ⟨hready', fun a ha => ?_⟩
      rw [hleaf' a ha, hready.leaf_store ht hva ha, hleaf a ha, overlay_succ hend]
    · simp at hloop

/-! ### The calls -/

/-- The arguments of a call. -/
structure MmioRequest where
  pa : Word
  size : Word
  aligned : pgoff pa = 0

/-- One call after the other, each with the address it returned. -/
def mmioCalls : Mmio M → List MmioRequest → Option (List (MmioRequest × Word) × Mmio M) :=
  calls fun m q => mmioMapRegion m q.pa q.size

/-- The flags of the pages of a device. -/
def mmioFlags : Word := pteW ||| ptePcd ||| ptePwt

/-- The region at `r` is what was asked for. -/
structure Reserved (pm : Pmap M) (q : MmioRequest) (r : Word) : Prop where
  low : mmiobase.toNat ≤ r.toNat
  high : r.toNat + q.size.toNat ≤ mmiolim.toNat
  mapped : ∀ a : Word, r.toNat ≤ a.toNat → a.toNat < r.toNat + q.size.toNat →
    hwTranslate pm pm.kernPgdir a = some { pa := q.pa + (a - r), user := false, write := true }
  flags : ∀ a : Word, r.toNat ≤ a.toNat → a.toNat < r.toNat + q.size.toNat →
    leaf pm a &&& 0xFFF = mmioFlags ||| pteP

/-- The regions of two calls have no address in common. -/
def Apart (x y : MmioRequest × Word) : Prop :=
  ∀ a : Nat, ¬ ((x.2.toNat ≤ a ∧ a < x.2.toNat + x.1.size.toNat) ∧
    (y.2.toNat ≤ a ∧ a < y.2.toNat + y.1.size.toNat))

/-- Between the calls. -/
structure MmioInv (m : Mmio M) : Prop where
  ready : MmioReady m.pm
  aligned : m.base.toNat % 4096 = 0
  low : mmiobase.toNat ≤ m.base.toNat
  high : m.base.toNat ≤ mmiolim.toNat

/-- The size of a request in pages. -/
def MmioRequest.pages (q : MmioRequest) : Nat := (roundup q.size pgsize).toNat / 4096

theorem ofDevice_iff {a : Word} :
    OfDevice a ↔ mmiobase.toNat ≤ a.toNat ∧ a.toNat < mmiolim.toNat := by
  have hbase : mmiobase.toNat = 4018143232 := by decide
  have hlim : mmiolim.toNat = 4022337536 := by decide
  have hiff := pdx_ne_mmiobase_iff (a := a)
  constructor
  · intro h
    by_contra hc
    exact hiff.mpr (by omega) h
  · intro h
    by_contra hc
    have := hiff.mp hc
    omega

/-- **One call**: the region is the next one. -/
theorem MmioInv.mmioMapRegion {m m' : Mmio M} {q : MmioRequest} {r : Word} (h : MmioInv m)
    (hcall : Jos.mmioMapRegion m q.pa q.size = some (r, m')) :
    r = m.base ∧ MmioInv m' ∧ m'.base.toNat = m.base.toNat + 4096 * q.pages ∧
      ∀ a, OfDevice a → leaf m'.pm a = overlay (leaf m.pm a) m.base q.pages q.pa mmioFlags a := by
  have hmod := toNat_roundup_mod q.size
  have hpages : (roundup q.size pgsize / pgsize).toNat = q.pages := toNat_udiv
  unfold Jos.mmioMapRegion at hcall
  simp only at hcall
  split at hcall
  · simp at hcall
  rename_i hfits
  rw [not_or, BitVec.not_lt, BitVec.not_lt, le_def, le_def] at hfits
  -- without a carry the region ends where the sum says
  have hsum : (m.base + roundup q.size pgsize).toNat = m.base.toNat + 4096 * q.pages := by
    have hfit := hfits.2
    rw [toNat_add] at hfit ⊢
    unfold MmioRequest.pages
    omega
  rw [hsum] at hfits
  split at hcall
  · simp at hcall
  rename_i pm' hmap
  cases hcall
  have hlim : mmiolim.toNat = 4022337536 := by decide
  have hin : ∀ a, InPages m.base q.pages a → OfDevice a := by
    intro a ha
    rw [inPages_iff rfl h.aligned] at ha
    have hlow := h.low
    exact ofDevice_iff.mpr (by omega)
  obtain ⟨hready, hleaf⟩ := h.ready.bootMapLoop q.pages (by omega) hin hmap
  have hlow := h.low
  have haligned := h.aligned
  exact ⟨rfl, ⟨hready, by rw [hsum]; omega, by rw [hsum]; omega, by rw [hsum]; exact hfits.1⟩,
    hsum, hleaf⟩

/-- A size that is not near the end of the range is rounded up to enough pages. -/
theorem MmioRequest.size_le {q : MmioRequest} (h : q.size.toNat ≤ 0xFFFFF000) :
    q.size.toNat ≤ 4096 * q.pages := by
  have hround := toNat_roundup h
  unfold MmioRequest.pages
  omega

theorem overlay_and_flags {x a : Word} (hin : InPages va n a)
    (hpa : pgoff pa = 0) : overlay x va n pa mmioFlags a &&& 0xFFF = mmioFlags ||| pteP := by
  have haligned : (pa + pageDist va a) &&& 0xFFF = 0 := by
    show pgoff _ = 0
    rw [pgoff_eq_zero_iff] at hpa ⊢
    rw [toNat_add, toNat_pageDist hin.1]
    omega
  rw [overlay_of_in hin, BitVec.or_assoc, and_or_distrib_right, haligned]
  decide

/-- A region that has been laid over the table, and that nothing has been laid over since. -/
theorem MmioReady.reserved {q : MmioRequest} {r : Word} {x : Word → Word} (h : MmioReady pm)
    (hsize : q.size.toNat ≤ 0xFFFFF000) (haligned : r.toNat % 4096 = 0)
    (hlow : mmiobase.toNat ≤ r.toNat) (hhigh : r.toNat + 4096 * q.pages ≤ mmiolim.toNat)
    (hleaf : ∀ a, OfDevice a → a.toNat < r.toNat + 4096 * q.pages →
      leaf pm a = overlay (x a) r q.pages q.pa mmioFlags a) : Reserved pm q r := by
  have hle := q.size_le hsize
  have hin : ∀ a : Word, r.toNat ≤ a.toNat → a.toNat < r.toNat + q.size.toNat →
      InPages r q.pages a ∧ OfDevice a := by
    intro a hge hlt
    exact ⟨(inPages_iff rfl haligned).mpr (by omega), ofDevice_iff.mpr (by omega)⟩
  refine ⟨hlow, by omega, fun a hge hlt => ?_, fun a hge hlt => ?_⟩
  · obtain ⟨hpages, hdev⟩ := hin a hge hlt
    have hready : present (pm.load (pm.kernPgdir, pdx a)) →
        ∃ t, entry pm pm.kernPgdir (pdx a) = some t ∧ pm.load (pm.kernPgdir, pdx a) &&& 7 = 7 := by
      rw [hdev]
      intro hpres
      obtain ⟨t, ht, -, hall⟩ := h.table hpres
      exact ⟨t, ht, hall⟩
    rw [hwTranslate_eq_ofPte hready, hleaf a hdev (by omega), overlay_of_in hpages,
      ofPte_region hpages (pgoff_eq_zero_iff.mpr haligned) q.aligned (by decide)]
    rfl
  · obtain ⟨hpages, hdev⟩ := hin a hge hlt
    rw [hleaf a hdev (by omega), overlay_and_flags hpages q.aligned]

theorem MmioInv.mmioCalls {qs : List MmioRequest} : ∀ {m m' : Mmio M}
    {rs : List (MmioRequest × Word)}, MmioInv m → Jos.mmioCalls m qs = some (rs, m') →
    MmioInv m' ∧ m.base.toNat ≤ m'.base.toNat ∧
      ∀ a, OfDevice a → a.toNat < m.base.toNat → leaf m'.pm a = leaf m.pm a := by
  induction qs with
  | nil =>
    intro m m' rs h hcalls
    cases hcalls
    exact ⟨h, le_rfl, fun _ _ _ => rfl⟩
  | cons q qs ih =>
    intro m m' rs h hcalls
    obtain ⟨r, m1, rs1, hcall, hrest, -⟩ := calls_cons hcalls
    obtain ⟨-, hinv, hbase, hleaf⟩ := h.mmioMapRegion hcall
    obtain ⟨hinv', hle, hkeep⟩ := ih hinv hrest
    refine ⟨hinv', by omega, fun a ha hlt => ?_⟩
    rw [hkeep a ha (by omega), hleaf a ha, overlay_of_out]
    rw [inPages_iff rfl h.aligned]
    omega

/-- **All regions of a sequence of calls** stay as they were asked for, one above the other. -/
theorem MmioInv.reserved {qs : List MmioRequest} : ∀ {m m' : Mmio M}
    {rs : List (MmioRequest × Word)}, MmioInv m → Jos.mmioCalls m qs = some (rs, m') →
    (∀ q ∈ qs, q.size.toNat ≤ 0xFFFFF000) →
    (∀ x ∈ rs, Reserved m'.pm x.1 x.2 ∧ m.base.toNat ≤ x.2.toNat) ∧ rs.Pairwise Apart := by
  induction qs with
  | nil =>
    intro m m' rs h hcalls _
    cases hcalls
    exact ⟨fun x hx => absurd hx not_mem_nil, List.Pairwise.nil⟩
  | cons q qs ih =>
    intro m m' rs h hcalls hsizes
    obtain ⟨r, m1, rs1, hcall, hrest, rfl⟩ := calls_cons hcalls
    obtain ⟨rfl, hinv, hbase, hleaf⟩ := h.mmioMapRegion hcall
    obtain ⟨hinv', -, hkeep⟩ := hinv.mmioCalls hrest
    have hsize := hsizes q mem_cons_self
    obtain ⟨hrest', hpair⟩ := ih hinv hrest fun q' hq' => hsizes q' (mem_cons_of_mem q hq')
    have hfirst : Reserved m'.pm q m.base := by
      refine hinv'.ready.reserved (x := leaf m.pm) hsize h.aligned h.low ?_ ?_
      · rw [← hbase]
        exact hinv.high
      · intro a ha hlt
        rw [hkeep a ha (by omega), hleaf a ha]
    refine ⟨fun x hx => ?_, pairwise_cons.mpr ⟨fun x hx => ?_, hpair⟩⟩
    · rcases mem_cons.mp hx with rfl | hx
      · exact ⟨hfirst, le_rfl⟩
      · obtain ⟨hres, hge⟩ := hrest' x hx
        exact ⟨hres, by omega⟩
    · have hge := (hrest' x hx).2
      have hle := q.size_le hsize
      rintro a ⟨⟨-, hlt⟩, hxge, -⟩
      dsimp only at hlt
      omega

/--
**The regions are as they were asked for and have nothing in common if and only if no size is
among the last 4095**, for every sequence of calls that return.
-/
theorem mmio_regions_iff {qs : List MmioRequest} {rs : List (MmioRequest × Word)} {m : Mmio M}
    (h : MmioReady pm) (hcalls : mmioCalls ⟨mmiobase, pm⟩ qs = some (rs, m)) :
    ((∀ x ∈ rs, Reserved m.pm x.1 x.2) ∧ rs.Pairwise Apart) ↔
      ∀ q ∈ qs, q.size.toNat ≤ 0xFFFFF000 := by
  have haligned : mmiobase.toNat % 4096 = 0 := by decide
  have hle : mmiobase.toNat ≤ mmiolim.toNat := by decide
  have hinv : MmioInv (⟨mmiobase, pm⟩ : Mmio M) := ⟨h, haligned, le_rfl, hle⟩
  constructor
  · rintro ⟨hres, -⟩ q hq
    rw [← calls_fst hcalls] at hq
    obtain ⟨x, hx, rfl⟩ := mem_map.mp hq
    have hhigh := (hres x hx).high
    have hlim : mmiolim.toNat = 4022337536 := by decide
    omega
  · intro hsizes
    obtain ⟨hres, hpair⟩ := hinv.reserved hcalls hsizes
    exact ⟨fun x hx => (hres x hx).1, hpair⟩

theorem mmioReady_fresh : MmioReady (Kern.fresh 8).pm where
  table hpres := absurd hpres (by decide)
  head _ := by decide

/-- The local APIC and the I/O APIC: a page and two pages. -/
theorem mmio_regions_iff_apics :
    ∃ rs m, mmioCalls ⟨mmiobase, (Kern.fresh 8).pm⟩
        [⟨0xFEE00000, 4096, by decide⟩, ⟨0xFEC00000, 0x1001, by decide⟩] = some (rs, m) ∧
      (∀ x ∈ rs, Reserved m.pm x.1 x.2) ∧ rs.Pairwise Apart := by
  have heval : ((mmioCalls ⟨mmiobase, (Kern.fresh 8).pm⟩
      [⟨0xFEE00000, 4096, by decide⟩, ⟨0xFEC00000, 0x1001, by decide⟩]).isSome) = true := by
    decide +kernel
  obtain ⟨⟨rs, m⟩, hcalls⟩ := Option.isSome_iff_exists.mp heval
  refine ⟨rs, m, hcalls, (mmio_regions_iff mmioReady_fresh hcalls).mpr ?_⟩
  decide

/-- A request for all of the address space is granted, with no page; the next region starts at the
same address. -/
theorem mmio_size_wraps :
    ∃ m, mmioMapRegion ⟨mmiobase, (Kern.fresh 8).pm⟩ 0xFEE00000 0xFFFFFFFF
        = some (mmiobase, ⟨mmiobase, (Kern.fresh 8).pm⟩) ∧
      mmioMapRegion ⟨mmiobase, (Kern.fresh 8).pm⟩ 0xFEC00000 4096 = some (mmiobase, m) ∧
      ¬ Reserved (Kern.fresh 8).pm ⟨0xFEE00000, 0xFFFFFFFF, by decide⟩ mmiobase := by
  have heval : ((mmioMapRegion ⟨mmiobase, (Kern.fresh 8).pm⟩ 0xFEC00000 4096).map Prod.fst)
      = some mmiobase := by
    decide +kernel
  obtain ⟨⟨r, m⟩, hcall, rfl⟩ := Option.map_eq_some_iff.mp heval
  refine ⟨m, rfl, hcall, fun hres => absurd hres.high (by decide)⟩

end Jos
