/-
Write permission is handed on, not made.

A page can be written below `UTOP` where a slot maps it with `PTE_W`.  `sys_page_map`
checks the slot it takes the page from before it touches the one it enters the page
into, so it only passes on what the source has; all other calls leave the slots alone
or clear them, and `sys_page_alloc` starts with a page nobody has.

Over a run this says that a page which is mapped, but nowhere writable, stays that way
for as long as it stays mapped.  It cannot say more: a page that is unmapped everywhere
is free, and the next `sys_page_alloc` hands it out again, writable.
-/
import Os.Proofs.Jos.Mappings

namespace Jos

open RefMap Runs List Option Function

variable {M : Machine} {s s' : Kern M} {c : CpuIdx} {e : EnvIdx} {r : Ref} {p : Ppn M}

/-- The slot maps the page, with `PTE_W`. -/
def WritableAt (s : Kern M) (r : Ref) (p : Ppn M) : Prop :=
  s.refs r = some p ∧ s.ptes r &&& pteW ≠ 0

instance (s : Kern M) (r : Ref) (p : Ppn M) : Decidable (WritableAt s r p) :=
  inferInstanceAs (Decidable (s.refs r = some p ∧ s.ptes r &&& pteW ≠ 0))

/-- Some environment maps the page. -/
def Mapped (s : Kern M) (p : Ppn M) : Prop := ∃ e i j, s.refs (.leaf e i j) = some p

theorem writableAt_iff :
    WritableAt s r p ↔ entryOf M (s.ptes r) = some p ∧ s.ptes r &&& pteW ≠ 0 := by
  cases r with
  | leaf e i j =>
    unfold WritableAt Kern.refs
    rw [refs_leaf]
  | dir _ => simp [WritableAt, Kern.ptes, Jos.ptes]
  | table _ _ => simp [WritableAt, Kern.ptes, Jos.ptes]
  | inFlight => simp [WritableAt, Kern.ptes, Jos.ptes]

theorem Shrinks.writableAt (h : Shrinks s s') (hw : WritableAt s' r p) : WritableAt s r p := by
  rw [writableAt_iff] at hw ⊢
  rcases h r with heq | heq
  · rwa [heq] at hw
  · rw [heq, entryOf_zero] at hw
    simp at hw

/-- One entry is made: the slots writable now were so before, or the new one is. -/
theorem writableAt_update {slot : Ref} {q : Ppn M} {perm : Word} (hperm : FlagsOnly perm)
    (h : s'.ptes = update s.ptes slot (page2pa q ||| perm ||| pteP))
    (hw : WritableAt s' r p) : WritableAt s r p ∨ p = q ∧ perm &&& pteW ≠ 0 := by
  rw [writableAt_iff, h, update_apply] at hw
  split at hw
  · rw [entryOf_pte q hperm, pte_and_flags q perm (by decide), BitVec.and_or_distrib_right,
      show pteP &&& pteW = 0 by decide] at hw
    obtain ⟨hq, hw⟩ := hw
    exact .inr ⟨(some.inj hq).symm, by simpa using hw⟩
  · exact .inl (writableAt_iff.mpr hw)

/-! ### One call -/

theorem Leaves.shrinks (hx : Excl s.refs) (h : Leaves c s s') : Shrinks s s' := by
  cases h with
  | kill hcur hfree hsched =>
    refine (envFree_shrinks hx hfree).same ?_
    exact ((Resched.setCurenv _ c none).trans (Resched.schedYield hsched)).toSameTables
  | yield hsched => exact Shrinks.of_eq (Resched.schedYield hsched).toSameTables.ptes_eq
  | @fault e d pm tf va _ hcur hd hstore hrun =>
    have hlen : (utfAddr tf.tfEsp).toNat + (utfOf tf va).bytes.length ≤ utop.toNat := by
      exact utfAddr_le _
    have hwrites := storeBytes_writes _ hx (show s.root e = some d from hd) hlen hstore
    have hstored : Shrinks s { s with pm := pm } := .of_eq (hwrites.ptes_eq hx)
    exact hstored.same ((SameTables.modify _ e rfl rfl rfl rfl).trans (SameTables.envRun hrun))

/-- **Where a writable slot comes from**: it was there, or it was passed on by `sys_page_map`
from an environment the caller may name, or it has a new page of `sys_page_alloc`. -/
theorem Call.writableAt {no a1 a2 a3 a4 a5 : Word} (hx : Excl s.refs) (hf : FreeUnused s)
    (h : Call c no a1 a2 a3 a4 a5 s s') (hw : WritableAt s' r p) :
    WritableAt s r p ∨
    (no = sysNoPageMap ∧ ∃ e i j, MayName s c e ∧ WritableAt s (.leaf e i j) p) ∨
    (no = sysNoPageAlloc ∧ s.pm.pageFreeList = some p ∧ s'.pm.mem p = fun _ => 0) := by
  cases h with
  | idle => exact .inl hw
  | @destroy e _ _ _ hd =>
    rcases envDestroy_steps hd with hr | ⟨s1, hfree, hr⟩
    · exact .inl ((Shrinks.of_eq hr.toSameTables.ptes_eq).writableAt hw)
    · exact .inl (((envFree_shrinks hx hfree).same hr.toSameTables).writableAt hw)
  | exofork _ hcall =>
    rcases sysExofork_steps hcall with rfl | ⟨parentId, e, s1, ha, hr⟩
    · exact .inl hw
    · exact .inl (((envAlloc_shrinks hf ha).same hr.toSameTables).writableAt hw)
  | pageAlloc hno hcall =>
    rcases sysPageAlloc_ptes hx hf hcall with heq | ⟨q, slot, hhead, hmem, -, hperm, heq⟩
    · exact .inl ((Shrinks.of_eq heq).writableAt hw)
    · rcases writableAt_update (flagsOnly_of_syscall hperm) heq hw with hold | ⟨rfl, -⟩
      · exact .inl hold
      · exact .inr (.inr ⟨hno, hhead, hmem⟩)
  | pageMap hno hcall =>
    rcases sysPageMap_ptes hx hf hcall with
      heq | ⟨src, i, j, q, slot, hname, hleaf, hsrc, -, hperm, heq⟩
    · exact .inl ((Shrinks.of_eq heq).writableAt hw)
    · rcases writableAt_update (flagsOnly_of_syscall hperm) heq hw with hold | ⟨rfl, hpermW⟩
      · exact .inl hold
      · exact .inr (.inl ⟨hno, src, i, j, hname, hleaf, hsrc hpermW⟩)
  | pageUnmap _ hcall => exact .inl ((sysPageUnmap_shrinks hx hcall).writableAt hw)
  | setStatus _ hcall =>
    rcases sysEnvSetStatus_cases hcall with rfl | ⟨st, e, -, -, rfl⟩
    · exact .inl hw
    · have hsame : SameTables s (s.setStatus e st) := .modify s e rfl rfl rfl rfl
      exact .inl ((Shrinks.of_eq hsame.ptes_eq).writableAt hw)

/-! ### Events -/

/-- Nobody can write the page. -/
def ReadOnly (s : Kern M) (p : Ppn M) : Prop := ∀ r, ¬ WritableAt s r p

/-- Some environment other than `e` maps the page. -/
def MappedElsewhere (e : EnvIdx) (s : Kern M) (p : Ppn M) : Prop :=
  ∃ e' i j, e' ≠ e ∧ s.refs (.leaf e' i j) = some p

theorem ReadOnly.shrinks (h : ReadOnly s p) (hs : Shrinks s s') : ReadOnly s' p :=
  fun r hw => h r (hs.writableAt hw)

section Events

variable {A : Set (Ppn M)}

theorem MemInv.freeUnused (h : MemInv A s) : FreeUnused s := by
  obtain ⟨l, hl, -⟩ := h.ledger.free
  exact ⟨l, hl, fun p hp => (h.free_subset hl hp).2⟩

/-- One turn of `region_alloc` enters another page, into another environment. -/
theorem ReadOnly.regionStep {i : Word} {q d : Ppn M} {pm1 pm2 : Pmap M} (h : MemInv A s)
    (hm : MappedElsewhere e s p) (hro : ReadOnly s p) (hd : s.root e = some d) (hi : i < utop)
    (halloc : pageAlloc s.pm 0 = (some q, pm1))
    (hins : pageInsert pm1 d q i (pteW ||| pteU) = some (0, pm2)) :
    MappedElsewhere e { s with pm := pm2 } p ∧ ReadOnly { s with pm := pm2 } p := by
  have hptes := regionStep_ptes h.excl h.freeUnused hd hi halloc hins
  obtain ⟨e', i', j', he', hleaf⟩ := hm
  constructor
  · refine ⟨e', i', j', he', ?_⟩
    have hne : Ref.leaf e' i' j' ≠ .leaf e (upde i hi) (ptx i) := by simp [he']
    show Jos.refs s.root none pm2 _ = some p
    rw [refs_leaf, hptes, update_of_ne hne, ← hleaf]
    exact refs_leaf.symm
  · intro r hw
    rcases writableAt_update (s := s) flagsOnly_regionPerm hptes hw with hold | ⟨rfl, -⟩
    · exact hro r hold
    · exact (h.freeUnused.alloc halloc).2.1 _ hleaf

theorem ReadOnly.loadStep (h : MemInv A s) (hm : MappedElsewhere e s p) (hro : ReadOnly s p)
    (hstep : LoadStep e s s') : MappedElsewhere e s' p ∧ ReadOnly s' p := by
  cases hstep with
  | same hs =>
    refine ⟨?_, hro.shrinks (.of_eq hs.ptes_eq)⟩
    unfold MappedElsewhere
    rw [hs.refs_eq]
    exact hm
  | region hbelow ha =>
    rcases regionAlloc_cases ha with rfl | ⟨d, pm, hd, hloop, rfl⟩
    · exact ⟨hm, hro⟩
    refine (regionLoop_rule (I := fun pm => MemInv A { s with pm := pm } ∧
      MappedElsewhere e { s with pm := pm } p ∧ ReadOnly { s with pm := pm } p)
      ?_ _ ⟨h, hm, hro⟩ hbelow hloop).2
    rintro pm pm1 pm2 q i ⟨h, hm, hro⟩ hi halloc hins
    exact ⟨h.regionStep hd hi halloc hins,
      ReadOnly.regionStep (s := { s with pm := pm }) h hm hro hd hi halloc hins⟩
  | @store _ _ _ pm' hd hva hs =>
    have hwrites := storeBytes_writes _ h.excl hd hva hs
    have hrefs : ({ s with pm := pm' } : Kern M).refs = s.refs := hwrites.refs_eq h.excl
    refine ⟨?_, hro.shrinks (.of_eq (hwrites.ptes_eq h.excl))⟩
    unfold MappedElsewhere
    rw [hrefs]
    exact hm

section

variable (h : MemInv A s) (hm : Mapped s p) (hro : ReadOnly s p)
include h hm hro

theorem ReadOnly.envCreate {img : Image} {type : EnvType}
    (hc : envCreate s img.elf type = some s') : ReadOnly s' p := by
  obtain ⟨e, s1, ha, hload⟩ := envCreate_steps hc
  have hinv := h.envAlloc ha
  have hro1 := hro.shrinks (envAlloc_shrinks h.freeUnused ha)
  have hm1 : MappedElsewhere e s1 p := by
    obtain ⟨q, pm1, -, hnone, -, hview⟩ := envAlloc_view h.slots h.headFresh ha
    obtain ⟨e', i, j, hleaf⟩ := hm
    refine ⟨e', i, j, ?_, ?_⟩
    · -- the slot `env_alloc` takes had no address space
      rintro rfl
      have hroot : s.root e' = none := hnone
      simp [Kern.refs, Jos.refs, tableOf, hroot] at hleaf
    · rw [hview, update_of_ne (by simp)]
      exact hleaf
  clear hc
  have hend : MemInv A s' ∧ MappedElsewhere e s' p ∧ ReadOnly s' p := by
    induction hload with
    | refl => exact ⟨hinv, hm1, hro1⟩
    | tail _ hstep ih => exact ⟨ih.1.loadStep hstep, ih.2.2.loadStep ih.1 ih.2.1 hstep⟩
  exact hend.2.2

theorem ReadOnly.trap {o : Outside} {tf : Trapframe} (huser : tf.tfCs &&& 3 = 3)
    (ht : trap s c o tf = some s') :
    ReadOnly s' p := by
  obtain ⟨e, -, ⟨-, s1, hfree, hsched⟩ | ⟨-, hrest⟩⟩ := trap_cases huser ht
  · have hcpu : SameTables s (s.setCpuStatus c .started) := .setCpus s _
    have hfreed : Shrinks (s.setCpuStatus c .started) s' :=
      (envFree_shrinks (h.same hcpu).excl hfree).same
        ((Resched.setCurenv s1 c none).trans (Resched.schedYield hsched)).toSameTables
    exact (hro.shrinks (.of_eq hcpu.ptes_eq)).shrinks hfreed
  have hentry := sameTables_trapEntry s c e tf
  have h0 := h.same hentry
  have hro0 := hro.shrinks (.of_eq hentry.ptes_eq)
  have hm0 : Mapped (trapEntry s c e tf) p := by
    unfold Mapped
    rw [hentry.refs_eq]
    exact hm
  generalize trapEntry s c e tf = s0 at hrest h0 hro0 hm0
  rcases hrest with hl | ⟨ret, s1, ⟨-, hcall⟩, hret⟩
  · exact hro0.shrinks (hl.shrinks h0.excl)
  have hro1 : ReadOnly s1 p := by
    intro r hw
    obtain ⟨e', i, j, hleaf⟩ := hm0
    rcases hcall.writableAt h0.excl h0.freeUnused hw with
      hold | ⟨-, e1, i1, j1, -, hsrc⟩ | ⟨-, hhead, -⟩
    · exact hro0 r hold
    · exact hro0 _ hsrc
    · exact h0.headFresh p hhead _ hleaf
  have hout : SameTables s1 s' :=
    ((Resched.setEax s1 (some e) ret).trans (Resched.trapReturn hret)).toSameTables
  exact hro1.shrinks (.of_eq hout.ptes_eq)

/-- A page that is mapped and read-only is read-only after the next event. -/
theorem ReadOnly.next {ev : Event} (hroom : RoomFor s ev)
    (hn : next s ev = some s') : ReadOnly s' p := by
  cases ev with
  | create img => exact hro.envCreate h hm hn
  | sched c =>
    simp only [Jos.next] at hn
    split at hn
    · exact hro.shrinks (Shrinks.of_eq (Resched.schedYield hn).toSameTables.ptes_eq)
    · simp at hn
  | store c va b =>
    obtain ⟨e, d, pm, hcur, hcr3, hva, hstore, rfl⟩ := userStore_cases hn
    have hd : (s.envs e).envPgdir = some d := (hroom e hcur).symm.trans hcr3
    have hle : va.toNat + [b].length ≤ utop.toNat := hva hd
    have hwrites := storeBytes_writes _ h.excl (show s.root e = some d from hd) hle hstore
    exact hro.shrinks (.of_eq (hwrites.ptes_eq h.excl))
  | trap c o tf =>
    simp only [Jos.next] at hn
    split at hn
    · rename_i huser
      exact hro.trap h hm huser hn
    · simp at hn

end

end Events

/--
**Write permission is handed on, not made.**  After any call, a slot that maps a page
writable did so before, or the call is `sys_page_map` and some environment the caller
may name had the page writable, or it is `sys_page_alloc` and the page was free and is
all zeros.  And in every run a page that is mapped only read-only is read-only for as
long as it stays mapped.
-/
theorem writable_handed_on :
    (∀ (s : Kern M) c o no a1 a2 a3 a4 a5 f r p, Excl s.refs → FreeUnused s →
      syscall s c o no a1 a2 a3 a4 a5 = some f → WritableAt f.state r p →
      WritableAt s r p ∨
      (no = sysNoPageMap ∧ ∃ e i j, MayName s c e ∧ WritableAt s (.leaf e i j) p) ∨
      (no = sysNoPageAlloc ∧ s.pm.pageFreeList = some p ∧ f.state.pm.mem p = fun _ => 0)) ∧
    ∀ (l : List (Ppn M)) s0 s s' p, MemInit l s0 → Run next RoomFor (envInit s0) s →
      ReadOnly s p → Run next (fun s ev => RoomFor s ev ∧ Mapped s p) s s' → ReadOnly s' p := by
  constructor
  · intro s c o no a1 a2 a3 a4 a5 f r p hx hf h hw
    rcases syscall_cases h with ⟨ret, s', rfl, hcall⟩ | ⟨s', rfl, hleaves⟩
    · exact hcall.writableAt hx hf hw
    · exact .inl ((hleaves.shrinks hx).writableAt hw)
  · intro l s0 s s' p h0 hrun hro hrun'
    have hinv : MemInv {p | p ∈ l} s' ∧ ReadOnly s' p := by
      refine hrun'.inv (I := fun s => MemInv {p | p ∈ l} s ∧ ReadOnly s p)
        ⟨memInv_of_run h0 hrun, hro⟩ fun s ev s' h hok hn => ⟨?_, h.2.next h.1 hok.2 hok.1 hn⟩
      exact next_inv (fun _ _ hstep hI => hI.step hstep) hok.1 (mapPerm_true ev) h.1 hn
    exact hinv.2

/-! ### A page without write permission -/

/-- A program allocates a page at address 0, read-only. -/
def readOnlyPage : Option (Kern (Machine.withFree 16)) :=
  [Event.create Image.bare, .sched 0, .call 0 sysNoPageAlloc 0 0 5 0 0].foldlM next
    (envInit (Kern.fresh 16))

def page16 (n : Fin 17) : Ppn (Machine.withFree 16) := n

/-- It maps the page once more, at the next address. -/
def mapReadOnly (s : Kern (Machine.withFree 16)) : Option (Flow (Machine.withFree 16) Int) :=
  syscall s 0 ⟨0, 0, .zero⟩ sysNoPageMap 0 0 0 0x1000 5

/-- It gives the page back, and allocates a page again. -/
def reallocate : List Event :=
  [.call 0 sysNoPageUnmap 0 0 0 0 0, .call 0 sysNoPageAlloc 0 0 7 0 0]

/-- What the run leaves: the page is page 4, in one slot, and has no write permission there. -/
abbrev ReadOnlyPage (s : Kern (Machine.withFree 16)) : Prop :=
  (s.pm.pages (page16 4)).ppRef = 1 ∧ s.refs (.leaf 0 0 0) = some (page16 4) ∧
    s.ptes (.leaf 0 0 0) &&& pteW = 0 ∧ (mapReadOnly s).isSome = true ∧
    (next s (.call 0 sysNoGetenvid 0 0 0 0 0)).isSome = true ∧
    ((reallocate.foldlM next s).map fun s' =>
      decide (WritableAt s' (.leaf 0 0 0) (page16 4))) = some true

theorem readOnlyPage_eval : (readOnlyPage.map fun s => decide (ReadOnlyPage s)) = some true := by
  decide +kernel

theorem readOnlyPage_run {s : Kern (Machine.withFree 16)} (hs : readOnlyPage = some s) :
    Run next RoomFor (envInit (Kern.fresh 16)) s := by
  refine Run.of_foldlM hs fun s ev hev => ?_
  simp only [mem_cons, not_mem_nil, or_false] at hev
  rcases hev with rfl | rfl | rfl
  · trivial
  · trivial
  · exact fun _ hc => absurd hc (by decide)

/-- A page with one reference is writable where that reference says so. -/
theorem readOnly_of_single {A : Set (Ppn M)} (h : MemInv A s) (href : (s.pm.pages p).ppRef = 1)
    (hr : s.refs r = some p) (hw : s.ptes r &&& pteW = 0) : ReadOnly s p := by
  have hcount := congrArg BitVec.toNat (h.ledger.ref p (h.ledger.managed r p hr))
  have hle := h.bound p
  have hone : (1 : BitVec 16).toNat = 1 := rfl
  rw [href, BitVec.toNat_ofNat, hone] at hcount
  have hrest := refCount_update_none p hr
  rw [if_pos rfl] at hrest
  have hzero : refCount (update s.refs r none) p = 0 := by omega
  intro r' hw'
  have hr' : r' = r := by
    by_contra hne
    refine refCount_eq_zero.mp hzero r' ?_
    rw [update_of_ne hne]
    exact hw'.1
  subst hr'
  exact hw'.2 hw

theorem readOnlyPage_spec : ∃ s, Run next RoomFor (envInit (Kern.fresh 16)) s ∧
    ReadOnlyPage s ∧ ReadOnly s (page16 4) := by
  obtain ⟨s, hs, heval⟩ := map_eq_some_iff.mp readOnlyPage_eval
  have hrun := readOnlyPage_run hs
  have hspec : ReadOnlyPage s := of_decide_eq_true heval
  obtain ⟨href, hleaf, hw, -⟩ := hspec
  exact ⟨s, hrun, of_decide_eq_true heval,
    readOnly_of_single (memInv_of_run (memInit_fresh 16) hrun) href hleaf hw⟩

/-- Mapping the page again, and a further call. -/
theorem writable_handed_on_readOnlyPage :
    ∃ s s' f, Run next RoomFor (envInit (Kern.fresh 16)) s ∧ mapReadOnly s = some f ∧
      (∀ r p, WritableAt f.state r p → WritableAt s r p ∨
        ∃ e i j, MayName s 0 e ∧ WritableAt s (.leaf e i j) p) ∧
      Mapped s (page16 4) ∧ ReadOnly s (page16 4) ∧
      Run next (fun s ev => RoomFor s ev ∧ Mapped s (page16 4)) s s' ∧
      ReadOnly s' (page16 4) := by
  obtain ⟨s, hrun, ⟨-, hleaf, -, hmap, hcall, -⟩, hro⟩ := readOnlyPage_spec
  obtain ⟨f, hf⟩ := isSome_iff_exists.mp hmap
  obtain ⟨s', hs'⟩ := isSome_iff_exists.mp hcall
  have h := memInv_of_run (memInit_fresh 16) hrun
  have hmapped : Mapped s (page16 4) := ⟨0, 0, 0, hleaf⟩
  have hroom : RoomFor s (.call 0 sysNoGetenvid 0 0 0 0 0) := fun _ hc => absurd hc (by decide)
  have hnext : Run next (fun s ev => RoomFor s ev ∧ Mapped s (page16 4)) s s' :=
    Run.start.next ⟨hroom, hmapped⟩ hs'
  refine ⟨s, s', f, hrun, hf, fun r p hw => ?_, hmapped, hro, hnext,
    writable_handed_on.2 _ _ _ _ _ (memInit_fresh 16) hrun hro hnext⟩
  rcases writable_handed_on.1 _ _ _ _ _ _ _ _ _ _ _ _ h.excl h.freeUnused hf hw with
    hold | ⟨-, hsrc⟩ | ⟨hc, -⟩
  · exact .inl hold
  · exact .inr hsrc
  · exact absurd hc (by decide)

/-! ### A directory that maps itself -/

/-- The first entry of the directory is the directory itself, and one page is free. -/
def selfMapped : Kern (Machine.withFree 8) where
  pm :=
    { mem := fun p i => if p = page8 1 ∧ i = 0 then 0x1007 else 0
      pages := fun p => { ppLink := none, ppRef := if p = page8 2 then 0 else 1 }
      pageFreeList := some (page8 2)
      kernPgdir := page8 0 }
  envs := fun e => if e = 0 then .orphan 0x1000 .running (page8 1) else .zero
  envFreeList := none
  cpus := fun c => { cpuStatus := .started, cpuEnv := if c = 0 then some 0 else none }
  cr3 := fun c => if c = 0 then some (page8 1) else none

theorem selfMapped_free : FreeUnused selfMapped := by
  have hload : ∀ x, entryOf (Machine.withFree 8) (selfMapped.pm.load x) ≠ some (page8 2) := by
    intro x
    show entryOf _ (if x.1 = page8 1 ∧ x.2 = 0 then 0x1007 else 0) ≠ _
    split
    · decide
    · exact fun hc => absurd (entryOf_zero.symm.trans hc) (by simp)
  have hroot : ∀ e, selfMapped.root e ≠ some (page8 2) := by
    intro e
    show (if e = 0 then Env.orphan 0x1000 .running (page8 1) else Env.zero).envPgdir ≠ _
    split
    · decide
    · simp [Env.zero]
  refine ⟨[page8 2], by decide, fun p hp r hr => ?_⟩
  rw [mem_singleton.mp hp] at hr
  cases r with
  | dir e => exact hroot e hr
  | table e i =>
    obtain ⟨d, -, hd⟩ := bind_eq_some_iff.mp hr
    exact hload _ hd
  | leaf e i j =>
    obtain ⟨t, -, ht⟩ := bind_eq_some_iff.mp hr
    exact hload _ ht
  | inFlight => simp [Kern.refs, Jos.refs] at hr

/--
Where a directory maps itself, a new page table made by `sys_page_map` is a writable
page.  And in a run, a page that was read-only is writable after it has been free.
-/
theorem writable_gained :
    (FreeUnused selfMapped ∧ (∀ r, ¬ WritableAt selfMapped r (page8 2)) ∧
      ∃ f, syscall selfMapped 0 ⟨0, 0, .zero⟩ sysNoPageMap 0 0 0 0x400000 5 = some f ∧
        WritableAt f.state (.leaf 0 0 1) (page8 2)) ∧
    ∃ s s', Run next RoomFor (envInit (Kern.fresh 16)) s ∧ Mapped s (page16 4) ∧
      ReadOnly s (page16 4) ∧ Run next RoomFor s s' ∧
      WritableAt s' (.leaf 0 0 0) (page16 4) := by
  constructor
  · have heval : ((syscall selfMapped 0 ⟨0, 0, .zero⟩ sysNoPageMap 0 0 0 0x400000 5).map fun f =>
        decide (WritableAt f.state (.leaf 0 0 1) (page8 2))) = some true := by
      decide +kernel
    obtain ⟨f, hf, hw⟩ := map_eq_some_iff.mp heval
    obtain ⟨l, hl, hunused⟩ := selfMapped_free
    obtain ⟨m, rfl, -⟩ := hl.of_head rfl
    exact ⟨selfMapped_free, fun r hr => hunused _ (by simp) r hr.1, f, hf, of_decide_eq_true hw⟩
  · obtain ⟨s, hrun, ⟨-, hleaf, -, -, -, hre⟩, hro⟩ := readOnlyPage_spec
    obtain ⟨s', hs', hw⟩ := map_eq_some_iff.mp hre
    refine ⟨s, s', hrun, ⟨0, 0, 0, hleaf⟩, hro, .of_foldlM hs' fun s ev hev => ?_,
      of_decide_eq_true hw⟩
    simp only [reallocate, mem_cons, not_mem_nil, or_false] at hev
    rcases hev with rfl | rfl <;> exact fun _ hc => absurd hc (by decide)

end Jos
