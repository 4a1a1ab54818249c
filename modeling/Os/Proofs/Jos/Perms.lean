/-
The permission bits of user mappings.

The comment above `sys_page_alloc` says which permissions are appropriate, and the one
above `sys_page_map` says that they are the same there.  `sys_page_alloc` tests just
that.  `sys_page_map` asks instead for some bit of `PTE_SYSCALL`, so `PTE_P` alone will
do, or `PTE_W` alone, and `page_insert` adds `PTE_P`: the entry is present and the
program it belongs to cannot use it.

In a run whose calls of `sys_page_map` have an appropriate permission, or one that is
turned down anyway, every entry below `UTOP` has the bits the comment promises.
-/
import Os.Proofs.Jos.Capability

namespace Jos

open BitVec hiding not_or

open Runs

variable {M : Machine} {s s' : Kern M} {c : CpuIdx} {e : EnvIdx}
variable {perm : Word}

/-- The documented permissions: `PTE_U | PTE_P` must be set, and nothing outside
`PTE_SYSCALL`. -/
def PermOk (perm : Word) : Prop :=
  perm &&& pteU ≠ 0 ∧ perm &&& pteP ≠ 0 ∧ perm &&& ~~~pteSyscall = 0

/-- What `sys_page_map` tests. -/
def PermTaken (perm : Word) : Prop := perm &&& pteSyscall ≠ 0 ∧ perm &&& ~~~pteSyscall = 0

/-- The flags of an entry are a documented permission. -/
def FlagsOk (w : Word) : Prop := PermOk (w &&& 0xFFF)

instance (perm : Word) : Decidable (PermOk perm) := inferInstanceAs (Decidable (_ ∧ _ ∧ _))

theorem PermOk.taken (h : PermOk perm) : PermTaken perm := by
  refine ⟨fun hc => h.1 ?_, h.2.2⟩
  rw [show pteU = pteSyscall &&& pteU by decide, ← BitVec.and_assoc, hc]
  simp

/-! ### Every path to `page_insert` -/

theorem flagsOk_pte (p : Ppn M) (hperm : PermOk (perm ||| pteP)) :
    FlagsOk (page2pa p ||| perm ||| pteP) := by
  have hflags : (page2pa p ||| perm ||| pteP) &&& 0xFFF = perm ||| pteP := by
    have hlow := flagsOnly_of_syscall hperm.2.2
    rw [pte_and_flags p perm (by decide)]
    apply eq_of_toNat_eq
    exact (Nat.and_two_pow_sub_one_eq_mod _ 12).trans (Nat.mod_eq_of_lt hlow)
  unfold FlagsOk
  rw [hflags]
  exact hperm

/-- `page_insert` adds a bit the documentation asks for. -/
theorem PermOk.or_pteP (h : PermOk perm) : PermOk (perm ||| pteP) := by
  obtain ⟨hu, hp, hs⟩ := h
  refine ⟨fun hc => hu ?_, fun hc => hp ?_, ?_⟩
  · rw [and_or_distrib_right] at hc
    exact (or_eq_zero_iff.mp hc).1
  · rw [and_or_distrib_right] at hc
    exact (or_eq_zero_iff.mp hc).1
  · rw [and_or_distrib_right, hs]
    decide

/-- All entries below `UTOP` have documented flags. -/
def PermInv (s : Kern M) : Prop := ∀ r, present (s.ptes r) → FlagsOk (s.ptes r)

theorem PermInv.shrinks (h : PermInv s) (hs : Shrinks s s') : PermInv s' := by
  intro r
  rcases hs r with heq | heq
  · rw [heq]
    exact h r
  · rw [heq]
    exact fun hc => absurd hc not_present_zero

theorem PermInv.update {slot : Ref} {p : Ppn M} (h : PermInv s) (hperm : PermOk (perm ||| pteP))
    (hptes : s'.ptes = Function.update s.ptes slot (page2pa p ||| perm ||| pteP)) :
    PermInv s' := by
  intro r
  rw [hptes, Function.update_apply]
  split
  · exact fun _ => flagsOk_pte p hperm
  · exact h r

section Steps

variable {A : Set (Ppn M)}

theorem PermInv.loadStep (hinv : MemInv A s) (h : PermInv s) (hstep : LoadStep e s s') :
    PermInv s' := by
  cases hstep with
  | same hs => exact h.shrinks (.of_eq hs.ptes_eq)
  | region hbelow ha =>
    rcases regionAlloc_cases ha with rfl | ⟨d, pm, hd, hloop, rfl⟩
    · exact h
    refine (regionLoop_rule (I := fun pm => MemInv A { s with pm := pm } ∧
      PermInv { s with pm := pm }) ?_ _ ⟨hinv, h⟩ hbelow hloop).2
    rintro pm pm1 pm2 p i ⟨hinv, h⟩ hi halloc hins
    exact ⟨hinv.regionStep hd hi halloc hins, PermInv.update h (by decide)
      (regionStep_ptes hinv.excl hinv.freeUnused hd hi halloc hins)⟩
  | store hd hva hs =>
    exact h.shrinks (.of_eq ((storeBytes_writes _ hinv.excl hd hva hs).ptes_eq hinv.excl))

theorem PermInv.step (hinv : MemInv A s) (h : PermInv s)
    (hstep : MemStep (fun perm => PermTaken perm → PermOk perm) s s') : PermInv s' := by
  cases hstep with
  | load hl => exact h.loadStep hinv hl
  | envAlloc ha => exact h.shrinks (envAlloc_shrinks hinv.freeUnused ha)
  | envFree hf => exact h.shrinks (envFree_shrinks hinv.excl hf)
  | pageAlloc hc =>
    rcases sysPageAlloc_ptes hinv.excl hinv.freeUnused hc with
      heq | ⟨p, slot, -, -, hup, hperm, heq⟩
    · exact h.shrinks (.of_eq heq)
    · rw [not_or] at hup
      exact h.update (PermOk.or_pteP ⟨hup.1, hup.2, hperm⟩) heq
  | pageMap _ hQ hc =>
    rcases sysPageMap_ptes hinv.excl hinv.freeUnused hc with
      heq | ⟨src, i, j, p, slot, -, -, -, hsome, hperm, heq⟩
    · exact h.shrinks (.of_eq heq)
    · exact h.update (hQ ⟨hsome, hperm⟩).or_pteP heq
  | pageUnmap hc => exact h.shrinks (sysPageUnmap_shrinks hinv.excl hc)

end Steps

/-! ### Which permissions the calls accept -/

theorem not_permOk_iff : ¬ PermOk perm ↔
    (perm &&& pteU = 0 ∨ perm &&& pteP = 0) ∨ perm &&& ~~~pteSyscall ≠ 0 := by
  unfold PermOk
  tauto

theorem not_permTaken_iff : ¬ PermTaken perm ↔
    perm &&& pteSyscall = 0 ∨ perm &&& ~~~pteSyscall ≠ 0 := by
  unfold PermTaken
  tauto

/-- `sys_page_alloc` turns down every other permission, and for nothing else. -/
theorem sysPageAlloc_perm {envid va : Word} (he : lookupEnv s c envid = some (.ok e))
    (hva : ¬ badVa va) :
    (¬ PermOk perm → sysPageAlloc s c envid va perm = some (-eInval, s)) ∧
      ∀ r s', sysPageAlloc s c envid va perm = some (r, s') → (r = -eInval ↔ ¬ PermOk perm) := by
  have hrejects : ¬ PermOk perm → sysPageAlloc s c envid va perm = some (-eInval, s) := by
    intro hperm
    unfold sysPageAlloc
    simp only [he, if_neg hva]
    rcases not_permOk_iff.mp hperm with hup | hs
    · rw [if_pos hup]
    · rw [if_pos hs, ite_self]
  refine ⟨hrejects, fun r s' h => ⟨fun hr hperm => ?_, fun hperm => ?_⟩⟩
  · -- all that is left are success and `-E_NO_MEM`
    subst hr
    have hup : ¬ (perm &&& pteU = 0 ∨ perm &&& pteP = 0) := fun hc => hc.elim hperm.1 hperm.2.1
    unfold sysPageAlloc at h
    simp only [he, if_neg hva, if_neg hup, if_neg (not_not.mpr hperm.2.2)] at h
    split at h
    · simp [eInval, eNoMem] at h
    split at h
    · simp at h
    split at h
    · simp at h
    split at h
    · split at h
      · simp at h
      · simp [eInval, eNoMem] at h
    · simp [eInval] at h
  · rw [hrejects hperm] at h
    cases h
    rfl

/-- `sys_page_map` turns down the permissions without a bit of `PTE_SYSCALL`, and those with
another bit.  A source that is mapped and may be mapped so is not the reason then. -/
theorem sysPageMap_perm {srcenvid srcva dstenvid dstva : Word} {src dst : EnvIdx} {sd pp : Ppn M}
    {pte : PtePtr M} (hsrc : lookupEnv s c srcenvid = some (.ok src))
    (hdst : lookupEnv s c dstenvid = some (.ok dst)) (hva : ¬ (badVa srcva ∨ badVa dstva))
    (hsd : (s.envs src).envPgdir = some sd)
    (hlook : pageLookup s.pm sd srcva = some (some (pp, pte)))
    (hw : perm &&& pteW ≠ 0 → s.pm.load pte &&& pteW ≠ 0) :
    (¬ PermTaken perm → sysPageMap s c srcenvid srcva dstenvid dstva perm = some (-eInval, s)) ∧
      ∀ r s', sysPageMap s c srcenvid srcva dstenvid dstva perm = some (r, s') →
        (r = -eInval ↔ ¬ PermTaken perm) := by
  have hrejects : ¬ PermTaken perm →
      sysPageMap s c srcenvid srcva dstenvid dstva perm = some (-eInval, s) := by
    intro hperm
    unfold sysPageMap
    simp only [hsrc, hdst, if_neg hva, if_pos (not_permTaken_iff.mp hperm)]
  refine ⟨hrejects, fun r s' h => ⟨fun hr hperm => ?_, fun hperm => ?_⟩⟩
  · subst hr
    have htaken : ¬ (perm &&& pteSyscall = 0 ∨ perm &&& ~~~pteSyscall ≠ 0) := fun hc =>
      not_permTaken_iff.mpr hc hperm
    have hwrite : ¬ (perm &&& pteW ≠ 0 ∧ s.pm.load pte &&& pteW = 0) := fun hc => hw hc.1 hc.2
    unfold sysPageMap at h
    simp only [hsrc, hdst, if_neg hva, if_neg htaken, hsd, hlook, if_neg hwrite] at h
    split at h
    · simp at h
    split at h
    · simp at h
    · have hr := (Prod.mk.inj (Option.some.inj h)).1
      split at hr
      · simp [eInval, eNoMem] at hr
      · simp [eInval] at hr
  · rw [hrejects hperm] at h
    cases h
    rfl

/-- A permission `sys_page_map` turns down, or one that is documented. -/
def PermDocumented (perm : Word) : Prop := PermTaken perm → PermOk perm

/--
**The permission bits of user mappings**: in a run whose calls of `sys_page_map` have
documented permissions, or such as are turned down, every present entry of a live
environment has `PTE_U` and `PTE_P` and nothing outside `PTE_SYSCALL`.  `sys_page_alloc`
answers `-E_INVAL` to every other permission and to no documented one; `sys_page_map`
does so for exactly the permissions named.
-/
theorem perms_of_run {l : List (Ppn M)} {s0 : Kern M} (h0 : MemInit l s0)
    (hrun : Run next (fun s ev => RoomFor s ev ∧ MapPerm PermDocumented ev) (envInit s0) s) :
    (∀ e i j, s.live e → present (s.ptes (.leaf e i j)) → FlagsOk (s.ptes (.leaf e i j))) ∧
    (∀ c envid va perm e r s', lookupEnv s c envid = some (.ok e) → ¬ badVa va →
      sysPageAlloc s c envid va perm = some (r, s') → (r = -eInval ↔ ¬ PermOk perm)) ∧
    ∀ c srcenvid srcva dstenvid dstva perm src dst sd pp pte r s',
      lookupEnv s c srcenvid = some (.ok src) → lookupEnv s c dstenvid = some (.ok dst) →
      ¬ (badVa srcva ∨ badVa dstva) → (s.envs src).envPgdir = some sd →
      pageLookup s.pm sd srcva = some (some (pp, pte)) →
      (perm &&& pteW ≠ 0 → s.pm.load pte &&& pteW ≠ 0) →
      sysPageMap s c srcenvid srcva dstenvid dstva perm = some (r, s') →
      ((r = -eInval ↔ ¬ PermOk perm) ↔ PermDocumented perm) := by
  have hinv : MemInv {p | p ∈ l} s ∧ PermInv s := by
    refine hrun.inv (I := fun s => MemInv {p | p ∈ l} s ∧ PermInv s) ⟨.start h0, ?_⟩ ?_
    · -- nothing is mapped before the first program is loaded
      intro r
      have hroot : ∀ e, (envInit s0).root e = none := fun e =>
        (EnvTable.envInit_slot s0 e).2.2.trans (h0.pgdir e)
      generalize envInit s0 = s1 at hroot
      cases r <;> simp [Kern.ptes, Jos.ptes, tableOf, hroot]
    · intro s ev s' h hok hn
      exact next_inv (I := fun s => MemInv {p | p ∈ l} s ∧ PermInv s)
        (fun _ _ hstep h => ⟨h.1.step hstep, h.2.step h.1 hstep⟩) hok.1 hok.2 h hn
  refine ⟨fun e i j _ => hinv.2 _, fun c envid va perm e r s' he hva h =>
    (sysPageAlloc_perm he hva).2 r s' h, ?_⟩
  intro c srcenvid srcva dstenvid dstva perm src dst sd pp pte r s' hsrc hdst hva hsd hlook hw h
  rw [(sysPageMap_perm hsrc hdst hva hsd hlook hw).2 r s' h]
  have htaken : PermOk perm → PermTaken perm := PermOk.taken
  tauto

/-! ### Runs with `sys_page_map` -/

/-- The page of `readOnlyPage`, mapped again with a permission of one's own. -/
def mapWith (perm : Word) : Event := .call 0 sysNoPageMap 0 0 0 0x1000 perm

theorem roomFor_mapWith {s : Kern (Machine.withFree 16)}
    (h : MemInv {p | p ∈ freshPages 16} s) (hcur : s.curenv 0 = some 0)
    (hspec : ReadOnlyPage s) (perm : Word) : RoomFor s (mapWith perm) := by
  obtain ⟨href, hleaf, -⟩ := hspec
  intro _ _ src sd pp pte hsrc hsd hlook
  have hsrc0 : src = 0 := by
    rcases (lookupEnv_ok hsrc).2 with ⟨-, hc⟩ | ⟨hc, -⟩
    · exact Option.some.inj (hc.symm.trans hcur)
    · exact absurd rfl hc
  subst hsrc0
  have hva : (0 : Word) < utop := by decide
  rcases pageLookup_view none (show s.root 0 = some sd from hsd) hva hlook with
    ⟨hc, -⟩ | ⟨p, t, hp, -, hleaf'⟩
  · simp at hc
  · cases hp
    have hpp : pp = page16 4 := Option.some.inj (hleaf'.symm.trans hleaf)
    subst hpp
    have hcount := congrArg BitVec.toNat (h.ledger.ref _ (h.ledger.managed _ _ hleaf))
    have hle := h.bound (page16 4)
    have hone : (1 : BitVec 16).toNat = 1 := rfl
    rw [href, toNat_ofNat, hone] at hcount
    omega

theorem readOnlyPage_curenv :
    (readOnlyPage.map fun s => decide (s.curenv 0 = some 0 ∧ (next s (mapWith 5)).isSome = true))
      = some true := by
  decide +kernel

theorem perms_of_run_mapped :
    ∃ s, Run next (fun s ev => RoomFor s ev ∧ MapPerm PermDocumented ev)
      (envInit (Kern.fresh 16)) s ∧
      ∀ e i j, s.live e → present (s.ptes (.leaf e i j)) → FlagsOk (s.ptes (.leaf e i j)) := by
  obtain ⟨s, hs, heval⟩ := Option.map_eq_some_iff.mp readOnlyPage_eval
  have hspec : ReadOnlyPage s := of_decide_eq_true heval
  have hcur := readOnlyPage_curenv
  rw [hs] at hcur
  obtain ⟨hcur, hmap⟩ := of_decide_eq_true (Option.some.inj hcur)
  obtain ⟨s', hs'⟩ := Option.isSome_iff_exists.mp hmap
  have h := memInv_of_run (memInit_fresh 16) (readOnlyPage_run hs)
  have hrun : Run next (fun s ev => RoomFor s ev ∧ MapPerm PermDocumented ev)
      (envInit (Kern.fresh 16)) s := by
    refine Run.of_foldlM hs fun s ev hev => ?_
    simp only [List.mem_cons, List.not_mem_nil, or_false] at hev
    rcases hev with rfl | rfl | rfl
    · exact ⟨trivial, trivial⟩
    · exact ⟨trivial, trivial⟩
    · exact ⟨fun _ hc => absurd hc (by decide), fun _ hc => absurd hc (by decide)⟩
  have hok : PermDocumented 5 := fun _ => by decide
  have hrun' := hrun.next ⟨roomFor_mapWith h hcur hspec 5, fun _ _ => hok⟩ hs'
  exact ⟨s', hrun', (perms_of_run (memInit_fresh 16) hrun').1⟩

/-- `PTE_P` alone is accepted, and the entry is not for users. -/
theorem kernel_only_mapping :
    ∃ s : Kern (Machine.withFree 16), Run next RoomFor (envInit (Kern.fresh 16)) s ∧ s.live 0 ∧
      present (s.ptes (.leaf 0 0 1)) ∧ s.ptes (.leaf 0 0 1) &&& pteU = 0 ∧ ¬ PermOk pteP := by
  have hafter : (readOnlyPage.map fun s => (next s (mapWith pteP)).map fun s' =>
      decide (s.curenv 0 = some 0 ∧ s'.live 0 ∧ present (s'.ptes (.leaf 0 0 1)) ∧
        s'.ptes (.leaf 0 0 1) &&& pteU = 0)) = some (some true) := by
    decide +kernel
  obtain ⟨s, hs, hnext⟩ := Option.map_eq_some_iff.mp hafter
  obtain ⟨s', hs', heval'⟩ := Option.map_eq_some_iff.mp hnext
  obtain ⟨hcur, hlive, hpres, hnouser⟩ := of_decide_eq_true heval'
  have heval := readOnlyPage_eval
  rw [hs] at heval
  have hspec : ReadOnlyPage s := of_decide_eq_true (Option.some.inj heval)
  have hrun := readOnlyPage_run hs
  have h := memInv_of_run (memInit_fresh 16) hrun
  exact ⟨s', hrun.next (roomFor_mapWith h hcur hspec pteP) hs', hlive, hpres, hnouser, by decide⟩

end Jos
