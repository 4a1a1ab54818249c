/-
What each call can do.

Every function above the page tables is taken apart here once: which tests it passed,
which operations it carried out, and what state it left.  Later files reason about
these cases and never unfold a call again.

A call that fails leaves the state it was called in.  `sys_page_alloc` is the one that
has to work for it: it gives the page back when there is no memory left for a page
table.
-/
import Os.Proofs.Jos.Ledger
import Os.Proofs.Jos.Resched

namespace Jos

variable {M : Machine} {s s' : Kern M} {c : CpuIdx} {e : EnvIdx}
variable {f : Flow M Unit} {va len envid perm : Word} {r : Int} {o : Outside}

/-! ### Environments: `kern/env.c` -/

/-- The environment `env_alloc` sets up in a slot. -/
def allocatedEnv (v : Env M) (e : EnvIdx) (parentId : Word) (p : Ppn M) : Env M :=
  { v with
    envPgdir := some p
    envId := nextEnvId v.envId e
    envParentId := parentId
    envType := .user
    envStatus := .runnable
    envRuns := 0
    envTf := newTf
    envPgfaultUpcall := 0
    envIpcRecving := false }

theorem envAlloc_cases {parentId : Word} {x : Except Int EnvIdx}
    (h : envAlloc s parentId = (x, s')) :
    (∃ r, x = .error r ∧ r < 0 ∧ s' = s) ∨
    ∃ e p pm1, x = .ok e ∧ s.envFreeList = some e ∧ pageAlloc s.pm allocZero = (some p, pm1) ∧
      s' = { s with
        pm := (pm1.incRef p).fill p (newPgdir (pm1.incRef p) p)
        envs := Function.update s.envs e (allocatedEnv (s.envs e) e parentId p)
        envFreeList := (s.envs e).envLink } := by
  unfold envAlloc at h
  split at h
  · cases h
    exact .inl ⟨_, rfl, by decide, rfl⟩
  rename_i e he
  unfold envSetupVm at h
  cases ha : pageAlloc s.pm allocZero with
  | mk o pm1 =>
    cases o with
    | none =>
      simp only [ha] at h
      cases h
      rcases pageAlloc_cases ha with ⟨-, -, rfl⟩ | ⟨p, hc, -⟩
      · exact .inl ⟨_, rfl, by decide, rfl⟩
      · simp at hc
    | some p =>
      simp only [ha] at h
      cases h
      refine .inr ⟨e, p, pm1, rfl, he, rfl, ?_⟩
      simp [Kern.modifyEnv, allocatedEnv]

/-- Allocation succeeds when there is a slot and a page for the directory. -/
theorem envAlloc_of_free {p : Ppn M} (he : s.envFreeList = some e)
    (hp : s.pm.pageFreeList = some p) (parentId : Word) :
    ∃ s1, envAlloc s parentId = (.ok e, s1) := by
  have ha : ∃ pm1, pageAlloc s.pm allocZero = (some p, pm1) := by
    unfold pageAlloc
    rw [hp]
    exact ⟨_, rfl⟩
  obtain ⟨pm1, ha⟩ := ha
  unfold envAlloc envSetupVm
  simp only [he, ha]
  exact ⟨_, rfl⟩

/-- Freeing succeeds when its loops and the last `page_decref` do. -/
theorem envFree_of_steps {d : Ppn M} {pm1 pm2 : Pmap M} (hd : (s.envs e).envPgdir = some d)
    (hfold : (List.finRange pdxUtop).foldlM (freePde d) s.pm = some pm1)
    (hdec : pageDecref pm1 d = some pm2) :
    envFree s e = some { s with
      pm := pm2
      envs := Function.update s.envs e
        { s.envs e with envPgdir := none, envStatus := .free, envLink := s.envFreeList }
      envFreeList := some e } := by
  unfold envFree
  simp only [hd, hfold, hdec]
  rfl

theorem newPgdir_user (pm : Pmap M) (p : Ppn M) (i : Upde) : newPgdir pm p (toPde i) = 0 := by
  have hi : (toPde i).val < 955 := i.isLt
  have hne : toPde i ≠ pdx uvpt := by
    intro hc
    have huvpt : (pdx uvpt).val = 957 := by decide
    omega
  unfold newPgdir
  rw [if_neg hne, if_pos (show (toPde i).val < pdxUtop from hi)]

theorem envFree_cases (h : envFree s e = some s') :
    ∃ d pm1 pm2, (s.envs e).envPgdir = some d ∧
      (List.finRange pdxUtop).foldlM (freePde d) s.pm = some pm1 ∧
      pageDecref pm1 d = some pm2 ∧
      s' = { s with
        pm := pm2
        envs := Function.update s.envs e
          { s.envs e with envPgdir := none, envStatus := .free, envLink := s.envFreeList }
        envFreeList := some e } := by
  unfold envFree at h
  split at h
  · simp at h
  rename_i d hd
  split at h
  · simp at h
  rename_i pm1 hfold
  split at h
  · simp at h
  · rename_i pm2 hdec
    cases h
    exact ⟨d, pm1, pm2, hd, hfold, hdec, rfl⟩

theorem envDestroy_cases (h : envDestroy s c e = some f) :
    ((s.envs e).envStatus = .running ∧ s.curenv c ≠ some e ∧
      f = .ret () (s.setStatus e .dying)) ∨
    ∃ s1, envFree s e = some s1 ∧
      ((s.curenv c ≠ some e ∧ (s.envs e).envStatus ≠ .running ∧ f = .ret () s1) ∨
        (s.curenv c = some e ∧ ∃ s2, schedYield (s1.setCurenv c none) c = some s2 ∧
          f = .left s2)) := by
  unfold envDestroy at h
  split at h
  · rename_i hrun
    cases h
    exact .inl ⟨hrun.1, hrun.2, rfl⟩
  rename_i hguard
  split at h
  · simp at h
  rename_i s1 hfree
  have hcur : s1.curenv c = s.curenv c := by
    obtain ⟨d, pm1, pm2, -, -, -, rfl⟩ := envFree_cases hfree
    rfl
  rw [← hcur] at hguard
  refine .inr ⟨s1, hfree, ?_⟩
  rw [← hcur]
  split at h
  · rename_i hc
    split at h
    · simp at h
    · rename_i s2 hsched
      cases h
      exact .inr ⟨hc, s2, hsched, rfl⟩
  · rename_i hc
    cases h
    exact .inl ⟨hc, fun hrun => hguard ⟨hrun, hc⟩, rfl⟩

theorem envDestroy_curenv (hcur : s.curenv c = some e) (h : envDestroy s c e = some f) :
    ∃ s1 s2, envFree s e = some s1 ∧ schedYield (s1.setCurenv c none) c = some s2 ∧
      f = .left s2 := by
  rcases envDestroy_cases h with ⟨-, hc, -⟩ | ⟨s1, hfree, ⟨hc, -⟩ | ⟨-, s2, hsched, hf⟩⟩
  · exact absurd hcur hc
  · exact absurd hcur hc
  · exact ⟨s1, s2, hfree, hsched, hf⟩

theorem regionAlloc_cases (h : regionAlloc s e va len = some s') :
    s' = s ∨ ∃ d pm, (s.envs e).envPgdir = some d ∧
      regionLoop d (pageSteps (rounddown va pgsize) (roundup (va + len) pgsize))
        (rounddown va pgsize) s.pm = some pm ∧ s' = { s with pm := pm } := by
  unfold regionAlloc at h
  simp only at h
  split at h
  · split at h
    · cases h
      exact .inl rfl
    · simp at h
  · rename_i d hd
    split at h
    · simp at h
    · rename_i pm hpm
      cases h
      exact .inr ⟨d, pm, hd, hpm, rfl⟩

theorem regionAlloc_pm (h : regionAlloc s e va len = some s') : ∃ pm, s' = { s with pm := pm } := by
  rcases regionAlloc_cases h with rfl | ⟨d, pm, -, -, hs⟩
  exacts [⟨_, rfl⟩, ⟨pm, hs⟩]

/-! ### Naming an environment -/

/-- The caller on `c` may name `e`: it is `curenv` or a child of it. -/
def MayName (s : Kern M) (c : CpuIdx) (e : EnvIdx) : Prop :=
  s.curenv c = some e ∨ ∃ k, s.curenv c = some k ∧ (s.envs e).envParentId = (s.envs k).envId

/-- **`envid2env`**: what it stores and returns, when it returns. -/
theorem envid2env_cases {checkperm : Bool} {store : Option EnvIdx}
    (h : envid2env s c envid checkperm = some (r, store)) :
    (envid = 0 ∧ r = 0 ∧ store = s.curenv c) ∨
    (envid ≠ 0 ∧ (s.live (envx envid) ∧ (s.envs (envx envid)).envId = envid ∧
      (checkperm = true → MayName s c (envx envid))) ∧ r = 0 ∧ store = some (envx envid)) ∨
    (envid ≠ 0 ∧ ¬ (s.live (envx envid) ∧ (s.envs (envx envid)).envId = envid ∧
      (checkperm = true → MayName s c (envx envid))) ∧ r = -eBadEnv ∧ store = none) := by
  simp only [envid2env] at h
  split at h
  · rename_i hz
    cases h
    exact .inl ⟨hz, rfl, rfl⟩
  rename_i hz
  refine .inr ?_
  split at h
  · rename_i hbad
    cases h
    refine .inr ⟨hz, ?_, rfl, rfl⟩
    rintro ⟨hlive, hid, -⟩
    rcases hbad with hfree | hne
    · exact hlive hfree
    · exact hne hid
  · rename_i hgood
    have hlive : s.live (envx envid) := fun hc => hgood (.inl hc)
    have hid : (s.envs (envx envid)).envId = envid := by
      by_contra hc
      exact hgood (.inr hc)
    split at h
    · rename_i hcheck
      split at h
      · simp at h
      rename_i k hk
      rw [hk] at hcheck
      split at h
      · rename_i hparent
        cases h
        refine .inr ⟨hz, ?_, rfl, rfl⟩
        rintro ⟨-, -, hname⟩
        rcases hname hcheck.1 with hself | ⟨k', hk', hchild⟩
        · exact hcheck.2 (hself.symm.trans hk)
        · rw [hk] at hk'
          cases hk'
          exact hparent hchild
      · rename_i hparent
        cases h
        refine .inl ⟨hz, ⟨hlive, hid, fun _ => .inr ⟨k, hk, ?_⟩⟩, rfl, rfl⟩
        by_contra hc
        exact hparent hc
    · rename_i hcheck
      cases h
      refine .inl ⟨hz, ⟨hlive, hid, fun hp => .inl ?_⟩, rfl, rfl⟩
      by_contra hc
      exact hcheck ⟨hp, Ne.symm hc⟩

/-- A successful lookup found an environment the caller may name. -/
theorem lookupEnv_ok (h : lookupEnv s c envid = some (.ok e)) :
    MayName s c e ∧ (envid = 0 ∧ s.curenv c = some e ∨
      envid ≠ 0 ∧ s.live e ∧ (s.envs e).envId = envid) := by
  unfold lookupEnv at h
  cases hr : envid2env s c envid true with
  | none => simp [hr] at h
  | some x =>
    obtain ⟨r, store⟩ := x
    simp only [hr] at h
    rcases envid2env_cases hr with ⟨hz, rfl, rfl⟩ | ⟨hz, ⟨hlive, hid, hname⟩, rfl, rfl⟩ |
      ⟨-, -, rfl, rfl⟩
    · rw [if_neg (by decide)] at h
      split at h
      · simp at h
      · rename_i k hk
        cases h
        exact ⟨.inl hk, .inl ⟨hz, hk⟩⟩
    · rw [if_neg (by decide)] at h
      cases h
      exact ⟨hname rfl, .inr ⟨hz, hlive, hid⟩⟩
    · rw [if_pos (by decide)] at h
      simp at h

theorem lookupEnv_congr (hcur : s'.curenv c = s.curenv c)
    (hst : ∀ k, (s'.envs k).envStatus = (s.envs k).envStatus)
    (hid : ∀ k, (s'.envs k).envId = (s.envs k).envId)
    (hparent : ∀ k, (s'.envs k).envParentId = (s.envs k).envParentId) (envid : Word) :
    lookupEnv s' c envid = lookupEnv s c envid := by
  simp only [lookupEnv, envid2env, hcur, hst, hid, hparent]

/-! ### The system calls -/

theorem sysExofork_cases (h : sysExofork s c = some (r, s')) :
    ∃ k, s.curenv c = some k ∧ ((r < 0 ∧ s' = s) ∨
      ∃ e s1, envAlloc s (s.envs k).envId = (.ok e, s1) ∧ r = (s1.envs e).envId.toInt ∧
        s' = s1.modifyEnv e fun v =>
          { v with
            envStatus := .notRunnable
            envTf := { (s1.envs k).envTf with
              tfRegs := { (s1.envs k).envTf.tfRegs with regEax := 0 } } }) := by
  unfold sysExofork at h
  split at h
  · simp at h
  rename_i k hk
  refine ⟨k, hk, ?_⟩
  split at h
  · rename_i r' s1 ha
    cases h
    rcases envAlloc_cases ha with ⟨r'', hr, hneg, rfl⟩ | ⟨e, p, pm1, hc, -⟩
    · cases hr
      exact .inl ⟨hneg, rfl⟩
    · simp at hc
  · rename_i e s1 ha
    cases h
    refine .inr ⟨e, s1, ha, ?_, rfl⟩
    simp [Kern.modifyEnv]

/-- `sys_exofork` allocates an environment and then only writes its status and registers. -/
theorem sysExofork_steps (h : sysExofork s c = some (r, s')) :
    s' = s ∨ ∃ parentId e s1, envAlloc s parentId = (.ok e, s1) ∧ Resched s1 s' := by
  obtain ⟨k, -, ⟨-, rfl⟩ | ⟨e, s1, ha, -, rfl⟩⟩ := sysExofork_cases h
  · exact .inl rfl
  refine .inr ⟨_, e, s1, ha, .modify s1 e rfl rfl rfl rfl ?_⟩
  rcases envAlloc_cases ha with ⟨r', hc, -⟩ | ⟨e', p, pm1, he', -, -, rfl⟩
  · simp at hc
  · cases he'
    simp [allocatedEnv]

/-- `env_destroy` marks its victim, or frees it and perhaps looks for another one to run. -/
theorem envDestroy_steps (h : envDestroy s c e = some f) :
    Resched s f.state ∨ ∃ s1, envFree s e = some s1 ∧ Resched s1 f.state := by
  rcases envDestroy_cases h with ⟨hrun, -, rfl⟩ | ⟨s1, hfree, ⟨-, -, rfl⟩ | ⟨-, s2, hsched, rfl⟩⟩
  · exact .inl (.setStatus (by simp [hrun]) (by simp))
  · exact .inr ⟨s1, hfree, .refl s1⟩
  · exact .inr ⟨s1, hfree, (Resched.setCurenv s1 c none).trans (Resched.schedYield hsched)⟩

theorem sysEnvSetStatus_cases {status : Word}
    (h : sysEnvSetStatus s c envid status = some (r, s')) :
    s' = s ∨ ∃ st e, statusArg status = some st ∧ lookupEnv s c envid = some (.ok e) ∧
      s' = s.setStatus e st := by
  unfold sysEnvSetStatus at h
  split at h
  · cases h
    exact .inl rfl
  rename_i st hst
  split at h
  · simp at h
  · cases h
    exact .inl rfl
  · rename_i e he
    cases h
    exact .inr ⟨st, e, hst, he, rfl⟩

theorem statusArg_eq_some {status : Word} {st : EnvStatus} (h : statusArg status = some st) :
    st = .runnable ∨ st = .running := by
  unfold statusArg at h
  split at h
  · cases h
    exact .inl rfl
  · split at h
    · cases h
      exact .inr rfl
    · simp at h

theorem lt_utop_of_not_badVa (h : ¬ badVa va) : va < utop := by
  by_contra hc
  exact h (.inl (BitVec.not_lt.mp hc))

theorem sysPageAlloc_cases (h : sysPageAlloc s c envid va perm = some (r, s')) :
    (r < 0 ∧ s' = s) ∨
    ∃ e d pp pm1 pm2 r', lookupEnv s c envid = some (.ok e) ∧ ¬ badVa va ∧
      ¬ (perm &&& pteU = 0 ∨ perm &&& pteP = 0) ∧ perm &&& ~~~pteSyscall = 0 ∧
      pageAlloc s.pm allocZero = (some pp, pm1) ∧ (s.envs e).envPgdir = some d ∧
      pageInsert pm1 d pp va perm = some (r', pm2) ∧
      ((r' < 0 ∧ r = -eNoMem ∧ ∃ pm3, pageFree pm2 pp = some pm3 ∧ s' = { s with pm := pm3 }) ∨
        (¬ r' < 0 ∧ r = 0 ∧ s' = { s with pm := pm2 })) := by
  unfold sysPageAlloc at h
  split at h
  · simp at h
  · cases h
    exact .inl ⟨by decide, rfl⟩
  rename_i e he
  split at h
  · cases h
    exact .inl ⟨by decide, rfl⟩
  rename_i hva
  split at h
  · cases h
    exact .inl ⟨by decide, rfl⟩
  rename_i hup
  split at h
  · cases h
    exact .inl ⟨by decide, rfl⟩
  rename_i hperm
  split at h
  · rename_i pm ha
    cases h
    rcases pageAlloc_cases ha with ⟨-, -, rfl⟩ | ⟨p, hc, -⟩
    · exact .inl ⟨by decide, rfl⟩
    · simp at hc
  · rename_i pp pm1 ha
    split at h
    · simp at h
    rename_i d hd
    split at h
    · simp at h
    rename_i r' pm2 hins
    refine .inr ⟨e, d, pp, pm1, pm2, r', he, hva, hup, not_not.mp hperm, ha, hd,
      hins, ?_⟩
    split at h
    · rename_i hneg
      split at h
      · simp at h
      · rename_i pm3 hfree
        cases h
        exact .inl ⟨hneg, rfl, pm3, hfree, rfl⟩
    · rename_i hneg
      cases h
      exact .inr ⟨hneg, rfl, rfl⟩

theorem sysPageAlloc_pm (h : sysPageAlloc s c envid va perm = some (r, s')) :
    ∃ pm, s' = { s with pm := pm } := by
  rcases sysPageAlloc_cases h with ⟨-, rfl⟩ |
    ⟨e, d, pp, pm1, pm2, r', -, -, -, -, -, -, -, ⟨-, -, pm3, -, hs⟩ | ⟨-, -, hs⟩⟩
  exacts [⟨_, rfl⟩, ⟨pm3, hs⟩, ⟨pm2, hs⟩]

theorem sysPageMap_cases {srcenvid srcva dstenvid dstva : Word}
    (h : sysPageMap s c srcenvid srcva dstenvid dstva perm = some (r, s')) :
    (r < 0 ∧ s' = s) ∨
    ∃ src dst sd dd pp pte pm r', lookupEnv s c srcenvid = some (.ok src) ∧
      lookupEnv s c dstenvid = some (.ok dst) ∧ ¬ badVa srcva ∧ ¬ badVa dstva ∧
      perm &&& pteSyscall ≠ 0 ∧ perm &&& ~~~pteSyscall = 0 ∧
      (s.envs src).envPgdir = some sd ∧ pageLookup s.pm sd srcva = some (some (pp, pte)) ∧
      (perm &&& pteW ≠ 0 → s.pm.load pte &&& pteW ≠ 0) ∧ (s.envs dst).envPgdir = some dd ∧
      pageInsert s.pm dd pp dstva perm = some (r', pm) ∧
      r = (if r' < 0 then -eNoMem else 0) ∧ s' = { s with pm := pm } := by
  unfold sysPageMap at h
  split at h
  · simp at h
  · cases h
    exact .inl ⟨by decide, rfl⟩
  rename_i src hsrc
  split at h
  · simp at h
  · cases h
    exact .inl ⟨by decide, rfl⟩
  rename_i dst hdst
  split at h
  · cases h
    exact .inl ⟨by decide, rfl⟩
  rename_i hva
  split at h
  · cases h
    exact .inl ⟨by decide, rfl⟩
  rename_i hperm
  split at h
  · simp at h
  rename_i sd hsd
  split at h
  · simp at h
  · cases h
    exact .inl ⟨by decide, rfl⟩
  rename_i pp pte hlook
  split at h
  · cases h
    exact .inl ⟨by decide, rfl⟩
  rename_i hw
  split at h
  · simp at h
  rename_i dd hdd
  split at h
  · simp at h
  rename_i r' pm hins
  cases h
  refine .inr ⟨src, dst, sd, dd, pp, pte, pm, r', hsrc, hdst,
    fun hc => hva (.inl hc), fun hc => hva (.inr hc),
    fun hc => hperm (.inl hc), ?_, hsd, hlook, fun hpw hc => hw ⟨hpw, hc⟩,
    hdd, hins, rfl, rfl⟩
  by_contra hc
  exact hperm (.inr hc)

theorem sysPageMap_pm {srcenvid srcva dstenvid dstva : Word}
    (h : sysPageMap s c srcenvid srcva dstenvid dstva perm = some (r, s')) :
    ∃ pm, s' = { s with pm := pm } := by
  rcases sysPageMap_cases h with ⟨-, rfl⟩ |
    ⟨src, dst, sd, dd, pp, pte, pm, r', -, -, -, -, -, -, -, -, -, -, -, -, hs⟩
  exacts [⟨_, rfl⟩, ⟨pm, hs⟩]

theorem sysPageUnmap_cases (h : sysPageUnmap s c envid va = some (r, s')) :
    (r < 0 ∧ s' = s) ∨
    ∃ e d pm, lookupEnv s c envid = some (.ok e) ∧ ¬ badVa va ∧
      (s.envs e).envPgdir = some d ∧ pageRemove s.pm d va = some pm ∧ r = 0 ∧
      s' = { s with pm := pm } := by
  unfold sysPageUnmap at h
  split at h
  · simp at h
  · cases h
    exact .inl ⟨by decide, rfl⟩
  rename_i e he
  split at h
  · cases h
    exact .inl ⟨by decide, rfl⟩
  rename_i hva
  split at h
  · simp at h
  rename_i d hd
  split at h
  · simp at h
  · rename_i pm hrem
    cases h
    exact .inr ⟨e, d, pm, he, hva, hd, hrem, rfl, rfl⟩

theorem sysPageUnmap_pm (h : sysPageUnmap s c envid va = some (r, s')) :
    ∃ pm, s' = { s with pm := pm } := by
  rcases sysPageUnmap_cases h with ⟨-, rfl⟩ | ⟨e, d, pm, -, -, -, -, -, hs⟩
  exacts [⟨_, rfl⟩, ⟨pm, hs⟩]

/-! ### Leaving the kernel and returning from a call -/

/-- The ways to leave the kernel from the middle of a call. -/
inductive Leaves (c : CpuIdx) (s : Kern M) : Kern M → Prop
  /-- The current environment is freed and another one is looked for. -/
  | kill {e : EnvIdx} {s1 s' : Kern M} (hcur : s.curenv c = some e)
      (hfree : envFree s e = some s1) (hsched : schedYield (s1.setCurenv c none) c = some s') :
      Leaves c s s'
  | yield {s' : Kern M} (hsched : schedYield s c = some s') : Leaves c s s'
  /-- A page fault is delivered on the exception stack. -/
  | fault {e : EnvIdx} {d : Ppn M} {pm : Pmap M} {tf : Trapframe} {va : Word} {s' : Kern M}
      (hcur : s.curenv c = some e) (hd : (s.envs e).envPgdir = some d)
      (hstore : storeBytes s.pm d (utfAddr tf.tfEsp) (utfOf tf va).bytes = some pm)
      (hrun : envRun (({ s with pm := pm } : Kern M).modifyEnv e fun v =>
        { v with envTf := { v.envTf with
            tfEip := v.envPgfaultUpcall, tfEsp := utfAddr tf.tfEsp } }) c e = some s') :
      Leaves c s s'

/-- Destroying the current environment leaves the kernel. -/
theorem Leaves.of_envDestroy (hcur : s.curenv c = some e) (h : envDestroy s c e = some f) :
    ∃ s', f = .left s' ∧ Leaves c s s' := by
  obtain ⟨s1, s2, hfree, hsched, rfl⟩ := envDestroy_curenv hcur h
  exact ⟨s2, rfl, .kill hcur hfree hsched⟩

/-- **`user_mem_assert`** of the current environment returns when the check accepts, and else
leaves the kernel. -/
theorem userMemAssert_cases (hcur : s.curenv c = some e)
    (h : userMemAssert s c e va len perm = some f) :
    (userMemCheck s.pm (s.envs e).envPgdir va len (perm ||| pteU) = some none ∧ f = .ret () s) ∨
      ∃ s', f = .left s' ∧ Leaves c s s' := by
  unfold userMemAssert at h
  split at h
  · simp at h
  · rename_i hcheck
    cases h
    exact .inl ⟨hcheck, rfl⟩
  · exact .inr (Leaves.of_envDestroy hcur h)

theorem pageFaultHandler_cases {tf : Trapframe} (h : pageFaultHandler s c tf va = some f) :
    ∃ s', f = .left s' ∧ Leaves c s s' := by
  unfold pageFaultHandler at h
  rw [if_neg (by simp)] at h
  split at h
  · simp at h
  rename_i e he
  split at h
  · simp only at h
    split at h
    · simp at h
    · rename_i s1 hassert
      cases h
      obtain ⟨-, hc⟩ | hleaves := userMemAssert_cases he hassert
      · simp at hc
      · exact hleaves
    · rename_i s1 hassert
      obtain ⟨-, hs1⟩ | ⟨_, hc, -⟩ := userMemAssert_cases he hassert
      · cases hs1
        split at h
        · simp at h
        rename_i d hd
        split at h
        · simp at h
        rename_i pm hstore
        split at h
        · simp at h
        · rename_i s' hrun
          cases h
          exact ⟨s', rfl, .fault he hd hstore hrun⟩
      · simp at hc
  · exact Leaves.of_envDestroy he h

/-- What a system call that returns has done, by its number and arguments. -/
inductive Call (c : CpuIdx) (no a1 a2 a3 a4 a5 : Word) (s : Kern M) : Kern M → Prop
  | idle : Call c no a1 a2 a3 a4 a5 s s
  | destroy {e : EnvIdx} {s' : Kern M} (hno : no = sysNoEnvDestroy)
      (he : lookupEnv s c a1 = some (.ok e)) (h : envDestroy s c e = some (.ret () s')) :
      Call c no a1 a2 a3 a4 a5 s s'
  | exofork {r : Int} {s' : Kern M} (hno : no = sysNoExofork)
      (h : sysExofork s c = some (r, s')) : Call c no a1 a2 a3 a4 a5 s s'
  | pageAlloc {r : Int} {s' : Kern M} (hno : no = sysNoPageAlloc)
      (h : sysPageAlloc s c a1 a2 a3 = some (r, s')) : Call c no a1 a2 a3 a4 a5 s s'
  | pageMap {r : Int} {s' : Kern M} (hno : no = sysNoPageMap)
      (h : sysPageMap s c a1 a2 a3 a4 a5 = some (r, s')) : Call c no a1 a2 a3 a4 a5 s s'
  | pageUnmap {r : Int} {s' : Kern M} (hno : no = sysNoPageUnmap)
      (h : sysPageUnmap s c a1 a2 = some (r, s')) : Call c no a1 a2 a3 a4 a5 s s'
  | setStatus {r : Int} {s' : Kern M} (hno : no = sysNoEnvSetStatus)
      (h : sysEnvSetStatus s c a1 a2 = some (r, s')) : Call c no a1 a2 a3 a4 a5 s s'

theorem sysCputs_cases {str : Word} {f : Flow M Int} (h : sysCputs s c o str len = some f) :
    f = .ret 0 s ∨ ∃ s', f = .left s' ∧ Leaves c s s' := by
  unfold sysCputs at h
  split at h
  · simp at h
  rename_i e he
  split at h
  · simp at h
  · rename_i s1 hassert
    cases h
    obtain ⟨-, hc⟩ | ⟨s', hs', hleaves⟩ := userMemAssert_cases he hassert
    · simp at hc
    · cases hs'
      exact .inr ⟨s1, rfl, hleaves⟩
  · rename_i s1 hassert
    obtain ⟨-, hs1⟩ | ⟨_, hc, -⟩ := userMemAssert_cases he hassert
    · cases hs1
      split at h
      · cases h
        exact .inl rfl
      split at h
      · simp at h
      split at h
      · cases h
        exact .inl rfl
      unfold kernelFault at h
      split at h
      · rename_i s2 hfault
        cases h
        obtain ⟨s', hs', hl⟩ := pageFaultHandler_cases hfault
        cases hs'
        exact .inr ⟨s2, rfl, hl⟩
      · simp at h
    · simp at hc

theorem sysEnvDestroy_cases {f : Flow M Int} (h : sysEnvDestroy s c envid = some f) :
    (∃ r, f = .ret r s) ∨
    (∃ e s', lookupEnv s c envid = some (.ok e) ∧ envDestroy s c e = some (.ret () s') ∧
      f = .ret 0 s') ∨
    ∃ s', f = .left s' ∧ Leaves c s s' := by
  unfold sysEnvDestroy at h
  split at h
  · simp at h
  · rename_i r hr
    cases h
    exact .inl ⟨r, rfl⟩
  rename_i e he
  split at h
  · simp at h
  · rename_i s' hd
    cases h
    rcases envDestroy_cases hd with ⟨-, -, hc⟩ | ⟨s1, hfree, ⟨-, -, hc⟩ | ⟨hcur, s2, hsched, hs⟩⟩
    · simp at hc
    · simp at hc
    · cases hs
      exact .inr (.inr ⟨s', rfl, .kill hcur hfree hsched⟩)
  · rename_i s' hd
    cases h
    exact .inr (.inl ⟨e, s', he, hd, rfl⟩)

theorem returns_eq_some {x : Option (Int × Kern M)} {f : Flow M Int} (h : returns x = some f) :
    ∃ r s', x = some (r, s') ∧ f = .ret r s' := by
  obtain ⟨⟨r, s'⟩, hx, hf⟩ := Option.map_eq_some_iff.mp h
  exact ⟨r, s', hx, hf.symm⟩

/-- **`syscall`** returns from one of its calls or leaves the kernel. -/
theorem syscall_cases {no a1 a2 a3 a4 a5 : Word} {f : Flow M Int}
    (h : syscall s c o no a1 a2 a3 a4 a5 = some f) :
    (∃ r s', f = .ret r s' ∧ Call c no a1 a2 a3 a4 a5 s s') ∨
    ∃ s', f = .left s' ∧ Leaves c s s' := by
  obtain ⟨-, h⟩ | ⟨-, h⟩ := ite_eq_iff.mp h
  · rcases sysCputs_cases h with rfl | hl
    · exact .inl ⟨0, s, rfl, .idle⟩
    · exact .inr hl
  obtain ⟨-, h⟩ | ⟨-, h⟩ := ite_eq_iff.mp h
  · cases h
    exact .inl ⟨_, s, rfl, .idle⟩
  obtain ⟨-, h⟩ | ⟨-, h⟩ := ite_eq_iff.mp h
  · obtain ⟨id, -, rfl⟩ := Option.map_eq_some_iff.mp h
    exact .inl ⟨_, s, rfl, .idle⟩
  obtain ⟨hno, h⟩ | ⟨-, h⟩ := ite_eq_iff.mp h
  · rcases sysEnvDestroy_cases h with ⟨r, rfl⟩ | ⟨e, s', he, hd, rfl⟩ | hl
    · exact .inl ⟨r, s, rfl, .idle⟩
    · exact .inl ⟨0, s', rfl, .destroy hno he hd⟩
    · exact .inr hl
  obtain ⟨hno, h⟩ | ⟨-, h⟩ := ite_eq_iff.mp h
  · obtain ⟨r, s', hx, rfl⟩ := returns_eq_some h
    exact .inl ⟨r, s', rfl, .exofork hno hx⟩
  obtain ⟨hno, h⟩ | ⟨-, h⟩ := ite_eq_iff.mp h
  · obtain ⟨r, s', hx, rfl⟩ := returns_eq_some h
    exact .inl ⟨r, s', rfl, .pageAlloc hno hx⟩
  obtain ⟨hno, h⟩ | ⟨-, h⟩ := ite_eq_iff.mp h
  · obtain ⟨r, s', hx, rfl⟩ := returns_eq_some h
    exact .inl ⟨r, s', rfl, .pageMap hno hx⟩
  obtain ⟨hno, h⟩ | ⟨-, h⟩ := ite_eq_iff.mp h
  · obtain ⟨r, s', hx, rfl⟩ := returns_eq_some h
    exact .inl ⟨r, s', rfl, .pageUnmap hno hx⟩
  obtain ⟨hno, h⟩ | ⟨-, h⟩ := ite_eq_iff.mp h
  · obtain ⟨r, s', hx, rfl⟩ := returns_eq_some h
    exact .inl ⟨r, s', rfl, .setStatus hno hx⟩
  split at h
  next =>
    unfold sysYield at h
    split at h
    · simp at h
    · rename_i s' hs'
      cases h
      exact .inr ⟨s', rfl, .yield hs'⟩
  cases h
  exact .inl ⟨_, s, rfl, .idle⟩

/-! ### A trap from user mode -/

/-- The system call a trap frame asks for, if it does. -/
def CallOf (c : CpuIdx) (tf : Trapframe) (s s' : Kern M) : Prop :=
  tf.tfTrapno = tSyscall ∧ Call c tf.tfRegs.regEax tf.tfRegs.regEdx tf.tfRegs.regEcx
    tf.tfRegs.regEbx tf.tfRegs.regEdi tf.tfRegs.regEsi s s'

/-- The state in which `trap_dispatch` is called. -/
def trapEntry (s : Kern M) (c : CpuIdx) (e : EnvIdx) (tf : Trapframe) : Kern M :=
  (s.setCpuStatus c .started).modifyEnv e fun v => { v with envTf := tf }

theorem curenv_setCpuStatus (s : Kern M) (c c' : CpuIdx) (st : CpuStatus) :
    (s.setCpuStatus c st).curenv c' = s.curenv c' := by
  simp only [Kern.setCpuStatus, Kern.curenv]
  by_cases hc : c' = c
  · rw [hc, Function.update_self]
  · rw [Function.update_of_ne hc]

/-- Entering the kernel writes down the registers and nothing else. -/
theorem sameTables_trapEntry (s : Kern M) (c : CpuIdx) (e : EnvIdx) (tf : Trapframe) :
    SameTables s (trapEntry s c e tf) :=
  (SameTables.setCpus s _).trans (SameTables.modify _ e rfl rfl rfl rfl)

theorem curenv_trapEntry (s : Kern M) (c c' : CpuIdx) (e : EnvIdx) (tf : Trapframe) :
    (trapEntry s c e tf).curenv c' = s.curenv c' :=
  curenv_setCpuStatus s c c' .started

theorem status_trapEntry (s : Kern M) (c : CpuIdx) (e : EnvIdx) (tf : Trapframe) (k : EnvIdx) :
    ((trapEntry s c e tf).envs k).envStatus = (s.envs k).envStatus := by
  exact RefMap.proj_update Env.envStatus (by rfl) k

theorem lookupEnv_trapEntry (s : Kern M) (c c' : CpuIdx) (e : EnvIdx) (tf : Trapframe)
    (envid : Word) : lookupEnv (trapEntry s c e tf) c' envid = lookupEnv s c' envid :=
  lookupEnv_congr (curenv_trapEntry s c c' e tf) (status_trapEntry s c e tf)
    (sameTables_trapEntry s c e tf).id (sameTables_trapEntry s c e tf).parent envid

/--
**A trap** by the environment `e` that runs on `c`: a dying environment is collected;
any other one leaves the kernel from inside the dispatch, or returns to the end of
`trap` after a system call.
-/
theorem trap_cases {tf : Trapframe} (huser : tf.tfCs &&& 3 = 3) (h : trap s c o tf = some s') :
    ∃ e, s.curenv c = some e ∧
      (((s.envs e).envStatus = .dying ∧ ∃ s1, envFree (s.setCpuStatus c .started) e = some s1 ∧
          schedYield (s1.setCurenv c none) c = some s') ∨
        ((s.envs e).envStatus ≠ .dying ∧
          (Leaves c (trapEntry s c e tf) s' ∨
            ∃ r s1, CallOf c tf (trapEntry s c e tf) s1 ∧
              trapReturn (setEax s1 (some e) r) c = some s'))) := by
  unfold trap at h
  simp only at h
  rw [if_pos huser, curenv_setCpuStatus] at h
  split at h
  · simp at h
  rename_i e he
  refine ⟨e, he, ?_⟩
  split at h
  · rename_i hdying
    refine .inl ⟨hdying, ?_⟩
    split at h
    · simp at h
    · rename_i s1 hfree
      exact ⟨s1, hfree, h⟩
  · rename_i hdying
    refine .inr ⟨hdying, ?_⟩
    rw [show (s.setCpuStatus c .started).modifyEnv e (fun v => { v with envTf := tf })
      = trapEntry s c e tf from rfl] at h
    have hcur' : (trapEntry s c e tf).curenv c = some e :=
      (curenv_setCpuStatus s c c .started).trans he
    unfold trapDispatch at h
    split_ifs at h with hpf hbr hsys hkt
    · cases hp : pageFaultHandler (trapEntry s c e tf) c tf o.cr2 with
      | none => simp [hp, afterDispatch] at h
      | some f =>
        obtain ⟨s1, rfl, hl⟩ := pageFaultHandler_cases hp
        simp only [hp, afterDispatch] at h
        cases h
        exact .inl hl
    · simp [afterDispatch] at h
    · split at h
      · simp [afterDispatch] at h
      · rename_i s1 hcall
        simp only [afterDispatch] at h
        cases h
        rcases syscall_cases hcall with ⟨r, s2, hc, -⟩ | ⟨s2, hs2, hl⟩
        · simp at hc
        · cases hs2
          exact .inl hl
      · rename_i r s1 hcall
        simp only [afterDispatch] at h
        rcases syscall_cases hcall with ⟨r', s2, hs2, hc⟩ | ⟨s2, hc, -⟩
        · cases hs2
          exact .inr ⟨r, s1, ⟨hsys, hc⟩, h⟩
        · simp at hc
    · simp [afterDispatch] at h
    · rw [hcur'] at h
      simp only at h
      cases hd : envDestroy (trapEntry s c e tf) c e with
      | none => simp [hd, afterDispatch] at h
      | some f =>
        obtain ⟨s1, s2, hfree, hsched, rfl⟩ := envDestroy_curenv hcur' hd
        simp only [hd, afterDispatch] at h
        cases h
        exact .inl (.kill hcur' hfree hsched)

end Jos
