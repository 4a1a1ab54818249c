/-
One processor for each environment, and deferred destruction.

Both properties hold of every run in which the calls that name an environment executing
on another processor are considerate, and of no more.  `sys_env_set_status` lets a
parent make a running child runnable again, and another processor then picks it up;
`env_destroy` looks only at `env_status`, so a second call finds the child dying and
frees it while it executes.  The two runs are at the end of their sections.
-/
import Os.Proofs.Jos.Spares

namespace Jos

open Linked Runs Option

variable {M : Machine} {s s' : Kern M} {c : CpuIdx} {e : EnvIdx}

theorem placed_start {l : List (Ppn M)} {s0 : Kern M} (h₀ : MemInit l s0) :
    Placed none (envInit s0) := by
  have hslots := (EnvTable.envInit h₀.pgdir).slots
  have hcpus := (EnvTable.envInit_head s0).2.1
  generalize envInit s0 = s1 at hslots hcpus
  have hidle : ∀ c, s1.curenv c = none := by
    intro c
    rw [Kern.curenv, hcpus]
    exact h₀.idle c
  refine ⟨hslots, fun c e he => ?_, fun c e _ he => ?_⟩
  · rw [hidle c] at he
    simp at he
  · rw [hidle c] at he
    simp at he

theorem placed_of_run {T ok : EnvStatus → EnvStatus → Prop} (hT : Tolerance T)
    (hok : Respects ok T) {l : List (Ppn M)} {s0 : Kern M} (h₀ : MemInit l s0)
    (hrun : Run next (Considerate ok) (envInit s0) s) : Placed none s :=
  hrun.inv (placed_start h₀) fun _ _ _ h hev hn => (h.next hT hok hev hn).2

/-! ### Exclusion -/

/-- An environment that executes is still one that executes. -/
def StaysBusy (a b : EnvStatus) : Prop := Busy a → Busy b

theorem tolerance_staysBusy : Tolerance StaysBusy where
  refl _ h := h
  trans h h' ha := h' (h ha)
  dying _ := .inr rfl
  busy h := h

theorem respects_staysBusy : Respects (fun _ st => st ≠ .runnable) StaysBusy := by
  rintro a st (rfl | rfl) hok
  · exact absurd rfl hok
  · exact fun _ => .inl rfl

/--
**Exclusion**: in every run in which no call makes an environment runnable, or destroys
it for the second time, while another processor executes it, no environment is the
current one of two processors.
-/
theorem exclusion_of_run {l : List (Ppn M)} {s0 : Kern M} (h₀ : MemInit l s0)
    (hrun : Run next (Considerate fun _ st => st ≠ .runnable) (envInit s0) s) :
    ∀ c c' e, s.curenv c = some e → s.curenv c' = some e → c = c' :=
  fun _ _ _ hc hc' =>
    (placed_of_run tolerance_staysBusy respects_staysBusy h₀ hrun).unique hc hc'

/-! ### A child on another processor -/

/-- A program forks; the child's slot is 1, and its id 0x1001. -/
def forked : Option (Kern (Machine.withFree 8)) :=
  [Event.create Image.bare, .sched 0, .call 0 sysNoExofork 0 0 0 0 0].foldlM next
    (envInit (Kern.fresh 8))

/-- `sys_env_set_status` of the child, to `ENV_RUNNABLE`. -/
def makeRunnable : Event := .call 0 sysNoEnvSetStatus 0x1001 2 0 0 0

def destroyChild : Event := .call 0 sysNoEnvDestroy 0x1001 0 0 0 0

/-- The child is made runnable, and the second processor runs it. -/
def started : Option (Kern (Machine.withFree 8)) :=
  forked.bind fun s => (next s makeRunnable).bind fun s => next s (.sched 1)

theorem forked_eval :
    (forked.map fun s => decide (∀ c : CpuIdx, c ≠ 0 → s.curenv c = none)) = some true := by
  decide +kernel

theorem started_eval :
    (started.map fun s => decide (s.curenv 0 = some 0 ∧
      (∀ c : CpuIdx, c ≠ 0 → s.curenv c = if c = 1 then some 1 else none) ∧
      (s.envs 1).envStatus = .running)) = some true := by
  decide +kernel

theorem considerate_of_idle {ok : EnvStatus → EnvStatus → Prop} {o : Outside} {tf : Trapframe}
    (h : ∀ c', c' ≠ c → s.curenv c' = none) : Considerate ok s (.trap c o tf) := by
  intro _ e c' _ hc' he
  rw [h c' hc'] at he
  simp at he

theorem started_run (ok : EnvStatus → EnvStatus → Prop) {s : Kern (Machine.withFree 8)}
    (hs : started = some s) : Run next (Considerate ok) (envInit (Kern.fresh 8)) s := by
  obtain ⟨s3, h3, hs⟩ := bind_eq_some_iff.mp hs
  obtain ⟨s4, h4, h5⟩ := bind_eq_some_iff.mp hs
  have hrun : Run next (Considerate ok) (envInit (Kern.fresh 8)) s3 := by
    refine Run.of_foldlM h3 fun s ev hev => ?_
    simp only [List.mem_cons, List.not_mem_nil, or_false] at hev
    rcases hev with rfl | rfl | rfl
    · trivial
    · trivial
    · intro _ e c' _ _ _
      exact ⟨fun hno => absurd hno (by decide), fun hno => absurd hno (by decide)⟩
  have hidle : ∀ c : CpuIdx, c ≠ 0 → s3.curenv c = none := by
    have heval := forked_eval
    rw [h3] at heval
    exact of_decide_eq_true (some.inj heval)
  have hrun4 := hrun.next (considerate_of_idle hidle) h4
  exact hrun4.next (a := Event.sched 1) trivial h5

/-- Two processors with an environment each. -/
theorem exclusion_of_run_started :
    ∃ s : Kern (Machine.withFree 8),
      Run next (Considerate fun _ st => st ≠ .runnable) (envInit (Kern.fresh 8)) s ∧
      s.curenv 0 = some 0 ∧ s.curenv 1 = some 1 ∧
      ∀ c c' e, s.curenv c = some e → s.curenv c' = some e → c = c' := by
  obtain ⟨s, hs, heval⟩ := map_eq_some_iff.mp started_eval
  obtain ⟨h0, hothers, -⟩ := of_decide_eq_true heval
  have hrun := started_run (fun _ st => st ≠ .runnable) hs
  exact ⟨s, hrun, h0, hothers 1 (by decide), exclusion_of_run (memInit_fresh 8) hrun⟩

/-- The parent makes the running child runnable once more, and yields to it. -/
theorem one_env_two_processors :
    ∃ s : Kern (Machine.withFree 8), Run next (fun _ _ => True) (envInit (Kern.fresh 8)) s ∧
      s.curenv 0 = some 1 ∧ s.curenv 1 = some 1 := by
  have heval : (([Event.create Image.bare, .sched 0, .call 0 sysNoExofork 0 0 0 0 0, makeRunnable,
      .sched 1, makeRunnable, .call 0 sysNoYield 0 0 0 0 0].foldlM next
      (envInit (Kern.fresh 8))).map fun s => (s.curenv 0, s.curenv 1)) = some (some 1, some 1) := by
    decide +kernel
  obtain ⟨s, hs, hcur⟩ := map_eq_some_iff.mp heval
  exact ⟨s, .of_foldlM hs fun _ _ _ => trivial, (Prod.mk.inj hcur).1, (Prod.mk.inj hcur).2⟩

/-! ### Deferred destruction -/

/-- What a step of another processor may do to the status. -/
def OnlyMarked (a b : EnvStatus) : Prop := b = a ∨ a = .running ∧ b = .dying

theorem tolerance_onlyMarked : Tolerance OnlyMarked where
  refl _ := .inl rfl
  trans := by
    rintro a b c (rfl | ⟨rfl, rfl⟩) (rfl | ⟨h, rfl⟩)
    · exact .inl rfl
    · exact .inr ⟨h, rfl⟩
    · exact .inr ⟨rfl, rfl⟩
    · cases h
  dying := .inr ⟨rfl, rfl⟩
  busy := by
    rintro a b (rfl | ⟨rfl, rfl⟩) hb
    · exact hb
    · exact .inr rfl

theorem respects_onlyMarked : Respects (fun a st => st = a) OnlyMarked :=
  fun _ _ _ h => .inl h

/-- `env_free` has been there: the directory is released, the status is `ENV_FREE`, and the
slot is on `env_free_list`. -/
def Freed (s : Kern M) (e : EnvIdx) : Prop :=
  (s.envs e).envPgdir = none ∧ (s.envs e).envStatus = .free ∧ ∃ l, FreeEnvs s l ∧ e ∈ l

/-- Nothing of the kind. -/
def Kept (s s' : Kern M) (e : EnvIdx) : Prop :=
  (s'.envs e).envId = (s.envs e).envId ∧ (s'.envs e).envPgdir = (s.envs e).envPgdir ∧
    (s'.envs e).envPgdir ≠ none ∧ (s'.envs e).envStatus ≠ .free ∧ ∀ l, FreeEnvs s' l → e ∉ l

theorem FreeSlots.not_listed (h : FreeSlots s) (hdir : (s.envs e).envPgdir ≠ none) :
    ∀ l, FreeEnvs s l → e ∉ l := by
  intro l hl he
  obtain ⟨l', hl', hmem⟩ := h
  cases Chain.unique hl hl'
  exact hdir ((hmem e).mp he)

theorem Busy.live {st : EnvStatus} (h : Busy st) : st ≠ .free := by
  rcases h with rfl | rfl <;> simp

/-- A step of another processor keeps the environment, and at most marks it. -/
theorem Placed.kept {ev : Event} (h : Placed none s) (hev : Considerate (fun a st => st = a) s ev)
    (hn : Jos.next s ev = some s') (hcur : s.curenv c = some e) (hcpu : ev.cpu ≠ some c) :
    s'.curenv c = some e ∧ Kept s s' e ∧
      OnlyMarked (s.envs e).envStatus (s'.envs e).envStatus := by
  obtain ⟨hsp, hp⟩ := h.next tolerance_onlyMarked respects_onlyMarked hev hn
  have hcur' : s'.curenv c = some e := (hsp.curenv c hcpu).trans hcur
  obtain ⟨hid, hpg, -, hst⟩ := hsp.env c e hcpu hcur
  obtain ⟨hdir, hbusy⟩ := hp.there c e (by simp) hcur'
  exact ⟨hcur', ⟨hid, hpg, hdir, hbusy.live, hp.slots.not_listed hdir⟩, hst⟩

/-- A dying environment goes on dying until its processor traps. -/
theorem Placed.dying {ev : Event} (h : Placed none s)
    (hev : Considerate (fun a st => st = a) s ev) (hn : Jos.next s ev = some s')
    (hcur : s.curenv c = some e) (hdying : (s.envs e).envStatus = .dying)
    (hno : ∀ o tf, ev ≠ .trap c o tf) :
    s'.curenv c = some e ∧ (s'.envs e).envStatus = .dying := by
  by_cases hcpu : ev.cpu = some c
  · cases ev with
    | create img => simp [Event.cpu] at hcpu
    | sched c' =>
      cases hcpu
      simp [Jos.next, hcur] at hn
    | trap c' o tf =>
      cases hcpu
      exact absurd rfl (hno o tf)
    | store c' va b =>
      obtain ⟨_, _, pm, -, -, -, -, rfl⟩ := userStore_cases hn
      exact ⟨hcur, hdying⟩
  · obtain ⟨hcur', -, hst | ⟨hrun, -⟩⟩ := h.kept hev hn hcur hcpu
    · exact ⟨hcur', hst.trans hdying⟩
    · rw [hdying] at hrun
      cases hrun

theorem Placed.collect {o : Outside} {tf : Trapframe} (h : Placed none s)
    (hcur : s.curenv c = some e) (hdying : (s.envs e).envStatus = .dying)
    (hn : Jos.next s (.trap c o tf) = some s') : Freed s' e ∧ s'.curenv c ≠ some e := by
  simp only [Jos.next] at hn
  split at hn
  · rename_i huser
    obtain ⟨e', hcur', ⟨-, s1, hfree, hs⟩ | ⟨hc, -⟩⟩ := trap_cases huser hn
    · rw [hcur] at hcur'
      cases hcur'
      have hq := Quiet.setCpuStatus s c .started
      have h₀ : Placed (some c) (s.setCpuStatus c .started) :=
        (h.exempt _).within tolerance_onlyMarked (.quiet tolerance_onlyMarked hq)
      obtain ⟨-, hp⟩ := h₀.kill tolerance_onlyMarked ((hq.curenv c).trans hcur) hfree hs
      have hr := (Resched.setCurenv s1 c none).trans (Resched.schedYield hs)
      obtain ⟨d, pm1, pm2, -, -, -, rfl⟩ := envFree_cases hfree
      have hdir : (s'.envs e).envPgdir = none := by
        rw [hr.pgdir e]
        simp
      refine ⟨⟨hdir, ?_, ?_⟩, fun hc => (hp.there c e (by simp) hc).1 hdir⟩
      · rw [hr.free e]
        simp
      · obtain ⟨l, hl, hmem⟩ := hp.slots
        exact ⟨l, hl, (hmem e).mpr hdir⟩
    · rw [hcur] at hcur'
      cases hcur'
      exact absurd hdying hc
  · simp at hn

/--
**Deferred destruction**: take any run in which no call changes the status of an
environment that another processor executes, or destroys it for the second time.  A
step of another processor never frees such an environment, and at most marks it; once
it is dying it stays so until its own processor traps, and that trap frees it.
-/
theorem destruction_of_run {l : List (Ppn M)} {s0 : Kern M} (h₀ : MemInit l s0)
    (hrun : Run next (Considerate fun a st => st = a) (envInit s0) s)
    (hcur : s.curenv c = some e) :
    (∀ ev s', Considerate (fun a st => st = a) s ev → next s ev = some s' → ev.cpu ≠ some c →
      s'.curenv c = some e ∧ Kept s s' e ∧
        OnlyMarked (s.envs e).envStatus (s'.envs e).envStatus) ∧
    ((s.envs e).envStatus = .dying → ∀ s1,
      Run next (fun s ev => Considerate (fun a st => st = a) s ev ∧ ∀ o tf, ev ≠ .trap c o tf)
        s s1 →
      s1.curenv c = some e ∧ (s1.envs e).envStatus = .dying ∧
        ∀ o tf s2, next s1 (.trap c o tf) = some s2 → Freed s2 e ∧ s2.curenv c ≠ some e) := by
  have h := placed_of_run tolerance_onlyMarked respects_onlyMarked h₀ hrun
  refine ⟨fun ev s' hev hn hcpu => h.kept hev hn hcur hcpu, fun hdying s1 hrun1 => ?_⟩
  have hinv : Placed none s1 ∧ s1.curenv c = some e ∧ (s1.envs e).envStatus = .dying := by
    refine hrun1.inv (I := fun s => Placed none s ∧ s.curenv c = some e ∧
      (s.envs e).envStatus = .dying) ⟨h, hcur, hdying⟩ ?_
    rintro s ev s' ⟨hp, hc, hd⟩ ⟨hev, hno⟩ hn
    exact ⟨(hp.next tolerance_onlyMarked respects_onlyMarked hev hn).2,
      hp.dying hev hn hc hd hno⟩
  obtain ⟨hp, hc, hd⟩ := hinv
  exact ⟨hc, hd, fun o tf s2 hn => hp.collect hc hd hn⟩

/-- The parent destroys the child that runs on the second processor. -/
def marked : Option (Kern (Machine.withFree 8)) := started.bind fun s => next s destroyChild

theorem marked_eval :
    (marked.map fun s => decide (s.curenv 1 = some 1 ∧ (s.envs 1).envStatus = .dying))
      = some true := by
  decide +kernel

theorem marked_run {s : Kern (Machine.withFree 8)} (hs : marked = some s) :
    Run next (Considerate fun a st => st = a) (envInit (Kern.fresh 8)) s := by
  obtain ⟨s5, h5, h6⟩ := bind_eq_some_iff.mp hs
  have heval := started_eval
  rw [h5] at heval
  obtain ⟨-, hothers, hrunning⟩ := of_decide_eq_true (some.inj heval)
  refine (started_run _ h5).next ?_ h6
  intro _ e c' _ hc' he
  refine ⟨fun _ => ?_, fun hno => absurd hno (by decide)⟩
  rw [hothers c' hc'] at he
  split at he
  · cases he
    exact hrunning
  · simp at he

/-- The child is dying on the second processor, whose next trap frees it. -/
theorem destruction_of_run_marked :
    ∃ s : Kern (Machine.withFree 8),
      Run next (Considerate fun a st => st = a) (envInit (Kern.fresh 8)) s ∧
      s.curenv 1 = some 1 ∧ (s.envs 1).envStatus = .dying ∧
      ∀ o tf s2, next s (.trap 1 o tf) = some s2 → Freed s2 1 ∧ s2.curenv 1 ≠ some 1 := by
  obtain ⟨s, hs, heval⟩ := map_eq_some_iff.mp marked_eval
  obtain ⟨hcur, hdying⟩ := of_decide_eq_true heval
  have hrun := marked_run hs
  exact ⟨s, hrun, hcur, hdying,
    ((destruction_of_run (memInit_fresh 8) hrun hcur).2 hdying s .start).2.2⟩

/-- The parent destroys the child a second time, and frees it under the second processor. -/
theorem freed_while_executing :
    ∃ s s' : Kern (Machine.withFree 8), Run next (fun _ _ => True) (envInit (Kern.fresh 8)) s ∧
      s.curenv 1 = some 1 ∧ next s destroyChild = some s' ∧ destroyChild.cpu = some 0 ∧
      s'.curenv 1 = some 1 ∧ (s'.envs 1).envPgdir = none ∧ (s'.envs 1).envStatus = .free ∧
      s'.envFreeList = some 1 := by
  have heval : (marked.bind fun s => (next s destroyChild).map fun s' => decide
      (s'.curenv 1 = some 1 ∧ (s'.envs 1).envPgdir = none ∧ (s'.envs 1).envStatus = .free ∧
        s'.envFreeList = some 1)) = some true := by
    decide +kernel
  obtain ⟨s, hs, hmap⟩ := bind_eq_some_iff.mp heval
  obtain ⟨s', hs', hfacts⟩ := map_eq_some_iff.mp hmap
  have hmarked := marked_eval
  rw [hs] at hmarked
  obtain ⟨hcur, -⟩ := of_decide_eq_true (some.inj hmarked)
  have hrun : Run next (fun _ _ => True) (envInit (Kern.fresh 8)) s :=
    (marked_run hs).inv .start fun _ _ _ h _ hn => h.next trivial hn
  exact ⟨s, s', hrun, hcur, hs', rfl, of_decide_eq_true hfacts⟩

end Jos
