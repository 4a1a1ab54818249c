/-
What scheduling leaves alone.

Most of what a trap does is to change statuses, saved registers and `curenv`.  None of
that moves an environment in or out of the table, and none of it touches memory.
`SameTables s s'` says so once: it lists what stays, and every function that only
schedules is shown to keep to it.  An invariant of the environment table or of the
page tables is then carried over all of them by a single lemma.

`Resched` adds that free slots stay free and others stay taken.  `env_run` is the
delicate one there.  It sets the status to `ENV_RUNNING` without looking, so it keeps a
free slot free only because nobody runs one.
-/
import Os.Jos.System

namespace Jos

open Function

variable {M : Machine}

/-- **`sched_yield`** runs an environment that is runnable, or goes on with its own one, or
halts. -/
theorem schedYield_cases {s s' : Kern M} {c : CpuIdx} (h : schedYield s c = some s') :
    (∃ k, ((s.envs k).envStatus = .runnable ∨
        (s.envs k).envStatus = .running ∧ (s.envs k).envCpunum = c) ∧ envRun s c k = some s') ∨
      s' = (s.setCurenv c none).setCpuStatus c .halted := by
  unfold schedYield at h
  split at h
  · rename_i k hk
    exact .inl ⟨k, .inl (by simpa using List.find?_some hk), h⟩
  simp only at h
  split at h
  · rename_i hmine
    exact .inl ⟨_, .inr hmine, h⟩
  unfold schedHalt at h
  split at h
  · cases h
    exact .inr rfl
  · simp at h

section

variable (s : Kern M) (c : CpuIdx) (d : Ppn M)

@[simp] theorem envs_setCr3 : (s.setCr3 c d).envs = s.envs := rfl

@[simp] theorem cpus_setCr3 : (s.setCr3 c d).cpus = s.cpus := rfl

end

/-- From `s` to `s'` only statuses, saved registers and processors changed. -/
structure SameTables (s s' : Kern M) : Prop where
  pm : s'.pm = s.pm
  freeList : s'.envFreeList = s.envFreeList
  link : ∀ e, (s'.envs e).envLink = (s.envs e).envLink
  id : ∀ e, (s'.envs e).envId = (s.envs e).envId
  parent : ∀ e, (s'.envs e).envParentId = (s.envs e).envParentId
  pgdir : ∀ e, (s'.envs e).envPgdir = (s.envs e).envPgdir

/-- And no slot became free, or stopped being so. -/
structure Resched (s s' : Kern M) : Prop extends SameTables s s' where
  free : ∀ e, (s'.envs e).envStatus = .free ↔ (s.envs e).envStatus = .free

namespace SameTables

variable {s s' s'' : Kern M} {c : CpuIdx} {e : EnvIdx}

theorem refl (s : Kern M) : SameTables s s :=
  ⟨rfl, rfl, fun _ => rfl, fun _ => rfl, fun _ => rfl, fun _ => rfl⟩

theorem trans (h : SameTables s s') (h' : SameTables s' s'') : SameTables s s'' where
  pm := h'.pm.trans h.pm
  freeList := h'.freeList.trans h.freeList
  link e := (h'.link e).trans (h.link e)
  id e := (h'.id e).trans (h.id e)
  parent e := (h'.parent e).trans (h.parent e)
  pgdir e := (h'.pgdir e).trans (h.pgdir e)

theorem setCpus (s : Kern M) (cpus : CpuIdx → CpuInfo) : SameTables s { s with cpus := cpus } :=
  ⟨rfl, rfl, fun _ => rfl, fun _ => rfl, fun _ => rfl, fun _ => rfl⟩

theorem setCr3 (s : Kern M) (c : CpuIdx) (d : Ppn M) : SameTables s (s.setCr3 c d) :=
  ⟨rfl, rfl, fun _ => rfl, fun _ => rfl, fun _ => rfl, fun _ => rfl⟩

/-- One environment is rewritten, and its place in the table stays. -/
theorem modify (s : Kern M) (e : EnvIdx) {f : Env M → Env M}
    (hlink : (f (s.envs e)).envLink = (s.envs e).envLink)
    (hid : (f (s.envs e)).envId = (s.envs e).envId)
    (hparent : (f (s.envs e)).envParentId = (s.envs e).envParentId)
    (hpgdir : (f (s.envs e)).envPgdir = (s.envs e).envPgdir) :
    SameTables s (s.modifyEnv e f) := by
  have hat : ∀ k, k ≠ e → (s.modifyEnv e f).envs k = s.envs k := fun k hk => by
    simp [Kern.modifyEnv, update_of_ne hk]
  have hself : (s.modifyEnv e f).envs e = f (s.envs e) := by simp [Kern.modifyEnv]
  refine ⟨rfl, rfl, ?_, ?_, ?_, ?_⟩ <;> intro k <;> by_cases hk : k = e
  · rw [hk, hself, hlink]
  · rw [hat k hk]
  · rw [hk, hself, hid]
  · rw [hat k hk]
  · rw [hk, hself, hparent]
  · rw [hat k hk]
  · rw [hk, hself, hpgdir]
  · rw [hat k hk]

theorem preempt (s : Kern M) (c : CpuIdx) : SameTables s (preempt s c) := by
  unfold Jos.preempt
  split
  · exact refl s
  · split
    · exact modify s _ rfl rfl rfl rfl
    · exact refl s

theorem envRun (h : envRun s c e = some s') : SameTables s s' := by
  have h1 : SameTables s ((Jos.preempt s c).setCurenv c (some e)) :=
    (preempt s c).trans (setCpus _ _)
  simp only [Jos.envRun] at h
  split at h
  · simp at h
  · cases h
    exact ((h1.trans (modify _ e rfl rfl rfl rfl)).trans (setCr3 _ c _)).trans
      (modify _ e rfl rfl rfl rfl)

end SameTables

namespace Resched

variable {s s' s'' : Kern M} {c : CpuIdx} {e : EnvIdx}

theorem refl (s : Kern M) : Resched s s := ⟨.refl s, fun _ => Iff.rfl⟩

theorem trans (h : Resched s s') (h' : Resched s' s'') : Resched s s'' :=
  ⟨h.toSameTables.trans h'.toSameTables, fun e => (h'.free e).trans (h.free e)⟩

theorem setCurenv (s : Kern M) (c : CpuIdx) (k : Option EnvIdx) : Resched s (s.setCurenv c k) :=
  ⟨.setCpus s _, fun _ => Iff.rfl⟩

theorem setCpuStatus (s : Kern M) (c : CpuIdx) (st : CpuStatus) :
    Resched s (s.setCpuStatus c st) :=
  ⟨.setCpus s _, fun _ => Iff.rfl⟩

/-- One environment is rewritten, and what matters of it stays. -/
theorem modify (s : Kern M) (e : EnvIdx) {f : Env M → Env M}
    (hlink : (f (s.envs e)).envLink = (s.envs e).envLink)
    (hid : (f (s.envs e)).envId = (s.envs e).envId)
    (hparent : (f (s.envs e)).envParentId = (s.envs e).envParentId)
    (hpgdir : (f (s.envs e)).envPgdir = (s.envs e).envPgdir)
    (hfree : (f (s.envs e)).envStatus = .free ↔ (s.envs e).envStatus = .free) :
    Resched s (s.modifyEnv e f) := by
  refine ⟨.modify s e hlink hid hparent hpgdir, fun k => ?_⟩
  by_cases hk : k = e
  · subst hk
    simpa [Kern.modifyEnv] using hfree
  · simp [Kern.modifyEnv, update_of_ne hk]

theorem setStatus {st : EnvStatus} (he : (s.envs e).envStatus ≠ .free) (hst : st ≠ .free) :
    Resched s (s.setStatus e st) :=
  modify s e rfl rfl rfl rfl ⟨fun h => absurd h hst, fun h => absurd h he⟩

theorem setEax (s : Kern M) (home : Option EnvIdx) (r : Int) : Resched s (setEax s home r) := by
  cases home with
  | none => exact refl s
  | some e =>
    unfold Jos.setEax
    exact modify s e rfl rfl rfl rfl Iff.rfl

/-! ### The scheduler -/

theorem preempt (s : Kern M) (c : CpuIdx) : Resched s (preempt s c) := by
  unfold Jos.preempt
  split
  · exact refl s
  rename_i k hk
  split
  · rename_i hrun
    exact setStatus (by simp [hrun]) (by simp)
  · exact refl s

theorem envRun (he : (s.envs e).envStatus ≠ .free) (h : envRun s c e = some s') :
    Resched s s' := by
  refine ⟨.envRun h, ?_⟩
  have h1 : ∀ k, ((Jos.preempt s c).envs k).envStatus = .free ↔ (s.envs k).envStatus = .free :=
    (preempt s c).free
  simp only [Jos.envRun] at h
  split at h
  · simp at h
  cases h
  intro k
  rw [← h1 k]
  by_cases hk : k = e
  · subst hk
    simpa [Kern.modifyEnv, Kern.setCurenv] using fun hc => he ((h1 k).mp hc)
  · simp [Kern.modifyEnv, Kern.setCurenv, hk]

theorem schedYield (h : schedYield s c = some s') : Resched s s' := by
  rcases schedYield_cases h with ⟨k, hk | ⟨hk, -⟩, hrun⟩ | rfl
  · exact envRun (by simp [hk]) hrun
  · exact envRun (by simp [hk]) hrun
  · exact (setCurenv s c none).trans (setCpuStatus _ c _)

theorem trapReturn (h : trapReturn s c = some s') : Resched s s' := by
  unfold Jos.trapReturn at h
  split at h
  · exact schedYield h
  · split at h
    · rename_i e _ hrun
      exact envRun (by simp [hrun]) h
    · exact schedYield h

end Resched

/-! ### What `env_run` writes -/

theorem preempt_env (s : Kern M) (c : CpuIdx) (e : EnvIdx) :
    (preempt s c).envs e = s.envs e ∨
      s.curenv c = some e ∧ (preempt s c).envs e = { s.envs e with envStatus := .runnable } := by
  unfold preempt
  split
  · exact .inl rfl
  rename_i k hk
  split
  · by_cases he : e = k
    · subst he
      exact .inr ⟨hk, by simp [Kern.setStatus, Kern.modifyEnv]⟩
    · exact .inl (by simp [Kern.setStatus, Kern.modifyEnv, update_of_ne he])
  · exact .inl rfl

theorem curenv_preempt (s : Kern M) (c c' : CpuIdx) : (preempt s c).curenv c' = s.curenv c' := by
  unfold preempt
  split
  · rfl
  · split <;> rfl

/-- **`env_run`**: the processor executes `k`, and at most its old environment has changed
besides. -/
theorem envRun_cases {s s' : Kern M} {c : CpuIdx} {k : EnvIdx} (h : envRun s c k = some s') :
    s'.curenv c = some k ∧ (∀ c', c' ≠ c → s'.curenv c' = s.curenv c') ∧
      ((s'.envs k).envStatus = .running ∧ (s'.envs k).envCpunum = c ∧
        (s'.envs k).envPgdir ≠ none ∧ (s'.envs k).envTf = (s.envs k).envTf ∧
        (s'.envs k).envPgfaultUpcall = (s.envs k).envPgfaultUpcall) ∧
      ∀ e, e ≠ k → s'.envs e = s.envs e ∨
        s.curenv c = some e ∧ s'.envs e = { s.envs e with envStatus := .runnable } := by
  simp only [envRun] at h
  split at h
  · simp at h
  rename_i d hd
  cases h
  refine ⟨?_, fun c' hc' => ?_, ⟨?_, ?_, ?_, ?_⟩, fun e he => ?_⟩
  · simp [Kern.modifyEnv, Kern.setCurenv, Kern.curenv]
  · rw [← curenv_preempt s c c']
    simp [Kern.modifyEnv, Kern.setCurenv, Kern.curenv, update_of_ne hc']
  · simp [Kern.modifyEnv]
  · simp [Kern.modifyEnv]
  · simp only [Kern.modifyEnv, update_self] at hd ⊢
    rw [hd]
    simp
  · rcases preempt_env s c k with heq | ⟨-, heq⟩ <;> simp [Kern.modifyEnv, Kern.setCurenv, heq]
  · simpa [Kern.modifyEnv, Kern.setCurenv, update_of_ne he] using preempt_env s c e

end Jos
