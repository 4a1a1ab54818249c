/-
Whom `sched_yield` runs.

The search of `sched_yield` goes once round `envs[]` and takes the first runnable slot.  It
starts at the slot of the current environment and not behind it.  As long as that environment is
`ENV_RUNNING` there is no difference, but an environment can make itself `ENV_RUNNABLE` with
`sys_env_set_status`, and is then chosen before all others.
-/
import Os.Proofs.Jos.Start

namespace Jos

open Option

variable {M : Machine} {s : Kern M} {c : CpuIdx} {k e start : EnvIdx}

abbrev Kern.Runnable (s : Kern M) (e : EnvIdx) : Prop := (s.envs e).envStatus = .runnable

/-- The environment is executing on processor `c`. -/
abbrev Kern.RunningOn (s : Kern M) (c : CpuIdx) (e : EnvIdx) : Prop :=
  (s.envs e).envStatus = .running ∧ (s.envs e).envCpunum = c

/-! ### The choice -/

/-- The environment `sched_yield` hands to `env_run`; `none` is for `sched_halt`. -/
def schedPick (s : Kern M) (c : CpuIdx) : Option EnvIdx :=
  match findRunnable s (startid s c) with
  | some k => some k
  | none => if s.RunningOn c (startid s c) then some (startid s c) else none

theorem schedYield_eq (s : Kern M) (c : CpuIdx) :
    schedYield s c =
      match schedPick s c with
      | some e => envRun s c e
      | none => schedHalt s c := by
  unfold schedYield schedPick
  cases findRunnable s (startid s c) with
  | some k => rfl
  | none =>
    by_cases h : s.RunningOn c (startid s c)
    · simp only [if_pos h]
    · simp only [if_neg h]

/-- The search stops at the first runnable slot from `start` on. -/
theorem findRunnable_some (h : findRunnable s start = some e) :
    ∃ d, e = start + d ∧ s.Runnable e ∧ ∀ d' < d, ¬ s.Runnable (start + d') := by
  obtain ⟨hrun, i, hi, heq, hbefore⟩ := List.find?_eq_some_iff_getElem.mp h
  rw [List.length_map, List.length_finRange] at hi
  refine ⟨⟨i, hi⟩, ?_, of_decide_eq_true hrun, ?_⟩
  · rw [← heq]
    simp
  · intro d' hd'
    have hno := hbefore d'.val hd'
    simpa using hno

theorem findRunnable_none : findRunnable s start = none ↔ ∀ d, ¬ s.Runnable (start + d) := by
  simp [findRunnable, List.find?_eq_none]

/-! ### Round robin -/

/-- What a choice of processor `c` with current slot `k` has to be. -/
structure RoundRobin (s : Kern M) (c : CpuIdx) (k : EnvIdx) (pick : Option EnvIdx) : Prop where
  /-- The first runnable slot behind `k`. -/
  first : ∀ d, d ≠ 0 → s.Runnable (k + d) → (∀ d' < d, d' ≠ 0 → ¬ s.Runnable (k + d')) →
    pick = some (k + d)
  /-- Slot `k` itself comes last. -/
  own : (∀ d, d ≠ 0 → ¬ s.Runnable (k + d)) →
    pick = if s.Runnable k ∨ s.RunningOn c k then some k else none
  /-- What runs elsewhere stays there. -/
  here : ∀ e, pick = some e → (s.envs e).envStatus = .running → (s.envs e).envCpunum = c

theorem schedPick_here (h : schedPick s c = some e) (hrun : (s.envs e).envStatus = .running) :
    (s.envs e).envCpunum = c := by
  unfold schedPick at h
  split at h
  · rename_i k hk
    cases h
    obtain ⟨-, -, hk', -⟩ := findRunnable_some hk
    rw [hk'] at hrun
    cases hrun
  · split at h
    · rename_i hmine
      cases h
      exact hmine.2
    · simp at h

theorem schedPick_self (hstart : startid s c = k) (hk : s.Runnable k) :
    schedPick s c = some k := by
  unfold schedPick
  rw [hstart]
  cases hfind : findRunnable s k with
  | none =>
    have hnone := findRunnable_none.mp hfind 0
    rw [Fin.add_zero] at hnone
    exact absurd hk hnone
  | some e =>
    obtain ⟨d, rfl, -, hfirst⟩ := findRunnable_some hfind
    by_cases hd : d = 0
    · rw [hd, Fin.add_zero]
    · have hzero := hfirst 0 (Fin.pos_iff_ne_zero.mpr hd)
      rw [Fin.add_zero] at hzero
      exact absurd hk hzero

theorem schedPick_own (hstart : startid s c = k) (h : ∀ d, d ≠ 0 → ¬ s.Runnable (k + d)) :
    schedPick s c = if s.Runnable k ∨ s.RunningOn c k then some k else none := by
  by_cases hk : s.Runnable k
  · rw [if_pos (.inl hk), schedPick_self hstart hk]
  have hnone : findRunnable s k = none := by
    refine findRunnable_none.mpr fun d => ?_
    by_cases hd : d = 0
    · rwa [hd, Fin.add_zero]
    · exact h d hd
  unfold schedPick
  rw [hstart, hnone]
  by_cases hmine : s.RunningOn c k
  · simp only [if_pos hmine, if_pos (Or.inr hmine)]
  have hneither : ¬ (s.Runnable k ∨ s.RunningOn c k) := by
    rintro (hc | hc)
    · exact hk hc
    · exact hmine hc
  simp only [if_neg hmine, if_neg hneither]

theorem schedPick_first {d : EnvIdx} (hstart : startid s c = k) (hk : ¬ s.Runnable k)
    (hrun : s.Runnable (k + d)) (hfirst : ∀ d' < d, d' ≠ 0 → ¬ s.Runnable (k + d')) :
    schedPick s c = some (k + d) := by
  unfold schedPick
  rw [hstart]
  cases hfind : findRunnable s k with
  | none => exact absurd hrun (findRunnable_none.mp hfind d)
  | some e =>
    obtain ⟨d0, rfl, hrun0, hfirst0⟩ := findRunnable_some hfind
    have hne : d0 ≠ 0 := by
      rintro rfl
      rw [Fin.add_zero] at hrun0
      exact hk hrun0
    rcases lt_trichotomy d0 d with hlt | heq | hgt
    · exact absurd hrun0 (hfirst d0 hlt hne)
    · rw [heq]
    · exact absurd hrun (hfirst0 d hgt)

/--
**`sched_yield` is round robin, unless the current environment has made itself runnable while
another one is.**  `hid` is what `env_alloc` keeps: the slot is in the low bits of the id.
-/
theorem round_robin_iff (hcur : s.curenv c = some k) (hid : envx (s.envs k).envId = k) :
    (schedYield s c =
      match schedPick s c with
      | some e => envRun s c e
      | none => schedHalt s c) ∧
    (RoundRobin s c k (schedPick s c) ↔
      ¬ (s.Runnable k ∧ ∃ d, d ≠ 0 ∧ s.Runnable (k + d))) := by
  have hstart : startid s c = k := by
    unfold startid
    rw [hcur]
    exact hid
  refine ⟨schedYield_eq s c, ?_, ?_⟩
  · rintro hrr ⟨hk, hsome⟩
    obtain ⟨d, ⟨hd, hrun⟩, hmin⟩ :=
      wellFounded_lt.has_min {d | d ≠ 0 ∧ s.Runnable (k + d)} hsome
    have hpick := hrr.first d hd hrun fun d' hlt hd' hrun' => hmin d' ⟨hd', hrun'⟩ hlt
    rw [schedPick_self hstart hk] at hpick
    have hval : k.val = (k.val + d.val) % 1024 :=
      (congrArg Fin.val (some.inj hpick)).trans (Fin.val_add k d)
    have hklt : k.val < 1024 := k.isLt
    have hdlt : d.val < 1024 := d.isLt
    have hd' : d.val ≠ 0 := Fin.val_ne_of_ne hd
    omega
  · intro hno
    refine ⟨?_, fun h => schedPick_own hstart h, fun e he => schedPick_here he⟩
    intro d hd hrun hfirst
    exact schedPick_first hstart (fun hk => hno ⟨hk, d, hd, hrun⟩) hrun hfirst

theorem twoPrograms_eval :
    (twoPrograms.map fun s => decide (s.curenv 0 = some 0 ∧ envx (s.envs 0).envId = 0 ∧
      (s.envs 0).envStatus = .running ∧ schedPick s 0 = some 1)) = some true := by
  decide +kernel

/-- The second one is next. -/
theorem round_robin_iff_two :
    ∃ s, twoPrograms = some s ∧ s.curenv 0 = some 0 ∧ schedPick s 0 = some 1 ∧
      RoundRobin s 0 0 (schedPick s 0) := by
  obtain ⟨s, hs, heval⟩ := map_eq_some_iff.mp twoPrograms_eval
  obtain ⟨hcur, hid, hst, hpick⟩ := of_decide_eq_true heval
  refine ⟨s, hs, hcur, hpick, (round_robin_iff hcur hid).2.mpr ?_⟩
  rintro ⟨hk, -⟩
  rw [Kern.Runnable, hst] at hk
  cases hk

/-- The first program makes itself runnable, and `sched_yield` chooses it again. -/
theorem yields_to_itself :
    ∃ s s', twoPrograms = some s ∧ sysEnvSetStatus s 0 0 2 = some (0, s') ∧
      s'.curenv 0 = some 0 ∧ s'.Runnable (0 + 1) ∧ schedPick s' 0 = some 0 ∧
      ¬ RoundRobin s' 0 0 (schedPick s' 0) := by
  have heval : (twoPrograms.bind fun s => (sysEnvSetStatus s 0 0 2).map fun r => decide (r.1 = 0 ∧
      r.2.curenv 0 = some 0 ∧ r.2.Runnable (0 + 1) ∧ schedPick r.2 0 = some 0)) = some true := by
    decide +kernel
  obtain ⟨s, hs, hmap⟩ := bind_eq_some_iff.mp heval
  obtain ⟨⟨r, s'⟩, hs', hfacts⟩ := map_eq_some_iff.mp hmap
  obtain ⟨rfl, hcur, hrun, hpick⟩ := of_decide_eq_true hfacts
  refine ⟨s, s', hs, hs', hcur, hrun, hpick, fun hrr => ?_⟩
  have hfirst : schedPick s' 0 = some (0 + 1) := by
    refine hrr.first 1 (by decide) hrun fun d' hlt hne => absurd (Fin.ext ?_) hne
    exact Nat.lt_one_iff.mp hlt
  rw [hpick] at hfirst
  exact absurd hfirst (by decide)

end Jos
