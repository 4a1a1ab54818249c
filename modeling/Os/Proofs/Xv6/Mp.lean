/-
When `mpinit` ends.

An entry of a type that it knows is passed, one of another type is looked at for ever.
-/
import Os.Xv6.Mp

namespace Xv6

open Jos (Word confLength entryType)

variable {mem : Word → BitVec 8} {conf : Word} {p q n : Nat} {s s' : Mp}

/-- The entry at `q` is reached from that at `p`, through entries of known types. -/
inductive Reached (mem : Word → BitVec 8) (conf : Word) : Nat → Nat → Prop
  | here (p : Nat) : Reached mem conf p p
  | proc {p q : Nat} : p < confLength mem conf → entryType mem conf p = 0 →
      Reached mem conf (p + 20) q → Reached mem conf p q
  | other {p q : Nat} : p < confLength mem conf → entryType mem conf p ≠ 0 →
      entryType mem conf p ≤ 4 → Reached mem conf (p + 8) q → Reached mem conf p q

/-- One turn of the loop, for an entry of a known type. -/
theorem mpLoop_known (s : Mp) (hp : p < confLength mem conf) (hk : entryType mem conf p ≤ 4) :
    ∃ s' : Mp, (s.ncpu ≤ maxCpus → s'.ncpu ≤ maxCpus) ∧ ∀ n, mpLoop mem conf (n + 1) p s =
      mpLoop mem conf n (if entryType mem conf p = 0 then p + 20 else p + 8) s' := by
  simp only [mpLoop, if_pos hp, hk, if_true]
  by_cases h0 : entryType mem conf p = 0
  · refine ⟨mpproc mem conf p s, fun hle => ?_, fun n => by rw [if_pos h0, if_pos h0]⟩
    unfold mpproc
    split
    next hlt => exact hlt
    next => exact hle
  simp only [if_neg h0]
  by_cases h2 : entryType mem conf p = 2
  · refine ⟨_, fun hle => ?_, fun n => if_pos h2⟩
    exact hle
  · exact ⟨s, id, fun n => if_neg h2⟩

/-- An entry of an unknown type is not passed. -/
theorem mpLoop_stuck (hp : p < confLength mem conf) (hk : ¬entryType mem conf p ≤ 4) :
    mpLoop mem conf n p s = none := by
  induction n generalizing s with
  | zero => rfl
  | succ n ih =>
    rw [mpLoop, if_pos hp, if_neg (by omega), if_neg (by omega), if_neg hk]
    exact ih

/-- Where the loop ends, it has known all entries. -/
theorem known_of_mpLoop (h : mpLoop mem conf n p s = some s') (hr : Reached mem conf p q)
    (hq : q < confLength mem conf) : entryType mem conf q ≤ 4 := by
  induction hr generalizing n s with
  | here p =>
    by_contra hk
    rw [mpLoop_stuck hq hk] at h
    cases h
  | @proc p q hp h0 _ ih =>
    cases n with
    | zero => cases h
    | succ n =>
      obtain ⟨s1, -, hstep⟩ := mpLoop_known s hp (by omega : entryType mem conf p ≤ 4)
      rw [hstep, if_pos h0] at h
      exact ih h hq
  | @other p q hp h0 hk _ ih =>
    cases n with
    | zero => cases h
    | succ n =>
      obtain ⟨s1, -, hstep⟩ := mpLoop_known s hp hk
      rw [hstep, if_neg h0] at h
      exact ih h hq

/-- Where all entries are known, the loop ends. -/
theorem mpLoop_ends (hs : s.ncpu ≤ maxCpus)
    (hall : ∀ q, Reached mem conf p q → q < confLength mem conf → entryType mem conf q ≤ 4) :
    ∃ n s', mpLoop mem conf n p s = some s' ∧ s'.ncpu ≤ maxCpus := by
  induction hm : confLength mem conf - p using Nat.strong_induction_on generalizing p s with
  | _ m ih =>
    by_cases hp : p < confLength mem conf
    · have hk := hall p (.here p) hp
      obtain ⟨s1, hle, hstep⟩ := mpLoop_known s hp hk
      by_cases h0 : entryType mem conf p = 0
      · obtain ⟨n, s', hend, hs'⟩ := ih _ (by omega) (hle hs)
          (fun q hr => hall q (.proc hp h0 hr)) rfl
        exact ⟨n + 1, s', by rw [hstep, if_pos h0, hend], hs'⟩
      · obtain ⟨n, s', hend, hs'⟩ := ih _ (by omega) (hle hs)
          (fun q hr => hall q (.other hp h0 hk hr)) rfl
        exact ⟨n + 1, s', by rw [hstep, if_neg h0, hend], hs'⟩
    · exact ⟨1, s, by rw [mpLoop, if_neg hp], hs⟩

/-- **When `mpinit` ends**: if and only if the table has no entry of an unknown type, before its
end, behind entries of known types. -/
theorem mpinit_ends_iff (mem : Word → BitVec 8) (conf : Word) :
    (∃ fuel r, mpinit mem conf fuel = some r ∧ ∀ s ∈ r, s.ncpu ≤ maxCpus) ↔
      ∀ q, Reached mem conf 44 q → q < confLength mem conf → entryType mem conf q ≤ 4 := by
  constructor
  · rintro ⟨fuel, r, hend, -⟩ q hr hq
    obtain ⟨s, hloop, -⟩ := Option.map_eq_some_iff.mp hend
    exact known_of_mpLoop hloop hr hq
  · intro hall
    obtain ⟨n, s, hloop, hs⟩ := mpLoop_ends (s := ⟨0, _, _, _, _⟩) (Nat.zero_le maxCpus) hall
    refine ⟨n, _, congrArg (Option.map _) hloop, fun s' hs' => ?_⟩
    dsimp only at hs'
    split at hs'
    · cases hs'
      exact hs
    · cases hs'

/-- A table at `0x9fc00` with one entry of type 5. -/
def oddTable (a : Word) : BitVec 8 :=
  ([0x50, 0x43, 0x4d, 0x50, 45, 0, 1, 157].getD (a - 0x9fc00).toNat 0) +
    if a = 0x9fc2c then 5 else 0

/-- The checks are passed, and `mpinit` does not come to an end. -/
theorem mpinit_hangs :
    MpAccepted oddTable 0x9fc00 ∧ ∀ fuel, mpinit oddTable 0x9fc00 fuel = none := by
  refine ⟨by decide +kernel, fun fuel => ?_⟩
  unfold mpinit
  rw [mpLoop_stuck (by decide) (by decide)]
  rfl

end Xv6
