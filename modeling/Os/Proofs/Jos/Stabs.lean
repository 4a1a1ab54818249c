/-
The binary search over stabs.

Only some of the stabs have the type that is looked for, so the search goes from the middle down to
the next one that has it.  What it has learned is an invariant: to the left of `l` all stabs of
the type are at or before the address, to the right of `r` all are behind it, and `*region_right` is
`r`.  It does not matter for this that the search changes the address it compares with after an
exact match, as long as there is no stab at the next address.  If there is one, the search takes it
for an exact match as well and goes past the stab it should have stopped at.
-/
import Os.Jos.Kdebug

namespace Jos

open BitVec (le_of_lt le_refl not_lt)
open Option

variable {stabs : Int → Stab} {type L R : Int} {addr : Word}
variable {l r i j t m : Int} {s : Search} {looks : List Look}

/-! ### What the search is for -/

/-- The stabs of a type are in the order of their addresses. -/
def Increasing (stabs : Int → Stab) (type L R : Int) : Prop :=
  ∀ i j, L ≤ i → i < j → j ≤ R → (stabs i).Is type → (stabs j).Is type →
    (stabs i).nValue < (stabs j).nValue

/-- `p` is the last stab of the type in `[L, R]` at or before `addr`. -/
structure LastAt (stabs : Int → Stab) (type L R : Int) (addr : Word) (p : Int) : Prop where
  lower : L ≤ p
  upper : p ≤ R
  is : (stabs p).Is type
  le : (stabs p).nValue ≤ addr
  last : ∀ i, p < i → i ≤ R → (stabs i).Is type → addr < (stabs i).nValue

/-- `r` is just before the next stab of the type behind `p`, or is `R` if there is none. -/
structure UpTo (stabs : Int → Stab) (type R p r : Int) : Prop where
  le : p ≤ r
  none : ∀ i, p < i → i ≤ r → ¬(stabs i).Is type
  stop : r = R ∨ (r < R ∧ (stabs (r + 1)).Is type)

/-- What `*region_left` and `*region_right` are to be. -/
structure Finds (stabs : Int → Stab) (type L R : Int) (addr : Word) (l r : Int) : Prop where
  hit : ∀ p, LastAt stabs type L R addr p → l = p ∧ UpTo stabs type R p r
  miss : (∀ i, L ≤ i → i ≤ R → ¬(stabs i).Is type) → r < l

/-! ### Scanning -/

/-- Where the scan from `m` down to `lo` stops. -/
structure Scanned (stabs : Int → Stab) (type lo m m' : Int) : Prop where
  lower : lo ≤ m'
  upper : m' ≤ m
  none : ∀ i, m' < i → i ≤ m → ¬(stabs i).Is type
  stop : m' = lo ∨ (stabs m').Is type

theorem scanDown_spec (stabs : Int → Stab) (type : Int) (n : Nat) (m : Int) (looks : List Look) :
    Scanned stabs type (m - n) m (scanDown stabs type n m looks).1 := by
  induction n generalizing m looks with
  | zero =>
    have hm : (scanDown stabs type 0 m looks).1 = m - (0 : Nat) := by simp [scanDown]
    exact ⟨by omega, by omega, fun i h h' => by omega, .inl hm⟩
  | succ n ih =>
    rw [scanDown]
    split
    · rename_i his
      exact ⟨by omega, Int.le_refl m, fun i h h' => by omega, .inr his⟩
    rename_i his
    have h := ih (m - 1) ((m, .type) :: looks)
    have heq : m - 1 - (n : Int) = m - ((n + 1 : Nat) : Int) := by omega
    rw [heq] at h
    refine ⟨h.lower, by have := h.upper; omega, ?_, h.stop⟩
    intro i hi hle
    by_cases him : i = m
    · rw [him]
      exact his
    · exact h.none i hi (by omega)

theorem mid_bounds (h : l ≤ r) : l ≤ (l + r).tdiv 2 ∧ (l + r).tdiv 2 ≤ r := by
  rw [Int.tdiv_eq_ediv]
  split_ifs with hc
  · omega
  · have hsign : (2 : Int).sign = 1 := rfl
    omega

/-! ### One turn of the loop -/

theorem scan_step (stabs : Int → Stab) (type : Int) (s : Search) (h : s.l ≤ s.r) : ∃ m looks,
    scanDown stabs type ((s.l + s.r).tdiv 2 + 1 - s.l).toNat ((s.l + s.r).tdiv 2) s.looks =
      (m, looks) ∧ Scanned stabs type (s.l - 1) ((s.l + s.r).tdiv 2) m := by
  obtain ⟨hlo, hhi⟩ := mid_bounds h
  refine ⟨_, _, rfl, ?_⟩
  have hscan := scanDown_spec stabs type
    ((s.l + s.r).tdiv 2 + 1 - s.l).toNat ((s.l + s.r).tdiv 2) s.looks
  have heq : (s.l + s.r).tdiv 2 - (((s.l + s.r).tdiv 2 + 1 - s.l).toNat : Int) = s.l - 1 := by omega
  rw [heq] at hscan
  exact hscan

/-- The four ways a turn can go. -/
inductive Turn (stabs : Int → Stab) (type : Int) (s : Search) : Search → Prop
  | none {t : Int} {looks : List Look} (hlo : s.l ≤ t) (hhi : t ≤ s.r)
      (hnone : ∀ i, s.l ≤ i → i ≤ t → ¬(stabs i).Is type) :
      Turn stabs type s { s with l := t + 1, looks := looks }
  | before {t m : Int} {looks : List Look} (hlo : s.l ≤ m) (hmt : m ≤ t) (hhi : t ≤ s.r)
      (his : (stabs m).Is type) (hnone : ∀ i, m < i → i ≤ t → ¬(stabs i).Is type)
      (hlt : (stabs m).nValue < s.addr) :
      Turn stabs type s
        { s with l := t + 1, anyMatches := true, regionLeft := m, looks := looks }
  | behind {t m : Int} {looks : List Look} (hlo : s.l ≤ m) (hmt : m ≤ t) (hhi : t ≤ s.r)
      (his : (stabs m).Is type) (hlt : s.addr < (stabs m).nValue) :
      Turn stabs type s
        { s with r := m - 1, anyMatches := true, regionRight := m - 1, looks := looks }
  | exact {t m : Int} {looks : List Look} (hlo : s.l ≤ m) (hmt : m ≤ t) (hhi : t ≤ s.r)
      (his : (stabs m).Is type) (heq : (stabs m).nValue = s.addr) :
      Turn stabs type s
        { s with l := m, anyMatches := true, regionLeft := m, addr := s.addr + 1, looks := looks }

theorem searchStep_turn (stabs : Int → Stab) (type : Int) (h : s.l ≤ s.r) :
    Turn stabs type s (searchStep stabs type s) := by
  obtain ⟨hlo, hhi⟩ := mid_bounds h
  obtain ⟨m, looks, hscan, hm⟩ := scan_step stabs type s h
  unfold searchStep
  simp only [hscan]
  split
  · rename_i hml
    exact .none hlo hhi fun i hi hit => hm.none i (by omega) hit
  have his : (stabs m).Is type := by
    rcases hm.stop with hstop | his
    · omega
    · exact his
  split
  · rename_i hlt
    exact .before (by omega) hm.upper hhi his hm.none hlt
  rename_i hnlt
  split
  · rename_i hgt
    exact .behind (by omega) hm.upper hhi his hgt
  rename_i hngt
  have heq : (stabs m).nValue = s.addr := by
    apply BitVec.eq_of_toNat_eq
    rw [BitVec.lt_def] at hnlt hngt
    omega
  exact .exact (by omega) hm.upper hhi his heq

/-! ### The search ends -/

/-- Twice the length of the range, and one for an exact match at its left end, which is the one turn
that leaves the range as it is. -/
def searchMeasure (stabs : Int → Stab) (type : Int) (s : Search) : Nat :=
  2 * (s.r + 1 - s.l).toNat +
    if (stabs s.l).Is type ∧ (stabs s.l).nValue = s.addr then 1 else 0

theorem searchMeasure_le (stabs : Int → Stab) (type : Int) (s : Search) :
    searchMeasure stabs type s ≤ 2 * (s.r + 1 - s.l).toNat + 1 := by
  unfold searchMeasure
  split_ifs <;> omega

theorem Turn.measure {s' : Search} (h : Turn stabs type s s') :
    searchMeasure stabs type s' < searchMeasure stabs type s := by
  have hlow : 2 * (s.r + 1 - s.l).toNat ≤ searchMeasure stabs type s := by
    unfold searchMeasure
    omega
  -- where the range shrinks the new one for an exact match does not matter
  have hshrink : (s'.r + 1 - s'.l).toNat + 1 ≤ (s.r + 1 - s.l).toNat →
      searchMeasure stabs type s' < searchMeasure stabs type s := by
    have hle := searchMeasure_le stabs type s'
    omega
  cases h with
  | none hlo hhi _ => exact hshrink (by show (s.r + 1 - (_ + 1)).toNat + 1 ≤ _; omega)
  | before hlo hmt hhi _ _ _ => exact hshrink (by show (s.r + 1 - (_ + 1)).toNat + 1 ≤ _; omega)
  | @behind t m looks hlo hmt hhi _ _ =>
    exact hshrink (by show (m - 1 + 1 - s.l).toNat + 1 ≤ _; omega)
  | @exact t m looks hlo hmt hhi his heq =>
    by_cases hml : m = s.l
    · subst hml
      have hne : (stabs s.l).nValue ≠ s.addr + 1 := by
        bv_omega
      unfold searchMeasure
      rw [if_neg fun h => hne h.2, if_pos ⟨his, heq⟩]
      exact Nat.lt_succ_self (2 * (s.r + 1 - s.l).toNat)
    · exact hshrink (by show (s.r + 1 - m).toNat + 1 ≤ _; omega)

theorem searchLoop_isSome (stabs : Int → Stab) (type : Int) (n : Nat) :
    ∀ {s : Search}, searchMeasure stabs type s < n → (searchLoop stabs type n s).isSome := by
  induction n with
  | zero =>
    omega
  | succ n ih =>
    intro s h
    rw [searchLoop]
    split
    · rename_i hle
      have hturn := (searchStep_turn stabs type hle).measure
      exact ih (by omega)
    · rfl

/-- **The search ends**, whatever is in the table. -/
theorem stabBinsearch_isSome (stabs : Int → Stab) (L R type : Int) (addr : Word)
    (looks : List Look) : (stabBinsearch stabs L R type addr looks).isSome := by
  have hfuel : searchMeasure stabs type ⟨L, R, false, L, R, addr, looks⟩ <
      2 * (R + 1 - L).toNat + 2 := by
    have hle := searchMeasure_le stabs type ⟨L, R, false, L, R, addr, looks⟩
    simp only at hle
    omega
  have hloop := searchLoop_isSome stabs type _ hfuel
  unfold stabBinsearch
  obtain ⟨s, hs⟩ := isSome_iff_exists.mp hloop
  simp only [hs]
  split <;> rfl

/-! ### What the search has learned -/

/-- No stab of the type at `addr` is followed by one at the next address, and the next address is
not that of the first byte of memory. -/
def NoClash (stabs : Int → Stab) (type L R : Int) (addr : Word) : Prop :=
  ∀ i, L ≤ i → i ≤ R → (stabs i).Is type → (stabs i).nValue = addr →
    addr ≠ 0xffffffff ∧
      ∀ j, L ≤ j → j ≤ R → (stabs j).Is type → (stabs j).nValue ≠ addr + 1

/-- The invariant of the loop. -/
structure Learned (stabs : Int → Stab) (type L R : Int) (addr : Word) (s : Search) : Prop where
  lower : L ≤ s.l
  upper : s.r ≤ R
  right : s.regionRight = s.r
  before : ∀ i, L ≤ i → i < s.l → (stabs i).Is type → (stabs i).nValue ≤ addr
  behind : ∀ i, s.r < i → i ≤ R → (stabs i).Is type → addr < (stabs i).nValue
  edge : s.r = R ∨ (stabs (s.r + 1)).Is type
  left : s.regionLeft = L ∨ (L ≤ s.regionLeft ∧ s.regionLeft ≤ R ∧
    (stabs s.regionLeft).Is type ∧ (stabs s.regionLeft).nValue ≤ addr)
  noMatches : s.anyMatches = false → ∀ i, L ≤ i → i < s.l → ¬(stabs i).Is type
  anyMatches : s.anyMatches = true → ∃ i, L ≤ i ∧ i ≤ R ∧ (stabs i).Is type
  -- after an exact match the search compares with the next address
  moved : s.addr = addr ∨ (s.addr = addr + 1 ∧
    ∃ i, L ≤ i ∧ i ≤ R ∧ (stabs i).Is type ∧ (stabs i).nValue = addr)

theorem Learned.start (looks : List Look) :
    Learned stabs type L R addr ⟨L, R, false, L, R, addr, looks⟩ where
  lower := Int.le_refl L
  upper := Int.le_refl R
  right := rfl
  before i hi hlt := by dsimp only at hlt; omega
  behind i hi hle := by dsimp only at hi; omega
  edge := .inl rfl
  left := .inl rfl
  noMatches _ i hi hlt := by dsimp only at hlt; omega
  anyMatches hany := by cases hany
  moved := .inl rfl

/-- The addresses of two stabs of the type compare as their indices do. -/
theorem Increasing.le (h : Increasing stabs type L R) (hi : L ≤ i) (hij : i ≤ j) (hj : j ≤ R)
    (hti : (stabs i).Is type) (htj : (stabs j).Is type) :
    (stabs i).nValue ≤ (stabs j).nValue := by
  rcases Int.lt_or_eq_of_le hij with hlt | rfl
  · exact le_of_lt (h i j hi hlt hj hti htj)
  · exact le_refl _

section

variable (hinc : Increasing stabs type L R) (hclash : NoClash stabs type L R addr)
include hinc hclash

section

variable (h : Learned stabs type L R addr s) (hlo : s.l ≤ m) (hmt : m ≤ t)
include h hlo hmt

section

variable (hhi : t ≤ s.r) (his : (stabs m).Is type)
include hhi his

theorem Learned.before_step (hnone : ∀ i, m < i → i ≤ t → ¬(stabs i).Is type)
    (hlt : (stabs m).nValue < s.addr) :
    Learned stabs type L R addr
      { s with l := t + 1, anyMatches := true, regionLeft := m, looks := looks } := by
  have hL := h.lower
  have hR := h.upper
  have hm : (stabs m).nValue ≤ addr := by
    rcases h.moved with heq | ⟨heq, i, hi, hiR, hti, hvi⟩
    · exact le_of_lt (heq ▸ hlt)
    · have hmax := (hclash i hi hiR hti hvi).1
      bv_omega
  refine { h with
    lower := by show L ≤ t + 1; omega
    left := .inr ⟨by show L ≤ m; omega, by show m ≤ R; omega, his, hm⟩
    noMatches := fun hany => by cases hany
    anyMatches := fun _ => ⟨m, by omega, by omega, his⟩
    before := ?_ }
  intro i hi hit hti
  have hit : i < t + 1 := hit
  have him : i ≤ m := by
    by_contra hgt
    exact hnone i (by omega) (by omega) hti
  exact BitVec.le_trans (hinc.le hi him (by omega) hti his) hm

theorem Learned.behind_step (hlt : s.addr < (stabs m).nValue) :
    Learned stabs type L R addr
      { s with r := m - 1, anyMatches := true, regionRight := m - 1, looks := looks } := by
  have hL := h.lower
  have hR := h.upper
  have hm : addr < (stabs m).nValue := by
    rcases h.moved with heq | ⟨heq, i, hi, hiR, hti, hvi⟩
    · exact heq ▸ hlt
    · have hmax := (hclash i hi hiR hti hvi).1
      bv_omega
  refine { h with
    upper := by show m - 1 ≤ R; omega
    right := rfl
    edge := .inr (by show (stabs (m - 1 + 1)).Is type; rwa [Int.sub_add_cancel])
    noMatches := fun hany => by cases hany
    anyMatches := fun _ => ⟨m, by omega, by omega, his⟩
    behind := ?_ }
  intro i hi hiR hti
  have hi : m - 1 < i := hi
  exact Nat.lt_of_lt_of_le hm (hinc.le (by omega) (by omega) hiR his hti)

theorem Learned.exact_step (heq : (stabs m).nValue = s.addr) :
    Learned stabs type L R addr
      { s with
        l := m, anyMatches := true, regionLeft := m, addr := s.addr + 1, looks := looks } := by
  have hL := h.lower
  have hR := h.upper
  have hm : (stabs m).nValue = addr ∧ s.addr = addr := by
    rcases h.moved with hadr | ⟨hadr, i, hi, hiR, hti, hvi⟩
    · exact ⟨heq.trans hadr, hadr⟩
    · exact absurd (heq.trans hadr) ((hclash i hi hiR hti hvi).2 m (by omega) (by omega) his)
  refine { h with
    lower := by show L ≤ m; omega
    left := .inr ⟨by show L ≤ m; omega, by show m ≤ R; omega, his, hm.1 ▸ le_refl _⟩
    noMatches := fun hany => by cases hany
    anyMatches := fun _ => ⟨m, by omega, by omega, his⟩
    moved := .inr ⟨by show s.addr + 1 = addr + 1; rw [hm.2], m, by omega, by omega, his, hm.1⟩
    before := ?_ }
  intro i hi him hti
  have him : i < m := him
  rw [← hm.1]
  exact hinc.le hi (by omega) (by omega) hti his

end

end

theorem Learned.turn {s' : Search} (h : Learned stabs type L R addr s)
    (hturn : Turn stabs type s s') : Learned stabs type L R addr s' := by
  cases hturn with
  | @none t looks hlo hhi hnone =>
    have hL := h.lower
    refine { h with
      lower := by show L ≤ t + 1; omega
      before := ?_
      noMatches := ?_ }
    · intro i hi hit hti
      have hit : i < t + 1 := hit
      by_cases hil : i < s.l
      · exact h.before i hi hil hti
      · exact absurd hti (hnone i (by omega) (by omega))
    · intro hany i hi hit
      have hit : i < t + 1 := hit
      by_cases hil : i < s.l
      · exact h.noMatches hany i hi hil
      · exact hnone i (by omega) (by omega)
  | before hlo hmt hhi his hnone hlt =>
    exact h.before_step hinc hclash hlo hmt hhi his hnone hlt
  | behind hlo hmt hhi his hlt => exact h.behind_step hinc hclash hlo hmt hhi his hlt
  | exact hlo hmt hhi his heq => exact h.exact_step hinc hclash hlo hmt hhi his heq

theorem Learned.loop (n : Nat) : ∀ {s s' : Search}, Learned stabs type L R addr s →
    searchLoop stabs type n s = some s' → Learned stabs type L R addr s' ∧ s'.r < s'.l := by
  induction n with
  | zero =>
    intro s s' _ hrun
    cases hrun
  | succ n ih =>
    intro s s' h hrun
    rw [searchLoop] at hrun
    split at hrun
    · rename_i hle
      exact ih (h.turn hinc hclash (searchStep_turn stabs type hle)) hrun
    · rename_i hgt
      cases hrun
      exact ⟨h, by omega⟩

end

/-! ### What it answers -/

/-- The regions after the loop. -/
def regions (stabs : Int → Stab) (type : Int) (s : Search) : Int × Int × List Look :=
  if s.anyMatches then
    let (l, looks) := scanDown stabs type (s.regionRight - s.regionLeft).toNat s.regionRight s.looks
    (l, s.regionRight, looks)
  else (s.regionLeft, s.regionLeft - 1, s.looks)

theorem stabBinsearch_eq (stabs : Int → Stab) (L R type : Int) (addr : Word)
    (looks : List Look) : stabBinsearch stabs L R type addr looks =
      (searchLoop stabs type (2 * (R + 1 - L).toNat + 2) ⟨L, R, false, L, R, addr, looks⟩).map
        (regions stabs type) := by
  unfold stabBinsearch regions
  dsimp only
  cases searchLoop stabs type (2 * (R + 1 - L).toNat + 2) ⟨L, R, false, L, R, addr, looks⟩ with
  | none => rfl
  | some s =>
    dsimp only [map_some]
    split <;> rfl

theorem Learned.finds (h : Learned stabs type L R addr s) (hend : s.r < s.l) :
    Finds stabs type L R addr (regions stabs type s).1 (regions stabs type s).2.1 := by
  have hR := h.upper
  refine ⟨fun p hp => ?_, fun hnone => ?_⟩
  · have hpL := hp.lower
    -- the stab that is looked for is still between the two regions
    have hpr : p ≤ s.r := by
      by_contra hgt
      exact absurd (h.behind p (by omega) hp.upper hp.is) (not_lt.mpr hp.le)
    have hlast : ∀ i, L ≤ i → i ≤ s.r → (stabs i).Is type → i ≤ p := by
      intro i hi hir hti
      by_contra hgt
      exact absurd (hp.last i (by omega) (by omega) hti)
        (not_lt.mpr (h.before i hi (by omega) hti))
    have hany : s.anyMatches = true := by
      by_contra hfalse
      exact h.noMatches (by simpa using hfalse) p hp.lower (by omega) hp.is
    have hleft : s.regionLeft ≤ p := by
      rcases h.left with hl | ⟨hl, hlR, his, hle⟩
      · omega
      · refine hlast s.regionLeft hl ?_ his
        by_contra hgt
        exact absurd (h.behind s.regionLeft (by omega) hlR his) (not_lt.mpr hle)
    have hlow : L ≤ s.regionLeft := by
      rcases h.left with hl | ⟨hl, -⟩ <;> omega
    have hscan := scanDown_spec stabs type (s.r - s.regionLeft).toNat s.r s.looks
    simp only [regions, hany, if_true, h.right]
    generalize (scanDown stabs type (s.r - s.regionLeft).toNat s.r s.looks).1 = m at hscan
    have hpm : p ≤ m := by
      by_contra hlt
      exact hscan.none p (by omega) hpr hp.is
    refine ⟨?_, hpr, fun i hi hir hti => ?_, ?_⟩
    · rcases hscan.stop with hstop | his
      · omega
      · have hmp := hlast m (by omega) hscan.upper his
        omega
    · have hip := hlast i (by omega) hir hti
      omega
    · rcases h.edge with hedge | hedge
      · exact .inl hedge
      · by_cases hrR : s.r = R
        · exact .inl hrR
        · exact .inr ⟨by omega, hedge⟩
  · have hany : s.anyMatches ≠ true := by
      intro hany
      obtain ⟨i, hi, hiR, hti⟩ := h.anyMatches hany
      exact hnone i hi hiR hti
    rw [regions, if_neg hany]
    exact Int.sub_one_lt_of_le (Int.le_refl _)

/-- Where nothing clashes at the address the search is right. -/
theorem stabBinsearch_finds (hinc : Increasing stabs type L R)
    (hclash : NoClash stabs type L R addr) (looks : List Look) : ∃ l r looks',
    stabBinsearch stabs L R type addr looks = some (l, r, looks') ∧
      Finds stabs type L R addr l r := by
  obtain ⟨res, hres⟩ := isSome_iff_exists.mp (stabBinsearch_isSome stabs L R type addr looks)
  have hrun := hres
  rw [stabBinsearch_eq] at hrun
  obtain ⟨s, hs, rfl⟩ := map_eq_some_iff.mp hrun
  obtain ⟨hlearned, hend⟩ := (Learned.start looks).loop hinc hclash _ hs
  exact ⟨_, _, _, hres, hlearned.finds hend⟩

/-- **`stab_binsearch`.**  For any table the search ends.  Where the stabs of the type are in order
and nothing clashes at the address, it finds the stab for it. -/
theorem stabBinsearch_correct (stabs : Int → Stab) (type L R : Int) (addr : Word) :
    ∃ l r looks, stabBinsearch stabs L R type addr [] = some (l, r, looks) ∧
      (Increasing stabs type L R → NoClash stabs type L R addr →
        Finds stabs type L R addr l r) := by
  obtain ⟨⟨l, r, looks⟩, hrun⟩ :=
    isSome_iff_exists.mp (stabBinsearch_isSome stabs L R type addr [])
  refine ⟨l, r, looks, hrun, fun hinc hclash => ?_⟩
  obtain ⟨l', r', looks', hrun', hfinds⟩ := stabBinsearch_finds hinc hclash []
  rw [hrun] at hrun'
  cases hrun'
  exact hfinds

/-- With functions at 10 and 11 the search for 10 gives the function at 11. -/
def neighbours (i : Int) : Stab :=
  if i = 0 then ⟨0, 0x24, 0, 10⟩ else if i = 1 then ⟨0, 0x24, 0, 11⟩ else ⟨0, 0, 0, 0⟩

theorem neighbours_increasing : Increasing neighbours nFun 0 1 := by
  intro i j hi hij hj _ _
  obtain ⟨rfl, rfl⟩ : i = 0 ∧ j = 1 := by omega
  decide

theorem neighbours_passed :
    Increasing neighbours nFun 0 1 ∧ LastAt neighbours nFun 0 1 10 0 ∧
      (stabBinsearch neighbours 0 1 nFun 10 []).map (·.1) = some 1 := by
  refine ⟨neighbours_increasing, ⟨by decide, by decide, by decide, by decide, ?_⟩, by decide⟩
  intro i hi hle _
  obtain rfl : i = 1 := by omega
  decide

/-- The search for 20 is right all the same. -/
theorem stabBinsearch_correct_behind : NoClash neighbours nFun 0 1 20 ∧
    ∃ l r looks, stabBinsearch neighbours 0 1 nFun 20 [] = some (l, r, looks) ∧
      Finds neighbours nFun 0 1 20 l r := by
  have hclash : NoClash neighbours nFun 0 1 20 := by
    intro i hi hi1 _ hval
    obtain rfl | rfl : i = 0 ∨ i = 1 := by omega
    · exact absurd hval (by decide)
    · exact absurd hval (by decide)
  obtain ⟨l, r, looks, hrun, hfinds⟩ := stabBinsearch_correct neighbours nFun 0 1 20
  exact ⟨hclash, l, r, looks, hrun, hfinds neighbours_increasing hclash⟩

end Jos
