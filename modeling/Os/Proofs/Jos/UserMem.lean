/-
What `user_mem_check` accepts.

A user program may access an address below `ULIM` when both levels of its page tables say so.
That is a property of the page, so the smallest address of a range that fails is either the first
address of the range or the start of a page, and those are the two answers of `user_mem_check`.

The check itself is weaker in three places: it lets `ULIM` itself through, it asks for the bits of
`perm` in the page table's entry only, and it asks there for `PTE_P` and `PTE_U` only if the caller
does.  And the end of the range is rounded up in 32 bits, where it can wrap around; the loop then
sees one page or none.
-/
import Os.Proofs.Jos.MemSteps

namespace Jos

open BitVec (le_of_lt lt_def toNat_add toNat_sub_of_le)
open Option

variable {M : Machine} {pm : Pmap M} {d : Ppn M} {pgdir : Option (Ppn M)}
  {va len perm start bad : Word} {a : Nat}

/-! ### What a user program may access -/

/-- Both levels have the bits of `need` at `va`. -/
def Grants (pm : Pmap M) (d : Ppn M) (need va : Word) : Prop :=
  pm.load (d, pdx va) &&& need = need ∧
    ∃ t, frame M (pteAddr (pm.load (d, pdx va))) = some t ∧ pm.load (t, ptx va) &&& need = need

instance (pm : Pmap M) (d : Ppn M) (need va : Word) : Decidable (Grants pm d need va) :=
  inferInstanceAs (Decidable (_ ∧ ∃ t ∈ frame M (pteAddr (pm.load (d, pdx va))), _))

/-- A user program may use the address in the ways `perm` says. -/
def UserAccessible (pm : Pmap M) (d : Ppn M) (perm : Word) (a : Nat) : Prop :=
  a < ulim.toNat ∧ Grants pm d (perm ||| pteP ||| pteU) (BitVec.ofNat 32 a)

instance (pm : Pmap M) (d : Ppn M) (perm : Word) (a : Nat) :
    Decidable (UserAccessible pm d perm a) :=
  inferInstanceAs (Decidable (_ ∧ _))

/-- The addresses of `[va, va+len)` that it may not use so. -/
def Failing (pm : Pmap M) (d : Ppn M) (va len perm : Word) : Set Nat :=
  {a | va.toNat ≤ a ∧ a < va.toNat + len.toNat ∧ ¬ UserAccessible pm d perm a}

/-- The answer `user_mem_check` should give: `none` for 0, and `some bad` for `-E_FAULT` with `bad`
in `user_mem_check_addr`. -/
structure CheckExact (pm : Pmap M) (d : Ppn M) (va len perm : Word)
    (r : Option (Option Word)) : Prop where
  accepts : r = some none ↔ va.toNat + len.toNat ≤ 2 ^ 32 ∧
    ∀ a, va.toNat ≤ a → a < va.toNat + len.toNat → UserAccessible pm d perm a
  refuses : r ≠ some none → ∃ bad, r = some (some bad) ∧
    IsLeast (Failing pm d va len perm) bad.toNat

/-- What makes `user_mem_check` refuse the page of an address. -/
def Refused (pm : Pmap M) (d : Ppn M) (perm : Word) (a : Nat) : Prop :=
  ¬ present (pm.load (d, pdx (BitVec.ofNat 32 a))) ∨
    ∃ t, frame M (pteAddr (pm.load (d, pdx (BitVec.ofNat 32 a)))) = some t ∧
      (ulim < rounddown (BitVec.ofNat 32 a) pgsize ∨
        pm.load (t, ptx (BitVec.ofNat 32 a)) &&& perm ≠ perm)

/-- The loop gets to the page of an address of `[va, va+len)`: to each of them unless the end of
the range wraps around when it is rounded up, and then at most to the first. -/
def Reached (va len : Word) (a : Nat) : Prop :=
  va.toNat + len.toNat ≤ 4294963200 ∨
    (a / 4096 = va.toNat / 4096 ∧ rounddown va pgsize < roundup (va + len) pgsize)

/-! ### Pages -/

/-- Page `k` from `start` on. -/
def pageFrom (start : Word) (k : Nat) : Word := start + BitVec.ofNat 32 k * pgsize

@[simp] theorem pageFrom_zero (start : Word) : pageFrom start 0 = start := by
  simp [pageFrom]

theorem pageFrom_succ (start : Word) (k : Nat) :
    pageFrom start (k + 1) = pageFrom (start + pgsize) k := by
  unfold pageFrom
  rw [BitVec.ofNat_add, BitVec.add_mul, BitVec.add_assoc, BitVec.add_comm pgsize]
  simp

theorem toNat_pageFrom {k : Nat} (h : start.toNat + 4096 * k < 4294967296) :
    (pageFrom start k).toNat = start.toNat + 4096 * k := by
  unfold pageFrom
  show (start.toNat + k % 2 ^ 32 * 4096 % 2 ^ 32) % 2 ^ 32 = _
  omega

theorem indices_eq {va va' : Word} (h : va.toNat / 4096 = va'.toNat / 4096) :
    pdx va = pdx va' ∧ ptx va = ptx va' := by
  constructor
  · apply Fin.ext
    rw [val_pdx, val_pdx]
    omega
  · apply Fin.ext
    rw [val_ptx, val_ptx, h]

theorem toNat_ofNat_of_lt (h : a < 4294967296) : (BitVec.ofNat 32 a).toNat = a := by
  exact Nat.mod_eq_of_lt h

theorem toNat_ulim : ulim.toNat = 958 * 4194304 := by decide

theorem userAccessible_congr {b : Nat} (ha : a < 4294967296) (hb : b < 4294967296)
    (h : a / 4096 = b / 4096) : UserAccessible pm d perm a ↔ UserAccessible pm d perm b := by
  have hpage : (BitVec.ofNat 32 a).toNat / 4096 = (BitVec.ofNat 32 b).toNat / 4096 := by
    rw [toNat_ofNat_of_lt ha, toNat_ofNat_of_lt hb, h]
  obtain ⟨hd, ht⟩ := indices_eq hpage
  unfold UserAccessible Grants
  rw [hd, ht, toNat_ulim]
  have hlt : a < 958 * 4194304 ↔ b < 958 * 4194304 := by omega
  rw [hlt]

/-! ### One page -/

/-- An entry with the bits of a set has those of its parts. -/
theorem and_eq_of_or {w f g : Word} (h : w &&& (f ||| g) = f ||| g) : w &&& f = f := by
  have habs : (f ||| g) &&& f = f := by
    ext i hi
    simp
    tauto
  calc w &&& f = w &&& ((f ||| g) &&& f) := by rw [habs]
    _ = w &&& (f ||| g) &&& f := by rw [BitVec.and_assoc]
    _ = f := by rw [h, habs]

theorem present_of_and {w perm : Word}
    (h : w &&& (perm ||| pteP ||| pteU) = perm ||| pteP ||| pteU) : present w := by
  have hbits := and_eq_of_or h
  rw [BitVec.or_comm] at hbits
  have hP := and_eq_of_or hbits
  rw [present, hP]
  decide

theorem userPageOk_eq (pm : Pmap M) (d : Ppn M) (perm p : Word) :
    userPageOk pm (some d) perm p =
      if present (pm.load (d, pdx p)) then
        (frame M (pteAddr (pm.load (d, pdx p)))).map fun t =>
          decide (¬ ulim < p ∧ pm.load (t, ptx p) &&& perm = perm)
      else some false := by
  unfold userPageOk pgdirWalk
  by_cases hpres : present (pm.load (d, pdx p))
  · simp only [if_pos hpres, walkTable, kaddr]
    cases frame M (pteAddr (pm.load (d, pdx p))) <;> rfl
  · simp only [if_neg hpres]
    rfl

theorem indices_page {p : Word} (ha : a < 4294967296) (hp : p.toNat = a / 4096 * 4096) :
    pdx p = pdx (BitVec.ofNat 32 a) ∧ ptx p = ptx (BitVec.ofNat 32 a) ∧
      p = rounddown (BitVec.ofNat 32 a) pgsize := by
  have hnum : p.toNat / 4096 = (BitVec.ofNat 32 a).toNat / 4096 := by
    rw [toNat_ofNat_of_lt ha, hp]
    omega
  obtain ⟨hd, ht⟩ := indices_eq hnum
  refine ⟨hd, ht, BitVec.eq_of_toNat_eq ?_⟩
  rw [toNat_rounddown, toNat_ofNat_of_lt ha, hp]
  omega

theorem userPageOk_of_accessible {p : Word} (h : UserAccessible pm d perm a)
    (hp : p.toNat = a / 4096 * 4096) : userPageOk pm (some d) perm p = some true := by
  obtain ⟨hlt, hpde, t, ht, hpte⟩ := h
  rw [toNat_ulim] at hlt
  obtain ⟨hd, htx, -⟩ := indices_page (by omega) hp
  rw [userPageOk_eq, hd, htx, if_pos (present_of_and hpde), ht]
  have hbits : pm.load (t, ptx (BitVec.ofNat 32 a)) &&& perm = perm :=
    and_eq_of_or (and_eq_of_or hpte)
  have hbelow : ¬ ulim < p := by
    intro hc
    have hc' := lt_def.mp hc
    rw [toNat_ulim, hp] at hc'
    omega
  simp [hbits, hbelow]

theorem userPageOk_false_iff {p : Word} (ha : a < 4294967296) (hp : p.toNat = a / 4096 * 4096) :
    userPageOk pm (some d) perm p = some false ↔ Refused pm d perm a := by
  obtain ⟨hd, htx, hround⟩ := indices_page ha hp
  rw [userPageOk_eq, Refused, hd, htx, ← hround]
  by_cases hpres : present (pm.load (d, pdx (BitVec.ofNat 32 a)))
  · rw [if_pos hpres, or_iff_right (not_not_intro hpres)]
    cases frame M (pteAddr (pm.load (d, pdx (BitVec.ofNat 32 a)))) with
    | none => simp
    | some t => simp [imp_iff_not_or]
  · rw [if_neg hpres]
    simp only [hpres, not_false_eq_true, true_or]

/-! ### The loop -/

theorem userMemLoop_none {n : Nat} : ∀ {start : Word},
    userMemLoop pm pgdir perm n start = some none ↔
      ∀ k < n, userPageOk pm pgdir perm (pageFrom start k) = some true := by
  induction n with
  | zero =>
    simp [userMemLoop]
  | succ n ih =>
    intro start
    rw [Nat.forall_lt_succ_left]
    simp only [pageFrom_succ, pageFrom_zero, userMemLoop]
    cases hok : userPageOk pm pgdir perm start with
    | none => simp
    | some b =>
      cases b with
      | false => simp
      | true => simp [ih]

theorem userMemLoop_some {n : Nat} : ∀ {start : Word},
    userMemLoop pm pgdir perm n start = some (some bad) ↔
      ∃ k < n, bad = pageFrom start k ∧ userPageOk pm pgdir perm bad = some false ∧
        ∀ j < k, userPageOk pm pgdir perm (pageFrom start j) = some true := by
  induction n with
  | zero =>
    simp [userMemLoop]
  | succ n ih =>
    intro start
    rw [Nat.exists_lt_succ_left]
    simp only [Nat.forall_lt_succ_left, pageFrom_succ, pageFrom_zero, userMemLoop]
    cases hok : userPageOk pm pgdir perm start with
    | none => simp +contextual [hok]
    | some b =>
      cases b with
      | false => simp +contextual [hok, eq_comm]
      | true => simp +contextual [ih, hok]

/-! ### The range -/

/-- How many pages `user_mem_check` looks at. -/
def checkSteps (va len : Word) : Nat := pageSteps (rounddown va pgsize) (roundup (va + len) pgsize)

theorem checkSteps_of_le (h : va.toNat + len.toNat ≤ 4294963200) :
    checkSteps va len = (va.toNat + len.toNat + 4095) / 4096 - va.toNat / 4096 := by
  have hsum : (va + len).toNat = va.toNat + len.toNat := by
    rw [toNat_add]
    omega
  have hfinish : (roundup (va + len) pgsize).toNat
      = (va.toNat + len.toNat + 4095) / 4096 * 4096 := by
    rw [toNat_roundup (by omega), hsum]
  have hstart := toNat_rounddown va
  unfold checkSteps pageSteps
  split
  · rename_i hlt
    rw [toNat_sub_of_le (le_of_lt hlt), hfinish, hstart]
    omega
  · rename_i hle
    have hle' := BitVec.le_def.mp (BitVec.not_lt.mp hle)
    omega

/-- A range whose end wraps around is looked at only in its first page. -/
theorem checkSteps_wrap (h : 4294963200 < va.toNat + len.toNat) : checkSteps va len ≤ 1 := by
  have hfinish : (roundup (va + len) pgsize).toNat ≤ va.toNat - va.toNat % 4096 + 4096 := by
    have hup : (va + len + pgsize - 1).toNat = (va.toNat + len.toNat + 4095) % 4294967296 := by
      show (2 ^ 32 - 1 + ((va.toNat + len.toNat) % 2 ^ 32 + 4096) % 2 ^ 32) % 2 ^ 32 = _
      omega
    unfold roundup
    rw [toNat_rounddown, hup]
    omega
  unfold checkSteps pageSteps
  split
  · rename_i hlt
    rw [toNat_sub_of_le (le_of_lt hlt), toNat_rounddown]
    omega
  · omega

theorem checkSteps_pos_iff : 0 < checkSteps va len ↔
    rounddown va pgsize < roundup (va + len) pgsize := by
  unfold checkSteps pageSteps
  split
  · rename_i hlt
    have hlt' := lt_def.mp hlt
    have hmod := toNat_roundup_mod (va + len)
    rw [toNat_sub_of_le (le_of_lt hlt)]
    rw [toNat_rounddown] at hlt' ⊢
    simp only [hlt, iff_true]
    omega
  · rename_i hle
    simp [hle]

theorem page_of_lt {k : Nat} (hk : k < checkSteps va len) :
    (pageFrom (rounddown va pgsize) k).toNat = (va.toNat / 4096 + k) * 4096 ∧
      (va.toNat / 4096 + k) * 4096 < va.toNat + len.toNat ∧
      (va.toNat / 4096 + k) * 4096 < 4294967296 := by
  have hstart := toNat_rounddown va
  have hbound : (va.toNat / 4096 + k) * 4096 < va.toNat + len.toNat ∧
      (va.toNat / 4096 + k) * 4096 < 4294967296 := by
    by_cases hle : va.toNat + len.toNat ≤ 4294963200
    · rw [checkSteps_of_le hle] at hk
      omega
    · have hone := checkSteps_wrap (Nat.lt_of_not_le hle)
      omega
  rw [toNat_pageFrom (by omega), hstart]
  omega

/-! ### The smallest address that fails -/

/-- It is the first address of the range or the start of a page. -/
theorem least_failing (h : IsLeast (Failing pm d va len perm) a) :
    a < 4294967296 ∧ (a = va.toNat ∨ va.toNat < a ∧ a % 4096 = 0) := by
  obtain ⟨⟨hge, hlt, hno⟩, hleast⟩ := h
  have ha : a < 4294967296 := by
    by_contra hc
    have htop : 4294967295 ∈ Failing pm d va len perm := by
      refine ⟨by omega, by omega, fun hacc => ?_⟩
      have hlt := hacc.1
      omega
    have hle := hleast htop
    omega
  -- the start of its page, or of the range
  have hfirst : max va.toNat (a / 4096 * 4096) ∈ Failing pm d va len perm := by
    refine ⟨by omega, by omega, fun hacc => hno ?_⟩
    exact (userAccessible_congr (by omega) ha (by omega)).mp hacc
  have hle := hleast hfirst
  omega

/-- A page of the loop passes when the range is accessible up to the page. -/
theorem userPageOk_before {k : Nat} (hlen : 0 < len) (hk : k < checkSteps va len)
    (hacc : ∀ b, va.toNat ≤ b → b < va.toNat + len.toNat → b / 4096 ≤ va.toNat / 4096 + k →
      UserAccessible pm d perm b) :
    userPageOk pm (some d) perm (pageFrom (rounddown va pgsize) k) = some true := by
  have hlen' : 0 < len.toNat := hlen
  obtain ⟨hpage, hlt, -⟩ := page_of_lt hk
  refine userPageOk_of_accessible
    (hacc (max va.toNat ((va.toNat / 4096 + k) * 4096)) (by omega) (by omega) (by omega)) ?_
  rw [hpage]
  omega

/-! ### The check -/

theorem userMemCheck_none : userMemCheck pm pgdir va len perm = some none ↔
    ∀ k < checkSteps va len,
      userPageOk pm pgdir perm (pageFrom (rounddown va pgsize) k) = some true := by
  rw [← userMemLoop_none]
  unfold userMemCheck checkSteps
  simp only
  generalize userMemLoop pm pgdir perm _ _ = r
  rcases r with _ | _ | bad
  · simp
  · simp
  · simp

theorem userMemCheck_some {x : Word} :
    userMemCheck pm pgdir va len perm = some (some x) ↔
      ∃ k < checkSteps va len,
        x = (if k = 0 then va else pageFrom (rounddown va pgsize) k) ∧
        userPageOk pm pgdir perm (pageFrom (rounddown va pgsize) k) = some false ∧
        ∀ j < k, userPageOk pm pgdir perm (pageFrom (rounddown va pgsize) j) = some true := by
  have hself : ∀ k < checkSteps va len,
      pageFrom (rounddown va pgsize) k = rounddown va pgsize ↔ k = 0 := by
    intro k hk
    obtain ⟨hpage, -, -⟩ := page_of_lt hk
    constructor
    · intro heq
      rw [heq, toNat_rounddown] at hpage
      omega
    · rintro rfl
      exact pageFrom_zero _
  have hloop : userMemCheck pm pgdir va len perm = some (some x) ↔
      ∃ bad, userMemLoop pm pgdir perm (checkSteps va len) (rounddown va pgsize) = some (some bad) ∧
        x = if bad = rounddown va pgsize then va else bad := by
    unfold userMemCheck checkSteps
    simp only
    generalize userMemLoop pm pgdir perm _ _ = r
    rcases r with _ | _ | bad
    · simp
    · simp
    · simp [eq_comm]
  rw [hloop]
  constructor
  · rintro ⟨bad, hbad, rfl⟩
    obtain ⟨k, hk, rfl, hfalse, hbefore⟩ := userMemLoop_some.mp hbad
    refine ⟨k, hk, ?_, hfalse, hbefore⟩
    simp only [hself k hk]
  · rintro ⟨k, hk, rfl, hfalse, hbefore⟩
    refine ⟨_, userMemLoop_some.mpr ⟨k, hk, rfl, hfalse, hbefore⟩, ?_⟩
    simp only [hself k hk]

/-- Where the loop reaches the smallest address that fails and refuses it, the check answers
with that address. -/
theorem userMemCheck_of_refused (hlen : 0 < len) (h : IsLeast (Failing pm d va len perm) a)
    (hreached : Reached va len a) (hrefused : Refused pm d perm a) :
    ∃ bad, userMemCheck pm (some d) va len perm = some (some bad) ∧ bad.toNat = a := by
  obtain ⟨ha, hform⟩ := least_failing h
  obtain ⟨⟨hge, hlt, -⟩, hleast⟩ := h
  obtain ⟨k, hk⟩ := Nat.exists_eq_add_of_le (Nat.div_le_div_right (c := 4096) hge)
  have hsteps : k < checkSteps va len := by
    rcases hreached with hle | ⟨hfirst, hpos⟩
    · rw [checkSteps_of_le hle]
      omega
    · have hpos' := checkSteps_pos_iff.mpr hpos
      omega
  obtain ⟨hpage, -, -⟩ := page_of_lt hsteps
  have hfalse : userPageOk pm (some d) perm (pageFrom (rounddown va pgsize) k) = some false := by
    rw [userPageOk_false_iff ha (by rw [hpage, hk])]
    exact hrefused
  have hbefore : ∀ j < k,
      userPageOk pm (some d) perm (pageFrom (rounddown va pgsize) j) = some true := by
    intro j hj
    refine userPageOk_before hlen (by omega) fun b hge' hlt' hb => ?_
    by_contra hno
    have hle := hleast ⟨hge', hlt', hno⟩
    omega
  refine ⟨_, userMemCheck_some.mpr ⟨k, hsteps, rfl, hfalse, hbefore⟩, ?_⟩
  split
  · rename_i hzero
    rcases hform with heq | ⟨hgt, hmod⟩
    · exact heq.symm
    · omega
  · rw [hpage]
    omega

/-- And an answer is about a page that the loop has reached and refused. -/
theorem refused_of_userMemCheck {x : Word} (hlen : 0 < len)
    (h : userMemCheck pm (some d) va len perm = some (some x)) :
    Reached va len x.toNat ∧ Refused pm d perm x.toNat := by
  obtain ⟨k, hk, rfl, hfalse, -⟩ := userMemCheck_some.mp h
  obtain ⟨hpage, -, -⟩ := page_of_lt hk
  have hnum : (if k = 0 then va else pageFrom (rounddown va pgsize) k).toNat / 4096
      = va.toNat / 4096 + k := by
    split
    · omega
    · rw [hpage]
      omega
  constructor
  · by_cases hle : va.toNat + len.toNat ≤ 4294963200
    · exact .inl hle
    · have hone := checkSteps_wrap (Nat.lt_of_not_le hle)
      exact .inr ⟨by omega, checkSteps_pos_iff.mp (by omega)⟩
  · rw [← userPageOk_false_iff (BitVec.isLt _) (by rw [hpage, hnum])]
    exact hfalse

/-- A range without failing addresses ends below `ULIM`, and all its pages pass. -/
theorem userMemCheck_of_accessible (hlen : 0 < len)
    (h : ∀ a, va.toNat ≤ a → a < va.toNat + len.toNat → UserAccessible pm d perm a) :
    va.toNat + len.toNat ≤ 2 ^ 32 ∧ userMemCheck pm (some d) va len perm = some none := by
  have hlen' : 0 < len.toNat := hlen
  have hlast := (h (va.toNat + len.toNat - 1) (by omega) (by omega)).1
  refine ⟨by omega, userMemCheck_none.mpr fun k hk => ?_⟩
  exact userPageOk_before hlen hk fun b hge hlt _ => h b hge hlt

/--
**`user_mem_check` is exact on a range if and only if its loop gets to the first page that a user
program may not access, if there is one, and refuses it.**
-/
theorem user_mem_check_iff (pm : Pmap M) (d : Ppn M) (va len perm : Word) (hlen : 0 < len) :
    CheckExact pm d va len perm (userMemCheck pm (some d) va len perm) ↔
      ∀ a, IsLeast (Failing pm d va len perm) a → Reached va len a ∧ Refused pm d perm a := by
  constructor
  · intro hexact a hleast
    obtain ⟨hge, hlt, hno⟩ := hleast.1
    have hne : userMemCheck pm (some d) va len perm ≠ some none := by
      intro hc
      exact hno ((hexact.accepts.mp hc).2 a hge hlt)
    obtain ⟨bad, hbad, hleast'⟩ := hexact.refuses hne
    rw [hleast.unique hleast']
    exact refused_of_userMemCheck hlen hbad
  · intro h
    by_cases hall : ∀ a, va.toNat ≤ a → a < va.toNat + len.toNat → UserAccessible pm d perm a
    · obtain ⟨hend, hnone⟩ := userMemCheck_of_accessible hlen hall
      exact ⟨⟨fun _ => ⟨hend, hall⟩, fun _ => hnone⟩, fun hne => absurd hnone hne⟩
    push Not at hall
    obtain ⟨a0, hge, hlt, hno⟩ := hall
    obtain ⟨a, hmem, hmin⟩ :=
      wellFounded_lt.has_min (Failing pm d va len perm) ⟨a0, hge, hlt, hno⟩
    have hleast : IsLeast (Failing pm d va len perm) a :=
      ⟨hmem, fun b hb => Nat.le_of_not_lt (hmin b hb)⟩
    obtain ⟨hreached, hrefused⟩ := h a hleast
    obtain ⟨bad, hbad, hval⟩ := userMemCheck_of_refused hlen hleast hreached hrefused
    rw [hbad]
    refine ⟨⟨fun hc => ?_, fun hc => absurd (hc.2 a0 hge hlt) hno⟩, fun _ => ⟨bad, rfl, ?_⟩⟩
    · simp at hc
    · rw [hval]
      exact hleast

/-- The page above the stack is not mapped. -/
theorem user_mem_check_iff_stack :
    ∃ s d, oneProgram = some s ∧ (s.envs 0).envPgdir = some d ∧
      CheckExact s.pm d (ustacktop - 1) 2 (pteW ||| pteU)
        (userMemCheck s.pm (some d) (ustacktop - 1) 2 (pteW ||| pteU)) := by
  have heval : (oneProgram.bind fun s => (s.envs 0).envPgdir.map fun d => decide
      (UserAccessible s.pm d (pteW ||| pteU) (ustacktop - 1).toNat ∧
        ∃ t ∈ frame _ (pteAddr (s.pm.load (d, pdx ustacktop))),
          s.pm.load (t, ptx ustacktop) &&& (pteW ||| pteU) ≠ (pteW ||| pteU))) = some true := by
    decide +kernel
  obtain ⟨s, hs, hmap⟩ := bind_eq_some_iff.mp heval
  obtain ⟨d, hd, hfacts⟩ := map_eq_some_iff.mp hmap
  obtain ⟨hfirst, t, ht, hsecond⟩ := of_decide_eq_true hfacts
  refine ⟨s, d, hs, hd, (user_mem_check_iff s.pm d _ _ _ (by decide)).mpr ?_⟩
  rintro a ⟨⟨hge, hlt, hno⟩, -⟩
  have ha : a = ustacktop.toNat := by
    have hne : a ≠ (ustacktop - 1).toNat := by
      rintro rfl
      exact hno hfirst
    have hva : (ustacktop - 1).toNat = 4005552127 := by decide
    have htop : ustacktop.toNat = 4005552128 := by decide
    have htwo : (2 : Word).toNat = 2 := rfl
    omega
  subst ha
  exact ⟨.inl (by decide), .inr ⟨t, ht, .inr hsecond⟩⟩

/-- The kernel's whole half of the address space is accepted: the end of the range is 0. -/
theorem kernel_memory_accepted :
    ∃ s d, oneProgram = some s ∧ (s.envs 0).envPgdir = some d ∧
      userMemCheck s.pm (some d) kernbase 0x10000000 pteU = some none ∧
      ¬ CheckExact s.pm d kernbase 0x10000000 pteU
        (userMemCheck s.pm (some d) kernbase 0x10000000 pteU) := by
  have heval : (oneProgram.bind fun s => (s.envs 0).envPgdir.map fun d => decide
      (userMemCheck s.pm (some d) kernbase 0x10000000 pteU = some none)) = some true := by
    decide +kernel
  obtain ⟨s, hs, hmap⟩ := bind_eq_some_iff.mp heval
  obtain ⟨d, hd, hfacts⟩ := map_eq_some_iff.mp hmap
  have hnone := of_decide_eq_true hfacts
  refine ⟨s, d, hs, hd, hnone, fun hexact => ?_⟩
  have hacc := (hexact.accepts.mp hnone).2 kernbase.toNat le_rfl (by decide)
  exact absurd hacc.1 (by decide)

end Jos
