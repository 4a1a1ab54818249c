/-
Debugging information about an instruction address.

`debuginfo_eip` searches three times: for the file, in the file for the function, and in the
function for the line.  Each search gets the region the one before has found.  The line it reports
is the one at the right end of the last region, which goes on behind the stab of the line as long as
stabs of other types follow in the function.

For a user address the tables are where the user says.  Only the four pointers are ever checked, so
the reads stay inside what was checked only as long as none of the tables is looked at.
-/
import Os.Proofs.Jos.Stabs
import Os.Proofs.Jos.Start

namespace Jos

open BitVec (le_refl not_le not_lt)
open Option

variable {stabs : Int → Stab} {nstabs : Int} {str : Stabstr} {mem : Word → BitVec 8} {addr : Word}
variable {L R r rfile i e : Int} {off : Word}

/-- The string table passes the checks of `debuginfo_eip`. -/
structure Stabstr.Valid (str : Stabstr) (mem : Word → BitVec 8) : Prop where
  nonempty : str.start < str.finish
  terminated : mem (str.finish - 1) = 0

theorem debuginfoTables_valid (hstr : str.Valid mem) (seen : List Deref) {lfile : Int}
    {looks : List Look}
    (hfile : stabBinsearch stabs 0 (nstabs - 1) nSo addr [] = some (lfile, rfile, looks)) :
    debuginfoTables stabs nstabs str mem addr seen =
      if lfile = 0 then
        some (-1, .unknown addr, looks.map .stab ++ .byte (str.finish - 1) :: seen)
      else debuginfoFile stabs str mem addr lfile rfile looks (.byte (str.finish - 1) :: seen) := by
  unfold debuginfoTables
  rw [if_neg (not_le.mpr hstr.nonempty)]
  simp only [hstr.terminated, ne_eq, not_true_eq_false, if_false, hfile]

/-- What `debuginfo_eip` stores about the line in a function that it has found. -/
theorem debuginfoFile_line {lfile lfun rfun lline rline : Int} {looks looks1 looks2 : List Look}
    (seen : List Deref)
    (hfun : stabBinsearch stabs lfile rfile nFun addr looks = some (lfun, rfun, looks1))
    (hle : lfun ≤ rfun) (hline : stabBinsearch stabs lfun rfun nSline (addr - (stabs lfun).nValue)
      ((lfun, .value) :: (lfun, .strx) :: looks1) = some (lline, rline, looks2)) :
    ∃ info seen', debuginfoFile stabs str mem addr lfile rfile looks seen = some (0, info, seen') ∧
      info.eipFnAddr = (stabs lfun).nValue ∧
      info.eipLine = if lline ≤ rline then ((stabs rline).nDesc.toNat : Int) else -1 := by
  unfold debuginfoFile
  rw [hfun]
  simp only [bind_eq_bind, bind_some, if_pos hle, hline]
  split_ifs <;> exact ⟨_, _, rfl, rfl, rfl⟩

/-! ### Well-formed tables -/

/-- A stab that starts a file or a function. -/
def Starts (stabs : Int → Stab) (i : Int) : Prop := (stabs i).Is nSo ∨ (stabs i).Is nFun

/-- A stab that belongs to the function at `f`. -/
structure OfFunction (stabs : Int → Stab) (nstabs f k : Int) : Prop where
  lt : f < k
  inTable : k < nstabs
  none : ∀ j, f < j → j ≤ k → ¬Starts stabs j

structure WellFormed (stabs : Int → Stab) (nstabs : Int) : Prop where
  files : Increasing stabs nSo 0 (nstabs - 1)
  functions : Increasing stabs nFun 0 (nstabs - 1)
  starts : ∀ i j, 0 ≤ i → i < j → j < nstabs → Starts stabs i → Starts stabs j →
    (stabs i).nValue ≤ (stabs j).nValue
  lines : ∀ f i j, 0 ≤ f → (stabs f).Is nFun → OfFunction stabs nstabs f i →
    OfFunction stabs nstabs f j → i < j → (stabs i).Is nSline → (stabs j).Is nSline →
    (stabs i).nValue < (stabs j).nValue

/-- The address is in the function at `f`, and this function is in the file at `s`. -/
structure InFunction (stabs : Int → Stab) (nstabs : Int) (addr : Word) (s f : Int) : Prop where
  file : LastAt stabs nSo 0 (nstabs - 1) addr s
  function : LastAt stabs nFun 0 (nstabs - 1) addr f
  inside : s < f

/-- The line stab of the function with the greatest offset up to `off`. -/
structure IsLine (stabs : Int → Stab) (nstabs f : Int) (off : Word) (i : Int) : Prop where
  of : OfFunction stabs nstabs f i
  is : (stabs i).Is nSline
  le : (stabs i).nValue ≤ off
  greatest : ∀ k, OfFunction stabs nstabs f k → (stabs k).Is nSline → (stabs k).nValue ≤ off →
    (stabs k).nValue ≤ (stabs i).nValue

/-- What `debuginfo_eip` is to report about an address in the function at `f`. -/
def ReportsLine (stabs : Int → Stab) (nstabs : Int) (str : Stabstr) (mem : Word → BitVec 8)
    (addr : Word) (f : Int) : Prop :=
  ∃ ret info seen, debuginfoTables stabs nstabs str mem addr [] = some (ret, info, seen) ∧
    (∀ i, IsLine stabs nstabs f (addr - (stabs f).nValue) i →
      ret = 0 ∧ info.eipFnAddr = (stabs f).nValue ∧ info.eipLine = (stabs i).nDesc.toNat) ∧
    ((∀ i, ¬IsLine stabs nstabs f (addr - (stabs f).nValue) i) → ret = -1)

/-- `r` is the last stab before the next line of the function, or the last one of the function. -/
structure LineEnd (stabs : Int → Stab) (nstabs i r : Int) : Prop where
  le : i ≤ r
  inTable : r < nstabs
  none : ∀ k, i < k → k ≤ r → ¬Starts stabs k ∧ ¬(stabs k).Is nSline
  stop : r + 1 = nstabs ∨ Starts stabs (r + 1) ∨ (stabs (r + 1)).Is nSline

theorem LineEnd.le_of {r' : Int} (h : LineEnd stabs nstabs i r) (h' : LineEnd stabs nstabs i r') :
    r' ≤ r := by
  by_contra hlt
  have hle := h.le
  have hin := h'.inTable
  have hnone := h'.none (r + 1) (by omega) (by omega)
  rcases h.stop with hend | hstart | his
  · omega
  · exact hnone.1 hstart
  · exact hnone.2 his

/-! ### When the line is right -/

theorem WellFormed.line_unique (hwf : WellFormed stabs nstabs) {f j : Int} (hf : 0 ≤ f)
    (his : (stabs f).Is nFun) (hi : IsLine stabs nstabs f off i)
    (hj : IsLine stabs nstabs f off j) : i = j := by
  rcases Int.lt_trichotomy i j with hlt | heq | hlt
  · exact absurd (hwf.lines f i j hf his hi.of hj.of hlt hi.is hj.is)
      (not_lt.mpr (hi.greatest j hj.of hj.is hj.le))
  · exact heq
  · exact absurd (hwf.lines f j i hf his hj.of hi.of hlt hj.is hi.is)
      (not_lt.mpr (hj.greatest i hi.of hi.is hi.le))

/-! ### Where no two stabs are one address apart -/

/-- None of the three searches for the address meets the next address. -/
structure Clear (stabs : Int → Stab) (nstabs : Int) (addr : Word) (f : Int) : Prop where
  files : NoClash stabs nSo 0 (nstabs - 1) addr
  functions : NoClash stabs nFun 0 (nstabs - 1) addr
  lines : ∀ i, OfFunction stabs nstabs f i → (stabs i).Is nSline →
    (stabs i).nValue = addr - (stabs f).nValue → addr - (stabs f).nValue ≠ 0xffffffff ∧
      ∀ j, OfFunction stabs nstabs f j → (stabs j).Is nSline →
        (stabs j).nValue ≠ addr - (stabs f).nValue + 1

/-- The stabs of the function at `f` end at `e`. -/
structure Extent (stabs : Int → Stab) (nstabs f e : Int) : Prop where
  le : f ≤ e
  of : ∀ k, OfFunction stabs nstabs f k ↔ f < k ∧ k ≤ e
  stop : e + 1 = nstabs ∨ Starts stabs (e + 1)

theorem NoClash.mono {type L' R' : Int} (h : NoClash stabs type L R addr) (hL : L ≤ L')
    (hR : R' ≤ R) : NoClash stabs type L' R' addr := by
  intro i hi hiR his hval
  obtain ⟨hmax, hnext⟩ := h i (by omega) (by omega) his hval
  exact ⟨hmax, fun j hj hjR => hnext j (by omega) (by omega)⟩

theorem Increasing.mono {type L' R' : Int} (h : Increasing stabs type L R) (hL : L ≤ L')
    (hR : R' ≤ R) : Increasing stabs type L' R' :=
  fun i j hi hij hj => h i j (by omega) hij (by omega)

theorem not_is_two {type type' : Int} (hne : type ≠ type') (h : (stabs i).Is type) :
    ¬(stabs i).Is type' := fun h' => hne (h.symm.trans h')

section

variable {s f : Int} (hwf : WellFormed stabs nstabs) (hin : InFunction stabs nstabs addr s f)
  (hclear : Clear stabs nstabs addr f)
include hwf hin

theorem InFunction.function_le (hr : UpTo stabs nSo (nstabs - 1) s r) : f ≤ r := by
  rcases hr.stop with hstop | ⟨hlt, his⟩
  · exact hstop ▸ hin.function.upper
  by_contra hgt
  have hle := hr.le
  have hlow := hin.file.lower
  have hup := hin.function.upper
  have hne : r + 1 ≠ f := fun heq => not_is_two (by decide) (heq ▸ his) hin.function.is
  have hbehind := hin.file.last (r + 1) (by omega) (by omega) his
  have hstart := hwf.starts (r + 1) f (by omega) (by omega) (by omega) (.inl his)
    (.inr hin.function.is)
  have hle := hin.function.le
  bv_omega

omit hwf in
/-- The regions that the first two searches give bound the stabs of the function. -/
theorem InFunction.extent {r' : Int} (hr : UpTo stabs nSo (nstabs - 1) s r) (hrn : r ≤ nstabs - 1)
    (hr' : UpTo stabs nFun r f r') (hle : r' ≤ r) :
    Extent stabs nstabs f r' := by
  have hinside := hin.inside
  have hfr := hr'.le
  refine ⟨hfr, fun k => ⟨fun hk => ⟨hk.lt, ?_⟩, fun hk => ⟨hk.1, by omega, ?_⟩⟩, ?_⟩
  · by_contra hgt
    have hin := hk.inTable
    rcases hr'.stop with hstop | ⟨-, his⟩
    · rcases hr.stop with hstop' | ⟨-, his⟩
      · omega
      · exact hk.none (r + 1) (by omega) (by omega) (.inl his)
    · exact hk.none (r' + 1) (by omega) (by omega) (.inr his)
  · rintro j hfj hjk (his | his)
    · exact hr.none j (by omega) (by omega) his
    · exact hr'.none j hfj (by omega) his
  · rcases hr'.stop with rfl | ⟨-, his⟩
    · rcases hr.stop with hstop | ⟨-, his⟩
      · exact .inl (by omega)
      · exact .inr (.inl his)
    · exact .inr (.inr his)

theorem WellFormed.lines_increasing (he : Extent stabs nstabs f e) :
    Increasing stabs nSline f e := by
  intro i j hi hij hj hti htj
  have hne : i ≠ f := fun heq => not_is_two (by decide) (heq ▸ hti) hin.function.is
  exact hwf.lines f i j hin.function.lower hin.function.is ((he.of i).mpr ⟨by omega, by omega⟩)
    ((he.of j).mpr ⟨by omega, hj⟩) hij hti htj

/-- The line of an offset is what the last search is for. -/
theorem IsLine.lastAt (he : Extent stabs nstabs f e) (hi : IsLine stabs nstabs f off i) :
    LastAt stabs nSline f e off i := by
  obtain ⟨hlt, hle⟩ := (he.of i).mp hi.of
  refine ⟨by omega, hle, hi.is, hi.le, fun k hk hke htk => ?_⟩
  have hofk := (he.of k).mpr ⟨by omega, hke⟩
  have hord := hwf.lines f i k hin.function.lower hin.function.is hi.of hofk hk hi.is htk
  by_contra hnot
  exact absurd hord (not_lt.mpr (hi.greatest k hofk htk (not_lt.mp hnot)))

include hclear

omit hwf in
theorem Clear.lines_noClash (he : Extent stabs nstabs f e) :
    NoClash stabs nSline f e (addr - (stabs f).nValue) := by
  have hof : ∀ i, f ≤ i → i ≤ e → (stabs i).Is nSline → OfFunction stabs nstabs f i := by
    intro i hi hie his
    have hne : i ≠ f := fun heq => not_is_two (by decide) (heq ▸ his) hin.function.is
    exact (he.of i).mpr ⟨by omega, hie⟩
  intro i hi hie his hval
  obtain ⟨hmax, hnext⟩ := hclear.lines i (hof i hi hie his) his hval
  exact ⟨hmax, fun j hj hje htj => hnext j (hof j hj hje htj) htj⟩

/-- Where nothing clashes, the three searches find the file, the function and the line. -/
theorem Clear.debuginfoTables_eq (hstr : str.Valid mem) : ∃ ret info seen,
    debuginfoTables stabs nstabs str mem addr [] = some (ret, info, seen) ∧
    ((s = 0 ∧ ret = -1) ∨ (s ≠ 0 ∧ ret = 0 ∧ ∃ e l r, Extent stabs nstabs f e ∧
      Finds stabs nSline f e (addr - (stabs f).nValue) l r ∧
      info.eipFnAddr = (stabs f).nValue ∧
      info.eipLine = if l ≤ r then ((stabs r).nDesc.toNat : Int) else -1)) := by
  obtain ⟨l, r, looks, hfile, hfinds⟩ := stabBinsearch_finds hwf.files hclear.files []
  obtain ⟨rfl, hr⟩ := hfinds.hit s hin.file
  rw [debuginfoTables_valid hstr [] hfile]
  split
  · rename_i hs
    exact ⟨_, _, _, rfl, .inl ⟨hs, rfl⟩⟩
  rename_i hs
  have hrn : r ≤ nstabs - 1 := by
    rcases hr.stop with hstop | ⟨hlt, -⟩ <;> omega
  have hlow := hin.file.lower
  obtain ⟨l1, r1, looks1, hfun, hfinds1⟩ := stabBinsearch_finds
    (hwf.functions.mono hlow hrn) (hclear.functions.mono hlow hrn) looks
  have hlast : LastAt stabs nFun l r addr f :=
    ⟨by have := hin.inside; omega, hin.function_le hwf hr, hin.function.is, hin.function.le,
      fun i hi hir => hin.function.last i hi (by omega)⟩
  obtain ⟨rfl, hr1⟩ := hfinds1.hit f hlast
  have hle1 : r1 ≤ r := by
    rcases hr1.stop with hstop | ⟨hlt, -⟩ <;> omega
  have hext := hin.extent hr hrn hr1 hle1
  obtain ⟨l2, r2, looks2, hline, hfinds2⟩ := stabBinsearch_finds (hwf.lines_increasing hin hext)
    (hclear.lines_noClash hin hext) ((l1, .value) :: (l1, .strx) :: looks1)
  obtain ⟨info, seen, hrun, haddr, hdesc⟩ := debuginfoFile_line _ hfun hext.le hline
  exact ⟨0, info, seen, hrun, .inr ⟨hs, rfl, r1, l2, r2, hext, hfinds2, haddr, hdesc⟩⟩

omit hwf hin hclear in
/-- The region of a line ends where the next line, function or file starts. -/
theorem IsLine.lineEnd (he : Extent stabs nstabs f e) (hi : IsLine stabs nstabs f off i)
    (hr : UpTo stabs nSline e i r) : LineEnd stabs nstabs i r := by
  obtain ⟨hfi, hie⟩ := (he.of i).mp hi.of
  have hir := hr.le
  have hre : r ≤ e := by
    rcases hr.stop with hstop | ⟨hlt, -⟩ <;> omega
  have hof : OfFunction stabs nstabs f r := (he.of r).mpr ⟨by omega, hre⟩
  refine ⟨hir, hof.inTable, fun k hk hkr => ⟨hof.none k (by omega) hkr, hr.none k hk hkr⟩, ?_⟩
  rcases hr.stop with rfl | ⟨-, his⟩
  · exact he.stop.imp_right .inl
  · exact .inr (.inr his)

end

/-- **The line of an address.**  For an address in a function, with nothing one address behind what
is looked for, `debuginfo_eip` reports the right line if and only if the file is not the first stab
and the last stab before the next line has the same `n_desc` as the stab of the line.  If there is
no line it reports failure only for a file that is the first stab. -/
theorem debuginfoTables_reportsLine_iff {s f : Int} (hwf : WellFormed stabs nstabs)
    (hstr : str.Valid mem) (hin : InFunction stabs nstabs addr s f)
    (hclear : Clear stabs nstabs addr f) :
    ReportsLine stabs nstabs str mem addr f ↔
      (s ≠ 0 ∧ ∃ i r, IsLine stabs nstabs f (addr - (stabs f).nValue) i ∧
        LineEnd stabs nstabs i r ∧ (stabs r).nDesc = (stabs i).nDesc) ∨
      (s = 0 ∧ ∀ i, ¬IsLine stabs nstabs f (addr - (stabs f).nValue) i) := by
  obtain ⟨ret, info, seen, hrun, hcases⟩ := hclear.debuginfoTables_eq hwf hin hstr
  have hreports : ReportsLine stabs nstabs str mem addr f ↔
      (∀ i, IsLine stabs nstabs f (addr - (stabs f).nValue) i →
        ret = 0 ∧ info.eipFnAddr = (stabs f).nValue ∧ info.eipLine = (stabs i).nDesc.toNat) ∧
      ((∀ i, ¬IsLine stabs nstabs f (addr - (stabs f).nValue) i) → ret = -1) := by
    refine ⟨?_, fun h => ⟨ret, info, seen, hrun, h⟩⟩
    rintro ⟨ret', info', seen', hrun', h⟩
    rw [hrun] at hrun'
    cases hrun'
    exact h
  rw [hreports]
  rcases hcases with ⟨hs, rfl⟩ | ⟨hs, rfl, e, l, r, hext, hfinds, haddr, hdesc⟩
  · constructor
    · rintro ⟨hline, -⟩
      exact .inr ⟨hs, fun i hi => absurd (hline i hi).1 (by decide)⟩
    · rintro (⟨hne, -⟩ | ⟨-, hno⟩)
      · exact absurd hs hne
      · exact ⟨fun i hi => absurd hi (hno i), fun _ => rfl⟩
  have hfound : ∀ i, IsLine stabs nstabs f (addr - (stabs f).nValue) i →
      LineEnd stabs nstabs i r ∧ info.eipLine = (stabs r).nDesc.toNat := by
    intro i hi
    obtain ⟨rfl, hr⟩ := hfinds.hit i (hi.lastAt hwf hin hext)
    exact ⟨hi.lineEnd hext hr, hdesc.trans (if_pos hr.le)⟩
  constructor
  · rintro ⟨hline, hno⟩
    by_cases hex : ∃ i, IsLine stabs nstabs f (addr - (stabs f).nValue) i
    · obtain ⟨i, hi⟩ := hex
      have hd := (hfound i hi).2.symm.trans (hline i hi).2.2
      exact .inl ⟨hs, i, r, hi, (hfound i hi).1, BitVec.eq_of_toNat_eq (by omega)⟩
    · exact absurd (hno fun i hi => hex ⟨i, hi⟩) (by decide)
  · rintro (⟨-, i, r', hi, hend, hd⟩ | ⟨hs', -⟩)
    · obtain ⟨hend', hinfo⟩ := hfound i hi
      obtain rfl : r' = r := by
        have := hend.le_of hend'
        have := hend'.le_of hend
        omega
      refine ⟨fun j hj => ⟨rfl, haddr, ?_⟩, fun hno => absurd hi (hno i)⟩
      rw [hinfo, hd, hwf.line_unique hin.function.lower hin.function.is hj hi]
    · exact absurd hs' hs

/-- A file with one function, which has one line and after it the start of a block (`N_LBRAC`). -/
def oneLine (i : Int) : Stab :=
  if i = 1 then ⟨0, 0x64, 0, 0x100⟩
  else if i = 2 then ⟨0, 0x24, 0, 0x100⟩
  else if i = 3 then ⟨0, 0x44, 7, 0⟩
  else if i = 4 then ⟨0, 0xc0, 0, 0⟩
  else ⟨0, 0, 0, 0⟩

theorem oneLine_types : ((oneLine i).Is nSo → i = 1) ∧ ((oneLine i).Is nFun → i = 2) ∧
    ((oneLine i).Is nSline → i = 3) := by
  unfold oneLine
  split_ifs <;> simp_all [Stab.Is, nSo, nFun, nSline]

theorem oneLine_wellFormed (n : Int) : WellFormed oneLine n where
  files i j _ hij _ hi hj := by
    have := oneLine_types.1 hi
    have := oneLine_types.1 hj
    omega
  functions i j _ hij _ hi hj := by
    have := oneLine_types.2.1 hi
    have := oneLine_types.2.1 hj
    omega
  starts i j _ _ _ hi hj := by
    have hstart : ∀ k, Starts oneLine k → (oneLine k).nValue = 0x100 := by
      rintro k (hk | hk)
      · rw [oneLine_types.1 hk]
        rfl
      · rw [oneLine_types.2.1 hk]
        rfl
    rw [hstart i hi, hstart j hj]
    exact le_refl _
  lines f i j _ _ _ _ hij hi hj := by
    have := oneLine_types.2.2 hi
    have := oneLine_types.2.2 hj
    omega

theorem oneLine_inFunction {n : Int} (hn : 3 < n) : InFunction oneLine n 0x104 1 2 where
  file := ⟨by omega, by omega, by decide, by decide, fun i hi _ his => by
    have := oneLine_types.1 his
    omega⟩
  function := ⟨by omega, by omega, by decide, by decide, fun i hi _ his => by
    have := oneLine_types.2.1 his
    omega⟩
  inside := by omega

theorem oneLine_isLine {n : Int} (hn : 3 < n) : IsLine oneLine n 2 4 3 where
  of := ⟨by omega, hn, fun j hj hj3 hstart => by
    rcases hstart with his | his
    · have := oneLine_types.1 his
      omega
    · have := oneLine_types.2.1 his
      omega⟩
  is := by decide
  le := by decide
  greatest k _ his _ := by
    rw [oneLine_types.2.2 his]
    exact le_refl _

/-- Nothing in the table is at the address or the offset that is looked for. -/
theorem oneLine_clear (n : Int) : Clear oneLine n 0x104 2 where
  files i _ _ his hval := by
    rw [oneLine_types.1 his] at hval
    exact absurd hval (by decide)
  functions i _ _ his hval := by
    rw [oneLine_types.2.1 his] at hval
    exact absurd hval (by decide)
  lines i _ his hval := by
    rw [oneLine_types.2.2 his] at hval
    exact absurd hval (by decide)

/-- Without the block the line is right. -/
theorem debuginfoTables_reportsLine_last :
    InFunction oneLine 4 0x104 1 2 ∧ ReportsLine oneLine 4 ⟨0, 1⟩ (fun _ => 0) 0x104 2 := by
  have hend : LineEnd oneLine 4 3 3 :=
    ⟨Int.le_refl 3, by decide, fun k hk hk3 => by omega, .inl rfl⟩
  exact ⟨oneLine_inFunction (by decide),
    (debuginfoTables_reportsLine_iff (oneLine_wellFormed 4) ⟨by decide, rfl⟩
      (oneLine_inFunction (by decide)) (oneLine_clear 4)).mpr
        (.inl ⟨by decide, 3, 3, oneLine_isLine (by decide), hend, rfl⟩)⟩

/-- With it the line is the `n_desc` of the block. -/
theorem debuginfoTables_wrong_line :
    WellFormed oneLine 5 ∧ InFunction oneLine 5 0x104 1 2 ∧ IsLine oneLine 5 2 4 3 ∧
      (oneLine 3).nDesc = 7 ∧
      (debuginfoTables oneLine 5 ⟨0, 1⟩ (fun _ => 0) 0x104 []).map (fun x => (x.1, x.2.1.eipLine)) =
        some (0, 0) :=
  ⟨oneLine_wellFormed 5, oneLine_inFunction (by decide), oneLine_isLine (by decide), rfl, by decide⟩

/-! ### Tables of the user -/

/-- The range that `debuginfo_eip` has checked. -/
def InUserStabData (a : Word) : Prop := ustabdata ≤ a ∧ a < ustabdata + 16

instance (a : Word) : Decidable (InUserStabData a) := inferInstanceAs (Decidable (_ ∧ _))

section

variable {M : Machine} {pm : Pmap M} {d : Ppn M}

/-- What is read of an environment's memory has been checked, and if the check fails so does the
call. -/
def ReadsChecked (pm : Pmap M) (d : Ppn M) (addr : Word) : Prop :=
  ∀ ret info reads, debuginfoUser pm d addr = some (ret, info, reads) →
    (∀ a ∈ reads, userMemCheck pm (some d) ustabdata 16 pteU = some none ∧ InUserStabData a) ∧
      (userMemCheck pm (some d) ustabdata 16 pteU ≠ some none → ret < 0)

/-- What stands at `USTABDATA` makes `debuginfo_eip` give up before it looks at a stab: there are no
strings, or their last byte has been checked and is not zero or there are no stabs. -/
def GivesUp (mem : Word → BitVec 8) : Prop :=
  let usd := UserStabData.read mem
  usd.stabstrEnd ≤ usd.stabstr ∨ InUserStabData (usd.stabstrEnd - 1) ∧
    (mem (usd.stabstrEnd - 1) ≠ 0 ∨ usd.nstabs ≤ 0)

instance (mem : Word → BitVec 8) : Decidable (GivesUp mem) :=
  inferInstanceAs (Decidable (_ ∨ _ ∧ (_ ∨ _)))

/-- Without stabs the first search finds nothing. -/
theorem stabBinsearch_empty {type : Int} (hlt : R < L) (looks : List Look) :
    stabBinsearch stabs L R type addr looks = some (L, L - 1, looks) := by
  rw [stabBinsearch_eq, searchLoop, if_neg (by dsimp only; omega)]
  rfl

/-- The accesses of a call that gives up: at most one byte. -/
theorem debuginfoTables_givesUp (stabs : Int → Stab) (addr : Word) (usd : UserStabData)
    (hup : GivesUp mem) (husd : UserStabData.read mem = usd) : ∃ ret info seen,
    debuginfoTables stabs usd.nstabs ⟨usd.stabstr, usd.stabstrEnd⟩ mem addr [] =
      some (ret, info, seen) ∧
      ∀ x ∈ seen, x = .byte (usd.stabstrEnd - 1) ∧ InUserStabData (usd.stabstrEnd - 1) := by
  subst husd
  unfold debuginfoTables
  dsimp only
  by_cases hstr : (UserStabData.read mem).stabstrEnd ≤ (UserStabData.read mem).stabstr
  · rw [if_pos hstr]
    exact ⟨_, _, _, rfl, fun x hx => absurd hx List.not_mem_nil⟩
  obtain ⟨hin, hlast⟩ := hup.resolve_left hstr
  have hone : ∀ x ∈ [Deref.byte ((UserStabData.read mem).stabstrEnd - 1)],
      x = .byte ((UserStabData.read mem).stabstrEnd - 1) ∧
        InUserStabData ((UserStabData.read mem).stabstrEnd - 1) :=
    fun x hx => ⟨List.mem_singleton.mp hx, hin⟩
  rw [if_neg hstr]
  by_cases hzero : mem ((UserStabData.read mem).stabstrEnd - 1) = 0
  · have hno := hlast.resolve_left (not_not.mpr hzero)
    rw [if_neg (not_not.mpr hzero), stabBinsearch_empty (by omega)]
    exact ⟨_, _, _, rfl, hone⟩
  · rw [if_pos hzero]
    exact ⟨_, _, _, rfl, hone⟩

theorem header_checked : ∀ a ∈ (List.range 16).map fun k => ustabdata + BitVec.ofNat 32 k,
    InUserStabData a := by
  intro a ha
  obtain ⟨k, hk, rfl⟩ := List.mem_map.mp ha
  have hk := List.mem_range.mp hk
  have hu : ustabdata.toNat = 2097152 := rfl
  constructor
  · rw [BitVec.le_def, BitVec.toNat_add, BitVec.toNat_ofNat, hu]
    omega
  · rw [BitVec.lt_def, BitVec.toNat_add, BitVec.toNat_ofNat, hu]
    show _ < 2097168
    omega

end

/-- A program that has allocated the page of its `UserStabData`, which is all zeros. -/
def withStabData : Option (Kern (Machine.withFree 8)) :=
  [.create .bare, .sched 0, .call 0 sysNoPageAlloc 0 ustabdata 7 0 0].foldlM next
    (envInit (Kern.fresh 8))

/-- It stores `0xf0000010` as `stabstr_end`. -/
def kernelStrings : Option (Kern (Machine.withFree 8)) :=
  withStabData.bind fun s =>
    [.store 0 (ustabdata + 12) 0x10, .store 0 (ustabdata + 15) 0xf0].foldlM next s

end Jos
