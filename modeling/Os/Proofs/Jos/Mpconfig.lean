/-
What `mp_init` finds in a table that `mpconfig` has accepted.

The loop over the entries is described by the offsets it stops at, `walked`, and by the boot flags
of the processors among them, `procs`.  Two things follow that the checks of `mpconfig` do not
exclude.  The number of entries is not related to the length of the table, so the loop may leave it.
And `bootcpu` is set before it is known that the processor is counted.
-/
import Os.Jos.Mpconfig

namespace Jos

open List

variable {npages : Nat} {mem : Word → BitVec 8} {conf : Word}

/-! ### The entries -/

section

variable (mem : Word → BitVec 8) (conf : Word)

/-- The boot flag of the processor entry at `p`. -/
def isBoot (p : Nat) : Bool := decide (mem (conf + BitVec.ofNat 32 (p + 3)) &&& mpprocBoot ≠ 0)

/-- The offsets of the entries that the loop looks at. -/
def walked : Nat → Nat → List Nat
  | 0, _ => []
  | n + 1, p =>
    if entryType mem conf p = 0 then p :: walked n (p + 20)
    else if entryType mem conf p ≤ 4 then p :: walked n (p + 8)
    else [p]

/-- The boot flags of the processors among them. -/
def procs (entries : List Nat) : List Bool :=
  (entries.filter fun p => entryType mem conf p = 0).map (isBoot mem conf)

/-- The loop meets no entry of an unknown type. -/
def Known (entries : List Nat) : Prop := ∀ p ∈ entries, entryType mem conf p ≤ 4

/-- The last byte of an entry that is read. -/
def lastRead (p : Nat) : Nat := if entryType mem conf p = 0 then p + 3 else p

end

/-- The last processor with the boot flag. -/
def lastBoot : List Bool → Option Nat
  | [] => none
  | b :: bs =>
    match lastBoot bs with
    | some k => some (k + 1)
    | none => if b then some 0 else none

theorem lastBoot_lt {flags : List Bool} {k : Nat} (h : lastBoot flags = some k) :
    k < flags.length := by
  induction flags generalizing k with
  | nil => cases h
  | cons b bs ih =>
    rw [lastBoot] at h
    split at h
    · rename_i j hj
      cases h
      exact Nat.succ_lt_succ (ih hj)
    · split at h
      · cases h
        exact Nat.zero_lt_succ _
      · cases h

/-! ### The loop -/

/-- What the loop does to the variables, for processors with the given boot flags. -/
structure Counted (flags : List Bool) (s s' : Cpus) : Prop where
  count : s'.ncpu = min ncpu (s.ncpu + flags.length)
  boot : s'.bootcpu = ((lastBoot flags).map fun k => min ncpu (s.ncpu + k)).getD s.bootcpu
  ids : ∀ i, s'.cpuId i = if s.ncpu ≤ i ∧ i < s'.ncpu then i else s.cpuId i

theorem Counted.refl {s : Cpus} (hle : s.ncpu ≤ ncpu) (ismp : Bool) (reads : List Nat) :
    Counted [] s { s with ismp := ismp, reads := reads } where
  count := (Nat.min_eq_right hle).symm
  boot := rfl
  ids i := by
    rw [if_neg fun h => absurd h.2 (Nat.not_lt.mpr h.1)]

theorem Counted.of_reads {flags : List Bool} {s s' : Cpus} (reads : List Nat)
    (h : Counted flags { s with reads := reads } s') : Counted flags s s' :=
      ⟨h.count, h.boot, h.ids⟩

theorem Counted.le {flags : List Bool} {s s' : Cpus} (h : Counted flags s s') : s'.ncpu ≤ ncpu :=
  h.count ▸ Nat.min_le_left _ _

theorem mpproc_boot (p : Nat) (s : Cpus) : (mpproc mem conf p s).bootcpu =
    if isBoot mem conf p then s.ncpu else s.bootcpu := by
  unfold mpproc isBoot
  by_cases hb : mem (conf + BitVec.ofNat 32 (p + 3)) &&& mpprocBoot ≠ 0
  · rw [decide_eq_true hb]
    simp only [if_pos hb]
    split <;> rfl
  · rw [decide_eq_false hb]
    simp only [if_neg hb]
    split <;> rfl

theorem mpproc_ismp (p : Nat) (s : Cpus) : (mpproc mem conf p s).ismp = s.ismp := by
  unfold mpproc
  dsimp only
  split_ifs <;> rfl

theorem mpproc_ncpu (p : Nat) (s : Cpus) : (mpproc mem conf p s).ncpu =
    if s.ncpu < ncpu then s.ncpu + 1 else s.ncpu := by
  unfold mpproc
  dsimp only
  split_ifs <;> rfl

theorem mpproc_cpuId (p : Nat) (s : Cpus) : (mpproc mem conf p s).cpuId =
    if s.ncpu < ncpu then Function.update s.cpuId s.ncpu s.ncpu else s.cpuId := by
  unfold mpproc
  dsimp only
  split_ifs <;> rfl

theorem mpproc_counted (p : Nat) {s : Cpus} (hle : s.ncpu ≤ ncpu) :
    Counted [isBoot mem conf p] s (mpproc mem conf p s) where
  count := by
    rw [mpproc_ncpu, length_singleton]
    split_ifs <;> omega
  boot := by
    rw [mpproc_boot]
    cases isBoot mem conf p with
    | false => rfl
    | true => exact (Nat.min_eq_right hle).symm
  ids i := by
    rw [mpproc_cpuId, mpproc_ncpu]
    split_ifs with hn hi hi
    · obtain rfl : i = s.ncpu := by omega
      exact Function.update_self _ _ _
    · exact Function.update_of_ne (by omega) _ _
    · omega
    · rfl

theorem Counted.cons {b : Bool} {flags : List Bool} {s s' s'' : Cpus} (h : Counted [b] s s')
    (hle : s.ncpu ≤ ncpu) (h' : Counted flags s' s'') : Counted (b :: flags) s s'' := by
  have hcount := h.count
  have hcount' := h'.count
  rw [length_singleton] at hcount
  refine ⟨?_, ?_, fun i => ?_⟩
  · rw [length_cons]
    omega
  · rw [h'.boot, lastBoot]
    cases hlast : lastBoot flags with
    | none =>
      rw [h.boot]
      rfl
    | some k =>
      show min ncpu (s'.ncpu + k) = min ncpu (s.ncpu + (k + 1))
      omega
  · rw [h'.ids, h.ids]
    split_ifs <;> omega

theorem procs_cons_proc {p : Nat} (h : entryType mem conf p = 0) (entries : List Nat) :
    procs mem conf (p :: entries) = isBoot mem conf p :: procs mem conf entries := by
  simp [procs, h]

theorem procs_cons_other {p : Nat} (h : entryType mem conf p ≠ 0) (entries : List Nat) :
    procs mem conf (p :: entries) = procs mem conf entries := by
  simp [procs, h]

theorem mpEntries_counted (n : Nat) : ∀ (p : Nat) {s : Cpus}, s.ncpu ≤ ncpu →
    Counted (procs mem conf (walked mem conf n p)) s (mpEntries mem conf n p s) := by
  induction n with
  | zero =>
    intro p s hle
    exact .refl hle s.ismp _
  | succ n ih =>
    intro p s hle
    rw [mpEntries, walked]
    by_cases hzero : entryType mem conf p = 0
    · rw [if_pos hzero, if_pos hzero, procs_cons_proc hzero]
      have hproc : Counted [isBoot mem conf p] s
          (mpproc mem conf p { s with reads := p :: 35 :: 34 :: s.reads }) :=
        .of_reads _ (mpproc_counted p (s := { s with reads := p :: 35 :: 34 :: s.reads }) hle)
      exact hproc.cons hle (ih (p + 20) hproc.le)
    · rw [if_neg hzero, if_neg hzero]
      by_cases hknown : entryType mem conf p ≤ 4
      · rw [if_pos hknown, if_pos hknown, procs_cons_other hzero]
        exact .of_reads _ (ih (p + 8) (s := { s with reads := p :: 35 :: 34 :: s.reads }) hle)
      · rw [if_neg hknown, if_neg hknown, procs_cons_other hzero]
        exact .refl hle false _

theorem mpEntries_ismp (n : Nat) : ∀ (p : Nat) {s : Cpus}, s.ismp = true →
    ((mpEntries mem conf n p s).ismp = true ↔ Known mem conf (walked mem conf n p)) := by
  induction n with
  | zero =>
    intro p s hs
    exact iff_of_true hs fun e he => absurd he not_mem_nil
  | succ n ih =>
    intro p s hs
    rw [mpEntries, walked]
    by_cases hzero : entryType mem conf p = 0
    · have hproc : (mpproc mem conf p { s with reads := p :: 35 :: 34 :: s.reads }).ismp = true :=
        (mpproc_ismp p _).trans hs
      rw [if_pos hzero, if_pos hzero, ih (p + 20) hproc]
      simp [Known, hzero]
    · rw [if_neg hzero, if_neg hzero]
      by_cases hknown : entryType mem conf p ≤ 4
      · rw [if_pos hknown, if_pos hknown, ih (p + 8) (by exact hs)]
        simp [Known, hknown]
      · rw [if_neg hknown, if_neg hknown]
        simp [Known, hknown]

theorem mpproc_reads (len p : Nat) (s : Cpus) : (∀ x ∈ (mpproc mem conf p s).reads, x < len) ↔
    (∀ x ∈ s.reads, x < len) ∧ p + 3 < len := by
  have hreads : (mpproc mem conf p s).reads = (p + 3) :: s.reads ∨
      (mpproc mem conf p s).reads = (p + 1) :: (p + 3) :: s.reads := by
    unfold mpproc
    dsimp only
    split_ifs
    · exact .inl rfl
    · exact .inr rfl
    · exact .inl rfl
    · exact .inr rfl
  rcases hreads with h | h
  · rw [h, forall_mem_cons, and_comm]
  rw [h, forall_mem_cons, forall_mem_cons]
  constructor
  · rintro ⟨-, h3, hs⟩
    exact ⟨hs, h3⟩
  · rintro ⟨hs, h3⟩
    exact ⟨by omega, h3, hs⟩

theorem mpEntries_reads (len n : Nat) : ∀ (p : Nat) (s : Cpus),
    (∀ x ∈ (mpEntries mem conf n p s).reads, x < len) ↔
      (∀ x ∈ s.reads, x < len) ∧ 35 < len ∧
        ∀ e ∈ walked mem conf n p, lastRead mem conf e < len := by
  -- before each entry the number of entries is read, and then its type
  have hhead : ∀ (p : Nat) (reads : List Nat), (∀ x ∈ p :: 35 :: 34 :: reads, x < len) ↔
      (∀ x ∈ reads, x < len) ∧ 35 < len ∧ p < len := by
    intro p reads
    simp only [forall_mem_cons]
    constructor
    · rintro ⟨hp, h35, -, hs⟩
      exact ⟨hs, h35, hp⟩
    · rintro ⟨hs, h35, hp⟩
      exact ⟨hp, h35, by omega, hs⟩
  induction n with
  | zero =>
    intro p s
    have h := hhead 34 s.reads
    simp only [mpEntries, walked, forall_mem_cons, not_mem_nil] at h ⊢
    constructor
    · rintro ⟨h35, -, hs⟩
      exact ⟨hs, h35, fun e he => absurd he id⟩
    · rintro ⟨hs, h35, -⟩
      exact ⟨h35, by omega, hs⟩
  | succ n ih =>
    intro p s
    rw [mpEntries, walked]
    by_cases hzero : entryType mem conf p = 0
    · rw [if_pos hzero, if_pos hzero, ih, mpproc_reads, hhead, forall_mem_cons, lastRead,
        if_pos hzero]
      constructor
      · rintro ⟨⟨⟨hs, h35, -⟩, h3⟩, -, he⟩
        exact ⟨hs, h35, h3, he⟩
      · rintro ⟨hs, h35, h3, he⟩
        exact ⟨⟨⟨hs, h35, by omega⟩, h3⟩, h35, he⟩
    · rw [if_neg hzero, if_neg hzero]
      by_cases hknown : entryType mem conf p ≤ 4
      · rw [if_pos hknown, if_pos hknown, ih, hhead, forall_mem_cons, lastRead, if_neg hzero]
        constructor
        · rintro ⟨⟨hs, h35, hp⟩, -, he⟩
          exact ⟨hs, h35, hp, he⟩
        · rintro ⟨hs, h35, hp, he⟩
          exact ⟨⟨hs, h35, hp⟩, h35, he⟩
      · rw [if_neg hknown, if_neg hknown, forall_mem_singleton, lastRead, if_neg hzero]
        simp only [forall_mem_cons]
        constructor
        · rintro ⟨h35, -, hp, -, -, hs⟩
          exact ⟨hs, h35, hp⟩
        · rintro ⟨hs, h35, hp⟩
          exact ⟨h35, by omega, hp, h35, by omega, hs⟩

/-! ### `mp_init` -/

/-- What `mp_init` is to leave behind, for a table of `len` bytes. -/
structure CpusOk (len : Nat) (s : Cpus) : Prop where
  inTable : ∀ x ∈ s.reads, x < len
  pos : 1 ≤ s.ncpu
  le : s.ncpu ≤ ncpu
  boot : s.bootcpu < s.ncpu
  ids : ∀ i < s.ncpu, s.cpuId i = i

/-- The table that makes it so. -/
structure TableOk (mem : Word → BitVec 8) (conf : Word) (entries : List Nat) : Prop where
  header : 40 ≤ confLength mem conf
  inTable : ∀ e ∈ entries, lastRead mem conf e < confLength mem conf
  known : Known mem conf entries → procs mem conf entries ≠ [] ∧
    ∀ k, lastBoot (procs mem conf entries) = some k → k < ncpu
  unknown : ¬Known mem conf entries → ∀ k, lastBoot (procs mem conf entries) = some k → k = 0

section

variable {len : Nat} {entries : List Nat} {s : Cpus}

/-- All processors that count have been found, and the last one with the boot flag is among them. -/
theorem cpusOk_known (hcount : Counted (procs mem conf entries) Cpus.zero s)
    (hreads : ∀ x ∈ s.reads, x < len) : CpusOk len s ↔ procs mem conf entries ≠ [] ∧
      ∀ k, lastBoot (procs mem conf entries) = some k → k < ncpu := by
  have hn : s.ncpu = min ncpu (procs mem conf entries).length := by
    rw [hcount.count]
    exact congrArg _ (Nat.zero_add _)
  have hids : ∀ i < s.ncpu, s.cpuId i = i := fun i hi => by
    rw [hcount.ids, if_pos ⟨Nat.zero_le i, hi⟩]
  have hboot := hcount.boot
  constructor
  · intro h
    have hlt := h.boot
    refine ⟨fun hnil => ?_, fun k hk => ?_⟩
    · rw [hnil, length_nil] at hn
      omega
    · rw [hk] at hboot
      have hmin : s.bootcpu = min ncpu (0 + k) := hboot
      omega
  · rintro ⟨hne, hlast⟩
    have hpos := length_pos_iff.mpr hne
    have hncpu : ncpu = 8 := rfl
    refine ⟨hreads, by omega, hcount.le, ?_, hids⟩
    cases hk : lastBoot (procs mem conf entries) with
    | none =>
      rw [hk] at hboot
      have hzero : s.bootcpu = 0 := hboot
      omega
    | some k =>
      rw [hk] at hboot
      have hmin : s.bootcpu = min ncpu (0 + k) := hboot
      have hlt := hlast k hk
      have hlen := lastBoot_lt hk
      omega

/-- With one processor, which is not the one that has just been set up. -/
theorem cpusOk_unknown (hcount : Counted (procs mem conf entries) Cpus.zero s)
    (hreads : ∀ x ∈ s.reads, x < len) : CpusOk len { s with ncpu := 1, lapicaddr := 0 } ↔
      ∀ k, lastBoot (procs mem conf entries) = some k → k = 0 := by
  have hncpu : ncpu = 8 := rfl
  have hboot := hcount.boot
  constructor
  · intro h k hk
    have hlt : s.bootcpu < 1 := h.boot
    rw [hk] at hboot
    have hmin : s.bootcpu = min ncpu (0 + k) := hboot
    omega
  · intro hlast
    refine ⟨hreads, Nat.le_refl 1, by show 1 ≤ ncpu; omega, ?_, fun i hi => ?_⟩
    · show s.bootcpu < 1
      cases hk : lastBoot (procs mem conf entries) with
      | none =>
        rw [hk] at hboot
        have hzero : s.bootcpu = 0 := hboot
        omega
      | some k =>
        rw [hk, hlast k hk] at hboot
        have hmin : s.bootcpu = min ncpu (0 + 0) := hboot
        omega
    · have hi : i < 1 := hi
      obtain rfl : i = 0 := by omega
      rw [hcount.ids]
      split_ifs <;> rfl

end

/-- **`mp_init`** on a table that `mpconfig` accepts: it ends, and what it leaves behind is right if
and only if the entries it looks at are in the table, there is a processor among them, and the last
one with the boot flag is one of the first `NCPU`; or, if an entry is of an unknown type, it is the
first processor. -/
theorem mpInit_ok_iff {mp : Word} (hconf : mpconfig npages mem = some (some (mp, conf))) :
    ∃ s, mpInit npages mem = some s ∧ (CpusOk (confLength mem conf) s ↔
      TableOk mem conf (walked mem conf (confEntry mem conf) 44)) := by
  generalize hentries : walked mem conf (confEntry mem conf) 44 = entries
  obtain ⟨s, hs⟩ : ∃ s, s = mpEntries mem conf (confEntry mem conf) 44 { Cpus.zero with
    ismp := true, lapicaddr := confLapicaddr mem conf, reads := [36, 37, 38, 39] } := ⟨_, rfl⟩
  have hcount : Counted (procs mem conf entries) Cpus.zero s := by
    obtain ⟨hcount, hboot, hids⟩ : Counted (procs mem conf entries) { Cpus.zero with
        ismp := true, lapicaddr := confLapicaddr mem conf, reads := [36, 37, 38, 39] } s := by
      rw [hs, ← hentries]
      exact mpEntries_counted _ 44 (Nat.zero_le _)
    exact ⟨hcount, hboot, hids⟩
  have hreads : (∀ x ∈ s.reads, x < confLength mem conf) ↔
      40 ≤ confLength mem conf ∧ ∀ e ∈ entries, lastRead mem conf e < confLength mem conf := by
    rw [hs, mpEntries_reads, hentries]
    simp only [forall_mem_cons, not_mem_nil]
    constructor
    · rintro ⟨⟨-, -, -, h39, -⟩, -, he⟩
      exact ⟨by omega, he⟩
    · rintro ⟨h40, he⟩
      exact ⟨⟨by omega, by omega, by omega, by omega, fun x hx => absurd hx id⟩, by omega, he⟩
  have hismp : s.ismp = true ↔ Known mem conf entries := by
    rw [hs, ← hentries]
    exact mpEntries_ismp _ 44 rfl
  have hrun : mpInit npages mem = some (if s.ismp then
      { s with
        started := Function.update s.started s.bootcpu true, imcr := decide (mem (mp + 12) ≠ 0) }
      else { s with
        started := Function.update s.started s.bootcpu true, ncpu := 1, lapicaddr := 0 }) := by
    unfold mpInit
    rw [hconf, hs]
    simp only [Option.bind_eq_bind, Option.bind_some]
    split <;> rfl
  refine ⟨_, hrun, ?_⟩
  by_cases hin : ∀ x ∈ s.reads, x < confLength mem conf
  · obtain ⟨hheader, htable⟩ := hreads.mp hin
    by_cases hknown : Known mem conf entries
    · rw [if_pos (hismp.mpr hknown)]
      have hok := cpusOk_known (s := { s with
        started := Function.update s.started s.bootcpu true, imcr := decide (mem (mp + 12) ≠ 0) })
        ⟨hcount.count, hcount.boot, hcount.ids⟩ hin
      rw [hok]
      exact ⟨fun h => ⟨hheader, htable, fun _ => h, fun hno => absurd hknown hno⟩,
        fun h => h.known hknown⟩
    · rw [if_neg fun h => hknown (hismp.mp h)]
      have hok :=
        cpusOk_unknown (s := { s with started := Function.update s.started s.bootcpu true })
        ⟨hcount.count, hcount.boot, hcount.ids⟩ hin
      rw [hok]
      exact ⟨fun h => ⟨hheader, htable, fun hno => absurd hno hknown, fun _ => h⟩,
        fun h => h.unknown hknown⟩
  · refine iff_of_false (fun h => hin ?_) fun h => hin (hreads.mpr ⟨h.header, h.inTable⟩)
    have hread := h.inTable
    split at hread <;> exact hread

/-- A table at `0x9fd00` with two processors, which says that it has `n` entries. -/
def twoCpuTable (n : BitVec 8) (a : Word) : BitVec 8 :=
  let floating : List (BitVec 8) :=
    [0x5f, 0x4d, 0x50, 0x5f, 0x00, 0xfd, 0x09, 0x00, 1, 4, 0x9a, 0, 0, 0, 0, 0]
  if a = 0x40e then 0xc0
  else if a = 0x40f then 0x9f
  else if 0x9fc00 ≤ a ∧ a < 0x9fc10 then floating.getD (a - 0x9fc00).toNat 0
  else if 0x9fd00 ≤ a ∧ a < 0x9fd08 then
    [0x50, 0x43, 0x4d, 0x50, 84, 0, 4, 116 - n].getD (a - 0x9fd00).toNat 0
  else if a = 0x9fd22 then n
  else if a = 0x9fd2f then 3
  else if a = 0x9fd43 then 1
  else 0

theorem mpInit_ok_two : ∃ s, mpInit 1024 (twoCpuTable 2) = some s ∧ CpusOk 84 s := by
  have hconf : mpconfig 1024 (twoCpuTable 2) = some (some (0x9fc00, 0x9fd00)) := by decide +kernel
  obtain ⟨s, hs, hok⟩ := mpInit_ok_iff hconf
  have hlen : confLength (twoCpuTable 2) 0x9fd00 = 84 := by decide
  have hwalked :
      walked (twoCpuTable 2) 0x9fd00 (confEntry (twoCpuTable 2) 0x9fd00) 44 = [44, 64] := by
    decide
  rw [hwalked, hlen] at hok
  have hprocs : procs (twoCpuTable 2) 0x9fd00 [44, 64] = [true, false] := by decide
  have hknown : Known (twoCpuTable 2) 0x9fd00 [44, 64] := by
    unfold Known
    decide
  refine ⟨s, hs, hok.mpr ⟨by decide, by decide, fun _ => ?_, fun hno => absurd hknown hno⟩⟩
  rw [hprocs]
  refine ⟨by decide, fun k hk => ?_⟩
  cases hk
  decide

/-- The number of entries is not checked against the length of the table. -/
theorem mpInit_reads_beyond :
    mpconfig 1024 (twoCpuTable 3) = some (some (0x9fc00, 0x9fd00)) ∧
      confLength (twoCpuTable 3) 0x9fd00 = 84 ∧
      (mpInit 1024 (twoCpuTable 3)).map (fun s => decide (84 ∈ s.reads ∧ s.ncpu = 3)) =
        some true := by
  refine ⟨by decide +kernel, by decide, by decide +kernel⟩

end Jos
