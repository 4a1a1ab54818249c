/-
What `sys_cputs` reads and prints.

`sys_cputs` has the buffer checked and hands it to `cprintf("%.*s")`.  The loop of `vprintfmt`
takes a character from the buffer first and looks at the precision afterwards, so a string that
does not end in the buffer is read one byte too far; and a NUL in the buffer ends the output.
Whatever the buffer holds, one of the two happens.  Only a NULL pointer is different: the loop
then runs over the kernel's own text "(null)".
-/
import Os.Proofs.Jos.Calls
import Os.Proofs.Jos.Start

namespace Jos

open List BitVec Option

variable {M : Machine} {pm : Pmap M} {d : Ppn M} {s s' : Kern M} {c : CpuIdx} {e : EnvIdx}
  {o : Outside} {str len va : Word} {n : Nat} {out : List (BitVec 8)}

/-! ### The loop -/

theorem printString_done (h : printString pm d n va = .done out) :
    out = [] ∨ ∃ m ch out', n = m + 1 ∧ out = ch :: out' ∧
      printString pm d m (va + 1) = .done out' ∧
      printReads pm d n va = va :: printReads pm d m (va + 1) := by
  unfold printString at h
  cases hch : loadByte pm d va with
  | none => simp [hch] at h
  | some ch =>
    simp only [hch] at h
    split at h
    · cases h
      exact .inl rfl
    rename_i hne
    cases n with
    | zero =>
      cases h
      exact .inl rfl
    | succ m =>
      dsimp only at h
      split at h
      · rename_i out' hrest
        cases h
        refine .inr ⟨m, ch, out', rfl, rfl, hrest, ?_⟩
        rw [printReads]
        simp only [hch, if_neg hne]
      · simp at h

/-- **The loop reads the byte behind what it prints.** -/
theorem mem_printReads (n : Nat) : ∀ {va : Word} {out : List (BitVec 8)},
    printString pm d n va = .done out →
      va + BitVec.ofNat 32 out.length ∈ printReads pm d n va := by
  induction n with
  | zero =>
    intro va out h
    obtain rfl | ⟨m, _, _, hm, -⟩ := printString_done h
    · rw [printReads]
      simp
    · omega
  | succ n ih =>
    intro va out h
    obtain rfl | ⟨m, ch, out', hm, rfl, hrest, hreads⟩ := printString_done h
    · rw [printReads]
      simp
    cases hm
    rw [hreads, length_cons]
    have hnext : va + BitVec.ofNat 32 (out'.length + 1) = va + 1 + BitVec.ofNat 32 out'.length := by
      rw [BitVec.add_assoc, BitVec.add_comm 1, ofNat_add]
      rfl
    rw [hnext]
    exact mem_cons_of_mem _ (ih hrest)

/-! ### The call -/

/-- Nothing outside `[str, str+len)` is read, and the bytes there are what is printed. -/
structure CputsExact (pm : Pmap M) (d : Ppn M) (str len : Word) (r : CputsRun) : Prop where
  reads : ∀ a ∈ r.reads, a - str < len
  prints : ∃ out, r.printed = .done out ∧ out.length = len.toNat ∧
    ∀ j < len.toNat, loadByte pm d (str + BitVec.ofNat 32 j) = out[j]?

/-- A call that passes the check does what `cputsRun` says. -/
theorem sysCputs_eq (hcur : s.curenv c = some e) (hd : (s.envs e).envPgdir = some d)
    (hret : userMemAssert s c e str len 0 = some (.ret () s')) :
    sysCputs s c o str len =
      match (cputsRun s.pm d str len).printed with
      | .done _ => some (.ret 0 s)
      | .fault va => kernelFault s c o va := by
  obtain ⟨-, hs'⟩ | ⟨_, hc, -⟩ := userMemAssert_cases hcur hret
  · cases hs'
    unfold sysCputs cputsRun
    simp only [hcur, hret, hd]
    split <;> rfl
  · simp at hc

/-- A string that is not NULL is read too far, or cut short. -/
theorem not_cputsExact (hstr : str ≠ 0) : ¬ CputsExact pm d str len (cputsRun pm d str len) := by
  intro hexact
  obtain ⟨out, hout, hlen, -⟩ := hexact.prints
  have hreads := hexact.reads
  simp only [cputsRun, if_neg hstr] at hout hreads
  have hlast := hreads _ (mem_printReads _ hout)
  rw [hlen, ofNat_toNat, setWidth_eq, BitVec.add_comm, add_sub_cancel] at hlast
  exact absurd hlast (BitVec.lt_irrefl len)

theorem length_take_nullText :
    (nullText.take (precision len)).length = len.toNat ↔ len.toNat ≤ 6 := by
  have hsix : nullText.length = 6 := rfl
  have hlt := len.isLt
  rw [length_take, hsix, precision]
  split
  · rename_i hneg
    have hneg' := (slt_zero_iff_msb_cond).mp hneg
    rw [msb_eq_decide] at hneg'
    have hbig : 2 ^ 31 ≤ len.toNat := of_decide_eq_true hneg'
    omega
  · omega

/--
**`sys_cputs` prints a checked buffer, and reads nothing else, only for a NULL pointer** and if
the program has the beginning of "(null)" at address 0.
-/
theorem sys_cputs_iff (hcur : s.curenv c = some e) (hd : (s.envs e).envPgdir = some d)
    (hret : userMemAssert s c e str len 0 = some (.ret () s')) :
    (sysCputs s c o str len =
      match (cputsRun s.pm d str len).printed with
      | .done _ => some (.ret 0 s)
      | .fault va => kernelFault s c o va) ∧
    (CputsExact s.pm d str len (cputsRun s.pm d str len) ↔
      str = 0 ∧ len.toNat ≤ 6 ∧
        ∀ j < len.toNat, loadByte s.pm d (BitVec.ofNat 32 j) = nullText[j]?) := by
  refine ⟨sysCputs_eq hcur hd hret, ?_⟩
  by_cases hstr : str = 0
  · subst hstr
    have hrun : cputsRun s.pm d 0 len = ⟨[], .done (nullText.take (precision len))⟩ := if_pos rfl
    have hbyte : ∀ j, j < len.toNat → len.toNat ≤ 6 →
        (nullText.take (precision len))[j]? = nullText[j]? := by
      intro j hj hle
      have hlen := length_take_nullText.mpr hle
      rw [length_take] at hlen
      exact List.getElem?_take_of_lt (by omega)
    have hzero : ∀ j, (0 : Word) + BitVec.ofNat 32 j = BitVec.ofNat 32 j := fun _ =>
      BitVec.zero_add _
    rw [hrun]
    constructor
    · rintro ⟨-, out, hout, hlen, hbytes⟩
      cases hout
      have hle := length_take_nullText.mp hlen
      refine ⟨rfl, hle, fun j hj => ?_⟩
      rw [← hbyte j hj hle, ← hbytes j hj, hzero]
    · rintro ⟨-, hle, hbytes⟩
      refine ⟨fun a ha => absurd ha not_mem_nil, _, rfl, length_take_nullText.mpr hle, ?_⟩
      intro j hj
      rw [hbyte j hj hle, ← hbytes j hj, hzero]
  · exact iff_of_false (not_cputsExact hstr) fun hc => hstr hc.1

/-- A program that has put a parenthesis at address 0. -/
def parenAtZero : Option (Kern (Machine.withFree 8)) :=
  [.create .bare, .sched 0, .call 0 sysNoPageAlloc 0 0 7 0 0, .store 0 0 40].foldlM next
    (envInit (Kern.fresh 8))

/-- It prints one byte from there. -/
theorem sys_cputs_iff_null :
    ∃ s d, parenAtZero = some s ∧ s.curenv 0 = some 0 ∧ (s.envs 0).envPgdir = some d ∧
      CputsExact s.pm d 0 1 (cputsRun s.pm d 0 1) := by
  have heval : (parenAtZero.bind fun s => (s.envs 0).envPgdir.map fun d => decide
      (s.curenv 0 = some 0 ∧ loadByte s.pm d 0 = some 40 ∧
        userMemCheck s.pm (s.envs 0).envPgdir 0 1 (0 ||| pteU) = some none)) = some true := by
    decide +kernel
  obtain ⟨s, hs, hmap⟩ := bind_eq_some_iff.mp heval
  obtain ⟨d, hd, hfacts⟩ := map_eq_some_iff.mp hmap
  obtain ⟨hcur, hbyte, hcheck⟩ := of_decide_eq_true hfacts
  have hret : userMemAssert s 0 0 0 1 0 = some (.ret () s) := by
    unfold userMemAssert
    rw [hcheck]
  refine ⟨s, d, hs, hcur, hd, ?_⟩
  refine (sys_cputs_iff (o := ⟨0, 0, .zero⟩) hcur hd hret).2.mpr ⟨rfl, by decide, ?_⟩
  intro j hj
  cases Nat.lt_one_iff.mp hj
  exact hbyte

/-- The first of two programs has put a letter in the last byte of its stack. -/
def letterOnTop : Option (Kern (Machine.withFree 8)) :=
  twoPrograms.bind fun s => next s (.store 0 (ustacktop - 1) 65)

/-- It prints that byte, which passes the check, and is destroyed: the kernel has read the page
behind the stack, and taken its own fault for one of the program. -/
theorem cputs_reads_beyond :
    ∃ s s', letterOnTop = some s ∧ s.curenv 0 = some 0 ∧
      userMemCheck s.pm (s.envs 0).envPgdir (ustacktop - 1) 1 pteU = some none ∧
      sysCputs s 0 ⟨0, 0, .zero⟩ (ustacktop - 1) 1 = some (.left s') ∧
      (s'.envs 0).envStatus = .free := by
  have heval : (letterOnTop.bind fun s =>
      (sysCputs s 0 ⟨0, 0, .zero⟩ (ustacktop - 1) 1).map fun f => decide (s.curenv 0 = some 0 ∧
        userMemCheck s.pm (s.envs 0).envPgdir (ustacktop - 1) 1 pteU = some none) &&
        match f with
        | .left s' => decide ((s'.envs 0).envStatus = .free)
        | .ret _ _ => false) = some true := by
    decide +kernel
  obtain ⟨s, hs, hmap⟩ := bind_eq_some_iff.mp heval
  obtain ⟨f, hf, hfacts⟩ := map_eq_some_iff.mp hmap
  rw [Bool.and_eq_true] at hfacts
  obtain ⟨hcur, hcheck⟩ := of_decide_eq_true hfacts.1
  cases f with
  | left s' => exact ⟨s, s', hs, hcur, hcheck, hf, of_decide_eq_true hfacts.2⟩
  | ret r s' => exact absurd hfacts.2 (by simp)

end Jos
