/-
System calls from the user's side.

For a stub to be the kernel function of the same name, three tables have to agree: the
registers the inline assembly loads, the order in which `trap_dispatch` takes them, and
the switch in `syscall`.  They agree on every call but one.  The switch has no case for
`SYS_env_set_pgfault_upcall`, so that call answers `-E_INVAL` whatever it is given and
the function with the same name is never reached.
-/
import Os.Jos.Stubs
import Os.Proofs.Jos.Faults

namespace Jos

variable {M : Machine} {s s' : Kern M} {c : CpuIdx} {e : EnvIdx} {o : Outside}
variable {tf : Trapframe} {r : PushRegs} {st : Stub} {v : Int}

/-! ### What a call returns -/

/-- An error code or 0. -/
abbrev Status (v : Int) : Prop := -5 ≤ v ∧ v ≤ 0

/-- A C `int`. -/
abbrev IsInt (v : Int) : Prop := -2 ^ 31 ≤ v ∧ v < 2 ^ 31

theorem Status.isInt (h : Status v) : IsInt v := by
  omega

theorem IsInt.toInt_ofInt (h : IsInt v) : (BitVec.ofInt 32 v).toInt = v := by
  rw [BitVec.toInt_ofInt, Int.bmod_def]
  omega

theorem isInt_toInt (w : Word) : IsInt w.toInt := by
  have hlo := BitVec.le_toInt w
  have hhi := BitVec.toInt_lt (x := w)
  omega

theorem lookupEnv_error {envid : Word} (h : lookupEnv s c envid = some (.error v)) :
    v = -eBadEnv := by
  unfold lookupEnv at h
  split at h
  · simp at h
  rename_i r store hr
  split at h
  · rename_i hneg
    cases h
    rcases envid2env_cases hr with ⟨-, hz, -⟩ | ⟨-, -, hz, -⟩ | ⟨-, -, hbad, -⟩
    · omega
    · omega
    · exact hbad
  · split at h <;> simp at h

theorem sysEnvDestroy_status {envid : Word} (h : sysEnvDestroy s c envid = some (.ret v s')) :
    Status v := by
  unfold sysEnvDestroy at h
  split at h
  · simp at h
  · rename_i r hr
    cases h
    rw [lookupEnv_error hr]
    decide
  · split at h <;> cases h
    decide

theorem sysPageAlloc_status {envid va perm : Word}
    (h : sysPageAlloc s c envid va perm = some (v, s')) : Status v := by
  unfold sysPageAlloc at h
  repeat' split at h
  all_goals
    cases h
    try decide

theorem sysPageMap_status {srcenvid srcva dstenvid dstva perm : Word}
    (h : sysPageMap s c srcenvid srcva dstenvid dstva perm = some (v, s')) : Status v := by
  unfold sysPageMap at h
  repeat' split at h
  all_goals
    cases h
    try decide

theorem sysPageUnmap_status {envid va : Word}
    (h : sysPageUnmap s c envid va = some (v, s')) : Status v := by
  unfold sysPageUnmap at h
  repeat' split at h
  all_goals
    cases h
    try decide

theorem sysEnvSetStatus_status {envid status : Word}
    (h : sysEnvSetStatus s c envid status = some (v, s')) : Status v := by
  unfold sysEnvSetStatus at h
  split at h
  · cases h
    decide
  split at h
  · simp at h
  · rename_i hr
    cases h
    rw [lookupEnv_error hr]
    decide
  · cases h
    decide

theorem sysEnvSetPgfaultUpcall_status {envid func : Word}
    (h : sysEnvSetPgfaultUpcall s c envid func = some (v, s')) : Status v := by
  unfold sysEnvSetPgfaultUpcall at h
  repeat' split at h
  all_goals
    cases h
    try decide

theorem sysCputs_status {str len : Word} (h : sysCputs s c o str len = some (.ret v s')) :
    Status v := by
  unfold sysCputs kernelFault at h
  repeat' split at h
  all_goals
    cases h
    try decide

theorem envAlloc_status {parentId : Word} (h : envAlloc s parentId = (.error v, s')) :
    Status v := by
  unfold envAlloc envSetupVm at h
  split at h
  · cases h
    decide
  cases hp : pageAlloc s.pm allocZero with
  | mk pp pm =>
    cases pp with
    | none =>
      simp only [hp] at h
      cases h
      decide
    | some p =>
      simp only [hp] at h
      cases h

theorem sysExofork_isInt (h : sysExofork s c = some (v, s')) : IsInt v := by
  unfold sysExofork at h
  split at h
  · simp at h
  split at h
  · rename_i halloc
    cases h
    exact (envAlloc_status halloc).isInt
  · cases h
    exact isInt_toInt _

theorem sysYield_ne_ret (v : Int) (s' : Kern M) : sysYield s c ≠ some (.ret v s') := by
  unfold sysYield
  cases schedYield s c with
  | none => simp
  | some s1 => simp

/-- **`sys_env_set_pgfault_upcall`** on an environment the caller may name, and on any other. -/
theorem sysEnvSetPgfaultUpcall_eq (hcur : s.curenv c = some e) (envid func : Word) :
    (∃ k, lookupEnv s c envid = some (.ok k) ∧ sysEnvSetPgfaultUpcall s c envid func
      = some (0, s.modifyEnv k fun v => { v with envPgfaultUpcall := func })) ∨
    sysEnvSetPgfaultUpcall s c envid func = some (-eBadEnv, s) := by
  unfold sysEnvSetPgfaultUpcall lookupEnv
  cases hr : envid2env s c envid true with
  | none =>
    have hnone := (envid2env_eq_none.mp hr).2.1
    rw [hcur] at hnone
    simp at hnone
  | some x =>
    obtain ⟨v, store⟩ := x
    rcases envid2env_cases hr with ⟨-, rfl, rfl⟩ | ⟨-, -, rfl, rfl⟩ | ⟨-, -, rfl, rfl⟩
    · rw [hcur]
      exact .inl ⟨e, rfl, rfl⟩
    · exact .inl ⟨envx envid, rfl, rfl⟩
    · exact .inr rfl

/-- A kernel function returns an `int`, and a checked one no positive value. -/
theorem Stub.invoke_value (hget : IsInt o.consGetc) (h : st.invoke s c o = some (.ret v s')) :
    IsInt v ∧ (st.check = true → v ≤ 0) := by
  have hreturns : ∀ {x : Option (Int × Kern M)}, returns x = some (.ret v s') →
      x = some (v, s') := by
    intro x hx
    obtain ⟨y, hy, heq⟩ := Option.map_eq_some_iff.mp hx
    cases heq
    exact hy
  have hstatus : Status v → IsInt v ∧ (st.check = true → v ≤ 0) :=
    fun hv => ⟨hv.isInt, fun _ => hv.2⟩
  cases st with
  | cputs str len =>
    rw [Stub.invoke] at h
    exact hstatus (sysCputs_status h)
  | cgetc =>
    cases h
    exact ⟨hget, fun hc => Bool.noConfusion hc⟩
  | envDestroy envid => exact hstatus (sysEnvDestroy_status h)
  | getenvid =>
    obtain ⟨id, -, heq⟩ := Option.map_eq_some_iff.mp h
    cases heq
    exact ⟨isInt_toInt id, fun hc => Bool.noConfusion hc⟩
  | yield =>
    rw [Stub.invoke] at h
    exact absurd h (sysYield_ne_ret v s')
  | pageAlloc envid va perm => exact hstatus (sysPageAlloc_status (hreturns h))
  | pageMap srcenv srcva dstenv dstva perm => exact hstatus (sysPageMap_status (hreturns h))
  | pageUnmap envid va => exact hstatus (sysPageUnmap_status (hreturns h))
  | exofork => exact ⟨sysExofork_isInt (hreturns h), fun hc => Bool.noConfusion hc⟩
  | envSetStatus envid status => exact hstatus (sysEnvSetStatus_status (hreturns h))
  | envSetPgfaultUpcall envid func => exact hstatus (sysEnvSetPgfaultUpcall_status (hreturns h))
  | ipcTrySend envid value srcva perm => cases h
  | ipcRecv dstva => cases h

/-! ### From the stub to the function and back -/

/-- What `trap_dispatch` does with the result of a call by `e`. -/
def answer (e : EnvIdx) : Option (Flow M Int) → Option (Flow M Unit)
  | none => none
  | some (.left s) => some (.left s)
  | some (.ret v s) => some (.ret () (setEax s (some e) v))

/-- The trap of a stub is a call of the kernel function, and the stub receives its value. -/
structure Agrees (s : Kern M) (c : CpuIdx) (o : Outside) (e : EnvIdx) (tf : Trapframe)
    (st : Stub) : Prop where
  dispatch : trapDispatch s c o tf (some e) = answer e (st.invoke s c o)
  receive : ∀ v s', st.invoke s c o = some (.ret v s') →
    st.receive ((setEax s' (some e) v).envs e).envTf.tfRegs.regEax = some v

theorem trapDispatch_syscall (htrap : tf.tfTrapno = tSyscall) :
    trapDispatch s c o tf (some e) = answer e (syscall s c o tf.tfRegs.regEax tf.tfRegs.regEdx
      tf.tfRegs.regEcx tf.tfRegs.regEbx tf.tfRegs.regEdi tf.tfRegs.regEsi) := by
  unfold trapDispatch
  rw [htrap, if_neg (by decide), if_neg (by decide), if_pos rfl]
  cases syscall s c o tf.tfRegs.regEax tf.tfRegs.regEdx tf.tfRegs.regEcx tf.tfRegs.regEbx
      tf.tfRegs.regEdi tf.tfRegs.regEsi with
  | none => rfl
  | some f => cases f <;> rfl

/-- What a stub leaves in the registers is taken out again in the same order. -/
theorem syscall_regs (himp : st.implemented = true)
    (hne : ∀ envid func, st ≠ .envSetPgfaultUpcall envid func) :
    syscall s c o (st.regs r).regEax (st.regs r).regEdx (st.regs r).regEcx (st.regs r).regEbx
      (st.regs r).regEdi (st.regs r).regEsi = st.invoke s c o := by
  cases st with
  | envSetPgfaultUpcall envid func => exact absurd rfl (hne envid func)
  | ipcTrySend envid value srcva perm => cases himp
  | ipcRecv dstva => cases himp
  | _ =>
    unfold syscall
    simp only [Stub.regs, syscallRegs, Stub.invoke]
    simp [sysNoCputs, sysNoCgetc, sysNoGetenvid, sysNoEnvDestroy, sysNoExofork, sysNoPageAlloc,
      sysNoPageMap, sysNoPageUnmap, sysNoEnvSetStatus, sysNoYield]

theorem syscall_setPgfaultUpcall (a1 a2 a3 a4 a5 : Word) :
    syscall s c o sysNoEnvSetPgfaultUpcall a1 a2 a3 a4 a5 = some (.ret (-eInval) s) := by
  unfold syscall
  simp [sysNoCputs, sysNoCgetc, sysNoGetenvid, sysNoEnvDestroy, sysNoExofork, sysNoPageAlloc,
    sysNoPageMap, sysNoPageUnmap, sysNoEnvSetStatus, sysNoYield, sysNoEnvSetPgfaultUpcall]

theorem eax_setEax (s : Kern M) (e : EnvIdx) (v : Int) :
    ((setEax s (some e) v).envs e).envTf.tfRegs.regEax = BitVec.ofInt 32 v := by
  simp [setEax, Kern.modifyEnv]

theorem Stub.receive_of_invoke (hget : IsInt o.consGetc)
    (h : st.invoke s c o = some (.ret v s')) (e : EnvIdx) :
    st.receive ((setEax s' (some e) v).envs e).envTf.tfRegs.regEax = some v := by
  obtain ⟨hint, hcheck⟩ := Stub.invoke_value hget h
  rw [eax_setEax, Stub.receive, hint.toInt_ofInt, if_neg]
  rintro ⟨hc, hpos⟩
  have hle := hcheck hc
  omega

/-- The call that is not in the switch answers otherwise than its function would. -/
theorem not_agrees_setPgfaultUpcall {envid func : Word} (hcur : s.curenv c = some e)
    (htrap : tf.tfTrapno = tSyscall)
    (hregs : tf.tfRegs = (Stub.envSetPgfaultUpcall envid func).regs r) :
    ¬ Agrees s c o e tf (.envSetPgfaultUpcall envid func) := by
  intro h
  have hdispatch := h.dispatch
  have heax : tf.tfRegs.regEax = sysNoEnvSetPgfaultUpcall := by
    rw [hregs]
    rfl
  rw [trapDispatch_syscall htrap, heax, syscall_setPgfaultUpcall] at hdispatch
  -- both sides return, so the saved `%eax` has to be the same
  have heq : ∀ {v : Int} {s1 : Kern M}, sysEnvSetPgfaultUpcall s c envid func = some (v, s1) →
      BitVec.ofInt 32 (-eInval) = BitVec.ofInt 32 v := by
    intro v s1 hv
    rw [Stub.invoke, hv] at hdispatch
    injection hdispatch with hflow
    injection hflow with _ hstate
    have := congrArg (fun s => (s.envs e).envTf.tfRegs.regEax) hstate
    simpa only [eax_setEax] using this
  rcases sysEnvSetPgfaultUpcall_eq hcur envid func with ⟨k, -, hv⟩ | hv
  · exact absurd (heq hv) (by decide)
  · exact absurd (heq hv) (by decide)

/--
**System calls from the user's side.**  The running environment `e` issues a stub whose
kernel function has a body.  The trap dispatches to that function, with the arguments of
the stub, and its value is what the stub receives, exactly when the stub is not
`sys_env_set_pgfault_upcall`.  (A dying environment is collected before the dispatch.)
-/
theorem stub_agrees_iff (hcur : s.curenv c = some e) (huser : tf.tfCs &&& 3 = 3)
    (htrap : tf.tfTrapno = tSyscall) (hregs : tf.tfRegs = st.regs r)
    (himp : st.implemented = true) (hget : IsInt o.consGetc) :
    ((s.envs e).envStatus ≠ .dying →
      trap s c o tf = afterDispatch c (trapDispatch (trapEntry s c e tf) c o tf (some e))) ∧
    (Agrees (trapEntry s c e tf) c o e tf st ↔
      ∀ envid func, st ≠ .envSetPgfaultUpcall envid func) := by
  refine ⟨?_, ?_, ?_⟩
  · intro hrun
    unfold trap
    rw [if_pos huser, curenv_setCpuStatus, hcur]
    have hst : ((s.setCpuStatus c .started).envs e).envStatus ≠ .dying := hrun
    simp only
    rw [if_neg hst]
    rfl
  · intro h envid func hst
    rw [hst] at h hregs
    exact not_agrees_setPgfaultUpcall ((curenv_trapEntry s c c e tf).trans hcur) htrap hregs h
  · intro hne
    refine ⟨?_, fun v s' hv => Stub.receive_of_invoke hget hv e⟩
    rw [trapDispatch_syscall htrap, hregs, syscall_regs himp hne]

/-- The trap frame of a stub called with zeroes in the other registers. -/
def Stub.frame (st : Stub) : Trapframe :=
  { Trapframe.zero with
    tfRegs := st.regs Trapframe.zero.tfRegs, tfTrapno := tSyscall, tfCs := gdUt ||| 3 }

/-- A program asks for a page. -/
theorem stub_agrees_iff_pageAlloc :
    (faulting 0).curenv 0 = some 0 ∧ Agrees
      (trapEntry (faulting 0) 0 0 (Stub.pageAlloc 0 0x1000 7).frame) 0 ⟨0, 0, .zero⟩ 0
      (Stub.pageAlloc 0 0x1000 7).frame (.pageAlloc 0 0x1000 7) := by
  refine ⟨rfl, (stub_agrees_iff (s := faulting 0) rfl (by decide) rfl rfl rfl ?_).2.mpr ?_⟩
  · decide
  · intro envid func hc
    cases hc

/-- A program sets its own page-fault upcall: the function would do it, the call does not. -/
theorem upcall_not_set :
    ∃ s1 s2 : Kern (Machine.withFree 8),
      (Stub.envSetPgfaultUpcall 0 0x800040).invoke
        (trapEntry (faulting 0) 0 0 (Stub.envSetPgfaultUpcall 0 0x800040).frame) 0
        ⟨0, 0, .zero⟩ = some (.ret 0 s1) ∧
      (s1.envs 0).envPgfaultUpcall = 0x800040 ∧
      trapDispatch (trapEntry (faulting 0) 0 0 (Stub.envSetPgfaultUpcall 0 0x800040).frame) 0
        ⟨0, 0, .zero⟩ (Stub.envSetPgfaultUpcall 0 0x800040).frame (some 0) = some (.ret () s2) ∧
      (s2.envs 0).envPgfaultUpcall = 0x800020 ∧
      (Stub.envSetPgfaultUpcall 0 0x800040).receive (s2.envs 0).envTf.tfRegs.regEax
        = some (-eInval) := by
  refine ⟨_, setEax (trapEntry (faulting 0) 0 0 (Stub.envSetPgfaultUpcall 0 0x800040).frame)
    (some 0) (-eInval), rfl, rfl, ?_, rfl, rfl⟩
  rfl

end Jos
