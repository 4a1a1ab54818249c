/-
Page faults, taken by the program and by the kernel itself.

A fault of a program with an upcall is delivered on its exception stack.  Whether the place for the
frame may be written is decided by `user_mem_assert`, and on directories as `pgdir_walk` builds
them its answer is exact.  The frame is then written byte by byte and nothing else changes.  One
field of it is wrong: `utf_err` is given the trap number in place of the error code, so a handler
that looks at the error code, as the one of `fork` does, sees 14 whatever happened.

A fault of the kernel should be the end of it.  The test for that is written
`tf->tf_cs && 0x01 == 0`, which C reads as a conjunction with something false.  So the handler never
panics.  It takes the fault for one of the current environment and destroys that environment, or
sends it to its upcall; where there is no current environment it goes through the NULL pointer and
faults again.
-/
import Os.Lib.Bytes
import Os.Proofs.Jos.Authority
import Os.Proofs.Jos.UserBytes
import Os.Proofs.Jos.UserMem

namespace Jos

open BitVec Option

variable {M : Machine} {pm : Pmap M} {d : Ppn M} {s s' : Kern M} {c : CpuIdx} {e : EnvIdx}
  {tf : Trapframe} {esp va : Word}

/-! ### The place for the frame -/

/-- The address is on the exception stack. -/
def OnStack (a : Word) : Prop :=
  (uxstacktop - pgsize).toNat ≤ a.toNat ∧ a.toNat < uxstacktop.toNat

theorem onStack_iff : OnStack a ↔ 4005556224 ≤ a.toNat ∧ a.toNat < 4005560320 := by
  have hlow : (uxstacktop - pgsize).toNat = 4005556224 := by decide
  have htop : uxstacktop.toNat = 4005560320 := by decide
  unfold OnStack
  rw [hlow, htop]

/-- The user half of a directory, as `pgdir_walk` and `page_insert` write it. -/
structure UserHalf (pm : Pmap M) (d : Ppn M) : Prop where
  /-- A page table that is there may be used for everything. -/
  pde : ∀ i : Upde, present (pm.load (d, toPde i)) →
    pm.load (d, toPde i) &&& (pteP ||| pteW ||| pteU) = pteP ||| pteW ||| pteU ∧
      ∃ t, frame M (pteAddr (pm.load (d, toPde i))) = some t
  /-- The pages mapped are pages of memory. -/
  pte : ∀ (i : Upde) t j, entry pm d (toPde i) = some t → present (pm.load (t, j)) →
    ∃ p, frame M (pteAddr (pm.load (t, j))) = some p

/-- The program may write all of the frame. -/
def FrameWritable (pm : Pmap M) (d : Ppn M) (esp : Word) : Prop :=
  ∀ j < 52, (translate pm d (pteP ||| pteW ||| pteU) (utfAddr esp + BitVec.ofNat 32 j)).isSome

/-- On the exception stack the frame ends a word below the stack pointer, and else it is the first
thing there. -/
theorem utfAddr_place (esp : Word) :
    (OnStack esp → utfAddr esp + sizeofUTrapframe + 4 = esp) ∧
      (¬ OnStack esp → utfAddr esp = uxstacktop - sizeofUTrapframe) := by
  unfold OnStack utfAddr
  constructor
  · intro h
    rw [if_pos ⟨le_def.mpr h.1, lt_def.mpr h.2⟩]
    apply eq_of_toNat_eq
    show (((2 ^ 32 - 4 + (2 ^ 32 - 52 + esp.toNat) % 2 ^ 32) % 2 ^ 32 + 52) % 2 ^ 32 + 4) % 2 ^ 32 =
      _
    omega
  · intro h
    rw [if_neg fun hc => h ⟨le_def.mp hc.1, lt_def.mp hc.2⟩]

/-- `translate` finds a page where both levels grant the access. -/
theorem grants_of_translate {need : Word} (h : (translate pm d need va).isSome) :
    Grants pm d need va := by
  unfold translate at h
  simp only at h
  split at h
  · rename_i hpde
    split at h
    · simp at h
    rename_i t ht
    split at h
    · rename_i hpte
      exact ⟨hpde, t, ht, hpte⟩
    · simp at h
  · simp at h

theorem UserHalf.translate_of_grants {need : Word} (h : UserHalf pm d) (hva : va < utop)
    (hneed : need &&& pteP = pteP) (hg : Grants pm d need va) :
    (translate pm d need va).isSome := by
  obtain ⟨hpde, t, ht, hpte⟩ := hg
  have hentry : entry pm d (toPde (upde va hva)) = some t :=
    entryOf_eq_some.mpr ⟨present_of_and_eq hneed hpde, ht⟩
  obtain ⟨p, hp⟩ := h.pte (upde va hva) t (ptx va) hentry (present_of_and_eq hneed hpte)
  simp [translate, hpde, ht, hpte, hp]

theorem toNat_frame (esp : Word) {j : Nat} (hj : j < 52) :
    (utfAddr esp + BitVec.ofNat 32 j).toNat = (utfAddr esp).toNat + j ∧
      (utfAddr esp).toNat + j < utop.toNat := by
  have hle := utfAddr_le esp
  exact ⟨toNat_add_ofNat (by omega), by omega⟩

theorem frameBits : pteP ||| pteW ||| pteU ||| pteP ||| pteU = pteP ||| pteW ||| pteU := by decide

theorem userAccessible_frame {j : Nat} (hj : j < 52) :
    UserAccessible pm d (pteP ||| pteW ||| pteU) ((utfAddr esp).toNat + j) ↔
      Grants pm d (pteP ||| pteW ||| pteU) (utfAddr esp + BitVec.ofNat 32 j) := by
  obtain ⟨hsum, hlt⟩ := toNat_frame esp hj
  have haddr : BitVec.ofNat 32 ((utfAddr esp).toNat + j) = utfAddr esp + BitVec.ofNat 32 j := by
    rw [← hsum, ofNat_toNat, setWidth_eq]
  unfold UserAccessible
  rw [haddr, frameBits, and_iff_right]
  rw [toNat_utop] at hlt
  rw [toNat_ulim]
  omega

theorem exists_frame {a : Nat} (hge : (utfAddr esp).toNat ≤ a)
    (hlt : a < (utfAddr esp).toNat + sizeofUTrapframe.toNat) :
    ∃ j < 52, a = (utfAddr esp).toNat + j := by
  have hsize : sizeofUTrapframe.toNat = 52 := rfl
  exact ⟨a - (utfAddr esp).toNat, by omega, by omega⟩

theorem userMemCheck_writable (h : FrameWritable pm d esp) :
    userMemCheck pm (some d) (utfAddr esp) sizeofUTrapframe (pteP ||| pteW ||| pteU)
      = some none := by
  refine (userMemCheck_of_accessible (by decide) fun a hge hlt => ?_).2
  obtain ⟨j, hj, rfl⟩ := exists_frame hge hlt
  exact (userAccessible_frame hj).mpr (grants_of_translate (h j hj))

/-- What the check overlooks elsewhere is not there in the user half. -/
theorem UserHalf.refused {a : Nat} (h : UserHalf pm d) (ha : a < utop.toNat)
    (hno : ¬ UserAccessible pm d (pteP ||| pteW ||| pteU) a) :
    Refused pm d (pteP ||| pteW ||| pteU) a := by
  have hlt : BitVec.ofNat 32 a < utop := by
    rw [lt_def, toNat_ofNat_of_lt (by omega), toNat_utop]
    exact ha
  have hulim : a < ulim.toNat := by
    rw [toNat_utop] at ha
    rw [toNat_ulim]
    omega
  by_cases hpres : present (pm.load (d, pdx (BitVec.ofNat 32 a)))
  · obtain ⟨hbits, t, ht⟩ := h.pde (upde _ hlt) hpres
    refine .inr ⟨t, ht, .inr fun hpte => hno ⟨hulim, ?_⟩⟩
    exact ⟨hbits, t, ht, hpte⟩
  · exact .inl hpres

theorem UserHalf.userMemCheck_refuses (h : UserHalf pm d) (hno : ¬ FrameWritable pm d esp) :
    ∃ bad, userMemCheck pm (some d) (utfAddr esp) sizeofUTrapframe (pteP ||| pteW ||| pteU)
      = some (some bad) := by
  have hle := utfAddr_le esp
  have hsize : sizeofUTrapframe.toNat = 52 := rfl
  -- some address of the frame is not accessible
  obtain ⟨j, hj, hbad⟩ : ∃ j < 52, ¬ (translate pm d (pteP ||| pteW ||| pteU)
      (utfAddr esp + BitVec.ofNat 32 j)).isSome := by
    simpa [FrameWritable] using hno
  obtain ⟨hsum, hlt⟩ := toNat_frame esp hj
  have hmem : (utfAddr esp).toNat + j ∈
      Failing pm d (utfAddr esp) sizeofUTrapframe (pteP ||| pteW ||| pteU) := by
    refine ⟨by omega, by omega, fun hacc => hbad ?_⟩
    refine h.translate_of_grants ?_ (by decide) ((userAccessible_frame hj).mp hacc)
    rw [lt_def, hsum]
    exact hlt
  obtain ⟨a, ha, hmin⟩ := wellFounded_lt.has_min _ ⟨_, hmem⟩
  have hleast : IsLeast (Failing pm d (utfAddr esp) sizeofUTrapframe (pteP ||| pteW ||| pteU)) a :=
    ⟨ha, fun b hb => Nat.le_of_not_lt (hmin b hb)⟩
  obtain ⟨hge, hlt', hfail⟩ := ha
  have hreached : Reached (utfAddr esp) sizeofUTrapframe a := by
    rw [toNat_utop] at hle
    exact .inl (by omega)
  obtain ⟨bad, hcheck, -⟩ := userMemCheck_of_refused (by decide) hleast hreached
    (h.refused (by omega) hfail)
  exact ⟨bad, hcheck⟩

/-! ### Delivery -/

/-- The frame with the error code that the processor has pushed. -/
def faultFrame (tf : Trapframe) (faultVa : Word) : UTrapframe :=
  { utfOf tf faultVa with utfErr := tf.tfErr }

/-- The program goes on at its upcall, and the frame `u` is all that was written. -/
structure Delivered (s s' : Kern M) (c : CpuIdx) (e : EnvIdx) (d : Ppn M) (tf : Trapframe)
    (u : UTrapframe) : Prop where
  stored : Stored s.pm s'.pm d (utfAddr tf.tfEsp) u.bytes
  pages : s'.pm.pages = s.pm.pages
  freeList : s'.pm.pageFreeList = s.pm.pageFreeList
  tf : (s'.envs e).envTf =
    { tf with tfEip := (s.envs e).envPgfaultUpcall, tfEsp := utfAddr tf.tfEsp }
  running : (s'.envs e).envStatus = .running
  curenv : ∀ c', s'.curenv c' = s.curenv c'
  others : ∀ e', e' ≠ e → s'.envs e' = s.envs e'

/-- What `page_fault_handler` is to do with a fault of environment `e`. -/
structure FaultHandled (s : Kern M) (c : CpuIdx) (e : EnvIdx) (d : Ppn M) (tf : Trapframe)
    (faultVa : Word) : Prop where
  destroys : ¬ FrameWritable s.pm d tf.tfEsp →
    pageFaultHandler s c tf faultVa = envDestroy s c e
  delivers : FrameWritable s.pm d tf.tfEsp → ∃ s',
    pageFaultHandler s c tf faultVa = some (.left s') ∧
      Delivered s s' c e d tf (faultFrame tf faultVa)

theorem leBytes_injective {w w' : Word} (h : leBytes w = leBytes w') : w = w' := by
  simp only [leBytes, List.cons.injEq, and_true] at h
  rw [← Bytes.join_bytes w, ← Bytes.join_bytes w', h.1, h.2.1, h.2.2.1, h.2.2.2]

theorem UTrapframe.bytes_err {u u' : UTrapframe} (h : u.bytes = u'.bytes) :
    u.utfErr = u'.utfErr := by
  apply leBytes_injective
  have hdrop := congrArg (fun l => (l.drop 4).take 4) h
  exact hdrop

theorem Stored.unique {pm pm' : Pmap M} {bs bs' : List (BitVec 8)} (h : Stored pm pm' d va bs)
    (h' : Stored pm pm' d va bs') (hlen : bs.length = bs'.length) : bs = bs' := by
  apply List.ext_getElem?
  intro j
  by_cases hj : j < bs.length
  · rw [← h.bytes j hj, h'.bytes j (hlen ▸ hj)]
  · rw [List.getElem?_eq_none (by omega), List.getElem?_eq_none (by omega)]

theorem envRun_some (hd : (s.envs e).envPgdir = some d) : ∃ s', envRun s c e = some s' := by
  have hpgdir : ((preempt s c).envs e).envPgdir = some d :=
    ((SameTables.preempt s c).pgdir e).trans hd
  simp only [envRun]
  split
  · rename_i hnone
    simp [Kern.modifyEnv, Kern.setCurenv, hpgdir] at hnone
  · exact ⟨_, rfl⟩

/-- Once the frame is stored, the program runs again at its upcall. -/
theorem pageFaultHandler_of_store {pm' : Pmap M} {faultVa : Word}
    (hcur : s.curenv c = some e) (hup : (s.envs e).envPgfaultUpcall ≠ 0)
    (hassert : userMemAssert s c e (utfAddr tf.tfEsp) sizeofUTrapframe (pteP ||| pteW)
      = some (.ret () s)) (hd : (s.envs e).envPgdir = some d)
    (hstore : storeBytes s.pm d (utfAddr tf.tfEsp) (utfOf tf faultVa).bytes = some pm') :
    ∃ s', pageFaultHandler s c tf faultVa = some (.left s') ∧ s'.pm = pm' ∧
      (s'.envs e).envTf = { (s.envs e).envTf with
        tfEip := (s.envs e).envPgfaultUpcall, tfEsp := utfAddr tf.tfEsp } ∧
      (s'.envs e).envStatus = .running ∧ (∀ c', s'.curenv c' = s.curenv c') ∧
      ∀ e', e' ≠ e → s'.envs e' = s.envs e' := by
  let s1 : Kern M := ({ s with pm := pm' } : Kern M).modifyEnv e fun v =>
    { v with envTf := { v.envTf with tfEip := v.envPgfaultUpcall, tfEsp := utfAddr tf.tfEsp } }
  have hd1 : (s1.envs e).envPgdir = some d := by
    simpa [s1, Kern.modifyEnv] using hd
  obtain ⟨s', hrun⟩ := envRun_some (c := c) hd1
  obtain ⟨hcur', hcpus, ⟨hst, -, -, htf, -⟩, henvs⟩ := envRun_cases hrun
  refine ⟨s', ?_, (SameTables.envRun hrun).pm, ?_, hst, fun c' => ?_, fun e' he' => ?_⟩
  · unfold pageFaultHandler
    rw [if_neg (by simp), hcur]
    dsimp only
    rw [if_pos hup, hassert]
    dsimp only
    rw [hd]
    dsimp only
    rw [hstore]
    dsimp only
    rw [hrun]
  · rw [htf]
    simp [s1, Kern.modifyEnv]
  · by_cases hc : c' = c
    · rw [hc, hcur', hcur]
    · exact hcpus c' hc
  rcases henvs e' he' with heq | ⟨hc, -⟩
  · rw [heq]
    simp [s1, Kern.modifyEnv, Function.update_of_ne he']
  · have hce : s.curenv c = some e' := hc
    rw [hcur] at hce
    exact absurd (Option.some.inj hce).symm he'

/-- **A writable frame is delivered**, with the fields the source gives it. -/
theorem pageFaultHandler_writable (hcur : s.curenv c = some e)
    (hup : (s.envs e).envPgfaultUpcall ≠ 0) (hd : (s.envs e).envPgdir = some d)
    (hx : Excl s.refs) (htf : (s.envs e).envTf = tf) (faultVa : Word)
    (h : FrameWritable s.pm d tf.tfEsp) :
    ∃ s', pageFaultHandler s c tf faultVa = some (.left s') ∧
      Delivered s s' c e d tf (utfOf tf faultVa) ∧ WritesLeaves s.refs e s.pm s'.pm := by
  have hle := utfAddr_le tf.tfEsp
  have hlen : (utfOf tf faultVa).bytes.length = 52 := length_bytes _
  have hassert : userMemAssert s c e (utfAddr tf.tfEsp) sizeofUTrapframe (pteP ||| pteW)
      = some (.ret () s) := by
    unfold userMemAssert
    rw [hd, userMemCheck_writable h]
  have hroot : s.root e = some d := hd
  have hend : (utfAddr tf.tfEsp).toNat + (utfOf tf faultVa).bytes.length ≤ utop.toNat := by omega
  have hmay : ∀ j < (utfOf tf faultVa).bytes.length,
      (translate s.pm d (pteP ||| pteW) (utfAddr tf.tfEsp + BitVec.ofNat 32 j)).isSome := by
    intro j hj
    obtain ⟨p, hp⟩ := isSome_iff_exists.mp (h j (by omega))
    rw [translate_user hp]
    rfl
  obtain ⟨pm', hstore, hstored⟩ := storeBytes_stored _ hx hroot hend (by omega) hmay
  have hw := storeBytes_writes _ hx hroot hend hstore
  obtain ⟨s', hleft, hpm, htf', hst, hcurs, hothers⟩ :=
    pageFaultHandler_of_store hcur hup hassert hd hstore
  rw [htf] at htf'
  subst hpm
  exact ⟨s', hleft, ⟨hstored, hw.pages, hw.freeList, htf', hst, hcurs, hothers⟩, hw⟩

theorem UserHalf.pageFaultHandler_not_writable (hhalf : UserHalf s.pm d)
    (hcur : s.curenv c = some e) (hup : (s.envs e).envPgfaultUpcall ≠ 0)
    (hd : (s.envs e).envPgdir = some d) (faultVa : Word) (h : ¬ FrameWritable s.pm d tf.tfEsp) :
    pageFaultHandler s c tf faultVa = envDestroy s c e := by
  obtain ⟨bad, hcheck⟩ := hhalf.userMemCheck_refuses h
  have hassert : userMemAssert s c e (utfAddr tf.tfEsp) sizeofUTrapframe (pteP ||| pteW)
      = envDestroy s c e := by
    unfold userMemAssert
    rw [hd, hcheck]
  unfold pageFaultHandler
  rw [if_neg (by simp), hcur]
  dsimp only
  rw [if_pos hup, hassert]
  cases hdestroy : envDestroy s c e with
  | none => rfl
  | some f =>
    obtain ⟨s', rfl, -⟩ := Leaves.of_envDestroy hcur hdestroy
    rfl

/-- What the handler finds in the frame is the number of the trap. -/
theorem FaultHandled.err_eq {faultVa : Word} (h : FaultHandled s c e d tf faultVa)
    (hcur : s.curenv c = some e) (hup : (s.envs e).envPgfaultUpcall ≠ 0)
    (hd : (s.envs e).envPgdir = some d) (hx : Excl s.refs) (htf : (s.envs e).envTf = tf)
    (hwritable : FrameWritable s.pm d tf.tfEsp) : tf.tfErr = tf.tfTrapno := by
  obtain ⟨s', hs', hdel⟩ := h.delivers hwritable
  obtain ⟨s'', hs'', hdel', -⟩ := pageFaultHandler_writable hcur hup hd hx htf faultVa hwritable
  rw [hs'] at hs''
  cases hs''
  have hbytes := hdel.stored.unique hdel'.stored (by rw [length_bytes, length_bytes])
  exact UTrapframe.bytes_err hbytes

/--
**A page fault of a program with an upcall is handled as it should be if and only if** the place
for the frame cannot be written, so that the program is destroyed, **or the error code happens to be
the number of the trap.**
-/
theorem fault_delivery_iff (hcur : s.curenv c = some e) (hup : (s.envs e).envPgfaultUpcall ≠ 0)
    (hd : (s.envs e).envPgdir = some d) (hx : Excl s.refs) (hhalf : UserHalf s.pm d)
    (htf : (s.envs e).envTf = tf) (hno : tf.tfTrapno = tPgflt) (faultVa : Word) :
    ((OnStack tf.tfEsp → utfAddr tf.tfEsp + sizeofUTrapframe + 4 = tf.tfEsp) ∧
      (¬ OnStack tf.tfEsp → utfAddr tf.tfEsp = uxstacktop - sizeofUTrapframe)) ∧
    (FaultHandled s c e d tf faultVa ↔
      (FrameWritable s.pm d tf.tfEsp → tf.tfErr = tPgflt)) := by
  refine ⟨utfAddr_place tf.tfEsp, ?_, ?_⟩
  · intro hhandled hwritable
    rw [hhandled.err_eq hcur hup hd hx htf hwritable, hno]
  intro herr
  refine ⟨hhalf.pageFaultHandler_not_writable hcur hup hd faultVa, fun hwritable => ?_⟩
  have hframe : faultFrame tf faultVa = utfOf tf faultVa := by
    unfold faultFrame utfOf
    rw [herr hwritable, hno]
  obtain ⟨s', hs', hdel, -⟩ := pageFaultHandler_writable hcur hup hd hx htf faultVa hwritable
  rw [hframe]
  exact ⟨s', hs', hdel⟩

/-- One environment; its exception stack is page 4, where word 959 holds `w`. -/
def faulting (w : Word) : Kern (Machine.withFree 8) where
  pm :=
    { mem := fun p i =>
        if p = page8 1 then (if i = 954 then 0x3007 else 0)
        else if p = page8 3 then (if i = 1023 then 0x4007 else 0)
        else if p = page8 4 ∧ i = 959 then w else 0
      pages := fun _ => { ppLink := none, ppRef := 1 }
      pageFreeList := none
      kernPgdir := page8 0 }
  envs := fun e =>
    if e = 0 then { Env.orphan 0x1000 .running (page8 1) with envPgfaultUpcall := 0x800020 }
    else .zero
  envFreeList := none
  cpus := fun c => { cpuStatus := .started, cpuEnv := if c = 0 then some 0 else none }
  cr3 := fun c => if c = 0 then some (page8 1) else none

theorem faulting_translate (w need a : Word) (hneed : need = pteP ∨ need = 7) :
    translate (faulting w).pm (page8 1) need a
      = if pdx a = 954 ∧ ptx a = 1023 then some (page8 4) else none := by
  have hpde : (faulting w).pm.load (page8 1, pdx a) = if pdx a = 954 then 0x3007 else 0 := rfl
  have hpte : (faulting w).pm.load (page8 3, ptx a) = if ptx a = 1023 then 0x4007 else 0 := rfl
  have htable : frame (Machine.withFree 8) (pteAddr 0x3007) = some (page8 3) := by decide +kernel
  have hpage : frame (Machine.withFree 8) (pteAddr 0x4007) = some (page8 4) := by decide +kernel
  unfold translate
  rw [hpde]
  by_cases hi : pdx a = 954
  · by_cases hj : ptx a = 1023
    · simp only [if_pos hi, htable, hpte, if_pos hj, hpage, if_pos (And.intro hi hj)]
      rcases hneed with rfl | rfl <;> decide
    · have hno : ¬ (pdx a = 954 ∧ ptx a = 1023) := fun h => hj h.2
      simp only [if_pos hi, htable, hpte, if_neg hj, if_neg hno]
      rcases hneed with rfl | rfl <;> decide
  · have hno : ¬ (pdx a = 954 ∧ ptx a = 1023) := fun h => hi h.1
    simp only [if_neg hi, if_neg hno]
    rcases hneed with rfl | rfl <;> rfl

/-- The environment has been interrupted in the state `tf`. -/
def interrupted (w : Word) (tf : Trapframe) : Kern (Machine.withFree 8) :=
  (faulting w).modifyEnv 0 fun v => { v with envTf := tf }

/-- A fault with error code `err`. -/
def faultTf (err : Word) : Trapframe :=
  { Trapframe.zero with tfTrapno := tPgflt, tfErr := err, tfCs := gdUt ||| 3, tfEsp := 0xEEBFDF00 }

def faulted (err : Word) : Kern (Machine.withFree 8) :=
  interrupted 0 (faultTf err)

theorem interrupted_refs (w : Word) (tf : Trapframe) (r : Ref) :
    (interrupted w tf).refs r = match r with
      | .dir e => if e = 0 then some (page8 1) else none
      | .table e i => if e = 0 ∧ i = 954 then some (page8 3) else none
      | .leaf e i j => if e = 0 ∧ i = 954 ∧ j = 1023 then some (page8 4) else none
      | .inFlight => none := by
  have hroot : ∀ e, (interrupted w tf).root e = if e = 0 then some (page8 1) else none := by
    intro e
    by_cases he : e = 0
    · subst he
      rfl
    · simp [interrupted, faulting, Kern.root, Kern.modifyEnv, he, Env.zero]
  have hdir : ∀ i : Upde, entry (interrupted w tf).pm (page8 1) (toPde i)
      = if i = 954 then some (page8 3) else none := by
    intro i
    show entryOf _ (if toPde i = 954 then 0x3007 else 0) = _
    by_cases hi : i = 954
    · subst hi
      decide +kernel
    · have hne : toPde i ≠ 954 := fun hc => hi (toPde_injective (hc.trans rfl))
      rw [if_neg hi, if_neg hne, entryOf_zero]
  have htable : ∀ j, entry (interrupted w tf).pm (page8 3) j
      = if j = 1023 then some (page8 4) else none := by
    intro j
    show entryOf _ (if j = 1023 then 0x4007 else 0) = _
    by_cases hj : j = 1023
    · subst hj
      decide +kernel
    · rw [if_neg hj, if_neg hj, entryOf_zero]
  have htab : ∀ e i, tableOf (interrupted w tf).pm ((interrupted w tf).root e) i
      = if e = 0 ∧ i = 954 then some (page8 3) else none := by
    intro e i
    rw [hroot]
    by_cases he : e = 0
    · simp [he, tableOf, hdir]
    · simp [he, tableOf]
  cases r with
  | dir e => exact hroot e
  | table e i => exact htab e i
  | leaf e i j =>
    show (tableOf _ _ i).bind _ = _
    rw [htab]
    by_cases h : e = 0 ∧ i = 954
    · simp [h, htable]
    · have hno : ¬ (e = 0 ∧ i = 954 ∧ j = 1023) := fun hc => h ⟨hc.1, hc.2.1⟩
      rw [if_neg h]
      simp only [if_neg hno]
      rfl
  | inFlight => rfl

theorem interrupted_excl (w : Word) (tf : Trapframe) : Excl (interrupted w tf).refs := by
  have h13 : page8 1 ≠ page8 3 := by decide
  have h14 : page8 1 ≠ page8 4 := by decide
  have h34 : page8 3 ≠ page8 4 := by decide
  intro r r' p hr hr' hnode
  rw [interrupted_refs] at hr hr'
  cases r <;> cases r' <;> grind [Ref.isNode]

theorem faulted_userHalf (err : Word) : UserHalf (faulted err).pm (page8 1) where
  pde := by
    intro i hpres
    change present (if toPde i = 954 then 0x3007 else 0) at hpres
    show (if toPde i = 954 then 0x3007 else 0) &&& _ = _ ∧
      ∃ t, frame _ (pteAddr (if toPde i = 954 then 0x3007 else 0)) = some t
    by_cases hi : toPde i = 954
    · rw [if_pos hi]
      exact ⟨by decide, page8 3, by decide +kernel⟩
    · rw [if_neg hi] at hpres
      exact absurd hpres (by decide)
  pte := by
    intro i t j ht hpres
    have htable : (interrupted 0 (faultTf err)).refs (.table 0 i) = some t := ht
    rw [interrupted_refs] at htable
    obtain ⟨-, rfl⟩ : _ ∧ page8 3 = t := by simpa using htable
    change present (if j = 1023 then 0x4007 else 0) at hpres
    show ∃ p, frame _ (pteAddr (if j = 1023 then 0x4007 else 0)) = some p
    by_cases hj : j = 1023
    · rw [if_pos hj]
      exact ⟨page8 4, by decide +kernel⟩
    · rw [if_neg hj] at hpres
      exact absurd hpres (by decide)

theorem faulted_writable (err : Word) :
    FrameWritable (faulted err).pm (page8 1) (faultTf err).tfEsp := by
  intro j hj
  have haddr : utfAddr (faultTf err).tfEsp = 0xEEBFFFCC := by
    show utfAddr 0xEEBFDF00 = _
    decide
  have htrans := faulting_translate 0 7 (0xEEBFFFCC + BitVec.ofNat 32 j) (.inr rfl)
  rw [if_pos] at htrans
  · exact isSome_of_eq_some htrans
  · revert j
    decide

/-- An error code of 14 is reported as it is. -/
theorem fault_delivery_iff_same :
    FaultHandled (faulted tPgflt) 0 0 (page8 1) (faultTf tPgflt) 0x1000 :=
  (fault_delivery_iff rfl (by decide) rfl (interrupted_excl _ _) (faulted_userHalf _) rfl rfl
    0x1000).2.mpr
    fun _ => rfl

/-- A write to a page that is present and may only be read: the error code is 7. -/
theorem error_code_lost :
    FrameWritable (faulted 7).pm (page8 1) (faultTf 7).tfEsp ∧
      ¬ FaultHandled (faulted 7) 0 0 (page8 1) (faultTf 7) 0x1000 := by
  refine ⟨faulted_writable 7, fun h => ?_⟩
  have herr := h.err_eq rfl (by decide) rfl (interrupted_excl _ _) rfl (faulted_writable 7)
  exact absurd herr (by decide)

/-! ### A fault of the kernel -/

/-- What `page_fault_handler` turns to. -/
inductive FaultStep
  | panic
  | noCurenv
  | push (e : EnvIdx)
  | destroy (e : EnvIdx)
  deriving DecidableEq

/-- The tests of `page_fault_handler`. -/
def faultStep (s : Kern M) (c : CpuIdx) (tf : Trapframe) : FaultStep :=
  if tf.tfCs ≠ 0 ∧ (0x01 : Word) = 0 then .panic
  else
    match s.curenv c with
    | none => .noCurenv
    | some e => if (s.envs e).envPgfaultUpcall ≠ 0 then .push e else .destroy e

/-- The environment it acts on. -/
def FaultStep.target : FaultStep → Option EnvIdx
  | .panic => none
  | .noCurenv => none
  | .push e => some e
  | .destroy e => some e

theorem faultStep_ne_panic (s : Kern M) (c : CpuIdx) (tf : Trapframe) :
    faultStep s c tf ≠ .panic := by
  unfold faultStep
  rw [if_neg (by simp)]
  cases s.curenv c with
  | none => simp
  | some e =>
    dsimp only
    split <;> simp

theorem target_faultStep (s : Kern M) (c : CpuIdx) (tf : Trapframe) :
    (faultStep s c tf).target = s.curenv c := by
  unfold faultStep
  rw [if_neg (by simp)]
  cases s.curenv c with
  | none => rfl
  | some e =>
    dsimp only
    split <;> rfl

/-- The branch with the upcall. -/
def pushFrame (s : Kern M) (c : CpuIdx) (e : EnvIdx) (tf : Trapframe) (faultVa : Word) :
    Option (Flow M Unit) :=
  match userMemAssert s c e (utfAddr tf.tfEsp) sizeofUTrapframe (pteP ||| pteW) with
  | none => none
  | some (.left s) => some (.left s)
  | some (.ret () s) =>
    match (s.envs e).envPgdir with
    | none => none
    | some d =>
      match storeBytes s.pm d (utfAddr tf.tfEsp) (utfOf tf faultVa).bytes with
      | none => none
      | some pm =>
        match envRun (({ s with pm := pm } : Kern M).modifyEnv e fun v =>
            { v with envTf :=
              { v.envTf with tfEip := v.envPgfaultUpcall, tfEsp := utfAddr tf.tfEsp } }) c e with
        | none => none
        | some s => some (.left s)

theorem pageFaultHandler_eq (s : Kern M) (c : CpuIdx) (tf : Trapframe) (faultVa : Word) :
    pageFaultHandler s c tf faultVa =
      match faultStep s c tf with
      | .panic => none
      | .noCurenv => none
      | .push e => pushFrame s c e tf faultVa
      | .destroy e => envDestroy s c e := by
  unfold pageFaultHandler faultStep
  rw [if_neg (by simp), if_neg (by simp)]
  cases s.curenv c with
  | none => rfl
  | some e =>
    dsimp only
    by_cases hup : (s.envs e).envPgfaultUpcall ≠ 0
    · rewrite [if_pos hup, if_pos hup]
      dsimp only
      unfold pushFrame
      generalize userMemAssert s c e (utfAddr tf.tfEsp) sizeofUTrapframe (pteP ||| pteW) = r
      rcases r with _ | _ | _
      · rfl
      · rfl
      · rfl
    · rw [if_neg hup, if_neg hup]

theorem trap_kernel_fault {o : Outside} (hmode : tf.tfCs &&& 3 = 0) (hno : tf.tfTrapno = tPgflt) :
    trap s c o tf = afterDispatch c (pageFaultHandler (s.setCpuStatus c .started) c tf o.cr2) := by
  unfold trap trapDispatch
  rw [hmode]
  simp [hno]

/--
**A page fault of the kernel never ends in the panic**, whatever runs.  It acts on the environment
that happens to be current; without one the handler goes through the NULL pointer.
-/
theorem kernel_fault_not_panic (s : Kern M) (c : CpuIdx) (o : Outside) (tf : Trapframe)
    (hmode : tf.tfCs &&& 3 = 0) (hno : tf.tfTrapno = tPgflt) :
    let s1 := s.setCpuStatus c .started
    trap s c o tf = afterDispatch c (match faultStep s1 c tf with
      | .panic => none
      | .noCurenv => none
      | .push e => pushFrame s1 c e tf o.cr2
      | .destroy e => envDestroy s1 c e) ∧
    faultStep s1 c tf ≠ .panic ∧ (faultStep s1 c tf).target = s.curenv c := by
  intro s1
  have htrap : trap s c o tf = afterDispatch c (pageFaultHandler s1 c tf o.cr2) :=
    trap_kernel_fault hmode hno
  exact ⟨htrap.trans (congrArg _ (pageFaultHandler_eq s1 c tf o.cr2)),
    faultStep_ne_panic s1 c tf,
    (target_faultStep s1 c tf).trans (curenv_setCpuStatus s c c .started)⟩

/-- The frame of a page fault in the kernel. -/
def kernelFaultTf : Trapframe := { Trapframe.zero with tfTrapno := tPgflt, tfCs := gdKt }

/-- With a program running, the fault is taken for one of this program. -/
theorem kernel_fault_not_panic_running : ∃ s, twoPrograms = some s ∧
    faultStep (s.setCpuStatus 0 .started) 0 kernelFaultTf ≠ .panic ∧
      (faultStep (s.setCpuStatus 0 .started) 0 kernelFaultTf).target = some 0 := by
  have heval : (twoPrograms.map fun s => decide (s.curenv 0 = some 0)) = some true := by
    decide +kernel
  obtain ⟨s, hs, hcur⟩ := map_eq_some_iff.mp heval
  obtain ⟨-, hne, htarget⟩ :=
    kernel_fault_not_panic s 0 ⟨0, 0, .zero⟩ kernelFaultTf (by decide) rfl
  exact ⟨s, hs, hne, htarget.trans (of_decide_eq_true hcur)⟩

/-- With two programs, the one that ran is destroyed and the other goes on. -/
theorem kernel_fault_destroys :
    ∃ s s', twoPrograms = some s ∧ s.curenv 0 = some 0 ∧
      trap s 0 ⟨0, 0, .zero⟩ kernelFaultTf = some s' ∧
      (s'.envs 0).envStatus = .free ∧ s'.curenv 0 = some 1 := by
  have heval :
      (twoPrograms.bind fun s => (trap s 0 ⟨0, 0, .zero⟩ kernelFaultTf).map fun s' => decide
      (s.curenv 0 = some 0 ∧ (s'.envs 0).envStatus = .free ∧ s'.curenv 0 = some 1)) =
        some true := by
    decide +kernel
  obtain ⟨s, hs, hmap⟩ := bind_eq_some_iff.mp heval
  obtain ⟨s', htrap, hfacts⟩ := map_eq_some_iff.mp hmap
  obtain ⟨hcur, hfree, hnext⟩ := of_decide_eq_true hfacts
  exact ⟨s, s', hs, hcur, htrap, hfree, hnext⟩

end Jos
