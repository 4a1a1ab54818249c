/-
Coming back from a page fault.

`page_fault_handler` lays a `struct UTrapframe` on the exception stack, and
`_pgfault_upcall` is to leave through it: push the trap-time `%eip` on the trap-time
stack, restore the registers, switch stacks, return.  The offsets in the assembly are
eight bytes short.  What it takes for `utf_eip` is the saved `%ecx`, and what it takes
for `utf_esp` is `utf_eip`.  So it stores `%ecx` in the word below the faulting
instruction, and returns to whatever is on top of the trap-time stack.

The two halves are proved apart.  The kernel half is that the program finds the frame
where its stack pointer says.  The user half is what the instructions make of it.
-/
import Os.Jos.Pfentry
import Os.Proofs.Jos.Faults

namespace Jos

open BitVec hiding not_or

open Bytes

variable {M : Machine} {d : Ppn M} {a esp : Word} {s s' : Kern M} {c : CpuIdx} {e : EnvIdx}

/-! ### The kernel half -/

/-- The frame and the two words `_pgfault_upcall` pushes below it fit on the stack. -/
def FrameFits (esp : Word) : Prop := (uxstacktop - pgsize).toNat + 8 ≤ (utfAddr esp).toNat

theorem toNat_stackBase : (uxstacktop - pgsize).toNat = 4005556224 := by decide

theorem frameFits_iff : FrameFits esp ↔ 4005556232 ≤ (utfAddr esp).toNat := by
  unfold FrameFits
  rw [toNat_stackBase]

/-- The frame of a fault is in memory at `a`. -/
def FrameAt (m : Mem) (a : Word) (u : UTrapframe) : Prop :=
  ∀ k (hk : k < u.words.length), read32 m (a + BitVec.ofNat 32 (4 * k)) = u.words[k]

theorem FrameAt.congr {m m' : Mem} {u : UTrapframe} (h : FrameAt m a u)
    (hbytes : ∀ k < 52, m' (a + BitVec.ofNat 32 k) = m (a + BitVec.ofNat 32 k)) :
    FrameAt m' a u := by
  intro k hk
  have hk' : k < 13 := hk
  rw [← h k hk]
  refine read32_congr fun j hj => ?_
  rw [BitVec.add_assoc, ← ofNat_add]
  exact hbytes (4 * k + j) (by omega)

theorem UTrapframe.bytes_getElem (u : UTrapframe) {k j : Nat} (hk : k < u.words.length)
    (hj : j < 4) : u.bytes[4 * k + j]? = some (byte u.words[k] j) := by
  have hk' : k < 13 := hk
  interval_cases k <;> interval_cases j <;> rfl

/-- The pages of the exception stack are mapped nowhere else. -/
def StackOwn (pm : Pmap M) (d : Ppn M) : Prop :=
  ∀ a a' p, a < utop → OnStack a' → translate pm d pteP a = some p →
    translate pm d pteP a' = some p → OnStack a

/-- **The kernel delivers the fault**: the program finds the frame where its stack pointer says. -/
theorem Delivered.frameAt {tf : Trapframe} {u : UTrapframe} (h : Delivered s s' c e d tf u) :
    FrameAt (userMem s'.pm d) (utfAddr tf.tfEsp) u := by
  intro k hk
  have hk' : k < 13 := hk
  refine read32_eq_iff.mpr fun j hj => ?_
  have hbyte := h.stored.bytes (4 * k + j) (by rw [length_bytes]; omega)
  rw [BitVec.add_assoc, ← ofNat_add, userMem, hbyte, u.bytes_getElem hk hj, Option.getD_some]

/-- The rest of its memory is as it was. -/
theorem Delivered.elsewhere {tf : Trapframe} {u : UTrapframe} (h : Delivered s s' c e d tf u)
    (hx : Excl s.refs) (hw : WritesLeaves s.refs e s.pm s'.pm) (hd : s.root e = some d)
    (hfits : FrameFits tf.tfEsp) (hown : StackOwn s.pm d) (ha : a < utop)
    (hfar : 52 ≤ (a - utfAddr tf.tfEsp).toNat) : userMem s'.pm d a = userMem s.pm d a := by
  simp only [userMem, loadByte_eq, translate_writes hx hw hd ha (by decide : pteP &&& pteP = pteP)]
  cases htr : translate s.pm d pteP a with
  | none => rfl
  | some p =>
    simp only [Option.map_some, Option.getD_some]
    refine h.stored.rest p a fun j hj htr' hoff => ?_
    rw [length_bytes] at hj
    obtain ⟨hsum, hlt⟩ := toNat_frame tf.tfEsp hj
    rw [frameFits_iff] at hfits
    rw [toNat_utop] at hlt
    -- both are on the stack, at the same place of it
    have hon := onStack_iff.mp (hown a _ p ha (onStack_iff.mpr (by omega)) htr htr')
    have hmod := congrArg BitVec.toNat hoff
    rw [toNat_pgoff, toNat_pgoff, hsum] at hmod
    rw [toNat_sub] at hfar
    omega

/-! ### The user half -/

/-- The memory after the two stores of `_pgfault_upcall`, as its offsets have it. -/
def upcallMem (tf : Trapframe) (m : Mem) : Mem :=
  write32 (write32 m (utfAddr tf.tfEsp + 0x28) (tf.tfEip - 4)) (tf.tfEip - 4) tf.tfRegs.regEcx

/-- What the rest of the instructions makes of a memory. -/
def leaveWith (n : Mem) (a : Word) : User where
  edi := read32 n (a + 8)
  esi := read32 n (a + 12)
  ebp := read32 n (a + 16)
  ebx := read32 n (a + 24)
  edx := read32 n (a + 28)
  ecx := read32 n (a + 32)
  eax := read32 n (a + 36)
  esp := read32 n (a + 48) + 4
  eip := read32 n (read32 n (a + 48))
  eflags := read32 n (a + 44)
  mem := n

/-- The instructions after the call, on a stack that holds the frame. -/
theorem execAll_return {tf : Trapframe} {faultVa : Word} {v : User}
    (alu : Word → Word → Word) (hesp : v.esp + 4 = utfAddr tf.tfEsp)
    (hframe : FrameAt v.mem (utfAddr tf.tfEsp) (utfOf tf faultVa)) :
    execAll alu pgfaultUpcallReturn v = leaveWith (upcallMem tf v.mem) (utfAddr tf.tfEsp) := by
  have hecx : read32 v.mem (utfAddr tf.tfEsp + 0x20) = tf.tfRegs.regEcx :=
    hframe 8 (show 8 < 13 by decide)
  have heip : read32 v.mem (utfAddr tf.tfEsp + 0x28) = tf.tfEip :=
    hframe 10 (show 10 < 13 by decide)
  simp only [execAll, pgfaultUpcallReturn, List.foldl, exec, hesp, hecx, heip,
    read32_write32_self, leaveWith, upcallMem, BitVec.add_assoc]
  rfl

/--
The fault is over: the program goes on as it was interrupted.  `u` is the processor when
the handler is called, `v` when it returns and `w` at the end; `m` is the memory at the
time of the trap.
-/
structure Resumed (tf : Trapframe) (m : Mem) (u v w : User) : Prop where
  state : w = User.ofTf tf w.mem
  before : ∀ a, a < utop → ¬ OnStack a → u.mem a = m a
  after : ∀ a, ¬ OnStack a → 4 ≤ (a - (tf.tfEsp - 4)).toNat → w.mem a = v.mem a

/-- The wrong stores happen to do what the right ones would have done. -/
structure Coincidence (tf : Trapframe) (m : Mem) : Prop where
  state : leaveWith (upcallMem tf m) (utfAddr tf.tfEsp) = User.ofTf tf (upcallMem tf m)
  mem : ∀ a, ¬ OnStack a → 4 ≤ (a - (tf.tfEsp - 4)).toNat → upcallMem tf m a = m a

/-- The word below the faulting instruction overlaps the saved stack pointer. -/
def Overlaps (tf : Trapframe) : Prop :=
  (tf.tfEip - 4 - (utfAddr tf.tfEsp + 48)).toNat < 4 ∨
    (utfAddr tf.tfEsp + 48 - (tf.tfEip - 4)).toNat < 4

/-- Otherwise the program comes back with its stack pointer four bytes too high. -/
theorem esp_of_not_overlaps {tf : Trapframe} {faultVa : Word} {m : Mem} (h : ¬ Overlaps tf)
    (hframe : FrameAt m (utfAddr tf.tfEsp) (utfOf tf faultVa)) :
    (leaveWith (upcallMem tf m) (utfAddr tf.tfEsp)).esp = tf.tfEsp + 4 := by
  unfold Overlaps at h
  rw [not_or, Nat.not_lt, Nat.not_lt] at h
  have hsaved : read32 m (utfAddr tf.tfEsp + 48) = tf.tfEsp := hframe 12 (show 12 < 13 by decide)
  show read32 (upcallMem tf m) (utfAddr tf.tfEsp + 48) + 4 = _
  rw [upcallMem, read32_write32_of_apart h.2 h.1, read32_write32_add (by decide) (by decide),
    hsaved]

/-- Off the exception stack nothing is as near the frame as what the upcall pushes. -/
theorem FrameFits.far (hfits : FrameFits esp) (ha : ¬ OnStack a) :
    52 ≤ (a - utfAddr esp).toNat ∧ (a - utfAddr esp).toNat + 8 < 2 ^ 32 := by
  have hle := utfAddr_le esp
  rw [toNat_utop] at hle
  rw [frameFits_iff] at hfits
  rw [onStack_iff] at ha
  rw [toNat_sub]
  omega

/-! ### When the stores do no harm -/

section Harmless

variable {tf : Trapframe} {m : Mem} {faultVa : Word} {j : Nat}

/--
The misplaced stores are the right ones.  The word below the faulting instruction begins `j` bytes
below the saved stack pointer, so `%ecx` goes there, its first `j` bytes to the saved flags.  What
it makes of the two is `esp - 4` and the flags, and the word that `ret` finds is `eip`.
-/
structure AtFrame (tf : Trapframe) (m : Mem) (j : Nat) : Prop where
  eip : tf.tfEip - 4 = utfAddr tf.tfEsp + 48 - BitVec.ofNat 32 j
  esp : ∀ k < 4, byte (tf.tfEsp - 4) k =
    if j + k < 4 then byte tf.tfRegs.regEcx (j + k) else byte tf.tfEsp k
  eflags : ∀ k < 4, 4 ≤ j + k → byte tf.tfEflags k = byte tf.tfRegs.regEcx (j + k - 4)
  apart : 4 ≤ (tf.tfEsp - uxstacktop).toNat
  word : read32 m (tf.tfEsp - 4) = tf.tfEip

theorem upcallMem_slot (heip : tf.tfEip - 4 = utfAddr tf.tfEsp + 48 - BitVec.ofNat 32 j)
    (hj : j < 4) (hframe : FrameAt m (utfAddr tf.tfEsp) (utfOf tf faultVa)) {k : Nat} (hk : k < 4) :
    upcallMem tf m (utfAddr tf.tfEsp + 48 + BitVec.ofNat 32 k) =
      if j + k < 4 then byte tf.tfRegs.regEcx (j + k) else byte tf.tfEsp k := by
  have hsaved : read32 m (utfAddr tf.tfEsp + 48) = tf.tfEsp := hframe 12 (show 12 < 13 by decide)
  have hkept := read32_eq_iff.mp hsaved k hk
  unfold upcallMem
  rw [heip]
  generalize utfAddr tf.tfEsp = U at hkept ⊢
  have hdist : (U + 48 + BitVec.ofNat 32 k - (U + 48 - BitVec.ofNat 32 j)).toNat = j + k := by
    bv_omega
  have hfar : 4 ≤ (U + 48 + BitVec.ofNat 32 k - (U + 0x28)).toNat := by bv_omega
  rw [write32, hdist, write32_of_le hfar, hkept]

theorem upcallMem_flags (heip : tf.tfEip - 4 = utfAddr tf.tfEsp + 48 - BitVec.ofNat 32 j)
    (hj : j < 4) (hframe : FrameAt m (utfAddr tf.tfEsp) (utfOf tf faultVa)) {k : Nat} (hk : k < 4) :
    upcallMem tf m (utfAddr tf.tfEsp + 44 + BitVec.ofNat 32 k) =
      if 4 ≤ j + k then byte tf.tfRegs.regEcx (j + k - 4) else byte tf.tfEflags k := by
  have hsaved : read32 m (utfAddr tf.tfEsp + 44) = tf.tfEflags := hframe 11 (show 11 < 13 by decide)
  have hkept := read32_eq_iff.mp hsaved k hk
  unfold upcallMem
  rw [heip]
  generalize utfAddr tf.tfEsp = U at hkept ⊢
  have hfar : 4 ≤ (U + 44 + BitVec.ofNat 32 k - (U + 0x28)).toNat := by bv_omega
  split_ifs with h
  · have hdist : (U + 44 + BitVec.ofNat 32 k - (U + 48 - BitVec.ofNat 32 j)).toNat = j + k - 4 := by
      bv_omega
    rw [write32, hdist, if_pos (by omega)]
  · have hdist : 4 ≤ (U + 44 + BitVec.ofNat 32 k - (U + 48 - BitVec.ofNat 32 j)).toNat := by
      bv_omega
    rw [write32_of_le hdist, write32_of_le hfar, hkept]

/-- Unless the stack pointer is just above the exception stack, the word below it is above the
frame. -/
theorem below_esp (esp : Word) (hapart : 4 ≤ (esp - uxstacktop).toNat) :
    ∃ i : Word, esp - 4 = utfAddr esp + i ∧ 52 ≤ i.toNat ∧ i.toNat < 4294963248 := by
  have htop : uxstacktop.toNat = 4005560320 := by decide
  have hsize : sizeofUTrapframe = 52 := rfl
  by_cases hon : OnStack esp
  · have haddr : utfAddr esp = esp - sizeofUTrapframe - 4 := if_pos hon
    refine ⟨52, ?_, by decide, by decide⟩
    rw [haddr, hsize]
    bv_omega
  · have haddr : utfAddr esp = uxstacktop - sizeofUTrapframe := if_neg hon
    have hdist : (esp - uxstacktop).toNat < 4294963200 := by
      rw [onStack_iff] at hon
      rw [toNat_sub, htop]
      omega
    refine ⟨esp - uxstacktop + 48, ?_, ?_, ?_⟩
    · rw [haddr, hsize]
      bv_omega
    · bv_omega
    · bv_omega

theorem byte_sub_four_ne (T : Word) : byte (T - 4) 0 ≠ byte T 0 := by
  intro h
  have hnat := congrArg BitVec.toNat h
  rw [extractLsb'_toNat, extractLsb'_toNat] at hnat
  simp only [Nat.mul_zero, Nat.shiftRight_zero] at hnat
  bv_omega

theorem upcallMem_top (heip : tf.tfEip - 4 = utfAddr tf.tfEsp + 48 - BitVec.ofNat 32 j)
    (hj : j < 4) (hapart : 4 ≤ (tf.tfEsp - uxstacktop).toNat) :
    read32 (upcallMem tf m) (tf.tfEsp - 4) = read32 m (tf.tfEsp - 4) := by
  obtain ⟨i, hi, hge, hlt⟩ := below_esp tf.tfEsp hapart
  have hstore : tf.tfEip - 4 = utfAddr tf.tfEsp + (48 - BitVec.ofNat 32 j) := by
    rw [heip]
    bv_omega
  rw [upcallMem, hstore, hi, read32_write32_add (by bv_omega) (by bv_omega),
    read32_write32_add (by bv_omega) (by bv_omega)]

/-- If the saved stack pointer is four bytes lower, the word stored begins at it or up to three
bytes below. -/
theorem exists_eip (hframe : FrameAt m (utfAddr tf.tfEsp) (utfOf tf faultVa))
    (hslot : read32 (upcallMem tf m) (utfAddr tf.tfEsp + 48) = tf.tfEsp - 4) :
    ∃ j < 4, tf.tfEip - 4 = utfAddr tf.tfEsp + 48 - BitVec.ofNat 32 j := by
  by_cases hle : (utfAddr tf.tfEsp + 48 - (tf.tfEip - 4)).toNat < 4
  · exact ⟨_, hle, by bv_omega⟩
  -- otherwise the first byte of the stack pointer stays, and that byte is wrong
  have hsaved : read32 m (utfAddr tf.tfEsp + 48) = tf.tfEsp := hframe 12 (show 12 < 13 by decide)
  have hfirst : upcallMem tf m (utfAddr tf.tfEsp + 48) = m (utfAddr tf.tfEsp + 48) := by
    have hfar : 4 ≤ (utfAddr tf.tfEsp + 48 - (utfAddr tf.tfEsp + 0x28)).toNat := by bv_omega
    rw [upcallMem, write32_of_le (Nat.not_lt.mp hle), write32_of_le hfar]
  have hwrong := read32_eq_iff.mp hslot 0 (by decide)
  have hright := read32_eq_iff.mp hsaved 0 (by decide)
  rw [BitVec.add_zero] at hwrong hright
  exact absurd (hwrong.symm.trans (hfirst.trans hright)) (byte_sub_four_ne _)

/-- Just above the exception stack the word that `ret` finds is part of the saved stack pointer. -/
theorem apart_of_top (heip : tf.tfEip - 4 = utfAddr tf.tfEsp + 48 - BitVec.ofNat 32 j) (hj : j < 4)
    (hslot : read32 (upcallMem tf m) (utfAddr tf.tfEsp + 48) = tf.tfEsp - 4)
    (hret : read32 (upcallMem tf m) (tf.tfEsp - 4) = tf.tfEip) :
    4 ≤ (tf.tfEsp - uxstacktop).toNat := by
  by_contra hlt
  have htop : uxstacktop = 4005560320 := by decide
  obtain ⟨i, hi, hT⟩ : ∃ i < 4, tf.tfEsp = 4005560320 + BitVec.ofNat 32 i :=
    ⟨_, Nat.not_le.mp hlt, by rw [htop]; bv_omega⟩
  have hU : utfAddr tf.tfEsp = 4005560268 := by
    refine (if_neg fun hon : OnStack tf.tfEsp => ?_).trans (by decide)
    rw [onStack_iff, hT] at hon
    bv_omega
  have hE : tf.tfEip = 4005560320 - BitVec.ofNat 32 j := by
    rw [hU] at heip
    bv_omega
  -- the byte of the return address that shows it
  have hbyte : ∀ b, i + b < 4 → byte (4005560320 - BitVec.ofNat 32 j) b =
      byte (4005560320 + BitVec.ofNat 32 i - 4) (i + b) := by
    intro b hb
    have h1 := read32_eq_iff.mp hret b (by omega)
    have h2 := read32_eq_iff.mp hslot (i + b) hb
    rw [hU] at h2
    rw [hT] at h1 h2
    rw [hE] at h1
    have haddr : (4005560320 + BitVec.ofNat 32 i - 4 + BitVec.ofNat 32 b : Word) =
        4005560268 + 48 + BitVec.ofNat 32 (i + b) := by bv_omega
    rw [← h1, ← h2, haddr]
  have hne : ∀ i < 4, ∀ j < 4, byte (4005560320 - BitVec.ofNat 32 j) (if i = 1 then 1 else 0) ≠
      byte (4005560320 + BitVec.ofNat 32 i - 4) (i + if i = 1 then 1 else 0) := by decide
  exact hne i hi j hj (hbyte _ (by split <;> omega))

/-- **The upcall resumes the program** exactly when the instruction lies at the frame like that. -/
theorem coincidence_iff (hfits : FrameFits tf.tfEsp)
    (hframe : FrameAt m (utfAddr tf.tfEsp) (utfOf tf faultVa)) :
    Coincidence tf m ↔ ∃ j < 4, AtFrame tf m j := by
  constructor
  · rintro ⟨hstate, -⟩
    have hesp : read32 (upcallMem tf m) (utfAddr tf.tfEsp + 48) + 4 = tf.tfEsp :=
      congrArg User.esp hstate
    have hslot : read32 (upcallMem tf m) (utfAddr tf.tfEsp + 48) = tf.tfEsp - 4 := by
      rw [← BitVec.add_sub_cancel (read32 _ _) 4, hesp]
    have hret : read32 (upcallMem tf m) (tf.tfEsp - 4) = tf.tfEip := by
      rw [← hslot]
      exact congrArg User.eip hstate
    have hflags : read32 (upcallMem tf m) (utfAddr tf.tfEsp + 44) = tf.tfEflags :=
      congrArg User.eflags hstate
    obtain ⟨j, hj, heip⟩ := exists_eip hframe hslot
    have hapart := apart_of_top heip hj hslot hret
    refine ⟨j, hj, heip, fun k hk => ?_, fun k hk hjk => ?_, hapart, ?_⟩
    · rw [← read32_eq_iff.mp hslot k hk, upcallMem_slot heip hj hframe hk]
    · rw [← read32_eq_iff.mp hflags k hk, upcallMem_flags heip hj hframe hk, if_pos hjk]
    · rw [← upcallMem_top heip hj hapart, hret]
  · rintro ⟨j, hj, h⟩
    have hslot : read32 (upcallMem tf m) (utfAddr tf.tfEsp + 48) = tf.tfEsp - 4 :=
      read32_eq_iff.mpr fun k hk => (upcallMem_slot h.eip hj hframe hk).trans (h.esp k hk).symm
    have hflags : read32 (upcallMem tf m) (utfAddr tf.tfEsp + 44) = tf.tfEflags := by
      refine read32_eq_iff.mpr fun k hk => (upcallMem_flags h.eip hj hframe hk).trans ?_
      split_ifs with hjk
      · exact (h.eflags k hk hjk).symm
      · rfl
    have hesp : read32 (upcallMem tf m) (utfAddr tf.tfEsp + 48) + 4 = tf.tfEsp := by
      rw [hslot, BitVec.sub_add_cancel]
    have hret : read32 (upcallMem tf m) (read32 (upcallMem tf m) (utfAddr tf.tfEsp + 48))
        = tf.tfEip := by
      rw [hslot, upcallMem_top h.eip hj h.apart, h.word]
    have hstore : tf.tfEip - 4 = utfAddr tf.tfEsp + (48 - BitVec.ofNat 32 j) := by
      rw [h.eip]
      bv_omega
    -- the saved registers are below the words stored
    have hreg : ∀ i : Word, i.toNat ≤ 36 →
        read32 (upcallMem tf m) (utfAddr tf.tfEsp + i) = read32 m (utfAddr tf.tfEsp + i) := by
      intro i hi
      rw [upcallMem, hstore, read32_write32_add (by bv_omega) (by bv_omega),
        read32_write32_add (by bv_omega) (by bv_omega)]
    constructor
    · rw [User.mk.injEq]
      refine ⟨(hreg 8 ?_).trans (hframe 2 ?_), (hreg 12 ?_).trans (hframe 3 ?_),
        (hreg 16 ?_).trans (hframe 4 ?_), (hreg 24 ?_).trans (hframe 6 ?_),
        (hreg 28 ?_).trans (hframe 7 ?_), (hreg 32 ?_).trans (hframe 8 ?_),
        (hreg 36 ?_).trans (hframe 9 ?_), hesp, hret, hflags, rfl⟩
      all_goals first | decide | exact Nat.lt_of_lt_of_le (by decide) (le_refl 13)
    · intro a ha _
      have hfar := (hfits.far ha).1
      rw [upcallMem, hstore, write32_of_beyond (by bv_omega), write32_of_beyond (by bv_omega)]

end Harmless

section Upcall

variable {tf tf' : Trapframe} {m n : Mem} {faultVa pgfaultHandler next : Word} {v : User}
variable {alu : Word → Word → Word}

theorem execAll_call (w : User) : execAll alu (pgfaultUpcallCall pgfaultHandler next) w =
    let m := write32 w.mem (w.esp - 4) w.esp
    { w with
      eax := read32 m pgfaultHandler
      esp := w.esp - 4 - 4
      mem := write32 m (w.esp - 4 - 4) next
      eip := read32 m pgfaultHandler } := rfl

/-- When the handler has returned the frame is still there, above the argument. -/
theorem CHandler.frameAt (hesp : tf'.tfEsp = utfAddr tf.tfEsp)
    (hframe : FrameAt n (utfAddr tf.tfEsp) (utfOf tf faultVa))
    (hc : CHandler (execAll alu (pgfaultUpcallCall pgfaultHandler next) (User.ofTf tf' n)) v) :
    v.esp + 4 = utfAddr tf.tfEsp ∧ FrameAt v.mem (utfAddr tf.tfEsp) (utfOf tf faultVa) := by
  rw [execAll_call] at hc
  have hret := hc.esp
  have hkept := hc.frame
  simp only [User.ofTf, hesp] at hret hkept
  generalize utfAddr tf.tfEsp = U at hret hkept hframe ⊢
  have harg : U - 4 - 4 + 4 = U - 4 := BitVec.sub_add_cancel _ _
  rw [harg] at hret hkept
  rw [read32_write32_of_apart (by bv_omega) (by bv_omega), read32_write32_self] at hkept
  refine ⟨by rw [hret, BitVec.sub_add_cancel], hframe.congr fun k hk => ?_⟩
  rw [hkept k hk, write32_of_le (by bv_omega), write32_of_le (by bv_omega)]

/-- Up to the handler only the two words below the frame have been written. -/
theorem execAll_call_mem (hesp : tf'.tfEsp = utfAddr tf.tfEsp)
    (hbelow : (a - utfAddr tf.tfEsp).toNat + 8 < 2 ^ 32) :
    (execAll alu (pgfaultUpcallCall pgfaultHandler next) (User.ofTf tf' n)).mem a = n a := by
  rw [execAll_call]
  simp only [User.ofTf, hesp]
  generalize utfAddr tf.tfEsp = U at hbelow ⊢
  rw [write32_of_le (by bv_omega), write32_of_le (by bv_omega)]

/-- What comes of a fault is settled by the memory the handler leaves. -/
theorem resumed_iff_coincidence (hesp : tf'.tfEsp = utfAddr tf.tfEsp) (hfits : FrameFits tf.tfEsp)
    (hframe : FrameAt n (utfAddr tf.tfEsp) (utfOf tf faultVa))
    (hrest : ∀ a, a < utop → 52 ≤ (a - utfAddr tf.tfEsp).toNat → n a = m a)
    (hc : CHandler (execAll alu (pgfaultUpcallCall pgfaultHandler next) (User.ofTf tf' n)) v) :
    Resumed tf m (execAll alu (pgfaultUpcallCall pgfaultHandler next) (User.ofTf tf' n)) v
      (execAll alu pgfaultUpcallReturn v) ↔ Coincidence tf v.mem := by
  obtain ⟨hret, hframe'⟩ := hc.frameAt hesp hframe
  rw [execAll_return alu hret hframe']
  constructor
  · rintro ⟨hstate, -, hafter⟩
    exact ⟨hstate, hafter⟩
  · rintro ⟨hstate, hafter⟩
    refine ⟨hstate, fun a ha hno => ?_, hafter⟩
    rw [execAll_call_mem hesp (hfits.far hno).2, hrest a ha (hfits.far hno).1]

end Upcall

/--
**A page fault and back.**  The current environment has an upcall and an exception stack
with room for the frame.  The fault is delivered, and after the handler has returned the
program resumes as it was interrupted exactly when the instruction lies on the exception
stack, at the frame, in such a way that the misplaced stores are the right ones.
-/
theorem pgfault_resumes_iff {s : Kern M} {c : CpuIdx} {e : EnvIdx} {tf : Trapframe}
    (hcur : s.curenv c = some e) (hup : (s.envs e).envPgfaultUpcall ≠ 0)
    (hd : (s.envs e).envPgdir = some d) (hx : Excl s.refs) (htf : (s.envs e).envTf = tf)
    (hwritable : FrameWritable s.pm d tf.tfEsp) (hown : StackOwn s.pm d)
    (hfits : FrameFits tf.tfEsp) (faultVa : Word) :
    ∃ s', pageFaultHandler s c tf faultVa = some (.left s') ∧ s'.curenv c = some e ∧
      (s'.envs e).envTf.tfEip = (s.envs e).envPgfaultUpcall ∧
      ∀ (alu : Word → Word → Word) (pgfaultHandler next : Word) (u v : User),
        u = execAll alu (pgfaultUpcallCall pgfaultHandler next)
          (User.ofTf (s'.envs e).envTf (userMem s'.pm d)) → CHandler u v →
        (Resumed tf (userMem s.pm d) u v (execAll alu pgfaultUpcallReturn v)
          ↔ ∃ j < 4, AtFrame tf v.mem j) := by
  obtain ⟨s', hrun, hdel, hw⟩ := pageFaultHandler_writable hcur hup hd hx htf faultVa hwritable
  refine ⟨s', hrun, (hdel.curenv c).trans hcur, by rw [hdel.tf], ?_⟩
  rintro alu pgfaultHandler next u v rfl hc
  have hesp : (s'.envs e).envTf.tfEsp = utfAddr tf.tfEsp := by rw [hdel.tf]
  exact (resumed_iff_coincidence hesp hfits hdel.frameAt
    (fun _ => hdel.elsewhere hx hw hd hfits hown) hc).trans
    (coincidence_iff hfits (hc.frameAt hesp hdel.frameAt).2)

/-! ### A fault on either stack -/

/-- A handler that does nothing. -/
def User.afterNoop (u : User) : User := { u with esp := u.esp + 4, eip := read32 u.mem u.esp }

theorem CHandler.noop (u : User) : CHandler u u.afterNoop where
  eip := rfl
  esp := rfl
  ebx := rfl
  esi := rfl
  edi := rfl
  ebp := rfl
  frame := fun _ _ => rfl

/-- A trap on the exception stack, of an instruction in the last word below the stack pointer whose
address is in that word and in `%ecx`. -/
def nestedTf : Trapframe :=
  { Trapframe.zero with
    tfRegs := { Trapframe.zero.tfRegs with regEcx := 0xEEBFFEFC }
    tfEip := 0xEEBFFEFC
    tfEsp := 0xEEBFFF00 }

theorem onStack_iff_index : OnStack a ↔ pdx a = 954 ∧ ptx a = 1023 := by
  have hpdx : ((954 : Fin npdentries) : Nat) = 954 := rfl
  have hptx : ((1023 : Fin nptentries) : Nat) = 1023 := rfl
  have hlt := a.isLt
  rw [onStack_iff, Fin.ext_iff, Fin.ext_iff, val_pdx, val_ptx, hpdx, hptx]
  omega

section

variable (w : Word) (tf : Trapframe)

theorem interrupted_writable (hfits : FrameFits tf.tfEsp) :
    FrameWritable (interrupted w tf).pm (page8 1) tf.tfEsp := by
  intro j hj
  obtain ⟨hsum, hlt⟩ := toNat_frame tf.tfEsp hj
  rw [frameFits_iff] at hfits
  rw [toNat_utop] at hlt
  have htr := faulting_translate w 7 (utfAddr tf.tfEsp + BitVec.ofNat 32 j) (.inr rfl)
  rw [if_pos (onStack_iff_index.mp (onStack_iff.mpr (by omega)))] at htr
  exact Option.isSome_of_eq_some htr

theorem interrupted_stackOwn : StackOwn (interrupted w tf).pm (page8 1) := by
  intro a a' p _ _ htr _
  have htr' := (faulting_translate w pteP a (.inl rfl)).symm.trans htr
  split at htr'
  · rename_i hindex
    exact onStack_iff_index.mpr hindex
  · cases htr'

end

/-- Then the program resumes. -/
theorem pgfault_resumes_iff_nested :
    ∃ s', pageFaultHandler (interrupted 0xEEBFFEFC nestedTf) 0 nestedTf 0x1000 = some (.left s') ∧
      ∀ u, u = execAll (fun f _ => f) (pgfaultUpcallCall 0x802000 0x80003C)
          (User.ofTf (s'.envs 0).envTf (userMem s'.pm (page8 1))) →
        Resumed nestedTf (userMem (interrupted 0xEEBFFEFC nestedTf).pm (page8 1)) u u.afterNoop
          (execAll (fun f _ => f) pgfaultUpcallReturn u.afterNoop) := by
  have hfits : FrameFits nestedTf.tfEsp := frameFits_iff.mpr (by decide)
  have hx := interrupted_excl 0xEEBFFEFC nestedTf
  have hwritable := interrupted_writable 0xEEBFFEFC nestedTf hfits
  have hown := interrupted_stackOwn 0xEEBFFEFC nestedTf
  have htf : ((interrupted 0xEEBFFEFC nestedTf).envs 0).envTf = nestedTf := rfl
  obtain ⟨s', hrun, hdel, hw⟩ :=
    pageFaultHandler_writable (c := 0) rfl (by decide) rfl hx htf 0x1000 hwritable
  obtain ⟨s'', hrun', -, -, hiff⟩ :=
    pgfault_resumes_iff (c := 0) rfl (by decide) rfl hx htf hwritable hown hfits 0x1000
  rw [hrun] at hrun'
  cases hrun'
  refine ⟨s', hrun, ?_⟩
  rintro u rfl
  refine (hiff _ _ _ _ _ rfl (.noop _)).mpr ⟨0, by decide, by decide, by decide, ?_, by decide, ?_⟩
  · intro k hk hle
    omega
  -- the word above the frame is neither in it nor pushed
  have hesp : (s'.envs 0).envTf.tfEsp = utfAddr nestedTf.tfEsp := by rw [hdel.tf]
  refine (read32_congr fun k hk => ?_).trans
    (by decide +kernel : read32 (userMem (interrupted 0xEEBFFEFC nestedTf).pm (page8 1))
      (nestedTf.tfEsp - 4) = nestedTf.tfEip)
  have haddr : utfAddr nestedTf.tfEsp = 0xEEBFFEC8 := by decide
  have hdist :
      (nestedTf.tfEsp - 4 + BitVec.ofNat 32 k - utfAddr nestedTf.tfEsp).toNat = 52 + k := by
    show (0xEEBFFF00 - 4 + BitVec.ofNat 32 k - utfAddr nestedTf.tfEsp : Word).toNat = _
    rw [haddr]
    bv_omega
  have hbelow : nestedTf.tfEsp - 4 + BitVec.ofNat 32 k < utop := by
    rw [lt_def, toNat_utop]
    show (0xEEBFFF00 - 4 + BitVec.ofNat 32 k : Word).toNat < _
    bv_omega
  exact (execAll_call_mem hesp (by omega)).trans
    (hdel.elsewhere hx hw rfl hfits hown hbelow (by omega))

/-- A trap in ordinary code, on the ordinary stack. -/
def plainTf : Trapframe := { Trapframe.zero with tfEip := 0x800100, tfEsp := 0xEEBFDF00 }

/-- The program comes back with its stack pointer four bytes too high. -/
theorem pgfault_loses_stack :
    ∃ s', pageFaultHandler (interrupted 0 plainTf) 0 plainTf 0x1000 = some (.left s') ∧
      ∀ u, u = execAll (fun f _ => f) (pgfaultUpcallCall 0x802000 0x80003C)
          (User.ofTf (s'.envs 0).envTf (userMem s'.pm (page8 1))) →
        CHandler u u.afterNoop ∧
        (execAll (fun f _ => f) pgfaultUpcallReturn u.afterNoop).esp = plainTf.tfEsp + 4 := by
  have hfits : FrameFits plainTf.tfEsp := frameFits_iff.mpr (by decide)
  have htf : ((interrupted 0 plainTf).envs 0).envTf = plainTf := rfl
  obtain ⟨s', hrun, hdel, -⟩ := pageFaultHandler_writable (c := 0) rfl (by decide) rfl
    (interrupted_excl 0 plainTf) htf 0x1000 (interrupted_writable 0 plainTf hfits)
  refine ⟨s', hrun, ?_⟩
  rintro u rfl
  refine ⟨.noop _, ?_⟩
  have hesp : (s'.envs 0).envTf.tfEsp = utfAddr plainTf.tfEsp := by rw [hdel.tf]
  have hno : ¬ Overlaps plainTf := by
    unfold Overlaps
    decide
  obtain ⟨hret, hframe⟩ := (CHandler.noop _).frameAt hesp hdel.frameAt
  rw [execAll_return _ hret hframe]
  exact esp_of_not_overlaps hno hframe

end Jos
