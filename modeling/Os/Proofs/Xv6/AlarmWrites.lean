/-
What the delivery of an alarm writes.

The kernel pushes the interrupted `eip` with a store of its own, so the page need not be the user's.
Where it is, all four bytes can be found by the user's walk as well, and the store writes them and
nothing else.  A program can then read the word back, because a page of the user is no page table.
-/
import Os.Lib.Bytes
import Os.Proofs.Xv6.PageFaults

namespace Xv6

open List BitVec Option
open Jos (entryOf entryOf_eq_some)

variable {M : Machine} {K : Linker M} {m m' : Kmem M} {role : Ppn M → Role M}
variable {d t u p : Ppn M} {va va' w : Word} {user wr : Bool}
variable {a : Ppn M × Fin 4096}

/-! ### Bytes -/

theorem getLsbD_ff (k : Nat) : (0xFF : Word).getLsbD k = decide (k < 8) := by
  by_cases hk : k < 32
  · interval_cases k <;> decide
  · rw [getLsbD_of_ge _ _ (by omega)]
    exact (decide_eq_false (by omega)).symm

theorem getByte_setByte (w : Word) {l l' : Nat} (hl : l < 4) (hl' : l' < 4) (b : Byte) :
    getByte (setByte w l b) l' = if l' = l then b else getByte w l' := by
  unfold getByte setByte
  ext i hi
  have hbit : 8 * l' + i < 32 := by omega
  have hi32 : i < 32 := by omega
  rw [getElem_extractLsb', getLsbD_or, getLsbD_and, getLsbD_not,
    getLsbD_shiftLeft, getLsbD_shiftLeft, getLsbD_ff]
  by_cases h : l' = l
  · subst h
    simp [hi, hi32, hbit]
  have hcase : 8 * l' + i < 8 * l ∨ 8 ≤ 8 * l' + i - 8 * l := by omega
  rcases hcase with hc | hc
  · simp [hbit, h, hc]
  · have hb : b.getLsbD (8 * l' + i - 8 * l) = false := getLsbD_of_ge _ _ hc
    have hlt : ¬ (8 * l' + i - 8 * l < 8) := by omega
    simp [hbit, h, hb, hlt]

theorem byte_storeByte (m : Kmem M) (p p' : Ppn M) (o o' : Fin 4096) (b : Byte) :
    (m.storeByte p o b).byte p' o' = if p' = p ∧ o' = o then b else m.byte p' o' := by
  unfold Kmem.byte Kmem.storeByte
  by_cases hp : p' = p
  · subst hp
    rw [mem_store_self]
    by_cases hw : wordOf o' = wordOf o
    · have hdiv : o'.val / 4 = o.val / 4 := congrArg Fin.val hw
      rw [hw, Function.update_self, getByte_setByte _ (by omega) (by omega)]
      refine if_congr ⟨fun hmod => ⟨rfl, Fin.ext (by omega)⟩, fun h => by rw [h.2]⟩ rfl rfl
    · have ho : o' ≠ o := fun ho => hw (by rw [ho])
      rw [Function.update_of_ne hw, if_neg fun h => ho h.2]
  · rw [mem_store_of_ne hp, if_neg fun h => hp h.1]

/-! ### Walks -/

/-- Where the user may write, everybody may do anything. -/
theorem translate_weaken (h : translate m d va true true = some a) (user wr : Bool) :
    translate m d va user wr = some a := by
  have hallow : ∀ w, Allows true true w → Allows user wr w :=
    fun w hw => ⟨hw.1, fun _ => hw.2.1 rfl, fun _ => hw.2.2 rfl⟩
  unfold translate at h ⊢
  split at h
  · rename_i hpde
    rw [if_pos (hallow _ hpde)]
    cases hframe : frame M (pteAddr (m.load (d, pdx va))) with
    | none => rw [hframe] at h; cases h
    | some t =>
      rw [hframe] at h
      dsimp only at h ⊢
      split at h
      · rename_i hpte
        rw [if_pos (hallow _ hpte)]
        exact h
      · cases h
  · cases h

/-! ### Pushing a word -/

/-- The four addresses of a word. -/
def wordAddrs (va : Word) : List Word := [va, va + 1, va + 2, va + 3]

/-- The bytes of a word, each in its place. -/
def storeFour (m : Kmem M) (w : Word) (a0 a1 a2 a3 : Ppn M × Fin 4096) : Kmem M :=
  (((m.storeByte a0.1 a0.2 (getByte w 0)).storeByte a1.1 a1.2 (getByte w 1)).storeByte a2.1 a2.2
    (getByte w 2)).storeByte a3.1 a3.2 (getByte w 3)

theorem putWord_eq {a0 a1 a2 a3 : Ppn M × Fin 4096}
    (h0 : translate m d va false true = some a0) (h₁ : translate m d (va + 1) false true = some a1)
    (h₂ : translate m d (va + 2) false true = some a2)
    (h₃ : translate m d (va + 3) false true = some a3) :
    putWord d m va w = some (storeFour m w a0 a1 a2 a3) := by
  unfold putWord
  rw [h0, h₁, h₂, h₃]
  rfl

theorem access_hit (n : Nat) (h : translate m d va user wr = some a) :
    access d va user wr (n + 1) m = some (some a, m) := by
  rw [access, h]

/-- A word that the user may write is pushed without a fault, and nothing else is written. -/
theorem kstoreWord_user (h : ∀ x ∈ wordAddrs va, (translate m d x true true).isSome) (w : Word) :
    ∃ m', kstoreWord d m va w = some m' ∧ m'.freelist = m.freelist ∧
      ∀ p o, (∀ x ∈ wordAddrs va, translate m d x true true ≠ some (p, o)) →
        m'.byte p o = m.byte p o := by
  simp only [wordAddrs, forall_mem_cons, not_mem_nil, isSome_iff_exists] at h ⊢
  obtain ⟨⟨a0, h0⟩, ⟨a1, h₁⟩, ⟨a2, h₂⟩, ⟨a3, h₃⟩, -⟩ := h
  refine ⟨storeFour m w a0 a1 a2 a3, ?_, rfl, fun p o hne => ?_⟩
  · unfold kstoreWord
    rw [access_hit _ (translate_weaken h0 false true)]
    dsimp only
    rw [access_hit _ (translate_weaken h₃ false true)]
    exact putWord_eq (translate_weaken h0 _ _) (translate_weaken h₁ _ _) (translate_weaken h₂ _ _)
      (translate_weaken h₃ _ _)
  · obtain ⟨hne0, hne1, hne2, hne3, -⟩ := hne
    have hother : ∀ {a : Ppn M × Fin 4096} {x : Word}, translate m d x true true = some a →
        translate m d x true true ≠ some (p, o) → ¬(p = a.1 ∧ o = a.2) := by
      rintro a x ha hx ⟨rfl, rfl⟩
      exact hx ha
    rw [storeFour, byte_storeByte, if_neg (hother h₃ hne3), byte_storeByte, if_neg (hother h₂ hne2),
      byte_storeByte, if_neg (hother h₁ hne1), byte_storeByte, if_neg (hother h0 hne0)]

/-- There is room for a word below `esp` that the user may write, in a process of size `sz`. -/
structure RoomBelow (m : Kmem M) (d : Ppn M) (sz esp : Word) : Prop where
  inside : (esp - 4).toNat + 4 ≤ sz.toNat
  writable : ∀ x ∈ wordAddrs (esp - 4), (translate m d x true true).isSome

/-- What the delivery of an alarm may write for a process with the directory `d`. -/
structure WritesOk (s : Kernel M) (k : ProcIdx) (d : Ppn M) (tf : Trapframe) (a : Alarm)
    (m' : Kmem M) (stored : List Word) : Prop where
  word : stored = [] ∨ ∃ va, stored = wordAddrs va ∧ va.toNat + 4 ≤ (s.procs k).sz.toNat ∧
    ∀ x ∈ stored, (translate s.km d x true true).isSome
  only : ∀ p o, (∀ x ∈ stored, translate s.km d x true true ≠ some (p, o)) →
    m'.byte p o = s.km.byte p o
  freelist : m'.freelist = s.km.freelist
  killed : a.Due → ¬ RoomBelow s.km d (s.procs k).sz tf.esp →
    stored = [] ∧ (s.procs k).killed = true

/-- **The delivery of an alarm**, for any settings and registers: it writes only what it may if and
only if no alarm is due, or there is room for the word on the user's stack. -/
theorem deliver_writesOk_iff (s : Kernel M) (k : ProcIdx) (d : Ppn M) (tf : Trapframe) (a : Alarm) :
    (∃ m' tf' stored, deliver d s.km tf a = some (m', tf', stored) ∧
      WritesOk s k d tf a m' stored) ↔ ¬ a.Due ∨ RoomBelow s.km d (s.procs k).sz tf.esp := by
  unfold deliver
  by_cases hdue : a.Due
  · simp only [if_pos hdue]
    constructor
    · rintro ⟨m', tf', stored, hrun, hok⟩
      by_contra hno
      obtain ⟨hnil, -⟩ := hok.killed hdue fun hroom => hno (.inr hroom)
      obtain ⟨m1, -, heq⟩ := map_eq_some_iff.mp hrun
      simp only [Prod.mk.injEq] at heq
      rw [hnil] at heq
      exact absurd heq.2.2 (by simp)
    · rintro (hno | hroom)
      · exact absurd hdue hno
      · obtain ⟨m', hrun, hlist, honly⟩ := kstoreWord_user hroom.writable tf.eip
        exact ⟨m', _, wordAddrs (tf.esp - 4), by rw [hrun]; rfl,
          .inr ⟨_, rfl, hroom.inside, hroom.writable⟩, honly, hlist,
          fun _ hno => absurd hroom hno⟩
  · simp only [if_neg hdue]
    refine iff_of_true ⟨_, _, _, rfl, .inl rfl, fun p o _ => rfl, rfl, fun h => absurd h hdue⟩ ?_
    exact .inl hdue

/-- With `esp` in the kernel's half the word goes there. -/
theorem deliver_writes_beyond :
    (deliver 258 (tinyProcess 0).km ⟨0, 7, 0x80400004⟩ ⟨1, 0, 0⟩).map (fun r => r.2.2) =
      some [0x80400000, 0x80400001, 0x80400002, 0x80400003] := by
  decide +kernel

/-! ### Reading the word back -/

/-- The user may write at the address. -/
def UserWritable (m : Kmem M) (d : Ppn M) (va : Word) : Prop :=
  ∃ flags c, pageAt m d va = some (flags, c) ∧ UserMay true flags

theorem UserWritable.vpn (h : UserWritable m d va) (hv : Xv6.vpn va' = Xv6.vpn va) :
    UserWritable m d va' := by
  obtain ⟨flags, c, hpage, hmay⟩ := h
  exact ⟨flags, c, (pageAt_vpn m d hv).trans hpage, hmay⟩

theorem userWritable_zero (h : pageAt m d va = zeroPage) : UserWritable m d va :=
  ⟨_, _, h, userMay_zeroPage true⟩

theorem pageAt_of_translate (h : translate m d va user wr = some a) :
    pageAt m d va ≠ none := by
  unfold translate at h
  split at h
  · rename_i hpde
    split at h
    · cases h
    rename_i t ht
    split at h
    · rename_i hpte
      obtain ⟨p, hp, -⟩ := map_eq_some_iff.mp h
      have hentry : entryOf M (m.mem d (pdx va)) = some t := entryOf_eq_some.mpr ⟨hpde.1, ht⟩
      have hentry' : entryOf M (m.mem t (ptx va)) = some p := entryOf_eq_some.mpr ⟨hpte.1, hp⟩
      rw [pageAt, hentry]
      simp [hentry']
    · cases h
  · cases h

theorem UserWritable.place (hw : UserWritable m d va) (h : Owned K m role) (hd : Live role d)
    (hva : va.toNat < 2147483648) : ∃ u, role u = .user d (pdx va) (ptx va) ∧
      ∀ user wr, translate m d va user wr = some (u, pageOff va) := by
  obtain ⟨flags, c, hpage, hmay⟩ := hw
  obtain ⟨u, hu, -, htrans⟩ := h.translate_page true hd hva hpage
  rw [if_pos hmay] at htrans
  exact ⟨u, hu, translate_weaken htrans⟩

theorem translate_absent (h : pageAt m d va = none) : translate m d va user wr = none := by
  by_contra hne
  obtain ⟨a, ha⟩ := ne_none_iff_exists'.mp hne
  exact pageAt_of_translate ha h

/-- An access to a page that is not there: if it is granted, there is a new page now. -/
theorem Owned.access_new {n : Nat} (h : Owned K m role) (hd : Live role d)
    (hva : va.toNat < 2147483648) (hnone : pageAt m d va = none)
    (hrun : access d va user wr n m = some (some a, m')) :
    ∃ role', Alters K d (putZero va) m role m' role' ∧ pageAt m' d va = zeroPage ∧
      role' a.1 = .user d (pdx va) (ptx va) := by
  cases n with
  | zero => cases hrun
  | succ n =>
    rw [access, translate_absent hnone] at hrun
    rcases h.trapPgflt hd hva hnone with ⟨m1, hfail⟩ | ⟨m1, role1, hok, hal⟩
    · rw [hfail] at hrun
      cases hrun
    have hzero : pageAt m1 d va = zeroPage := by
      rw [hal.page va hva, putZero, if_pos rfl]
    obtain ⟨u, hu, hplace⟩ :=
      (userWritable_zero hzero).place hal.owned (hal.within.live hd) hva
    rw [hok] at hrun
    cases n with
    | zero => cases hrun
    | succ n =>
      dsimp only at hrun
      rw [access_hit n (hplace user wr)] at hrun
      cases hrun
      exact ⟨role1, hal, hzero, hu⟩

/-- With memory for the page, and for its table, the access is granted. -/
theorem Owned.access_granted (h : Owned K m role) (hd : Live role d) (hva : va.toNat < 2147483648)
    (hnone : pageAt m d va = none) (hmem : ¬ NoMemory m d va) (user wr : Bool) :
    ∃ a m', access d va user wr (M.npages + 1) m = some (some a, m') := by
  obtain ⟨n, hn⟩ : ∃ n, M.npages = n + 1 := ⟨M.npages - 1, by have := d.isLt; omega⟩
  have hhandled := h.handled hd va
  rw [hn, access, translate_absent hnone]
  rcases h.trapPgflt hd hva hnone with ⟨m1, hfail⟩ | ⟨m1, role1, hok, hal⟩
  · rw [hfail] at hhandled
    cases hhandled with
    | full hno _ => exact absurd hno hmem
  · have hzero : pageAt m1 d va = zeroPage := by
      rw [hal.page va hva, putZero, if_pos rfl]
    obtain ⟨u, -, hplace⟩ := (userWritable_zero hzero).place hal.owned (hal.within.live hd) hva
    rw [hok]
    exact ⟨_, _, access_hit n (hplace user wr)⟩

theorem Owned.storeByte_user (h : Owned K m role) {d' : Ppn M} {i : Fin npdentries}
    {j : Fin nptentries} (hu : role u = .user d' i j) (o : Fin 4096) (b : Byte) :
    Owned K (m.storeByte u o b) role ∧ ∀ d va user wr, Live role d →
      translate (m.storeByte u o b) d va user wr = translate m d va user wr := by
  have hmem : ∀ q, q ≠ u → (m.storeByte u o b).mem q = m.mem q := fun q hq => mem_store_of_ne hq
  refine ⟨h.congr_user hu rfl hmem, fun d va user wr hd => ?_⟩
  obtain ⟨o', ho⟩ := hd
  have hdir : (m.storeByte u o b).load (d, pdx va) = m.load (d, pdx va) := by
    rw [Kmem.load, Kmem.load, hmem d (ne_of_role ho hu (by simp))]
  unfold translate
  rw [hdir]
  by_cases hallow : Allows user wr (m.load (d, pdx va))
  · rw [if_pos hallow, if_pos hallow]
    cases ht : frame M (pteAddr (m.load (d, pdx va))) with
    | none => rfl
    | some t =>
      have hrole : role t = .pgtab d (pdx va) :=
        (h.entry_dir ⟨o', ho⟩ _).mp (entryOf_eq_some.mpr ⟨hallow.1, ht⟩)
      have htab : (m.storeByte u o b).load (t, ptx va) = m.load (t, ptx va) := by
        rw [Kmem.load, Kmem.load, hmem t (ne_of_role hrole hu (by simp))]
      dsimp only
      rw [htab]
  · rw [if_neg hallow, if_neg hallow]

/-- The bytes of a word that lie at different offsets are all there. -/
theorem bytes_storeFour (m : Kmem M) (w : Word) (a0 a1 a2 a3 : Ppn M × Fin 4096)
    (h01 : a0.2 ≠ a1.2) (h02 : a0.2 ≠ a2.2) (h03 : a0.2 ≠ a3.2) (h12 : a1.2 ≠ a2.2)
    (h13 : a1.2 ≠ a3.2) (h23 : a2.2 ≠ a3.2) :
    (storeFour m w a0 a1 a2 a3).byte a0.1 a0.2 = getByte w 0 ∧
      (storeFour m w a0 a1 a2 a3).byte a1.1 a1.2 = getByte w 1 ∧
      (storeFour m w a0 a1 a2 a3).byte a2.1 a2.2 = getByte w 2 ∧
      (storeFour m w a0 a1 a2 a3).byte a3.1 a3.2 = getByte w 3 := by
  simp [storeFour, byte_storeByte, h01, h02, h03, h12, h13, h23]

/-- What a program reads. -/
def userByte (m : Kmem M) (d : Ppn M) (va : Word) : Option Byte :=
  (translate m d va true false).map fun a => m.byte a.1 a.2

def userWord (m : Kmem M) (d : Ppn M) (va : Word) : Option Word := do
  let b0 ← userByte m d va
  let b1 ← userByte m d (va + 1)
  let b2 ← userByte m d (va + 2)
  let b3 ← userByte m d (va + 3)
  return b3 ++ b2 ++ b1 ++ b0

theorem val_pageOff (va : Word) : (pageOff va).val = va.toNat % 4096 := by
  have hoff := Jos.toNat_pgoff va
  show (pgoff va).toNat % 4096 = _
  omega

theorem toNat_wordAddrs (hva : va.toNat + 4 ≤ 2147483648) :
    (va + 1).toNat = va.toNat + 1 ∧ (va + 2).toNat = va.toNat + 2 ∧
      (va + 3).toNat = va.toNat + 3 := by
  refine ⟨?_, ?_, ?_⟩ <;> bv_omega

/-- A word that has been put where the user may write is read there. -/
theorem Owned.userWord_storeFour (h : Owned K m role) (hd : Live role d)
    (hva : va.toNat + 4 ≤ 2147483648) (hw : ∀ x ∈ wordAddrs va, UserWritable m d x) (w : Word) :
    ∃ m', putWord d m va w = some m' ∧ userWord m' d va = some w := by
  obtain ⟨h1, h2, h3⟩ := toNat_wordAddrs hva
  simp only [wordAddrs, forall_mem_cons] at hw
  obtain ⟨hw0, hw1, hw2, hw3, -⟩ := hw
  obtain ⟨u0, hu0, ht0⟩ := hw0.place h hd (by omega)
  obtain ⟨u1, hu1, ht1⟩ := hw1.place h hd (by omega)
  obtain ⟨u2, hu2, ht2⟩ := hw2.place h hd (by omega)
  obtain ⟨u3, hu3, ht3⟩ := hw3.place h hd (by omega)
  refine ⟨_, putWord_eq (ht0 _ _) (ht1 _ _) (ht2 _ _) (ht3 _ _), ?_⟩
  obtain ⟨hown0, hsame0⟩ := h.storeByte_user hu0 (pageOff va) (getByte w 0)
  obtain ⟨hown1, hsame1⟩ := hown0.storeByte_user hu1 (pageOff (va + 1)) (getByte w 1)
  obtain ⟨hown2, hsame2⟩ := hown1.storeByte_user hu2 (pageOff (va + 2)) (getByte w 2)
  obtain ⟨-, hsame3⟩ := hown2.storeByte_user hu3 (pageOff (va + 3)) (getByte w 3)
  have hsame : ∀ x, translate (storeFour m w (u0, pageOff va) (u1, pageOff (va + 1))
      (u2, pageOff (va + 2)) (u3, pageOff (va + 3))) d x true false =
        translate m d x true false := by
    intro x
    unfold storeFour
    rw [hsame3 d x _ _ hd, hsame2 d x _ _ hd, hsame1 d x _ _ hd, hsame0 d x _ _ hd]
  have hne : ∀ {x y : Word}, x.toNat % 4096 ≠ y.toNat % 4096 → pageOff x ≠ pageOff y := by
    intro x y hxy heq
    exact hxy (by rw [← val_pageOff, ← val_pageOff, heq])
  obtain ⟨hb0, hb1, hb2, hb3⟩ := bytes_storeFour m w (u0, pageOff va) (u1, pageOff (va + 1))
    (u2, pageOff (va + 2)) (u3, pageOff (va + 3))
    (hne (by omega)) (hne (by omega)) (hne (by omega)) (hne (by omega)) (hne (by omega))
    (hne (by omega))
  simp only [userWord, userByte, hsame, ht0, ht1, ht2, ht3, map_some, hb0, hb1, hb2, hb3]
  exact congrArg some (Bytes.join_bytes w)

theorem Owned.kstoreWord_writable (h : Owned K m role) (hd : Live role d)
    (hva : va.toNat + 4 ≤ 2147483648) (hw : ∀ x ∈ wordAddrs va, UserWritable m d x) (w : Word) :
    ∃ m', kstoreWord d m va w = some m' ∧ userWord m' d va = some w := by
  obtain ⟨-, -, h3⟩ := toNat_wordAddrs hva
  obtain ⟨u0, -, ht0⟩ := (hw va (by simp [wordAddrs])).place h hd (by omega)
  obtain ⟨u3, -, ht3⟩ := (hw (va + 3) (by simp [wordAddrs])).place h hd (by omega)
  unfold kstoreWord
  rw [access_hit _ (ht0 false true)]
  dsimp only
  rw [access_hit _ (ht3 false true)]
  exact h.userWord_storeFour hd hva hw w

/-- A stack pointer in the user's half.  The word below it lies in pages that the user may write, or
in one that is not there yet while there is memory for it. -/
structure StackReady (K : Linker M) (m : Kmem M) (d : Ppn M) (esp : Word) : Prop where
  owned : ∃ role, Owned K m role ∧ Live role d
  low : 4 ≤ esp.toNat
  high : esp.toNat ≤ 2147483648
  pages : (∀ x ∈ wordAddrs (esp - 4), UserWritable m d x) ∨
    vpn (esp - 1) = vpn (esp - 4) ∧ pageAt m d (esp - 4) = none ∧ ¬ NoMemory m d (esp - 4)

/-- A word that the kernel pushes on the user's stack is on top of it. -/
theorem StackReady.push {esp : Word} (h : StackReady K m d esp) (w : Word) :
    ∃ m', kstoreWord d m (esp - 4) w = some m' ∧ userWord m' d (esp - 4) = some w := by
  obtain ⟨⟨role, howned, hd⟩, hlow, hhigh, hpages⟩ := h
  have hva : (esp - 4).toNat + 4 ≤ 2147483648 := by bv_omega
  have hlast : esp - 1 = esp - 4 + 3 := by bv_omega
  rw [hlast] at hpages
  generalize esp - 4 = va at hva hpages ⊢
  obtain ⟨h1, h2, h3⟩ := toNat_wordAddrs hva
  rcases hpages with hw | ⟨hone, hnone, hmem⟩
  · exact howned.kstoreWord_writable hd hva hw w
  -- the first access maps the page, and then the whole word can be written
  obtain ⟨a, m1, hacc⟩ := howned.access_granted hd (by omega) hnone hmem false true
  obtain ⟨role1, hal, hzero, -⟩ := howned.access_new hd (by omega) hnone hacc
  have hw : ∀ x ∈ wordAddrs va, UserWritable m1 d x := by
    intro x hx
    refine (userWritable_zero hzero).vpn ?_
    have hone' : (va + 3).toNat / 4096 = va.toNat / 4096 := hone
    show x.toNat / 4096 = va.toNat / 4096
    simp only [wordAddrs, mem_cons, not_mem_nil, or_false] at hx
    rcases hx with rfl | rfl | rfl | rfl <;> omega
  obtain ⟨m', hrun, hword⟩ := hal.owned.kstoreWord_writable (hal.within.live hd) hva hw w
  obtain ⟨u, -, hplace⟩ := (userWritable_zero hzero).place hal.owned (hal.within.live hd) (by omega)
  refine ⟨m', ?_, hword⟩
  unfold kstoreWord at hrun ⊢
  rw [access_hit _ (hplace false true)] at hrun
  rw [hacc]
  exact hrun

/-- The end of a timer interrupt for a process that has not been killed. -/
theorem trapTimer_resumes {s : Kernel M} {k : ProcIdx} {tf tf' : Trapframe} {a : Alarm}
    {stored : List Word} (hd : (s.procs k).pgdir = some d) (hlive : (s.procs k).killed = false)
    (hrun : deliver d s.km tf a = some (m', tf', stored)) :
    trapTimer s k tf a = some (.resumes,
      { s with km := m' }.setProc k { s.procs k with tf := tf' }, a.tick) := by
  unfold Xv6.trapTimer leaveTrap
  rw [hd]
  dsimp only
  rw [hrun]
  simp [Kernel.setProc, hlive]

/-- **A timer interrupt at which the alarm is due**, for a process with a stack: control goes to the
handler, and a return from it to where the process was. -/
theorem StackReady.trapTimer {s : Kernel M} {k : ProcIdx} {tf : Trapframe} {a : Alarm}
    (h : StackReady K s.km d tf.esp) (hd : (s.procs k).pgdir = some d)
    (hlive : (s.procs k).killed = false) (hdue : a.Due) :
    ∃ s', trapTimer s k tf a = some (.resumes, s', a.tick) ∧
      (s'.procs k).tf = { tf with esp := tf.esp - 4, eip := a.alarmhandler } ∧
      userWord s'.km d (tf.esp - 4) = some tf.eip := by
  obtain ⟨m', hstore, hword⟩ := h.push tf.eip
  have hrun : deliver d s.km tf a = some (m', { tf with esp := tf.esp - 4, eip := a.alarmhandler },
      wordAddrs (tf.esp - 4)) := by
    unfold deliver
    rw [if_pos hdue]
    dsimp only
    rw [hstore]
    rfl
  refine ⟨_, trapTimer_resumes hd hlive hrun, ?_, hword⟩
  simp [Kernel.setProc]

end Xv6
