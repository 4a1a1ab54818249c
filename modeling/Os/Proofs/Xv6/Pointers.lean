/-
Which user pointers a system call accepts.

`fetchint`, `fetchstr` and `argptr` compare a pointer with the size of the process and
with nothing else.  So a pointer into the kernel is turned away as long as no size is
above `KERNBASE`, and then no sum of a pointer and a length wraps either.

`exec` takes its size from `allocuvm`, which has that limit, and `fork` copies one.
`sys_sbrk` adds whatever it is given.  It alone decides whether the bound lasts, and the
condition on a run is about its calls.
-/
import Os.Xv6.System
import Os.Proofs.Xv6.Lazy

namespace Xv6

open Option
open Runs (Run)

variable {M : Machine} {K : Linker M} {m m' : Kmem M} {s s' : Kernel M} {p : Proc M}
variable {k cur : ProcIdx} {w : Word}
variable {d : Ppn M} {r : Word × Kernel M} {sz : Word}

/-! ### What is accepted -/

/-- The stack pointer is the user's to choose. -/
def Proc.withEsp (p : Proc M) (esp : Word) : Proc M := { p with tf := { p.tf with esp := esp } }

/-- Whatever memory and the stack pointer are, what is accepted lies below `KERNBASE`. -/
structure AcceptsUserOnly (p : Proc M) : Prop where
  fetchint : ∀ (m m' : Kmem M) (addr w : Word), Xv6.fetchint m p addr = some (some w, m') →
    addr.toNat + 4 ≤ kernbase.toNat
  fetchstr : ∀ (m m' : Kmem M) (addr : Word) (str : List Byte),
    Xv6.fetchstr m p addr = some (some str, m') →
    addr.toNat + str.length + 1 ≤ kernbase.toNat
  argptr : ∀ (m m' : Kmem M) (esp n size ptr : Word),
    Xv6.argptr m (p.withEsp esp) n size = some (some ptr, m') →
    ptr.toNat + size.toNat ≤ kernbase.toNat

theorem fetchint_accepts {addr : Word} (h : fetchint m p addr = some (some w, m')) :
    addr < p.sz ∧ addr + 4 ≤ p.sz := by
  unfold fetchint at h
  split at h
  · simp at h
  · rename_i hok
    rw [not_or] at hok
    exact ⟨BitVec.not_le.mp hok.1, BitVec.not_lt.mp hok.2⟩

/-- The loop reads one character more than it returns. -/
theorem fetchstrLoop_length {str : List Byte} (n : Nat) : ∀ {m m' : Kmem M} {a : Word},
    fetchstrLoop d n m a = some (some str, m') → str.length < n := by
  induction n generalizing str with
  | zero =>
    intro m m' a h
    simp [fetchstrLoop] at h
  | succ n ih =>
    intro m m' a h
    rw [fetchstrLoop] at h
    split at h
    · simp at h
    split at h
    · simp only [some.injEq, Prod.mk.injEq] at h
      rw [← h.1]
      simp
    obtain ⟨⟨rest, m1⟩, hrest, heq⟩ := map_eq_some_iff.mp h
    simp only [Prod.mk.injEq] at heq
    obtain ⟨str', hstr', hcons⟩ := map_eq_some_iff.mp heq.1
    rw [hstr'] at hrest
    have := ih hrest
    rw [← hcons]
    simp only [List.length_cons]
    omega

theorem fetchstr_accepts {addr : Word} {str : List Byte}
    (h : fetchstr m p addr = some (some str, m')) :
    addr.toNat < p.sz.toNat ∧ addr.toNat + str.length + 1 ≤ p.sz.toNat := by
  unfold fetchstr at h
  split at h
  · simp at h
  rename_i hlt
  obtain ⟨d, -, hloop⟩ := bind_eq_some_iff.mp h
  have hlt' : addr.toNat < p.sz.toNat := BitVec.not_le.mp hlt
  have hlen := fetchstrLoop_length _ hloop
  have hsub : (p.sz - addr).toNat = p.sz.toNat - addr.toNat :=
    BitVec.toNat_sub_of_le (Nat.le_of_lt hlt')
  exact ⟨hlt', by omega⟩

theorem argptr_accepts {n size ptr : Word} (h : argptr m p n size = some (some ptr, m')) :
    ¬ size.slt 0 = true ∧ ptr < p.sz ∧ ptr + size ≤ p.sz := by
  unfold argptr at h
  split at h
  · simp at h
  · simp at h
  split at h
  · simp at h
  rename_i i m1 _ hok
  simp only [some.injEq, Prod.mk.injEq] at h
  rw [not_or, not_or] at hok
  rw [← h.1]
  exact ⟨hok.1, BitVec.not_le.mp hok.2.1, BitVec.not_lt.mp hok.2.2⟩

theorem toNat_lt_of_not_neg {size : Word} (h : ¬ size.slt 0 = true) : size.toNat < 2147483648 := by
  by_contra hge
  refine h ?_
  rw [BitVec.slt, decide_eq_true_eq, BitVec.toInt_eq_toNat_cond, if_neg (by omega)]
  have hzero : (0 : Word).toInt = 0 := rfl
  omega

/-- **The checks are sound below `KERNBASE`**: none of the sums wraps. -/
theorem acceptsUserOnly_of_sz (h : p.sz.toNat ≤ kernbase.toNat) : AcceptsUserOnly p := by
  have hk : kernbase.toNat = 2147483648 := toNat_kernbase
  refine ⟨?_, ?_, ?_⟩
  · intro m m' addr w hfetch
    obtain ⟨hlt, hle⟩ := fetchint_accepts hfetch
    have hlt' : addr.toNat < p.sz.toNat := hlt
    have hle' : (addr + 4).toNat ≤ p.sz.toNat := hle
    have h4 : (4 : Word).toNat = 4 := rfl
    rw [BitVec.toNat_add, h4] at hle'
    omega
  · intro m m' addr str hfetch
    obtain ⟨-, hle⟩ := fetchstr_accepts hfetch
    omega
  · intro m m' esp n size ptr harg
    obtain ⟨hsize, hlt, hle⟩ := argptr_accepts harg
    have hlt' : ptr.toNat < p.sz.toNat := hlt
    have hle' : (ptr + size).toNat ≤ p.sz.toNat := hle
    have hpos := toNat_lt_of_not_neg hsize
    rw [BitVec.toNat_add] at hle'
    omega

/-! ### Where sizes come from -/

/-- The size of every process is one that was there before, or below `KERNBASE`. -/
def SizesFrom (s s' : Kernel M) : Prop :=
  ∀ k, (s'.procs k).sz.toNat ≤ kernbase.toNat ∨ ∃ k', (s'.procs k).sz = (s.procs k').sz

theorem SizesFrom.of_eq (h : ∀ k, (s'.procs k).sz = (s.procs k).sz) : SizesFrom s s' :=
  fun k => .inr ⟨k, h k⟩

theorem allocLoop_size {oldsz newsz r : Word} (n : Nat) : ∀ {m m' : Kmem M} {a : Word},
    allocLoop K d oldsz newsz n m a = some (r, m') → r = 0 ∨ r = newsz := by
  induction n with
  | zero =>
    intro m m' a h
    rw [allocLoop] at h
    split at h
    · simp at h
    · simp only [some.injEq, Prod.mk.injEq] at h
      exact .inr h.1.symm
  | succ n ih =>
    intro m m' a h
    by_cases hlt : a < newsz
    · cases hfree : m.freelist with
      | none =>
        rw [allocLoop_full hlt hfree] at h
        obtain ⟨_, -, heq⟩ := map_eq_some_iff.mp h
        exact .inl (congrArg Prod.fst heq).symm
      | some u =>
        rw [allocLoop_take hlt hfree] at h
        split at h
        · simp at h
        · obtain ⟨_, -, hrest⟩ := bind_eq_some_iff.mp h
          obtain ⟨_, -, heq⟩ := bind_eq_some_iff.mp hrest
          exact .inl (congrArg Prod.fst (some.inj heq)).symm
        · exact ih h
    · rw [allocLoop_stop hlt] at h
      exact .inr (congrArg Prod.fst (some.inj h)).symm

theorem allocuvm_size {oldsz newsz r : Word} (hold : oldsz.toNat ≤ kernbase.toNat)
    (h : allocuvm K m d oldsz newsz = some (r, m')) : r.toNat ≤ kernbase.toNat := by
  unfold allocuvm at h
  split at h
  · obtain rfl : 0 = r := congrArg Prod.fst (some.inj h)
    exact Nat.zero_le _
  rename_i hlt
  split at h
  · obtain rfl : oldsz = r := congrArg Prod.fst (some.inj h)
    exact hold
  rcases allocLoop_size _ h with hr | hr
  · rw [hr]
    exact Nat.zero_le _
  · rw [hr]
    exact Nat.le_of_lt (BitVec.not_le.mp hlt)

theorem loadSegments_size {data : List Byte} {r : Word} (n : Nat) :
    ∀ {m m' : Kmem M} {off sz : Word}, sz.toNat ≤ kernbase.toNat →
    loadSegments K data d n m off sz = some (some r, m') → r.toNat ≤ kernbase.toNat := by
  induction n with
  | zero =>
    intro m m' off sz hsz h
    rw [loadSegments] at h
    simp only [some.injEq, Prod.mk.injEq] at h
    rw [← h.1]
    exact hsz
  | succ n ih =>
    intro m m' off sz hsz h
    rw [loadSegments] at h
    repeat' split at h
    all_goals try (simp at h; done)
    · exact ih hsz h
    · rename_i halloc _ _ _ _ _
      exact ih (allocuvm_size hsz halloc) h

theorem toNat_pgroundup_le (h : sz.toNat ≤ kernbase.toNat) :
    (pgroundup sz).toNat ≤ kernbase.toNat := by
  have hk : kernbase.toNat = 2147483648 := toNat_kernbase
  rw [toNat_pgroundup (by omega)]
  omega

theorem allocStack_size {r : Word} (hsz : sz.toNat ≤ kernbase.toNat)
    (h : allocStack K d m sz = some (some r, m')) : r.toNat ≤ kernbase.toNat := by
  unfold allocStack at h
  split at h
  · simp at h
  rename_i halloc
  split at h
  · simp at h
  · obtain ⟨_, -, heq⟩ := map_eq_some_iff.mp h
    obtain ⟨hr, -⟩ := Prod.mk.inj heq
    rw [← some.inj hr]
    exact allocuvm_size (toNat_pgroundup_le hsz) halloc

theorem buildImage_size {cur : Ppn M} {data : List Byte} {elf : Elfhdr} {argv : List (List Byte)}
    {sp : Word} (h : buildImage K m cur d data elf argv = some (some (sz, sp), m')) :
    sz.toNat ≤ kernbase.toNat := by
  unfold buildImage at h
  split at h
  · simp at h
  · simp at h
  rename_i hload
  split at h
  · simp at h
  · simp at h
  rename_i hstack
  obtain ⟨⟨sp', m1⟩, -, heq⟩ := map_eq_some_iff.mp h
  obtain ⟨hsz, -⟩ := Prod.mk.inj heq
  obtain ⟨_, -, hpair⟩ := map_eq_some_iff.mp hsz
  rw [← (Prod.mk.inj hpair).1]
  exact allocStack_size (loadSegments_size _ (Nat.zero_le _) hload) hstack

theorem exec_size {file : Option (List Byte)} {path : List Byte} {argv : List (List Byte)}
    {r : Bool × Kmem M × Proc M} (h : exec K m p file path argv = some r) :
    r.2.2.sz = p.sz ∨ r.2.2.sz.toNat ≤ kernbase.toNat := by
  unfold exec at h
  split at h
  · cases h
    exact .inl rfl
  split at h
  · simp at h
  · cases h
    exact .inl rfl
  split at h
  · simp at h
  split at h
  · simp at h
  · obtain ⟨_, -, rfl⟩ := map_eq_some_iff.mp h
    exact .inl rfl
  · rename_i himage
    obtain ⟨_, -, rfl⟩ := map_eq_some_iff.mp h
    exact .inr (buildImage_size himage)

/-! ### The process table -/

@[simp] theorem setProc_self (s : Kernel M) (k : ProcIdx) (p : Proc M) :
    (s.setProc k p).procs k = p := Function.update_self _ _ _

theorem setProc_of_ne {k' : ProcIdx} (h : k' ≠ k) : (s.setProc k p).procs k' = s.procs k' :=
  Function.update_of_ne h _ _

theorem setProc_sz (h : p.sz = (s.procs k).sz) (k' : ProcIdx) :
    ((s.setProc k p).procs k').sz = (s.procs k').sz := by
  by_cases hk : k' = k
  · rw [hk, setProc_self, h]
  · rw [setProc_of_ne hk]

theorem allocproc_sz (s : Kernel M) (k : ProcIdx) :
    ((allocproc s).2.procs k).sz = (s.procs k).sz := by
  unfold allocproc
  split
  · rfl
  · split
    all_goals exact setProc_sz (by rfl) k

theorem fork_sizes (h : fork K s cur = some r) : SizesFrom s r.2 := by
  have halloc := allocproc_sz s
  unfold fork at h
  split at h
  · rename_i s1 heq
    rw [heq] at halloc
    cases h
    exact .of_eq halloc
  · rename_i j s1 heq
    rw [heq] at halloc
    split at h
    · simp at h
    split at h
    · simp at h
    · split at h
      · simp at h
      · obtain ⟨m1, -, rfl⟩ := map_eq_some_iff.mp h
        exact .of_eq fun k => (setProc_sz (by rfl) k).trans (halloc k)
    · obtain ⟨r1, -, rfl⟩ := map_eq_some_iff.mp h
      intro k
      right
      by_cases hk : k = j
      · refine ⟨cur, ?_⟩
        rw [hk, setProc_self]
        exact halloc cur
      · refine ⟨k, ?_⟩
        rw [setProc_of_ne hk]
        exact halloc k

theorem orphaned_sz (s : Kernel M) (cur k : ProcIdx) :
    (s.orphaned cur k).sz = (s.procs k).sz := by
  unfold Kernel.orphaned
  split <;> rfl

theorem exit_sizes (h : exit K s cur = some s') : SizesFrom s s' := by
  unfold exit at h
  split at h
  · simp at h
  · obtain ⟨_, -, rfl⟩ := map_eq_some_iff.mp h
    exact .of_eq fun k => (setProc_sz (by rfl) k).trans (orphaned_sz s cur k)

theorem wait_sizes {r : Option Word × Kernel M} (h : wait K s cur = some r) : SizesFrom s r.2 := by
  unfold wait at h
  split at h
  · split at h
    · obtain ⟨m1, -, hrest⟩ := bind_eq_some_iff.mp h
      obtain ⟨m2, -, hsome⟩ := bind_eq_some_iff.mp hrest
      cases hsome
      exact .of_eq (setProc_sz (by rfl))
    · simp at h
  · split at h
    all_goals
      cases h
      exact .of_eq fun _ => rfl

theorem closeBoth_sizes {rf wf : FileIdx} (h : closeBoth K s rf wf = some r) :
    r.2.procs = s.procs := by
  obtain ⟨_, -, hrest⟩ := bind_eq_some_iff.mp h
  obtain ⟨_, -, hsome⟩ := bind_eq_some_iff.mp hrest
  cases hsome
  rfl

theorem fdalloc_sz {f : FileIdx} {r : Fd × Proc M} (h : fdalloc p f = some r) :
    r.2.sz = p.sz := by
  obtain ⟨_, -, rfl⟩ := map_eq_some_iff.mp h
  rfl

theorem sysPipe_sizes (h : sysPipe K s cur = some r) : SizesFrom s r.2 := by
  unfold sysPipe at h
  split at h
  · simp at h
  · cases h
    exact .of_eq fun _ => rfl
  split at h
  · simp at h
  · cases h
    exact .of_eq fun _ => rfl
  dsimp only at h
  split at h
  · exact .of_eq fun k => by rw [closeBoth_sizes h]
  rename_i fd0 p0 hfd0
  have hsz0 : p0.sz = (s.procs cur).sz := fdalloc_sz hfd0
  split at h
  · refine .of_eq fun k => ?_
    rw [closeBoth_sizes h]
    exact setProc_sz (by exact hsz0) k
  · rename_i fd1 p1 hfd1
    obtain ⟨d, -, hrest⟩ := bind_eq_some_iff.mp h
    obtain ⟨_, -, rfl⟩ := map_eq_some_iff.mp hrest
    exact .of_eq (setProc_sz ((fdalloc_sz hfd1).trans hsz0))

theorem sysClose_sizes (h : sysClose K s cur = some r) :
    SizesFrom s r.2 := by
  unfold sysClose at h
  split at h
  · simp at h
  · cases h
    exact .of_eq fun _ => rfl
  · obtain ⟨_, -, rfl⟩ := map_eq_some_iff.mp h
    exact .of_eq (setProc_sz (by rfl))

theorem sysExec_sizes {fs : List Byte → Option (List Byte)} (h : sysExec K fs s cur = some r) :
    SizesFrom s r.2 := by
  unfold sysExec at h
  split at h
  · simp at h
  · cases h
    exact .of_eq fun _ => rfl
  obtain ⟨e, hexec, rfl⟩ := map_eq_some_iff.mp h
  intro k
  by_cases hk : k = cur
  · rw [hk, setProc_self]
    rcases exec_size hexec with hsame | hle
    · exact .inr ⟨cur, hsame⟩
    · exact .inl hle
  · rw [setProc_of_ne hk]
    exact .inr ⟨k, rfl⟩

/-! ### Whole runs -/

/-- **The bound**, and what follows from it. -/
def UserOnly (s : Kernel M) : Prop :=
  ∀ k, (s.procs k).sz.toNat ≤ kernbase.toNat ∧ AcceptsUserOnly (s.procs k)

theorem userOnly_iff : UserOnly s ↔ ∀ k, (s.procs k).sz.toNat ≤ kernbase.toNat :=
  ⟨fun h k => (h k).1, fun h k => ⟨h k, acceptsUserOnly_of_sz (h k)⟩⟩

/-- A call of `sbrk` asks for a size up to `KERNBASE`. -/
def SbrkBelow (s : Kernel M) : Op → Prop
  | .call k esp .sbrk => ∀ n m, argint s.km ((s.procs k).withEsp esp) 0 = some (some n, m) →
      ((s.procs k).sz + n).toNat ≤ kernbase.toNat
  | _ => True

theorem SizesFrom.userOnly (h : SizesFrom s s') (hs : UserOnly s) : UserOnly s' := by
  rw [userOnly_iff] at hs ⊢
  intro k
  rcases h k with hle | ⟨k', heq⟩
  · exact hle
  · rw [heq]
    exact hs k'

theorem ret_sz (s : Kernel M) (k : ProcIdx) (w : Word) (k' : ProcIdx) :
    ((s.ret k w).procs k').sz = (s.procs k').sz :=
  setProc_sz (by rfl) k'

theorem SizesFrom.ret {w : Word} (h : SizesFrom s s') : SizesFrom s (s'.ret k w) := by
  intro k'
  rw [ret_sz]
  exact h k'

theorem sizesFrom_of_returning {r : Option (Word × Kernel M)}
    (h : ∀ r', r = some r' → SizesFrom s r'.2) (hret : returning k r = some s') :
    SizesFrom s s' := by
  obtain ⟨r', hr, rfl⟩ := map_eq_some_iff.mp hret
  exact (h r' hr).ret

theorem syscall_sizes {c : Call} (h : syscall K s k c = some s') (hc : c ≠ .sbrk) :
    SizesFrom s s' := by
  cases c with
  | fork => exact sizesFrom_of_returning (fun _ => fork_sizes) h
  | exit => exact exit_sizes h
  | wait =>
    obtain ⟨r, hwait, heq⟩ := map_eq_some_iff.mp h
    have hsizes := wait_sizes hwait
    split at heq
    · rwa [← heq]
    · rw [← heq]
      exact hsizes.ret
  | pipe => exact sizesFrom_of_returning (fun _ => sysPipe_sizes) h
  | exec fs => exact sizesFrom_of_returning (fun _ => sysExec_sizes) h
  | sbrk => exact absurd rfl hc
  | close => exact sizesFrom_of_returning (fun _ => sysClose_sizes) h

theorem userAccess_sizes {va : Word} {b : Option Byte} (h : userAccess K s k va b = some s') :
    SizesFrom s s' := by
  unfold userAccess at h
  split at h
  · simp at h
  split at h
  · simp at h
  · intro k'
    rcases exit_sizes h k' with hle | ⟨k'', heq⟩
    · exact .inl hle
    · exact .inr ⟨k'', heq.trans (setProc_sz (by rfl) k'')⟩
  · split at h
    all_goals
      cases h
      exact .of_eq fun _ => rfl

/-- **`sbrk` keeps the bound exactly if it asks for no more.** -/
theorem sbrk_userOnly_iff {esp : Word} (hs : UserOnly s)
    (h : syscall K (s.setProc k ((s.procs k).withEsp esp)) k .sbrk = some s') :
    UserOnly s' ↔ SbrkBelow s (.call k esp .sbrk) := by
  rw [userOnly_iff] at hs ⊢
  obtain ⟨r, hsbrk, rfl⟩ := map_eq_some_iff.mp h
  unfold sysSbrkCall at hsbrk
  rw [setProc_self] at hsbrk
  show (∀ k', ((r.2.ret k r.1).procs k').sz.toNat ≤ kernbase.toNat) ↔
    ∀ n m, argint s.km ((s.procs k).withEsp esp) 0 = some (some n, m) → _
  have hkm : (s.setProc k ((s.procs k).withEsp esp)).km = s.km := rfl
  rw [hkm] at hsbrk
  split at hsbrk
  · simp at hsbrk
  · rename_i m1 harg
    cases hsbrk
    refine iff_of_true (fun k' => ?_) fun n m hn => ?_
    · rw [ret_sz]
      rw [setProc_sz (by rfl)]
      exact hs k'
    · rw [harg] at hn
      simp at hn
  · rename_i n m1 harg
    cases hsbrk
    rw [harg]
    constructor
    · intro hall n' m' hn
      simp only [some.injEq, Prod.mk.injEq] at hn
      have hk := hall k
      rw [ret_sz, setProc_self] at hk
      rw [← hn.1]
      exact hk
    · intro hbelow k'
      rw [ret_sz]
      by_cases hk : k' = k
      · rw [hk, setProc_self]
        exact hbelow n m1 rfl
      · rw [setProc_of_ne hk]
        rw [setProc_of_ne hk]
        exact hs k'

/-- **One step.** -/
theorem step_userOnly_iff {op : Op} (hs : UserOnly s) (h : step K s op = some s') :
    UserOnly s' ↔ SbrkBelow s op := by
  cases op with
  | access k va b =>
    obtain ⟨-, h⟩ := ite_none_right_eq_some.mp h
    exact iff_of_true ((userAccess_sizes h).userOnly hs) trivial
  | call k esp c =>
    obtain ⟨-, h⟩ := ite_none_right_eq_some.mp h
    by_cases hc : c = .sbrk
    · subst hc
      exact sbrk_userOnly_iff hs h
    have hesp : UserOnly (s.setProc k ((s.procs k).withEsp esp)) :=
      SizesFrom.userOnly (.of_eq (setProc_sz (by rfl))) hs
    refine iff_of_true ((syscall_sizes h hc).userOnly hesp) ?_
    cases c with
    | sbrk => exact absurd rfl hc
    | _ => trivial

/--
**User pointers stay out of the kernel** exactly as long as `sbrk` is not asked for more
than `KERNBASE`: from any state in which they do, through every run of calls, faults and
accesses whose `sbrk`s keep to it, and the first one that does not breaks it.
-/
theorem user_pointers_below_kernbase {s0 : Kernel M} (h0 : UserOnly s0)
    (h : Run (step K) SbrkBelow s0 s) :
    UserOnly s ∧ ∀ op s', step K s op = some s' → (UserOnly s' ↔ SbrkBelow s op) := by
  have hs : UserOnly s :=
    h.inv h0 fun _ _ _ hs hok hstep => (step_userOnly_iff hs hstep).mpr hok
  exact ⟨hs, fun _ _ hstep => step_userOnly_iff hs hstep⟩

/-- A process of one page's size whose page is not there yet. -/
def tinyKernel : Kernel tinyMachine where
  km := tinyMemory
  kpgdir := 0
  procs := fun k => if k = 0 then { tinyUser.p with sz := 4096 } else unusedProc
  files := fun _ => ⟨.none, 0, false, false, none⟩
  initproc := 1
  nextpid := 2

theorem tinyKernel_userOnly : UserOnly tinyKernel := by
  have hk : kernbase.toNat = 2147483648 := toNat_kernbase
  refine userOnly_iff.mpr fun k => ?_
  show (if k = 0 then { tinyUser.p with sz := 4096 } else unusedProc).sz.toNat ≤ _
  split
  · exact (by decide : (4096 : Word).toNat ≤ 2147483648)
  · exact Nat.zero_le _

/-- The process writes the argument 0x7FFFFFFF to its stack. -/
def tinyPush : List Op :=
  [.access 0 4 (some 0xFF), .access 0 5 (some 0xFF), .access 0 6 (some 0xFF),
    .access 0 7 (some 0x7F)]

theorem user_pointers_below_kernbase_tiny :
    (tinyPush.foldlM (step tinyLinker) tinyKernel).isSome = true ∧
      ∀ s, tinyPush.foldlM (step tinyLinker) tinyKernel = some s →
        UserOnly s ∧ ∀ op s', step tinyLinker s op = some s' → (UserOnly s' ↔ SbrkBelow s op) := by
  refine ⟨by decide +kernel, fun s h => ?_⟩
  refine user_pointers_below_kernbase tinyKernel_userOnly (.of_foldlM h ?_)
  intro s op hop
  simp only [tinyPush, List.mem_cons, List.not_mem_nil, or_false] at hop
  rcases hop with rfl | rfl | rfl | rfl
  all_goals trivial

/-- With that argument `sbrk` makes the process larger than `KERNBASE`, and `argptr` accepts
a block that ends in the kernel. -/
theorem sbrk_past_kernbase :
    ((tinyPush ++ [Op.call 0 0 .sbrk]).foldlM (step tinyLinker) tinyKernel).map (fun s =>
        decide ((s.procs 0).sz = 0x80000FFF ∧ kernbase < (s.procs 0).sz) &&
        (argptr s.km ((s.procs 0).withEsp 0) 0 2).any fun r =>
          decide (r.1 = some 0x7FFFFFFF ∧ kernbase.toNat < (0x7FFFFFFF : Word).toNat + 2))
      = some true := by
  decide +kernel

end Xv6
