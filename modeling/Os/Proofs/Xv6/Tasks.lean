/-
What memory accesses leave alone.

An access takes pages for its own address space and writes to them, so other processes see what
they saw before, however many accesses there are.
-/
import Os.Proofs.Xv6.Copy
import Os.Xv6.Tasks

namespace Xv6

open Option

variable {M : Machine} {K : Linker M} {m m' : Kmem M} {role role' : Ppn M → Role M}
variable {d u : Ppn M} {va : Word} {wr : Bool} {b : Option Byte}

/-! ### Accesses -/

section

variable (h : Owned K m role) (hd : Live role d) (hva : va.toNat < 2147483648)
include h hd hva

/-- Where there is a page, a page fault is not dealt with. -/
theorem Owned.trapPgflt_there (hpage : pageAt m d va ≠ none) :
    Xv6.trapPgflt m d va = none ∨ Xv6.trapPgflt m d va = some (false, m) := by
  obtain ⟨t, ht, hpte, -⟩ := h.source_page hd hva hpage
  have hkern : KernAt m d (pgrounddown va) := by
    have hv : vpn (pgrounddown va) = vpn va := by
      show (pgrounddown va).toNat / 4096 = va.toNat / 4096
      rw [toNat_pgrounddown]
      omega
    obtain ⟨hpd, hpt⟩ := vpn_eq_iff.mp hv
    unfold KernAt
    rw [hpd, hpt]
    exact ⟨t, (h.entry_dir hd _).mpr ht, hpte⟩
  unfold Xv6.trapPgflt kalloc
  cases hlist : m.freelist with
  | none => exact .inr rfl
  | some u =>
    left
    refine Xv6.mappages_remap ?_
      (h.kernAt_taken (c := fun _ => 0) hd (h.take hlist fun _ => 0).1 hkern)
    rw [toNat_pgrounddown]
    omega

/-- **An access that is granted** ends at a page of the address space, and has taken pages for it
alone. -/
theorem Owned.access_within {n : Nat} {a : Ppn M × Fin 4096}
    (hrun : access d va true wr n m = some (some a, m')) :
    ∃ role', Owned K m' role' ∧ Within d m role m' role' ∧
      role' a.1 = .user d (pdx va) (ptx va) := by
  by_cases hpage : pageAt m d va = none
  · obtain ⟨role', hal, -, hu⟩ := h.access_new hd hva hpage hrun
    exact ⟨role', hal.owned, hal.within, hu⟩
  cases n with
  | zero => cases hrun
  | succ n =>
    unfold access at hrun
    cases htrans : translate m d va true wr with
    | some a' =>
      rw [htrans] at hrun
      cases hrun
      obtain ⟨x, hx⟩ := ne_none_iff_exists'.mp hpage
      obtain ⟨u, hu, -, hplace⟩ := h.translate_page wr hd hva hx
      rw [htrans] at hplace
      split at hplace
      · cases hplace
        exact ⟨role, h, .refl d m role, hu⟩
      · cases hplace
    | none =>
      rw [htrans] at hrun
      rcases h.trapPgflt_there hd hva hpage with hfault | hfault <;>
        · rw [hfault] at hrun
          cases hrun

theorem Owned.touch_within
    (hrun : touch m d va b = some m') : ∃ role', Owned K m' role' ∧ Within d m role m' role' := by
  unfold touch at hrun
  split at hrun
  · rename_i a m1 haccess
    cases hrun
    obtain ⟨role1, howned, hwithin, hu⟩ := h.access_within hd hva haccess
    cases b with
    | none => exact ⟨role1, howned, hwithin⟩
    | some b =>
      refine ⟨role1, (howned.storeByte_user hu a.2 b).1, hwithin.trans (.write ?_)⟩
      intro q _ hmine
      refine mem_store_of_ne ?_
      rintro rfl
      exact hmine (.inr (.inr ⟨_, _, hu⟩))
  · cases hrun

end

theorem userByte_congr {d' : Ppn M} (h : Owned K m role) (hd : Live role d) (h' : Owned K m' role')
    (hd' : Live role' d') (hva : va.toNat < 2147483648) (hpage : pageAt m' d' va = pageAt m d va) :
    userByte m' d' va = userByte m d va := by
  unfold userByte
  cases hold : pageAt m d va with
  | none =>
    rw [h.translate_none false hd hold hva, h'.translate_none false hd' (hpage.trans hold) hva]
    rfl
  | some x =>
    obtain ⟨flags, c⟩ := x
    obtain ⟨u, -, hu, htrans⟩ := h.translate_page false hd hva hold
    obtain ⟨u', -, hu', htrans'⟩ := h'.translate_page false hd' hva (hpage.trans hold)
    rw [htrans, htrans']
    split
    · show some (m'.byte u' (pageOff va)) = some (m.byte u (pageOff va))
      unfold Kmem.byte
      rw [hu, hu']
    · rfl

/-! ### Processes in order -/

/-- The process is in the table. -/
def Tasks.Used (s : Tasks M) (k : ProcIdx) : Prop := (s.kern.procs k).state ≠ .unused

/-- Each process has a directory of its own, in memory in which every page has one owner. -/
def Spaces (K : Linker M) (s : Tasks M) (role : Ppn M → Role M) : Prop :=
  Owned K s.kern.km role ∧ ∀ k, s.Used k →
    ∃ d, (s.kern.procs k).pgdir = some d ∧ role d = .pgdir (.proc k)

structure InOrder (K : Linker M) (s : Tasks M) : Prop where
  memory : ∃ role, Spaces K s role
  /-- Only processes have open files, and the files are counted. -/
  files : ∀ k fd f, (s.kern.procs k).ofile fd = some f → s.Used k ∧ 1 ≤ (s.kern.files f).ref
  cwd : ∀ k, s.Used k → ∃ ip, s.cwd k = some ip
  pids : ∀ k, s.Used k → (s.kern.procs k).pid.toNat < s.kern.nextpid.toNat

/-- What a process reads at an address. -/
def Tasks.byteAt (s : Tasks M) (k : ProcIdx) (va : Word) : Option Byte :=
  (s.kern.procs k).pgdir.bind fun d => userByte s.kern.km d va

theorem used_of_ready {s : Tasks M} {k : ProcIdx} (h : (s.kern.procs k).Ready) : s.Used k := by
  rcases h with h | h
  · simp [Tasks.Used, h]
  · simp [Tasks.Used, h]

/-- An operation on one directory leaves the others where they are. -/
theorem Within.pgdir_other {k : ProcIdx} {d' : Ppn M} (h : Within d m role m' role')
    (hd : role d' = .pgdir (.proc k)) : role' d' = .pgdir (.proc k) := by
  rw [(h.kept d' (by simp [hd]) (by simp [Role.Mine, hd])).1, hd]

section Access

variable {s s' : Tasks M} {k : ProcIdx}

/-- What an access does: only memory changes, and in it only the process's own address space. -/
theorem Spaces.access (h : Spaces K s role) (hva : va.toNat < 2147483648)
    (hstep : taskStep K s (.access k va b) = some s') :
    ∃ m' role' d, s' = { s with kern := { s.kern with km := m' } } ∧ Spaces K s' role' ∧
      (s.kern.procs k).pgdir = some d ∧ role d = .pgdir (.proc k) ∧
      Within d s.kern.km role m' role' := by
  simp only [taskStep] at hstep
  split at hstep
  · rename_i hready
    obtain ⟨m', htouch, rfl⟩ := map_eq_some_iff.mp hstep
    obtain ⟨d, hd, hrun⟩ := bind_eq_some_iff.mp htouch
    obtain ⟨d', hd', hrole⟩ := h.2 k (used_of_ready hready)
    obtain rfl := some.inj (hd.symm.trans hd')
    obtain ⟨role', howned, hwithin⟩ := h.1.touch_within ⟨_, hrole⟩ hva hrun
    refine ⟨m', role', d, rfl, ⟨howned, fun k' hk' => ?_⟩, hd, hrole, hwithin⟩
    obtain ⟨d', hd', hrole'⟩ := h.2 k' hk'
    exact ⟨d', hd', hwithin.pgdir_other hrole'⟩
  · cases hstep

theorem InOrder.access (h : InOrder K s) (hva : va.toNat < 2147483648)
    (hstep : taskStep K s (.access k va b) = some s') : InOrder K s' := by
  obtain ⟨role, hspaces⟩ := h.memory
  obtain ⟨m', role', d, rfl, hspaces', -⟩ := hspaces.access hva hstep
  exact ⟨⟨role', hspaces'⟩, h.files, h.cwd, h.pids⟩

/-- **Other processes see what they saw.** -/
theorem InOrder.access_other {j : ProcIdx} {va' : Word} (h : InOrder K s) (hj : s.Used j)
    (hne : j ≠ k) (hva : va.toNat < 2147483648) (hstep : taskStep K s (.access k va b) = some s')
    (hva' : va'.toNat < 2147483648) : s'.byteAt j va' = s.byteAt j va' := by
  obtain ⟨role, hspaces⟩ := h.memory
  obtain ⟨m', role', d, rfl, hspaces', hd, hrole, hwithin⟩ := hspaces.access hva hstep
  obtain ⟨d', hd', hrole'⟩ := hspaces.2 j hj
  have hdd : d' ≠ d := ne_of_role hrole' hrole (by simp [hne])
  show (s.kern.procs j).pgdir.bind _ = (s.kern.procs j).pgdir.bind _
  rw [hd']
  exact userByte_congr hspaces.1 ⟨_, hrole'⟩ hspaces'.1 ⟨_, hwithin.pgdir_other hrole'⟩ hva'
    (hwithin.pageAt_other hspaces.1 ⟨_, hrole'⟩ hdd ⟨_, hrole⟩ hva')

/-- An access of `k` to user memory. -/
def TaskAct.IsAccess (k : ProcIdx) (act : TaskAct) : Prop :=
  ∃ va b, act = .access k va b ∧ va.toNat < 2147483648

/-- **So they do after any number of accesses.** -/
theorem InOrder.accesses_other {j : ProcIdx} (acts : List TaskAct) : ∀ {s : Tasks M}, InOrder K s →
    s.Used j → j ≠ k → (∀ act ∈ acts, act.IsAccess k) → acts.foldlM (taskStep K) s = some s' →
    ∀ va, va.toNat < 2147483648 → s'.byteAt j va = s.byteAt j va := by
  induction acts with
  | nil =>
    intro s _ _ _ _ hrun va _
    cases hrun
    rfl
  | cons act acts ih =>
    intro s h hj hne hall hrun va hva
    rw [List.foldlM_cons] at hrun
    obtain ⟨s1, hstep, hrest⟩ := bind_eq_some_iff.mp hrun
    obtain ⟨va', b, rfl, hva'⟩ := hall act List.mem_cons_self
    have hj1 : s1.Used j := by
      obtain ⟨role, hspaces⟩ := h.memory
      obtain ⟨m', role', d, rfl, -⟩ := hspaces.access hva' hstep
      exact hj
    rw [ih (h.access hva' hstep) hj1 hne (fun act hact => hall act (List.mem_cons_of_mem _ hact))
      hrest va hva, h.access_other hj hne hva' hstep hva]

end Access

end Xv6
