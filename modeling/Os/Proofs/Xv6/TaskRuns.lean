/-
Forking after any history of a program.

Every step keeps processes in order, so what `fork` does in such a state it does after every run,
and after every run the pages of one program are no other's.
It comes to no end when a page below the size is not there, and `sbrk` leaves pages to be made by
the first access to them.
-/
import Os.Proofs.Xv6.Fork
import Os.Proofs.Xv6.Images

namespace Xv6

open Option Function
open Runs RefMap

variable {M : Machine} {K : Linker M} {s s' : Tasks M} {cur k : ProcIdx} {p : Proc M}

/-! ### Steps -/

/-- Accesses are below the kernel, the arguments of a program fit on its stack and the counter of
processes, an `int`, has not come to its end. -/
def TaskFits (s : Tasks M) : TaskAct → Prop
  | .sbrk _ _ => True
  | .access _ va _ => va.toNat < 2147483648
  | .exec _ _ _ argv => argBytes argv ≤ 8192
  | .fork _ => s.kern.nextpid.toNat + 1 < 2147483648

/-- One process may get other memory and another address space. -/
theorem InOrder.setProc {m' : Kmem M} {role' : Ppn M → Role M} (h : InOrder K s)
    (howned : Owned K m' role')
    (hdirs : ∀ j, s.Used j →
      ∃ d, (update s.kern.procs k p j).pgdir = some d ∧ role' d = .pgdir (.proc j))
    (hstate : p.state = (s.kern.procs k).state) (hofile : p.ofile = (s.kern.procs k).ofile)
    (hpid : p.pid = (s.kern.procs k).pid) :
    InOrder K { s with kern := { s.kern with km := m' }.setProc k p } := by
  have hused : ∀ {j}, (update s.kern.procs k p j).state ≠ .unused → s.Used j := by
    intro j hj
    rwa [proj_update Proc.state hstate] at hj
  refine ⟨⟨role', howned, fun j hj => hdirs j (hused hj)⟩, fun j fd f hf => ?_,
    fun j hj => h.cwd j (hused hj), fun j hj => ?_⟩
  · have hof : (s.kern.procs j).ofile fd = some f := by
      rw [← proj_update Proc.ofile hofile]
      exact hf
    obtain ⟨hj, hcount⟩ := h.files j fd f hof
    refine ⟨?_, hcount⟩
    show (update s.kern.procs k p j).state ≠ .unused
    rwa [proj_update Proc.state hstate]
  · show (update s.kern.procs k p j).pid.toNat < _
    rw [proj_update Proc.pid hpid]
    exact h.pids j (hused hj)

theorem InOrder.keep (h : InOrder K s) (hdir : p.pgdir = (s.kern.procs k).pgdir)
    (hstate : p.state = (s.kern.procs k).state) (hofile : p.ofile = (s.kern.procs k).ofile)
    (hpid : p.pid = (s.kern.procs k).pid) :
    InOrder K { s with kern := s.kern.setProc k p } := by
  obtain ⟨role, howned, hspaces⟩ := h.memory
  refine h.setProc howned (fun j hj => ?_) hstate hofile hpid
  obtain ⟨d, hd, hrole⟩ := hspaces j hj
  exact ⟨d, (proj_update Proc.pgdir hdir j).trans hd, hrole⟩

theorem InOrder.ret {w : Word} (h : InOrder K s) : InOrder K (s.ret k w) := h.keep rfl rfl rfl rfl

/-- **Every step keeps processes in order.** -/
theorem InOrder.step {a : TaskAct} (h : InOrder K s) (hfit : TaskFits s a)
    (hstep : taskStep K s a = some s') : InOrder K s' := by
  cases a with
  | sbrk k n =>
    obtain ⟨-, heq⟩ := ite_none_right_eq_some.mp hstep
    cases heq
    exact (h.keep (p := (sysSbrk (s.kern.procs k) n).2) rfl rfl rfl rfl).ret
  | access k va b => exact h.access hfit hstep
  | exec k file path argv =>
    obtain ⟨hready, hmap⟩ := ite_none_right_eq_some.mp hstep
    obtain ⟨⟨b, m', p'⟩, hexec, rfl⟩ := map_eq_some_iff.mp hmap
    obtain ⟨role, howned, hspaces⟩ := h.memory
    obtain ⟨old, hold, hrole⟩ := hspaces k (used_of_ready hready)
    obtain ⟨hstate, hofile, hpid, d, role', hd, hrole', howned', hkeep⟩ :=
      howned.exec hold hrole hfit hexec
    refine (h.setProc howned' (fun j hj => ?_) hstate hofile hpid).ret
    by_cases hjk : j = k
    · rw [hjk, update_self]
      exact ⟨d, hd, hrole'⟩
    · obtain ⟨d', hd', hj'⟩ := hspaces j hj
      rw [update_of_ne hjk]
      exact ⟨d', hd', hkeep j d' hjk hj'⟩
  | fork k =>
    obtain ⟨hready, hmap⟩ := ite_none_right_eq_some.mp hstep
    obtain ⟨r, hfork, rfl⟩ := map_eq_some_iff.mp hmap
    have hends := h.forkTask (used_of_ready hready) hfit
    rw [hfork] at hends
    cases hends with
    | refused _ order => exact order.ret
    | made _ order => exact order.ret

/-! ### Pages of programs -/

/-- A program may use the page at an address below the kernel. -/
def Tasks.Reaches (s : Tasks M) (k : ProcIdx) (va : Word) (u : Ppn M) : Prop :=
  s.Used k ∧ va.toNat < 2147483648 ∧ ∃ d wr off, (s.kern.procs k).pgdir = some d ∧
    translate s.kern.km d va true wr = some (u, off)

theorem Spaces.role_of_reaches {role : Ppn M → Role M} {va : Word} {u : Ppn M}
    (h : Spaces K s role) (hu : s.Reaches k va u) :
    ∃ d, role d = .pgdir (.proc k) ∧ role u = .user d (pdx va) (ptx va) := by
  obtain ⟨hk, hva, d, wr, off, hd, htr⟩ := hu
  obtain ⟨d', hd', hrole⟩ := h.2 k hk
  cases hd.symm.trans hd'
  obtain ⟨x, hpage⟩ := ne_none_iff_exists'.mp (pageAt_of_translate htr)
  obtain ⟨u', hu', -, heq⟩ := h.1.translate_page wr ⟨_, hrole⟩ hva hpage
  obtain ⟨-, ⟨⟩⟩ := ite_none_right_eq_some.mp (heq.symm.trans htr)
  exact ⟨d, hrole, hu'⟩

/--
**Programs are kept apart.**  After every run a page that a program may use lies above the kernel,
is not free and is no directory or page table, and no other program or address leads to it.
-/
theorem separate_of_run {s0 : Tasks M} (h0 : InOrder K s0) (hrun : Run (taskStep K) TaskFits s0 s) :
    ∀ k va u, s.Reaches k va u → K.endPage ≤ u.val ∧ ¬ FreePage s.kern.km u ∧
      (∀ j d, s.Used j → (s.kern.procs j).pgdir = some d →
        u ≠ d ∧ ∀ i, Jos.entryOf M (s.kern.km.mem d i) ≠ some u) ∧
      ∀ j va', s.Reaches j va' u → j = k ∧ vpn va' = vpn va := by
  obtain ⟨role, h⟩ := (hrun.inv h0 fun _ _ _ h hok hstep => h.step hok hstep).memory
  intro k va u hu
  obtain ⟨d, hd, hrole⟩ := h.role_of_reaches hu
  refine ⟨h.1.endPage_le (by simp [hrole]), by simp [h.1.freePage_iff, hrole],
    fun j d' hj hd' => ?_, fun j va' hu' => ?_⟩
  · obtain ⟨_, hd, hdir⟩ := h.2 j hj
    cases hd.symm.trans hd'
    refine ⟨ne_of_role hrole hdir (by simp), fun i hi => ?_⟩
    simp [(h.1.tables.pgtab u d' i).mpr ⟨⟨_, hdir⟩, hi⟩] at hrole
  · obtain ⟨d', hd', hrole'⟩ := h.role_of_reaches hu'
    obtain ⟨rfl, hpdx, hptx⟩ := Role.user.inj (hrole.symm.trans hrole')
    cases hd.symm.trans hd'
    exact ⟨rfl, vpn_eq_iff.mpr ⟨hpdx.symm, hptx.symm⟩⟩

/-! ### What `fork` does -/

/-- `fork` returns -1 and leaves the processes and the free pages as they were, or makes a child
that is a copy. -/
def ForkOk (K : Linker M) (s : Tasks M) (cur : ProcIdx) : Prop :=
  ∃ r s', forkTask K s cur = some (r, s') ∧
    (r = -1 ∧ Refused s s' ∨ ∃ np, r = (s'.kern.procs np).pid ∧ Child K s s' cur np)

/--
**When `fork` is right.**  After every run it makes a copy of the process or fails, and does not
panic, if every page below the size of the process is there.
-/
theorem forkOk_of_run {s0 : Tasks M} (h0 : InOrder K s0) (hrun : Run (taskStep K) TaskFits s0 s)
    (hcur : (s.kern.procs cur).Ready) (hfit : TaskFits s (.fork cur)) (hwhole : s.Whole cur) :
    ForkOk K s cur := by
  have h : InOrder K s := hrun.inv h0 fun _ _ _ h hok hstep => h.step hok hstep
  have hends := h.forkTask (used_of_ready hcur) hfit
  unfold ForkOk
  generalize forkTask K s cur = x at hends
  cases hends with
  | refused refused _ => exact ⟨-1, _, rfl, .inl ⟨rfl, refused⟩⟩
  | made child _ _ => exact ⟨_, _, rfl, .inr ⟨_, rfl, child⟩⟩
  | panics missing => exact absurd hwhole missing

/-! ### A process that has asked for a page -/

theorem Scarce.of_take {role : Ppn M → Role M} {u : Ppn M} {n : Nat}
    (h : Scarce (update role u .held) n) : Scarce role (n + 1) := by
  intro l hnodup hfree
  have hle := h (l.erase u) (hnodup.erase u) fun p hp => by
    obtain ⟨hne, hmem⟩ := hnodup.mem_erase_iff.mp hp
    rw [update_of_ne hne, hfree p hmem]
  have := List.length_erase (a := u) (l := l)
  split_ifs at this <;> omega

/-- With memory for a kernel stack and for the tables of the kernel, the first page has to be
there. -/
theorem Spaces.forkTask_panics {role : Ppn M → Role M} {src : Ppn M} {np : ProcIdx}
    (h : Spaces K s role) (hd : (s.kern.procs cur).pgdir = some src)
    (hrole : role src = .pgdir (.proc cur)) (hcur : s.Used cur)
    (hfind : (List.finRange nproc).find? (fun k => (s.kern.procs k).state = .unused) = some np)
    (hmany : ¬ Scarce role 1026) (hnone : pageAt s.kern.km src 0 = none)
    (hsz : 0 < (s.kern.procs cur).sz) : forkTask K s cur = none := by
  have hslot : (s.kern.procs np).state = .unused := by simpa using List.find?_some hfind
  have hne : cur ≠ np := by
    rintro rfl
    exact hcur hslot
  cases hlist : s.kern.km.freelist with
  | none =>
    refine absurd (fun l _ hl => ?_) hmany
    cases l with
    | nil => exact Nat.zero_le _
    | cons p l => exact absurd hlist (h.1.freelist_ne_none (hl p List.mem_cons_self))
  | some kstack =>
    obtain ⟨hfree, hpop⟩ := h.1.pop hlist
    have hlive : Live (update role kstack Role.held) src :=
      ⟨_, by rw [update_of_ne (ne_of_role hrole hfree (by simp)), hrole]⟩
    have hcopy : copyuvm K (s.kern.embryo np kstack).km src (s.kern.procs cur).sz = none :=
      hpop.copyuvm_panics hlive (fun hc => hmany hc.of_take) hnone hsz
    refine forkTask_panic ?_
    rw [fork_some (allocproc_some hfind hlist) (by rw [procs_embryo _ hne, hd])
      (by rw [procs_embryo_self]), procs_embryo _ hne, hcopy]

/-- A machine with room for the tables of a kernel. -/
def wideMachine : Machine := ⟨1300, by decide⟩

instance : NeZero wideMachine.npages := ⟨by decide⟩

def wideLinker : Linker wideMachine where
  data := 0x80101000
  kend := 0x80102000
  dataAligned := tinyLinker.dataAligned
  dataAbove := tinyLinker.dataAbove
  dataBelow := tinyLinker.dataBelow
  endBelow := by decide

def wideFree : List (Ppn wideMachine) := (List.finRange 1300).filter fun p => 258 < p.val

@[irreducible] def wideMemory : Kmem wideMachine :=
  wideFree.foldl Owned.freed ⟨fun _ _ => 0, none⟩

/-- One process of the size `sz` with an empty directory. -/
def wideTasks (sz : Word) : Tasks wideMachine where
  kern :=
    { km := wideMemory
      kpgdir := 258
      procs := fun k =>
        ⟨sz, some 258, none, if k = 0 then .running else .unused, 1, none, ⟨0, 0, 0⟩, false,
          fun _ => none, []⟩
      files := fun _ => ⟨.none, 0, false, false, none⟩
      initproc := 0
      nextpid := 2 }
  cwd := fun _ => some ⟨0, ninode_pos⟩
  iref := fun _ => 1
  regs := fun _ _ => 0

theorem wideMemory_laid : ∃ role, Owned wideLinker wideMemory role ∧
    role 258 = .pgdir (.proc 0) ∧ ¬ Scarce role 1026 ∧ wideMemory.mem 258 = fun _ => 0 := by
  have hend : wideLinker.endPage = 258 := by decide
  have hnot : (258 : Ppn wideMachine) ∉ wideFree := by decide +kernel
  have hnodup : wideFree.Nodup := (List.nodup_finRange _).filter _
  have hl : ∀ p ∈ wideFree, 258 ≤ p.val := fun p hp => by
    have := of_decide_eq_true (List.mem_filter.mp hp).2
    omega
  obtain ⟨howned, hzero⟩ := Owned.laid (K := wideLinker) (d := 258) (l := wideFree) (o := .proc 0)
    (by decide) (by rw [hend]; exact hl) hnot hnodup
  unfold wideMemory
  refine ⟨_, howned, update_self _ _ _, fun hscarce => ?_, hzero⟩
  have hlen : ¬ wideFree.length ≤ 1026 := by decide +kernel
  refine hlen (hscarce wideFree hnodup fun p hp => ?_)
  rw [update_of_ne (by rintro rfl; exact hnot hp)]
  exact if_pos hp

theorem wideTasks_inOrder (sz : Word) : InOrder wideLinker (wideTasks sz) := by
  obtain ⟨role, howned, hrole, -⟩ := wideMemory_laid
  refine ⟨⟨role, howned, fun k hk => ⟨258, rfl, ?_⟩⟩, nofun, fun _ _ => ⟨_, rfl⟩,
    fun _ _ => show (1 : Word).toNat < (2 : Word).toNat by decide⟩
  have hk0 : k = 0 := Decidable.byContradiction fun hc => hk (if_neg hc)
  rw [hk0, hrole]

/-- A program gets a page at the address it reads first. -/
theorem separate_of_run_wide :
    let run := taskStep wideLinker (wideTasks 0) (.access 0 0 none)
    (run.bind fun s => translate s.kern.km 258 0 true true).isSome ∧
      ∀ s ∈ run, ∀ u, s.Reaches 0 0 u → ¬ FreePage s.kern.km u :=
  ⟨by decide +kernel, fun _ hs u hu =>
    (separate_of_run (wideTasks_inOrder 0) (.next .start (by simp [TaskFits]) hs) 0 0 u hu).2.1⟩

/-- A process that has asked for a page and uses it can be copied. -/
theorem forkOk_of_run_used : ∃ s, [TaskAct.sbrk 0 4096, .access 0 0 none].foldlM
    (taskStep wideLinker) (wideTasks 0) = some s ∧ (s.kern.procs 0).sz = 4096 ∧ s.Whole 0 ∧
      ForkOk wideLinker s 0 := by
  have heval : (([TaskAct.sbrk 0 4096, .access 0 0 none].foldlM (taskStep wideLinker)
      (wideTasks 0)).map fun s => decide ((s.kern.procs 0).sz = 4096 ∧
        (s.kern.procs 0).pgdir = some 258 ∧ (s.kern.procs 0).state = .running ∧
        s.kern.nextpid = 2 ∧ (pageAt s.kern.km 258 0).isSome)) = some true := by
    decide +kernel
  obtain ⟨s, hs, hfacts⟩ := map_eq_some_iff.mp heval
  obtain ⟨hsz, hdir, hstate, hpid, hpage⟩ := of_decide_eq_true hfacts
  have hwhole : s.Whole 0 := by
    intro d hd
    cases hdir.symm.trans hd
    rw [hsz]
    refine ⟨by decide, fun va _ hva => ?_⟩
    -- the size is one page
    have hvpn : vpn va = vpn 0 := by
      have hzero : vpn 0 = 0 := by decide
      have hlt : vpn va * 4096 < 4096 := hva
      omega
    rw [pageAt_vpn _ _ hvpn]
    exact isSome_iff_ne_none.mp hpage
  have hrun : Run (taskStep wideLinker) TaskFits (wideTasks 0) s :=
    .of_foldlM hs (by simp [TaskFits])
  exact ⟨s, hs, hsz, hwhole, forkOk_of_run (wideTasks_inOrder 0) hrun (.inr hstate)
    (by rw [TaskFits, hpid]; decide) hwhole⟩

/-- A process that asks for a page and forks without using it takes the kernel down. -/
theorem fork_after_sbrk_panics : InOrder wideLinker (wideTasks 0) ∧
    ∃ s, taskStep wideLinker (wideTasks 0) (.sbrk 0 4096) = some s ∧
      forkTask wideLinker s 0 = none := by
  have hready : ((wideTasks 0).kern.procs 0).Ready := .inr rfl
  refine ⟨wideTasks_inOrder 0, _, by rw [taskStep, if_pos hready], ?_⟩
  obtain ⟨role, howned, hrole, hmany, hzero⟩ := wideMemory_laid
  have hnone : pageAt wideMemory 258 0 = none := by
    refine pageAt_of_not_present fun hpres => ?_
    rw [hzero] at hpres
    exact Jos.not_present_zero hpres
  have hfind : (List.finRange nproc).find? (fun k => ((wideTasks 0).kern.procs k).state = .unused) =
      some 1 := by decide +kernel
  refine Spaces.forkTask_panics ⟨howned, fun k hk => ?_⟩ rfl hrole (by rintro ⟨⟩) hfind hmany hnone
    (by decide)
  by_cases hk0 : k = 0
  · subst hk0
    exact ⟨258, rfl, hrole⟩
  · refine absurd ?_ hk
    simp [Tasks.ret, Kernel.ret, Kernel.setProc, wideTasks, hk0]

end Xv6
