/-
`fork`.

A call comes back without a child and leaves all that is in use as it was, or with a child that
has a copy of everything, or it panics.  The memory part is `copyuvm`; what is left is the slot, the
kernel stack, the open files and the working directory.
-/
import Os.Proofs.Xv6.Tasks

namespace Xv6

open List Option Function
open Linked (Chain)

variable {M : Machine} {K : Linker M} {m : Kmem M} {role role' : Ppn M → Role M}
variable {d p : Ppn M} {s s' : Tasks M} {cur k np : ProcIdx}

/-! ### Pages -/

/-- The page is on the free list. -/
def FreePage (m : Kmem M) (p : Ppn M) : Prop :=
  ∃ l, Chain (runNext m) m.freelist l ∧ p ∈ l

theorem Owned.freePage_iff (h : Owned K m role) : FreePage m p ↔ role p = .free := by
  obtain ⟨l, hchain, hl⟩ := h.free
  rw [← hl]
  constructor
  · rintro ⟨l', hchain', hp⟩
    rw [hchain.unique hchain']
    exact hp
  · exact fun hp => ⟨l, hchain, hp⟩

/-! ### Open files -/

/-- **The child's descriptors** are the parent's, and every file counts them. -/
theorem forkFiles (p : Proc M) (l : List Fd) : ∀ (files : Ftable M) (ofile : Fd → Option FileIdx),
    (∀ fd f, p.ofile fd = some f → 1 ≤ (files f).ref) →
    ∃ r, l.foldlM (forkFile p) (files, ofile) = some r ∧
      (∀ f, r.1 f = { files f with
        ref := (files f).ref + l.countP fun fd => p.ofile fd = some f }) ∧
      ∀ fd, r.2 fd = if fd ∈ l ∧ p.ofile fd ≠ none then p.ofile fd else ofile fd := by
  induction l with
  | nil =>
    intro files ofile _
    exact ⟨_, rfl, fun _ => rfl, fun fd => (if_neg fun hc => by cases hc.1).symm⟩
  | cons fd l ih =>
    intro files ofile hrefs
    rw [foldlM_cons]
    cases hfd : p.ofile fd with
    | none =>
      obtain ⟨r, hrun, hfiles, hofile⟩ := ih files ofile hrefs
      refine ⟨r, ?_, fun f => ?_, fun fd' => ?_⟩
      · rw [forkFile, hfd]
        exact hrun
      · rw [hfiles f, countP_cons_of_neg (by simp [hfd])]
      rw [hofile fd']
      refine if_congr (and_congr_left fun hne => ?_) rfl rfl
      have hfd' : fd' ≠ fd := by
        rintro rfl
        exact hne hfd
      simp [hfd']
    | some f =>
      have hpos := hrefs fd f hfd
      have hdup : filedup files f =
          some (update files f { files f with ref := (files f).ref + 1 }) :=
        if_neg (by omega)
      obtain ⟨r, hrun, hfiles, hofile⟩ := ih
        (update files f { files f with ref := (files f).ref + 1 })
        (update ofile fd (some f)) (by
          intro fd' f' hf'
          by_cases hff : f' = f
          · subst hff
            rw [update_self]
            exact Nat.le_add_left 1 _
          · rw [update_of_ne hff]
            exact hrefs fd' f' hf')
      refine ⟨r, ?_, fun f' => ?_, fun fd' => ?_⟩
      · rw [forkFile, hfd]
        dsimp only
        rw [hdup]
        exact hrun
      · rw [hfiles f']
        by_cases hff : f' = f
        · subst hff
          rw [update_self, countP_cons_of_pos (by simp [hfd])]
          dsimp only
          congr 1
          omega
        · rw [update_of_ne hff, countP_cons_of_neg (by simp [hfd, Ne.symm hff])]
      · rw [hofile fd']
        by_cases hfd' : fd' = fd
        · subst hfd'
          rw [update_self, hfd]
          simp
        · rw [update_of_ne hfd']
          simp [hfd']

/-! ### What a call may come to -/

/-- There is no child, and what is in use is as it was.  With a slot but no memory for a child the
slot is unused again with another pid, and `nextpid` has moved on; without a slot nothing has. -/
structure Refused (s s' : Tasks M) : Prop where
  table : (∀ k, s.Used k) →
    s'.kern.procs = s.kern.procs ∧ s'.kern.nextpid = s.kern.nextpid
  state : ∀ k, (s'.kern.procs k).state = (s.kern.procs k).state
  procs : ∀ k, s.Used k → s'.kern.procs k = s.kern.procs k
  files : s'.kern.files = s.kern.files
  inodes : s'.iref = s.iref
  cwd : s'.cwd = s.cwd
  free : ∀ p, FreePage s'.kern.km p ↔ FreePage s.kern.km p

/-- The process in the slot `np` is a child of `cur`: it reads what its parent reads and neither
sees what the other writes later, it has the same open files and the same working directory, which
count one more reference each, and the same registers except that `eax` is 0. -/
structure Child (K : Linker M) (s s' : Tasks M) (cur np : ProcIdx) : Prop where
  slot : (s.kern.procs np).state = .unused
  state : (s'.kern.procs np).state = .runnable
  parent : (s'.kern.procs np).parent = some cur
  pid : (s'.kern.procs np).pid = s.kern.nextpid
  fresh : ∀ k, s.Used k → (s.kern.procs k).pid ≠ (s'.kern.procs np).pid
  others : ∀ k, k ≠ np → s'.kern.procs k = s.kern.procs k
  size : (s'.kern.procs np).sz = (s.kern.procs cur).sz
  reads : ∀ va, va.toNat < (s.kern.procs cur).sz.toNat →
    s'.byteAt np va = s.byteAt cur va ∧ s'.byteAt cur va = s.byteAt cur va
  apart : ∀ j k, j ≠ k → (j = cur ∨ j = np) → (k = cur ∨ k = np) →
    ∀ (acts : List TaskAct) (s'' : Tasks M),
    (∀ act ∈ acts, TaskAct.IsAccess k act) → acts.foldlM (taskStep K) s' = some s'' →
    ∀ va, va.toNat < 2147483648 → s''.byteAt j va = s'.byteAt j va
  ofile : (s'.kern.procs np).ofile = (s.kern.procs cur).ofile
  files : ∀ f, s'.kern.files f = { s.kern.files f with
    ref := (s.kern.files f).ref +
      (finRange nofile).countP fun fd => (s.kern.procs cur).ofile fd = some f }
  cwd : ∃ ip, s.cwd cur = some ip ∧ s'.cwd np = some ip ∧
    s'.iref = update s.iref ip (s.iref ip + 1)
  tf : (s'.kern.procs np).tf = { (s.kern.procs cur).tf with eax := 0 }
  regs : s'.regs np = s.regs cur

/-- Every page below the size of the process is there. -/
def Tasks.Whole (s : Tasks M) (k : ProcIdx) : Prop :=
  ∀ d, (s.kern.procs k).pgdir = some d → Xv6.Whole s.kern.km d (s.kern.procs k).sz

inductive ForkEnds (K : Linker M) (s : Tasks M) (cur : ProcIdx) : Option (Word × Tasks M) → Prop
  | refused {s' : Tasks M} (refused : Refused s s') (order : InOrder K s') :
      ForkEnds K s cur (some (-1, s'))
  | made {np : ProcIdx} {s' : Tasks M} (child : Child K s s' cur np) (order : InOrder K s')
      (whole : s.Whole cur) : ForkEnds K s cur (some ((s'.kern.procs np).pid, s'))
  | panics (missing : ¬ s.Whole cur) : ForkEnds K s cur none

theorem toNat_succ {w : Word} (h : w.toNat + 1 < 2147483648) : (w + 1).toNat = w.toNat + 1 := by
  exact Nat.mod_eq_of_lt (by show w.toNat + 1 < _; omega)

/-! ### The slot -/

/-- The kernel with a slot and a kernel stack for a new process. -/
def Kernel.embryo (s : Kernel M) (k : ProcIdx) (kstack : Ppn M) : Kernel M :=
  { s with km := { s.km with freelist := runNext s.km kstack }, nextpid := s.nextpid + 1 }.setProc k
    { s.procs k with state := .embryo, pid := s.nextpid, kstack := some kstack }

theorem allocproc_full {s : Kernel M}
    (h : (finRange nproc).find? (fun k => (s.procs k).state = .unused) = none) :
    allocproc s = (none, s) := by
  rw [allocproc, h]

theorem allocproc_noStack {s : Kernel M}
    (h : (finRange nproc).find? (fun k => (s.procs k).state = .unused) = some k)
    (hlist : s.km.freelist = none) :
    allocproc s = (none, { s with nextpid := s.nextpid + 1 }.setProc k
      { s.procs k with state := .unused, pid := s.nextpid, kstack := none }) := by
  rw [allocproc, h, kalloc, hlist]

theorem allocproc_some {s : Kernel M} {kstack : Ppn M}
    (h : (finRange nproc).find? (fun k => (s.procs k).state = .unused) = some k)
    (hlist : s.km.freelist = some kstack) : allocproc s = (some k, s.embryo k kstack) := by
  rw [allocproc, h, kalloc, hlist]
  rfl

theorem fork_none {s s1 : Kernel M} (h : allocproc s = (none, s1)) :
    fork K s cur = some (-1, s1) := by
  rw [fork, h]

theorem fork_some {s s1 : Kernel M} {kstack : Ppn M} (h : allocproc s = (some np, s1))
    (hd : (s1.procs cur).pgdir = some d) (hk : (s1.procs np).kstack = some kstack) :
    fork K s cur = match copyuvm K s1.km d (s1.procs cur).sz with
      | none => none
      | some (none, m) => (kfree K m kstack).map fun m =>
        (-1, { s1 with km := m }.setProc np
          { s1.procs np with pgdir := none, kstack := none, state := .unused })
      | some (some d, m) =>
        ((finRange nofile).foldlM (forkFile (s1.procs cur))
          (s1.files, (s1.procs np).ofile)).map fun r =>
            ((s1.procs np).pid, { s1 with km := m, files := r.1 }.setProc np
              (forkChild (s1.procs np) (s1.procs cur) cur d r.2)) := by
  rw [fork, h]
  dsimp only
  rw [hd]
  rewrite [hk]
  rfl

theorem InOrder.refused (h : InOrder K s) (hspaces : Spaces K s role)
    (howned : Owned K s'.kern.km role)
    (htable : (∀ k, s.Used k) →
      s'.kern.procs = s.kern.procs ∧ s'.kern.nextpid = s.kern.nextpid)
    (hstate : ∀ k, (s'.kern.procs k).state = (s.kern.procs k).state)
    (hprocs : ∀ k, s.Used k → s'.kern.procs k = s.kern.procs k)
    (hofile : ∀ k, (s'.kern.procs k).ofile = (s.kern.procs k).ofile)
    (hfiles : s'.kern.files = s.kern.files) (hiref : s'.iref = s.iref) (hcwd : s'.cwd = s.cwd)
    (hnext : s.kern.nextpid.toNat ≤ s'.kern.nextpid.toNat) :
    ForkEnds K s cur (some (-1, s')) := by
  have hused : ∀ {k}, s'.Used k ↔ s.Used k := by
    intro k
    unfold Tasks.Used
    rw [hstate]
  refine .refused ⟨htable, hstate, hprocs, hfiles, hiref, hcwd, fun p => ?_⟩
    ⟨⟨role, howned, ?_⟩, ?_, ?_, ?_⟩
  · rw [howned.freePage_iff, hspaces.1.freePage_iff]
  · intro k hk
    rw [hprocs k (hused.mp hk)]
    exact hspaces.2 k (hused.mp hk)
  · intro k fd f hf
    rw [hofile] at hf
    rw [hused, hfiles]
    exact h.files k fd f hf
  · intro k hk
    rw [hcwd]
    exact h.cwd k (hused.mp hk)
  · intro k hk
    rw [hprocs k (hused.mp hk)]
    exact (h.pids k (hused.mp hk)).trans_le hnext

section Call

variable {kstack : Ppn M}

theorem procs_embryo (s : Kernel M) (h : cur ≠ np) : (s.embryo np kstack).procs cur = s.procs cur :=
  update_of_ne h _ _

theorem procs_embryo_self (s : Kernel M) : (s.embryo np kstack).procs np =
    { s.procs np with state := .embryo, pid := s.nextpid, kstack := some kstack } :=
  update_self _ _ _

/-- The kernel with the child. -/
def Kernel.spawn (s : Kernel M) (cur np : ProcIdx) (kstack d : Ppn M) (m : Kmem M)
    (files : Ftable M) (ofile : Fd → Option FileIdx) : Kernel M :=
  { s with km := m, files := files, nextpid := s.nextpid + 1 }.setProc np
    (forkChild { s.procs np with state := .embryo, pid := s.nextpid, kstack := some kstack }
      (s.procs cur) cur d ofile)

theorem procs_spawn_of_ne {s : Kernel M} {files : Ftable M} {ofile : Fd → Option FileIdx}
    (h : k ≠ np) : (s.spawn cur np kstack d m files ofile).procs k = s.procs k :=
  update_of_ne h _ _

theorem procs_spawn_self {s : Kernel M} {files : Ftable M} {ofile : Fd → Option FileIdx} :
    (s.spawn cur np kstack d m files ofile).procs np =
      forkChild { s.procs np with state := .embryo, pid := s.nextpid, kstack := some kstack }
        (s.procs cur) cur d ofile :=
  update_self _ _ _

theorem fork_spawn {s : Kernel M} {src : Ppn M} {r : Ftable M × (Fd → Option FileIdx)}
    (halloc : allocproc s = (some np, s.embryo np kstack)) (hne : cur ≠ np)
    (hd : (s.procs cur).pgdir = some src)
    (hcopy : copyuvm K (s.embryo np kstack).km src (s.procs cur).sz = some (some d, m))
    (hfiles : (finRange nofile).foldlM (forkFile (s.procs cur))
      (s.files, (s.procs np).ofile) = some r) :
    fork K s cur = some (s.nextpid, s.spawn cur np kstack d m r.1 r.2) := by
  rw [fork_some halloc (by rw [procs_embryo s hne, hd]) (by rw [procs_embryo_self])]
  rw [procs_embryo s hne, hcopy, procs_embryo_self]
  rw [show (s.embryo np kstack).files = s.files from rfl, hfiles]
  simp only [map_some, Kernel.spawn, Kernel.embryo, Kernel.setProc, update_idem]

theorem Spaces.spawn {files : Ftable M} {ofile : Fd → Option FileIdx} {ip : InodePtr}
    (h : Spaces K s role) (hslot : (s.kern.procs np).state = .unused)
    (hlist : s.kern.km.freelist = some kstack)
    (hbuilds : Builds K d (s.kern.embryo np kstack).km (update role kstack .held) m role') :
    Spaces K (s.inherit (s.kern.spawn cur np kstack d m files ofile) cur np ip)
      (update (update role' d (.pgdir (.proc np))) kstack (.kstack np)) := by
  have hfree := (h.1.pop hlist).1
  have hself : update role kstack Role.held kstack = .held := update_self _ _ _
  have hks : role' kstack = .held := by
    rw [hbuilds.role_eq (by rw [hself]; simp), hself]
  have hdk : kstack ≠ d := ne_of_role hks hbuilds.dir (by simp)
  have hks' : update role' d (.pgdir (.proc np)) kstack = .held := by
    rw [update_of_ne hdk, hks]
  have hdir : Owned K m (update role' d (.pgdir (.proc np))) :=
    hbuilds.owned.reown hbuilds.dir
  have howned := hdir.retag (p := kstack) (r := .kstack np) (by rw [hks']; trivial)
    (by rw [hks']; simp) trivial (by simp)
  refine ⟨howned, fun k hk => ?_⟩
  show ∃ d', ((s.kern.spawn cur np kstack d m files ofile).procs k).pgdir = some d' ∧ _
  by_cases hknp : k = np
  · subst hknp
    refine ⟨d, by rw [procs_spawn_self]; rfl, ?_⟩
    rw [update_of_ne hdk.symm, update_self]
  have hk' : s.Used k := by
    refine fun hc => hk ?_
    show ((s.kern.spawn cur np kstack d m files ofile).procs k).state = _
    rw [procs_spawn_of_ne hknp, hc]
  obtain ⟨d', hd', hrole⟩ := h.2 k hk'
  have hdk' : d' ≠ kstack := ne_of_role hrole hfree (by simp)
  have hheld : update role kstack Role.held d' = .pgdir (.proc k) := by
    rw [update_of_ne hdk', hrole]
  have hrole' : role' d' = .pgdir (.proc k) := by
    rw [hbuilds.role_eq (by rw [hheld]; simp), hheld]
  refine ⟨d', by rw [procs_spawn_of_ne hknp, hd'], ?_⟩
  rw [update_of_ne hdk', update_of_ne (ne_of_role hrole' hbuilds.dir (by simp)), hrole']

theorem forkTask_none {s1 : Kernel M} (h : allocproc s.kern = (none, s1)) :
    forkTask K s cur = some (-1, { s with kern := s1 }) := by
  rw [forkTask, h, fork_none h]

theorem forkTask_panic (h : fork K s.kern cur = none) : forkTask K s cur = none := by
  rw [forkTask, h]

theorem forkTask_back {s1 s2 : Kernel M} {w : Word} (halloc : allocproc s.kern = (some np, s1))
    (h : fork K s.kern cur = some (w, s2)) (hstate : (s2.procs np).state ≠ .runnable) :
    forkTask K s cur = some (w, { s with kern := s2 }) := by
  rw [forkTask, halloc, h]
  exact if_neg hstate

theorem forkTask_child {s1 s2 : Kernel M} {w : Word} {ip : InodePtr}
    (halloc : allocproc s.kern = (some np, s1)) (h : fork K s.kern cur = some (w, s2))
    (hstate : (s2.procs np).state = .runnable) (hcwd : s.cwd cur = some ip) :
    forkTask K s cur = some (w, s.inherit s2 cur np ip) := by
  rw [forkTask, halloc, h]
  dsimp only
  rw [if_pos hstate, hcwd]
  rfl

/-- **A child has been made.** -/
theorem InOrder.child {src : Ppn M} {ip : InodePtr} {files : Ftable M}
    {ofile : Fd → Option FileIdx} (h : InOrder K s) (hspaces : Spaces K s role)
    (hcur : s.Used cur) (hslot : (s.kern.procs np).state = .unused)
    (hsrc : (s.kern.procs cur).pgdir = some src) (hlist : s.kern.km.freelist = some kstack)
    (hcwd : s.cwd cur = some ip)
    (hbuilds : Builds K d (s.kern.embryo np kstack).km (update role kstack .held) m role')
    (hsize : (s.kern.procs cur).sz.toNat ≤ 2147483648)
    (hpage : ∀ va, va.toNat < 2147483648 → pageAt m d va =
      if vpn va * 4096 < (s.kern.procs cur).sz.toNat then pageAt s.kern.km src va else none)
    (hfiles : ∀ f, files f = { s.kern.files f with
      ref := (s.kern.files f).ref +
        (finRange nofile).countP fun fd => (s.kern.procs cur).ofile fd = some f })
    (hofile : ofile = (s.kern.procs cur).ofile)
    (hnext : s.kern.nextpid.toNat + 1 < 2147483648) :
    InOrder K (s.inherit (s.kern.spawn cur np kstack d m files ofile) cur np ip) ∧
      Child K s (s.inherit (s.kern.spawn cur np kstack d m files ofile) cur np ip) cur np := by
  have hne : cur ≠ np := by
    rintro rfl
    exact hcur hslot
  have hspaces' := @Spaces.spawn M K m role role' d s cur np kstack files ofile ip hspaces hslot
    hlist hbuilds
  generalize hs' : s.inherit (s.kern.spawn cur np kstack d m files ofile) cur np ip =
    s' at hspaces' ⊢
  have hkern : s'.kern = s.kern.spawn cur np kstack d m files ofile := by rw [← hs']; rfl
  have hself : s'.kern.procs np = forkChild
      { s.kern.procs np with state := .embryo, pid := s.kern.nextpid, kstack := some kstack }
      (s.kern.procs cur) cur d ofile := by rw [hkern, procs_spawn_self]
  have hother : ∀ k, k ≠ np → s'.kern.procs k = s.kern.procs k := by
    intro k hk
    rw [hkern, procs_spawn_of_ne hk]
  have hkm : s'.kern.km = m := by rw [hkern]; rfl
  have hfiles' : s'.kern.files = files := by rw [hkern]; rfl
  have hused : ∀ {k}, k ≠ np → (s'.Used k ↔ s.Used k) := by
    intro k hk
    unfold Tasks.Used
    rw [hother k hk]
  have hnp : s'.Used np := by
    unfold Tasks.Used
    rw [hself]
    simp [forkChild]
  have hpid : (s'.kern.procs np).pid = s.kern.nextpid := by rw [hself]; rfl
  have hnext' : s'.kern.nextpid.toNat = s.kern.nextpid.toNat + 1 := by
    rw [hkern]
    exact toNat_succ hnext
  have horder : InOrder K s' := by
    refine ⟨⟨_, hspaces'⟩, ?_, ?_, ?_⟩
    · intro k fd f hf
      have href : ∀ {k}, (s.kern.procs k).ofile fd = some f → 1 ≤ (s'.kern.files f).ref := by
        intro k hf
        rw [hfiles', hfiles f]
        exact (h.files k fd f hf).2.trans (Nat.le_add_right _ _)
      by_cases hk : k = np
      · subst hk
        rw [hself] at hf
        rw [hofile] at hf
        exact ⟨hnp, href hf⟩
      · rw [hother k hk] at hf
        exact ⟨(hused hk).mpr (h.files k fd f hf).1, href hf⟩
    · intro k hk
      rw [← hs']
      by_cases hknp : k = np
      · exact ⟨ip, by rw [hknp]; exact update_self _ _ _⟩
      · obtain ⟨ip', hip'⟩ := h.cwd k ((hused hknp).mp hk)
        exact ⟨ip', by rw [← hip']; exact update_of_ne hknp _ _⟩
    · intro k hk
      by_cases hknp : k = np
      · rw [hknp, hpid, hnext']
        exact Nat.lt_succ_self _
      · rw [hother k hknp, hnext']
        exact (h.pids k ((hused hknp).mp hk)).trans (Nat.lt_succ_self _)
  refine ⟨horder, ?_⟩
  obtain ⟨src', hsrc', hrole⟩ := hspaces.2 cur hcur
  obtain rfl := some.inj (hsrc.symm.trans hsrc')
  obtain ⟨hfree, hpop⟩ := hspaces.1.pop hlist
  have hlive : Live (update role kstack Role.held) src :=
    ⟨_, by rw [update_of_ne (ne_of_role hrole hfree (by simp)), hrole]⟩
  refine
    { slot := hslot, state := by rw [hself]; rfl, parent := by rw [hself]; rfl
      pid := hpid, fresh := fun k hk hc => ?_, others := hother, size := by rw [hself]; rfl
      reads := fun va hva => ?_, apart := ?_, ofile := by rw [hself]; exact hofile
      files := fun f => by rw [hfiles', hfiles f], cwd := ⟨ip, hcwd, ?_, ?_⟩
      tf := by rw [hself]; rfl, regs := ?_ }
  · have hlt := h.pids k hk
    rw [hc, hpid] at hlt
    exact Nat.lt_irrefl _ hlt
  · have hva' : va.toNat < 2147483648 := by omega
    have hin : vpn va * 4096 < (s.kern.procs cur).sz.toNat := by
      have hdiv : va.toNat / 4096 * 4096 < (s.kern.procs cur).sz.toNat := by omega
      exact hdiv
    unfold Tasks.byteAt
    rw [hself, hother cur hne, hsrc, hkm]
    refine ⟨userByte_congr hspaces.1 ⟨_, hrole⟩ hbuilds.owned hbuilds.live hva' ?_,
      userByte_congr hspaces.1 ⟨_, hrole⟩ hbuilds.owned (hbuilds.live_other hlive).1 hva' ?_⟩
    · rw [hpage va hva', if_pos hin]
    · exact hbuilds.pageAt_other hpop hlive hva'
  · intro j k hjk hj _ acts s'' hall hrun va hva
    have hj' : s'.Used j := by
      rcases hj with rfl | rfl
      · exact (hused hne).mpr hcur
      · exact hnp
    exact horder.accesses_other acts hj' hjk hall hrun va hva
  · rw [← hs']
    exact update_self _ _ _
  · rw [← hs']
    rfl
  · rw [← hs']
    exact update_self _ _ _

theorem InOrder.givenUp {q : Proc M} {n : Word} (h : InOrder K s) (hspaces : Spaces K s role)
    (hslot : (s.kern.procs np).state = .unused) (howned : Owned K m role)
    (hkern : s'.kern = { s.kern with km := m, nextpid := n }.setProc np q)
    (hq : q.state = .unused) (hofile : q.ofile = (s.kern.procs np).ofile)
    (hcwd : s'.cwd = s.cwd) (hiref : s'.iref = s.iref)
    (hnext : s.kern.nextpid.toNat ≤ n.toNat) : ForkEnds K s cur (some (-1, s')) := by
  have hprocs : ∀ k, s'.kern.procs k = if k = np then q else s.kern.procs k := by
    intro k
    rw [hkern]
    exact update_apply ..
  refine h.refused hspaces (by rw [hkern]; exact howned) (fun hall => absurd hslot (hall np))
    (fun k => ?_) (fun k hk => ?_)
    (fun k => ?_) (by rw [hkern]; rfl) hiref hcwd
    (by rw [hkern]; exact hnext)
  · rw [hprocs]
    split_ifs with hk
    · rw [hk, hq, hslot]
    · rfl
  · rw [hprocs, if_neg]
    rintro rfl
    exact hk hslot
  · rw [hprocs]
    split_ifs with hk
    · rw [hk, hofile]
    · rfl

/-- **How `fork` ends**, from any state in order. -/
theorem InOrder.forkTask (h : InOrder K s) (hcur : s.Used cur)
    (hnext : s.kern.nextpid.toNat + 1 < 2147483648) :
    ForkEnds K s cur (Xv6.forkTask K s cur) := by
  have hle : s.kern.nextpid.toNat ≤ (s.kern.nextpid + 1).toNat := by
    rw [toNat_succ hnext]
    exact Nat.le_succ _
  obtain ⟨role, hspaces⟩ := h.memory
  obtain ⟨src, hsrc, hrole⟩ := hspaces.2 cur hcur
  cases hfind : (finRange nproc).find? (fun k => (s.kern.procs k).state = .unused) with
  | none =>
    rw [forkTask_none (allocproc_full hfind)]
    exact h.refused hspaces hspaces.1 (fun _ => ⟨rfl, rfl⟩) (fun _ => rfl) (fun _ _ => rfl)
      (fun _ => rfl) rfl rfl rfl le_rfl
  | some np =>
    have hslot : (s.kern.procs np).state = .unused := by simpa using List.find?_some hfind
    have hne : cur ≠ np := by
      rintro rfl
      exact hcur hslot
    cases hlist : s.kern.km.freelist with
    | none =>
      rw [forkTask_none (allocproc_noStack hfind hlist)]
      exact h.givenUp hspaces hslot hspaces.1 rfl rfl rfl rfl rfl hle
    | some kstack =>
      have halloc := allocproc_some hfind hlist
      obtain ⟨hfree, hpop⟩ := hspaces.1.pop hlist
      have hheld : update role kstack Role.held kstack = .held :=
        update_self _ _ _
      have hlive : Live (update role kstack Role.held) src :=
        ⟨_, by rw [update_of_ne (ne_of_role hrole hfree (by simp)), hrole]⟩
      have hends : Copies K src (s.kern.procs cur).sz (s.kern.embryo np kstack).km
          (update role kstack Role.held)
          (copyuvm K (s.kern.embryo np kstack).km src (s.kern.procs cur).sz) :=
        hpop.copyuvm hlive (s.kern.procs cur).sz
      have hsrc' : ((s.kern.embryo np kstack).procs cur).pgdir = some src := by
        rw [procs_embryo _ hne, hsrc]
      have hks : ((s.kern.embryo np kstack).procs np).kstack = some kstack := by
        rw [procs_embryo_self]
      have hfork := fork_some (K := K) halloc hsrc' hks
      rw [procs_embryo _ hne] at hfork
      generalize hcopy : copyuvm K (s.kern.embryo np kstack).km src (s.kern.procs cur).sz = x
        at hends hfork
      cases hends with
      | panics missing =>
        rw [forkTask_panic hfork]
        exact .panics fun hwhole => missing (hwhole src hsrc)
      | failed owned kept =>
        obtain ⟨hkfree, hback⟩ := owned.kfree (p := kstack) (by rw [hheld]; trivial)
          (by rw [hheld]; simp)
        rw [update_idem, ← hfree, update_eq_self] at hback
        dsimp only at hfork
        rw [hkfree, procs_embryo_self] at hfork
        rw [forkTask_back halloc hfork (by simp [Kernel.setProc])]
        refine h.givenUp (n := s.kern.nextpid + 1) (q := { s.kern.procs np with
          state := .unused, pid := s.kern.nextpid, pgdir := none, kstack := none })
          hspaces hslot hback ?_ rfl rfl rfl rfl hle
        simp only [Kernel.embryo, Kernel.setProc, update_idem]
      | copied builds whole page =>
        obtain ⟨ip, hcwd⟩ := h.cwd cur hcur
        obtain ⟨r, hrun, hfiles, hofile⟩ := forkFiles (s.kern.procs cur)
          (finRange nofile) s.kern.files (s.kern.procs np).ofile
          fun fd f hf => (h.files cur fd f hf).2
        have hofile' : r.2 = (s.kern.procs cur).ofile := by
          funext fd
          rw [hofile fd]
          split_ifs with hc
          · rfl
          -- the slot has no open files
          have hnone : (s.kern.procs cur).ofile fd = none := by
            by_contra hsome
            exact hc ⟨mem_finRange fd, hsome⟩
          rw [hnone]
          by_contra hsome
          obtain ⟨f, hf⟩ := ne_none_iff_exists'.mp hsome
          exact (h.files np fd f hf).1 hslot
        obtain ⟨horder, hchild⟩ := h.child hspaces hcur hslot hsrc hlist hcwd builds whole.1
          page hfiles hofile' hnext
        have hwhole : s.Whole cur := by
          intro d hd
          obtain rfl := some.inj (hsrc.symm.trans hd)
          exact whole
        have hspawn := fork_spawn halloc hne hsrc hcopy hrun
        rw [forkTask_child halloc hspawn hchild.state hcwd, ← hchild.pid]
        exact .made hchild horder hwhole

end Call

end Xv6
