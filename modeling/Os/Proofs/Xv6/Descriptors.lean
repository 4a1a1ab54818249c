/-
References to open files, and the pages of pipes.

A reference is a slot of some `ofile` or it is in the hands of the system call that is
running; `Counts` says that `ref` counts both.  Every call moves references one at a time
between the three places they can be: from the table into its hands, from its hands into a
slot, from a slot into its hands, and back.

`Pipes` is what ties open files to pages.  A pipe has one file at most for each of its two
ends, and the flag of an end in the page says whether its file is there, so the close that
finds both flags clear is the last one.
-/
import Os.Xv6.Descriptors
import Os.Proofs.Xv6.Lazy
import Mathlib.Data.Fintype.Prod

namespace Xv6

open List Option Function
open Runs RefMap

variable {M : Machine} {K : Linker M} {s s' : FileSys M} {role : Ppn M → Role M}
variable {f : FileIdx} {p : Ppn M} {k : ProcIdx} {hand : List FileIdx} {files : Ftable M}

/-! ### The page of a pipe

It is held as long as an end is open, and the flags in it say which.  The number of a pipe tells it
from an earlier one in the same page. -/

/-- The page of the pipe a file is an end of, and which end. -/
def File.pipeEnd (ff : File M) : Option (Ppn M × Bool) :=
  if ff.type = .pipe then ff.pipe.map fun p => (p, ff.writable) else none

/-- `readopen` or `writeopen`. -/
def endFlag (writable : Bool) : Fin nptentries := if writable then pipeWriteopen else pipeReadopen

theorem endFlag_ne (w : Bool) : endFlag (!w) ≠ endFlag w := by
  cases w <;> decide

/-- Some file is an end of the pipe with this number. -/
def FileSys.Opened (s : FileSys M) (i : Nat) : Prop :=
  ∃ f, (s.files f).pipeEnd.isSome ∧ s.pipeNo f = i

structure Pipes (K : Linker M) (s : FileSys M) (role : Ppn M → Role M) : Prop where
  owned : Owned K s.km role
  others : ∀ p, s.others p = true ↔ role p = .held
  /-- A file that is not in use is of no type, and one that is a pipe has one. -/
  idle : ∀ f, (s.files f).ref = 0 → (s.files f).type = .none
  pipe : ∀ f, (s.files f).type = .pipe → (s.files f).pipe.isSome
  pages : ∀ p, role p = .pipe ↔ ∃ f w, (s.files f).pipeEnd = some (p, w)
  one_end : ∀ f f' e, (s.files f).pipeEnd = some e → (s.files f').pipeEnd = some e → f = f'
  flag : ∀ p w, role p = .pipe →
    (s.km.load (p, endFlag w) ≠ 0 ↔ ∃ f, (s.files f).pipeEnd = some (p, w))
  number : ∀ f p w, (s.files f).pipeEnd = some (p, w) → s.pipeNo f = s.owner p
  owner_lt : ∀ p, role p = .pipe → s.owner p < s.made
  owner_inj : ∀ p p', role p = .pipe → role p' = .pipe → s.owner p = s.owner p' → p = p'
  freed_lt : ∀ i ∈ s.freed, i < s.made
  freed_opened : ∀ i, s.Opened i → i ∉ s.freed
  freed_once : ∀ i < s.made, ¬ s.Opened i → s.freed.count i = 1

namespace Pipes

/-- The table of files changes, the ends of pipes do not. -/
theorem congr (h : Pipes K s role) (hends : ∀ f, (files f).pipeEnd = (s.files f).pipeEnd)
    (hidle : ∀ f, (files f).ref = 0 → (files f).type = .none)
    (hpipe : ∀ f, (files f).type = .pipe → (files f).pipe.isSome) :
    Pipes K { s with files := files } role where
  owned := h.owned
  others := h.others
  idle := hidle
  pipe := hpipe
  pages := by simpa only [hends] using h.pages
  one_end := by simpa only [hends] using h.one_end
  flag := by simpa only [hends] using h.flag
  number := by simpa only [hends] using h.number
  owner_lt := h.owner_lt
  owner_inj := h.owner_inj
  freed_lt := h.freed_lt
  freed_opened := by simpa only [FileSys.Opened, hends] using h.freed_opened
  freed_once := by simpa only [FileSys.Opened, hends] using h.freed_once

theorem setFile {ff : File M} (h : Pipes K s role) (hend : ff.pipeEnd = (s.files f).pipeEnd)
    (hidle : ff.ref = 0 → ff.type = .none) (hpipe : ff.type = .pipe → ff.pipe.isSome) :
    Pipes K { s with files := update s.files f ff } role := by
  have hfile : ∀ g, update s.files f ff g = if g = f then ff else s.files g :=
    fun g => update_apply ..
  refine h.congr (fun g => ?_) (fun g => ?_) fun g => ?_
  · rw [hfile]
    split
    next hg => rw [hend, hg]
    next => rfl
  · rw [hfile]
    split
    · exact hidle
    · exact h.idle g
  · rw [hfile]
    split
    · exact hpipe
    · exact h.pipe g

theorem setProcs (h : Pipes K s role) (procs : ProcIdx → Proc M) :
    Pipes K { s with procs := procs } role :=
  ⟨h.owned, h.others, h.idle, h.pipe, h.pages, h.one_end, h.flag, h.number, h.owner_lt,
    h.owner_inj, h.freed_lt, h.freed_opened, h.freed_once⟩

theorem head_free (h : Pipes K s role) (hp : s.km.freelist = some p) : role p = .free :=
  (h.owned.pop hp).1

end Pipes

/-- A file as `fileclose` leaves it after the last reference. -/
def File.closed (ff : File M) : File M := { ff with ref := 0, type := .none }

@[simp] theorem File.pipeEnd_closed (ff : File M) : ff.closed.pipeEnd = none := rfl

/-- The table when one end of a pipe is closed. -/
def FileSys.endClosed (s : FileSys M) (f : FileIdx) (p : Ppn M) (w : Bool) : FileSys M :=
  { s with
    km := s.km.store (p, endFlag w) 0
    files := update s.files f (s.files f).closed }

/-- The table when the last end of a pipe has been closed and its page freed. -/
def FileSys.endFreed (s : FileSys M) (f : FileIdx) (p : Ppn M) (w : Bool) : FileSys M :=
  { s.endClosed f p w with
    km := Owned.freed (s.endClosed f p w).km p
    freed := s.owner p :: s.freed }

section EndClosed

variable {w : Bool}

theorem load_clear (m : Kmem M) (p q : Ppn M) (w w' : Bool) :
    (m.store (p, endFlag w) 0).load (q, endFlag w') =
      if q = p ∧ w' = w then 0 else m.load (q, endFlag w') := by
  show (m.store (p, endFlag w) 0).mem q (endFlag w') = _
  by_cases hq : q = p
  · subst hq
    rw [mem_store_self]
    by_cases hw : w' = w
    · subst hw
      rw [update_self, if_pos ⟨rfl, rfl⟩]
    · rw [update_of_ne (by rw [Bool.eq_not.mpr hw]; exact endFlag_ne w),
        if_neg fun hc => hw hc.2]
      rfl
  · rw [mem_store_of_ne hq, if_neg fun hc => hq hc.1]
    rfl

theorem pipeEnd_endClosed (s : FileSys M) (f g : FileIdx) (p : Ppn M) (w : Bool) :
    ((s.endClosed f p w).files g).pipeEnd = if g = f then none else (s.files g).pipeEnd := by
  show (update s.files f (s.files f).closed g).pipeEnd = _
  rw [update_apply]
  split <;> rfl

namespace Pipes

section

variable (h : Pipes K s role)
include h

theorem owned_endClosed (hf : (s.files f).pipeEnd = some (p, w)) :
    Owned K (s.endClosed f p w).km role := by
  have hrole : role p = .pipe := (h.pages p).mpr ⟨f, w, hf⟩
  exact h.owned.fill (by rw [hrole]; trivial) (by rw [hrole]; simp)

theorem other_ends (hf : (s.files f).pipeEnd = some (p, w)) {g : FileIdx}
    {q : Ppn M} {w' : Bool} :
    ((s.endClosed f p w).files g).pipeEnd = some (q, w') ↔
      (s.files g).pipeEnd = some (q, w') ∧ ¬ (q = p ∧ w' = w) := by
  rw [pipeEnd_endClosed]
  constructor
  · intro hg
    split at hg
    next => cases hg
    next hne =>
      refine ⟨hg, fun hc => hne ?_⟩
      rw [hc.1, hc.2] at hg
      exact h.one_end g f _ hg hf
  · rintro ⟨hg, hne⟩
    rw [if_neg]
    · exact hg
    · rintro rfl
      rw [hf] at hg
      cases hg
      exact hne ⟨rfl, rfl⟩

theorem idle_closed (f g : FileIdx) :
    (update s.files f (s.files f).closed g).ref = 0 →
      (update s.files f (s.files f).closed g).type = .none := by
  rw [update_apply]
  split
  · exact fun _ => rfl
  · exact h.idle g

theorem pipe_closed (f g : FileIdx) :
    (update s.files f (s.files f).closed g).type = .pipe →
      (update s.files f (s.files f).closed g).pipe.isSome := by
  rw [update_apply]
  split
  · exact fun hc => nomatch hc
  · exact h.pipe g

/-- The other end is still open, and so the page stays. -/
theorem endClosed_stays (hf : (s.files f).pipeEnd = some (p, w))
    (hother : s.km.load (p, endFlag (!w)) ≠ 0) : Pipes K (s.endClosed f p w) role := by
  have hrole : role p = .pipe := (h.pages p).mpr ⟨f, w, hf⟩
  obtain ⟨f', hf'⟩ := (h.flag p (!w) hrole).mp hother
  have hends : ∀ g q w', ((s.endClosed f p w).files g).pipeEnd = some (q, w') ↔
      (s.files g).pipeEnd = some (q, w') ∧ ¬ (q = p ∧ w' = w) := fun _ _ _ => h.other_ends hf
  have hstill : ((s.endClosed f p w).files f').pipeEnd = some (p, !w) :=
    (hends f' p (!w)).mpr ⟨hf', fun hc => by simpa using hc.2⟩
  -- the pipe keeps its number through the other end
  have hopened : ∀ i, (s.endClosed f p w).Opened i ↔ s.Opened i := by
    intro i
    constructor
    · rintro ⟨g, hg, rfl⟩
      obtain ⟨⟨q, w'⟩, hg⟩ := isSome_iff_exists.mp hg
      exact ⟨g, by rw [((hends g q w').mp hg).1]; rfl, rfl⟩
    rintro ⟨g, hg, rfl⟩
    by_cases hgf : g = f
    · refine ⟨f', by rw [hstill]; rfl, ?_⟩
      rw [hgf, h.number f p w hf]
      exact h.number f' p (!w) hf'
    · exact ⟨g, by rwa [pipeEnd_endClosed, if_neg hgf], rfl⟩
  refine ⟨h.owned_endClosed hf, h.others, h.idle_closed f, h.pipe_closed f, fun q => ?_,
    fun g g' e hg hg' => ?_, fun q w' hq => ?_, fun g q w' hg => ?_, h.owner_lt, h.owner_inj,
    h.freed_lt, fun i hi => ?_, fun i hi hc => ?_⟩
  · rw [h.pages]
    constructor
    · rintro ⟨g, w', hg⟩
      by_cases hq : q = p
      · exact ⟨f', !w, hq ▸ hstill⟩
      · exact ⟨g, w', (hends g q w').mpr ⟨hg, fun hc => hq hc.1⟩⟩
    · rintro ⟨g, w', hg⟩
      exact ⟨g, w', ((hends g q w').mp hg).1⟩
  · exact h.one_end g g' e ((hends g _ _).mp hg).1 ((hends g' _ _).mp hg').1
  · simp only [FileSys.endClosed, load_clear] at hends ⊢
    simp only [hends]
    by_cases hc : q = p ∧ w' = w
    · simp [hc]
    · simpa [hc] using h.flag q w' hq
  · exact h.number g q w' ((hends g q w').mp hg).1
  · exact h.freed_opened i ((hopened i).mp hi)
  · exact h.freed_once i hi fun ho => hc ((hopened i).mpr ho)

theorem endClosed_freed (hf : (s.files f).pipeEnd = some (p, w))
    (hother : s.km.load (p, endFlag (!w)) = 0) :
    kfree K (s.endClosed f p w).km p = some (Owned.freed (s.endClosed f p w).km p) ∧
    Pipes K (s.endFreed f p w) (update role p .free) := by
  have hrole : role p = .pipe := (h.pages p).mpr ⟨f, w, hf⟩
  have hends : ∀ g q w', ((s.endClosed f p w).files g).pipeEnd = some (q, w') ↔
      (s.files g).pipeEnd = some (q, w') ∧ ¬ (q = p ∧ w' = w) := fun _ _ _ => h.other_ends hf
  obtain ⟨hfree, howned⟩ := (h.owned_endClosed hf).kfree (by rw [hrole]; trivial)
    (by rw [hrole]; simp)
  -- no file is an end of this pipe any more
  have hpage : ∀ g q w', ((s.endClosed f p w).files g).pipeEnd = some (q, w') ↔
      (s.files g).pipeEnd = some (q, w') ∧ q ≠ p := by
    intro g q w'
    rw [hends]
    refine and_congr_right fun hg => ⟨fun hc hq => ?_, fun hq hc => hq hc.1⟩
    subst hq
    have hw' : w' = !w := Bool.eq_not.mpr fun he => hc ⟨rfl, he⟩
    subst hw'
    exact (h.flag q (!w) hrole).mpr ⟨g, hg⟩ hother
  have hpipe : ∀ q, update role p .free q = .pipe ↔ role q = .pipe ∧ q ≠ p := by
    intro q
    by_cases hq : q = p
    · subst hq
      simp
    · simp [hq]
  have hopened : ∀ i, (s.endClosed f p w).Opened i ↔ s.Opened i ∧ i ≠ s.owner p := by
    intro i
    constructor
    · rintro ⟨g, hg, rfl⟩
      obtain ⟨⟨q, w'⟩, hg⟩ := isSome_iff_exists.mp hg
      obtain ⟨hg, hq⟩ := (hpage g q w').mp hg
      refine ⟨⟨g, by rw [hg]; rfl, rfl⟩, fun hi => hq ?_⟩
      have hnumber : s.owner q = s.owner p := (h.number g q w' hg).symm.trans hi
      exact h.owner_inj q p ((h.pages q).mpr ⟨g, w', hg⟩) hrole hnumber
    · rintro ⟨⟨g, hg, rfl⟩, hi⟩
      obtain ⟨⟨q, w'⟩, hg⟩ := isSome_iff_exists.mp hg
      have hq : q ≠ p := by
        rintro rfl
        exact hi (h.number g q w' hg)
      exact ⟨g, by rw [(hpage g q w').mpr ⟨hg, hq⟩]; rfl, rfl⟩
  refine ⟨hfree, howned, fun q => ?_, h.idle_closed f, h.pipe_closed f, fun q => ?_,
    fun g g' e hg hg' => ?_, fun q w' hq => ?_, fun g q w' hg => ?_, fun q hq => ?_,
    fun q q' hq hq' => ?_, ?_, fun i hi => ?_, fun i hi hc => ?_⟩
  · rw [update_eq_iff (by rw [hrole]; simp) (by simp)]
    exact h.others q
  · rw [hpipe, h.pages]
    constructor
    · rintro ⟨⟨g, w', hg⟩, hq⟩
      exact ⟨g, w', (hpage g q w').mpr ⟨hg, hq⟩⟩
    · rintro ⟨g, w', hg⟩
      obtain ⟨hg, hq⟩ := (hpage g q w').mp hg
      exact ⟨⟨g, w', hg⟩, hq⟩
  · exact h.one_end g g' e ((hends g _ _).mp hg).1 ((hends g' _ _).mp hg').1
  · obtain ⟨hq, hne⟩ := (hpipe q).mp hq
    have hload : (s.endFreed f p w).km.load (q, endFlag w') = s.km.load (q, endFlag w') := by
      have hmem : (s.endFreed f p w).km.mem q = (s.endClosed f p w).km.mem q :=
        Owned.mem_freed_of_ne hne
      have hold := load_clear s.km p q w w'
      rw [if_neg fun hc => hne hc.1] at hold
      rw [← hold]
      exact congrFun hmem _
    rw [hload, h.flag q w' hq]
    exact exists_congr fun g => ⟨fun hg => (hpage g q w').mpr ⟨hg, hne⟩,
      fun hg => ((hpage g q w').mp hg).1⟩
  · exact h.number g q w' ((hends g q w').mp hg).1
  · exact h.owner_lt q ((hpipe q).mp hq).1
  · exact h.owner_inj q q' ((hpipe q).mp hq).1 ((hpipe q').mp hq').1
  · exact forall_mem_cons.mpr ⟨h.owner_lt p hrole, h.freed_lt⟩
  · obtain ⟨hi, hne⟩ := (hopened i).mp hi
    exact not_mem_cons_of_ne_of_not_mem hne (h.freed_opened i hi)
  show (s.owner p :: s.freed).count i = 1
  by_cases hne : i = s.owner p
  · have hnew : s.owner p ∉ s.freed :=
      h.freed_opened _ ⟨f, by rw [hf]; rfl, h.number f p w hf⟩
    rw [hne, count_cons_self, count_eq_zero.mpr hnew]
  · rw [count_cons_of_ne (Ne.symm hne)]
    exact h.freed_once i hi fun ho => hc ((hopened i).mpr ⟨ho, hne⟩)

end

end Pipes

end EndClosed

theorem leave_of_freelist_eq {m : Kmem M} (h : m.freelist = s.km.freelist) :
    s.leave m files = { s with km := m, files := files } := by
  unfold FileSys.leave
  rw [h]
  split
  next q hq => rw [if_pos hq]
  next => rfl

/-- `ref` of one file goes down by one. -/
def refDown (files : Ftable M) (f : FileIdx) (g : FileIdx) : Nat :=
  if g = f then (files f).ref - 1 else (files g).ref

theorem ref_update (ff : File M) (g : FileIdx) (hff : ff.ref = (files f).ref - 1) :
    (update files f ff g).ref = refDown files f g := by
  unfold refDown
  rw [update_apply]
  split
  · exact hff
  · rfl

section Fileclose

variable {m : Kmem M}

theorem fileclose_more (h : 1 < (files f).ref) :
    fileclose K m files f = some (m, update files f { files f with ref := (files f).ref - 1 }) := by
  unfold fileclose
  rw [if_neg (by omega), if_pos (by omega)]

theorem fileclose_last (h : (files f).ref = 1) (htype : (files f).type ≠ .pipe) :
    fileclose K m files f = some (m, update files f (files f).closed) := by
  unfold fileclose
  rw [if_neg (by omega), if_neg (by omega)]
  exact if_neg htype

theorem fileclose_pipe (h : (files f).ref = 1) (htype : (files f).type = .pipe)
    (hp : (files f).pipe = some p) :
    fileclose K m files f = (pipeclose K m p (files f).writable).map fun m =>
      (m, update files f (files f).closed) := by
  unfold fileclose
  rw [if_neg (by omega), if_neg (by omega)]
  simp only [htype, hp, ↓reduceIte, File.closed]

/-- Both flags are clear when that of the other end was. -/
theorem pipeclose_eq (K : Linker M) (m : Kmem M) (p : Ppn M) (w : Bool) :
    pipeclose K m p w =
      if m.load (p, endFlag (!w)) = 0 then kfree K (m.store (p, endFlag w) 0) p
      else some (m.store (p, endFlag w) 0) := by
  have hload : ∀ w', (m.store (p, endFlag w) 0).load (p, endFlag w')
      = if w' = w then 0 else m.load (p, endFlag w') := by
    intro w'
    simpa using load_clear m p p w w'
  have hr := hload false
  have hw := hload true
  unfold pipeclose
  cases w
  all_goals
    simp only [endFlag, Bool.not_true, Bool.not_false, Bool.false_eq_true, ↓reduceIte,
      reduceCtorEq] at hr hw ⊢
    simp only [hr, hw, true_and, and_true]

end Fileclose

/-- **`fileclose` of a file that is referred to** comes to an end, and leaves pipes and their
pages in order. -/
theorem closeFile_spec (h : Pipes K s role) (href : 1 ≤ (s.files f).ref) :
    ∃ s' role', closeFile K s f = some s' ∧ Pipes K s' role' ∧ s'.procs = s.procs ∧
      ∀ g, (s'.files g).ref = refDown s.files f g := by
  unfold closeFile
  by_cases hmore : 1 < (s.files f).ref
  · rw [fileclose_more hmore, map_some, leave_of_freelist_eq rfl]
    refine ⟨_, role, rfl, h.setFile rfl (fun hc => ?_) (h.pipe f), rfl, fun g => ref_update _ g rfl⟩
    have hc' : (s.files f).ref - 1 = 0 := hc
    omega
  have hone : (s.files f).ref = 1 := by omega
  have hlast : (s.files f).closed.ref = (s.files f).ref - 1 := by rw [hone]; rfl
  by_cases htype : (s.files f).type = .pipe
  · obtain ⟨p, hp⟩ := isSome_iff_exists.mp (h.pipe f htype)
    have hf : (s.files f).pipeEnd = some (p, (s.files f).writable) := by
      rw [File.pipeEnd, if_pos htype, hp]
      rfl
    have hrole : role p = .pipe := (h.pages p).mpr ⟨f, _, hf⟩
    rw [fileclose_pipe hone htype hp, pipeclose_eq]
    split
    next hother =>
      obtain ⟨hfree, hpipes⟩ := h.endClosed_freed hf hother
      have hhead : s.km.freelist ≠ some p := by
        intro hc
        have hfree := h.head_free hc
        rw [hrole] at hfree
        cases hfree
      rw [show s.km.store (p, endFlag (s.files f).writable) 0
        = (s.endClosed f p (s.files f).writable).km from rfl, hfree]
      refine ⟨s.endFreed f p (s.files f).writable, _, ?_, hpipes, rfl,
        fun g => ref_update _ g hlast⟩
      have hleave : s.leave (Owned.freed (s.endClosed f p (s.files f).writable).km p)
          (update s.files f (s.files f).closed)
          = s.endFreed f p (s.files f).writable := by
        show FileSys.mk _ _ _ _ _ _ _ (if s.km.freelist = some p then _ else _) = _
        rw [if_neg hhead]
        rfl
      exact congrArg some hleave
    next hother =>
      refine ⟨s.endClosed f p (s.files f).writable, role, ?_, h.endClosed_stays hf hother, rfl,
        fun g => ref_update _ g hlast⟩
      exact congrArg some (leave_of_freelist_eq rfl)
  · rw [fileclose_last hone htype, map_some, leave_of_freelist_eq rfl]
    refine ⟨_, role, rfl, h.setFile ?_ (fun _ => rfl) fun hc => (nomatch hc), rfl,
      fun g => ref_update _ g hlast⟩
    rw [File.pipeEnd_closed, File.pipeEnd, if_neg htype]

/-! ### A new pipe has both ends open -/

section MakePipe

variable {m : Kmem M} {f0 f1 : FileIdx}

/-- The page of a new pipe. -/
def pipePage (m : Kmem M) (p : Ppn M) : Kmem M :=
  (((m.store (p, pipeReadopen) 1).store (p, pipeWriteopen) 1).store (p, pipeNwrite) 0).store
    (p, pipeNread) 0

/-- The table of files when its two ends are there. -/
def pipeFiles (files : Ftable M) (p : Ppn M) (f0 f1 : FileIdx) : Ftable M :=
  let files := update files f0
    { files f0 with type := .pipe, readable := true, writable := false, pipe := some p }
  update files f1
    { files f1 with type := .pipe, readable := false, writable := true, pipe := some p }

def FileSys.withPipe (s : FileSys M) (p : Ppn M) (f0 f1 : FileIdx) : FileSys M :=
  s.makePipe (pipePage { s.km with freelist := runNext s.km p } p) (pipeFiles s.files p f0 f1) f0 f1

theorem mem_pipePage_of_ne {q : Ppn M} (h : q ≠ p) : (pipePage m p).mem q = m.mem q := by
  unfold pipePage
  rw [mem_store_of_ne h, mem_store_of_ne h, mem_store_of_ne h, mem_store_of_ne h]

theorem load_pipePage (m : Kmem M) (p : Ppn M) (w : Bool) :
    (pipePage m p).load (p, endFlag w) = 1 := by
  cases w <;> simp [pipePage, Kmem.load, mem_store_self, endFlag,
    pipeReadopen, pipeWriteopen, pipeNread, pipeNwrite]

theorem pipeEnd_pipeFiles (files : Ftable M) (p : Ppn M) (f0 f1 g : FileIdx) :
    (pipeFiles files p f0 f1 g).pipeEnd =
      if g = f1 then some (p, true) else if g = f0 then some (p, false)
      else (files g).pipeEnd := by
  unfold pipeFiles
  simp only [update_apply]
  split
  next => rfl
  next =>
    split
    next => rfl
    next => rfl

theorem ref_pipeFiles (g : FileIdx) : (pipeFiles files p f0 f1 g).ref = (files g).ref := by
  unfold pipeFiles
  simp only [update_apply]
  grind

theorem owned_pipePage (h : Owned K m role) (hp : m.freelist = some p) :
    Owned K (pipePage { m with freelist := runNext m p } p) (update role p .pipe) := by
  obtain ⟨-, howned⟩ := h.pop hp
  have hheld : update role p .held p = .held := update_self ..
  have hmine : (update role p .held p).Aside := by rw [hheld]; trivial
  have hne : update role p .held p ≠ .free := by rw [hheld]; simp
  have hfilled : Owned K (pipePage { m with freelist := runNext m p } p) (update role p .held) :=
    (((howned.fill hmine hne).fill hmine hne).fill hmine hne).fill hmine hne
  have htag := hfilled.retag hmine hne (r := .pipe) trivial (by simp)
  rwa [update_idem] at htag

/-- **A pipe is made** of a free page and of two files of no type. -/
theorem Pipes.makePipe (h : Pipes K s role) (hne : f0 ≠ f1) (hp : s.km.freelist = some p)
    (h0 : (s.files f0).type = .none) (h1 : (s.files f1).type = .none)
    (hr0 : (s.files f0).ref ≠ 0) (hr1 : (s.files f1).ref ≠ 0) :
    Pipes K (s.withPipe p f0 f1) (update role p .pipe) := by
  have hfree : role p = .free := h.head_free hp
  have hpipe : ∀ q, update role p .pipe q = .pipe ↔ role q = .pipe ∨ q = p := by
    intro q
    rw [update_apply]
    split <;> simp_all
  have hends : ∀ g q w, (pipeFiles s.files p f0 f1 g).pipeEnd = some (q, w) ↔
      (s.files g).pipeEnd = some (q, w) ∧ g ≠ f0 ∧ g ≠ f1 ∨
        q = p ∧ (g = f1 ∧ w = true ∨ g = f0 ∧ w = false) := by
    intro g q w
    rw [pipeEnd_pipeFiles]
    grind
  have hold : ∀ g q w, (s.files g).pipeEnd = some (q, w) → g ≠ f0 ∧ g ≠ f1 ∧ q ≠ p := by
    intro g q w hg
    have hq : role q = .pipe := (h.pages q).mpr ⟨g, w, hg⟩
    refine ⟨?_, ?_, ?_⟩
    · rintro rfl
      rw [File.pipeEnd, if_neg (by simp [h0])] at hg
      cases hg
    · rintro rfl
      rw [File.pipeEnd, if_neg (by simp [h1])] at hg
      cases hg
    · rintro rfl
      rw [hfree] at hq
      cases hq
  have howner : ∀ q, (s.withPipe p f0 f1).owner q = if q = p then s.made else s.owner q := by
    intro q
    have hpage : (pipeFiles s.files p f0 f1 f0).pipe = some p := by
      unfold pipeFiles
      simp [hne]
    simp only [FileSys.withPipe, FileSys.makePipe, hpage, update_apply]
  have hnumber : ∀ g, (s.withPipe p f0 f1).pipeNo g
        = if g = f1 then s.made else if g = f0 then s.made else s.pipeNo g := by
    intro g
    simp only [FileSys.withPipe, FileSys.makePipe, update_apply]
  have hopened : ∀ i, (s.withPipe p f0 f1).Opened i ↔ s.Opened i ∨ i = s.made := by
    intro i
    constructor
    · rintro ⟨g, hg, rfl⟩
      obtain ⟨⟨q, w⟩, hg⟩ := isSome_iff_exists.mp hg
      have hg' := (hends g q w).mp hg
      rw [hnumber]
      grind [FileSys.Opened]
    · rintro (⟨g, hg, rfl⟩ | rfl)
      · obtain ⟨⟨q, w⟩, hg⟩ := isSome_iff_exists.mp hg
        obtain ⟨hg0, hg1, hq⟩ := hold g q w hg
        refine ⟨g, ?_, by rw [hnumber, if_neg hg1, if_neg hg0]⟩
        exact isSome_iff_exists.mpr ⟨(q, w), (hends g q w).mpr (.inl ⟨hg, hg0, hg1⟩)⟩
      · refine ⟨f1, ?_, by rw [hnumber, if_pos rfl]⟩
        exact isSome_iff_exists.mpr
          ⟨(p, true), (hends f1 p true).mpr (.inr ⟨rfl, .inl ⟨rfl, rfl⟩⟩)⟩
  refine ⟨owned_pipePage h.owned hp, fun q => ?_, fun g hg => ?_, fun g => ?_, fun q => ?_,
    fun g g' e hg hg' => ?_, fun q w hq => ?_, fun g q w hg => ?_, fun q hq => ?_,
    fun q q' hq hq' => ?_, fun i hi => ?_, fun i hi => ?_, fun i hi hc => ?_⟩
  · rw [update_eq_iff (by rw [hfree]; simp) (by simp)]
    exact h.others q
  · rw [show ((s.withPipe p f0 f1).files g).ref = _ from ref_pipeFiles g] at hg
    have hg0 : g ≠ f0 := fun he => hr0 (he ▸ hg)
    have hg1 : g ≠ f1 := fun he => hr1 (he ▸ hg)
    show (pipeFiles s.files p f0 f1 g).type = .none
    unfold pipeFiles
    simpa [update_of_ne hg0, update_of_ne hg1] using h.idle g hg
  · show (pipeFiles s.files p f0 f1 g).type = .pipe → (pipeFiles s.files p f0 f1 g).pipe.isSome
    have hg := h.pipe g
    unfold pipeFiles
    simp only [update_apply]
    grind
  · rw [hpipe, h.pages]
    constructor
    · rintro (⟨g, w, hg⟩ | rfl)
      · obtain ⟨hg0, hg1, -⟩ := hold g q w hg
        exact ⟨g, w, (hends g q w).mpr (.inl ⟨hg, hg0, hg1⟩)⟩
      · exact ⟨f1, true, (hends f1 q true).mpr (.inr ⟨rfl, .inl ⟨rfl, rfl⟩⟩)⟩
    · rintro ⟨g, w, hg⟩
      obtain ⟨hg, -, -⟩ | ⟨hq, -⟩ := (hends g q w).mp hg
      · exact .inl ⟨g, w, hg⟩
      · exact .inr hq
  · obtain ⟨q, w⟩ := e
    have hg := (hends g q w).mp hg
    have hg' := (hends g' q w).mp hg'
    have hone := h.one_end g g' (q, w)
    grind
  · by_cases hqp : q = p
    · subst hqp
      rw [show (s.withPipe q f0 f1).km.load (q, endFlag w) = 1 from load_pipePage ..]
      refine iff_of_true (by simp) ?_
      cases w
      · exact ⟨f0, (hends f0 q false).mpr (.inr ⟨rfl, .inr ⟨rfl, rfl⟩⟩)⟩
      · exact ⟨f1, (hends f1 q true).mpr (.inr ⟨rfl, .inl ⟨rfl, rfl⟩⟩)⟩
    · have hmem : (s.withPipe p f0 f1).km.mem q = s.km.mem q := mem_pipePage_of_ne hqp
      have hload : (s.withPipe p f0 f1).km.load (q, endFlag w) = s.km.load (q, endFlag w) :=
        congrFun hmem _
      rw [hload, h.flag q w (((hpipe q).mp hq).resolve_right hqp)]
      refine exists_congr fun g => ⟨fun hg => ?_, fun hg => ?_⟩
      · obtain ⟨hg0, hg1, -⟩ := hold g q w hg
        exact (hends g q w).mpr (.inl ⟨hg, hg0, hg1⟩)
      · obtain ⟨hg, -, -⟩ | ⟨hq', -⟩ := (hends g q w).mp hg
        · exact hg
        · exact absurd hq' hqp
  · rw [hnumber, howner]
    obtain ⟨hg, hg0, hg1⟩ | ⟨hq, hg⟩ := (hends g q w).mp hg
    · rw [if_neg hg1, if_neg hg0, if_neg (hold g q w hg).2.2]
      exact h.number g q w hg
    · rw [if_pos hq]
      obtain ⟨hg, -⟩ | ⟨hg, -⟩ := hg <;> simp [hg]
  · have hlt := h.owner_lt q
    rw [howner]
    show _ < s.made + 1
    grind
  · have hlt := h.owner_lt q
    have hlt' := h.owner_lt q'
    have hinj := h.owner_inj q q'
    rw [howner, howner]
    grind
  · exact Nat.lt_succ_of_lt (h.freed_lt i hi)
  · obtain hi | rfl := (hopened i).mp hi
    · exact h.freed_opened i hi
    · exact fun hc => absurd (h.freed_lt _ hc) (Nat.lt_irrefl _)
  · rw [hopened, not_or] at hc
    exact h.freed_once i (Nat.lt_of_le_of_ne (Nat.le_of_lt_succ hi) hc.2) hc.1

end MakePipe

/-! ### A file is counted once for each descriptor, or is in hand -/

/-- All descriptors of all processes. -/
def FileSys.slots (s : FileSys M) (r : ProcIdx × Fd) : Option FileIdx := (s.procs r.1).ofile r.2

theorem slots_setFd (s : FileSys M) (k : ProcIdx) (fd : Fd) (x : Option FileIdx) :
    (s.setFd k fd x).slots = update s.slots (k, fd) x := by
  funext ⟨k', fd'⟩
  simp only [FileSys.slots, FileSys.setFd, FileSys.setFds, update_apply, Prod.mk.injEq]
  split
  next hk =>
    subst hk
    simp [update_apply]
  next hk => simp [hk]

/-- Everything is in order, with the references in `hand` still to be put somewhere. -/
structure FilesInv (K : Linker M) (s : FileSys M) (hand : List FileIdx) : Prop where
  pipes : ∃ role, Pipes K s role
  counts : ∀ f, (s.files f).ref = refCount s.slots f + hand.count f
  idle : ∀ k, (s.procs k).state.alive = false → ∀ fd, s.slots (k, fd) = none

namespace FilesInv

variable {fd : Fd}

theorem ref_pos_of_slot (h : FilesInv K s hand) (hs : s.slots (k, fd) = some f) :
    1 ≤ (s.files f).ref := by
  rw [h.counts]
  exact Nat.le_add_right_of_le (refCount_pos hs)

theorem ref_pos_of_hand (h : FilesInv K s (f :: hand)) : 1 ≤ (s.files f).ref := by
  rw [h.counts, count_cons_self]
  omega

/-- The process whose slot is written is alive, or the slot is cleared. -/
theorem idle_setFd {x : Option FileIdx} (h : FilesInv K s hand)
    (hx : x = none ∨ (s.procs k).state.alive = true) (j : ProcIdx)
    (hj : ((s.setFd k fd x).procs j).state.alive = false) (fd' : Fd) :
    (s.setFd k fd x).slots (j, fd') = none := by
  have hstate : ((s.setFd k fd x).procs j).state = (s.procs j).state := by
    simp only [FileSys.setFd, FileSys.setFds, update_apply]
    split <;> simp_all
  rw [hstate] at hj
  rw [slots_setFd, update_apply]
  split
  next he =>
    cases he
    obtain hx | hx := hx
    · exact hx
    · rw [hj] at hx
      cases hx
  next => exact h.idle j hj fd'

/-- A reference goes from a slot into the hands of the call. -/
theorem hold (h : FilesInv K s hand) (hs : s.slots (k, fd) = some f) :
    FilesInv K (s.setFd k fd none) (f :: hand) := by
  obtain ⟨role, hp⟩ := h.pipes
  refine ⟨⟨role, hp.setProcs _⟩, fun g => ?_, h.idle_setFd (.inl rfl)⟩
  have hbal := refCount_update s.slots (k, fd) none g
  rw [hs] at hbal
  rw [slots_setFd, count_cons]
  have hc := h.counts g
  show (s.files g).ref = _
  simp only [reduceCtorEq, ↓reduceIte, some.injEq, beq_iff_eq] at hbal ⊢
  omega

/-- A reference goes from the hands of the call into a free slot. -/
theorem place (h : FilesInv K s (f :: hand)) (hs : s.slots (k, fd) = none)
    (halive : (s.procs k).state.alive = true) : FilesInv K (s.setFd k fd (some f)) hand := by
  obtain ⟨role, hp⟩ := h.pipes
  refine ⟨⟨role, hp.setProcs _⟩, fun g => ?_, h.idle_setFd (.inr halive)⟩
  have hbal := refCount_update s.slots (k, fd) (some f) g
  rw [hs] at hbal
  have hc := h.counts g
  rw [count_cons] at hc
  rw [slots_setFd]
  show (s.files g).ref = _
  simp only [reduceCtorEq, ↓reduceIte, some.injEq, beq_iff_eq] at hbal hc
  omega

theorem dup (h : FilesInv K s hand) (hf : filedup s.files f = some files) :
    FilesInv K { s with files := files } (f :: hand) := by
  obtain ⟨role, hp⟩ := h.pipes
  unfold filedup at hf
  split at hf
  next => cases hf
  next href =>
    cases hf
    refine ⟨⟨role, hp.setFile rfl (fun hc => nomatch hc) (hp.pipe f)⟩, fun g => ?_, h.idle⟩
    have hc := h.counts g
    show (update s.files f _ g).ref = refCount s.slots g + _
    rw [update_apply, count_cons]
    simp only [beq_iff_eq]
    grind

/-- `fileclose` comes to an end and drops the reference. -/
theorem close (h : FilesInv K s (f :: hand)) :
    ∃ s', closeFile K s f = some s' ∧ FilesInv K s' hand ∧ s'.procs = s.procs := by
  obtain ⟨role, hp⟩ := h.pipes
  obtain ⟨s', role', hs, hp', hprocs, href⟩ := closeFile_spec hp h.ref_pos_of_hand
  have hslots : s'.slots = s.slots := by
    unfold FileSys.slots
    rw [hprocs]
  refine ⟨s', hs, ⟨⟨role', hp'⟩, fun g => ?_, ?_⟩, hprocs⟩
  · have hc := h.counts g
    rw [href, hslots]
    rw [count_cons] at hc
    unfold refDown
    simp only [beq_iff_eq] at hc
    grind
  · rw [hslots, hprocs]
    exact h.idle

theorem alloc (h : FilesInv K s hand) (hf : filealloc s.files = some (f, files)) :
    FilesInv K { s with files := files } (f :: hand) ∧ (files f).type = .none ∧
      (files f).ref = 1 ∧ f ∉ hand := by
  obtain ⟨role, hp⟩ := h.pipes
  obtain ⟨g, hfind, heq⟩ := map_eq_some_iff.mp hf
  obtain ⟨rfl, rfl⟩ := Prod.mk.inj heq
  have hzero : (s.files g).ref = 0 := by simpa using List.find?_some hfind
  have htype := hp.idle g hzero
  refine ⟨⟨⟨role, hp.setFile rfl (fun _ => htype) (hp.pipe g)⟩, fun j => ?_, h.idle⟩, ?_, ?_, ?_⟩
  · have hc := h.counts j
    show (update s.files g _ j).ref = refCount s.slots j + _
    rw [update_apply, count_cons]
    simp only [beq_iff_eq]
    grind
  · rw [update_self]
    exact htype
  · rw [update_self]
  · have hc := h.counts g
    rw [hzero] at hc
    exact count_eq_zero.mp (by omega)

end FilesInv

/-! ### Every system call ends with empty hands -/

theorem Proc.Ready.alive {p : Proc M} (h : p.Ready) : p.state.alive = true := by
  obtain h | h := h <;> rw [h] <;> rfl

theorem lookupFd_eq_some {p : Proc M} {w : Word} {fd : Fd} (h : lookupFd p w = some (fd, f)) :
    p.ofile fd = some f := by
  unfold lookupFd at h
  split at h
  next =>
    obtain ⟨g, hg, he⟩ := map_eq_some_iff.mp h
    cases he
    exact hg
  next => cases h

theorem fdalloc_eq_some {p p' : Proc M} {fd : Fd} (h : fdalloc p f = some (fd, p')) :
    p.ofile fd = none ∧ p'.ofile = update p.ofile fd (some f) := by
  obtain ⟨fd', hfind, he⟩ := map_eq_some_iff.mp h
  cases he
  exact ⟨by simpa using List.find?_some hfind, rfl⟩

/-- Closing a file and writing descriptors do not touch the same things. -/
theorem closeFile_setFds (K : Linker M) (s : FileSys M) (k : ProcIdx) (ofile : Fd → Option FileIdx)
    (f : FileIdx) :
    closeFile K (s.setFds k ofile) f = (closeFile K s f).map fun s' => s'.setFds k ofile := by
  unfold closeFile
  rw [Option.map_map]
  rfl

namespace FilesInv

/-- A file is closed and its slot is written afterwards, as `exit` and `dup2` do. -/
theorem closeSlot {fd : Fd} (h : FilesInv K s []) (hs : s.slots (k, fd) = some f) :
    ∃ s', closeFile K s f = some s' ∧ FilesInv K (s'.setFd k fd none) [] ∧ s'.procs = s.procs := by
  obtain ⟨s1, hclose, hinv, hprocs⟩ := (h.hold hs).close
  have hcomm := closeFile_setFds K s k (update (s.procs k).ofile fd none) f
  rw [show s.setFds k _ = s.setFd k fd none from rfl, hclose] at hcomm
  obtain ⟨s', hs', rfl⟩ := map_eq_some_iff.mp hcomm.symm
  have hsame : s'.procs = s.procs := by
    unfold closeFile at hs'
    obtain ⟨r, -, rfl⟩ := map_eq_some_iff.mp hs'
    rfl
  refine ⟨s', hs', ?_, hsame⟩
  rw [show s'.setFds k (update (s.procs k).ofile fd none)
    = s'.setFd k fd none by rw [FileSys.setFd, hsame]] at hinv
  exact hinv

theorem sysDup {w : Word} (h : FilesInv K s []) (hk : (s.procs k).Ready)
    (hs : Xv6.sysDup s k w = some s') : FilesInv K s' [] := by
  unfold Xv6.sysDup at hs
  split at hs
  next => exact some.inj hs ▸ h
  next fd f hlookup =>
    split at hs
    next => exact some.inj hs ▸ h
    next fd' p hfd =>
      obtain ⟨files, hdup, rfl⟩ := map_eq_some_iff.mp hs
      obtain ⟨hfree, hofile⟩ := fdalloc_eq_some hfd
      rw [hofile]
      exact (h.dup hdup).place hfree hk.alive

theorem sysCloseFd {w : Word} (h : FilesInv K s []) (hs : Xv6.sysCloseFd K s k w = some s') :
    FilesInv K s' [] := by
  unfold Xv6.sysCloseFd at hs
  split at hs
  next => exact some.inj hs ▸ h
  next fd f hlookup =>
    obtain ⟨s1, hclose, hinv, -⟩ := (h.hold (lookupFd_eq_some hlookup)).close
    rw [hclose] at hs
    exact some.inj hs ▸ hinv

theorem closeOld (h : FilesInv K s []) (k : ProcIdx) (fd : Fd) :
    ∃ s', Xv6.closeOld K s k fd = some s' ∧ FilesInv K (s'.setFd k fd none) [] ∧
      s'.procs = s.procs := by
  unfold Xv6.closeOld
  cases hslot : (s.procs k).ofile fd with
  | none =>
    have hsame : s.setFd k fd none = s := by
      unfold FileSys.setFd FileSys.setFds
      rw [← hslot, update_eq_self, update_eq_self]
    exact ⟨s, rfl, by rwa [hsame], rfl⟩
  | some f2 => exact h.closeSlot hslot

theorem dupTo {fd : Fd} (h : FilesInv K (s.setFd k fd none) []) (hk : (s.procs k).Ready)
    (hs : Xv6.dupTo s k fd f = some s') : FilesInv K s' [] := by
  obtain ⟨files, hdup, rfl⟩ := map_eq_some_iff.mp hs
  have hfree : (s.setFd k fd none).slots (k, fd) = none := by
    rw [slots_setFd, update_self]
  have halive : ((s.setFd k fd none).procs k).state.alive = true := by
    simpa [FileSys.setFd, FileSys.setFds] using hk.alive
  have hplaced := FilesInv.place (h.dup hdup) hfree halive
  have hsame : ({ s.setFd k fd none with files := files } : FileSys M).setFd k fd (some f)
      = { s.setFd k fd (some f) with files := files } := by
    simp [FileSys.setFd, FileSys.setFds]
  rwa [hsame] at hplaced

/-- The file that is closed may be the one that is duplicated: then two slots refer to it. -/
theorem sysDup2 {old new : Word} (h : FilesInv K s []) (hk : (s.procs k).Ready)
    (hs : Xv6.sysDup2 K s k old new = some s') : FilesInv K s' [] := by
  unfold Xv6.sysDup2 at hs
  split at hs
  next => exact some.inj hs ▸ h
  next fd f1 hlookup =>
    split at hs
    next hnew =>
      split at hs
      next => exact some.inj hs ▸ h
      next hne =>
        obtain ⟨s1, hs1, hs⟩ := bind_eq_some_iff.mp hs
        obtain ⟨s2, hclose, hinv, hprocs⟩ := h.closeOld k ⟨new.toNat, hnew⟩
        rw [hclose] at hs1
        cases hs1
        exact hinv.dupTo (by rwa [hprocs]) hs
    next => exact some.inj hs ▸ h

theorem opened (h : FilesInv K s hand) (ff : File M) (htype : (s.files f).type = .none)
    (hff : ff.type = .inode) (href : ff.ref = (s.files f).ref) (hone : (s.files f).ref ≠ 0) :
    FilesInv K { s with files := update s.files f ff } hand := by
  obtain ⟨role, hp⟩ := h.pipes
  refine ⟨⟨role, hp.setFile ?_ (fun hc => ?_) fun hc => ?_⟩, fun g => ?_, h.idle⟩
  · rw [File.pipeEnd, File.pipeEnd, if_neg (by simp [hff]), if_neg (by simp [htype])]
  · exact absurd (href.symm.trans hc) hone
  · rw [hff] at hc
    cases hc
  · have hc := h.counts g
    show (update s.files f ff g).ref = refCount s.slots g + _
    rw [update_apply]
    grind

theorem sysOpenFd {r w : Bool} (h : FilesInv K s []) (hk : (s.procs k).Ready)
    (hs : Xv6.sysOpenFd K s k r w = some s') : FilesInv K s' [] := by
  unfold Xv6.sysOpenFd at hs
  split at hs
  next => exact some.inj hs ▸ h
  next f files halloc =>
    obtain ⟨hinv, htype, href, -⟩ := h.alloc halloc
    split at hs
    next =>
      obtain ⟨s1, hclose, hinv', -⟩ := hinv.close
      rw [hclose] at hs
      exact some.inj hs ▸ hinv'
    next fd p hfd =>
      cases hs
      obtain ⟨hfree, hofile⟩ := fdalloc_eq_some hfd
      rw [hofile]
      have hopen := hinv.opened ((files f).opened r w) htype rfl rfl (by simp [href])
      exact hopen.place hfree hk.alive

/-- The order in which references are held does not matter. -/
theorem perm {hand' : List FileIdx} (h : FilesInv K s hand) (hperm : hand.Perm hand') :
    FilesInv K s hand' :=
  ⟨h.pipes, fun f => by rw [h.counts, hperm.count_eq], h.idle⟩

theorem closeEnds {rf wf : FileIdx} (h : FilesInv K s [rf, wf])
    (hs : Xv6.closeEnds K s rf wf = some s') : FilesInv K s' [] := by
  obtain ⟨s1, hclose, hinv, -⟩ := h.close
  obtain ⟨s2, hclose', hinv', -⟩ := hinv.close
  unfold Xv6.closeEnds at hs
  rw [hclose, bind_some, hclose'] at hs
  exact some.inj hs ▸ hinv'

/-- A file that has just been allocated is given back, and no page with it. -/
theorem closeFresh (h : FilesInv K s (f :: hand)) (href : (s.files f).ref = 1)
    (htype : (s.files f).type = .none) :
    fileclose K s.km s.files f = some (s.km, update s.files f (s.files f).closed) ∧
      FilesInv K { s with files := update s.files f (s.files f).closed } hand := by
  have hfile : fileclose K s.km s.files f = some (s.km, update s.files f (s.files f).closed) :=
    fileclose_last href (by simp [htype])
  obtain ⟨s', hclose, hinv, -⟩ := h.close
  unfold closeFile at hclose
  rw [hfile, map_some, leave_of_freelist_eq rfl] at hclose
  exact ⟨hfile, some.inj hclose ▸ hinv⟩

/-- A new pipe, with both references in the hands of the call. -/
theorem makePipe {f0 f1 : FileIdx} (h : FilesInv K s hand) (hne : f0 ≠ f1)
    (hp : s.km.freelist = some p) (h0 : (s.files f0).type = .none)
    (h1 : (s.files f1).type = .none) (hr0 : (s.files f0).ref ≠ 0) (hr1 : (s.files f1).ref ≠ 0) :
    FilesInv K (s.withPipe p f0 f1) hand := by
  obtain ⟨role, hpipes⟩ := h.pipes
  refine ⟨⟨_, hpipes.makePipe hne hp h0 h1 hr0 hr1⟩, fun g => ?_, h.idle⟩
  have href : ((s.withPipe p f0 f1).files g).ref = (s.files g).ref := ref_pipeFiles g
  rw [href]
  exact h.counts g

/-- What `pipealloc` leaves when it fails, and the two references it returns. -/
theorem pipealloc {r : Option (FileIdx × FileIdx) × Kmem M × Ftable M} (h : FilesInv K s [])
    (hs : Xv6.pipealloc K s.km s.files = some r) :
    match r with
    | (none, m, files) => FilesInv K (s.leave m files) []
    | (some (rf, wf), m, files) => FilesInv K (s.makePipe m files rf wf) [rf, wf] := by
  unfold Xv6.pipealloc at hs
  split at hs
  next =>
    cases hs
    show FilesInv K (s.leave s.km s.files) []
    rwa [leave_of_freelist_eq rfl]
  next f0 files halloc =>
    obtain ⟨hinv, htype, href, -⟩ := h.alloc halloc
    split at hs
    next =>
      obtain ⟨hclose, hinv'⟩ := hinv.closeFresh href htype
      rw [hclose] at hs
      cases hs
      show FilesInv K (s.leave s.km _) []
      rwa [leave_of_freelist_eq rfl]
    next f1 files' halloc' =>
      obtain ⟨hinv', htype', href', hnot⟩ := hinv.alloc halloc'
      have hne : f0 ≠ f1 := fun he => hnot (by simp [he])
      -- the second allocation has left the first file as it was
      have hfirst : files' f0 = files f0 := by
        obtain ⟨g, -, heq⟩ := map_eq_some_iff.mp halloc'
        cases heq
        exact update_of_ne hne ..
      have hboth := hinv'.perm (List.Perm.swap f0 f1 [])
      split at hs
      next m hkalloc =>
        obtain rfl : m = s.km := by
          unfold kalloc at hkalloc
          split at hkalloc
          · exact (Prod.mk.inj hkalloc).2.symm
          · cases hkalloc
        obtain ⟨hclose, hone⟩ := hboth.closeFresh (by simp [hfirst, href]) (by simp [hfirst, htype])
        have hother : update files' f0 (files' f0).closed f1 = files' f1 :=
          update_of_ne hne.symm ..
        obtain ⟨hclose', hnone⟩ := hone.closeFresh (by simp [hother, href'])
          (by simp [hother, htype'])
        obtain rfl : (none, s.km, _) = r := by
          simpa only [show fileclose K s.km files' f0 = _ from hclose, bind_eq_bind,
            bind_some, show fileclose K s.km (update files' f0 _) f1 = _ from hclose',
            some.injEq] using hs
        show FilesInv K (s.leave s.km _) []
        rwa [leave_of_freelist_eq rfl]
      next p m hkalloc =>
        cases hs
        obtain ⟨hhead, rfl⟩ : s.km.freelist = some p ∧
            m = { s.km with freelist := runNext s.km p } := by
          unfold kalloc at hkalloc
          split at hkalloc
          · cases hkalloc
          next q hq =>
            obtain ⟨hqp, rfl⟩ := Prod.mk.inj hkalloc
            cases hqp
            exact ⟨hq, rfl⟩
        exact hboth.makePipe hne hhead (by simp [hfirst, htype]) htype' (by simp [hfirst, href])
          (by simp [href'])

theorem sysPipeFds (h : FilesInv K s []) (hk : (s.procs k).Ready)
    (hs : Xv6.sysPipeFds K s k = some s') : FilesInv K s' [] := by
  unfold Xv6.sysPipeFds at hs
  split at hs
  next => cases hs
  next m files halloc =>
    cases hs
    exact h.pipealloc halloc
  next rf wf m files halloc =>
    have hmade : FilesInv K (s.makePipe m files rf wf) [rf, wf] := h.pipealloc halloc
    split at hs
    next => exact hmade.closeEnds hs
    next fd0 p hfd0 =>
      obtain ⟨hfree, hofile⟩ := fdalloc_eq_some hfd0
      split at hs
      next =>
        -- the descriptor of the read end is given up again
        have hsame : (s.makePipe m files rf wf).setFds k (update p.ofile fd0 none)
            = s.makePipe m files rf wf := by
          rw [hofile, update_idem, ← hfree, update_eq_self]
          unfold FileSys.setFds
          rw [show (s.makePipe m files rf wf).procs = s.procs from rfl, update_eq_self]
          rfl
        rw [hsame] at hs
        exact hmade.closeEnds hs
      next fd1 p' hfd1 =>
        cases hs
        obtain ⟨hfree', hofile'⟩ := fdalloc_eq_some hfd1
        have hone := hmade.place (k := k) hfree hk.alive
        have hslot : ((s.makePipe m files rf wf).setFd k fd0 (some rf)).slots (k, fd1) = none := by
          simpa [FileSys.slots, FileSys.setFd, FileSys.setFds, FileSys.makePipe, hofile]
            using hfree'
        have htwo := hone.place hslot
          (by simpa [FileSys.setFd, FileSys.setFds, FileSys.makePipe] using hk.alive)
        rw [hofile', hofile]
        simpa [FileSys.setFd, FileSys.setFds, FileSys.makePipe] using htwo

/-- The state of a process changes; a process that is not alive has no descriptors. -/
theorem setState {st : ProcState} (h : FilesInv K s hand)
    (hst : st.alive = true ∨ ∀ fd, s.slots (k, fd) = none) : FilesInv K (s.setState k st) hand := by
  obtain ⟨role, hp⟩ := h.pipes
  have hslots : (s.setState k st).slots = s.slots := by
    funext ⟨j, fd⟩
    simp only [FileSys.slots, FileSys.setState, update_apply]
    split <;> simp_all
  refine ⟨⟨role, hp.setProcs _⟩, ?_, fun j hj fd => ?_⟩
  · rw [hslots]
    exact h.counts
  rw [hslots]
  by_cases hjk : j = k
  · subst hjk
    obtain hst | hst := hst
    · simp [FileSys.setState, hst] at hj
    · exact hst fd
  · exact h.idle j (by simpa [FileSys.setState, update_of_ne hjk] using hj) fd

/-- The loop of `fork`: what it has duplicated is in the slots of the child. -/
theorem forkLoop {np : ProcIdx} (p : Proc M) (halive : (s.procs np).state.alive = true) :
    ∀ (l : List Fd) (files : Ftable M) (ofile : Fd → Option FileIdx)
      {r : Ftable M × (Fd → Option FileIdx)}, l.Nodup → (∀ fd ∈ l, ofile fd = none) →
      FilesInv K ({ s with files := files }.setFds np ofile) [] →
      l.foldlM (forkFile p) (files, ofile) = some r →
      FilesInv K ({ s with files := r.1 }.setFds np r.2) [] := by
  intro l
  induction l with
  | nil =>
    intro files ofile r _ _ h hr
    cases hr
    exact h
  | cons fd l ih =>
    intro files ofile r hnodup hnone h hr
    obtain ⟨hfd, hl⟩ := nodup_cons.mp hnodup
    obtain ⟨⟨files1, ofile1⟩, h1, hr⟩ := bind_eq_some_iff.mp hr
    unfold forkFile at h1
    split at h1
    next =>
      cases h1
      exact ih files ofile hl (fun fd' hfd' => hnone fd' (mem_cons_of_mem _ hfd')) h hr
    next f hf =>
      obtain ⟨files2, hdup, heq⟩ := map_eq_some_iff.mp h1
      obtain ⟨rfl, rfl⟩ := Prod.mk.inj heq
      refine ih files2 _ hl (fun fd' hfd' => ?_) ?_ hr
      · rw [update_of_ne (ne_of_mem_of_not_mem hfd' hfd)]
        exact hnone fd' (mem_cons_of_mem _ hfd')
      have hfree : (({ s with files := files2 } : FileSys M).setFds np ofile).slots (np, fd)
          = none := by
        simpa [FileSys.slots, FileSys.setFds] using hnone fd mem_cons_self
      have hplaced := (h.dup hdup).place hfree (by simpa [FileSys.setFds] using halive)
      simpa [FileSys.setFd, FileSys.setFds] using hplaced

theorem forkFds {np : ProcIdx} (h : FilesInv K s [])
    (hnp : (s.procs np).state = .unused) (hs : Xv6.forkFds s k np = some s') :
    FilesInv K s' [] := by
  obtain ⟨r, hloop, rfl⟩ := map_eq_some_iff.mp hs
  have hnone : ∀ fd, s.slots (np, fd) = none := h.idle np (by rw [hnp]; rfl)
  have hstart : FilesInv K (s.setState np .runnable) [] := h.setState (.inl rfl)
  have halive : ((s.setState np .runnable).procs np).state.alive = true := by
    simp [FileSys.setState, ProcState.alive]
  have hbegin : FilesInv K ({ s.setState np .runnable with files := s.files }.setFds np
      (s.procs np).ofile) [] := by
    simpa [FileSys.setState, FileSys.setFds] using hstart
  have hend := forkLoop (s.procs k) halive (finRange nofile) s.files (s.procs np).ofile
    (nodup_finRange _) (fun fd _ => hnone fd) hbegin hloop
  simpa [FileSys.setState, FileSys.setFds] using hend

theorem exitTurn {fd : Fd} (h : FilesInv K s []) (hs : Xv6.exitTurn K k s fd = some s') :
    FilesInv K s' [] ∧ ∀ r, s'.slots r = if r = (k, fd) then none else s.slots r := by
  unfold Xv6.exitTurn at hs
  split at hs
  next hslot =>
    cases hs
    refine ⟨h, fun r => ?_⟩
    split
    next hr => exact hr ▸ hslot
    next => rfl
  next f hslot =>
    obtain ⟨s1, hclose, hinv, hprocs⟩ := h.closeSlot (k := k) hslot
    rw [hclose] at hs
    cases hs
    refine ⟨hinv, fun r => ?_⟩
    have hslots : s1.slots = s.slots := by
      unfold FileSys.slots
      rw [hprocs]
    rw [slots_setFd, update_apply, hslots]

theorem exitFds (h : FilesInv K s []) (hs : Xv6.exitFds K s k = some s') : FilesInv K s' [] := by
  obtain ⟨s1, hloop, rfl⟩ := map_eq_some_iff.mp hs
  obtain ⟨hinv, hclosed⟩ : FilesInv K s1 [] ∧
      ∀ fd ∈ finRange nofile, s1.slots (k, fd) = none := by
    refine foldlM_rule (P := fun done s => FilesInv K s [] ∧ ∀ fd ∈ done, s.slots (k, fd) = none)
      hloop ⟨h, nofun⟩ ?_
    rintro done fd s1 s2 - ⟨h1, hdone⟩ hturn
    obtain ⟨h2, hslots⟩ := h1.exitTurn hturn
    refine ⟨h2, fun fd' hfd' => ?_⟩
    rw [hslots]
    split
    next => rfl
    next hne =>
      obtain hfd' | hfd' := mem_append.mp hfd'
      · exact hdone fd' hfd'
      · exact absurd (by rw [mem_singleton.mp hfd']) hne
  exact hinv.setState (.inr fun fd => hclosed fd (mem_finRange fd))

end FilesInv

/-! ### The rest of the kernel leaves pipes alone -/

theorem Pipes.otherPages {m : Kmem M} {others : Ppn M → Bool} {role' : Ppn M → Role M}
    (h : Pipes K s role) (howned : Owned K m role')
    (hothers : ∀ q, others q = true ↔ role' q = .held)
    (hpipe : ∀ q, role' q = .pipe ↔ role q = .pipe)
    (hmem : ∀ q, role q = .pipe → m.mem q = s.km.mem q) :
    Pipes K { s with km := m, others := others } role' where
  owned := howned
  others := hothers
  idle := h.idle
  pipe := h.pipe
  pages := fun q => (hpipe q).trans (h.pages q)
  one_end := h.one_end
  flag := fun q w hq => by
    have hload : m.load (q, endFlag w) = s.km.load (q, endFlag w) :=
      congrFun (hmem q ((hpipe q).mp hq)) _
    rw [hload]
    exact h.flag q w ((hpipe q).mp hq)
  number := h.number
  owner_lt := fun q hq => h.owner_lt q ((hpipe q).mp hq)
  owner_inj := fun q q' hq hq' => h.owner_inj q q' ((hpipe q).mp hq) ((hpipe q').mp hq')
  freed_lt := h.freed_lt
  freed_opened := h.freed_opened
  freed_once := h.freed_once

theorem FilesInv.takePage (h : FilesInv K s []) : FilesInv K (takePage s) [] := by
  obtain ⟨role, hp⟩ := h.pipes
  unfold Xv6.takePage kalloc
  split
  next m hkalloc =>
    have hm : m = s.km := by
      split at hkalloc
      · exact (Prod.mk.inj hkalloc).2.symm
      · cases hkalloc
    subst hm
    exact h
  next p m hkalloc =>
    split at hkalloc
    next => cases hkalloc
    next q hq =>
      obtain ⟨hqp, rfl⟩ := Prod.mk.inj hkalloc
      cases hqp
      obtain ⟨hfree, howned⟩ := hp.owned.pop hq
      refine ⟨⟨_, hp.otherPages howned (fun r => ?_) (fun r => ?_) fun _ _ => rfl⟩, h.counts,
        h.idle⟩
      · have hr := hp.others r
        rw [update_apply, update_apply]
        split <;> simp_all
      · exact update_eq_iff (by rw [hfree]; simp) (by simp)

theorem FilesInv.givePage (h : FilesInv K s []) (hp : s.others p = true) :
    ∃ m, kfree K s.km p = some m ∧
      FilesInv K { s with km := m, others := update s.others p false } [] := by
  obtain ⟨role, hpipes⟩ := h.pipes
  have hheld : role p = .held := (hpipes.others p).mp hp
  obtain ⟨hfree, howned⟩ := hpipes.owned.kfree (by rw [hheld]; trivial) (by rw [hheld]; simp)
  refine ⟨_, hfree, ⟨_, hpipes.otherPages howned (fun r => ?_) (fun r => ?_) fun r hr => ?_⟩,
    h.counts, h.idle⟩
  · have hr := hpipes.others r
    rw [update_apply, update_apply]
    split <;> simp_all
  · exact update_eq_iff (by rw [hheld]; simp) (by simp)
  · exact Owned.mem_freed_of_ne (ne_of_role hr hheld (by simp))

theorem FilesInv.writePage {g : Fin nptentries → Word} (h : FilesInv K s [])
    (hp : s.others p = true) : FilesInv K { s with km := s.km.fill p g } [] := by
  obtain ⟨role, hpipes⟩ := h.pipes
  have hheld : role p = .held := (hpipes.others p).mp hp
  have howned := hpipes.owned.fill (f := g) (by rw [hheld]; trivial) (by rw [hheld]; simp)
  exact ⟨⟨role, hpipes.otherPages howned hpipes.others (fun _ => Iff.rfl) fun r hr =>
    mem_fill_of_ne (ne_of_role hr hheld (by simp))⟩, h.counts, h.idle⟩

/-! ### Runs -/

theorem fileStep_inv {a : FileAct M} (h : FilesInv K s []) (hs : fileStep K s a = some s') :
    FilesInv K s' [] := by
  cases a with
  | openInode k r w =>
    obtain ⟨hk, hs⟩ := ite_none_right_eq_some.mp hs
    exact h.sysOpenFd hk hs
  | dup k fd =>
    obtain ⟨hk, hs⟩ := ite_none_right_eq_some.mp hs
    exact h.sysDup hk hs
  | dup2 k old new =>
    obtain ⟨hk, hs⟩ := ite_none_right_eq_some.mp hs
    exact h.sysDup2 hk hs
  | pipe k =>
    obtain ⟨hk, hs⟩ := ite_none_right_eq_some.mp hs
    exact h.sysPipeFds hk hs
  | close k fd =>
    obtain ⟨hk, hs⟩ := ite_none_right_eq_some.mp hs
    exact h.sysCloseFd hs
  | fork k np =>
    obtain ⟨⟨-, hnp⟩, hs⟩ := ite_none_right_eq_some.mp hs
    exact h.forkFds hnp hs
  | exit k =>
    obtain ⟨hk, hs⟩ := ite_none_right_eq_some.mp hs
    exact h.exitFds hs
  | reap k =>
    obtain ⟨hk, rfl⟩ := ite_some_none_eq_some.mp hs
    exact h.setState (.inr (h.idle k (by rw [hk]; rfl)))
  | take => exact some.inj hs ▸ h.takePage
  | give p =>
    obtain ⟨hp, hs⟩ := ite_none_right_eq_some.mp hs
    obtain ⟨m, hfree, hinv⟩ := h.givePage hp
    rw [hfree] at hs
    exact some.inj hs ▸ hinv
  | write p g =>
    obtain ⟨hp, hs⟩ := ite_none_right_eq_some.mp hs
    exact some.inj hs ▸ h.writePage hp

theorem filesInv_start (K : Linker M) (mem : Ppn M → Fin nptentries → Word) :
    FilesInv K (fileStart K mem) [] := by
  have hslots : (fileStart K mem).slots = fun _ => none := by
    funext ⟨k, fd⟩
    simp only [FileSys.slots, fileStart, update_apply]
    split <;> rfl
  have hrole : ∀ p, Owned.unclaimed K p ≠ .pipe := by
    intro p hc
    obtain h | h := Owned.unclaimed_cases K p <;> rw [h] at hc <;> cases hc
  refine ⟨⟨Owned.unclaimed K, ?_⟩, fun f => ?_, fun k _ fd => by rw [hslots]⟩
  · refine ⟨.start _ rfl, fun p => ?_, fun _ _ => rfl, nofun, fun p => ?_, nofun,
      fun p _ hp => absurd hp (hrole p), nofun, fun p hp => absurd hp (hrole p),
      fun p _ hp => absurd hp (hrole p), nofun, ?_, nofun⟩
    · show decide (K.endPage ≤ p.val) = true ↔ _
      unfold Owned.unclaimed
      split <;> simp <;> omega
    · exact iff_of_false (hrole p) nofun
    · rintro i ⟨f, hf, -⟩
      cases hf
  · have hzero : refCount (fun _ : ProcIdx × Fd => (none : Option FileIdx)) f = 0 :=
      refCount_eq_zero.mpr (by simp)
    rw [hslots, hzero]
    rfl

/-- **Reference counts of open files, and the pages of pipes.** -/
theorem files_counted {mem : Ppn M → Fin nptentries → Word}
    (hrun : Run (fileStep K) (fun _ _ => True) (fileStart K mem) s) :
    (∀ f, (s.files f).ref = refCount s.slots f) ∧
    (∀ k, (s.procs k).state.alive = false → ∀ fd, (s.procs k).ofile fd = none) ∧
    (∀ k fd f, (s.procs k).ofile fd = some f → (s.files f).ref ≠ 0) ∧
    ∀ i < s.made,
      ((∃ k fd f, (s.procs k).ofile fd = some f ∧ (s.files f).type = .pipe ∧ s.pipeNo f = i) →
        s.freed.count i = 0) ∧
      (¬ (∃ k fd f, (s.procs k).ofile fd = some f ∧ (s.files f).type = .pipe ∧ s.pipeNo f = i) →
        s.freed.count i = 1) := by
  have h : FilesInv K s [] :=
    hrun.inv (filesInv_start K mem) fun _ _ _ h _ hs => fileStep_inv h hs
  obtain ⟨role, hp⟩ := h.pipes
  have hend : ∀ f, (s.files f).pipeEnd.isSome ↔ (s.files f).type = .pipe := by
    intro f
    have hpipe := hp.pipe f
    unfold File.pipeEnd
    split <;> simp_all
  have hopened : ∀ i, s.Opened i ↔
      ∃ k fd f, (s.procs k).ofile fd = some f ∧ (s.files f).type = .pipe ∧ s.pipeNo f = i := by
    intro i
    constructor
    · rintro ⟨f, hf, hi⟩
      have htype := (hend f).mp hf
      -- a file of a type is referred to by some slot
      have href : refCount s.slots f ≠ 0 := by
        intro hc
        have hidle := hp.idle f (by rw [h.counts, hc]; rfl)
        rw [htype] at hidle
        cases hidle
      obtain ⟨⟨k, fd⟩, hslot⟩ : ∃ r, s.slots r = some f := by
        by_contra hno
        exact href (refCount_eq_zero.mpr fun r hr => hno ⟨r, hr⟩)
      exact ⟨k, fd, f, hslot, htype, hi⟩
    · rintro ⟨k, fd, f, -, htype, hi⟩
      exact ⟨f, (hend f).mpr htype, hi⟩
  refine ⟨fun f => (h.counts f).trans (by simp), h.idle, fun k fd f hf => ?_,
    fun i hi => ⟨fun ho => ?_, fun hno => ?_⟩⟩
  · have hslot : s.slots (k, fd) = some f := hf
    exact Nat.one_le_iff_ne_zero.mp (h.ref_pos_of_slot hslot)
  · exact count_eq_zero.mpr (hp.freed_opened i ((hopened i).mpr ho))
  · exact hp.freed_once i hi fun ho => hno ((hopened i).mp ho)

/-- Two pages come to the free list.  A pipe is made, its read end duplicated onto its write
end and onto a third descriptor, the child of a `fork` exits, and the parent closes all. -/
def pipeDuplicated : List (FileAct tinyMachine) :=
  [.give 260, .give 261, .openInode 0 true true, .pipe 0, .dup2 0 1 2, .dup2 0 1 1, .dup2 0 1 7,
    .fork 0 1, .dup 1 7, .exit 1, .close 0 1, .close 0 7, .pipe 0, .close 0 2]

theorem files_counted_duplicated :
    (pipeDuplicated.foldlM (fileStep tinyLinker) (fileStart tinyLinker fun _ _ => 0)).map
        (fun s => (s.made, s.freed, (s.files 0).ref, (s.files 1).ref, (s.files 2).ref))
      = some (2, [0], 1, 0, 1) ∧
    ∀ s, pipeDuplicated.foldlM (fileStep tinyLinker) (fileStart tinyLinker fun _ _ => 0) = some s →
      (∀ f, (s.files f).ref = refCount s.slots f) ∧
      (∀ k, (s.procs k).state.alive = false → ∀ fd, (s.procs k).ofile fd = none) ∧
      (∀ k fd f, (s.procs k).ofile fd = some f → (s.files f).ref ≠ 0) ∧
      ∀ i < s.made,
        ((∃ k fd f, (s.procs k).ofile fd = some f ∧ (s.files f).type = .pipe ∧ s.pipeNo f = i) →
          s.freed.count i = 0) ∧
        (¬ (∃ k fd f, (s.procs k).ofile fd = some f ∧ (s.files f).type = .pipe ∧
          s.pipeNo f = i) → s.freed.count i = 1) :=
  ⟨by decide +kernel, fun _ h => files_counted (.of_foldlM h fun _ _ _ => trivial)⟩

end Xv6
