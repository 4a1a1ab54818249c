/-
Who holds the entries of the inode cache.

Between system calls the references of an entry are the pointers to it; a call that is running
has some of its own.  An inode without links is pointed to, so that a reference which a call drops
on its way is never the last one to such an inode: the call gives inodes back only where it has
just let go of a pointer or taken away a link.  Until then the table of inodes is as it was, and
the entries that the call holds are for the same inodes.
-/
import Os.Proofs.Xv6.Balance
import Os.Proofs.Xv6.Slots

namespace Xv6

open Prog Function

variable {n : Nat} {s s' s'' : Fs n} {ip : InodePtr} {x : Option Nat}
variable {e : InodePtr} {i : Nat} {u : Unit}

/-- The references that the variables of a call have. -/
abbrev Own := InodePtr → Nat

def one (ip : InodePtr) : Own := Pi.single ip 1

@[simp] theorem one_self (ip : InodePtr) : one ip ip = 1 := Pi.single_eq_same ..

theorem one_of_ne (h : e ≠ ip) : one ip e = 0 := Pi.single_eq_of_ne h ..

variable {own own' : Own}

/-- The entries are held by the pointers and by `own`.  The inode `x` is about to be let go. -/
structure Held (own : Own) (x : Option Nat) (s : Fs n) : Prop where
  refs : ∀ e, (s.icache e).ref = s.pointers e + own e
  dev : ∀ e, 0 < (s.icache e).ref → (s.icache e).dev = rootdev
  unique : ∀ e e', 0 < (s.icache e).ref → 0 < (s.icache e').ref →
    (s.icache e).inum = (s.icache e').inum → e = e'
  valid : ∀ e, 0 < (s.icache e).ref → (s.icache e).valid = true → (s.inodeOf e).type ≠ .free
  pointed : ∀ e, 0 < s.pointers e → (s.inodeOf e).type ≠ .free
  orphan : ∀ i, x ≠ some i → (s.inode i).type ≠ .free → (s.inode i).nlink = 0 →
    ∃ e, (s.icache e).valid = true ∧ (s.icache e).inum = i ∧ 0 < s.pointers e

/-- The pointers are the same, and the entries in `own` and under pointers are for the same
inodes. -/
structure Same (own : Own) (s s' : Fs n) : Prop where
  ninodes : s'.ninodes = s.ninodes
  cwd : s'.cwd = s.cwd
  file : s'.file = s.file
  entry : ∀ e, 0 < s.pointers e + own e → (s'.icache e).inum = (s.icache e).inum ∧
    ((s.icache e).valid = true → (s'.icache e).valid = true)

theorem pointers_nonneg (s : Fs n) (e : InodePtr) : 0 ≤ s.pointers e := by
  unfold Fs.pointers
  omega

namespace Same

theorem pointers (h : Same own s s') (e : InodePtr) : s'.pointers e = s.pointers e := by
  unfold Fs.pointers
  rw [h.cwd, h.file]

theorem refl (own : Own) (s : Fs n) : Same own s s :=
  ⟨rfl, rfl, rfl, fun _ _ => ⟨rfl, id⟩⟩

theorem trans (h : Same own s s') (h' : Same own s' s'') : Same own s s'' := by
  refine ⟨h'.ninodes.trans h.ninodes, h'.cwd.trans h.cwd, h'.file.trans h.file, fun e he => ?_⟩
  obtain ⟨h1, h2⟩ := h.entry e he
  obtain ⟨h1', h2'⟩ := h'.entry e (by rw [h.pointers]; exact he)
  exact ⟨h1'.trans h1, h2' ∘ h2⟩

theorem mono (h : Same own' s s') (hle : ∀ e, own e ≤ own' e) : Same own s s' := by
  refine ⟨h.ninodes, h.cwd, h.file, fun e he => h.entry e ?_⟩
  have := hle e
  omega

theorem none (h : Same own s s') : Same 0 s s' := h.mono fun _ => Nat.zero_le _

theorem of_add (h : Same (own + own') s s') : Same own s s' :=
  h.mono fun _ => Nat.le_add_right ..

theorem inum (h : Same own s s') (he : 0 < own e) :
    (s'.icache e).inum = (s.icache e).inum :=
  (h.entry e (by have := pointers_nonneg s e; omega)).1

theorem valid (h : Same own s s') (he : 0 < own e) (hv : (s.icache e).valid = true) :
    (s'.icache e).valid = true :=
  (h.entry e (by have := pointers_nonneg s e; omega)).2 hv

theorem of_entries (hn : s'.ninodes = s.ninodes) (hcwd : s'.cwd = s.cwd) (hfile : s'.file = s.file)
    (hentry : ∀ e, (s'.icache e).inum = (s.icache e).inum ∧
      ((s.icache e).valid = true → (s'.icache e).valid = true)) : Same own s s' :=
  ⟨hn, hcwd, hfile, fun e _ => hentry e⟩

end Same

/-- The table of inodes is the same too. -/
structure Quiet (own : Own) (s s' : Fs n) : Prop extends Same own s s' where
  inode : s'.inode = s.inode

namespace Quiet

theorem refl (own : Own) (s : Fs n) : Quiet own s s := ⟨.refl _ _, rfl⟩

theorem trans (h : Quiet own s s') (h' : Quiet own s' s'') : Quiet own s s'' :=
  ⟨h.toSame.trans h'.toSame, h'.inode.trans h.inode⟩

theorem none (h : Quiet own s s') : Quiet 0 s s' := ⟨h.toSame.none, h.inode⟩

theorem of_add (h : Quiet (own + own') s s') : Quiet own s s' := ⟨h.toSame.of_add, h.inode⟩

end Quiet

theorem setEntry_self (s : Fs n) (ip : InodePtr) (y : CachedInode) :
    (s.setEntry ip y).icache ip = y := update_self ..

theorem setEntry_of_ne (h : e ≠ ip) (s : Fs n) (y : CachedInode) :
    (s.setEntry ip y).icache e = s.icache e := update_of_ne h ..

namespace Held

section

variable (h : Held own x s)
include h

theorem live (ip : InodePtr) (hip : 0 < own ip) : 0 < (s.icache ip).ref := by
  have := h.refs ip
  have := pointers_nonneg s ip
  omega

theorem live_of_pointers (hip : 0 < s.pointers ip) :
    0 < (s.icache ip).ref := by
  have := h.refs ip
  omega

theorem setEntry {y : CachedInode}
    (hdev : y.dev = (s.icache ip).dev) (hinum : y.inum = (s.icache ip).inum)
    (hvalid : (s.icache ip).valid = true → y.valid = true)
    (halloc : 0 < y.ref → y.valid = true → (s.inodeOf ip).type ≠ .free)
    (hlive : 0 < y.ref → 0 < (s.icache ip).ref) (href : y.ref = s.pointers ip + own' ip)
    (hown : ∀ e, e ≠ ip → own' e = own e) :
    Held own' x (s.setEntry ip y) ∧ Same own s (s.setEntry ip y) := by
  have hentry : ∀ e, ((s.setEntry ip y).icache e).inum = (s.icache e).inum ∧
      ((s.setEntry ip y).icache e).dev = (s.icache e).dev ∧
      ((s.icache e).valid = true → ((s.setEntry ip y).icache e).valid = true) ∧
      (0 < ((s.setEntry ip y).icache e).ref → 0 < (s.icache e).ref) ∧
      (0 < ((s.setEntry ip y).icache e).ref → ((s.setEntry ip y).icache e).valid = true →
        (s.inodeOf e).type ≠ .free) := by
    intro e
    by_cases he : e = ip
    · subst he
      rw [setEntry_self]
      exact ⟨hinum, hdev, hvalid, hlive, halloc⟩
    · rw [setEntry_of_ne he]
      exact ⟨rfl, rfl, id, id, h.valid e⟩
  have hinode : ∀ e, (s.setEntry ip y).inodeOf e = s.inodeOf e := by
    intro e
    unfold Fs.inodeOf
    rw [(hentry e).1]
    rfl
  refine ⟨⟨fun e => ?_, fun e he => ?_, fun e e' he he' heq => ?_, fun e he hv => ?_,
    fun e he => ?_, fun i hx hi h0 => ?_⟩, ?_⟩
  · by_cases he : e = ip
    · subst he
      rw [setEntry_self, href]
      rfl
    · rw [setEntry_of_ne he, hown e he]
      exact h.refs e
  · rw [(hentry e).2.1]
    exact h.dev e ((hentry e).2.2.2.1 he)
  · rw [(hentry e).1, (hentry e').1] at heq
    exact h.unique e e' ((hentry e).2.2.2.1 he) ((hentry e').2.2.2.1 he') heq
  · rw [hinode]
    exact (hentry e).2.2.2.2 he hv
  · rw [hinode]
    exact h.pointed e he
  · obtain ⟨e, hv, hinum, hp⟩ := h.orphan i hx hi h0
    exact ⟨e, (hentry e).2.2.1 hv, (hentry e).1.trans hinum, hp⟩
  · exact .of_entries rfl rfl rfl fun e => ⟨(hentry e).1, (hentry e).2.2.1⟩

theorem addRef (hlive : 0 < (s.icache ip).ref) :
    Held (own + one ip) x (s.addRef ip 1) ∧ Same own s (s.addRef ip 1) := by
  refine h.setEntry rfl rfl id (fun _ => h.valid ip hlive) (fun _ => hlive) ?_ fun e he => ?_
  · have := h.refs ip
    simp only [Pi.add_apply, one_self]
    omega
  · simp [one_of_ne he]

theorem setLocked (ip : InodePtr) (locked : Bool) :
    Held own x (s.setLocked ip locked) ∧ Same own s (s.setLocked ip locked) :=
  h.setEntry rfl rfl id (h.valid ip) id (h.refs ip) fun _ _ => rfl

theorem setValid (halloc : (s.inodeOf ip).type ≠ .free) :
    Held own x (s.setValid ip true) ∧ Same own s (s.setValid ip true) :=
  h.setEntry rfl rfl (fun _ => rfl) (fun _ _ => halloc) id (h.refs ip) fun _ _ => rfl

/-- A free entry is taken for an inode that no entry in use is for. -/
theorem recycle (hzero : (s.icache ip).ref = 0)
    (hnone : ∀ e, 0 < (s.icache e).ref → (s.icache e).inum ≠ i) :
    Held (own + one ip) x (s.recycle ip rootdev i) ∧ Same own s (s.recycle ip rootdev i) := by
  have hrefs := h.refs ip
  have hself : (s.recycle ip rootdev i).icache ip =
      { s.icache ip with dev := rootdev, inum := i, ref := 1, valid := false } :=
    setEntry_self ..
  have hother : ∀ e, e ≠ ip → (s.recycle ip rootdev i).icache e = s.icache e :=
    fun e he => setEntry_of_ne he ..
  refine ⟨⟨fun e => ?_, fun e he => ?_, fun e e' he he' heq => ?_, fun e he hv => ?_,
    fun e he => ?_, fun j hx hj h0 => ?_⟩, rfl, rfl, rfl, fun e he => ?_⟩
  · by_cases hip : e = ip
    · subst hip
      rw [hself]
      change (1 : Int) = s.pointers e + (own e + one e e : Nat)
      rw [one_self]
      omega
    · rw [hother e hip]
      change _ = s.pointers e + (own e + one ip e : Nat)
      rw [one_of_ne hip]
      exact h.refs e
  · by_cases hip : e = ip
    · rw [hip, hself]
    · rw [hother e hip] at he ⊢
      exact h.dev e he
  · by_cases hip : e = ip <;> by_cases hip' : e' = ip
    · rw [hip, hip']
    · rw [hother e' hip'] at he' heq
      rw [hip, hself] at heq
      exact absurd heq.symm (hnone e' he')
    · rw [hother e hip] at he heq
      rw [hip', hself] at heq
      exact absurd heq (hnone e he)
    · rw [hother e hip] at he heq
      rw [hother e' hip'] at he' heq
      exact h.unique e e' he he' heq
  · by_cases hip : e = ip
    · rw [hip, hself] at hv
      cases hv
    · rw [Fs.inodeOf, hother e hip]
      rw [hother e hip] at he hv
      exact h.valid e he hv
  · have hip : e ≠ ip := by
      rintro rfl
      have : 0 < s.pointers e := he
      omega
    rw [Fs.inodeOf, hother e hip]
    exact h.pointed e he
  · obtain ⟨e, hv, hinum, hp⟩ := h.orphan j hx hj h0
    have hip : e ≠ ip := by
      rintro rfl
      omega
    exact ⟨e, by rw [hother e hip]; exact hv, by rw [hother e hip]; exact hinum, hp⟩
  · have hip : e ≠ ip := by
      rintro rfl
      omega
    rw [hother e hip]
    exact ⟨rfl, id⟩

theorem setInode {y : Inode} {x' : Option Nat} (hy : y.type ≠ .free)
    (hx : ∀ j, j ≠ i → x' ≠ some j → x ≠ some j) (horphan : x' ≠ some i → y.nlink = 0 →
      ∃ e, (s.icache e).valid = true ∧ (s.icache e).inum = i ∧ 0 < s.pointers e) :
    Held own x' (s.setInode i y) ∧ Same own s (s.setInode i y) := by
  have hinode : ∀ e, (s.inodeOf e).type ≠ .free → ((s.setInode i y).inodeOf e).type ≠ .free := by
    intro e he
    change (Function.update s.inode i y (s.icache e).inum).type ≠ .free
    by_cases hi : (s.icache e).inum = i
    · rwa [hi, update_self]
    · rwa [update_of_ne hi]
  refine ⟨⟨h.refs, h.dev, h.unique, fun e he hv => hinode e (h.valid e he hv),
    fun e he => hinode e (h.pointed e he), fun j hj hfree h0 => ?_⟩,
    .of_entries rfl rfl rfl fun _ => ⟨rfl, id⟩⟩
  by_cases hi : j = i
  · subst hi
    exact horphan hj (by simpa [Fs.setInode] using h0)
  · have hsame : (s.setInode i y).inode j = s.inode j := update_of_ne hi ..
    rw [hsame] at hfree h0
    exact h.orphan j (hx j hi hj) hfree h0

theorem move {x' : Option Nat} (hinode : s'.inode = s.inode)
    (hcache : s'.icache = s.icache)
    (hsum : ∀ e, s'.pointers e + own' e = s.pointers e + own e)
    (hpointed : ∀ e, 0 < s'.pointers e → 0 < s.pointers e ∨ (s.inodeOf e).type ≠ .free)
    (horphan : ∀ e, x' ≠ some (s.icache e).inum → 0 < s.pointers e → 0 < s'.pointers e)
    (hx : ∀ j, x' ≠ some j → x ≠ some j) : Held own' x' s' := by
  have hof : ∀ e, s'.inodeOf e = s.inodeOf e := by
    intro e
    unfold Fs.inodeOf
    rw [hinode, hcache]
  refine ⟨fun e => ?_, ?_, ?_, fun e => ?_, fun e he => ?_, fun i hi hfree h0 => ?_⟩
  · rw [hcache, hsum, h.refs]
  · rw [hcache]
    exact h.dev
  · rw [hcache]
    exact h.unique
  · rw [hof, hcache]
    exact h.valid e
  · rw [hof]
    exact (hpointed e he).elim (h.pointed e) id
  · rw [hinode] at hfree h0
    obtain ⟨e, hv, hinum, hp⟩ := h.orphan i (hx i hi) hfree h0
    rw [hcache]
    exact ⟨e, hv, hinum, horphan e (by rw [hinum]; exact hi) hp⟩

end

end Held

/-! ### The functions of the cache -/

theorem iget_held (h : Held own x s) (hget : iget rootdev i s = .ok (ip, s')) :
    Held (own + one ip) x s' ∧ Quiet own s s' ∧ (s'.icache ip).inum = i := by
  obtain ⟨hfor, rfl⟩ | ⟨hfor, hempty, rfl⟩ := iget_ok hget
  · have hfound := List.find?_some hfor
    simp only [decide_eq_true_eq] at hfound
    obtain ⟨hheld, hsame⟩ := h.addRef hfound.1
    refine ⟨hheld, ⟨hsame, rfl⟩, ?_⟩
    rw [Fs.addRef, setEntry_self]
    exact hfound.2.2
  · obtain ⟨hheld, hsame⟩ := h.recycle (i := i) (emptyEntry_ref hempty) fun e he hinum => by
      have hnone := List.find?_eq_none.mp hfor e (List.mem_finRange e)
      simp [he, h.dev e he, hinum] at hnone
    exact ⟨hheld, ⟨hsame, rfl⟩, by rw [Fs.recycle, setEntry_self]⟩

theorem ilock_held (h : Held own x s) (hlock : ilock ip s = .ok (u, s')) :
    Held own x s' ∧ Quiet own s s' ∧ (s'.icache ip).valid = true ∧
    (s'.icache ip).inum = (s.icache ip).inum ∧ (s.inodeOf ip).type ≠ .free := by
  obtain ⟨hlive, hlock⟩ := ite_throw_ok.mp hlock
  obtain ⟨u1, s3, hacq, hread⟩ := bind_ok.mp hlock
  obtain ⟨-, rfl⟩ := acquiresleep_ok hacq
  obtain ⟨hheld, hsame⟩ := h.setLocked ip true
  have hself : (s.setLocked ip true).icache ip = { s.icache ip with locked := true } :=
    setEntry_self ..
  have hinode : (s.setLocked ip true).inodeOf ip = s.inodeOf ip := by
    unfold Fs.inodeOf
    rw [hself]
    rfl
  obtain ⟨hv, rfl⟩ | ⟨-, hfree, rfl⟩ := readInode_ok hread
  · refine ⟨hheld, ⟨hsame, rfl⟩, hv, by rw [hself], ?_⟩
    rw [hself] at hv
    exact h.valid ip (by omega) hv
  obtain ⟨hheld', hsame'⟩ := hheld.setValid hfree
  rw [hinode] at hfree
  refine ⟨hheld', ⟨hsame.trans hsame', rfl⟩, ?_, ?_, hfree⟩
  · rw [Fs.setValid, setEntry_self]
  · rw [Fs.setValid, setEntry_self]
    rw [hself]

theorem iunlock_held (h : Held own x s) (hunlock : iunlock ip s = .ok (u, s')) :
    Held own x s' ∧ Quiet own s s' ∧ s'.icache = (s.setLocked ip false).icache := by
  obtain ⟨-, rfl⟩ := iunlock_ok hunlock
  obtain ⟨hheld, hsame⟩ := h.setLocked ip false
  exact ⟨hheld, ⟨hsame, rfl⟩, rfl⟩

/-- The state after `iput`. -/
def Fs.putRef (s : Fs n) (ip : InodePtr) : Fs n :=
  (((s.setLocked ip true).freed ip).setLocked ip false).addRef ip (-1)

theorem lastRef_setLocked (s : Fs n) (ip : InodePtr) (locked : Bool) :
    (s.setLocked ip locked).lastRef ip = s.lastRef ip := by
  unfold Fs.lastRef Fs.inodeOf
  rw [Fs.setLocked, setEntry_self]
  rfl

/-- The lock is free, so locking and unlocking change nothing. -/
theorem putRef_keep (hl : (s.icache ip).locked = false) (hlast : s.lastRef ip = false) :
    s.putRef ip = s.addRef ip (-1) := by
  unfold Fs.putRef Fs.freed
  rw [lastRef_setLocked, hlast, if_neg Bool.false_ne_true]
  simp [Fs.addRef, Fs.setLocked, Fs.setEntry, hl]

theorem putRef_last (hlast : s.lastRef ip = true) :
    s.putRef ip = ((s.setInode (s.icache ip).inum ⟨.free, 0, []⟩).setEntry ip
      { s.icache ip with valid := false, ref := 0, locked := false }) := by
  unfold Fs.putRef Fs.freed
  rw [lastRef_setLocked, if_pos hlast]
  simp only [Fs.lastRef, Bool.and_eq_true, decide_eq_true_eq] at hlast
  simp [Fs.addRef, Fs.setLocked, Fs.setEntry, Fs.freeInode, Fs.setValid, Fs.setInode, Fs.inodeOf,
    hlast.2, ← hlast.1.2]

theorem Held.dropRef (h : Held (own + one ip) x s) :
    Held own x (s.addRef ip (-1)) ∧ Same own s (s.addRef ip (-1)) := by
  have hrefs := h.refs ip
  have hlive := h.live ip (by simp)
  simp only [Pi.add_apply, one_self] at hrefs
  have hdrop : Held own x (s.addRef ip (-1)) ∧ Same (own + one ip) s (s.addRef ip (-1)) :=
    h.setEntry rfl rfl id (fun _ => h.valid ip hlive) (fun _ => hlive) (by dsimp only; omega)
      fun e he => by simp [one_of_ne he]
  exact ⟨hdrop.1, hdrop.2.of_add⟩

theorem iput_held (h : Held (own + one ip) none s) (hput : iput ip s = .ok (u, s')) :
    Held own none s' ∧ Quiet own s s' := by
  obtain ⟨hl, rfl⟩ := iput_ok hput
  have hrefs := h.refs ip
  have hlive := h.live ip (by simp)
  have hlast : s.lastRef ip = false := by
    by_contra hc
    simp only [Fs.lastRef, Bool.not_eq_false, Bool.and_eq_true, decide_eq_true_eq] at hc
    obtain ⟨⟨hv, h0⟩, hone⟩ := hc
    obtain ⟨e, -, hinum, hp⟩ := h.orphan _ nofun (h.valid ip hlive hv) h0
    obtain rfl := h.unique e ip (h.live_of_pointers hp) hlive hinum
    simp only [Pi.add_apply, one_self] at hrefs
    omega
  change Held own none (s.putRef ip) ∧ Quiet own s (s.putRef ip)
  rw [putRef_keep hl hlast]
  exact ⟨h.dropRef.1, h.dropRef.2, rfl⟩

theorem iunlockput_held (h : Held (own + one ip) none s) (hput : iunlockput ip s = .ok (u, s')) :
    Held own none s' ∧ Quiet own s s' := by
  obtain ⟨u1, s1, hunlock, hput⟩ := bind_ok.mp hput
  obtain ⟨hheld, hsame, -⟩ := iunlock_held h hunlock
  obtain ⟨hheld', hsame'⟩ := iput_held hheld hput
  exact ⟨hheld', hsame.of_add.trans hsame'⟩

/-- The last reference of a call to the inode it lets go. -/
theorem Held.putRef_own (h : Held (one ip) (some (s.icache ip).inum) s)
    (hl : (s.icache ip).locked = false)
    (hv : (s.inodeOf ip).type ≠ .free → (s.inodeOf ip).nlink = 0 → (s.icache ip).valid = true) :
    Held 0 none (s.putRef ip) ∧ (s.putRef ip).ninodes = s.ninodes ∧
    ((s.putRef ip).inode = s.inode ∨ Freed s.inode (s.putRef ip).inode (s.icache ip).inum) := by
  have hrefs := h.refs ip
  have hlive := h.live ip (by simp)
  rw [one_self] at hrefs
  by_cases hlast : s.lastRef ip = true
  · rw [putRef_last hlast]
    simp only [Fs.lastRef, Bool.and_eq_true, decide_eq_true_eq] at hlast
    obtain ⟨⟨hvalid, h0⟩, hone⟩ := hlast
    have hother : ∀ e, e ≠ ip → 0 < (s.icache e).ref → (s.icache e).inum ≠ (s.icache ip).inum :=
      fun e he hpos heq => he (h.unique e ip hpos hlive heq)
    set i := (s.icache ip).inum with hi
    have hself : ((s.setInode i ⟨.free, 0, []⟩).setEntry ip
        { s.icache ip with valid := false, ref := 0, locked := false }).icache ip =
        { s.icache ip with valid := false, ref := 0, locked := false } := setEntry_self ..
    have hoff : ∀ e, e ≠ ip → ((s.setInode i ⟨.free, 0, []⟩).setEntry ip
        { s.icache ip with valid := false, ref := 0, locked := false }).icache e = s.icache e :=
      fun e he => setEntry_of_ne he ..
    have hdead : ∀ e, 0 < (((s.setInode i ⟨.free, 0, []⟩).setEntry ip
        { s.icache ip with valid := false, ref := 0, locked := false }).icache e).ref → e ≠ ip := by
      rintro e he rfl
      rw [hself] at he
      exact lt_irrefl _ he
    have hzero : s.pointers ip = 0 := by omega
    have hinode : ∀ j, j ≠ i → ((s.setInode i ⟨.free, 0, []⟩).setEntry ip
        { s.icache ip with valid := false, ref := 0, locked := false }).inode j = s.inode j :=
      fun j hj => update_of_ne hj ..
    refine ⟨⟨fun e => ?_, fun e he => ?_, fun e e' he he' heq => ?_, fun e he hvalid' => ?_,
      fun e he => ?_, fun j _ hj hj0 => ?_⟩, rfl, .inr ⟨h0, rfl⟩⟩
    · by_cases hip : e = ip
      · subst hip
        rw [hself]
        exact hzero.symm
      · rw [hoff e hip, h.refs, one_of_ne hip]
        rfl
    · have hip := hdead e he
      rw [hoff e hip] at he ⊢
      exact h.dev e he
    · have hip := hdead e he
      have hip' := hdead e' he'
      rw [hoff e hip] at he heq
      rw [hoff e' hip'] at he' heq
      exact h.unique e e' he he' heq
    · have hip := hdead e he
      rw [hoff e hip] at he hvalid'
      rw [Fs.inodeOf, hoff e hip, hinode _ (hother e hip he)]
      exact h.valid e he hvalid'
    · have hip : e ≠ ip := by
        rintro rfl
        have : 0 < s.pointers e := he
        omega
      rw [Fs.inodeOf, hoff e hip, hinode _ (hother e hip (h.live_of_pointers he))]
      exact h.pointed e he
    · have hji : j ≠ i := by
        rintro rfl
        exact hj (by simp [Fs.setEntry, Fs.setInode])
      rw [hinode j hji] at hj hj0
      obtain ⟨e, hvalid', hinum, hp⟩ := h.orphan j (by simpa using hji.symm) hj hj0
      have hip : e ≠ ip := by
        rintro rfl
        omega
      rw [← hoff e hip] at hvalid' hinum
      exact ⟨e, hvalid', hinum, hp⟩
  · rw [Bool.not_eq_true] at hlast
    rw [putRef_keep hl hlast]
    rw [show one ip = 0 + one ip from (zero_add _).symm] at h
    obtain ⟨hheld, -⟩ := h.dropRef
    refine ⟨⟨hheld.refs, hheld.dev, hheld.unique, hheld.valid, hheld.pointed, fun j _ hj hj0 => ?_⟩,
      rfl, .inl rfl⟩
    by_cases hji : some (s.icache ip).inum = some j
    · cases hji
      have hvalid := hv hj hj0
      -- The inode has no links and was not freed: somebody points to it.
      have hp : 0 < s.pointers ip := by
        by_contra hp
        simp only [Fs.lastRef, hvalid, Bool.true_and, Bool.and_eq_false_iff,
          decide_eq_false_iff_not] at hlast
        rcases hlast with hc | hc
        · exact hc hj0
        · exact hc (by omega)
      refine ⟨ip, ?_, ?_, hp⟩
      · rw [Fs.addRef, setEntry_self]
        exact hvalid
      · rw [Fs.addRef, setEntry_self]
    · exact hheld.orphan j hji hj hj0

end Xv6
