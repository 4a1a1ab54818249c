/-
Every call gives back what it takes.

The account of a state lists the references of each cache entry, the locks that are held and the
transactions that are open.  A function costs what it adds to the account; the costs of the
functions that a system call is made of add up along each of its paths, whatever the directories
hold, and for a whole call they cancel, except for the pointer it leaves in an open file or in a
process.
-/
import Mathlib.Algebra.Group.Pi.Lemmas
import Mathlib.Algebra.Group.Prod
import Mathlib.Tactic.Abel
import Os.Lib.Prog
import Os.Lib.RefMap
import Os.Xv6.Sysfile

namespace Xv6

open Prog RefMap Runs Option Function

variable {n : Nat} {α β : Type}
variable {a : α} {p : Fin n} {ip : InodePtr} {u : Unit} {x : Option InodePtr}

/-! ### Costs add up along a path -/

/-- References, locks and transactions. -/
def Account : Type := (InodePtr → Int) × (InodePtr → Int) × Int

instance : AddCommGroup Account :=
  inferInstanceAs (AddCommGroup ((InodePtr → Int) × (InodePtr → Int) × Int))

namespace Fs

def refs (s : Fs n) : InodePtr → Int := fun e => (s.icache e).ref

def locks (s : Fs n) : InodePtr → Int := fun e => if (s.icache e).locked then 1 else 0

def account (s : Fs n) : Account := (s.refs, s.locks, s.outstanding)

end Fs

/-- A change of one entry. -/
def anEntry (e : InodePtr) (k l : Int) : Account := (Pi.single e k, Pi.single e l, 0)

/-- One reference to the entry. -/
def aRef (e : InodePtr) : Account := anEntry e 1 0

/-- The lock of the entry. -/
def aLock (e : InodePtr) : Account := anEntry e 0 1

/-- One transaction. -/
def anOp : Account := (0, 0, 1)

/-- The program adds `d` of its result to the account and leaves the pointers alone. -/
def Costs (c : FsM n α) (d : α → Account) : Prop :=
  ∀ s a s', c s = .ok (a, s') → s'.account = s.account + d a ∧ s'.cwd = s.cwd ∧ s'.file = s.file

namespace Costs

variable {c : FsM n α} {f : α → FsM n β} {d d1 : α → Account} {d2 : β → Account}

theorem pure (h : d a = 0) : Costs (pure a : FsM n α) d := by
  intro s b s' hs
  obtain ⟨rfl, rfl⟩ := pure_ok.mp hs
  exact ⟨by rw [h, add_zero], rfl, rfl⟩

theorem throw (e : Stop) : Costs (throw e : FsM n α) d := by
  intro s a s' hs
  exact (throw_ok.mp hs).elim

/-- What is left to pay behind the first program is the rest. -/
theorem bind (hc : Costs c d1) (hf : ∀ a, Costs (f a) fun b => d2 b - d1 a) :
    Costs (c >>= f) d2 := by
  intro s b s'' h
  obtain ⟨a, s', hca, hfa⟩ := bind_ok.mp h
  obtain ⟨hacc1, hcwd1, hfile1⟩ := hc s a s' hca
  obtain ⟨hacc2, hcwd2, hfile2⟩ := hf a s' b s'' hfa
  refine ⟨?_, hcwd2.trans hcwd1, hfile2.trans hfile1⟩
  rw [hacc2, hacc1]
  dsimp only
  abel

theorem get_bind {f : Fs n → FsM n β} (hf : ∀ s, Costs (f s) d2) : Costs (get >>= f) d2 := by
  have hget : Costs (get : FsM n (Fs n)) fun _ => 0 := by
    intro s a s' h
    obtain ⟨rfl, rfl⟩ := get_ok.mp h
    exact ⟨(add_zero _).symm, rfl, rfl⟩
  exact hget.bind fun s => by simpa using hf s

theorem ite {p : Prop} [Decidable p] {c' : FsM n α} (hc : Costs c d) (hc' : Costs c' d) :
    Costs (if p then c else c') d := by
  split
  · exact hc
  · exact hc'

end Costs

/-! ### What one write to the cache costs -/

theorem refs_setEntry (s : Fs n) (e : InodePtr) (x : CachedInode) :
    (s.setEntry e x).refs = update s.refs e x.ref := by
  funext e'
  simp only [Fs.refs, Fs.setEntry, update_apply]
  split <;> rfl

theorem locks_setEntry (s : Fs n) (e : InodePtr) (x : CachedInode) :
    (s.setEntry e x).locks = update s.locks e (if x.locked then 1 else 0) := by
  funext e'
  simp only [Fs.locks, Fs.setEntry, update_apply]
  split <;> rfl

theorem update_eq_add_single (v : InodePtr → Int) (e : InodePtr) (k : Int) :
    update v e (v e + k) = v + Pi.single e k := by
  funext e'
  simp only [update_apply, Pi.add_apply, Pi.single_apply]
  split
  next h => rw [h]
  next => simp

theorem account_setEntry (s : Fs n) (e : InodePtr) (x : CachedInode) {k l : Int}
    (href : x.ref = (s.icache e).ref + k)
    (hlock : (if x.locked then 1 else 0) = (if (s.icache e).locked then 1 else 0) + l) :
    (s.setEntry e x).account = s.account + anEntry e k l := by
  have hr : update s.refs e x.ref = s.refs + Pi.single e k := by
    rw [href]
    exact update_eq_add_single s.refs e k
  have hl : update s.locks e (if x.locked then 1 else 0) = s.locks + Pi.single e l := by
    rw [hlock]
    exact update_eq_add_single s.locks e l
  unfold Fs.account
  rw [refs_setEntry, locks_setEntry, hr, hl]
  exact Prod.ext rfl (Prod.ext rfl (add_zero _).symm)

theorem neg_anEntry (e : InodePtr) (k l : Int) : -anEntry e k l = anEntry e (-k) (-l) := by
  have hneg : ∀ k : Int, -(Pi.single e k : InodePtr → Int) = Pi.single e (-k) := by
    intro k
    funext e'
    simp only [Pi.neg_apply, Pi.single_apply]
    split <;> simp
  exact Prod.ext (hneg k) (Prod.ext (hneg l) neg_zero)

theorem account_addRef (s : Fs n) (ip : InodePtr) (k : Int) :
    (s.addRef ip k).account = s.account + anEntry ip k 0 :=
  account_setEntry s ip _ rfl (add_zero _).symm

theorem account_lock {s : Fs n} (h : (s.icache ip).locked = false) :
    (s.setLocked ip true).account = s.account + aLock ip :=
  account_setEntry s ip _ (add_zero _).symm (by simp [h])

theorem account_unlock {s : Fs n} (h : (s.icache ip).locked = true) :
    (s.setLocked ip false).account = s.account + -aLock ip := by
  rw [aLock, neg_anEntry]
  exact account_setEntry s ip _ (add_zero _).symm (by simp [h])

theorem account_setValid (s : Fs n) (ip : InodePtr) (valid : Bool) :
    (s.setValid ip valid).account = s.account := by
  have hzero : anEntry ip 0 0 = 0 := by
    simp only [anEntry, Pi.single_zero]
    rfl
  have h := account_setEntry s ip { s.icache ip with valid := valid } (k := 0) (l := 0)
    (add_zero _).symm (add_zero _).symm
  rw [hzero, add_zero] at h
  exact h

theorem account_recycle {s : Fs n} (h : (s.icache ip).ref = 0) (dev : Word) (inum : Nat) :
    (s.recycle ip dev inum).account = s.account + aRef ip :=
  account_setEntry s ip _ (by simp [h]) (add_zero _).symm

/-! ### The functions of the inode cache -/

theorem changeFs_ok {f : Fs n → Fs n} {s s' : Fs n} :
    changeFs f s = .ok (u, s') ↔ s' = f s := by
  constructor
  · rintro ⟨⟩
    rfl
  · rintro rfl
    rfl

theorem costs_beginOp : Costs (fsBeginOp : FsM n Unit) fun _ => anOp := by
  intro s u s' h
  obtain rfl := changeFs_ok.mp h
  exact ⟨Prod.ext (add_zero _).symm (Prod.ext (add_zero _).symm rfl), rfl, rfl⟩

theorem costs_endOp : Costs (fsEndOp : FsM n Unit) fun _ => -anOp := by
  intro s u s' h
  obtain rfl := changeFs_ok.mp h
  refine ⟨Prod.ext ?_ (Prod.ext ?_ rfl), rfl, rfl⟩
  · exact (sub_zero s.refs).symm.trans (sub_eq_add_neg ..)
  · exact (sub_zero s.locks).symm.trans (sub_eq_add_neg ..)

theorem iget_ok {s s' : Fs n} {dev : Word} {inum : Nat} (h : iget dev inum s = .ok (ip, s')) :
    (entryFor s dev inum = some ip ∧ s' = s.addRef ip 1) ∨
    (entryFor s dev inum = none ∧ emptyEntry s = some ip ∧ s' = s.recycle ip dev inum) := by
  rw [iget, get_bind_ok] at h
  cases hfor : entryFor s dev inum with
  | some e =>
    rw [hfor, bind_ok] at h
    obtain ⟨u, s3, hset, h⟩ := h
    obtain ⟨rfl, rfl⟩ := pure_ok.mp h
    exact .inl ⟨rfl, set_ok.mp hset⟩
  | none =>
    rw [hfor] at h
    cases hempty : emptyEntry s with
    | some e =>
      rw [hempty, bind_ok] at h
      obtain ⟨u, s3, hset, h⟩ := h
      obtain ⟨rfl, rfl⟩ := pure_ok.mp h
      exact .inr ⟨rfl, rfl, set_ok.mp hset⟩
    | none =>
      rw [hempty] at h
      exact (throw_ok.mp h).elim

theorem emptyEntry_ref {s : Fs n} {e : InodePtr} (h : emptyEntry s = some e) :
    (s.icache e).ref = 0 := by
  simpa using List.find?_some h

theorem costs_iget (dev : Word) (inum : Nat) : Costs (iget dev inum : FsM n InodePtr) aRef := by
  intro s ip s' h
  obtain ⟨-, rfl⟩ | ⟨-, hempty, rfl⟩ := iget_ok h
  · exact ⟨account_addRef s ip 1, rfl, rfl⟩
  · exact ⟨account_recycle (emptyEntry_ref hempty) dev inum, rfl, rfl⟩

theorem costs_idup (ip : InodePtr) : Costs (idup ip : FsM n InodePtr) aRef := by
  rintro s _ _ ⟨⟩
  exact ⟨account_addRef s ip 1, rfl, rfl⟩

theorem acquiresleep_ok {s s' : Fs n} (h : acquiresleep ip s = .ok (u, s')) :
    (s.icache ip).locked = false ∧ s' = s.setLocked ip true := by
  obtain ⟨hl, h⟩ := ite_throw_ok.mp h
  exact ⟨by simpa using hl, set_ok.mp h⟩

theorem costs_acquiresleep (ip : InodePtr) :
    Costs (acquiresleep ip : FsM n Unit) fun _ => aLock ip := by
  intro s u s' h
  obtain ⟨hl, rfl⟩ := acquiresleep_ok h
  exact ⟨account_lock hl, rfl, rfl⟩

theorem readInode_ok {s s' : Fs n} (h : readInode ip s = .ok (u, s')) :
    ((s.icache ip).valid = true ∧ s' = s) ∨
    ((s.icache ip).valid = false ∧ (s.inodeOf ip).type ≠ .free ∧ s' = s.setValid ip true) := by
  obtain ⟨hv, h⟩ | ⟨hv, h⟩ := ite_ok.mp h
  · exact .inl ⟨hv, (pure_ok.mp h).2⟩
  · obtain ⟨ht, h⟩ := ite_throw_ok.mp h
    exact .inr ⟨by simpa using hv, ht, set_ok.mp h⟩

theorem costs_readInode (ip : InodePtr) : Costs (readInode ip : FsM n Unit) fun _ => 0 := by
  intro s u s' h
  obtain ⟨-, rfl⟩ | ⟨-, -, rfl⟩ := readInode_ok h
  · exact ⟨(add_zero _).symm, rfl, rfl⟩
  · exact ⟨(account_setValid s ip true).trans (add_zero _).symm, rfl, rfl⟩

theorem costs_ilock (ip : InodePtr) : Costs (ilock ip : FsM n Unit) fun _ => aLock ip := by
  refine .get_bind fun s => .ite (.throw _) ?_
  refine (costs_acquiresleep ip).bind fun _ => ?_
  simpa using costs_readInode ip

theorem iunlock_ok {s s' : Fs n} (h : iunlock ip s = .ok (u, s')) :
    (s.icache ip).locked = true ∧ s' = s.setLocked ip false := by
  obtain ⟨hl, h⟩ := ite_throw_ok.mp h
  exact ⟨by simpa using (not_or.mp hl).1, changeFs_ok.mp h⟩

theorem costs_iunlock (ip : InodePtr) : Costs (iunlock ip : FsM n Unit) fun _ => -aLock ip := by
  intro s u s' h
  obtain ⟨hl, rfl⟩ := iunlock_ok h
  exact ⟨account_unlock hl, rfl, rfl⟩

/-- The state in which `iput` unlocks the inode. -/
def Fs.freed (s : Fs n) (ip : InodePtr) : Fs n := if s.lastRef ip then s.freeInode ip else s

theorem iput_ok {s s' : Fs n} (h : iput ip s = .ok (u, s')) :
    (s.icache ip).locked = false ∧
    s' = (((s.setLocked ip true).freed ip).setLocked ip false).addRef ip (-1) := by
  rw [iput, bind_ok] at h
  obtain ⟨u1, s1, hacq, h⟩ := h
  obtain ⟨hl, rfl⟩ := acquiresleep_ok hacq
  obtain ⟨u2, s2, h2, h⟩ := bind_ok.mp h
  obtain rfl := changeFs_ok.mp h2
  obtain ⟨u3, s3, h3, h⟩ := bind_ok.mp h
  obtain rfl := changeFs_ok.mp h3
  exact ⟨hl, changeFs_ok.mp h⟩

theorem freed_frame (s : Fs n) (ip : InodePtr) :
    (s.freed ip).account = s.account ∧ (s.freed ip).cwd = s.cwd ∧ (s.freed ip).file = s.file ∧
    ((s.freed ip).icache ip).locked = (s.icache ip).locked := by
  unfold Fs.freed
  split
  · exact ⟨account_setValid _ ip false, rfl, rfl,
      by simp [Fs.freeInode, Fs.setValid, Fs.setEntry, Fs.setInode]⟩
  · exact ⟨rfl, rfl, rfl, rfl⟩

theorem costs_iput (ip : InodePtr) : Costs (iput ip : FsM n Unit) fun _ => -aRef ip := by
  intro s u s' h
  obtain ⟨hl, rfl⟩ := iput_ok h
  obtain ⟨hacc, hcwd, hfile, hlocked⟩ := freed_frame (s.setLocked ip true) ip
  refine ⟨?_, hcwd, hfile⟩
  rw [account_addRef, account_unlock (by rw [hlocked]; simp [Fs.setLocked, Fs.setEntry]), hacc,
    account_lock hl, aRef, neg_anEntry]
  abel

theorem costs_iunlockput (ip : InodePtr) :
    Costs (iunlockput ip : FsM n Unit) fun _ => -aLock ip - aRef ip := by
  refine (costs_iunlock ip).bind fun _ => ?_
  convert costs_iput ip using 2
  abel

theorem costs_iupdate (ip : InodePtr) (f : Inode → Inode) :
    Costs (iupdate ip f : FsM n Unit) fun _ => 0 := by
  intro s u s' h
  obtain rfl := changeFs_ok.mp h
  exact ⟨(add_zero _).symm, rfl, rfl⟩

theorem costs_ialloc (dev : Word) (type : InodeType) :
    Costs (ialloc dev type : FsM n InodePtr) aRef := by
  intro s ip s' h
  rw [ialloc, get_bind_ok] at h
  cases hfree : freeInum s with
  | none =>
    rw [hfree] at h
    exact (throw_ok.mp h).elim
  | some i =>
    rw [hfree, bind_ok] at h
    obtain ⟨u, s3, hset, h⟩ := h
    obtain rfl := set_ok.mp hset
    exact costs_iget dev i (s.setInode i ⟨type, 0, []⟩) ip s' h

/-! ### A lookup leaves one reference -/

/-- What a lookup leaves its caller with. -/
def found {γ : Type} : Option (InodePtr × γ) → Account
  | none => 0
  | some (ip, _) => aRef ip

theorem costs_dirlookup (dp : InodePtr) (name : Name) :
    Costs (dirlookup dp name : FsM n _) found := by
  refine .get_bind fun s => .ite (.throw _) ?_
  cases slotOf (s.inodeOf dp).slots name with
  | none => exact .pure rfl
  | some off => exact (costs_iget _ _).bind fun ip => .pure (by dsimp only [found]; abel)

theorem costs_dirlink (dp : InodePtr) (name : Name) (inum : Nat) :
    Costs (dirlink dp name inum : FsM n Bool) fun _ => 0 := by
  refine (costs_dirlookup dp name).bind fun r => ?_
  match r with
  | some (ip, off) => exact (costs_iput ip).bind fun _ => .pure (by dsimp only [found]; abel)
  | none =>
    refine .get_bind fun s => .ite (.throw _) ?_
    exact (costs_iupdate dp _).bind fun _ => .pure (by dsimp only [found]; abel)

theorem costs_namexLoop (parent : Bool) (path : List Name) (ip : InodePtr) :
    Costs (namexLoop parent path ip : FsM n _) fun r => found r - aRef ip := by
  induction path generalizing ip with
  | nil =>
    refine .ite ?_ (.pure (by dsimp only [found]; abel))
    exact (costs_iput ip).bind fun _ => .pure (by dsimp only [found]; abel)
  | cons name rest ih =>
    refine (costs_ilock ip).bind fun _ => .get_bind fun s => .ite ?_ (.ite ?_ ?_)
    · exact (costs_iunlockput ip).bind fun _ => .pure (by dsimp only [found]; abel)
    · exact (costs_iunlock ip).bind fun _ => .pure (by dsimp only [found]; abel)
    refine (costs_dirlookup ip name).bind fun r => ?_
    match r with
    | none => exact (costs_iunlockput ip).bind fun _ => .pure (by dsimp only [found]; abel)
    | some (next, off) =>
      refine (costs_iunlockput ip).bind fun _ => ?_
      convert ih next using 2
      abel

theorem costs_cwdOf (p : Fin n) : Costs (cwdOf p) fun _ => 0 := by
  refine .get_bind fun s => ?_
  cases s.cwd p with
  | none => exact .throw _
  | some ip => exact .pure rfl

theorem costs_namexStart (p : Fin n) (path : Path) : Costs (namexStart p path) aRef :=
  .ite (costs_iget _ _) ((costs_cwdOf p).bind fun ip => by simpa using costs_idup ip)

theorem costs_namex (p : Fin n) (path : Path) (parent : Bool) :
    Costs (namex p path parent) found :=
  (costs_namexStart p path).bind fun ip => costs_namexLoop _ _ ip

/-- What `namei` leaves its caller with. -/
def named : Option InodePtr → Account
  | none => 0
  | some ip => aRef ip

theorem costs_namei (p : Fin n) (path : Path) : Costs (namei p path) named := by
  refine (costs_namex p path false).bind fun r => ?_
  match r with
  | none => exact .pure (by dsimp only [found, named, Option.map]; abel)
  | some (ip, name) => exact .pure (by dsimp only [found, named, Option.map]; abel)

theorem costs_nameiparent (p : Fin n) (path : Path) : Costs (nameiparent p path) found :=
  costs_namex p path true

/-! ### The costs of a system call cancel -/

theorem costs_linkBad (ip : InodePtr) :
    Costs (linkBad ip : FsM n Bool) fun _ => -aRef ip - anOp := by
  refine (costs_ilock ip).bind fun _ => (costs_iupdate ip _).bind fun _ => ?_
  refine (costs_iunlockput ip).bind fun _ => costs_endOp.bind fun _ => .pure ?_
  abel

theorem costs_linkIn (ip dp : InodePtr) (name : Name) :
    Costs (linkIn ip dp name : FsM n Bool) fun _ => -aRef ip - aRef dp - aLock dp - anOp := by
  refine .get_bind fun s => .ite ?_ ?_
  · refine (costs_iunlockput dp).bind fun _ => ?_
    convert costs_linkBad ip using 2
    abel
  refine (costs_dirlink dp name _).bind fun ok => .ite ?_ ?_
  · refine (costs_iunlockput dp).bind fun _ => (costs_iput ip).bind fun _ => ?_
    exact costs_endOp.bind fun _ => .pure (by abel)
  · refine (costs_iunlockput dp).bind fun _ => ?_
    convert costs_linkBad ip using 2
    abel

theorem costs_linkInode (p : Fin n) (ip : InodePtr) (new : Path) :
    Costs (linkInode p ip new) fun _ => -aRef ip - anOp := by
  refine (costs_ilock ip).bind fun _ => .get_bind fun s => .ite ?_ ?_
  · refine (costs_iunlockput ip).bind fun _ => costs_endOp.bind fun _ => .pure ?_
    abel
  refine (costs_iupdate ip _).bind fun _ => (costs_iunlock ip).bind fun _ => ?_
  refine (costs_nameiparent p new).bind fun r => ?_
  match r with
  | none =>
    convert costs_linkBad ip using 2
    abel
  | some (dp, name) =>
    refine (costs_ilock dp).bind fun _ => ?_
    convert costs_linkIn ip dp name using 2
    dsimp only [found]
    abel

theorem costs_sysLink (p : Fin n) (old new : Option Path) :
    Costs (sysLink p old new) fun _ => 0 := by
  unfold sysLink
  split
  · refine costs_beginOp.bind fun _ => (costs_namei p _).bind fun r => ?_
    match r with
    | none => exact costs_endOp.bind fun _ => .pure (by dsimp only [named]; abel)
    | some ip =>
      convert costs_linkInode p ip _ using 2
      abel
  · exact .pure rfl

theorem costs_unlinkBad (dp : InodePtr) :
    Costs (unlinkBad dp : FsM n Bool) fun _ => -aRef dp - aLock dp - anOp := by
  refine (costs_iunlockput dp).bind fun _ => costs_endOp.bind fun _ => .pure ?_
  abel

theorem costs_unlinkEnd (dp ip : InodePtr) :
    Costs (unlinkEnd dp ip : FsM n Bool) fun _ =>
      -aRef ip - aLock ip - aRef dp - aLock dp - anOp := by
  refine (costs_iunlockput dp).bind fun _ => (costs_iupdate ip _).bind fun _ => ?_
  exact (costs_iunlockput ip).bind fun _ => costs_endOp.bind fun _ => .pure (by abel)

theorem costs_unlinkSlot (dp ip : InodePtr) (off : Nat) :
    Costs (unlinkSlot dp ip off : FsM n Bool) fun _ =>
      -aRef ip - aLock ip - aRef dp - aLock dp - anOp := by
  refine .get_bind fun s => .ite (.throw _) (.ite ?_ ?_)
  · refine (costs_iunlockput ip).bind fun _ => ?_
    convert costs_unlinkBad dp using 2
    abel
  refine (costs_iupdate dp _).bind fun _ => ?_
  rw [sub_zero]
  refine .ite ((costs_iupdate dp _).bind fun _ => ?_) (costs_unlinkEnd dp ip)
  rw [sub_zero]
  exact costs_unlinkEnd dp ip

theorem costs_unlinkIn (dp : InodePtr) (name : Name) :
    Costs (unlinkIn dp name : FsM n Bool) fun _ => -aRef dp - aLock dp - anOp := by
  refine .ite (costs_unlinkBad dp) ((costs_dirlookup dp name).bind fun r => ?_)
  match r with
  | none =>
    convert costs_unlinkBad dp using 2
    exact sub_zero _
  | some (ip, off) =>
    refine (costs_ilock ip).bind fun _ => ?_
    convert costs_unlinkSlot dp ip off using 2
    dsimp only [found]
    abel

theorem costs_sysUnlink (p : Fin n) (path : Option Path) : Costs (sysUnlink p path) fun _ => 0 := by
  cases path with
  | none => exact .pure rfl
  | some path =>
    refine costs_beginOp.bind fun _ => (costs_nameiparent p path).bind fun r => ?_
    match r with
    | none => exact costs_endOp.bind fun _ => .pure (by dsimp only [found]; abel)
    | some (dp, name) =>
      refine (costs_ilock dp).bind fun _ => ?_
      convert costs_unlinkIn dp name using 2
      dsimp only [found]
      abel

theorem costs_createDots (dp ip : InodePtr) :
    Costs (createDots dp ip : FsM n Unit) fun _ => 0 := by
  refine (costs_iupdate dp _).bind fun _ => .get_bind fun s => ?_
  refine (costs_dirlink ip dot _).bind fun _ => .ite ?_ (.throw _)
  exact (costs_dirlink ip dotdot _).bind fun _ => .ite (.pure (by abel)) (.throw _)

/-- What `create` leaves its caller with: the inode is locked. -/
def created : Option InodePtr → Account
  | none => 0
  | some ip => aRef ip + aLock ip

theorem costs_createEntry (dp ip : InodePtr) (name : Name) :
    Costs (createEntry dp ip name : FsM n _) fun r =>
      created r - aRef ip - aLock ip - aRef dp - aLock dp := by
  refine .get_bind fun s => (costs_dirlink dp name _).bind fun _ => .ite ?_ (.throw _)
  exact (costs_iunlockput dp).bind fun _ => .pure (by dsimp only [created]; abel)

theorem costs_createNew (dp : InodePtr) (name : Name) (type : InodeType) :
    Costs (createNew dp name type : FsM n _) fun r => created r - aRef dp - aLock dp := by
  refine .get_bind fun s => (costs_ialloc _ type).bind fun ip => (costs_ilock ip).bind fun _ => ?_
  refine (costs_iupdate ip _).bind fun _ => .ite ?_ ?_
  · refine (costs_createDots dp ip).bind fun _ => ?_
    convert costs_createEntry dp ip name using 2
    abel
  · convert costs_createEntry dp ip name using 2
    abel

theorem costs_createOld (dp ip : InodePtr) (type : InodeType) :
    Costs (createOld dp ip type : FsM n _) fun r => created r - aRef ip - aRef dp - aLock dp := by
  refine (costs_iunlockput dp).bind fun _ => (costs_ilock ip).bind fun _ => ?_
  refine .get_bind fun s => .ite (.pure (by dsimp only [created]; abel)) ?_
  exact (costs_iunlockput ip).bind fun _ => .pure (by dsimp only [created]; abel)

theorem costs_create (p : Fin n) (path : Path) (type : InodeType) :
    Costs (create p path type) created := by
  refine (costs_nameiparent p path).bind fun r => ?_
  match r with
  | none => exact .pure (by dsimp only [found, created]; abel)
  | some (dp, name) =>
    refine (costs_ilock dp).bind fun _ => (costs_dirlookup dp name).bind fun r => ?_
    match r with
    | none =>
      convert costs_createNew dp name type using 2
      dsimp only [found]
      abel
    | some (ip, off) =>
      convert costs_createOld dp ip type using 2
      dsimp only [found]
      abel

theorem costs_sysMake (p : Fin n) (path : Option Path) (type : InodeType) :
    Costs (sysMake p path type) fun _ => 0 := by
  refine costs_beginOp.bind fun _ => ?_
  cases path with
  | none => exact costs_endOp.bind fun _ => .pure (by abel)
  | some path =>
    refine (costs_create p path type).bind fun r => ?_
    match r with
    | none => exact costs_endOp.bind fun _ => .pure (by dsimp only [created]; abel)
    | some ip =>
      refine (costs_iunlockput ip).bind fun _ => costs_endOp.bind fun _ => .pure ?_
      dsimp only [created]
      abel

theorem costs_consoleIo (ip : InodePtr) : Costs (consoleIo ip : FsM n Unit) fun _ => 0 := by
  refine (costs_iunlock ip).bind fun _ => ?_
  convert costs_ilock ip using 2
  abel

theorem costs_inodeIo (ip : InodePtr) (driver : Bool) :
    Costs (inodeIo ip driver : FsM n Unit) fun _ => 0 :=
  .get_bind fun _ => .ite (costs_consoleIo ip) (.pure rfl)

theorem costs_execInode (p : Fin n) (path : Option Path) (driver loaded : Bool) :
    Costs (execInode p path driver loaded) fun _ => 0 := by
  cases path with
  | none => exact .pure rfl
  | some path =>
    refine costs_beginOp.bind fun _ => (costs_namei p path).bind fun r => ?_
    match r with
    | none => exact costs_endOp.bind fun _ => .pure (by dsimp only [named]; abel)
    | some ip =>
      refine (costs_ilock ip).bind fun _ => (costs_inodeIo ip driver).bind fun _ => ?_
      refine (costs_iunlockput ip).bind fun _ => costs_endOp.bind fun _ => .pure ?_
      dsimp only [named]
      abel

theorem costs_fileOf (f : FileIdx) : Costs (fileOf f : FsM n InodePtr) fun _ => 0 := by
  refine .get_bind fun s => ?_
  cases s.file f with
  | none => exact .throw _
  | some ip => exact .pure rfl

theorem costs_sysReadFile (f : FileIdx) (readable driver : Bool) :
    Costs (sysReadFile f readable driver : FsM n Bool) fun _ => 0 := by
  refine (costs_fileOf f).bind fun ip => .ite ?_ (.pure (by abel))
  refine (costs_ilock ip).bind fun _ => (costs_inodeIo ip driver).bind fun _ => ?_
  exact (costs_iunlock ip).bind fun _ => .pure (by abel)

theorem costs_writeChunks (ip : InodePtr) (driver : Bool) (chunks : List Bool) :
    Costs (writeChunks ip driver chunks : FsM n Unit) fun _ => 0 := by
  induction chunks with
  | nil => exact .pure rfl
  | cons good rest ih =>
    refine costs_beginOp.bind fun _ => (costs_ilock ip).bind fun _ => ?_
    refine (costs_inodeIo ip driver).bind fun _ => (costs_iunlock ip).bind fun _ => ?_
    refine costs_endOp.bind fun _ => .ite ?_ (.pure (by abel))
    convert ih using 2
    abel

theorem costs_sysWriteFile (f : FileIdx) (writable driver : Bool) (chunks : List Bool) :
    Costs (sysWriteFile f writable driver chunks : FsM n Bool) fun _ => 0 := by
  refine (costs_fileOf f).bind fun ip => .ite ?_ (.pure (by abel))
  exact (costs_writeChunks ip driver chunks).bind fun _ => .pure (by abel)

theorem costs_openOld (p : Fin n) (path : Path) (omode : Omode) :
    Costs (openOld p path omode) created := by
  refine (costs_namei p path).bind fun r => ?_
  match r with
  | none => exact .pure (by dsimp only [named, created]; abel)
  | some ip =>
    refine (costs_ilock ip).bind fun _ => .get_bind fun s => .ite ?_ ?_
    · refine (costs_iunlockput ip).bind fun _ => .pure ?_
      dsimp only [named, created]
      abel
    · exact .pure (by dsimp only [named, created]; abel)

theorem costs_openInode (p : Fin n) (path : Path) (omode : Omode) :
    Costs (openInode p path omode) created :=
  .ite (costs_create p path .file) (costs_openOld p path omode)

/-! ### What is left over is a pointer -/

namespace Fs

/-- How many processes and open files point to the entry. -/
def pointers (s : Fs n) (e : InodePtr) : Int := refCount s.cwd e + refCount s.file e

end Fs

/-- The reference that a pointer stands for. -/
def pointee : Option InodePtr → Account
  | none => 0
  | some ip => aRef ip

theorem pointee_refs (x : Option InodePtr) (e : InodePtr) :
    (pointee x).1 e = if x = some e then 1 else 0 := by
  cases x with
  | none => rfl
  | some ip =>
    simp only [pointee, aRef, anEntry, Pi.single_apply, some.injEq, eq_comm]

/-- The call returns with the locks and the transactions that it found, and with the references
that the pointers account for. -/
structure Settled (s s' : Fs n) : Prop where
  locked : ∀ e, (s'.icache e).locked = (s.icache e).locked
  outstanding : s'.outstanding = s.outstanding
  refs : ∀ e, (s'.icache e).ref - (s.icache e).ref = s'.pointers e - s.pointers e

namespace Settled

variable {s s1 s' : Fs n}

theorem of_account {d : Account} (hacc : s'.account = s.account + d)
    (hlocks : d.2 = 0) (hrefs : ∀ e, d.1 e = s'.pointers e - s.pointers e) : Settled s s' := by
  have href : s'.refs = s.refs + d.1 := congrArg Prod.fst hacc
  have hlock : s'.locks = s.locks + d.2.1 := congrArg (fun a : Account => a.2.1) hacc
  have hop : s'.outstanding = s.outstanding + d.2.2 := congrArg (fun a : Account => a.2.2) hacc
  refine ⟨fun e => ?_, ?_, fun e => ?_⟩
  · have he : s'.locks e = s.locks e := by
      rw [hlock, hlocks]
      exact add_zero _
    unfold Fs.locks at he
    cases h : (s.icache e).locked <;> cases h' : (s'.icache e).locked <;> simp_all
  · rw [hop, hlocks]
    exact add_zero _
  · have he : s'.refs e = s.refs e + d.1 e := congrFun href e
    unfold Fs.refs at he
    rw [he, hrefs e]
    omega

theorem of_costs {c : FsM n α} {d d' : Account} (hacc : s1.account = s.account + d)
    (hcwd : s1.cwd = s.cwd) (hfile : s1.file = s.file) (hc : Costs c fun _ => d')
    (hd : d + d' = 0) (h : c s1 = .ok (a, s')) : Settled s s' := by
  obtain ⟨hacc', hcwd', hfile'⟩ := hc s1 a s' h
  rw [hacc, add_assoc, hd] at hacc'
  refine of_account hacc' rfl fun e => ?_
  unfold Fs.pointers
  rw [hcwd', hfile', hcwd, hfile]
  exact (sub_self _).symm

theorem of_zero {c : FsM n α} (hc : Costs c fun _ => 0) (h : c s = .ok (a, s')) :
    Settled s s' :=
  of_costs (add_zero _).symm rfl rfl hc (add_zero 0) h

/-- A file is given a pointer to an inode, or loses it. -/
theorem file {f : FileIdx} (hacc : s1.account = s.account + (pointee x - pointee (s.file f)))
    (hcwd : s1.cwd = s.cwd) (hfile : s1.file = s.file) :
    Settled s { s1 with file := update s1.file f x } := by
  refine of_account hacc ?_ fun e => ?_
  · cases x <;> cases s.file f <;> simp [pointee, aRef, anEntry] <;> rfl
  have hcount := refCount_update s.file f x e
  change (pointee x).1 e - (pointee (s.file f)).1 e = _
  rw [pointee_refs, pointee_refs]
  simp only [Fs.pointers, hcwd, hfile]
  split_ifs at hcount ⊢ <;> omega

theorem cwd (hacc : s1.account = s.account + (pointee x - pointee (s.cwd p)))
    (hcwd : s1.cwd = s.cwd) (hfile : s1.file = s.file) :
    Settled s { s1 with cwd := update s1.cwd p x } := by
  refine of_account hacc ?_ fun e => ?_
  · cases x <;> cases s.cwd p <;> simp [pointee, aRef, anEntry] <;> rfl
  have hcount := refCount_update s.cwd p x e
  change (pointee x).1 e - (pointee (s.cwd p)).1 e = _
  rw [pointee_refs, pointee_refs]
  simp only [Fs.pointers, hcwd, hfile]
  split_ifs at hcount ⊢ <;> omega

end Settled

section Calls

variable {s s' : Fs n}

theorem openFile_settled {s0 : Fs n} {fd : Bool} {r : Option FileIdx}
    (hacc : s.account = s0.account + (anOp + created (some ip))) (hcwd : s.cwd = s0.cwd)
    (hfile : s.file = s0.file) (h : openFile ip fd s = .ok (r, s')) : Settled s0 s' := by
  rw [openFile, get_bind_ok] at h
  have hclose : Costs (do iunlockput ip; fsEndOp; return none : FsM n (Option FileIdx)) fun _ =>
      -(anOp + created (some ip)) :=
    (costs_iunlockput ip).bind fun _ => costs_endOp.bind fun _ =>
      .pure (by dsimp only [created]; abel)
  cases hfree : freeFile s with
  | none =>
    rw [hfree] at h
    exact .of_costs hacc hcwd hfile hclose (add_neg_cancel _) h
  | some f =>
    rw [hfree] at h
    cases fd with
    | false => exact .of_costs hacc hcwd hfile hclose (add_neg_cancel _) h
    | true =>
      have hnone : s0.file f = none := by simpa [hfile] using List.find?_some hfree
      obtain ⟨u1, s3, hunlock, h⟩ := bind_ok.mp h
      obtain ⟨u2, s4, hend, h⟩ := bind_ok.mp h
      obtain ⟨u3, hset, rfl⟩ := bind_pure_ok.mp h
      obtain rfl := changeFs_ok.mp hset
      obtain ⟨hacc1, hcwd1, hfile1⟩ := costs_iunlock ip _ _ _ hunlock
      obtain ⟨hacc2, hcwd2, hfile2⟩ := costs_endOp _ _ _ hend
      refine .file ?_ (hcwd2.trans (hcwd1.trans hcwd)) (hfile2.trans (hfile1.trans hfile))
      rw [hacc2, hacc1, hacc, hnone]
      dsimp only [pointee, created]
      abel

theorem sysOpen_settled {path : Option Path} {omode : Omode} {fd : Bool} {r : Option FileIdx}
    (h : sysOpen p path omode fd s = .ok (r, s')) : Settled s s' := by
  cases path with
  | none => exact .of_zero (c := pure none) (.pure rfl) h
  | some path =>
    obtain ⟨u, s1, hbegin, h⟩ := bind_ok.mp h
    obtain ⟨r1, s2, hopen, h⟩ := bind_ok.mp h
    have hsum : Costs (do fsBeginOp; openInode p path omode) fun r => anOp + created r :=
      costs_beginOp.bind fun _ => by simpa using costs_openInode p path omode
    obtain ⟨hacc, hcwd, hfile⟩ := hsum s r1 s2 (bind_ok.mpr ⟨u, s1, hbegin, hopen⟩)
    match r1 with
    | some ip => exact openFile_settled hacc hcwd hfile h
    | none =>
      have hend : Costs (do fsEndOp; return none : FsM n (Option FileIdx)) fun _ => -anOp :=
        costs_endOp.bind fun _ => .pure (by abel)
      exact .of_costs hacc hcwd hfile hend (by dsimp only [created]; abel) h

theorem cwdOf_ok (h : cwdOf p s = .ok (ip, s')) :
    s.cwd p = some ip ∧ s' = s := by
  rw [cwdOf, get_bind_ok] at h
  cases hp : s.cwd p with
  | none =>
    rw [hp] at h
    exact (throw_ok.mp h).elim
  | some e =>
    rw [hp] at h
    obtain ⟨rfl, rfl⟩ := pure_ok.mp h
    exact ⟨rfl, rfl⟩

theorem enterDir_settled {s0 : Fs n} {old : InodePtr}
    (hacc : s.account = s0.account + (anOp + aRef ip)) (hcwd : s.cwd = s0.cwd)
    (hfile : s.file = s0.file) (hold : s0.cwd p = some old)
    (h : enterDir p ip old s = .ok (u, s')) : Settled s0 s' := by
  rw [enterDir, bind_ok] at h
  obtain ⟨u1, s1, hput, h⟩ := h
  obtain ⟨u2, s2, hend, h⟩ := bind_ok.mp h
  obtain rfl := changeFs_ok.mp h
  obtain ⟨hacc1, hcwd1, hfile1⟩ := costs_iput old _ _ _ hput
  obtain ⟨hacc2, hcwd2, hfile2⟩ := costs_endOp _ _ _ hend
  refine .cwd ?_ (hcwd2.trans (hcwd1.trans hcwd)) (hfile2.trans (hfile1.trans hfile))
  rw [hacc2, hacc1, hacc, hold]
  dsimp only [pointee]
  abel

theorem sysChdir_settled {path : Option Path} {r : Bool} (h : sysChdir p path s = .ok (r, s')) :
    Settled s s' := by
  obtain ⟨u, s1, hbegin, h⟩ := bind_ok.mp h
  obtain ⟨hacc1, hcwd1, hfile1⟩ := costs_beginOp _ _ _ hbegin
  have hend : Costs (do fsEndOp; return false : FsM n Bool) fun _ => -anOp :=
    costs_endOp.bind fun _ => .pure (by abel)
  cases path with
  | none => exact .of_costs hacc1 hcwd1 hfile1 hend (add_neg_cancel _) h
  | some path =>
    obtain ⟨r1, s2, hnamei, h⟩ := bind_ok.mp h
    have hsum : Costs (do fsBeginOp; namei p path) fun r => anOp + named r :=
      costs_beginOp.bind fun _ => by simpa using costs_namei p path
    obtain ⟨hacc, hcwd, hfile⟩ := hsum s r1 s2 (bind_ok.mpr ⟨u, s1, hbegin, hnamei⟩)
    match r1 with
    | none => exact .of_costs hacc hcwd hfile hend (by dsimp only [named]; abel) h
    | some ip =>
      obtain ⟨u2, s3, hlock, h⟩ := bind_ok.mp h
      obtain ⟨hacc3, hcwd3, hfile3⟩ := costs_ilock ip _ _ _ hlock
      rw [hacc] at hacc3
      obtain ⟨s4, s5, hget, h⟩ := bind_ok.mp h
      obtain ⟨rfl, rfl⟩ := get_ok.mp hget
      obtain ⟨-, h⟩ | ⟨-, h⟩ := ite_ok.mp h
      · have hbad : Costs (do iunlockput ip; fsEndOp; return false : FsM n Bool) fun _ =>
            -(anOp + aRef ip + aLock ip) :=
          (costs_iunlockput ip).bind fun _ => costs_endOp.bind fun _ => .pure (by abel)
        exact .of_costs (hacc3.trans (add_assoc ..)) (hcwd3.trans hcwd) (hfile3.trans hfile) hbad
          (add_neg_cancel _) h
      · obtain ⟨u5, s6, hunlock, h⟩ := bind_ok.mp h
        obtain ⟨hacc6, hcwd6, hfile6⟩ := costs_iunlock ip _ _ _ hunlock
        obtain ⟨old, s7, hcwdOf, hrest⟩ := bind_ok.mp h
        obtain ⟨hold, rfl⟩ := cwdOf_ok hcwdOf
        obtain ⟨u7, henter, rfl⟩ := bind_pure_ok.mp hrest
        have hcwd' := hcwd6.trans (hcwd3.trans hcwd)
        refine enterDir_settled ?_ hcwd' (hfile6.trans (hfile3.trans hfile))
          (by rw [← hcwd']; exact hold) henter
        rw [hacc6, hacc3]
        dsimp only [named]
        abel

theorem sysCloseFile_settled {f : FileIdx} {last : Bool} (h : sysCloseFile f last s = .ok (u, s')) :
    Settled s s' := by
  rw [sysCloseFile, get_bind_ok] at h
  cases hf : s.file f with
  | none =>
    rw [hf] at h
    exact (throw_ok.mp h).elim
  | some ip =>
    rw [hf] at h
    obtain ⟨-, h⟩ | ⟨-, h⟩ := ite_ok.mp h
    · obtain ⟨u1, s3, hset, h⟩ := bind_ok.mp h
      obtain rfl := changeFs_ok.mp hset
      have hput : Costs (do fsBeginOp; iput ip; fsEndOp : FsM n Unit) fun _ => -aRef ip :=
        costs_beginOp.bind fun _ => (costs_iput ip).bind fun _ => by
          convert costs_endOp using 2
          abel
      obtain ⟨hacc, hcwd, hfile⟩ := hput _ _ _ h
      have hs' : s' = { ({ s' with file := s.file } : Fs n) with
          file := update s.file f none } := by
        rw [← show s'.file = update s.file f none from hfile]
      rw [hs']
      refine .file ?_ hcwd rfl
      rw [hf]
      exact hacc.trans (by dsimp only [pointee]; rw [zero_sub]; rfl)
    · exact .of_zero (c := pure ()) (.pure rfl) h

theorem forkCwd_settled {q : Fin n} (h : forkCwd p q s = .ok (u, s')) :
    Settled s s' := by
  obtain ⟨hq, h⟩ | ⟨-, h⟩ := ite_ok.mp h
  · obtain ⟨ip, s, hdup, h⟩ := bind_ok.mp h
    obtain rfl := changeFs_ok.mp h
    have hcost : Costs (cwdOf p >>= idup) aRef :=
      (costs_cwdOf p).bind fun ip => by simpa using costs_idup ip
    obtain ⟨hacc, hcwd, hfile⟩ := hcost _ _ _ hdup
    refine .cwd ?_ hcwd hfile
    rw [hacc, hq]
    abel
  · exact (throw_ok.mp h).elim

theorem exitCwd_settled (h : exitCwd p s = .ok (u, s')) :
    Settled s s' := by
  rw [exitCwd, bind_ok] at h
  obtain ⟨ip, s1, hcwd, h⟩ := h
  obtain ⟨hp, rfl⟩ := cwdOf_ok hcwd
  obtain ⟨u1, s2, h1, h⟩ := bind_ok.mp h
  obtain ⟨u2, s3, h2, h⟩ := bind_ok.mp h
  obtain ⟨u3, s4, h3, h⟩ := bind_ok.mp h
  obtain rfl := changeFs_ok.mp h
  obtain ⟨hacc1, hcwd1, hfile1⟩ := costs_beginOp _ _ _ h1
  obtain ⟨hacc2, hcwd2, hfile2⟩ := costs_iput ip _ _ _ h2
  obtain ⟨hacc3, hcwd3, hfile3⟩ := costs_endOp _ _ _ h3
  refine .cwd ?_ (hcwd3.trans (hcwd2.trans hcwd1)) (hfile3.trans (hfile2.trans hfile1))
  rw [hacc3, hacc2, hacc1, hp]
  dsimp only [pointee]
  abel

theorem fsStep_settled {call : FsCall n} (h : fsStep s call = some s') : Settled s s' := by
  unfold fsStep at h
  cases hrun : call.run s with
  | error e =>
    rw [hrun] at h
    cases h
  | ok r =>
    obtain ⟨u, s1⟩ := r
    rw [hrun] at h
    cases h
    have hfree : ∀ {α : Type} {c : FsM n α}, Costs c (fun _ => 0) →
        (do let _ ← c : FsM n Unit) s = .ok (u, s') → Settled s s' := by
      intro α c hc h
      obtain ⟨a, hca, -⟩ := bind_pure_ok.mp h
      exact .of_zero hc hca
    cases call with
    | «open» p path omode fd =>
      obtain ⟨a, hca, -⟩ := bind_pure_ok.mp hrun
      exact sysOpen_settled hca
    | mkdir p path => exact hfree (costs_sysMake p path .dir) hrun
    | mknod p path args => exact hfree (costs_sysMake p _ .dev) hrun
    | link p old new => exact hfree (costs_sysLink p old new) hrun
    | unlink p path => exact hfree (costs_sysUnlink p path) hrun
    | chdir p path =>
      obtain ⟨a, hca, -⟩ := bind_pure_ok.mp hrun
      exact sysChdir_settled hca
    | exec p path driver loaded => exact hfree (costs_execInode p path driver loaded) hrun
    | close f last => exact sysCloseFile_settled hrun
    | read f readable driver => exact hfree (costs_sysReadFile f readable driver) hrun
    | write f writable driver chunks =>
      exact hfree (costs_sysWriteFile f writable driver chunks) hrun
    | fork p q => exact forkCwd_settled hrun
    | exit p => exact exitCwd_settled hrun

end Calls

/-! ### One entry for an inode -/

/-- The references of every entry are the pointers to it, and entries in use are for different
inodes. -/
structure IcacheInv {m : Nat} (s : Icache n m) : Prop where
  refs : ∀ e, (s.fs.icache e).ref = refCount s.ptr e
  unique : ∀ e e', 0 < (s.fs.icache e).ref → 0 < (s.fs.icache e').ref →
    (s.fs.icache e).dev = (s.fs.icache e').dev → (s.fs.icache e).inum = (s.fs.icache e').inum →
    e = e'

section Icache

variable {m : Nat} {s s' : Icache n m}

theorem IcacheInv.pos (hi : IcacheInv s) {j : Fin m} (hj : s.ptr j = some ip) :
    0 < (s.fs.icache ip).ref := by
  rw [hi.refs]
  exact_mod_cast refCount_pos hj

/-- A pointer is set or cleared together with the reference it stands for. -/
theorem IcacheInv.addRef (hi : IcacheInv s) {k : Fin m} {d : Int} (hlive : 0 < (s.fs.icache ip).ref)
    (hd : ∀ e, ((if x = some e then 1 else 0) - (if s.ptr k = some e then 1 else 0) : Int) =
      if e = ip then d else 0) :
    IcacheInv ⟨s.fs.addRef ip d, update s.ptr k x⟩ := by
  refine ⟨fun e => ?_, fun e e' he he' => ?_⟩
  · have hcount := refCount_update s.ptr k x e
    have hde := hd e
    have href := hi.refs e
    simp only [Fs.addRef, Fs.setEntry, update_apply]
    split_ifs at hcount hde ⊢ <;> grind
  · have hlive' : ∀ e, 0 < ((s.fs.addRef ip d).icache e).ref → 0 < (s.fs.icache e).ref ∧
        ((s.fs.addRef ip d).icache e).dev = (s.fs.icache e).dev ∧
        ((s.fs.addRef ip d).icache e).inum = (s.fs.icache e).inum := by
      intro e he
      simp only [Fs.addRef, Fs.setEntry, update_apply] at he ⊢
      split_ifs at he ⊢ with heq
      · rw [heq]
        exact ⟨hlive, rfl, rfl⟩
      · exact ⟨he, rfl, rfl⟩
    obtain ⟨h1, h2, h3⟩ := hlive' e he
    obtain ⟨h1', h2', h3'⟩ := hlive' e' he'
    rw [h2, h3, h2', h3']
    exact hi.unique e e' h1 h1'

/-- A free entry is taken for an inode that no entry is for. -/
theorem IcacheInv.recycle (hi : IcacheInv s) {k : Fin m} {dev : Word} {inum : Nat}
    (hk : s.ptr k = none) (hzero : (s.fs.icache ip).ref = 0) (hnone : ∀ e, 0 < (s.fs.icache e).ref →
      ¬((s.fs.icache e).dev = dev ∧ (s.fs.icache e).inum = inum)) :
    IcacheInv ⟨s.fs.recycle ip dev inum, update s.ptr k (some ip)⟩ := by
  refine ⟨fun e => ?_, fun e e' he he' hdev hinum => ?_⟩
  · have hcount := refCount_update s.ptr k (some ip) e
    have href := hi.refs e
    simp only [Fs.recycle, Fs.setEntry, update_apply]
    split_ifs at hcount ⊢ <;> simp_all
  · simp only [Fs.recycle, Fs.setEntry, update_apply] at he he' hdev hinum
    by_contra hne
    split_ifs at he he' hdev hinum with h1 h2 h2
    · exact hne (h1.trans h2.symm)
    · exact hnone e' he' ⟨hdev.symm, hinum.symm⟩
    · exact hnone e he ⟨hdev, hinum⟩
    · exact hne (hi.unique e e' he he' hdev hinum)

theorem icacheStep_inv {a : IcacheAct m} (hi : IcacheInv s) (h : icacheStep s a = some s') :
    IcacheInv s' := by
  cases a with
  | iget k dev inum =>
    rw [icacheStep] at h
    split at h
    next ip fs hk hget =>
      cases h
      obtain ⟨hfor, rfl⟩ | ⟨hfor, hempty, rfl⟩ := iget_ok hget
      · have hlive : 0 < (s.fs.icache ip).ref := by
          have hfound := List.find?_some hfor
          simp only [decide_eq_true_eq] at hfound
          exact hfound.1
        refine hi.addRef hlive fun e => ?_
        simp only [hk, some.injEq, reduceCtorEq, if_false, sub_zero, eq_comm (a := e)]
      · refine hi.recycle hk (emptyEntry_ref hempty) fun e he => ?_
        have hnone := List.find?_eq_none.mp hfor e (List.mem_finRange e)
        simpa [he] using hnone
    next => cases h
  | idup j k =>
    rw [icacheStep] at h
    split at h
    next ip hj hk =>
      cases h
      refine hi.addRef (hi.pos hj) fun e => ?_
      simp only [hk, some.injEq, reduceCtorEq, if_false, sub_zero, eq_comm (a := e)]
    next => cases h
  | iput j =>
    obtain ⟨ip, hj, rfl⟩ := map_eq_some_iff.mp h
    refine hi.addRef (hi.pos hj) fun e => ?_
    simp only [hj, some.injEq, reduceCtorEq, if_false, eq_comm (a := e)]
    split_ifs <;> rfl
  | touch ip valid locked =>
    cases h
    have hsame : ∀ e,
        (((s.fs.setValid ip valid).setLocked ip locked).icache e).ref = (s.fs.icache e).ref ∧
        (((s.fs.setValid ip valid).setLocked ip locked).icache e).dev = (s.fs.icache e).dev ∧
        (((s.fs.setValid ip valid).setLocked ip locked).icache e).inum = (s.fs.icache e).inum := by
      intro e
      simp only [Fs.setValid, Fs.setLocked, Fs.setEntry, update_apply]
      split_ifs with he
      · rw [he]
        exact ⟨rfl, rfl, rfl⟩
      · exact ⟨rfl, rfl, rfl⟩
    refine ⟨fun e => (hsame e).1.trans (hi.refs e), fun e e' => ?_⟩
    rw [(hsame e).1, (hsame e).2.1, (hsame e).2.2, (hsame e').1, (hsame e').2.1, (hsame e').2.2]
    exact hi.unique e e'

theorem icacheInv_start {fs : Fs n} (h : ∀ e, (fs.icache e).ref = 0) :
    IcacheInv (⟨fs, fun _ => none⟩ : Icache n m) := by
  refine ⟨fun e => ?_, fun e e' he => ?_⟩
  · have hzero : refCount (fun _ : Fin m => (none : Option InodePtr)) e = 0 :=
      refCount_eq_zero.mpr fun _ => nofun
    rw [h e, hzero]
    rfl
  · dsimp only at he
    rw [h e] at he
    exact absurd he (by decide)

end Icache

/-- **What a call takes it gives back**: every call that returns, from any state and with any
arguments, leaves the inode locks and the open transactions as they were and has changed the
references of each cache entry by what the pointers to it changed.  Under the interleaving of any
critical sections of the cache, entries in use are for different inodes. -/
theorem inode_cache_balance :
    (∀ (s s' : Fs n) (call : FsCall n), fsStep s call = some s' →
      (∀ e, (s'.icache e).locked = (s.icache e).locked) ∧ s'.outstanding = s.outstanding ∧
      ∀ e, (s'.icache e).ref - (s.icache e).ref = s'.pointers e - s.pointers e) ∧
    ∀ (m : Nat) (fs : Fs n) (s : Icache n m), (∀ e, (fs.icache e).ref = 0) →
      Run icacheStep (fun _ _ => True) ⟨fs, fun _ => none⟩ s →
      ∀ e e', 0 < (s.fs.icache e).ref → 0 < (s.fs.icache e').ref →
        (s.fs.icache e).dev = (s.fs.icache e').dev →
        (s.fs.icache e).inum = (s.fs.icache e').inum → e = e' := by
  refine ⟨fun s s' call h => ?_, fun m fs s hzero hrun => ?_⟩
  · have hsettled := fsStep_settled h
    exact ⟨hsettled.locked, hsettled.outstanding, hsettled.refs⟩
  · have hinv : IcacheInv s :=
      hrun.inv (icacheInv_start hzero) fun _ _ _ hi _ hs => icacheStep_inv hi hs
    exact hinv.unique

/-- `open("/f", O_CREATE)`, and two variables that come to point to the inode 7. -/
theorem inode_cache_balance_open :
    ((fsStep (fsBoot 1 []) (.open 0 (some [47, 102]) ⟨true, false⟩ true)).isSome = true ∧
      ∀ s', fsStep (fsBoot 1 []) (.open 0 (some [47, 102]) ⟨true, false⟩ true) = some s' →
        ∀ e, (s'.icache e).ref - ((fsBoot 1 []).icache e).ref =
          s'.pointers e - (fsBoot 1 []).pointers e) ∧
    (([.iget 0 rootdev 7, .iget 1 rootdev 7] : List (IcacheAct 2)).foldlM icacheStep
        ⟨{ fsBoot 0 [] with icache := fun _ => ⟨0, 0, 0, false, false⟩ }, fun _ => none⟩).map
          (fun s => (s.fs.icache ⟨0, by decide⟩).ref) = some 2 ∧
    ∀ s, ([.iget 0 rootdev 7, .iget 1 rootdev 7] : List (IcacheAct 2)).foldlM icacheStep
        ⟨{ fsBoot 0 [] with icache := fun _ => ⟨0, 0, 0, false, false⟩ }, fun _ => none⟩ = some s →
      ∀ e e', 0 < (s.fs.icache e).ref → 0 < (s.fs.icache e').ref →
        (s.fs.icache e).dev = (s.fs.icache e').dev →
        (s.fs.icache e).inum = (s.fs.icache e').inum → e = e' :=
  ⟨⟨by decide +kernel, fun _ h => (inode_cache_balance.1 _ _ _ h).2.2⟩, by decide +kernel,
    fun _ h => inode_cache_balance.2 2 _ _ (fun _ => rfl) (.of_foldlM h fun _ _ _ => trivial)⟩

end Xv6
