/-
What a system call does to the table of inodes.

A call changes the table in one of few ways, or not at all, and then may give one inode back.
That is all that the invariants of the file system need to know about the code.
-/
import Os.Proofs.Xv6.Paths

namespace Xv6

open Prog RefMap Inodes

variable {n : Nat}
variable {u : Unit} {i d : Nat} {r : Option InodePtr} {t : Inodes} {p : Fin n} {path : Path}
variable {type : InodeType}

/-- The directory in which the call would enter a new name. -/
def FsCall.enters (s : Fs n) : FsCall n → Option Nat
  | .open p (some path) omode _ => if omode.create then s.newIn p path else none
  | .mkdir p (some path) => s.newIn p path
  | .mknod p (some path) true => s.newIn p path
  | .link p (some _) (some new) => s.newIn p new
  | _ => none

/-- The directory that the call would remove, behind the directory it is in. -/
def FsCall.removes (s : Fs n) : FsCall n → Option (Nat × Nat)
  | .unlink p (some path) => s.emptyDirIn p path
  | _ => none

/-- Something new is in `dp`. -/
inductive Made (N : Nat) (t t' : Inodes) (dp : Nat) : Prop
  | name {i : Nat} (h : NameAdded N t t' dp i)
  | dir {i : Nat} (h : DirMade N t t' dp i)

/-- The table after the writes of a call. -/
inductive Edit (s : Fs n) (call : FsCall n) (t : Inodes) : Prop
  | keep (h : t = s.inode)
  | make {dp : Nat} (h : call.enters s = some dp) (he : Made s.ninodes s.inode t dp)
  | removeName {dp i : Nat} (he : NameRemoved s.inode t dp i)
  | removeDir {dp i : Nat} (h : call.removes s = some (dp, i)) (he : DirRemoved s.inode t dp i)

/-- The state in which a call returns, where `t` is the table after its writes. -/
structure Returned (s s' : Fs n) (t : Inodes) : Prop where
  held : Held 0 none s'
  ninodes : s'.ninodes = s.ninodes
  shape : Shape t
  inode : s'.inode = t ∨ ∃ i, Freed t s'.inode i

/-- What a call relies on. -/
structure Ready (s : Fs n) : Prop where
  held : Held 0 none s
  shape : Shape s.inode
  range : ∀ i, (s.inode i).type ≠ .free → 0 < i ∧ i < s.ninodes
  nlink : ∀ i, (s.inode i).type ≠ .free → 0 ≤ (s.inode i).nlink

variable {s s' s0 : Fs n} {own : Own} {x : Option Nat} {dp ip : InodePtr} {name : Name}

/-! ### Writing inodes -/

theorem iupdate_ok {f : Inode → Inode} (h : iupdate ip f s = .ok (u, s')) :
    s' = s.setInode (s.icache ip).inum (f (s.inodeOf ip)) := changeFs_ok.mp h

theorem Held.rewrite (h : Held own none s) {y : Inode} (hfree : (s.inode i).type ≠ .free)
    (htype : y.type = (s.inode i).type) (hnlink : y.nlink = (s.inode i).nlink) :
    Held own none (s.setInode i y) ∧ Same own s (s.setInode i y) :=
  h.setInode (by rw [htype]; exact hfree) (fun _ _ => id) fun hx h0 =>
    h.orphan i hx hfree (by rw [← hnlink]; exact h0)

theorem Held.relinked (h : Held own none s) {k : Int} (hfree : (s.inode i).type ≠ .free)
    (hne : (s.inode i).nlink + k ≠ 0) :
    Held own none (s.setInode i (addLinks k (s.inode i))) ∧
    Same own s (s.setInode i (addLinks k (s.inode i))) :=
  h.setInode hfree (fun _ _ => id) fun _ h0 => absurd h0 hne

theorem dirlink_true (h : Held own none s)
    (hl : dirlink dp name i s = .ok (true, s')) :
    Held own none s' ∧ Same own s s' ∧ s'.inode = Inodes.enter s.inode (s.icache dp).inum name i ∧
    (s.inodeOf dp).type = .dir ∧ slotOf (s.inodeOf dp).slots name = none := by
  rw [dirlink, bind_ok] at hl
  obtain ⟨r, s1, hlookup, hl⟩ := hl
  obtain ⟨hdir, ⟨rfl, rfl, hnone⟩ | ⟨e, off, rfl, -, -⟩⟩ := dirlookup_ok hlookup
  · obtain ⟨s2, s3, hget, hl⟩ := bind_ok.mp hl
    obtain ⟨rfl, rfl⟩ := get_ok.mp hget
    obtain ⟨-, hl⟩ := ite_throw_ok.mp hl
    obtain ⟨u, hupdate, -⟩ := bind_pure_ok.mp hl
    obtain rfl := iupdate_ok hupdate
    have hfree : (s3.inode (s3.icache dp).inum).type ≠ .free := by
      rw [← Fs.inodeOf, hdir]
      simp
    obtain ⟨hheld, hsame⟩ := h.rewrite (y := { s3.inodeOf dp with
        slots := writeSlot (s3.inodeOf dp).slots (emptySlot (s3.inodeOf dp).slots) ⟨i, name⟩ })
      hfree rfl rfl
    exact ⟨hheld, hsame, rfl, hdir, hnone⟩
  · obtain ⟨u, s2, -, hl⟩ := bind_ok.mp hl
    cases (pure_ok.mp hl).1

theorem dirlink_false (h : Held own none s) (hdp : 0 < own dp)
    (hl : dirlink dp name i s = .ok (false, s')) :
    Held own none s' ∧ Quiet own s s' := by
  rw [dirlink, bind_ok] at hl
  obtain ⟨r, s1, hlookup, hl⟩ := hl
  obtain ⟨h1, hsame1, -⟩ := dirlookup_held h hdp hlookup
  match r with
  | none =>
    obtain ⟨s2, s3, hget, hl⟩ := bind_ok.mp hl
    obtain ⟨-, hl⟩ := ite_throw_ok.mp hl
    cases (pure_ok.mp hl).1
  | some (e, off) =>
    obtain ⟨u, hput, -⟩ := bind_pure_ok.mp hl
    obtain ⟨h2, hsame2⟩ := iput_held h1 hput
    exact ⟨h2, hsame1.trans hsame2⟩

/-- The end of a call that has one reference left, to an inode that may have lost its last link. -/
theorem iunlockput_last (h : Held (one ip) (some i) s) (hi : (s.icache ip).inum = i)
    (hv : (s.icache ip).valid = true) (hput : iunlockput ip s = .ok (u, s')) :
    Held 0 none s' ∧ s'.ninodes = s.ninodes ∧
    (s'.inode = s.inode ∨ ∃ i, Freed s.inode s'.inode i) := by
  obtain ⟨u1, s1, hunlock, hput⟩ := bind_ok.mp hput
  obtain ⟨h1, hsame, -⟩ := iunlock_held h hunlock
  have hinum : (s1.icache ip).inum = i := (hsame.inum (by simp)).trans hi
  obtain ⟨hl, rfl⟩ := iput_ok hput
  rw [← hinum] at h1
  obtain ⟨hheld, hn, hcases⟩ := h1.putRef_own hl fun _ _ => hsame.valid (by simp) hv
  rw [hsame.inode] at hcases
  exact ⟨hheld, hn.trans hsame.ninodes, hcases.imp id fun hf => ⟨_, hf⟩⟩

/-! ### Transactions -/

theorem fsBeginOp_held (h : Held own x s) (hl : fsBeginOp s = .ok (u, s')) :
    Held own x s' ∧ Quiet own s s' ∧ s'.icache = s.icache := by
  obtain rfl := changeFs_ok.mp hl
  exact ⟨⟨h.refs, h.dev, h.unique, h.valid, h.pointed, h.orphan⟩,
    ⟨.of_entries rfl rfl rfl fun _ => ⟨rfl, id⟩, rfl⟩, rfl⟩

theorem fsEndOp_held (h : Held own x s) (hl : fsEndOp s = .ok (u, s')) :
    Held own x s' ∧ Quiet own s s' ∧ s'.icache = s.icache := by
  obtain rfl := changeFs_ok.mp hl
  exact ⟨⟨h.refs, h.dev, h.unique, h.valid, h.pointed, h.orphan⟩,
    ⟨.of_entries rfl rfl rfl fun _ => ⟨rfl, id⟩, rfl⟩, rfl⟩

theorem Returned.keep (hr : Ready s0) (h : Held 0 none s) (hsame : Quiet 0 s0 s) :
    Returned s0 s s0.inode :=
  ⟨h, hsame.ninodes, hr.shape, .inl hsame.inode⟩

theorem endOp_returned {α : Type} {a r : α} (h : Held 0 none s) (hn : s.ninodes = s0.ninodes)
    (ht : s.inode = t) (hshape : Shape t) (hl : (do fsEndOp; return a : FsM n α) s = .ok (r, s')) :
    Returned s0 s' t := by
  obtain ⟨u, hend, -⟩ := bind_pure_ok.mp hl
  obtain ⟨h1, hsame, -⟩ := fsEndOp_held h hend
  exact ⟨h1, hsame.ninodes.trans hn, hshape, .inl (hsame.inode.trans ht)⟩

theorem putEnd_returned {α : Type} {a r : α} (h : Held (one ip) none s)
    (hn : s.ninodes = s0.ninodes) (ht : s.inode = t) (hshape : Shape t)
    (hl : (do iunlockput ip; fsEndOp; return a : FsM n α) s = .ok (r, s')) : Returned s0 s' t := by
  obtain ⟨u, s1, hput, hl⟩ := bind_ok.mp hl
  rw [← zero_add (one ip)] at h
  obtain ⟨h1, hsame⟩ := iunlockput_held h hput
  exact endOp_returned h1 (hsame.ninodes.trans hn) (hsame.inode.trans ht) hshape hl

/-! ### `sys_unlink` -/

theorem unlinkBad_returned {r : Bool} (hr : Ready s0) (h : Held (one dp) none s)
    (hsame : Quiet 0 s0 s) (hl : unlinkBad dp s = .ok (r, s')) : Returned s0 s' s0.inode :=
  putEnd_returned h hsame.ninodes hsame.inode hr.shape hl

theorem unlinkEnd_returned {r : Bool} (h : Held (one dp + one ip) none s) (hsame : Same 0 s0 s)
    (hv : (s.icache ip).valid = true) (ht : s.inode = t) (hi : (s.icache ip).inum = i)
    (hfree : (t i).type ≠ .free) (hshape : Shape (t.relink i (-1)))
    (hl : unlinkEnd dp ip s = .ok (r, s')) : Returned s0 s' (t.relink i (-1)) := by
  obtain ⟨u1, s1, hput, hl⟩ := bind_ok.mp hl
  obtain ⟨u2, s2, hupdate, hl⟩ := bind_ok.mp hl
  obtain ⟨u3, s3, hlast, hl⟩ := bind_ok.mp hl
  obtain ⟨u4, hend, -⟩ := bind_pure_ok.mp hl
  obtain rfl := changeFs_ok.mp hend
  obtain rfl := iupdate_ok hupdate
  rw [add_comm] at h
  obtain ⟨h1, hsame1⟩ := iunlockput_held h hput
  have hinum : (s1.icache ip).inum = i := (hsame1.inum (by simp)).trans hi
  have hof : s1.inodeOf ip = t i := by rw [Fs.inodeOf, hsame1.inode, hinum, ht]
  have hrelink : Held (one ip) (some (s1.icache ip).inum)
      (s1.setInode (s1.icache ip).inum (addLinks (-1) (s1.inodeOf ip))) ∧ _ :=
    h1.setInode (by rw [hof]; exact hfree) (fun _ _ _ => by simp) fun hne => absurd rfl hne
  obtain ⟨h2, hsame2⟩ := hrelink
  obtain ⟨hheld, hn, hcases⟩ :=
    iunlockput_last h2 rfl (hsame2.valid (by simp) (hsame1.valid (by simp) hv)) hlast
  have htable : (s1.setInode (s1.icache ip).inum (addLinks (-1) (s1.inodeOf ip))).inode =
      t.relink i (-1) := by
    rw [Fs.setInode, hof, hsame1.inode, hinum, ht]
    rfl
  rw [htable] at hcases
  refine ⟨⟨hheld.refs, hheld.dev, hheld.unique, hheld.valid, hheld.pointed, hheld.orphan⟩, ?_,
    hshape, hcases⟩
  exact hn.trans ((hsame2.ninodes.trans hsame1.ninodes).trans hsame.ninodes)

/-- The table after `sys_unlink` has found the entry. -/
inductive Unlinked (t : Inodes) (d i : Nat) (t' : Inodes) : Prop
  | keep (h : t' = t)
  | name (h : NameRemoved t t' d i)
  | dir (h : DirRemoved t t' d i) (hdir : (t i).type = .dir) (hempty : isdirempty (t i) = true)

theorem unlinkSlot_returned {r : Bool} {off : Nat} (hr : Ready s0)
    (h : Held (one dp + one ip) none s) (hsame : Quiet 0 s0 s)
    (hd : (s.icache dp).inum = d) (hdir : (s0.inode d).type = .dir) (hne : name ≠ dot)
    (hne' : name ≠ dotdot) (hoff : slotOf (s0.inode d).slots name = some off)
    (hi : (s.icache ip).inum = i) (hin : ((s0.inode d).slots.getD off ⟨0, []⟩).inum = i)
    (hv : (s.icache ip).valid = true)
    (hlast : (s0.inode i).type = .dir → isdirempty (s0.inode i) = true → (s0.inode d).nlink ≠ 1)
    (hl : unlinkSlot dp ip off s = .ok (r, s')) :
    ∃ t, Unlinked s0.inode d i t ∧ Returned s0 s' t := by
  have hofd : s.inodeOf dp = s0.inode d := by rw [Fs.inodeOf, hsame.inode, hd]
  have hofi : s.inodeOf ip = s0.inode i := by rw [Fs.inodeOf, hsame.inode, hi]
  have hfree : (s0.inode i).type ≠ .free := by
    rw [← hofi]
    exact h.valid ip (h.live ip (by simp)) hv
  have hdfree : (s0.inode d).type ≠ .free := by
    simp [hdir]
  obtain ⟨k, rfl, hlt, h0⟩ := slotOf_spec hr.shape hdir hne hne' hoff
  rw [hin] at h0
  obtain ⟨-, hl⟩ := ite_throw_ok.mp hl
  rw [hofi] at hl
  obtain ⟨-, hl⟩ | ⟨hempty, hl⟩ := ite_ok.mp hl
  · obtain ⟨u, s3, hput, hl⟩ := bind_ok.mp hl
    obtain ⟨h3, hsame3⟩ := iunlockput_held h hput
    exact ⟨_, .keep rfl, unlinkBad_returned hr h3 (hsame.trans hsame3.none) hl⟩
  obtain ⟨u, s3, hclear, hl⟩ := bind_ok.mp hl
  obtain rfl := iupdate_ok hclear
  rw [hofd, hd] at hl
  obtain ⟨h3, hsame3⟩ := h.rewrite (i := d) (y := { s0.inode d with
    slots := writeSlot (s0.inode d).slots (k + 2) ⟨0, []⟩ })
    (by rw [hsame.inode]; exact hdfree) (by rw [hsame.inode]) (by rw [hsame.inode])
  have htable : (s.setInode d { s0.inode d with
      slots := writeSlot (s0.inode d).slots (k + 2) ⟨0, []⟩ }).inode =
      Inodes.clear s0.inode d (k + 2) := by
    rw [Fs.setInode, hsame.inode]
    rfl
  have hshape := hr.shape.clear hdir k
  have hsame0 := hsame.toSame.trans hsame3.none
  obtain ⟨hidir, hl⟩ | ⟨hidir, hl⟩ := ite_ok.mp hl
  · have hempty' : isdirempty (s0.inode i) = true := by simpa [hidir] using hempty
    obtain ⟨u, s4, hlink, hl⟩ := bind_ok.mp hl
    obtain rfl := iupdate_ok hlink
    have hinum3 : ((s.setInode d { s0.inode d with
      slots := writeSlot (s0.inode d).slots (k + 2) ⟨0, []⟩ }).icache dp).inum = d := hd
    rw [Fs.inodeOf, hinum3, htable] at hl
    have hne1 := hlast hidir hempty'
    obtain ⟨h4, hsame4⟩ := h3.relinked (i := d) (k := -1)
      (by rw [htable, clear_type]; exact hdfree) (by rw [htable, clear_nlink]; omega)
    rw [htable] at h4 hsame4
    refine ⟨_, .dir (dirRemoved_unlink hr.shape hdir hlt hin h0 hidir hempty') hidir hempty', ?_⟩
    refine unlinkEnd_returned h4 (hsame0.trans hsame4.none) hv
      (t := (Inodes.clear s0.inode d (k + 2)).relink d (-1)) ?_ hi ?_
      ((hshape.relink d (-1)).relink i (-1)) hl
    · rw [Fs.setInode, htable]
      rfl
    · rwa [relink_type, clear_type]
  · refine ⟨_, .name (nameRemoved_unlink hr.shape hdir hlt hin h0 hidir), ?_⟩
    exact unlinkEnd_returned h3 hsame0 hv htable hi (by rwa [clear_type]) (hshape.relink i (-1)) hl

theorem lookup_of_slot {off : Nat} (h : slotOf (t d).slots name = some off) :
    t.lookup d name = some ((t d).slots.getD off ⟨0, []⟩).inum := by
  rw [Inodes.lookup, h]
  rfl

theorem emptyDirIn_eq (hp : s.parentOf p path = some (d, name))
    (hlookup : Inodes.lookup s.inode d name = some i) (hne : name ≠ dot) (hne' : name ≠ dotdot)
    (hdir : (s.inode i).type = .dir) (hempty : isdirempty (s.inode i) = true) :
    s.emptyDirIn p path = some (d, i) := by
  rw [Fs.emptyDirIn, hp]
  dsimp only
  rw [hlookup]
  exact if_pos ⟨hne, hne', hdir, hempty⟩

theorem unlinkIn_returned {r : Bool} (hr : Ready s0) (h : Held (one dp) none s)
    (hsame : Quiet 0 s0 s) (hd : (s.icache dp).inum = d)
    (hp : s0.parentOf p path = some (d, name))
    (hlast : ∀ d i, s0.emptyDirIn p path = some (d, i) → (s0.inode d).nlink ≠ 1)
    (hl : unlinkIn dp name s = .ok (r, s')) :
    ∃ t, Edit s0 (.unlink p (some path)) t ∧ Returned s0 s' t := by
  obtain ⟨-, hl⟩ | ⟨hdots, hl⟩ := ite_ok.mp hl
  · exact ⟨_, .keep rfl, unlinkBad_returned hr h hsame hl⟩
  obtain ⟨hne, hne'⟩ := not_or.mp hdots
  obtain ⟨r1, s1, hlookup, hl⟩ := bind_ok.mp hl
  obtain ⟨h1, hsame1, hdir, -, hfound⟩ := dirlookup_held h (by simp) hlookup
  have hofd : s.inodeOf dp = s0.inode d := by rw [Fs.inodeOf, hsame.inode, hd]
  rw [hofd] at hdir hfound
  have hsame01 := hsame.trans hsame1.none
  obtain _ | ⟨ip, off⟩ := r1
  · exact ⟨_, .keep rfl, unlinkBad_returned hr h1 hsame01 hl⟩
  · obtain ⟨hslot, hinum⟩ := hfound ip off rfl
    obtain ⟨u, s2, hlock, hl⟩ := bind_ok.mp hl
    obtain ⟨h2, hsame2, hv, hinum2, -⟩ := ilock_held h1 hlock
    have hd2 : (s2.icache dp).inum = d :=
      (hsame2.inum (by simp)).trans ((hsame1.inum (by simp)).trans hd)
    have hlookup' := lookup_of_slot hslot
    obtain ⟨t, hun, hout⟩ := unlinkSlot_returned hr h2 (hsame01.trans hsame2.none) hd2 hdir hne
      hne' hslot (hinum2.trans hinum) rfl hv
      (fun hidir hempty => hlast d _ (emptyDirIn_eq hp hlookup' hne hne' hidir hempty)) hl
    refine ⟨t, ?_, hout⟩
    cases hun with
    | keep h => exact .keep h
    | name h => exact .removeName h
    | dir h hidir hempty => exact .removeDir (emptyDirIn_eq hp hlookup' hne hne' hidir hempty) h

theorem sysUnlink_returned {r : Bool} {path : Option Path} (hr : Ready s)
    (hlast : ∀ d i, (FsCall.unlink p path).removes s = some (d, i) → (s.inode d).nlink ≠ 1)
    (hl : sysUnlink p path s = .ok (r, s')) :
    ∃ t, Edit s (.unlink p path) t ∧ Returned s s' t := by
  cases path with
  | none =>
    obtain ⟨-, rfl⟩ := pure_ok.mp hl
    exact ⟨_, .keep rfl, .keep hr hr.held (.refl _ _)⟩
  | some path =>
    obtain ⟨u, s1, hbegin, hl⟩ := bind_ok.mp hl
    obtain ⟨h1, hsame1, -⟩ := fsBeginOp_held hr.held hbegin
    obtain rfl := changeFs_ok.mp hbegin
    obtain ⟨r1, s2, hname, hl⟩ := bind_ok.mp hl
    obtain ⟨h2, hsame2, hparent⟩ := nameiparent_held h1 hname
    rw [zero_add] at h2
    replace hsame2 := hsame1.trans hsame2
    match r1 with
    | none =>
      exact ⟨_, .keep rfl, endOp_returned h2 hsame2.ninodes hsame2.inode hr.shape hl⟩
    | some (dp, name) =>
      obtain ⟨u3, s3, hlock, hl⟩ := bind_ok.mp hl
      obtain ⟨h3, hsame3, -, hinum3, -⟩ := ilock_held h2 hlock
      exact unlinkIn_returned hr h3 (hsame2.trans hsame3.none) hinum3 hparent hlast hl

/-! ### `create` -/

theorem ialloc_held (h : Held own none s) (htype : type ≠ .free)
    (hl : ialloc rootdev type s = .ok (ip, s')) :
    ∃ i, (i ≠ 0 ∧ i < s.ninodes) ∧ (s.inode i).type = .free ∧ Held (own + one ip) (some i) s' ∧
      Same own s s' ∧ s'.inode = Inodes.set s.inode i ⟨type, 0, []⟩ ∧ (s'.icache ip).inum = i := by
  rw [ialloc, get_bind_ok] at hl
  cases hfree : freeInum s with
  | none =>
    rw [hfree] at hl
    exact (throw_ok.mp hl).elim
  | some i =>
    rw [hfree, bind_ok] at hl
    obtain ⟨u, s3, hset, hl⟩ := hl
    obtain rfl := set_ok.mp hset
    have hi := List.find?_some hfree
    simp only [decide_eq_true_eq] at hi
    have hlt : i < s.ninodes := List.mem_range.mp (List.mem_of_find?_eq_some hfree)
    have hset : Held own (some i) (s.setInode i ⟨type, 0, []⟩) ∧ _ :=
      h.setInode htype (fun _ _ _ => by simp) fun hne => absurd rfl hne
    obtain ⟨hheld, hsame, hinum⟩ := iget_held hset.1 hl
    exact ⟨i, ⟨hi.1, hlt⟩, hi.2, hheld, hset.2.trans hsame.toSame, hsame.inode, hinum⟩

theorem createDots_held (h : Held (one dp + one ip) none s) (hfree : (s.inodeOf dp).type ≠ .free)
    (hnlink : 0 ≤ (s.inodeOf dp).nlink) (hl : createDots dp ip s = .ok (u, s')) :
    Held (one dp + one ip) none s' ∧ Same (one dp + one ip) s s' ∧
    s'.inode = ((Inodes.relink s.inode (s.icache dp).inum 1).enter (s.icache ip).inum dot
      (s.icache ip).inum).enter (s.icache ip).inum dotdot (s.icache dp).inum := by
  rw [createDots, bind_ok] at hl
  obtain ⟨u1, s1, hupdate, hl⟩ := hl
  obtain rfl := iupdate_ok hupdate
  obtain ⟨h1, hsame1⟩ := h.relinked (i := (s.icache dp).inum) (k := 1) hfree
    (by rw [← Fs.inodeOf]; omega)
  obtain ⟨s2, s3, hget, hl⟩ := bind_ok.mp hl
  obtain ⟨rfl, rfl⟩ := get_ok.mp hget
  obtain ⟨b1, s4, hdot, hl⟩ := bind_ok.mp hl
  obtain ⟨rfl, hl⟩ | ⟨-, hc⟩ := ite_ok.mp hl
  · obtain ⟨b2, s5, hdotdot, hl⟩ := bind_ok.mp hl
    obtain ⟨rfl, hl⟩ | ⟨-, hc⟩ := ite_ok.mp hl
    · obtain ⟨-, rfl⟩ := pure_ok.mp hl
      obtain ⟨h4, hsame4, hinode4, -⟩ := dirlink_true h1 hdot
      obtain ⟨h5, hsame5, hinode5, -⟩ := dirlink_true h4 hdotdot
      refine ⟨h5, (hsame1.trans hsame4).trans hsame5, ?_⟩
      rw [hinode5, hinode4, hsame4.inum (by simp)]
      rfl
    · exact (throw_ok.mp hc).elim
  · exact (throw_ok.mp hc).elim

theorem createEntry_held (h : Held (one dp + one ip) none s)
    (hl : createEntry dp ip name s = .ok (r, s')) :
    r = some ip ∧ Held (one ip) none s' ∧ Same (one ip) s s' ∧
    s'.inode = Inodes.enter s.inode (s.icache dp).inum name (s.icache ip).inum := by
  rw [createEntry, get_bind_ok] at hl
  obtain ⟨b, s1, hlink, hl⟩ := bind_ok.mp hl
  obtain ⟨rfl, hl⟩ | ⟨-, hc⟩ := ite_ok.mp hl
  · obtain ⟨u, hput, rfl⟩ := bind_pure_ok.mp hl
    obtain ⟨h1, hsame1, hinode1, -⟩ := dirlink_true h hlink
    rw [add_comm] at h1 hsame1
    obtain ⟨h2, hsame2⟩ := iunlockput_held h1 hput
    exact ⟨rfl, h2, hsame1.of_add.trans hsame2.toSame, hsame2.inode.trans hinode1⟩
  · exact (throw_ok.mp hc).elim

theorem createNew_held (hr : Ready s0) (h : Held (one dp) none s) (hsame : Quiet 0 s0 s)
    (hd : (s.icache dp).inum = d) (hdir : (s0.inode d).type = .dir)
    (hnone : slotOf (s0.inode d).slots name = none) (htype : type ≠ .free)
    (hl : createNew dp name type s = .ok (r, s')) :
    ∃ ip, r = some ip ∧ Held (one ip) none s' ∧ Same 0 s0 s' ∧ (s'.icache ip).valid = true ∧
      Made s0.ninodes s0.inode s'.inode d ∧ Shape s'.inode := by
  obtain ⟨hne, hne'⟩ := hr.shape.ne_dots hdir hnone
  have hdfree : (s0.inode d).type ≠ .free := by
    rw [hdir]
    exact nofun
  rw [createNew, get_bind_ok] at hl
  obtain ⟨ip, s1, halloc, hl⟩ := bind_ok.mp hl
  obtain ⟨u2, s3, hlock, hl⟩ := bind_ok.mp hl
  obtain ⟨u3, s4, hupdate, hl⟩ := bind_ok.mp hl
  rw [h.dev dp (h.live dp (by simp))] at halloc
  obtain ⟨i, hi, hifree, h1, hsame1, hinode1, hinum1⟩ := ialloc_held h htype halloc
  rw [hsame.inode] at hifree hinode1
  rw [hsame.ninodes] at hi
  obtain ⟨h3, hsame3, hv3, hinum3, -⟩ := ilock_held h1 hlock
  rw [hinum1] at hinum3
  obtain rfl := iupdate_ok hupdate
  have hof3 : s3.inodeOf ip = ⟨type, 0, []⟩ := by
    rw [Fs.inodeOf, hsame3.inode, hinode1, hinum3, set_self]
  rw [hinum3, hof3] at hl
  have hlinked : Held (one dp + one ip) none (s3.setInode i ⟨type, 1, []⟩) ∧ _ :=
    h3.setInode htype (fun j hj _ hc => hj (Option.some.inj hc).symm)
      fun _ h0 => absurd h0 one_ne_zero
  obtain ⟨h4, hsame4⟩ := hlinked
  have htable : (s3.setInode i ⟨type, 1, []⟩).inode = Inodes.set s0.inode i ⟨type, 1, []⟩ := by
    rw [Fs.setInode, hsame3.inode, hinode1]
    exact Function.update_idem ..
  have hd3 : (s3.icache dp).inum = d :=
    (hsame3.inum (by simp)).trans ((hsame1.inum (by simp)).trans hd)
  have hd4 : ((s3.setInode i ⟨type, 1, []⟩).icache dp).inum = d := hd3
  have hi4 : ((s3.setInode i ⟨type, 1, []⟩).icache ip).inum = i := hinum3
  have hv4 : ((s3.setInode i ⟨type, 1, []⟩).icache ip).valid = true := hv3
  have hsame0 : Same 0 s0 (s3.setInode i ⟨type, 1, []⟩) :=
    ((hsame.toSame.trans hsame1.none).trans hsame3.toSame.none).trans hsame4.none
  have hdi : d ≠ i := by
    rintro rfl
    exact hdfree hifree
  generalize hs4 : s3.setInode i ⟨type, 1, []⟩ = s4 at *
  obtain ⟨rfl, hl⟩ | ⟨hnodir, hl⟩ := ite_ok.mp hl
  · obtain ⟨u5, s5, hdots, hl⟩ := bind_ok.mp hl
    have hofd : s4.inodeOf dp = s0.inode d := by rw [Fs.inodeOf, htable, hd4, set_of_ne _ hdi]
    obtain ⟨h5, hsame5, hinode5⟩ := createDots_held h4 (by rw [hofd]; exact hdfree)
      (by rw [hofd]; exact hr.nlink d hdfree) hdots
    obtain ⟨rfl, h6, hsame6, hinode6⟩ := createEntry_held h5 hl
    rw [htable, hd4, hi4, enter_dots hdi hi.1] at hinode5
    rw [hinode5, hsame5.inum (by simp), hsame5.inum (by simp), hd4, hi4] at hinode6
    refine ⟨ip, rfl, h6, (hsame0.trans hsame5.none).trans hsame6.none,
      hsame6.valid (by simp) (hsame5.valid (by simp) hv4), ?_, ?_⟩
    · rw [hinode6]
      exact .dir (dirMade_create hr.shape hdir hi hifree)
    · rw [hinode6]
      have hd0 := (hr.range d hdfree).1
      refine ((hr.shape.relink d 1).set (fun _ => .mk hi.1 (by omega)) (absurd rfl)).enter ?_ hne
        hne' i
      rw [set_of_ne _ hdi, relink_type]
      exact hdir
  · obtain ⟨rfl, h6, hsame6, hinode6⟩ := createEntry_held h4 hl
    rw [htable, hd4, hi4] at hinode6
    refine ⟨ip, rfl, h6, hsame0.trans hsame6.none, hsame6.valid (by simp) hv4, ?_, ?_⟩
    · rw [hinode6]
      exact .name (nameAdded_create hr.shape hdir hi hifree hnodir htype)
    · rw [hinode6]
      refine (hr.shape.set (fun hc => absurd hc hnodir) fun _ => rfl).enter ?_ hne hne' i
      rw [set_of_ne _ hdi]
      exact hdir

theorem createOld_held (h : Held (one dp + one ip) none s)
    (hl : createOld dp ip type s = .ok (r, s')) :
    Held (givenInode r) none s' ∧ Quiet 0 s s' ∧
    ∀ e, r = some e → (s'.icache e).valid = true := by
  obtain ⟨u1, s1, hput, hl⟩ := bind_ok.mp hl
  obtain ⟨u2, s2, hlock, hl⟩ := bind_ok.mp hl
  rw [add_comm] at h
  obtain ⟨h1, hsame1⟩ := iunlockput_held h hput
  obtain ⟨h2, hsame2, hv, -⟩ := ilock_held h1 hlock
  have hsame := hsame1.none.trans hsame2.none
  obtain ⟨-, hl⟩ | ⟨-, hl⟩ := ite_ok.mp hl
  · obtain ⟨rfl, rfl⟩ := pure_ok.mp hl
    refine ⟨h2, hsame, ?_⟩
    rintro _ ⟨⟩
    exact hv
  · obtain ⟨u3, hput3, rfl⟩ := bind_pure_ok.mp hl
    rw [← zero_add (one ip)] at h2
    obtain ⟨h3, hsame3⟩ := iunlockput_held h2 hput3
    exact ⟨h3, hsame.trans hsame3, nofun⟩

/-- The inode is returned locked, and the table has changed where it is new. -/
theorem create_held (hr : Ready s) (htype : type ≠ .free)
    (hl : create p path type s = .ok (r, s')) :
    Held (givenInode r) none s' ∧ Same 0 s s' ∧ Shape s'.inode ∧
    (∀ e, r = some e → (s'.icache e).valid = true) ∧
    (s'.inode = s.inode ∨ ∃ d, s.newIn p path = some d ∧ Made s.ninodes s.inode s'.inode d) := by
  rw [create, bind_ok] at hl
  obtain ⟨r1, s1, hname, hl⟩ := hl
  obtain ⟨h1, hsame1, hparent⟩ := nameiparent_held hr.held hname
  rw [zero_add] at h1
  obtain _ | ⟨dp, name⟩ := r1
  · obtain ⟨rfl, rfl⟩ := pure_ok.mp hl
    exact ⟨h1, hsame1.toSame, by rw [hsame1.inode]; exact hr.shape, by simp, .inl hsame1.inode⟩
  · obtain ⟨u2, s2, hlock, hl⟩ := bind_ok.mp hl
    obtain ⟨r3, s3, hlookup, hl⟩ := bind_ok.mp hl
    obtain ⟨h2, hsame2, -, hinum2, -⟩ := ilock_held h1 hlock
    rw [given] at h2 hsame2
    obtain ⟨h3, hsame3, hdir, hnone, -⟩ := dirlookup_held h2 (by simp) hlookup
    have hsame := (hsame1.trans hsame2.none).trans hsame3.none
    have hofd : s2.inodeOf dp = s.inode (s1.icache dp).inum := by
      rw [Fs.inodeOf, hsame2.inode, hsame1.inode, hinum2]
    rw [hofd] at hdir hnone
    obtain _ | ⟨ip, off⟩ := r3
    · have hd3 : (s3.icache dp).inum = (s1.icache dp).inum :=
        (hsame3.inum (by simp)).trans hinum2
      obtain ⟨ip, rfl, h4, hsame4, hv, hmade, hshape⟩ :=
        createNew_held hr h3 hsame hd3 hdir (hnone rfl) htype hl
      refine ⟨h4, hsame4, hshape, ?_, .inr ⟨_, ?_, hmade⟩⟩
      · rintro _ ⟨⟩
        exact hv
      · rw [Fs.newIn, hparent, Option.map_some, Fs.place]
        dsimp only
        rw [Inodes.lookup, hnone rfl]
        rfl
    · obtain ⟨h4, hsame4, hv⟩ := createOld_held h3 hl
      have hsame := hsame.trans hsame4
      exact ⟨h4, hsame.toSame, by rw [hsame.inode]; exact hr.shape, hv, .inl hsame.inode⟩

/-! ### `mkdir`, `mknod` and `open` -/

theorem Ready.outstanding (hr : Ready s) (k : Int) : Ready { s with outstanding := k } :=
  ⟨⟨hr.held.refs, hr.held.dev, hr.held.unique, hr.held.valid, hr.held.pointed, hr.held.orphan⟩,
    hr.shape, hr.range, hr.nlink⟩

theorem sysMake_returned {path : Option Path} {r : Bool} (hr : Ready s) (htype : type ≠ .free)
    (hl : sysMake p path type s = .ok (r, s')) :
    ∃ t, Returned s s' t ∧ (t = s.inode ∨
      ∃ q d, path = some q ∧ s.newIn p q = some d ∧ Made s.ninodes s.inode t d) := by
  obtain ⟨u, s1, hbegin, hl⟩ := bind_ok.mp hl
  obtain ⟨h1, hsame1, -⟩ := fsBeginOp_held hr.held hbegin
  obtain rfl := changeFs_ok.mp hbegin
  cases path with
  | none =>
    exact ⟨_, endOp_returned h1 hsame1.ninodes hsame1.inode hr.shape hl, .inl rfl⟩
  | some path =>
    obtain ⟨r2, s2, hcreate, hl⟩ := bind_ok.mp hl
    obtain ⟨h2, hsame2, hshape, -, hcases⟩ := create_held (hr.outstanding _) htype hcreate
    replace hcases : s2.inode = s.inode ∨ ∃ q d, some path = some q ∧ s.newIn p q = some d ∧
        Made s.ninodes s.inode s2.inode d :=
      hcases.imp id fun ⟨d, hd⟩ => ⟨path, d, rfl, hd⟩
    match r2 with
    | none =>
      exact ⟨_, endOp_returned h2 hsame2.ninodes rfl hshape hl, hcases⟩
    | some ip => exact ⟨_, putEnd_returned h2 hsame2.ninodes rfl hshape hl, hcases⟩

theorem givenInode_eq (r : Option InodePtr) (e : InodePtr) :
    givenInode r e = if r = some e then 1 else 0 := by
  cases r with
  | none => rfl
  | some ip => simp only [givenInode, one, Pi.single_apply, Option.some.injEq, eq_comm]

theorem pointers_file (s : Fs n) (f : FileIdx) (r : Option InodePtr) (e : InodePtr) :
    ({ s with file := Function.update s.file f r } : Fs n).pointers e + givenInode (s.file f) e =
      s.pointers e + givenInode r e := by
  have hupdate := refCount_update s.file f r e
  rw [givenInode_eq, givenInode_eq]
  simp only [Fs.pointers]
  omega

theorem pointers_cwd (s : Fs n) (p : Fin n) (r : Option InodePtr) (e : InodePtr) :
    ({ s with cwd := Function.update s.cwd p r } : Fs n).pointers e + givenInode (s.cwd p) e =
      s.pointers e + givenInode r e := by
  have hupdate := refCount_update s.cwd p r e
  rw [givenInode_eq, givenInode_eq]
  simp only [Fs.pointers]
  omega

section

variable (h : Held (own + givenInode r) none s)
include h

/-- A pointer is set: the reference to the new inode is no longer the call's, the one to the old
inode is. -/
theorem Held.repoint {old : Option InodePtr}
    (hinode : s'.inode = s.inode) (hcache : s'.icache = s.icache)
    (hptr : ∀ e, s'.pointers e + givenInode old e = s.pointers e + givenInode r e)
    (halloc : ∀ ip, r = some ip → (s.inodeOf ip).type ≠ .free) :
    Held (own + givenInode old) (old.map fun e => (s.icache e).inum) s' := by
  refine h.move hinode hcache (fun e => ?_) (fun e he => ?_) (fun e hx he => ?_) fun _ _ => nofun
  · have := hptr e
    simp only [Pi.add_apply]
    omega
  · have := hptr e
    by_cases hnew : r = some e
    · exact .inr (halloc e hnew)
    · rw [givenInode_eq r, if_neg hnew] at this
      exact .inl (by omega)
  · have := hptr e
    have hold : old ≠ some e := by
      rintro rfl
      exact hx rfl
    rw [givenInode_eq old, if_neg hold] at this
    omega

theorem Held.setFile (f : FileIdx)
    (halloc : ∀ ip, r = some ip → (s.inodeOf ip).type ≠ .free) :
    Held (own + givenInode (s.file f)) ((s.file f).map fun e => (s.icache e).inum)
      { s with file := Function.update s.file f r } :=
  h.repoint rfl rfl (pointers_file s f r) halloc

theorem Held.setCwd (p : Fin n)
    (halloc : ∀ ip, r = some ip → (s.inodeOf ip).type ≠ .free) :
    Held (own + givenInode (s.cwd p)) ((s.cwd p).map fun e => (s.icache e).inum)
      { s with cwd := Function.update s.cwd p r } :=
  h.repoint rfl rfl (pointers_cwd s p r) halloc

end

theorem openFile_returned {fd : Bool} {r : Option FileIdx} (h : Held (one ip) none s)
    (hv : (s.icache ip).valid = true) (hn : s.ninodes = s0.ninodes) (ht : s.inode = t)
    (hshape : Shape t) (hl : openFile ip fd s = .ok (r, s')) :
    Returned s0 s' t := by
  rw [openFile, get_bind_ok] at hl
  cases hfree : freeFile s with
  | none =>
    rw [hfree] at hl
    exact putEnd_returned h hn ht hshape hl
  | some f =>
    rw [hfree] at hl
    cases fd with
    | false => exact putEnd_returned h hn ht hshape hl
    | true =>
      have hnone : s.file f = none := by simpa using List.find?_some hfree
      obtain ⟨u1, s3, hunlock, hl⟩ := bind_ok.mp hl
      obtain ⟨u2, s4, hend, hl⟩ := bind_ok.mp hl
      obtain ⟨u3, hset, rfl⟩ := bind_pure_ok.mp hl
      obtain rfl := changeFs_ok.mp hset
      obtain ⟨h3, hsame3, -⟩ := iunlock_held h hunlock
      obtain ⟨h4, hsame4, -⟩ := fsEndOp_held h3 hend
      have hsame := hsame3.trans hsame4
      have hvalid := hsame.valid (e := ip) (by simp) hv
      have halloc := h4.valid ip (h4.live ip (by simp)) hvalid
      rw [← zero_add (one ip)] at h4
      have hgive := h4.setFile (r := some ip) f (by rintro _ ⟨⟩; exact halloc)
      rw [hsame.file, hnone] at hgive
      refine ⟨?_, hsame.ninodes.trans hn, hshape, .inl (hsame.inode.trans ht)⟩
      rw [hsame.file]
      exact hgive

theorem openOld_held {omode : Omode} (h : Held 0 none s)
    (hl : openOld p path omode s = .ok (r, s')) :
    Held (givenInode r) none s' ∧ Quiet 0 s s' ∧
    ∀ e, r = some e → (s'.icache e).valid = true := by
  obtain ⟨r1, s1, hname, hl⟩ := bind_ok.mp hl
  obtain ⟨h1, hsame1⟩ := namei_held h hname
  rw [zero_add] at h1
  match r1 with
  | none =>
    obtain ⟨rfl, rfl⟩ := pure_ok.mp hl
    exact ⟨h1, hsame1, nofun⟩
  | some ip =>
    obtain ⟨u2, s2, hlock, hl⟩ := bind_ok.mp hl
    obtain ⟨h2, hsame2, hv, -⟩ := ilock_held h1 hlock
    have hsame := hsame1.trans hsame2.none
    obtain ⟨-, hl⟩ | ⟨-, hl⟩ := ite_ok.mp hl
    · obtain ⟨u3, hput, rfl⟩ := bind_pure_ok.mp hl
      rw [givenInode, ← zero_add (one ip)] at h2
      obtain ⟨h3, hsame3⟩ := iunlockput_held h2 hput
      exact ⟨h3, hsame.trans hsame3, nofun⟩
    · obtain ⟨rfl, rfl⟩ := pure_ok.mp hl
      refine ⟨h2, hsame, ?_⟩
      rintro _ ⟨⟩
      exact hv

theorem sysOpen_returned {path : Option Path} {omode : Omode} {fd : Bool} {r : Option FileIdx}
    (hr : Ready s) (hl : sysOpen p path omode fd s = .ok (r, s')) :
    ∃ t, Edit s (.open p path omode fd) t ∧ Returned s s' t := by
  cases path with
  | none =>
    obtain ⟨-, rfl⟩ := pure_ok.mp hl
    exact ⟨_, .keep rfl, .keep hr hr.held (.refl _ _)⟩
  | some path =>
    obtain ⟨u, s1, hbegin, hl⟩ := bind_ok.mp hl
    obtain rfl := changeFs_ok.mp hbegin
    obtain ⟨r2, s2, hopen, hl⟩ := bind_ok.mp hl
    have hopened : Held (givenInode r2) none s2 ∧ s2.ninodes = s.ninodes ∧ Shape s2.inode ∧
        (∀ e, r2 = some e → (s2.icache e).valid = true) ∧
        Edit s (.open p (some path) omode fd) s2.inode := by
      obtain ⟨hcreate, hopen⟩ | ⟨-, hopen⟩ := ite_ok.mp hopen
      · obtain ⟨h2, hsame2, hshape, hv, hcases⟩ := create_held (hr.outstanding _) (by decide) hopen
        refine ⟨h2, hsame2.ninodes, hshape, hv, ?_⟩
        obtain hkeep | ⟨d, hd, hmade⟩ := hcases
        · exact .keep hkeep
        · exact .make (by rw [FsCall.enters, if_pos hcreate]; exact hd) hmade
      · obtain ⟨h2, hsame2, hv⟩ := openOld_held (hr.outstanding _).held hopen
        exact ⟨h2, hsame2.ninodes, by rw [hsame2.inode]; exact hr.shape, hv, .keep hsame2.inode⟩
    obtain ⟨h2, hn, hshape, hv, hedit⟩ := hopened
    match r2 with
    | none =>
      exact ⟨_, hedit, endOp_returned h2 hn rfl hshape hl⟩
    | some ip => exact ⟨_, hedit, openFile_returned h2 (hv ip rfl) hn rfl hshape hl⟩

end Xv6
