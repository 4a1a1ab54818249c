/-
The other system calls, and all of them together.

`sys_link` adds the link before it looks for the new name's directory, and takes it back where it
cannot enter the name.  `chdir`, `close` and `exit` give up a pointer; the inode behind it is freed
if that was the last thing that held it.
-/
import Os.Proofs.Xv6.Effects

namespace Xv6

open Prog RefMap Inodes

variable {n : Nat} {s s' s0 : Fs n} {own : Own} {x : Option Nat} {dp ip : InodePtr} {name : Name}
variable {r driver : Bool} {p : Fin n} {u : Unit} {f : FileIdx}

/-! ### `sys_link` -/

theorem walk_relink (t : Inodes) (i : Nat) (k : Int) (parent : Bool) (path : List Name) (j : Nat) :
    (t.relink i k).walk parent path j = t.walk parent path j := by
  induction path generalizing j with
  | nil => rfl
  | cons name rest ih =>
    rw [Inodes.walk, Inodes.walk, relink_type, Inodes.lookup, Inodes.lookup, relink_slots]
    split
    · rfl
    split
    · rfl
    · cases (slotOf (t j).slots name).map fun off => ((t j).slots.getD off ⟨0, []⟩).inum with
      | none => rfl
      | some j' => exact ih j'

theorem Same.startOf (h : Same own s s') (p : Fin n) (path : Path) :
    s'.startOf p path = s.startOf p path := by
  unfold Fs.startOf
  rw [h.cwd]
  cases hp : s.cwd p with
  | none => rfl
  | some e =>
    have hpos : 0 < s.pointers e + own e := by
      have := refCount_pos hp
      unfold Fs.pointers
      omega
    simp only [Option.map_some, (h.entry e hpos).1]

theorem linkBad_returned {i : Nat} (hr : Ready s0) (h : Held (one ip) none s)
    (hsame : Same 0 s0 s) (hinode : s.inode = Inodes.relink s0.inode i 1)
    (hi : (s.icache ip).inum = i) (hfree : (s0.inode i).type ≠ .free)
    (hl : linkBad ip s = .ok (r, s')) : Returned s0 s' s0.inode := by
  obtain ⟨u1, s1, hlock, hl⟩ := bind_ok.mp hl
  obtain ⟨u2, s2, hupdate, hl⟩ := bind_ok.mp hl
  obtain ⟨h1, hsame1, -, hinum1, -⟩ := ilock_held h hlock
  obtain rfl := iupdate_ok hupdate
  rw [hi] at hinum1
  have hback : addLinks (-1) (s1.inodeOf ip) = s0.inode i := by
    rw [Fs.inodeOf, hsame1.inode, hinode, hinum1, relink, set_self]
    simp [addLinks]
  rw [hinum1, hback] at hl
  have hsame0 := hsame.trans hsame1.toSame.none
  -- Where the inode had no links before, somebody points to it.
  have hpointed : (s0.inode i).nlink = 0 →
      ∃ e, (s1.icache e).valid = true ∧ (s1.icache e).inum = i ∧ 0 < s1.pointers e := by
    intro h0
    obtain ⟨e, hv, hinum, hp⟩ := hr.held.orphan i (by simp) hfree h0
    obtain ⟨h1, h2⟩ := hsame0.entry e (by simpa using hp)
    exact ⟨e, h2 hv, h1.trans hinum, by rw [hsame0.pointers]; exact hp⟩
  have hset : Held (one ip) none (s1.setInode i (s0.inode i)) ∧ _ :=
    h1.setInode hfree (fun _ _ => id) fun _ => hpointed
  obtain ⟨h2, hsame2⟩ := hset
  have htable : (s1.setInode i (s0.inode i)).inode = s0.inode := by
    rw [Fs.setInode, hsame1.inode, hinode, relink, Inodes.set, Function.update_idem,
      Function.update_eq_self]
  exact putEnd_returned h2 (hsame2.ninodes.trans hsame0.ninodes) htable hr.shape hl

theorem linkIn_returned {i d : Nat} {old new : Path} (hr : Ready s0)
    (h : Held (one ip + one dp) none s) (hsame : Same 0 s0 s)
    (hinode : s.inode = Inodes.relink s0.inode i 1) (hi : (s.icache ip).inum = i)
    (hd : (s.icache dp).inum = d) (hfree : (s0.inode i).type ≠ .free)
    (hnodir : (s0.inode i).type ≠ .dir) (hp : s0.parentOf p new = some (d, name))
    (hl : linkIn ip dp name s = .ok (r, s')) :
    ∃ t, Edit s0 (.link p (some old) (some new)) t ∧ Returned s0 s' t := by
  have hbad : ∀ {s1 : Fs n} {r : Bool}, Held (one ip + one dp) none s1 →
      Quiet (one ip + one dp) s s1 →
      (do iunlockput dp; linkBad ip : FsM n Bool) s1 = .ok (r, s') →
      ∃ t, Edit s0 (.link p (some old) (some new)) t ∧ Returned s0 s' t := by
    intro s1 r h1 hsame1 hl
    obtain ⟨u2, s2, hput, hl⟩ := bind_ok.mp hl
    obtain ⟨h2, hsame2⟩ := iunlockput_held h1 hput
    have hsame12 := hsame1.of_add.trans hsame2
    exact ⟨_, .keep rfl, linkBad_returned hr h2 (hsame.trans hsame12.toSame.none)
      (hsame12.inode.trans hinode) ((hsame12.inum (by simp)).trans hi) hfree hl⟩
  obtain ⟨-, hl⟩ | ⟨-, hl⟩ := ite_ok.mp hl
  · exact hbad h (.refl _ _) hl
  obtain ⟨b, s1, hlink, hl⟩ := bind_ok.mp hl
  cases b with
  | false =>
    obtain ⟨h1, hsame1⟩ := dirlink_false h (by simp) hlink
    exact hbad h1 hsame1 hl
  | true =>
    obtain ⟨h1, hsame1, hinode1, hdir, hnone⟩ := dirlink_true h hlink
    obtain ⟨u3, s3, hput, hl⟩ := bind_ok.mp hl
    obtain ⟨u4, s4, hput4, hl⟩ := bind_ok.mp hl
    obtain ⟨u5, hend, -⟩ := bind_pure_ok.mp hl
    obtain ⟨h3, hsame3⟩ := iunlockput_held h1 hput
    rw [← zero_add (one ip)] at h3
    obtain ⟨h4, hsame4⟩ := iput_held h3 hput4
    obtain ⟨h5, hsame5, -⟩ := fsEndOp_held h4 hend
    have hsame15 := (hsame3.none.trans hsame4).trans hsame5
    rw [hinode, hi, hd] at hinode1
    rw [Fs.inodeOf, hinode, hd, relink_type] at hdir
    rw [Fs.inodeOf, hinode, hd, relink_slots] at hnone
    obtain ⟨hne, hne'⟩ := hr.shape.ne_dots hdir hnone
    obtain ⟨hi0, hiN⟩ := hr.range i hfree
    refine ⟨_, .make ?_ (.name (nameAdded_link hr.shape hdir ⟨by omega, hiN⟩ hnodir hfree)), h5, ?_,
      (hr.shape.relink i 1).enter (by rw [relink_type]; exact hdir) hne hne' i,
      .inl (hsame15.inode.trans hinode1)⟩
    · rw [FsCall.enters, Fs.newIn, hp]
      dsimp only
      rw [Inodes.lookup, hnone]
      rfl
    · exact hsame15.ninodes.trans (hsame1.ninodes.trans hsame.ninodes)

theorem linkInode_returned {old new : Path} (hr : Ready s0) (h : Held (one ip) none s)
    (hsame : Quiet 0 s0 s) (hl : linkInode p ip new s = .ok (r, s')) :
    ∃ t, Edit s0 (.link p (some old) (some new)) t ∧ Returned s0 s' t := by
  rw [linkInode, bind_ok] at hl
  obtain ⟨u1, s1, hlock, hl⟩ := hl
  obtain ⟨h1, hsame1, -, hinum1, hfree⟩ := ilock_held h hlock
  have hsame0 := hsame.trans hsame1.none
  have hof : s1.inodeOf ip = s0.inode (s.icache ip).inum := by
    rw [Fs.inodeOf, hsame0.inode, hinum1]
  rw [Fs.inodeOf, hsame.inode] at hfree
  obtain ⟨-, hl⟩ | ⟨hnodir, hl⟩ := ite_ok.mp hl
  · exact ⟨_, .keep rfl, putEnd_returned h1 hsame0.ninodes hsame0.inode hr.shape hl⟩
  rw [hof] at hnodir
  set i := (s.icache ip).inum with hi
  obtain ⟨u2, s2, hupdate, hl⟩ := bind_ok.mp hl
  obtain rfl := iupdate_ok hupdate
  rw [hinum1, hof] at hl
  have hnlink := hr.nlink i hfree
  have hset : Held (one ip) none (s1.setInode i (addLinks 1 (s0.inode i))) ∧ _ :=
    h1.setInode hfree (fun _ _ => id) fun _ h0 => by
      have : (s0.inode i).nlink + 1 = 0 := h0
      omega
  obtain ⟨h2, hsame2⟩ := hset
  have htable : (s1.setInode i (addLinks 1 (s0.inode i))).inode = Inodes.relink s0.inode i 1 := by
    rw [Fs.setInode, hsame0.inode]
    rfl
  obtain ⟨u4, s4, hunlock, hl⟩ := bind_ok.mp hl
  obtain ⟨r5, s5, hname, hl⟩ := bind_ok.mp hl
  obtain ⟨h4, hsame4, -⟩ := iunlock_held h2 hunlock
  obtain ⟨h5, hsame5, hparent⟩ := nameiparent_held h4 hname
  have hsame04 := (hsame0.toSame.trans hsame2.none).trans hsame4.toSame.none
  have hsame05 := hsame04.trans hsame5.toSame.none
  have hi5 : (s5.icache ip).inum = i :=
    ((hsame4.trans hsame5).inum (by simp)).trans ((hsame2.inum (by simp)).trans hinum1)
  have hinode0 := (hsame4.trans hsame5).inode.trans htable
  obtain _ | ⟨dp, name⟩ := r5
  · exact ⟨_, .keep rfl, linkBad_returned hr h5 hsame05 hinode0 hi5 hfree hl⟩
  · obtain ⟨u6, s6, hlock6, hl⟩ := bind_ok.mp hl
    obtain ⟨h6, hsame6, -, hinum6, -⟩ := ilock_held h5 hlock6
    have hp : s0.parentOf p new = some ((s5.icache dp).inum, name) := by
      refine Eq.trans ?_ hparent
      rw [Fs.parentOf, Fs.parentOf, hsame04.startOf, hsame4.inode, htable]
      congr 1
      funext j
      exact (walk_relink _ i 1 _ _ j).symm
    exact linkIn_returned hr h6 (hsame05.trans hsame6.toSame.none)
      (hsame6.inode.trans hinode0) ((hsame6.inum (by simp)).trans hi5) hinum6 hfree hnodir hp hl

theorem sysLink_returned {old new : Option Path} (hr : Ready s)
    (hl : sysLink p old new s = .ok (r, s')) :
    ∃ t, Edit s (.link p old new) t ∧ Returned s s' t := by
  unfold sysLink at hl
  split at hl
  next old new =>
    obtain ⟨u1, s1, hbegin, hl⟩ := bind_ok.mp hl
    obtain ⟨h1, hsame1, -⟩ := fsBeginOp_held hr.held hbegin
    obtain ⟨r2, s2, hname, hl⟩ := bind_ok.mp hl
    obtain ⟨h2, hsame2⟩ := namei_held h1 hname
    rw [zero_add] at h2
    match r2 with
    | none =>
      have hsame := hsame1.trans hsame2
      exact ⟨_, .keep rfl, endOp_returned h2 hsame.ninodes hsame.inode hr.shape hl⟩
    | some ip => exact linkInode_returned hr h2 (hsame1.trans hsame2) hl
  next =>
    obtain ⟨-, rfl⟩ := pure_ok.mp hl
    exact ⟨_, .keep rfl, .keep hr hr.held (.refl _ _)⟩

/-! ### Reading and writing -/

theorem inodeIo_held (h : Held own x s) (hl : inodeIo ip driver s = .ok (u, s')) :
    Held own x s' ∧ Quiet own s s' := by
  obtain ⟨-, hl⟩ | ⟨-, hl⟩ := ite_ok.mp hl
  · obtain ⟨u1, s1, hunlock, hlock⟩ := bind_ok.mp hl
    obtain ⟨h1, hsame1, -⟩ := iunlock_held h hunlock
    obtain ⟨h2, hsame2, -⟩ := ilock_held h1 hlock
    exact ⟨h2, hsame1.trans hsame2⟩
  · obtain ⟨-, rfl⟩ := pure_ok.mp hl
    exact ⟨h, .refl _ _⟩

theorem writeChunks_held {chunks : List Bool} (h : Held own x s)
    (hl : writeChunks ip driver chunks s = .ok (u, s')) :
    Held own x s' ∧ Quiet own s s' := by
  induction chunks generalizing s with
  | nil =>
    obtain ⟨-, rfl⟩ := pure_ok.mp hl
    exact ⟨h, .refl _ _⟩
  | cons good rest ih =>
    obtain ⟨u1, s1, hbegin, hl⟩ := bind_ok.mp hl
    obtain ⟨u2, s2, hlock, hl⟩ := bind_ok.mp hl
    obtain ⟨u3, s3, hio, hl⟩ := bind_ok.mp hl
    obtain ⟨u4, s4, hunlock, hl⟩ := bind_ok.mp hl
    obtain ⟨u5, s5, hend, hl⟩ := bind_ok.mp hl
    obtain ⟨h1, hsame1, -⟩ := fsBeginOp_held h hbegin
    obtain ⟨h2, hsame2, -⟩ := ilock_held h1 hlock
    obtain ⟨h3, hsame3⟩ := inodeIo_held h2 hio
    obtain ⟨h4, hsame4, -⟩ := iunlock_held h3 hunlock
    obtain ⟨h5, hsame5, -⟩ := fsEndOp_held h4 hend
    have hsame := (((hsame1.trans hsame2).trans hsame3).trans hsame4).trans hsame5
    obtain ⟨-, hl⟩ | ⟨-, hl⟩ := ite_ok.mp hl
    · obtain ⟨h6, hsame6⟩ := ih h5 hl
      exact ⟨h6, hsame.trans hsame6⟩
    · obtain ⟨-, rfl⟩ := pure_ok.mp hl
      exact ⟨h5, hsame⟩

theorem fileOf_ok (h : fileOf f s = .ok (ip, s')) : s' = s := by
  rw [fileOf, get_bind_ok] at h
  cases hf : s.file f with
  | none =>
    rw [hf] at h
    exact (throw_ok.mp h).elim
  | some e =>
    rw [hf] at h
    exact (pure_ok.mp h).2

theorem sysReadFile_returned {readable : Bool} (hr : Ready s)
    (hl : sysReadFile f readable driver s = .ok (r, s')) : Returned s s' s.inode := by
  obtain ⟨ip, s1, hfile, hbody⟩ := bind_ok.mp hl
  obtain rfl := fileOf_ok hfile
  obtain ⟨-, hl⟩ | ⟨-, hl⟩ := ite_ok.mp hbody
  · obtain ⟨u2, s2, hlock, hl⟩ := bind_ok.mp hl
    obtain ⟨u3, s3, hio, hl⟩ := bind_ok.mp hl
    obtain ⟨u4, hunlock, -⟩ := bind_pure_ok.mp hl
    obtain ⟨h2, hsame2, -⟩ := ilock_held hr.held hlock
    obtain ⟨h3, hsame3⟩ := inodeIo_held h2 hio
    obtain ⟨h4, hsame4, -⟩ := iunlock_held h3 hunlock
    exact .keep hr h4 ((hsame2.trans hsame3).trans hsame4)
  · obtain ⟨-, rfl⟩ := pure_ok.mp hl
    exact .keep hr hr.held (.refl _ _)

theorem sysWriteFile_returned {writable : Bool} {chunks : List Bool} (hr : Ready s)
    (hl : sysWriteFile f writable driver chunks s = .ok (r, s')) :
    Returned s s' s.inode := by
  obtain ⟨ip, s1, hfile, hbody⟩ := bind_ok.mp hl
  obtain rfl := fileOf_ok hfile
  obtain ⟨-, hl⟩ | ⟨-, hl⟩ := ite_ok.mp hbody
  · obtain ⟨u2, hchunks, -⟩ := bind_pure_ok.mp hl
    obtain ⟨h2, hsame2⟩ := writeChunks_held hr.held hchunks
    exact .keep hr h2 hsame2
  · obtain ⟨-, rfl⟩ := pure_ok.mp hl
    exact .keep hr hr.held (.refl _ _)

theorem execInode_returned {path : Option Path} {loaded : Bool} (hr : Ready s)
    (hl : execInode p path driver loaded s = .ok (r, s')) : Returned s s' s.inode := by
  cases path with
  | none =>
    obtain ⟨-, rfl⟩ := pure_ok.mp hl
    exact .keep hr hr.held (.refl _ _)
  | some path =>
    obtain ⟨u1, s1, hbegin, hl⟩ := bind_ok.mp hl
    obtain ⟨h1, hsame1, -⟩ := fsBeginOp_held hr.held hbegin
    obtain ⟨r2, s2, hname, hl⟩ := bind_ok.mp hl
    obtain ⟨h2, hsame2⟩ := namei_held h1 hname
    rw [zero_add] at h2
    have hsame := hsame1.trans hsame2
    match r2 with
    | none => exact endOp_returned h2 hsame.ninodes hsame.inode hr.shape hl
    | some ip =>
      obtain ⟨u3, s3, hlock, hl⟩ := bind_ok.mp hl
      obtain ⟨u4, s4, hio, hl⟩ := bind_ok.mp hl
      obtain ⟨h3, hsame3, -⟩ := ilock_held h2 hlock
      obtain ⟨h4, hsame4⟩ := inodeIo_held h3 hio
      have hsame := hsame.trans (hsame3.trans hsame4).none
      exact putEnd_returned h4 hsame.ninodes hsame.inode hr.shape hl

/-! ### Giving up a pointer -/

/-- The inode behind a pointer that is gone is let go; `s` is the state before, `u` after. -/
theorem Held.letGo {u : Fs n} (hs : Held own none s) (hp : 0 < s.pointers ip)
    (hinode : u.inode = s.inode) (hcache : u.icache = s.icache) (hl : (s.icache ip).locked = false)
    (h : Held (one ip) (some (s.icache ip).inum) u) :
    Held 0 none (u.putRef ip) ∧ (u.putRef ip).ninodes = u.ninodes ∧
    ((u.putRef ip).inode = s.inode ∨ ∃ i, Freed s.inode (u.putRef ip).inode i) := by
  have hvalid : (s.inodeOf ip).type ≠ .free → (s.inodeOf ip).nlink = 0 →
      (s.icache ip).valid = true := by
    intro hfree h0
    obtain ⟨e, hv, hinum, hpe⟩ := hs.orphan _ nofun hfree h0
    obtain rfl := hs.unique e ip (hs.live_of_pointers hpe) (hs.live_of_pointers hp) hinum
    exact hv
  have hof : u.inodeOf ip = s.inodeOf ip := by rw [Fs.inodeOf, Fs.inodeOf, hinode, hcache]
  rw [← hcache] at h hl hvalid
  rw [← hof] at hvalid
  obtain ⟨hheld, hn, hcases⟩ := h.putRef_own hl hvalid
  rw [hinode] at hcases
  exact ⟨hheld, hn, hcases.imp id fun hf => ⟨_, hf⟩⟩

theorem putRef_cwd (s : Fs n) (ip : InodePtr) (c : Fin n → Option InodePtr) :
    ({ s with cwd := c } : Fs n).putRef ip = { s.putRef ip with cwd := c } := by
  unfold Fs.putRef Fs.freed
  have hlast : (({ s with cwd := c } : Fs n).setLocked ip true).lastRef ip =
      (s.setLocked ip true).lastRef ip := rfl
  rw [hlast]
  split <;> rfl

theorem putRef_cwd_eq (s : Fs n) (ip : InodePtr) : (s.putRef ip).cwd = s.cwd := by
  unfold Fs.putRef Fs.freed
  split <;> rfl

theorem pointers_of_cwd (h : s.cwd p = some ip) : 0 < s.pointers ip := by
  have := refCount_pos h
  unfold Fs.pointers
  omega

theorem Returned.outstanding {t : Inodes} {k : Int} (h : Returned s0 s t) :
    Returned s0 { s with outstanding := k } t :=
  ⟨⟨h.held.refs, h.held.dev, h.held.unique, h.held.valid, h.held.pointed, h.held.orphan⟩,
    h.ninodes, h.shape, h.inode⟩

/-- The last reference through a current directory is dropped, and then the pointer is set. -/
theorem cwd_returned {old : InodePtr} {r : Option InodePtr} (hr : Ready s0)
    (h : Held (0 + givenInode r) none s) (hn : s.ninodes = s0.ninodes)
    (hinode : s.inode = s0.inode) (hold : s.cwd p = some old)
    (halloc : ∀ ip, r = some ip → (s.inodeOf ip).type ≠ .free)
    (hl : (s.icache old).locked = false) :
    Returned s0 { s.putRef old with cwd := Function.update (s.putRef old).cwd p r } s0.inode := by
  have hset := h.setCwd p halloc
  rw [hold, zero_add] at hset
  obtain ⟨hheld, hn', hcases⟩ := h.letGo (pointers_of_cwd hold)
    (u := { s with cwd := Function.update s.cwd p r }) rfl rfl hl hset
  rw [putRef_cwd] at hheld hn' hcases
  rw [putRef_cwd_eq]
  rw [hinode] at hcases
  exact ⟨hheld, hn'.trans hn, hr.shape, hcases⟩

theorem enterDir_returned {old : InodePtr} (hr : Ready s0) (h : Held (one ip) none s)
    (hn : s.ninodes = s0.ninodes) (hinode : s.inode = s0.inode) (hold : s.cwd p = some old)
    (halloc : (s.inodeOf ip).type ≠ .free) (hl : enterDir p ip old s = .ok (u, s')) :
    Returned s0 s' s0.inode := by
  obtain ⟨u1, s1, hput, hl⟩ := bind_ok.mp hl
  obtain ⟨u2, s2, hend, hl⟩ := bind_ok.mp hl
  obtain rfl := changeFs_ok.mp hl
  obtain rfl := changeFs_ok.mp hend
  obtain ⟨hlock, rfl⟩ := iput_ok hput
  rw [← zero_add (one ip)] at h
  exact (cwd_returned (r := some ip) hr h hn hinode hold (by rintro _ ⟨⟩; exact halloc)
    hlock).outstanding

theorem sysChdir_returned {path : Option Path} (hr : Ready s)
    (hl : sysChdir p path s = .ok (r, s')) : Returned s s' s.inode := by
  obtain ⟨u1, s1, hbegin, hl⟩ := bind_ok.mp hl
  obtain ⟨h1, hsame1, -⟩ := fsBeginOp_held hr.held hbegin
  cases path with
  | none =>
    exact endOp_returned h1 hsame1.ninodes hsame1.inode hr.shape hl
  | some path =>
    obtain ⟨r2, s2, hname, hl⟩ := bind_ok.mp hl
    obtain ⟨h2, hsame2⟩ := namei_held h1 hname
    rw [zero_add] at h2
    have hsame := hsame1.trans hsame2
    match r2 with
    | none => exact endOp_returned h2 hsame.ninodes hsame.inode hr.shape hl
    | some ip =>
      obtain ⟨u3, s3, hlock, hl⟩ := bind_ok.mp hl
      obtain ⟨h3, hsame3, -, hinum3, hfree⟩ := ilock_held h2 hlock
      have hsame := hsame.trans hsame3.none
      rw [givenInode] at h3
      obtain ⟨-, hl⟩ | ⟨-, hl⟩ := ite_ok.mp hl
      · exact putEnd_returned h3 hsame.ninodes hsame.inode hr.shape hl
      obtain ⟨u5, s6, hunlock, hl⟩ := bind_ok.mp hl
      obtain ⟨h5, hsame5, -⟩ := iunlock_held h3 hunlock
      have hsame := hsame.trans hsame5.none
      obtain ⟨old, s7, hcwd, hrest⟩ := bind_ok.mp hl
      obtain ⟨hold, rfl⟩ := cwdOf_ok hcwd
      obtain ⟨u7, henter, -⟩ := bind_pure_ok.mp hrest
      refine enterDir_returned hr h5 hsame.ninodes hsame.inode hold ?_ henter
      rw [Fs.inodeOf, hsame5.inode, hsame3.inode, hsame5.inum (by simp), hinum3]
      exact hfree

theorem exitCwd_returned (hr : Ready s) (hl : exitCwd p s = .ok (u, s')) :
    Returned s s' s.inode := by
  rw [exitCwd, bind_ok] at hl
  obtain ⟨ip, s1, hcwd, hl⟩ := hl
  obtain ⟨hp, rfl⟩ := cwdOf_ok hcwd
  obtain ⟨u1, s2, hbegin, hl⟩ := bind_ok.mp hl
  obtain ⟨u2, s3, hput, hl⟩ := bind_ok.mp hl
  obtain ⟨u3, s4, hend, hl⟩ := bind_ok.mp hl
  obtain rfl := changeFs_ok.mp hl
  obtain rfl := changeFs_ok.mp hend
  obtain ⟨h2, hsame2, -⟩ := fsBeginOp_held hr.held hbegin
  obtain ⟨hlock, rfl⟩ := iput_ok hput
  exact (cwd_returned (r := none) hr h2 hsame2.ninodes hsame2.inode (by rw [hsame2.cwd]; exact hp)
    (by simp) hlock).outstanding

theorem sysCloseFile_returned {last : Bool} (hr : Ready s)
    (hl : sysCloseFile f last s = .ok (u, s')) : Returned s s' s.inode := by
  rw [sysCloseFile, get_bind_ok] at hl
  cases hf : s.file f with
  | none =>
    rw [hf] at hl
    exact (throw_ok.mp hl).elim
  | some ip =>
    rw [hf] at hl
    obtain ⟨-, hl⟩ | ⟨-, hl⟩ := ite_ok.mp hl
    · obtain ⟨u1, s3, hset, hl⟩ := bind_ok.mp hl
      obtain ⟨u2, s4, hbegin, hl⟩ := bind_ok.mp hl
      obtain ⟨u3, s5, hput, hl⟩ := bind_ok.mp hl
      obtain rfl := changeFs_ok.mp hl
      obtain rfl := changeFs_ok.mp hset
      have hp : 0 < s.pointers ip := by
        have := refCount_pos hf
        unfold Fs.pointers
        omega
      have h := hr.held
      rw [← add_zero (0 : Own)] at h
      have hgone := h.setFile (r := none) f (by simp)
      rw [hf, zero_add] at hgone
      obtain ⟨h4, hsame4, hcache4⟩ := fsBeginOp_held hgone hbegin
      obtain ⟨hlock, rfl⟩ := iput_ok hput
      rw [hcache4] at hlock
      obtain ⟨hheld, hn, hcases⟩ := hr.held.letGo hp hsame4.inode hcache4 hlock h4
      exact .outstanding ⟨hheld, hn.trans hsame4.ninodes, hr.shape, hcases⟩
    · obtain ⟨-, rfl⟩ := pure_ok.mp hl
      exact .keep hr hr.held (.refl _ _)

theorem forkCwd_returned {q : Fin n} (hr : Ready s) (hl : forkCwd p q s = .ok (u, s')) :
    Returned s s' s.inode := by
  obtain ⟨hq, hl⟩ | ⟨-, hc⟩ := ite_ok.mp hl
  · obtain ⟨ip, s3, hdup, hl⟩ := bind_ok.mp hl
    obtain rfl := changeFs_ok.mp hl
    obtain ⟨e, s4, hcwd, hadd⟩ := bind_ok.mp hdup
    obtain ⟨hp, rfl⟩ := cwdOf_ok hcwd
    obtain ⟨u1, hchange, rfl⟩ := bind_pure_ok.mp hadd
    obtain rfl := changeFs_ok.mp hchange
    have hptr := pointers_of_cwd hp
    obtain ⟨h1, hsame1⟩ := hr.held.addRef (hr.held.live_of_pointers hptr)
    have hset := h1.setCwd (r := some ip) q (by
      rintro _ ⟨⟩
      exact h1.pointed ip hptr)
    have hq' : (s4.addRef ip 1).cwd q = none := hq
    rw [hq'] at hset
    exact ⟨hset, rfl, hr.shape, .inl rfl⟩
  · exact (throw_ok.mp hc).elim

/-! ### Every call -/

/-- **What a call does**: one of few changes of the table, and then one inode may be freed. -/
theorem fsStep_returned {call : FsCall n} (hr : Ready s)
    (hlast : ∀ d i, call.removes s = some (d, i) → (s.inode d).nlink ≠ 1)
    (h : fsStep s call = some s') : ∃ t, Edit s call t ∧ Returned s s' t := by
  unfold fsStep at h
  cases hrun : call.run s with
  | error e =>
    rw [hrun] at h
    cases h
  | ok r =>
    rw [hrun] at h
    cases h
    cases call with
    | «open» p path omode fd =>
      obtain ⟨a, hca, -⟩ := bind_pure_ok.mp hrun
      exact sysOpen_returned hr hca
    | mkdir p path =>
      obtain ⟨a, hca, -⟩ := bind_pure_ok.mp hrun
      obtain ⟨t, hret, rfl | ⟨q, d, rfl, hd, hmade⟩⟩ := sysMake_returned hr (by decide) hca
      · exact ⟨_, .keep rfl, hret⟩
      · exact ⟨t, .make hd hmade, hret⟩
    | mknod p path args =>
      obtain ⟨a, hca, -⟩ := bind_pure_ok.mp hrun
      obtain ⟨t, hret, rfl | ⟨q, d, hq, hd, hmade⟩⟩ := sysMake_returned hr (by decide) hca
      · exact ⟨_, .keep rfl, hret⟩
      cases args with
      | false => cases hq
      | true =>
        obtain rfl : path = some q := hq
        exact ⟨t, .make hd hmade, hret⟩
    | link p old new =>
      obtain ⟨a, hca, -⟩ := bind_pure_ok.mp hrun
      exact sysLink_returned hr hca
    | unlink p path =>
      obtain ⟨a, hca, -⟩ := bind_pure_ok.mp hrun
      exact sysUnlink_returned hr hlast hca
    | chdir p path =>
      obtain ⟨a, hca, -⟩ := bind_pure_ok.mp hrun
      exact ⟨_, .keep rfl, sysChdir_returned hr hca⟩
    | exec p path driver loaded =>
      obtain ⟨a, hca, -⟩ := bind_pure_ok.mp hrun
      exact ⟨_, .keep rfl, execInode_returned hr hca⟩
    | close f last => exact ⟨_, .keep rfl, sysCloseFile_returned hr hrun⟩
    | read f readable driver =>
      obtain ⟨a, hca, -⟩ := bind_pure_ok.mp hrun
      exact ⟨_, .keep rfl, sysReadFile_returned hr hca⟩
    | write f writable driver chunks =>
      obtain ⟨a, hca, -⟩ := bind_pure_ok.mp hrun
      exact ⟨_, .keep rfl, sysWriteFile_returned hr hca⟩
    | fork p q => exact ⟨_, .keep rfl, forkCwd_returned hr hrun⟩
    | exit p => exact ⟨_, .keep rfl, exitCwd_returned hr hrun⟩

end Xv6
