/-
Link counts.

The image of `mkfs` is a tree of one directory, and every call keeps the tree, as long as nothing
is entered in a directory that has been removed.  In a tree the links of an inode are the entries
for it, whatever has links can be reached, and what has none is pointed to.
-/
import Os.Proofs.Xv6.Returns

namespace Xv6

open RefMap Runs Inodes List

variable {n : Nat}

/-! ### The image of `mkfs` -/

section Boot

variable {names : List Name}

theorem countIn_mapIdx (names : List Name) (a i : Nat) :
    countIn (names.mapIdx fun k name => ⟨k + a, name⟩) i =
      if a ≤ i ∧ i < a + names.length then 1 else 0 := by
  induction names generalizing a with
  | nil =>
    rw [if_neg (by simp)]
    rfl
  | cons name rest ih =>
    have hshift : (fun k (name : Name) => (⟨k + 1 + a, name⟩ : Dirent)) =
        fun k name => ⟨k + (a + 1), name⟩ := by
      funext k name
      rw [Nat.add_right_comm, Nat.add_assoc]
    have hrest := ih (a + 1)
    unfold countIn at hrest ⊢
    rw [mapIdx_cons, countP_cons, hshift, hrest]
    simp only [Nat.zero_add, decide_eq_true_eq, length_cons]
    split_ifs <;> omega

theorem mkfsRoot_eq (names : List Name) : ∃ m, mkfsRoot names =
    ⟨rootino, dot⟩ :: ⟨rootino, dotdot⟩ ::
      (names.mapIdx (fun k name => ⟨k + 2, name⟩) ++ List.replicate m ⟨0, []⟩) :=
  ⟨_, rfl⟩

theorem boot_held (names : List Name) {i : Nat} (hi : i ≠ 0) :
    Inodes.held (mkfsInode names) rootino i =
      if 2 ≤ i ∧ i < names.length + 2 then 1 else 0 := by
  obtain ⟨m, hm⟩ := mkfsRoot_eq names
  have hroot : (mkfsInode names rootino).slots = mkfsRoot names := rfl
  have hcount := countIn_mapIdx names 2 i
  unfold countIn at hcount
  rw [held, hroot, hm]
  change List.countP _ (_ ++ _) = _
  rw [countP_append, countP_replicate, if_neg (by simpa using hi.symm), Nat.add_zero,
    hcount, Nat.add_comm 2]

theorem boot_up (names : List Name) : Inodes.up (mkfsInode names) rootino = rootino := by
  obtain ⟨m, hm⟩ := mkfsRoot_eq names
  have hroot : (mkfsInode names rootino).slots = mkfsRoot names := rfl
  rfl

theorem boot_dir {d : Nat} (h : (mkfsInode names d).type = .dir) : d = rootino := by
  unfold mkfsInode at h
  split at h
  next hd => exact hd
  next =>
    split at h
    · cases h
    · cases h

theorem boot_type {i : Nat} (h : (mkfsInode names i).type ≠ .free) :
    i = rootino ∨ 2 ≤ i ∧ i < names.length + 2 := by
  unfold mkfsInode at h
  split at h
  next hi => exact .inl hi
  next =>
    split at h
    next hi => exact .inr hi
    next => exact absurd rfl h

theorem boot_file {i : Nat} (h : 2 ≤ i ∧ i < names.length + 2) :
    mkfsInode names i = ⟨.file, 1, []⟩ := by
  unfold mkfsInode
  rw [if_neg (by unfold rootino; omega), if_pos h]

theorem boot_nlink {i : Nat} (h : (mkfsInode names i).type ≠ .free) :
    (mkfsInode names i).nlink = 1 := by
  obtain rfl | hi := boot_type h
  · rfl
  · rw [boot_file hi]

theorem boot_shape (hdots : ∀ name ∈ names, name ≠ dot ∧ name ≠ dotdot) :
    Shape (mkfsInode names) := by
  intro d
  constructor
  · intro hd
    obtain rfl := boot_dir hd
    obtain ⟨m, hm⟩ := mkfsRoot_eq names
    refine ⟨rootino, _, hm, by decide, by decide, fun e he h0 => ?_⟩
    rcases mem_append.mp he with he | he
    · obtain ⟨k, hk, rfl⟩ := mem_mapIdx.mp he
      exact hdots _ (getElem_mem hk)
    · rw [eq_of_mem_replicate he] at h0
      exact absurd rfl h0
  · intro hd
    unfold mkfsInode at hd ⊢
    split
    next hroot =>
      rw [if_pos hroot] at hd
      exact absurd rfl hd
    next =>
      split
      · rfl
      · rfl

theorem boot_icache (e : InodePtr) : (fsBoot (n + 1) names).pointers e =
    if e = ⟨0, by decide⟩ then 1 else 0 := by
  have hcwd : (fsBoot (n + 1) names).cwd =
      Function.update (fun _ => none) 0 (some ⟨0, by decide⟩) := by
    funext p
    simp only [fsBoot, Function.update_apply, Fin.ext_iff, Fin.val_zero]
  have hnone : refCount (fun _ : Fin (n + 1) => (none : Option InodePtr)) e = 0 :=
    refCount_eq_zero.mpr fun _ => nofun
  have hfile : refCount (fsBoot (n + 1) names).file e = 0 := refCount_eq_zero.mpr fun _ => nofun
  have hupdate := refCount_update (fun _ : Fin (n + 1) => (none : Option InodePtr)) 0
    (some ⟨0, by decide⟩) e
  rw [hnone] at hupdate
  simp only [reduceCtorEq, if_false, Nat.add_zero, Nat.zero_add, Option.some.injEq] at hupdate
  rw [Fs.pointers, hcwd, hupdate, hfile]
  simp only [eq_comm (a := e), Nat.cast_zero, add_zero]
  split <;> rfl

theorem boot_isHeld : Held 0 none (fsBoot (n + 1) names) := by
  have hcache : ∀ e, (fsBoot (n + 1) names).icache e =
      if e = ⟨0, by decide⟩ then ⟨rootdev, rootino, 1, false, false⟩ else ⟨0, 0, 0, false, false⟩ :=
    fun _ => rfl
  have hlive : ∀ e, 0 < ((fsBoot (n + 1) names).icache e).ref → e = ⟨0, by decide⟩ := by
    intro e he
    by_contra hc
    rw [hcache, if_neg hc] at he
    exact absurd he (by decide)
  refine ⟨fun e => ?_, fun e he => ?_, fun e e' he he' _ => ?_, fun e _ hv => ?_, fun e he => ?_,
    fun i _ hi h0 => ?_⟩
  · rw [boot_icache, hcache]
    split <;> rfl
  · rw [hlive e he]
    rfl
  · rw [hlive e he, hlive e' he']
  · rw [hcache] at hv
    split at hv <;> cases hv
  · rw [boot_icache] at he
    split at he
    next hc =>
      rw [hc]
      exact nofun
    next => exact absurd he (by decide)
  · have := boot_nlink hi
    rw [show (fsBoot (n + 1) names).inode i = mkfsInode names i from rfl, this] at h0
    exact absurd h0 (by decide)

theorem boot_tree (hlen : names.length + 2 ≤ 200) : TreeInv 200 (mkfsInode names) := by
  have hlinked : ∀ {d}, Linked (mkfsInode names) d → d = rootino := fun h => boot_dir h.1
  have hroot : Linked (mkfsInode names) rootino := ⟨rfl, Int.one_pos⟩
  have hlinks : ∀ i, Inodes.links (mkfsInode names) 200 i =
      Inodes.linksIn (mkfsInode names) rootino i := fun i =>
    Finset.sum_eq_single_of_mem rootino (Finset.mem_range.mpr (by decide)) fun d _ hd =>
      if_neg fun hl => hd (hlinked hl)
  refine ⟨⟨hroot, boot_up names⟩, fun i hi => ?_, fun i hi => ?_, fun d i hd h0 hpos => ?_,
    fun d hd hne => absurd (hlinked hd) hne, fun d i hd h0 hpos hdir => ?_,
    fun d hd hl => ?_, fun d hd => ?_⟩
  · obtain rfl | hi := boot_type hi
    · decide
    · omega
  · rw [boot_nlink hi, hlinks, linksIn, if_pos hroot, boot_up]
    obtain rfl | hrange := boot_type hi
    · rw [if_pos rfl, boot_held names (by decide), if_neg (by unfold rootino; omega)]
      rfl
    · rw [if_neg (by unfold rootino; omega), boot_held names (by omega), if_pos hrange]
      rfl
  · obtain rfl := hlinked hd
    rw [boot_held names h0] at hpos
    split at hpos
    next hi =>
      simp [boot_file hi]
    next => exact absurd hpos (by decide)
  · obtain rfl := boot_dir hdir
    obtain rfl := hlinked hd
    rw [boot_held names h0, if_neg (by unfold rootino; omega)] at hpos
    exact absurd hpos (by decide)
  · obtain rfl := boot_dir hd
    exact absurd hroot hl
  · rw [hlinked hd]
    exact .root

end Boot

/-! ### Runs -/

/-- The invariant. -/
structure LinksInv (s : Fs n) : Prop where
  held : Held 0 none s
  shape : Shape s.inode
  tree : TreeInv s.ninodes s.inode

variable {s s' : Fs n} {call : FsCall n}

theorem LinksInv.ready (h : LinksInv s) : Ready s :=
  ⟨h.held, h.shape, h.tree.range, fun i hi => by rw [h.tree.links i hi]; exact Int.natCast_nonneg _⟩

theorem fsStep_links (h : LinksInv s)
    (hok : ∀ d, call.enters s = some d → 0 < (s.inode d).nlink) (hs : fsStep s call = some s') :
    LinksInv s' := by
  have hlast : ∀ d i, call.removes s = some (d, i) → (s.inode d).nlink ≠ 1 := by
    intro d i hrem
    unfold FsCall.removes at hrem
    split at hrem
    · obtain ⟨hdir, h0, hin, hidir, hempty⟩ := emptyDirIn_spec h.shape hrem
      have := h.tree.two_le_nlink (h.tree.linked_of_held hdir h0 hin) h0 hin hidir hempty
      omega
    · cases hrem
  obtain ⟨t, hedit, hret⟩ := fsStep_returned h.ready hlast hs
  have htree : TreeInv s.ninodes t := by
    cases hedit with
    | keep heq =>
      rw [heq]
      exact h.tree
    | make henter hmade =>
      cases hmade with
      | name he => exact h.tree.enter he.entered (hok _ henter)
      | dir he => exact h.tree.enter he.entered (hok _ henter)
    | removeName he => exact h.tree.take he.taken
    | removeDir _ he => exact h.tree.take he.taken
  rw [← hret.ninodes] at htree
  obtain heq | ⟨i, hfreed⟩ := hret.inode
  · exact ⟨hret.held, by rw [heq]; exact hret.shape, by rw [heq]; exact htree⟩
  · exact ⟨hret.held, hret.shape.freed hfreed, htree.free hfreed⟩

/-! ### Counting entries -/

/-- The entries for `i` other than `.` in the directories that have links. -/
def entriesFor (s : Fs n) (i : Nat) : Nat :=
  ((List.range s.ninodes).map fun d =>
    if Linked s.inode d then
      (s.inode d).slots.countP fun e => e.inum = i ∧ e.name ≠ dot
    else 0).sum

theorem entriesFor_eq (hs : Shape s.inode) {i : Nat} (hi : i ≠ 0) :
    entriesFor s i = Inodes.links s.inode s.ninodes i := by
  have hsum : ∀ (f : Nat → Nat) N, ((List.range N).map f).sum = ∑ d ∈ Finset.range N, f d := by
    intro f N
    induction N with
    | zero => rfl
    | succ N ih => simp [range_succ, Finset.sum_range_succ, ih]
  unfold entriesFor Inodes.links
  rw [hsum]
  refine Finset.sum_congr rfl fun d _ => ?_
  unfold linksIn
  split
  next hd =>
    obtain ⟨p, rest, hslots, -, -, hrest⟩ := hs.dirShape hd.1
    have hcount : rest.countP (fun e => e.inum = i ∧ e.name ≠ dot) =
        rest.countP fun e => e.inum = i := by
      refine countP_congr fun e he => ?_
      simp only [decide_eq_true_eq, and_iff_left_iff_imp]
      rintro rfl
      exact (hrest e he hi).1
    rw [up, held, hslots, countP_cons, countP_cons, hcount]
    simp [dot, dotdot, Nat.add_comm]
  next => rfl

theorem LinksInv.reach (h : LinksInv s) {i : Nat} (hi : (s.inode i).type ≠ .free)
    (hpos : 0 < (s.inode i).nlink) : Reach s.inode i := by
  have hlinks := h.tree.links i hi
  have hne : Inodes.links s.inode s.ninodes i ≠ 0 := by omega
  obtain ⟨d, -, hd⟩ := Finset.exists_ne_zero_of_sum_ne_zero hne
  unfold linksIn at hd
  split at hd
  next hl =>
    by_cases hup : Inodes.up s.inode d = i
    · rw [← hup]
      exact h.tree.reach _ (h.tree.up_linked hl)
    · rw [if_neg hup, Nat.zero_add] at hd
      have h0 := (h.tree.range i hi).1
      exact .entry (h.tree.reach d hl) hl (by omega) (Nat.pos_of_ne_zero hd)
  next => exact absurd rfl hd

/-- Some process or some open file has a pointer to the inode. -/
def Fs.PointedTo (s : Fs n) (i : Nat) : Prop :=
  ∃ e, (s.icache e).inum = i ∧ ((∃ p, s.cwd p = some e) ∨ ∃ f, s.file f = some e)

theorem LinksInv.pointedTo (h : LinksInv s) {i : Nat} (hi : (s.inode i).type ≠ .free)
    (h0 : (s.inode i).nlink = 0) : s.PointedTo i := by
  obtain ⟨e, -, hinum, hp⟩ := h.held.orphan i nofun hi h0
  refine ⟨e, hinum, ?_⟩
  by_contra hc
  obtain ⟨hcwd, hfile⟩ := not_or.mp hc
  have h1 : refCount s.cwd e = 0 := refCount_eq_zero.mpr fun p hp => hcwd ⟨p, hp⟩
  have h2 : refCount s.file e = 0 := refCount_eq_zero.mpr fun f hf => hfile ⟨f, hf⟩
  unfold Fs.pointers at hp
  omega

/-- **Link counts**: in every run from an image of `mkfs` in which no call enters a name in a
directory that has been removed, the links of an inode are the entries for it in directories with
links, what has links is reached from the root, and what has none is pointed to. -/
theorem link_counts (n : Nat) (names : List Name) (hlen : names.length + 2 ≤ 200)
    (hdots : ∀ name ∈ names, name ≠ dot ∧ name ≠ dotdot) (s : Fs (n + 1))
    (hrun : Run fsStep (fun s call => ∀ d, call.enters s = some d → 0 < (s.inode d).nlink)
      (fsBoot (n + 1) names) s) :
    ∀ i, (s.inode i).type ≠ .free → (s.inode i).nlink = entriesFor s i ∧
      (0 < (s.inode i).nlink → Reach s.inode i) ∧ ((s.inode i).nlink = 0 → s.PointedTo i) := by
  have hinv : LinksInv s :=
    hrun.inv (I := LinksInv) ⟨boot_isHeld, boot_shape hdots, boot_tree hlen⟩
      fun _ _ _ hi hok hs => fsStep_links hi hok hs
  intro i hi
  have h0 := (hinv.tree.range i hi).1
  refine ⟨?_, hinv.reach hi, hinv.pointedTo hi⟩
  rw [entriesFor_eq hinv.shape (by omega)]
  exact hinv.tree.links i hi

/-- `mkdir("/a")`, `link("/f", "/a/g")` and `unlink("/f")`. -/
theorem link_counts_moved :
    (([.mkdir 0 (some [47, 97]), .link 0 (some [47, 102]) (some [47, 97, 47, 103]),
        .unlink 0 (some [47, 102])] : List (FsCall 1)).foldlM
      (fun s call => if ∀ d, call.enters s = some d → 0 < (s.inode d).nlink then fsStep s call
        else none) (fsBoot 1 [[102]])).map
        (fun s => ((s.inode 2).nlink, entriesFor s 2, (s.inode 3).nlink, entriesFor s 3)) =
      some (1, 1, 1, 1) ∧
    ∀ s, ([.mkdir 0 (some [47, 97]), .link 0 (some [47, 102]) (some [47, 97, 47, 103]),
        .unlink 0 (some [47, 102])] : List (FsCall 1)).foldlM
      (fun s call => if ∀ d, call.enters s = some d → 0 < (s.inode d).nlink then fsStep s call
        else none) (fsBoot 1 [[102]]) = some s →
      ∀ i, (s.inode i).type ≠ .free → (s.inode i).nlink = entriesFor s i ∧
        (0 < (s.inode i).nlink → Reach s.inode i) ∧ ((s.inode i).nlink = 0 → s.PointedTo i) :=
  ⟨by decide +kernel, fun _ h => link_counts 0 [[102]] (by decide) (by decide) _ (.of_guarded h)⟩

/-- `mkdir("/a")`, `chdir("/a")`, `unlink("/a")`, `open("f", O_CREATE)` and `chdir("/")`: the
directory is freed, and the file in it keeps a link that is nowhere. -/
theorem link_counts_fails :
    (([.mkdir 0 (some [47, 97]), .chdir 0 (some [47, 97]), .unlink 0 (some [47, 97]),
        .open 0 (some [102]) ⟨true, false⟩ true, .chdir 0 (some [47])] :
      List (FsCall 1)).foldlM fsStep (fsBoot 1 [])).map
        (fun s => ((s.inode 2).type, (s.inode 3).type, (s.inode 3).nlink, entriesFor s 3)) =
      some (.free, .file, 1, 0) := by
  decide +kernel

end Xv6
