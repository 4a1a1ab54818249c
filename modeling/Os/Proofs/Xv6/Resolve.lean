/-
Path names.

The components of a path are what stands between its slashes, cut to `DIRSIZ` bytes.  `namei` looks
them up one after the other, and `nameiparent` all but the last.  While a path is followed it takes
two entries of the inode cache at most, so that with two free entries it comes to an end.
-/
import Mathlib.Data.List.TakeWhile
import Os.Proofs.Xv6.Entries

namespace Xv6

open Prog Inodes List Option

variable {n : Nat} {s s' : Fs n} {p : Fin n} {path : Path} {t : Inodes} {i : Nat}

/-! ### Components -/

/-- The longest parts of a path without a slash. -/
def parts (path : Path) : List Name := (path.splitOnP (· = slash)).filter (· ≠ [])

def components (path : Path) : List Name := (parts path).map (·.take dirsiz)

theorem parts_slash (as bs : Path) : parts (as ++ slash :: bs) = parts as ++ parts bs := by
  have hsplit := splitOnP_append_cons (p := (· = slash)) as bs (decide_eq_true rfl)
  rw [parts, hsplit, filter_append, parts, parts]

theorem parts_dropWhile (path : Path) : parts (path.dropWhile (· = slash)) = parts path := by
  induction path with
  | nil => rfl
  | cons c cs ih =>
    rw [dropWhile_cons]
    split
    next hc =>
      rw [ih, of_decide_eq_true hc]
      exact (parts_slash [] cs).symm
    next => rfl

theorem parts_cons {c : UInt8} (hc : c ≠ slash) (cs : Path) :
    parts (c :: cs) =
      (c :: cs).takeWhile (· ≠ slash) :: parts ((c :: cs).dropWhile (· ≠ slash)) := by
  have hone : parts ((c :: cs).takeWhile (· ≠ slash)) = [(c :: cs).takeWhile (· ≠ slash)] := by
    have hno : ∀ x ∈ (c :: cs).takeWhile (· ≠ slash), decide (x = slash) = false := fun x hx => by
      simpa using mem_takeWhile_imp hx
    rw [parts, splitOnP_eq_singleton hno]
    simp [hc]
  conv_lhs => rw [← takeWhile_append_dropWhile (p := (· ≠ slash)) (l := c :: cs)]
  cases hrest : (c :: cs).dropWhile (· ≠ slash) with
  | nil =>
    rw [append_nil, hone]
    rfl
  | cons x bs =>
    have hx := List.head?_dropWhile_not (· ≠ slash) (c :: cs)
    rw [hrest] at hx
    obtain rfl : x = slash := by simpa using hx
    rw [parts_slash, hone, show slash :: bs = [] ++ slash :: bs from rfl, parts_slash]
    rfl

theorem elems_eq {k : Nat} (h : path.length ≤ k) : elems k path = components path := by
  induction k generalizing path with
  | zero =>
    obtain rfl := length_eq_zero_iff.mp (Nat.le_zero.mp h)
    rfl
  | succ k ih =>
    have hle := length_dropWhile_le (p := (· = slash)) path
    rw [elems, skipelem, components, ← parts_dropWhile]
    cases hpath : path.dropWhile (· = slash) with
    | nil => rfl
    | cons c cs =>
      have hc := List.head?_dropWhile_not (· = slash) path
      rw [hpath] at hc hle
      have hne : c ≠ slash := by simpa using hc
      dsimp only
      -- at least one byte is behind us
      have hrest : (((c :: cs).dropWhile (· ≠ slash)).dropWhile (· = slash)).length ≤ k := by
        have h1 := length_dropWhile_le (p := (· = slash)) ((c :: cs).dropWhile (· ≠ slash))
        have h2 := length_dropWhile_le (p := (· ≠ slash)) cs
        rw [dropWhile_cons, if_pos (decide_eq_true hne)] at h1 ⊢
        simp only [length_cons] at hle
        omega
      rw [parts_cons hne, map_cons, ih hrest, components, parts_dropWhile]

/-! ### Following a path -/

/-- What the inode is that a directory has under a name. -/
def Inodes.child (t : Inodes) (i : Nat) (name : Name) : Option Nat :=
  if (t i).type = .dir then t.lookup i name else none

theorem walk_false (t : Inodes) (path : List Name) (i : Nat) :
    t.walk false path i = (path.foldlM t.child i).map (·, []) := by
  induction path generalizing i with
  | nil => rfl
  | cons name rest ih =>
    rw [Inodes.walk, foldlM_cons, Inodes.child]
    by_cases hdir : (t i).type = .dir
    · simp only [hdir, ne_eq, not_true_eq_false, if_false, Bool.false_eq_true, false_and, if_true]
      cases t.lookup i name with
      | none => rfl
      | some j => exact ih j
    · simp only [hdir, ne_eq, not_false_eq_true, if_true, if_false]
      rfl

theorem walk_true (t : Inodes) (path : List Name) (i : Nat) :
    t.walk true path i = path.getLast?.bind fun name =>
      (path.dropLast.foldlM t.child i).bind fun d =>
        if (t d).type = .dir then some (d, name) else none := by
  induction path generalizing i with
  | nil => rfl
  | cons name rest ih =>
    rw [Inodes.walk]
    cases rest with
    | nil =>
      by_cases hdir : (t i).type = .dir
      · simp [hdir]
      · simp [hdir]
    | cons name' rest =>
      rw [dropLast_cons_cons, foldlM_cons, Inodes.child, List.getLast?_cons_cons]
      by_cases hdir : (t i).type = .dir
      · simp only [hdir, ne_eq, not_true_eq_false, if_false, reduceCtorEq, and_false, if_true]
        cases t.lookup i name with
        | none => simp
        | some j => exact ih j
      · simp [hdir]

namespace Fs

/-- The inode that a path is for. -/
def resolve (s : Fs n) (p : Fin n) (path : Path) : Option Nat :=
  (s.startOf p path).bind ((components path).foldlM (Inodes.child s.inode))

/-- The directory that the components but the last lead to, and the last one. -/
def resolveParent (s : Fs n) (p : Fin n) (path : Path) : Option (Nat × Name) :=
  (s.startOf p path).bind fun i => (components path).getLast?.bind fun name =>
    ((components path).dropLast.foldlM (Inodes.child s.inode) i).bind fun d =>
      if (s.inode d).type = .dir then some (d, name) else none

/-- The caller is alone: no lock is held, the references are those of the pointers and its own, and
what the directories name is allocated. -/
structure Calm (own : Own) (s : Fs n) : Prop where
  held : Held own none s
  intact : Intact s.inode
  root : (s.inode rootino).type ≠ .free
  unlocked : ∀ e, (s.icache e).locked = false

/-- One entry of the cache is free at most. -/
def Full (s : Fs n) : Prop := ∃ f, ∀ g, g ≠ f → (s.icache g).ref ≠ 0

/-- The only change is a reference to `r`. -/
structure OneRef (s s' : Fs n) (r : Option InodePtr) : Prop where
  inode : s'.inode = s.inode
  cwd : s'.cwd = s.cwd
  file : s'.file = s.file
  refs : ∀ g, (s'.icache g).ref = (s.icache g).ref + if r = some g then 1 else 0

end Fs

theorem resolve_eq (s : Fs n) (p : Fin n) (path : Path) : s.resolve p path =
    ((s.startOf p path).bind (Inodes.walk s.inode false (components path))).map Prod.fst := by
  rw [Fs.resolve]
  cases s.startOf p path with
  | none => rfl
  | some i =>
    rw [bind_some, bind_some, walk_false, Option.map_map]
    exact (Option.map_id' ..).symm

theorem given_eq (r : Option (InodePtr × Name)) : given r = givenInode (r.map Prod.fst) := by
  cases r <;> rfl

theorem namex_total {own : Own} (hs : s.Calm own) (hcwd : (s.cwd p).isSome) (path : Path)
    (parent : Bool) :
    (∃ r s', namex p path parent s = .ok (r, s') ∧ s.OneRef s' (r.map Prod.fst) ∧
      (s.startOf p path).bind (Inodes.walk s.inode parent (components path)) = r.map s'.place) ∨
    namex p path parent s = .error noInodes ∧ s.Full := by
  cases hl : namex p path parent s with
  | ok x =>
    obtain ⟨r, s'⟩ := x
    obtain ⟨hheld, hsame, hwalk⟩ := namex_held hs.held hl
    rw [elems_eq le_rfl] at hwalk
    refine .inl ⟨r, s', rfl, ⟨hsame.inode, hsame.cwd, hsame.file, fun g => ?_⟩, hwalk⟩
    have hrefs := hs.held.refs g
    have hrefs' := hheld.refs g
    rw [Pi.add_apply, given_eq, givenInode_eq, hsame.pointers] at hrefs'
    rw [hrefs', hrefs]
    split <;> simp [Int.add_assoc]
  | error e =>
    have hstart : ∀ i, s.startOf p path = some i → (s.inode i).type ≠ .free := by
      intro i hi
      unfold Fs.startOf at hi
      split at hi
      · exact some.inj hi ▸ hs.root
      · obtain ⟨e, hp, rfl⟩ := map_eq_some_iff.mp hi
        exact hs.held.pointed e (pointers_of_cwd hp)
    obtain ⟨-, hc⟩ | hstops := namex_error hs.intact hs.held hstart hl
    · rw [hc] at hcwd
      cases hcwd
    refine .inr ?_
    cases hstops with
    | full f h =>
      refine ⟨rfl, f, fun g hg => ?_⟩
      have := hs.held.refs g
      have := h g hg
      omega
    | locked f h =>
      rw [hs.unlocked] at h
      cases h

/-- **Path resolution**: `namei` and `nameiparent` return what the components lead to, with one
reference to it, and else change nothing; only a full cache stops them. -/
theorem path_resolution {own : Own} (hs : s.Calm own) (hcwd : (s.cwd p).isSome) (path : Path) :
    ((∃ r s', namei p path s = .ok (r, s') ∧ s.OneRef s' r ∧
        r.map (fun ip => (s'.icache ip).inum) = s.resolve p path) ∨
      namei p path s = .error noInodes ∧ s.Full) ∧
    ((∃ r s', nameiparent p path s = .ok (r, s') ∧ s.OneRef s' (r.map Prod.fst) ∧
        r.map s'.place = s.resolveParent p path) ∨
      nameiparent p path s = .error noInodes ∧ s.Full) := by
  constructor
  · obtain ⟨r, s', hl, href, hwalk⟩ | ⟨hl, hfull⟩ := namex_total hs hcwd path false
    · refine .inl ⟨r.map Prod.fst, s', ?_, href, ?_⟩
      · exact bind_pure_ok.mpr ⟨r, hl, rfl⟩
      · rw [resolve_eq, hwalk, Option.map_map, Option.map_map]
        rfl
    · exact .inr ⟨bind_pure_error.mpr hl, hfull⟩
  · obtain ⟨r, s', hl, href, hwalk⟩ | hfull := namex_total hs hcwd path true
    · refine .inl ⟨r, s', hl, href, ?_⟩
      rw [← hwalk, Fs.resolveParent]
      exact congrArg _ (funext fun i => walk_true s.inode (components path) i)
    · exact .inr hfull

/-- `namei("/f")` after `mkfs` with a file `f`. -/
theorem path_resolution_file :
    (fsBoot 1 [[102]]).Calm 0 ∧ (fsBoot 1 [[102]]).resolve 0 [47, 102] = some 2 ∧
    ∃ r s', namei 0 [47, 102] (fsBoot 1 [[102]]) = .ok (r, s') ∧
      r.map (fun ip => (s'.icache ip).inum) = some 2 := by
  have hentries : EntriesState (fsBoot 1 [[102]]) :=
    ⟨boot_isHeld, boot_shape (by decide), boot_entries (by decide)⟩
  have hcalm : (fsBoot 1 [[102]]).Calm 0 :=
    ⟨hentries.held, hentries.intact, by decide, by decide⟩
  have hres : (fsBoot 1 [[102]]).resolve 0 [47, 102] = some 2 := by decide +kernel
  refine ⟨hcalm, hres, ?_⟩
  obtain ⟨r, s', hl, -, hr⟩ | ⟨-, f, hfull⟩ :=
    (path_resolution hcalm (p := 0) (by decide) [47, 102]).1
  · exact ⟨r, s', hl, hr.trans hres⟩
  · -- of the entries 1 and 2 at least one is not `f`
    by_cases hf : f = ⟨1, by decide⟩
    · exact absurd rfl (hfull ⟨2, by decide⟩ (by rw [hf]; decide))
    · exact absurd rfl (hfull ⟨1, by decide⟩ (Ne.symm hf))

/-- Five processes, and of the files with names of one byte the first 49 opened by them in turn. -/
def manyFiles : List (FsCall 5) :=
  [.fork 0 1, .fork 0 2, .fork 0 3, .fork 0 4] ++ (List.range 49).map fun k =>
    .open (Fin.ofNat 5 k) (some [47, 97 + UInt8.ofNat k]) ⟨false, false⟩ true

/-- With the root these files fill the cache, and the next name cannot be looked up.  And where the
`..` of the current directory is for a free inode, a path through it panics. -/
theorem path_resolution_fails :
    ((manyFiles.foldlM fsStep
        (fsBoot 5 ((List.range 50).map fun k => [97 + UInt8.ofNat k]))).map fun s =>
      (s.resolve 0 [47, 146], match namei 0 [47, 146] s with
        | .ok _ => none
        | .error e => some e)) = some (some 51, some noInodes) ∧
    (([.mkdir 0 (some [47, 97]), .mkdir 0 (some [47, 97, 47, 98]), .chdir 0 (some [47, 97, 47, 98]),
        .unlink 0 (some [47, 97, 47, 98]), .unlink 0 (some [47, 97])] :
      List (FsCall 1)).foldlM fsStep (fsBoot 1 [])).map
        (fun s => match namei 0 [46, 46, 47, 120] s with
          | .ok _ => none
          | .error e => some e) = some (some (.panic "ilock: no type")) := by
  decide +kernel

end Xv6
