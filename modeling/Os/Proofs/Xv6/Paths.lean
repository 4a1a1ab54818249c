/-
Path names.

`walk` follows a path through the table of inodes, without cache, locks and references.  What
`namex` returns is what `walk` finds, and the reference to it is all that has changed.
-/
import Os.Proofs.Xv6.Held

namespace Xv6

open Prog RefMap Option

variable {n : Nat}
variable {path : Path} {d : Nat} {p : Fin n} {r : Option (InodePtr × Name)}

/-- The inode that the path leads to from `i`, or the directory that its last element is in. -/
def Inodes.walk (t : Inodes) (parent : Bool) : List Name → Nat → Option (Nat × Name)
  | [], i => if parent then none else some (i, [])
  | name :: rest, i =>
    if (t i).type ≠ .dir then none
    else if parent ∧ rest = [] then some (i, name)
    else
      match t.lookup i name with
      | none => none
      | some j => walk t parent rest j

namespace Fs

/-- The inode that a path starts at. -/
def startOf (s : Fs n) (p : Fin n) (path : Path) : Option Nat :=
  if path.head? = some slash then some rootino else (s.cwd p).map fun e => (s.icache e).inum

/-- The directory of the last element of a path, and the element. -/
def parentOf (s : Fs n) (p : Fin n) (path : Path) : Option (Nat × Name) :=
  (s.startOf p path).bind (Inodes.walk s.inode true (elems path.length path))

/-- The directory in which the last element of a path is new. -/
def newIn (s : Fs n) (p : Fin n) (path : Path) : Option Nat :=
  match s.parentOf p path with
  | none => none
  | some (d, name) => if Inodes.lookup s.inode d name = none then some d else none

/-- The empty directory that the last element of a path is for, behind the directory it is in. -/
def emptyDirIn (s : Fs n) (p : Fin n) (path : Path) : Option (Nat × Nat) :=
  match s.parentOf p path with
  | none => none
  | some (d, name) =>
    match Inodes.lookup s.inode d name with
    | none => none
    | some i =>
      if name ≠ dot ∧ name ≠ dotdot ∧ (s.inode i).type = .dir ∧ isdirempty (s.inode i) then
        some (d, i)
      else none

end Fs

theorem Inodes.walk_dir {t : Inodes} {path : List Name} {i : Nat} {name : Name}
    (h : t.walk true path i = some (d, name)) : (t d).type = .dir := by
  induction path generalizing i with
  | nil => cases h
  | cons first rest ih =>
    rw [Inodes.walk] at h
    split at h
    · cases h
    next hdir =>
      split at h
      · obtain ⟨rfl, -⟩ := Prod.mk.inj (some.inj h)
        exact not_not.mp hdir
      cases hj : t.lookup i first with
      | none =>
        rw [hj] at h
        cases h
      | some j =>
        rw [hj] at h
        exact ih h

theorem Fs.parentOf_dir {s : Fs n} {name : Name} (h : s.parentOf p path = some (d, name)) :
    (s.inode d).type = .dir := by
  obtain ⟨i, -, hwalk⟩ := bind_eq_some_iff.mp h
  exact Inodes.walk_dir hwalk

/-- What the name of an empty directory says about the table. -/
theorem emptyDirIn_spec {s : Fs n} {i : Nat} (hs : Shape s.inode)
    (h : s.emptyDirIn p path = some (d, i)) :
    (s.inode d).type = .dir ∧ i ≠ 0 ∧ 0 < Inodes.held s.inode d i ∧ (s.inode i).type = .dir ∧
    ∀ j, j ≠ 0 → Inodes.held s.inode i j = 0 := by
  unfold Fs.emptyDirIn at h
  cases hp : s.parentOf p path with
  | none =>
    rw [hp] at h
    cases h
  | some r =>
    obtain ⟨d', name⟩ := r
    rw [hp] at h
    dsimp only at h
    cases hl : Inodes.lookup s.inode d' name with
    | none =>
      rw [hl] at h
      cases h
    | some i' =>
      rw [hl] at h
      dsimp only at h
      split at h
      next hc =>
        cases h
        obtain ⟨hne, hne', hidir, hempty⟩ := hc
        have hdir := Fs.parentOf_dir hp
        obtain ⟨off, hslot, hin⟩ := map_eq_some_iff.mp hl
        obtain ⟨k, rfl, hlt, h0⟩ := slotOf_spec hs hdir hne hne' hslot
        rw [hin] at h0
        exact ⟨hdir, h0, held_of_slot hs hdir hlt hin h0, hidir, fun _ => held_of_isdirempty hempty⟩
      next => cases h

/-! ### Lookups -/

/-- What a lookup leaves its caller with. -/
def given {γ : Type} : Option (InodePtr × γ) → Own
  | none => 0
  | some (ip, _) => one ip

variable {s s' : Fs n} {own : Own} {x : Option Nat} {dp ip : InodePtr} {name : Name}

theorem dirlookup_ok {r : Option (InodePtr × Nat)} (h : dirlookup dp name s = .ok (r, s')) :
    (s.inodeOf dp).type = .dir ∧
    ((r = none ∧ s' = s ∧ slotOf (s.inodeOf dp).slots name = none) ∨
      ∃ ip off, r = some (ip, off) ∧ slotOf (s.inodeOf dp).slots name = some off ∧
        iget (s.icache dp).dev ((s.inodeOf dp).slots.getD off ⟨0, []⟩).inum s = .ok (ip, s')) := by
  obtain ⟨hdir, h⟩ := ite_throw_ok.mp h
  refine ⟨not_not.mp hdir, ?_⟩
  cases hslot : slotOf (s.inodeOf dp).slots name with
  | none =>
    rw [hslot] at h
    obtain ⟨rfl, rfl⟩ := pure_ok.mp h
    exact .inl ⟨rfl, rfl, rfl⟩
  | some off =>
    rw [hslot] at h
    obtain ⟨ip, higet, rfl⟩ := bind_pure_ok.mp h
    exact .inr ⟨ip, off, rfl, rfl, higet⟩

theorem dirlookup_held {r : Option (InodePtr × Nat)} (h : Held own x s) (hdp : 0 < own dp)
    (hl : dirlookup dp name s = .ok (r, s')) :
    Held (own + given r) x s' ∧ Quiet own s s' ∧
    (s.inodeOf dp).type = .dir ∧ (r = none → slotOf (s.inodeOf dp).slots name = none) ∧
    ∀ ip off, r = some (ip, off) → slotOf (s.inodeOf dp).slots name = some off ∧
      (s'.icache ip).inum = ((s.inodeOf dp).slots.getD off ⟨0, []⟩).inum := by
  obtain ⟨hdir, ⟨rfl, rfl, hnone⟩ | ⟨ip, off, rfl, hslot, hget⟩⟩ := dirlookup_ok hl
  · rw [given, add_zero]
    exact ⟨h, .refl _ _, hdir, fun _ => hnone, nofun⟩
  rw [h.dev dp (h.live dp hdp)] at hget
  obtain ⟨hheld, hsame, hinum⟩ := iget_held h hget
  refine ⟨hheld, hsame, hdir, nofun, ?_⟩
  rintro _ _ ⟨⟩
  exact ⟨hslot, hinum⟩

/-! ### The loop of `namex` -/

/-- What an entry of the cache with a name is for. -/
def Fs.place (s : Fs n) (x : InodePtr × Name) : Nat × Name := ((s.icache x.1).inum, x.2)

theorem namexLoop_held {parent : Bool} {path : List Name} (h : Held (own + one ip) none s)
    (hl : namexLoop parent path ip s = .ok (r, s')) :
    Held (own + given r) none s' ∧ Quiet own s s' ∧
    Inodes.walk s.inode parent path (s.icache ip).inum = r.map s'.place := by
  induction path generalizing ip s with
  | nil =>
    obtain ⟨hp, hl⟩ | ⟨hp, hl⟩ := ite_ok.mp hl
    · obtain ⟨u, hput, rfl⟩ := bind_pure_ok.mp hl
      obtain ⟨hheld, hsame⟩ := iput_held h hput
      exact ⟨hheld, hsame, if_pos hp⟩
    · obtain ⟨rfl, rfl⟩ := pure_ok.mp hl
      exact ⟨h, .refl _ _, if_neg hp⟩
  | cons name rest ih =>
    obtain ⟨u, s1, hlock, hl⟩ := bind_ok.mp hl
    obtain ⟨h1, hsame1, -, hinum1, -⟩ := ilock_held h hlock
    replace hsame1 := hsame1.of_add
    have hof : s1.inodeOf ip = s.inode (s.icache ip).inum := by
      rw [Fs.inodeOf, hsame1.inode, hinum1]
    rw [get_bind_ok, hof] at hl
    rw [Inodes.walk]
    obtain ⟨hdir, hl⟩ | ⟨hdir, hl⟩ := ite_ok.mp hl
    · obtain ⟨u, hput, rfl⟩ := bind_pure_ok.mp hl
      obtain ⟨hheld, hsame⟩ := iunlockput_held h1 hput
      exact ⟨hheld, hsame1.trans hsame, if_pos hdir⟩
    rw [if_neg hdir]
    obtain ⟨hlast, hl⟩ | ⟨hlast, hl⟩ := ite_ok.mp hl
    · obtain ⟨u, hunlock, rfl⟩ := bind_pure_ok.mp hl
      obtain ⟨hheld, hsame, -⟩ := iunlock_held h1 hunlock
      refine ⟨hheld, hsame1.trans hsame.of_add, ?_⟩
      rw [if_pos hlast, map_some, Fs.place, hsame.inum (by simp), hinum1]
    · obtain ⟨r1, s2, hlookup, hl⟩ := bind_ok.mp hl
      obtain ⟨h2, hsame2, -, hnone, hfound⟩ := dirlookup_held h1 (by simp) hlookup
      replace hsame2 := hsame2.of_add
      rw [hof] at hnone hfound
      rw [if_neg hlast, Inodes.lookup]
      obtain _ | ⟨next, off⟩ := r1
      · obtain ⟨u, hput, rfl⟩ := bind_pure_ok.mp hl
        obtain ⟨hheld, hsame⟩ := iunlockput_held h2 hput
        rw [given, add_zero, hnone rfl]
        exact ⟨hheld, (hsame1.trans hsame2).trans hsame, rfl⟩
      · obtain ⟨u, s4, hput, hl⟩ := bind_ok.mp hl
        obtain ⟨hslot, hnext⟩ := hfound next off rfl
        rw [given, add_right_comm] at h2
        obtain ⟨h4, hsame4⟩ := iunlockput_held h2 hput
        obtain ⟨hheld, hsame, hwalk⟩ := ih h4 hl
        have hsame0 := (hsame1.trans hsame2).trans hsame4.of_add
        refine ⟨hheld, hsame0.trans hsame, ?_⟩
        rw [hslot, map_some, ← hnext, ← hsame4.inum (by simp), ← hsame0.inode]
        exact hwalk

theorem namexStart_held (h : Held own none s) (hl : namexStart p path s = .ok (ip, s')) :
    Held (own + one ip) none s' ∧ Quiet own s s' ∧
    s.startOf p path = some (s'.icache ip).inum := by
  obtain ⟨hslash, hl⟩ | ⟨hslash, hl⟩ := ite_ok.mp hl
  · obtain ⟨hheld, hsame, hinum⟩ := iget_held h hl
    exact ⟨hheld, hsame, by rw [Fs.startOf, if_pos hslash, hinum]⟩
  obtain ⟨e, s1, hcwd, hdup⟩ := bind_ok.mp hl
  obtain ⟨hp, rfl⟩ := cwdOf_ok hcwd
  obtain ⟨u, hadd, rfl⟩ := bind_pure_ok.mp hdup
  obtain rfl := changeFs_ok.mp hadd
  have hlive : 0 < s1.pointers ip := by
    have := refCount_pos hp
    unfold Fs.pointers
    omega
  obtain ⟨hheld, hsame⟩ := h.addRef (h.live_of_pointers hlive)
  refine ⟨hheld, ⟨hsame, rfl⟩, ?_⟩
  rw [Fs.startOf, if_neg hslash, hp, Fs.addRef, setEntry_self]
  rfl

theorem namex_held {parent : Bool} (h : Held own none s)
    (hl : namex p path parent s = .ok (r, s')) :
    Held (own + given r) none s' ∧ Quiet own s s' ∧
    (s.startOf p path).bind (Inodes.walk s.inode parent (elems path.length path)) =
      r.map s'.place := by
  obtain ⟨ip, s1, hstart, hl⟩ := bind_ok.mp hl
  obtain ⟨h1, hsame1, hof⟩ := namexStart_held h hstart
  obtain ⟨hheld, hsame, hwalk⟩ := namexLoop_held h1 hl
  refine ⟨hheld, hsame1.trans hsame, ?_⟩
  rw [hof, bind_some, ← hsame1.inode]
  exact hwalk

/-- What `namei` leaves its caller with. -/
def givenInode : Option InodePtr → Own
  | none => 0
  | some ip => one ip

theorem namei_held {r : Option InodePtr} (h : Held own none s) (hl : namei p path s = .ok (r, s')) :
    Held (own + givenInode r) none s' ∧ Quiet own s s' := by
  obtain ⟨r1, hnamex, rfl⟩ := bind_pure_ok.mp hl
  obtain ⟨hheld, hsame, -⟩ := namex_held h hnamex
  refine ⟨?_, hsame⟩
  match r1 with
  | none => exact hheld
  | some (ip, name) => exact hheld

theorem nameiparent_held (h : Held own none s) (hl : nameiparent p path s = .ok (r, s')) :
    Held (own + given r) none s' ∧ Quiet own s s' ∧
    s.parentOf p path = r.map s'.place :=
  namex_held h hl

end Xv6
