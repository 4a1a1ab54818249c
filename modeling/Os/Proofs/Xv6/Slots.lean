/-
What the kernel writes into directories.

The first two slots of a directory are `.` and `..`, and no other slot in use has one of these
names; an inode that is no directory has no slots.  A name is entered behind the two and cleared
behind the two, so `..` stays what it was and what the directory holds changes by the one entry.
From this the writes of each system call are one of the changes of the table.
-/
import Os.Proofs.Xv6.Tree

namespace Xv6

open List

/-! ### Slots -/

/-- The slots of the directory `d`: first itself, then its parent. -/
def DirShape (d : Nat) (slots : List Dirent) : Prop :=
  ∃ p rest, slots = ⟨d, dot⟩ :: ⟨p, dotdot⟩ :: rest ∧ d ≠ 0 ∧ p ≠ 0 ∧
    ∀ e ∈ rest, e.inum ≠ 0 → e.name ≠ dot ∧ e.name ≠ dotdot

/-- Every directory has its shape, every other inode no slots. -/
def Shape (t : Inodes) : Prop :=
  ∀ d, ((t d).type = .dir → DirShape d (t d).slots) ∧ ((t d).type ≠ .dir → (t d).slots = [])

/-- The entries that name `i`. -/
def countIn (slots : List Dirent) (i : Nat) : Nat := slots.countP fun e => e.inum = i

theorem countIn_writeSlot_empty (slots : List Dirent) (e : Dirent) {i : Nat} (hi : i ≠ 0) :
    countIn (writeSlot slots (emptySlot slots) e) i =
      countIn slots i + if e.inum = i then 1 else 0 := by
  unfold countIn writeSlot emptySlot
  split
  next h =>
    have hzero : (slots[slots.findIdx fun d => decide (d.inum = 0)]).inum = 0 := by
      simpa using findIdx_getElem (w := h)
    rw [countP_set h]
    simp only [hzero, decide_eq_true_eq, if_neg hi.symm, Nat.sub_zero]
  next => simp [countP_append, countP_singleton]

theorem countIn_clear {slots : List Dirent} {off : Nat} (h : off < slots.length) {i : Nat}
    (hi : i ≠ 0) :
    countIn (writeSlot slots off ⟨0, []⟩) i + (if slots[off].inum = i then 1 else 0) =
      countIn slots i := by
  have hpos : slots[off].inum = i → 0 < countIn slots i := by
    intro hoff
    exact countP_pos_iff.mpr ⟨_, getElem_mem h, by simpa using hoff⟩
  unfold countIn writeSlot at *
  rw [if_pos h, countP_set h]
  simp only [decide_eq_true_eq, if_neg hi.symm, Nat.add_zero]
  split
  next hoff =>
    have := hpos hoff
    omega
  next => rfl

theorem emptySlot_cons {e : Dirent} (h : e.inum ≠ 0) (slots : List Dirent) :
    emptySlot (e :: slots) = emptySlot slots + 1 := by
  simp [emptySlot, findIdx_cons, h]

theorem writeSlot_cons (e0 : Dirent) (slots : List Dirent) (off : Nat) (e : Dirent) :
    writeSlot (e0 :: slots) (off + 1) e = e0 :: writeSlot slots off e := by
  simp only [writeSlot, length_cons, Nat.add_lt_add_iff_right, set_cons_succ,
    cons_append]
  split <;> rfl

theorem mem_writeSlot {slots : List Dirent} {off : Nat} {e e' : Dirent}
    (h : e' ∈ writeSlot slots off e) : e' = e ∨ e' ∈ slots := by
  unfold writeSlot at h
  split at h
  · exact (mem_or_eq_of_mem_set h).symm
  · rcases mem_append.mp h with h | h
    · exact .inr h
    · exact .inl (mem_singleton.mp h)

namespace DirShape

variable {d : Nat} {slots : List Dirent}

theorem slotOf_isSome (h : DirShape d slots) {name : Name} (hname : name = dot ∨ name = dotdot) :
    (slotOf slots name).isSome := by
  obtain ⟨p, rest, rfl, hd, hp, -⟩ := h
  rcases hname with rfl | rfl
  · simp [slotOf, List.findIdx?_cons, hd]
  · simp [slotOf, List.findIdx?_cons, hp, hd, dot, dotdot]

theorem slotOf_le (h : DirShape d slots) {name : Name} {off : Nat} (hne : name ≠ dot)
    (hne' : name ≠ dotdot) (hoff : slotOf slots name = some off) :
    ∃ k, off = k + 2 := by
  obtain ⟨p, rest, rfl, -⟩ := h
  obtain ⟨hlt, hin, -⟩ := List.findIdx?_eq_some_iff_getElem.mp hoff
  simp only [decide_eq_true_eq] at hin
  match off, hlt, hin with
  | 0, _, hin => exact absurd hin.2.symm hne
  | 1, _, hin => exact absurd hin.2.symm hne'
  | k + 2, _, _ => exact ⟨k, rfl⟩

theorem enter (h : DirShape d slots) {name : Name} (hne : name ≠ dot) (hne' : name ≠ dotdot)
    (i : Nat) : DirShape d (writeSlot slots (emptySlot slots) ⟨i, name⟩) := by
  obtain ⟨p, rest, rfl, hd, hp, hrest⟩ := h
  rw [emptySlot_cons (by exact hd), emptySlot_cons (by exact hp), writeSlot_cons, writeSlot_cons]
  refine ⟨p, _, rfl, hd, hp, fun e he h0 => ?_⟩
  rcases mem_writeSlot he with rfl | he
  · exact ⟨hne, hne'⟩
  · exact hrest e he h0

theorem clear (h : DirShape d slots) (k : Nat) : DirShape d (writeSlot slots (k + 2) ⟨0, []⟩) := by
  obtain ⟨p, rest, rfl, hd, hp, hrest⟩ := h
  rw [writeSlot_cons, writeSlot_cons]
  refine ⟨p, _, rfl, hd, hp, fun e he h0 => ?_⟩
  rcases mem_writeSlot he with rfl | he
  · exact absurd rfl h0
  · exact hrest e he h0

theorem mk {p : Nat} (hd : d ≠ 0) (hp : p ≠ 0) : DirShape d [⟨d, dot⟩, ⟨p, dotdot⟩] :=
  ⟨p, [], rfl, hd, hp, nofun⟩

end DirShape

/-! ### Writes -/

namespace Inodes

variable (t : Inodes)

def set (i : Nat) (x : Inode) : Inodes := Function.update t i x

/-- `nlink` changes by `k`. -/
def relink (i : Nat) (k : Int) : Inodes := t.set i (addLinks k (t i))

/-- A name is entered in `d`. -/
def enter (d : Nat) (name : Name) (i : Nat) : Inodes :=
  t.set d { t d with slots := writeSlot (t d).slots (emptySlot (t d).slots) ⟨i, name⟩ }

/-- A slot of `d` is cleared. -/
def clear (d off : Nat) : Inodes :=
  t.set d { t d with slots := writeSlot (t d).slots off ⟨0, []⟩ }

/-- The inode that a name in `d` is for. -/
def lookup (d : Nat) (name : Name) : Option Nat :=
  (slotOf (t d).slots name).map fun off => ((t d).slots.getD off ⟨0, []⟩).inum

variable {t}

theorem set_self (i : Nat) (x : Inode) : t.set i x i = x := Function.update_self ..

theorem set_of_ne {i j : Nat} (x : Inode) (h : j ≠ i) : t.set i x j = t j :=
  Function.update_of_ne h ..

@[simp] theorem relink_type (i j : Nat) (k : Int) : (t.relink i k j).type = (t j).type := by
  unfold relink
  by_cases h : j = i
  · rw [h, set_self, addLinks]
  · rw [set_of_ne _ h]

@[simp] theorem relink_slots (i j : Nat) (k : Int) : (t.relink i k j).slots = (t j).slots := by
  unfold relink
  by_cases h : j = i
  · rw [h, set_self, addLinks]
  · rw [set_of_ne _ h]

@[simp] theorem relink_nlink (i j : Nat) (k : Int) :
    (t.relink i k j).nlink = (t j).nlink + if j = i then k else 0 := by
  unfold relink
  by_cases h : j = i
  · rw [h, set_self, addLinks, if_pos rfl]
  · rw [set_of_ne _ h, if_neg h, add_zero]

@[simp] theorem relink_up (i d : Nat) (k : Int) : (t.relink i k).up d = t.up d := by
  rw [up, up, relink_slots]

@[simp] theorem relink_held (i d j : Nat) (k : Int) : (t.relink i k).held d j = t.held d j := by
  rw [held, held, relink_slots]

@[simp] theorem enter_type (d i j : Nat) (name : Name) :
    (t.enter d name i j).type = (t j).type := by
  unfold enter
  by_cases h : j = d
  · rw [h, set_self]
  · rw [set_of_ne _ h]

@[simp] theorem enter_nlink (d i j : Nat) (name : Name) :
    (t.enter d name i j).nlink = (t j).nlink := by
  unfold enter
  by_cases h : j = d
  · rw [h, set_self]
  · rw [set_of_ne _ h]

theorem enter_slots_of_ne {d j : Nat} (h : j ≠ d) (i : Nat) (name : Name) :
    (t.enter d name i j).slots = (t j).slots := by
  rw [enter, set_of_ne _ h]

@[simp] theorem clear_type (d off j : Nat) : (t.clear d off j).type = (t j).type := by
  unfold clear
  by_cases h : j = d
  · rw [h, set_self]
  · rw [set_of_ne _ h]

@[simp] theorem clear_nlink (d off j : Nat) : (t.clear d off j).nlink = (t j).nlink := by
  unfold clear
  by_cases h : j = d
  · rw [h, set_self]
  · rw [set_of_ne _ h]

theorem clear_slots_of_ne {d j : Nat} (h : j ≠ d) (off : Nat) :
    (t.clear d off j).slots = (t j).slots := by
  rw [clear, set_of_ne _ h]

section Directory

variable {d : Nat} (hd : DirShape d (t d).slots)
include hd

theorem enter_up (name : Name) (i d' : Nat) : (t.enter d name i).up d' = t.up d' := by
  by_cases h : d' = d
  · subst h
    obtain ⟨p, rest, hslots, h0, hp, -⟩ := hd
    rw [up, up, enter, set_self, hslots]
    rw [emptySlot_cons (by exact h0), emptySlot_cons (by exact hp), writeSlot_cons, writeSlot_cons]
    rfl
  · rw [up, up, enter_slots_of_ne h]

theorem enter_held (name : Name) (i d' : Nat) {j : Nat} (hj : j ≠ 0) :
    (t.enter d name i).held d' j = t.held d' j + if d' = d ∧ j = i then 1 else 0 := by
  by_cases h : d' = d
  · subst h
    obtain ⟨p, rest, hslots, h0, hp, -⟩ := hd
    rw [held, held, enter, set_self, hslots]
    rw [emptySlot_cons (by exact h0), emptySlot_cons (by exact hp), writeSlot_cons, writeSlot_cons]
    have hcount := countIn_writeSlot_empty rest ⟨i, name⟩ hj
    simp only [true_and, eq_comm (a := j)]
    exact hcount
  · rw [held, held, enter_slots_of_ne h, if_neg fun hc => h hc.1, Nat.add_zero]

theorem clear_up (k d' : Nat) : (t.clear d (k + 2)).up d' = t.up d' := by
  by_cases h : d' = d
  · subst h
    obtain ⟨p, rest, hslots, -⟩ := hd
    rw [up, up, clear, set_self, hslots]
    rw [writeSlot_cons, writeSlot_cons]
    rfl
  · rw [up, up, clear_slots_of_ne h]

theorem clear_held {k i : Nat} (hlt : k + 2 < (t d).slots.length)
    (hi : ((t d).slots.getD (k + 2) ⟨0, []⟩).inum = i) (d' : Nat) {j : Nat} (hj : j ≠ 0) :
    (t.clear d (k + 2)).held d' j + (if d' = d ∧ j = i then 1 else 0) = t.held d' j := by
  by_cases h : d' = d
  · subst h
    obtain ⟨p, rest, hslots, -⟩ := hd
    rw [hslots] at hlt hi
    rw [held, held, clear, set_self, hslots]
    rw [writeSlot_cons, writeSlot_cons]
    have hk : k < rest.length := by simpa using hlt
    have hcount := countIn_clear hk hj
    have hik : rest[k].inum = i := by
      simpa [List.getD, List.getElem?_eq_getElem hk] using hi
    simp only [true_and, eq_comm (a := j)]
    rw [hik] at hcount
    exact hcount
  · rw [held, held, clear_slots_of_ne h, if_neg fun hc => h hc.1, Nat.add_zero]

end Directory

end Inodes

open Inodes

namespace Shape

variable {t : Inodes} {d i : Nat}

section

variable (h : Shape t)
include h

theorem dirShape (hd : (t d).type = .dir) : DirShape d (t d).slots := (h d).1 hd

theorem set {x : Inode} (hdir : x.type = .dir → DirShape i x.slots)
    (hno : x.type ≠ .dir → x.slots = []) : Shape (t.set i x) := by
  intro d
  by_cases hd : d = i
  · rw [hd, set_self]
    exact ⟨hdir, hno⟩
  · rw [set_of_ne _ hd]
    exact h d

theorem relink (i : Nat) (k : Int) : Shape (t.relink i k) :=
  h.set (h i).1 (h i).2

theorem enter (hd : (t d).type = .dir) {name : Name} (hne : name ≠ dot)
    (hne' : name ≠ dotdot) (i : Nat) : Shape (t.enter d name i) :=
  h.set (fun _ => (h.dirShape hd).enter hne hne' i) fun hno => absurd hd hno

theorem clear (hd : (t d).type = .dir) (k : Nat) : Shape (t.clear d (k + 2)) :=
  h.set (fun _ => (h.dirShape hd).clear k) fun hno => absurd hd hno

theorem freed {t' : Inodes} (he : Freed t t' i) : Shape t' := by
  rw [he.eq]
  exact h.set nofun fun _ => rfl

/-- A name that is not in the directory is not `.` or `..`. -/
theorem ne_dots (hd : (t d).type = .dir) {name : Name}
    (hnone : slotOf (t d).slots name = none) : name ≠ dot ∧ name ≠ dotdot := by
  have hnot : ¬(name = dot ∨ name = dotdot) := by
    intro hname
    have hsome := (h.dirShape hd).slotOf_isSome hname
    rw [hnone] at hsome
    cases hsome
  exact not_or.mp hnot

end

end Shape

/-! ### The writes of the system calls -/

section Writes

variable {N : Nat} {t : Inodes} {dp i : Nat} {name : Name}

theorem nameAdded_link (hs : Shape t) (hdp : (t dp).type = .dir) (hi : i ≠ 0 ∧ i < N)
    (hdir : (t i).type ≠ .dir) (hfree : (t i).type ≠ .free) :
    NameAdded N t ((t.relink i 1).enter dp name i) dp i := by
  have hshape : DirShape dp ((t.relink i 1) dp).slots := by
    rw [relink_slots]
    exact hs.dirShape hdp
  refine ⟨hdp, hi, hdir, ⟨?_, ?_⟩, ?_, fun j _ => ?_, fun j hj => ?_, fun d _ => ?_,
    fun d j _ hj => ?_⟩
  · rwa [enter_type, relink_type]
  · rwa [enter_type, relink_type]
  · rw [enter_nlink, relink_nlink, if_pos rfl, if_neg hfree]
  · rw [enter_type, relink_type]
  · rw [enter_nlink, relink_nlink, if_neg hj, add_zero]
  · rw [enter_up hshape, relink_up]
  · rw [enter_held hshape _ _ _ hj, relink_held]

theorem set_up_of_ne {d : Nat} (h : d ≠ i) (x : Inode) : (t.set i x).up d = t.up d := by
  rw [up, up, set_of_ne x h]

theorem set_held_of_ne {d : Nat} (h : d ≠ i) (x : Inode) (j : Nat) :
    (t.set i x).held d j = t.held d j := by
  rw [held, held, set_of_ne x h]

theorem nameAdded_create (hs : Shape t) (hdp : (t dp).type = .dir) (hi : i ≠ 0 ∧ i < N)
    (hfree : (t i).type = .free) {type : InodeType} (hdir : type ≠ .dir) (hnew : type ≠ .free) :
    NameAdded N t ((t.set i ⟨type, 1, []⟩).enter dp name i) dp i := by
  have hne : dp ≠ i := by
    rintro rfl
    rw [hdp] at hfree
    cases hfree
  have hshape : DirShape dp ((t.set i ⟨type, 1, []⟩) dp).slots := by
    rw [set_of_ne _ hne]
    exact hs.dirShape hdp
  refine ⟨hdp, hi, by rw [hfree]; exact nofun, ⟨?_, ?_⟩, ?_, fun j hj => ?_, fun j hj => ?_,
    fun d hd => ?_, fun d j hd hj => ?_⟩
  · rwa [enter_type, set_self]
  · rwa [enter_type, set_self]
  · rw [enter_nlink, set_self, if_pos hfree]
    rfl
  · rw [enter_type, set_of_ne _ hj]
  · rw [enter_nlink, set_of_ne _ hj]
  · rw [enter_up hshape, set_up_of_ne hd]
  · rw [enter_held hshape _ _ _ hj, set_held_of_ne hd]

/-- `.` and `..` are the first two names in a new directory. -/
theorem enter_dots (hne : dp ≠ i) (hi : i ≠ 0) :
    (((t.set i ⟨.dir, 1, []⟩).relink dp 1).enter i dot i).enter i dotdot dp =
      (t.relink dp 1).set i ⟨.dir, 1, [⟨i, dot⟩, ⟨dp, dotdot⟩]⟩ := by
  funext j
  by_cases hj : j = i
  · subst hj
    simp [enter, relink, set_self, set_of_ne _ hne.symm, writeSlot, emptySlot, findIdx_cons, hi]
  · simp only [enter, set_of_ne _ hj]
    by_cases hjdp : j = dp
    · rw [hjdp, relink, relink, set_self, set_self, set_of_ne _ hne]
    · rw [relink, relink, set_of_ne _ hjdp, set_of_ne _ hjdp, set_of_ne _ hj]

theorem dirMade_create (hs : Shape t) (hdp : (t dp).type = .dir) (hi : i ≠ 0 ∧ i < N)
    (hfree : (t i).type = .free) :
    DirMade N t
      (((t.relink dp 1).set i ⟨.dir, 1, [⟨i, dot⟩, ⟨dp, dotdot⟩]⟩).enter dp name i) dp i := by
  have hne : dp ≠ i := by
    rintro rfl
    rw [hdp] at hfree
    cases hfree
  have hshape :
      DirShape dp ((t.relink dp 1).set i ⟨.dir, 1, [⟨i, dot⟩, ⟨dp, dotdot⟩]⟩ dp).slots := by
    rw [set_of_ne _ hne, relink_slots]
    exact hs.dirShape hdp
  refine ⟨hdp, hi, hfree, ⟨?_, ?_, ?_⟩, fun j hj => ?_, fun j hj => ?_, fun j hj => ?_,
    fun d hd => ?_, fun d j hd hj => ?_⟩
  · rw [enter_type, set_self]
  · rw [enter_nlink, set_self]
  · rw [enter_up hshape, up, set_self]
    rfl
  · rw [enter_held hshape _ _ _ hj, if_neg fun hc => hne hc.1.symm, held, set_self]
    rfl
  · rw [enter_type, set_of_ne _ hj, relink_type]
  · rw [enter_nlink, set_of_ne _ hj, relink_nlink]
  · rw [enter_up hshape, set_up_of_ne hd, relink_up]
  · rw [enter_held hshape _ _ _ hj, set_held_of_ne hd, relink_held]

theorem held_of_isdirempty (h : isdirempty (t i) = true) {j : Nat} (hj : j ≠ 0) :
    t.held i j = 0 := by
  refine countP_eq_zero.mpr fun e he => ?_
  have hzero : e.inum = 0 := by simpa using all_eq_true.mp h e he
  simpa [hzero] using hj.symm

/-- The slot that a name other than `.` and `..` is in. -/
theorem slotOf_spec (hs : Shape t) (hdp : (t dp).type = .dir) (hne : name ≠ dot)
    (hne' : name ≠ dotdot) {off : Nat} (h : slotOf (t dp).slots name = some off) :
    ∃ k, off = k + 2 ∧ k + 2 < (t dp).slots.length ∧
      ((t dp).slots.getD off ⟨0, []⟩).inum ≠ 0 := by
  obtain ⟨k, rfl⟩ := (hs.dirShape hdp).slotOf_le hne hne' h
  obtain ⟨hlt, hin, -⟩ := List.findIdx?_eq_some_iff_getElem.mp h
  simp only [decide_eq_true_eq] at hin
  refine ⟨k, rfl, hlt, ?_⟩
  rw [List.getD, List.getElem?_eq_getElem hlt]
  exact hin.1

variable {k : Nat} (hs : Shape t) (hdp : (t dp).type = .dir) (hlt : k + 2 < (t dp).slots.length)
  (hi : ((t dp).slots.getD (k + 2) ⟨0, []⟩).inum = i) (h0 : i ≠ 0)
include hs hdp hlt hi h0

theorem held_of_slot : 0 < t.held dp i := by
  have := clear_held (hs.dirShape hdp) hlt hi dp h0
  simp only [and_self, if_true] at this
  omega

theorem nameRemoved_unlink (hdir : (t i).type ≠ .dir) :
    NameRemoved t ((t.clear dp (k + 2)).relink i (-1)) dp i := by
  refine ⟨hdp, h0, hdir, held_of_slot hs hdp hlt hi h0, fun j => ?_, fun j => ?_, fun d _ => ?_,
    fun d j _ hj => ?_⟩
  · rw [relink_type, clear_type]
  · rw [relink_nlink, clear_nlink]
    split_ifs <;> omega
  · rw [relink_up, clear_up (hs.dirShape hdp)]
  · rw [relink_held]
    exact clear_held (hs.dirShape hdp) hlt hi d hj

theorem dirRemoved_unlink (hdir : (t i).type = .dir) (hempty : isdirempty (t i) = true) :
    DirRemoved t (((t.clear dp (k + 2)).relink dp (-1)).relink i (-1)) dp i := by
  refine ⟨hdp, h0, hdir, held_of_slot hs hdp hlt hi h0, fun _ => held_of_isdirempty hempty,
    fun j => ?_, fun j => ?_, fun d => ?_, fun d j hj => ?_⟩
  · rw [relink_type, relink_type, clear_type]
  · rw [relink_nlink, relink_nlink, clear_nlink]
    split_ifs <;> omega
  · rw [relink_up, relink_up, clear_up (hs.dirShape hdp)]
  · rw [relink_held, relink_held]
    exact clear_held (hs.dirShape hdp) hlt hi d hj

end Writes

end Xv6
