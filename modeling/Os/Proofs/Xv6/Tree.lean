/-
The tree of directories.

A directory has the name of its parent in the second slot and everything else behind it: `up` and
`held` are what those slots say, as far as inode numbers go.  A directory is linked while it has
links, and only what linked directories hold is counted.  The invariant says that the linked
directories form a tree below the root, that a directory without links is empty, and that the link
counts are right; each way in which the kernel changes the table of inodes keeps it.
-/
import Mathlib.Algebra.Order.BigOperators.Group.Finset
import Os.Xv6.Sysfile

namespace Xv6

open Finset Function

/-- The table of inodes. -/
abbrev Inodes := Nat → Inode

namespace Inodes

variable (t : Inodes)

/-- The inode that `..` names. -/
def up (d : Nat) : Nat := ((t d).slots.getD 1 ⟨0, []⟩).inum

/-- How many of the slots behind `.` and `..` name `i`. -/
def held (d i : Nat) : Nat := ((t d).slots.drop 2).countP fun e => e.inum = i

/-- A directory that has links. -/
def Linked (d : Nat) : Prop := (t d).type = .dir ∧ 0 < (t d).nlink

instance (d : Nat) : Decidable (t.Linked d) := inferInstanceAs (Decidable (_ ∧ _))

/-- The links to `i` that are in the directory `d`. -/
def linksIn (d i : Nat) : Nat :=
  if t.Linked d then (if t.up d = i then 1 else 0) + t.held d i else 0

def links (N i : Nat) : Nat := ∑ d ∈ range N, t.linksIn d i

/-- Reached from the root through names in linked directories. -/
inductive Reach : Nat → Prop
  | root : Reach rootino
  | entry {d i : Nat} : Reach d → t.Linked d → i ≠ 0 → 0 < t.held d i → Reach i

end Inodes

open Inodes

/-! ### Sums over the inodes -/

section Sums

variable {N a b : Nat} {f g : Nat → Nat}

theorem le_sum_range (f : Nat → Nat) (ha : a < N) : f a ≤ ∑ d ∈ range N, f d :=
  single_le_sum (fun _ _ => Nat.zero_le _) (mem_range.mpr ha)

theorem sum_change (ha : a < N) (hsame : ∀ d, d ≠ a → g d = f d) :
    ∑ d ∈ range N, g d + f a = ∑ d ∈ range N, f d + g a := by
  have hmem := mem_range.mpr ha
  have hrest : ∑ d ∈ (range N).erase a, g d = ∑ d ∈ (range N).erase a, f d :=
    sum_congr rfl fun d hd => hsame d (ne_of_mem_erase hd)
  rw [← add_sum_erase _ f hmem, ← add_sum_erase _ g hmem]
  omega

theorem sum_change2 (hab : a ≠ b) (ha : a < N) (hb : b < N)
    (hsame : ∀ d, d ≠ a → d ≠ b → g d = f d) :
    ∑ d ∈ range N, g d + (f a + f b) = ∑ d ∈ range N, f d + (g a + g b) := by
  have hmid : ∑ d ∈ range N, update f a (g a) d + f a =
      ∑ d ∈ range N, f d + update f a (g a) a :=
    sum_change ha fun d hd => update_of_ne hd ..
  have hlast : ∑ d ∈ range N, g d + update f a (g a) b =
      ∑ d ∈ range N, update f a (g a) d + g b := by
    refine sum_change hb fun d hd => ?_
    by_cases hda : d = a
    · rw [hda, update_self]
    · rw [update_of_ne hda]
      exact hsame d hda hd
  rw [update_self] at hmid
  rw [update_of_ne hab.symm] at hlast
  omega

theorem add_le_sum_range (f : Nat → Nat) (hab : a ≠ b) (ha : a < N) (hb : b < N) :
    f a + f b ≤ ∑ d ∈ range N, f d := by
  have hmb : b ∈ (range N).erase a :=
    mem_erase.mpr ⟨hab.symm, mem_range.mpr hb⟩
  rw [← add_sum_erase _ f (mem_range.mpr ha), ← add_sum_erase _ f hmb]
  omega

end Sums

/-! ### How the table changes -/

variable {N : Nat} {t t' : Inodes} {a b d i dp : Nat}

/-- An inode without links is freed. -/
structure Freed (t t' : Inodes) (i : Nat) : Prop where
  nlink : (t i).nlink = 0
  eq : t' = update t i ⟨.free, 0, []⟩

namespace Freed

variable (he : Freed t t' i)
include he

theorem of_ne (hd : d ≠ i) : t' d = t d := by rw [he.eq, update_of_ne hd]

theorem self : t' i = ⟨.free, 0, []⟩ := by rw [he.eq, update_self]

theorem ne (hd : (t' d).type ≠ .free) : d ≠ i := by
  rintro rfl
  exact hd (by rw [he.self])

theorem dir (hd : (t' d).type = .dir) : d ≠ i ∧ (t d).type = .dir := by
  have hne := he.ne (d := d) (by rw [hd]; exact nofun)
  exact ⟨hne, he.of_ne hne ▸ hd⟩

theorem up (hd : d ≠ i) : t'.up d = t.up d := by rw [Inodes.up, Inodes.up, he.of_ne hd]

theorem held (hd : d ≠ i) (j : Nat) : t'.held d j = t.held d j := by
  rw [Inodes.held, Inodes.held, he.of_ne hd]

end Freed

/-- The inode `i`, which is not a directory, gets a name in `dp`; it may be a new one. -/
structure NameAdded (N : Nat) (t t' : Inodes) (dp i : Nat) : Prop where
  dir : (t dp).type = .dir
  range : i ≠ 0 ∧ i < N
  old : (t i).type ≠ .dir
  new : (t' i).type ≠ .dir ∧ (t' i).type ≠ .free
  link : (t' i).nlink = (if (t i).type = .free then 0 else (t i).nlink) + 1
  type : ∀ j, j ≠ i → (t' j).type = (t j).type
  nlink : ∀ j, j ≠ i → (t' j).nlink = (t j).nlink
  up : ∀ d, d ≠ i → t'.up d = t.up d
  held : ∀ d j, d ≠ i → j ≠ 0 → t'.held d j = t.held d j + if d = dp ∧ j = i then 1 else 0

/-- The inode `i`, which is not a directory, loses a name in `dp`. -/
structure NameRemoved (t t' : Inodes) (dp i : Nat) : Prop where
  dir : (t dp).type = .dir
  pos : i ≠ 0
  old : (t i).type ≠ .dir
  held_pos : 0 < t.held dp i
  type : ∀ j, (t' j).type = (t j).type
  nlink : ∀ j, (t' j).nlink = (t j).nlink - if j = i then 1 else 0
  up : ∀ d, d ≠ i → t'.up d = t.up d
  held : ∀ d j, d ≠ i → j ≠ 0 → t'.held d j + (if d = dp ∧ j = i then 1 else 0) = t.held d j

/-- The new directory `i` is made in `dp`. -/
structure DirMade (N : Nat) (t t' : Inodes) (dp i : Nat) : Prop where
  dir : (t dp).type = .dir
  range : i ≠ 0 ∧ i < N
  old : (t i).type = .free
  new : (t' i).type = .dir ∧ (t' i).nlink = 1 ∧ t'.up i = dp
  empty : ∀ j, j ≠ 0 → t'.held i j = 0
  type : ∀ j, j ≠ i → (t' j).type = (t j).type
  nlink : ∀ j, j ≠ i → (t' j).nlink = (t j).nlink + if j = dp then 1 else 0
  up : ∀ d, d ≠ i → t'.up d = t.up d
  held : ∀ d j, d ≠ i → j ≠ 0 → t'.held d j = t.held d j + if d = dp ∧ j = i then 1 else 0

/-- The empty directory `i` is removed from `dp`. -/
structure DirRemoved (t t' : Inodes) (dp i : Nat) : Prop where
  dir : (t dp).type = .dir
  pos : i ≠ 0
  old : (t i).type = .dir
  held_pos : 0 < t.held dp i
  empty : ∀ j, j ≠ 0 → t.held i j = 0
  type : ∀ j, (t' j).type = (t j).type
  nlink : ∀ j, (t' j).nlink = (t j).nlink - ((if j = i then 1 else 0) + if j = dp then 1 else 0)
  up : ∀ d, t'.up d = t.up d
  held : ∀ d j, j ≠ 0 → t'.held d j + (if d = dp ∧ j = i then 1 else 0) = t.held d j

/-- The inode `i` gets a name in `dp`: it is no directory, or a new one. -/
structure Entered (N : Nat) (t t' : Inodes) (dp i : Nat) : Prop where
  dir : (t dp).type = .dir
  range : i ≠ 0 ∧ i < N
  old : (t i).type ≠ .dir
  new : (t' i).type ≠ .free
  link : (t' i).nlink = (if (t i).type = .free then 0 else (t i).nlink) + 1
  made : (t' i).type = .dir → (t i).type = .free ∧ t'.up i = dp ∧ ∀ j, j ≠ 0 → t'.held i j = 0
  type : ∀ j, j ≠ i → (t' j).type = (t j).type
  nlink : ∀ j, j ≠ i →
    (t' j).nlink = (t j).nlink + if (t' i).type = .dir ∧ j = dp then 1 else 0
  up : ∀ d, d ≠ i → t'.up d = t.up d
  held : ∀ d j, d ≠ i → j ≠ 0 → t'.held d j = t.held d j + if d = dp ∧ j = i then 1 else 0

namespace Entered

variable (he : Entered N t t' dp i) {j : Nat}
include he

theorem ne_dir (hd : (t d).type = .dir) : d ≠ i := fun hc => he.old (hc ▸ hd)

theorem held_of_ne (hd : d ≠ i) (hj : j ≠ 0) (hne : ¬(d = dp ∧ j = i)) :
    t'.held d j = t.held d j := by
  rw [he.held d j hd hj, if_neg hne, add_zero]

theorem held_pos : 0 < t'.held dp i := by
  rw [he.held dp i (he.ne_dir he.dir) he.range.1, if_pos ⟨rfl, rfl⟩]
  omega

theorem ne_of_held (hd : (t' d).type = .dir) (hj : j ≠ 0) (hpos : 0 < t'.held d j) : d ≠ i := by
  rintro rfl
  rw [(he.made hd).2.2 j hj] at hpos
  exact absurd hpos (by decide)

/-- One entry more for `i`, and the `..` of a new directory. -/
theorem sum_add {f g : Nat → Nat} (hdp : dp < N) (hold : f i = 0)
    (hnew : g i = if (t' i).type = .dir ∧ j = dp then 1 else 0)
    (hsame : ∀ d, d ≠ i → g d = f d + if d = dp ∧ j = i then 1 else 0) :
    ∑ d ∈ Finset.range N, g d = ∑ d ∈ Finset.range N, f d +
      ((if j = i then 1 else 0) + if (t' i).type = .dir ∧ j = dp then 1 else 0) := by
  have hne := he.ne_dir he.dir
  have hchange := sum_change2 (f := f) (g := g) hne.symm he.range.2 hdp fun d hdi hddp => by
    rw [hsame d hdi, if_neg fun hc => hddp hc.1, add_zero]
  have hself := hsame dp hne
  simp only [true_and] at hself
  omega

/-- In the directories of `L`, directories have one name. -/
theorem once {L L' : Nat → Prop} (hroot : i ≠ rootino) (hL : ∀ d, d ≠ i → L' d → L d)
    (hdir : ∀ d, L' d → (t' d).type = .dir)
    (hfresh : (t i).type = .free → ∀ d, L d → t.held d i = 0)
    (honce : ∀ d j, L d → j ≠ 0 → 0 < t.held d j → (t j).type = .dir →
      j ≠ rootino ∧ t.up j = d ∧ t.held d j = 1)
    (hd : L' d) (hj : j ≠ 0) (hpos : 0 < t'.held d j) (hjdir : (t' j).type = .dir) :
    j ≠ rootino ∧ t'.up j = d ∧ t'.held d j = 1 := by
  have hdi := he.ne_of_held (hdir d hd) hj hpos
  have hLd := hL d hdi hd
  by_cases hji : j = i
  · subst hji
    obtain ⟨hfree, hup, -⟩ := he.made hjdir
    have hheld := he.held d j hdi hj
    rw [hfresh hfree d hLd] at hheld
    split_ifs at hheld with hddp
    · exact ⟨hroot, hup.trans hddp.1.symm, hheld⟩
    · rw [hheld] at hpos
      exact absurd hpos (by decide)
  · rw [he.held_of_ne hdi hj fun hc => hji hc.2] at hpos ⊢
    rw [he.up j hji]
    exact honce d j hLd hj hpos (by rw [← he.type j hji]; exact hjdir)

end Entered

theorem NameAdded.entered (h : NameAdded N t t' dp i) : Entered N t t' dp i :=
  ⟨h.dir, h.range, h.old, h.new.2, h.link, fun hc => absurd hc h.new.1, h.type,
    fun j hj => by rw [h.nlink j hj, if_neg fun hc => h.new.1 hc.1, add_zero], h.up, h.held⟩

theorem DirMade.entered (h : DirMade N t t' dp i) : Entered N t t' dp i :=
  ⟨h.dir, h.range, by rw [h.old]; exact nofun, by rw [h.new.1]; exact nofun,
    by rw [h.new.2.1, if_pos h.old]; rfl, fun _ => ⟨h.old, h.new.2.2, h.empty⟩, h.type,
    fun j hj => by simp only [h.nlink j hj, h.new.1, true_and], h.up, h.held⟩

/-- The inode `i`, which is no directory or an empty one, loses a name in `dp`. -/
structure Taken (t t' : Inodes) (dp i : Nat) : Prop where
  dir : (t dp).type = .dir
  pos : i ≠ 0
  held_pos : 0 < t.held dp i
  empty : (t i).type = .dir → ∀ j, j ≠ 0 → t.held i j = 0
  type : ∀ j, (t' j).type = (t j).type
  nlink : ∀ j, (t' j).nlink =
    (t j).nlink - ((if j = i then 1 else 0) + if (t i).type = .dir ∧ j = dp then 1 else 0)
  up : ∀ d, (t d).type = .dir → t'.up d = t.up d
  held : ∀ d j, (t d).type = .dir → j ≠ 0 →
    t'.held d j + (if d = dp ∧ j = i then 1 else 0) = t.held d j

namespace Taken

variable (he : Taken t t' dp i) {j : Nat}
include he

theorem ne_of_held (hd : (t d).type = .dir) (hj : j ≠ 0) (hpos : 0 < t.held d j) : d ≠ i := by
  rintro rfl
  rw [he.empty hd j hj] at hpos
  exact absurd hpos (by decide)

theorem ne : dp ≠ i := he.ne_of_held he.dir he.pos he.held_pos

theorem held_of_ne (hd : (t d).type = .dir) (hj : j ≠ 0) (hji : j ≠ i) :
    t'.held d j = t.held d j := by
  rw [← he.held d j hd hj, if_neg fun hc => hji hc.2, add_zero]

theorem held_le (hd : (t d).type = .dir) (hj : j ≠ 0) : t'.held d j ≤ t.held d j := by
  have := he.held d j hd hj
  omega

/-- One entry less for `i`, and the `..` of a directory. -/
theorem sum_sub {f g : Nat → Nat} (hi : i < N) (hdp : dp < N)
    (hself : g i + (if (t i).type = .dir ∧ j = dp then 1 else 0) = f i)
    (hsame : ∀ d, d ≠ i → g d + (if d = dp ∧ j = i then 1 else 0) = f d) :
    ∑ d ∈ range N, g d + ((if j = i then 1 else 0) +
      if (t i).type = .dir ∧ j = dp then 1 else 0) = ∑ d ∈ range N, f d := by
  have hchange := sum_change2 (f := f) (g := g) he.ne.symm hi hdp fun d hdi hddp => by
    rw [← hsame d hdi, if_neg fun hc => hddp hc.1, add_zero]
  have hparent := hsame dp he.ne
  simp only [true_and] at hparent
  omega

end Taken

theorem NameRemoved.taken (h : NameRemoved t t' dp i) : Taken t t' dp i :=
  have hne : ∀ d, (t d).type = .dir → d ≠ i := fun _ hd hc => h.old (hc ▸ hd)
  ⟨h.dir, h.pos, h.held_pos, fun hc => absurd hc h.old, h.type,
    fun j => by simp only [h.nlink, h.old, false_and, if_false, add_zero],
    fun d hd => h.up d (hne d hd), fun d j hd => h.held d j (hne d hd)⟩

theorem DirRemoved.taken (h : DirRemoved t t' dp i) : Taken t t' dp i :=
  ⟨h.dir, h.pos, h.held_pos, fun _ => h.empty, h.type,
    fun j => by simp only [h.nlink, h.old, true_and], fun d _ => h.up d, fun d j _ => h.held d j⟩

/-- The invariant of the tree; `N` is the number of inodes. -/
structure TreeInv (N : Nat) (t : Inodes) : Prop where
  root : t.Linked rootino ∧ t.up rootino = rootino
  range : ∀ i, (t i).type ≠ .free → 0 < i ∧ i < N
  links : ∀ i, (t i).type ≠ .free → (t i).nlink = t.links N i
  /-- What a linked directory holds exists. -/
  entry : ∀ d i, t.Linked d → i ≠ 0 → 0 < t.held d i → (t i).type ≠ .free
  /-- A linked directory is in its parent, which is linked. -/
  parent : ∀ d, t.Linked d → d ≠ rootino → t.Linked (t.up d) ∧ 0 < t.held (t.up d) d
  /-- A directory has no other name. -/
  once : ∀ d i, t.Linked d → i ≠ 0 → 0 < t.held d i → (t i).type = .dir →
    i ≠ rootino ∧ t.up i = d ∧ t.held d i = 1
  /-- A directory without links is empty. -/
  removed : ∀ d, (t d).type = .dir → ¬t.Linked d → ∀ i, i ≠ 0 → t.held d i = 0
  reach : ∀ d, t.Linked d → t.Reach d

namespace TreeInv

theorem linksIn_le (t : Inodes) (i : Nat) (hd : d < N) : t.linksIn d i ≤ t.links N i :=
  le_sum_range (fun d => t.linksIn d i) hd

section

variable (h : TreeInv N t)
include h

theorem lt (hd : t.Linked d) : d < N :=
  (h.range d (by rw [hd.1]; exact nofun)).2

theorem held_le (hd : t.Linked d) : t.held d i ≤ t.links N i := by
  refine le_trans ?_ (linksIn_le t i (h.lt hd))
  rw [linksIn, if_pos hd]
  exact Nat.le_add_left ..

theorem pos_of_held (hd : t.Linked d) (hi : i ≠ 0) (hheld : 0 < t.held d i) :
    0 < (t i).nlink := by
  rw [h.links i (h.entry d i hd hi hheld)]
  have := h.held_le (i := i) hd
  omega

theorem linked_of_held (hd : (t d).type = .dir) (hi : i ≠ 0)
    (hheld : 0 < t.held d i) : t.Linked d := by
  by_contra hl
  rw [h.removed d hd hl i hi] at hheld
  exact absurd hheld (by decide)

theorem up_linked (hd : t.Linked d) : t.Linked (t.up d) := by
  by_cases hroot : d = rootino
  · rw [hroot, h.root.2]
    exact h.root.1
  · exact (h.parent d hd hroot).1

theorem linksIn_eq_zero (hi : i ≠ 0) (hno : ¬0 < (t i).nlink ∨ (t i).type = .free)
    (d : Nat) : t.linksIn d i = 0 := by
  unfold linksIn
  split
  next hd =>
    have hup : t.up d ≠ i := by
      rintro rfl
      have hlinked := h.up_linked hd
      rcases hno with hno | hno
      · exact hno hlinked.2
      · rw [hlinked.1] at hno
        cases hno
    have hheld : t.held d i = 0 := by
      by_contra hpos
      rcases hno with hno | hno
      · exact hno (h.pos_of_held hd hi (Nat.pos_of_ne_zero hpos))
      · exact h.entry d i hd hi (Nat.pos_of_ne_zero hpos) hno
    rw [if_neg hup, hheld]
  next => rfl

theorem links_eq_zero (hi : i ≠ 0)
    (hno : ¬0 < (t i).nlink ∨ (t i).type = .free) : t.links N i = 0 :=
  sum_eq_zero fun d _ => h.linksIn_eq_zero hi hno d

/-! ### Freeing an inode -/

theorem free (he : Freed t t' i) : TreeInv N t' := by
  have hne : ∀ {d}, t.Linked d → d ≠ i := by
    rintro d hd rfl
    rw [Linked, he.nlink] at hd
    exact absurd hd.2 (by decide)
  have hlinked : ∀ d, t'.Linked d ↔ t.Linked d := by
    intro d
    by_cases hd : d = i
    · exact iff_of_false (fun hl => (he.dir hl.1).1 hd) fun hl => hne hl hd
    · unfold Linked
      rw [he.of_ne hd]
  have hlinks : ∀ j, t'.links N j = t.links N j := by
    intro j
    refine sum_congr rfl fun d _ => ?_
    unfold linksIn
    simp only [hlinked]
    split
    next hd => rw [he.up (hne hd), he.held (hne hd)]
    next => rfl
  refine ⟨⟨(hlinked _).mpr h.root.1, by rw [he.up (hne h.root.1), h.root.2]⟩, fun j hj => ?_,
    fun j hj => ?_, fun d j hd hj hpos => ?_, fun d hd hroot => ?_, fun d j hd hj hpos hdir => ?_,
    fun d hdir hd j hj => ?_, fun d hd => ?_⟩
  · rw [he.of_ne (he.ne hj)] at hj
    exact h.range j hj
  · have hsame := he.of_ne (he.ne hj)
    rw [hsame] at hj ⊢
    rw [hlinks]
    exact h.links j hj
  · rw [hlinked] at hd
    rw [he.held (hne hd)] at hpos
    have hji : j ≠ i := by
      rintro rfl
      exact absurd he.nlink (h.pos_of_held hd hj hpos).ne'
    rw [he.of_ne hji]
    exact h.entry d j hd hj hpos
  · rw [hlinked] at hd
    obtain ⟨h1, h2⟩ := h.parent d hd hroot
    rw [he.up (hne hd), he.held (hne h1)]
    exact ⟨(hlinked _).mpr h1, h2⟩
  · rw [hlinked] at hd
    rw [he.held (hne hd)] at hpos ⊢
    obtain ⟨hji, hdir⟩ := he.dir hdir
    rw [he.up hji]
    exact h.once d j hd hj hpos hdir
  · obtain ⟨hdi, hdir⟩ := he.dir hdir
    rw [hlinked] at hd
    rw [he.held hdi]
    exact h.removed d hdir hd j hj
  · have hmono : ∀ d, t.Reach d → t'.Reach d := by
      intro d hr
      induction hr with
      | root => exact .root
      | entry _ hd hi hpos ih =>
        exact .entry ih ((hlinked _).mpr hd) hi (by rw [he.held (hne hd)]; exact hpos)
    exact hmono d (h.reach d ((hlinked d).mp hd))

theorem ne_zero (hd : t.Linked d) : d ≠ 0 :=
  Nat.pos_iff_ne_zero.mp (h.range d (by rw [hd.1]; exact nofun)).1

/-! ### Names -/

theorem enter (he : Entered N t t' dp i) (hpos : 0 < (t dp).nlink) :
    TreeInv N t' := by
  have hdp : t.Linked dp := ⟨he.dir, hpos⟩
  obtain ⟨hi, hN⟩ := he.range
  have hlink : (t' i).nlink = t.links N i + 1 := by
    rw [he.link]
    split
    next hfree =>
      rw [h.links_eq_zero hi (.inr hfree)]
      rfl
    next hfree => rw [h.links i hfree]
  have hne : ∀ {d}, t.Linked d → d ≠ i := fun hd => he.ne_dir hd.1
  have hlinked : ∀ d, d ≠ i → (t'.Linked d ↔ t.Linked d) := by
    intro d hd
    unfold Linked
    rw [he.type d hd, he.nlink d hd]
    split
    next heq =>
      rw [heq.2]
      exact and_congr_right fun _ => by omega
    next => rw [add_zero]
  have hlinks : ∀ j, j ≠ 0 → t'.links N j = t.links N j +
      ((if j = i then 1 else 0) + if (t' i).type = .dir ∧ j = dp then 1 else 0) := by
    intro j hj
    refine he.sum_add (h.lt hdp) (if_neg fun hl => hne hl rfl) ?_ fun d hdi => ?_
    · by_cases hdir : (t' i).type = .dir
      · obtain ⟨-, hupi, hempty⟩ := he.made hdir
        rw [linksIn, if_pos ⟨hdir, by omega⟩, hupi, hempty j hj, Nat.add_zero]
        simp only [hdir, true_and, eq_comm]
      · rw [linksIn, if_neg fun hl => hdir hl.1, if_neg fun hc => hdir hc.1]
    · unfold linksIn
      simp only [hlinked d hdi, he.up d hdi, he.held d j hdi hj]
      split
      next => omega
      next hd =>
        rw [if_neg]
        rintro ⟨rfl, -⟩
        exact hd hdp
  have hreach : ∀ d, t.Reach d → t'.Reach d := by
    intro d hr
    induction hr with
    | root => exact .root
    | @entry d j _ hd hj hpos ih =>
      refine .entry ih ((hlinked d (hne hd)).mpr hd) hj ?_
      rw [he.held d j (hne hd) hj]
      omega
  have hdp' := (hlinked dp (hne hdp)).mpr hdp
  have hroot := hne h.root.1
  refine ⟨⟨(hlinked _ hroot).mpr h.root.1, by rw [he.up _ hroot, h.root.2]⟩, fun j hj => ?_,
    fun j hj => ?_, fun d j hd hj hpos => ?_, fun d hd hdroot => ?_, fun d j => ?_,
    fun d hddir hd j hj => ?_, fun d hd => ?_⟩
  · by_cases hji : j = i
    · subst hji
      exact ⟨Nat.pos_of_ne_zero hi, hN⟩
    · exact h.range j (by rw [← he.type j hji]; exact hj)
  · by_cases hji : j = i
    · subst hji
      rw [hlink, hlinks j hi, if_pos rfl, if_neg fun hc => hne hdp hc.2.symm]
      rfl
    · rw [he.type j hji] at hj
      have hold := h.links j hj
      rw [he.nlink j hji, hlinks j (h.range j hj).1.ne', if_neg hji, hold]
      split_ifs <;> simp
  · by_cases hji : j = i
    · rw [hji]
      exact he.new
    · have hdi := he.ne_of_held hd.1 hj hpos
      rw [he.held_of_ne hdi hj fun hc => hji hc.2] at hpos
      rw [he.type j hji]
      exact h.entry d j ((hlinked d hdi).mp hd) hj hpos
  · by_cases hdi : d = i
    · subst hdi
      rw [(he.made hd.1).2.1]
      exact ⟨hdp', he.held_pos⟩
    · rw [hlinked d hdi] at hd
      obtain ⟨h1, h2⟩ := h.parent d hd hdroot
      rw [he.up d hdi, hlinked _ (hne h1), he.held _ d (hne h1) (h.ne_zero hd)]
      exact ⟨h1, by omega⟩
  · refine he.once hroot.symm (fun d hdi => (hlinked d hdi).mp) (fun _ hd => hd.1) ?_ h.once
    intro hfree d hd
    by_contra hpos
    exact h.entry d i hd hi (Nat.pos_of_ne_zero hpos) hfree
  · have hdi : d ≠ i := by
      rintro rfl
      exact hd ⟨hddir, by omega⟩
    rw [hlinked d hdi] at hd
    rw [he.held_of_ne hdi hj fun hc => hd (hc.1 ▸ hdp)]
    exact h.removed d (by rw [← he.type d hdi]; exact hddir) hd j hj
  · by_cases hdi : d = i
    · subst hdi
      exact .entry (hreach dp (h.reach dp hdp)) hdp' hi he.held_pos
    · exact hreach d (h.reach d ((hlinked d hdi).mp hd))

theorem nlink_of_empty (hdp : t.Linked dp) (hi : i ≠ 0) (hin : 0 < t.held dp i)
    (hdir : (t i).type = .dir) (hempty : ∀ j, j ≠ 0 → t.held i j = 0) :
    (t i).nlink = 1 := by
  obtain ⟨hroot, hup, hone⟩ := h.once dp i hdp hi hin hdir
  have hnoup : ∀ d, t.Linked d → t.up d ≠ i := by
    intro d hd hc
    by_cases hdroot : d = rootino
    · rw [hdroot, h.root.2] at hc
      exact hroot hc.symm
    · have hheld := (h.parent d hd hdroot).2
      rw [hc, hempty d (h.ne_zero hd)] at hheld
      exact absurd hheld (by decide)
  have hsum : t.links N i = t.linksIn dp i := by
    refine sum_eq_single_of_mem dp (mem_range.mpr (h.lt hdp)) fun d _ hddp => ?_
    unfold linksIn
    split
    next hd =>
      have hheld : t.held d i = 0 := by
        by_contra hpos
        exact hddp ((h.once d i hd hi (Nat.pos_of_ne_zero hpos) hdir).2.1.symm.trans hup)
      rw [if_neg (hnoup d hd), hheld, Nat.add_zero]
    next => rfl
  rw [h.links i (by rw [hdir]; exact nofun), hsum, linksIn, if_pos hdp, if_neg (hnoup dp hdp), hone]
  rfl

/-- The parent of an empty directory has one more link than that directory's `..`. -/
theorem two_le_nlink (hdp : t.Linked dp) (hi : i ≠ 0) (hin : 0 < t.held dp i)
    (hdir : (t i).type = .dir) (hempty : ∀ j, j ≠ 0 → t.held i j = 0) :
    2 ≤ (t dp).nlink := by
  obtain ⟨hroot, hup, -⟩ := h.once dp i hdp hi hin hdir
  have hli : t.Linked i := ⟨hdir, by rw [h.nlink_of_empty hdp hi hin hdir hempty]; decide⟩
  have hone : t.linksIn i dp = 1 := by
    rw [linksIn, if_pos hli, if_pos hup, hempty dp (h.ne_zero hdp)]
  have hother : ∃ b, b ≠ i ∧ b < N ∧ 0 < t.linksIn b dp := by
    by_cases hdproot : dp = rootino
    · refine ⟨rootino, hroot.symm, h.lt h.root.1, ?_⟩
      rw [linksIn, if_pos h.root.1, hdproot, if_pos h.root.2]
      omega
    obtain ⟨hl, hheld⟩ := h.parent dp hdp hdproot
    refine ⟨t.up dp, ?_, h.lt hl, ?_⟩
    · intro hc
      rw [hc, hempty dp (h.ne_zero hdp)] at hheld
      exact absurd hheld (by decide)
    · rw [linksIn, if_pos hl]
      omega
  obtain ⟨b, hbi, hbN, hb⟩ := hother
  have hle : t.linksIn b dp + t.linksIn i dp ≤ t.links N dp :=
    add_le_sum_range (fun d => t.linksIn d dp) hbi hbN (h.lt hli)
  rw [h.links dp (by rw [hdp.1]; exact nofun)]
  omega

theorem take (he : Taken t t' dp i) : TreeInv N t' := by
  have ⟨hdpdir, hi, hin, hempty, htype, hnlink, hup, hheld⟩ := he
  have hdp := h.linked_of_held hdpdir hi hin
  have hli : (t i).type = .dir → t.Linked i := fun hdir =>
    ⟨hdir, by rw [h.nlink_of_empty hdp hi hin hdir (hempty hdir)]; decide⟩
  have hroot : rootino ≠ i := by
    rintro rfl
    exact (h.once dp _ hdp hi hin h.root.1.1).1 rfl
  have hlinked : ∀ d, t'.Linked d ↔ t.Linked d ∧ d ≠ i := by
    intro d
    unfold Linked
    rw [htype d, hnlink d]
    by_cases hdi : d = i
    · subst hdi
      rw [if_pos rfl, if_neg fun hc => he.ne hc.2.symm]
      refine iff_of_false (fun hc => ?_) fun hc => hc.2 rfl
      rw [h.nlink_of_empty hdp hi hin hc.1 (hempty hc.1)] at hc
      exact absurd hc.2 (by decide)
    rw [if_neg hdi]
    split
    next hc =>
      have hndp := h.two_le_nlink hdp hi hin hc.1 (hempty hc.1)
      rw [hc.2]
      exact ⟨fun hl => ⟨⟨hl.1, by omega⟩, he.ne⟩, fun hl => ⟨hl.1.1, by omega⟩⟩
    next => simp [hdi]
  have hlinks : ∀ j, j ≠ 0 → t'.links N j +
      ((if j = i then 1 else 0) + if (t i).type = .dir ∧ j = dp then 1 else 0) = t.links N j := by
    intro j hj
    refine he.sum_sub (h.range i (h.entry dp i hdp hi hin)).2 (h.lt hdp) ?_ fun d hdi => ?_
    · have hinew : t'.linksIn i j = 0 := if_neg fun hl => ((hlinked i).mp hl).2 rfl
      by_cases hdir : (t i).type = .dir
      · rw [hinew, linksIn, if_pos (hli hdir), (h.once dp i hdp hi hin hdir).2.1,
          hempty hdir j hj]
        simp only [hdir, true_and, eq_comm, zero_add, add_zero]
      · rw [hinew, linksIn, if_neg fun hl => hdir hl.1, if_neg fun hc => hdir hc.1]
    · unfold linksIn
      simp only [hlinked, ne_eq, hdi, not_false_eq_true, and_true]
      split
      next hd =>
        rw [hup d hd.1, ← hheld d j hd.1 hj]
        omega
      next hd =>
        rw [if_neg]
        rintro ⟨rfl, -⟩
        exact hd hdp
  -- A file or an empty directory is on no path to another inode.
  have hreach : ∀ d, t.Reach d → d ≠ i → t'.Reach d := by
    intro d hr
    induction hr with
    | root => exact fun _ => .root
    | @entry d j _ hd hj hpos ih =>
      intro hji
      have hdi := he.ne_of_held hd.1 hj hpos
      refine .entry (ih hdi) ((hlinked d).mpr ⟨hd, hdi⟩) hj ?_
      rw [he.held_of_ne hd.1 hj hji]
      exact hpos
  refine ⟨⟨(hlinked _).mpr ⟨h.root.1, hroot⟩, by rw [hup _ h.root.1.1, h.root.2]⟩, fun j hj => ?_,
    fun j hj => ?_, fun d j hd hj hpos => ?_, fun d hd hdroot => ?_, fun d j hd hj hpos hjdir => ?_,
    fun d hddir hd j hj => ?_, fun d hd => ?_⟩
  · exact h.range j (by rw [← htype]; exact hj)
  · rw [htype] at hj
    rw [hnlink j, h.links j hj, ← hlinks j (h.range j hj).1.ne']
    split_ifs <;> simp
  · have hd := ((hlinked d).mp hd).1
    rw [htype]
    exact h.entry d j hd hj (Nat.lt_of_lt_of_le hpos (he.held_le hd.1 hj))
  · obtain ⟨hd, hdi⟩ := (hlinked d).mp hd
    obtain ⟨h1, h2⟩ := h.parent d hd hdroot
    rw [hup d hd.1, hlinked, he.held_of_ne h1.1 (h.ne_zero hd) hdi]
    exact ⟨⟨h1, he.ne_of_held h1.1 (h.ne_zero hd) h2⟩, h2⟩
  · obtain ⟨hd, -⟩ := (hlinked d).mp hd
    rw [htype] at hjdir
    have hle := he.held_le hd.1 hj
    obtain ⟨h1, h2, h3⟩ := h.once d j hd hj (Nat.lt_of_lt_of_le hpos hle) hjdir
    rw [hup j hjdir]
    exact ⟨h1, h2, by omega⟩
  · rw [htype] at hddir
    have hle := he.held_le hddir hj
    by_cases hdi : d = i
    · subst hdi
      rw [hempty hddir j hj] at hle
      omega
    · have hnone := h.removed d hddir (fun hl => hd ((hlinked d).mpr ⟨hl, hdi⟩)) j hj
      omega
  · obtain ⟨hd, hdi⟩ := (hlinked d).mp hd
    exact hreach d (h.reach d hd) hdi

end

end TreeInv

end Xv6
