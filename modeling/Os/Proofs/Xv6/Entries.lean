/-
Entries of directories.

A directory is named while another one holds it, or it is the root.  The names of an inode are the
entries for it in all directories, except for the `..` of a directory that is not named itself:
`sys_unlink` has taken that link back.  An inode has at least as many links as names, so what an
entry names exists; only the `..` of a directory without a name has to be looked after, by the
order in which directories are removed.
-/
import Os.Proofs.Xv6.Links

namespace Xv6

open Prog Runs Inodes Option

variable {n : Nat}

namespace Inodes

/-- The root, or a directory that another one holds. -/
def Named (t : Inodes) (N d : Nat) : Prop :=
  d = rootino ∨ ∃ d', d' < N ∧ (t d').type = .dir ∧ 0 < t.held d' d

instance (t : Inodes) (N d : Nat) : Decidable (t.Named N d) := inferInstanceAs (Decidable (_ ∨ _))

/-- The names of `i` that are in the directory `d`. -/
def namesIn (t : Inodes) (N d i : Nat) : Nat :=
  if (t d).type = .dir then (if t.up d = i ∧ t.Named N d then 1 else 0) + t.held d i else 0

def names (t : Inodes) (N i : Nat) : Nat := ∑ d ∈ Finset.range N, t.namesIn N d i

end Inodes

/-- The invariant of the entries. -/
structure EntriesInv (N : Nat) (t : Inodes) : Prop where
  root : (t rootino).type = .dir ∧ t.up rootino = rootino
  range : ∀ i, (t i).type ≠ .free → 0 < i ∧ i < N
  free : ∀ i, (t i).type = .free → (t i).nlink = 0
  names : ∀ i, i ≠ 0 → t.names N i ≤ (t i).nlink
  /-- A directory has at most one name. -/
  once : ∀ d i, (t d).type = .dir → i ≠ 0 → 0 < t.held d i → (t i).type = .dir →
    i ≠ rootino ∧ t.up i = d ∧ t.held d i = 1
  /-- What the `..` of a directory without a name is for has a name. -/
  parent : ∀ d, (t d).type = .dir → ¬t.Named N d → (t (t.up d)).type = .dir ∧ t.Named N (t.up d)

namespace EntriesInv

variable {N : Nat} {t t' : Inodes} {d i dp : Nat}

theorem lt (h : EntriesInv N t) (hd : (t d).type = .dir) : d < N :=
  (h.range d (by rw [hd]; exact nofun)).2

theorem ne_zero (h : EntriesInv N t) (hd : (t d).type = .dir) : d ≠ 0 := by
  have := (h.range d (by rw [hd]; exact nofun)).1
  omega

theorem namesIn_le (t : Inodes) (i : Nat) (hd : d < N) : t.namesIn N d i ≤ t.names N i :=
  le_sum_range (fun d => t.namesIn N d i) hd

section

variable (h : EntriesInv N t)
include h

section

variable (hd : (t d).type = .dir)
include hd

theorem held_le : t.held d i ≤ t.names N i := by
  refine le_trans ?_ (namesIn_le t i (h.lt hd))
  rw [namesIn, if_pos hd]
  exact Nat.le_add_left ..

theorem entry (hi : i ≠ 0) (hpos : 0 < t.held d i) :
    (t i).type ≠ .free := by
  intro hfree
  have hle := h.held_le (i := i) hd
  have hnames := h.names i hi
  rw [h.free i hfree] at hnames
  omega

theorem nlink_pos (hn : t.Named N d) :
    0 < (t d).nlink := by
  have hnames := h.names d (h.ne_zero hd)
  have hpos : 0 < t.names N d := by
    obtain rfl | ⟨d', -, hd', hheld⟩ := hn
    · refine Nat.lt_of_lt_of_le ?_ (namesIn_le t rootino (h.lt hd))
      rw [namesIn, if_pos hd, if_pos ⟨h.root.2, .inl rfl⟩]
      omega
    · exact Nat.lt_of_lt_of_le hheld (h.held_le hd')
  omega

theorem up_dir : (t (t.up d)).type = .dir := by
  by_cases hn : t.Named N d
  · obtain rfl | ⟨d', -, hd', hheld⟩ := hn
    · rw [h.root.2]
      exact h.root.1
    · rw [(h.once d' d hd' (h.ne_zero hd) hheld hd).2.1]
      exact hd'
  · exact (h.parent d hd hn).1

end

/-! ### Freeing an inode -/

theorem freed (he : Freed t t' i) : EntriesInv N t' := by
  -- A named directory has links, so it is not the one that is freed.
  have hne : ∀ {d}, (t d).type = .dir → t.Named N d → d ≠ i := by
    rintro d hd hn rfl
    have := h.nlink_pos hd hn
    rw [he.nlink] at this
    exact absurd this (by decide)
  have hroot := hne h.root.1 (.inl rfl)
  have hnamed' : ∀ {d}, t'.Named N d → t.Named N d := by
    rintro d (rfl | ⟨d', hlt, hd', hpos⟩)
    · exact .inl rfl
    · obtain ⟨hdi, hd'⟩ := he.dir hd'
      rw [he.held hdi] at hpos
      exact .inr ⟨d', hlt, hd', hpos⟩
  have hnamed : ∀ {d}, (t d).type = .dir → t.Named N d → t'.Named N d := by
    rintro d hd (rfl | ⟨d', hlt, hd', hpos⟩)
    · exact .inl rfl
    have hup' := (h.once d' d hd' (h.ne_zero hd) hpos hd).2.1
    have hdi : d' ≠ i := by
      rintro rfl
      have hle := namesIn_le t d' (h.lt hd)
      have hnames := h.names d' (h.ne_zero hd')
      rw [namesIn, if_pos hd, if_pos ⟨hup', .inr ⟨d', hlt, hd', hpos⟩⟩] at hle
      rw [he.nlink] at hnames
      omega
    exact .inr ⟨d', hlt, by rw [he.of_ne hdi]; exact hd', by rw [he.held hdi]; exact hpos⟩
  have hle : ∀ j, t'.names N j ≤ t.names N j := by
    intro j
    refine Finset.sum_le_sum fun d _ => ?_
    unfold namesIn
    by_cases hd : (t' d).type = .dir
    · obtain ⟨hdi, hd'⟩ := he.dir hd
      rw [if_pos hd, if_pos hd', he.up hdi, he.held hdi]
      refine Nat.add_le_add_right ?_ _
      split
      next hc => rw [if_pos ⟨hc.1, hnamed' hc.2⟩]
      next => exact Nat.zero_le _
    · rw [if_neg hd]
      exact Nat.zero_le _
  refine ⟨⟨by rw [he.of_ne hroot]; exact h.root.1, by rw [he.up hroot, h.root.2]⟩, fun j hj => ?_,
    fun j hj => ?_, fun j hj => ?_, fun d j hd hj hpos hjdir => ?_, fun d hd hn => ?_⟩
  · rw [he.of_ne (he.ne hj)] at hj
    exact h.range j hj
  · by_cases hji : j = i
    · rw [hji, he.self]
    · rw [he.of_ne hji] at hj ⊢
      exact h.free j hj
  · have hj' := hle j
    by_cases hji : j = i
    · have hnames := h.names j hj
      subst hji
      rw [he.nlink] at hnames
      rw [he.self]
      exact le_trans (Int.ofNat_le.mpr hj') hnames
    · rw [he.of_ne hji]
      have := h.names j hj
      omega
  · obtain ⟨hdi, hd⟩ := he.dir hd
    obtain ⟨hji, hjdir⟩ := he.dir hjdir
    rw [he.held hdi] at hpos ⊢
    rw [he.up hji]
    exact h.once d j hd hj hpos hjdir
  · obtain ⟨hdi, hd⟩ := he.dir hd
    obtain ⟨h1, h2⟩ := h.parent d hd fun hc => hn (hnamed hd hc)
    rw [he.up hdi, he.of_ne (hne h1 h2)]
    exact ⟨h1, hnamed h1 h2⟩

/-! ### Names -/

theorem enter (he : Entered N t t' dp i) : EntriesInv N t' := by
  obtain ⟨hi, hN⟩ := he.range
  have hdp := he.dir
  have hne : ∀ {d}, (t d).type = .dir → d ≠ i := he.ne_dir
  have hnamed_i : t'.Named N i :=
    .inr ⟨dp, h.lt hdp, by rw [he.type dp (hne hdp)]; exact hdp, he.held_pos⟩
  have hnamed : ∀ {d}, (t d).type = .dir → (t'.Named N d ↔ t.Named N d) := by
    intro d hd
    refine or_congr_right (exists_congr fun d' => and_congr_right fun _ => ?_)
    by_cases hd' : d' = i
    · refine iff_of_false (fun hc => ?_) fun hc => hne hc.1 hd'
      exact he.ne_of_held hc.1 (h.ne_zero hd) hc.2 hd'
    · rw [he.type d' hd', he.held_of_ne hd' (h.ne_zero hd) fun hc => hne hd hc.2]
  have hnames : ∀ j, j ≠ 0 → t'.names N j = t.names N j +
      ((if j = i then 1 else 0) + if (t' i).type = .dir ∧ j = dp then 1 else 0) := by
    intro j hj
    refine he.sum_add (h.lt hdp) (if_neg he.old) ?_ fun d hdi => ?_
    · by_cases hdir : (t' i).type = .dir
      · obtain ⟨-, hupi, hempty⟩ := he.made hdir
        rw [namesIn, if_pos hdir, hupi, hempty j hj, Nat.add_zero]
        simp only [hnamed_i, hdir, and_true, true_and, eq_comm]
      · rw [namesIn, if_neg hdir, if_neg fun hc => hdir hc.1]
    · unfold namesIn
      rw [he.type d hdi]
      by_cases hd : (t d).type = .dir
      · simp only [if_pos hd, he.up d hdi, he.held d j hdi hj, hnamed hd]
        omega
      · rw [if_neg hd, if_neg hd, if_neg]
        rintro ⟨rfl, -⟩
        exact hd hdp
  refine ⟨⟨by rw [he.type _ (hne h.root.1)]; exact h.root.1,
    by rw [he.up _ (hne h.root.1), h.root.2]⟩, fun j hj => ?_, fun j hj => ?_, fun j hj => ?_,
    fun d j => ?_, fun d hd hn => ?_⟩
  · by_cases hji : j = i
    · subst hji
      exact ⟨Nat.pos_of_ne_zero hi, hN⟩
    · exact h.range j (by rw [← he.type j hji]; exact hj)
  · have hji : j ≠ i := by
      rintro rfl
      exact he.new hj
    rw [he.type j hji] at hj
    have hjdp : j ≠ dp := by
      rintro rfl
      rw [hdp] at hj
      cases hj
    rw [he.nlink j hji, if_neg fun hc => hjdp hc.2, add_zero]
    exact h.free j hj
  · have hle := h.names j hj
    rw [hnames j hj]
    by_cases hji : j = i
    · subst hji
      rw [he.link, if_pos rfl, if_neg fun hc => hne hdp hc.2.symm]
      split
      next hfree =>
        rw [h.free j hfree] at hle
        omega
      next => omega
    · rw [if_neg hji, he.nlink j hji]
      split_ifs <;> omega
  · refine he.once (hne h.root.1).symm (fun d hdi hd => he.type d hdi ▸ hd) (fun _ => id) ?_ h.once
    intro hfree d hd
    by_contra hpos
    exact h.entry hd hi (Nat.pos_of_ne_zero hpos) hfree
  · have hdi : d ≠ i := by
      rintro rfl
      exact hn hnamed_i
    rw [he.type d hdi] at hd
    rw [hnamed hd] at hn
    obtain ⟨h1, h2⟩ := h.parent d hd hn
    rw [he.up d hdi, he.type _ (hne h1), hnamed h1]
    exact ⟨h1, h2⟩

/-- A name is taken out of a directory; that of a directory only where no `..` is for it, from a
directory that has a name. -/
theorem take (he : Taken t t' dp i) (hok : (t i).type = .dir →
    t.Named N dp ∧ ∀ d, d < N → (t d).type = .dir → t.up d ≠ i) : EntriesInv N t' := by
  have ⟨hdp, hi, hpos, hempty, htype, hnlink, hup, hheld⟩ := he
  have hexists := h.entry hdp hi hpos
  have hgone : (t i).type = .dir → ¬t'.Named N i := by
    rintro hidir (hc | ⟨d, -, hd, hheld'⟩)
    · exact (h.once dp i hdp hi hpos hidir).1 hc
    obtain ⟨-, hupi, hone⟩ := h.once dp i hdp hi hpos hidir
    rw [htype] at hd
    have hold := hheld d i hd hi
    have hddp : dp = d := hupi.symm.trans (h.once d i hd hi (by omega) hidir).2.1
    rw [if_pos ⟨hddp.symm, rfl⟩, ← hddp, hone] at hold
    rw [← hddp] at hheld'
    omega
  have hnamed : ∀ {d}, d ≠ i → d ≠ 0 → (t'.Named N d ↔ t.Named N d) := by
    intro d hdi h0
    refine or_congr_right (exists_congr fun d' => and_congr_right fun _ => ?_)
    rw [htype]
    exact and_congr_right fun hd' => by rw [he.held_of_ne hd' h0 hdi]
  have hnames : ∀ j, j ≠ 0 → t'.names N j +
      ((if j = i then 1 else 0) + if (t i).type = .dir ∧ j = dp then 1 else 0) = t.names N j := by
    intro j hj
    refine he.sum_sub (h.range i hexists).2 (h.lt hdp) ?_ fun d hdi => ?_
    · by_cases hidir : (t i).type = .dir
      · have hni : t.Named N i := .inr ⟨dp, h.lt hdp, hdp, hpos⟩
        have hzero := hheld i j hidir hj
        rw [hempty hidir j hj, Nat.add_eq_zero_iff] at hzero
        rw [namesIn, htype, if_pos hidir, if_neg fun hc => hgone hidir hc.2, hzero.1, namesIn,
          if_pos hidir, (h.once dp i hdp hi hpos hidir).2.1, hempty hidir j hj]
        simp only [hni, hidir, and_true, true_and, eq_comm, add_zero, zero_add]
      · rw [namesIn, namesIn, htype, if_neg hidir, if_neg hidir, if_neg fun hc => hidir hc.1]
    · unfold namesIn
      rw [htype]
      by_cases hd : (t d).type = .dir
      · simp only [if_pos hd, hup d hd, ← hheld d j hd hj, hnamed hdi (h.ne_zero hd)]
        omega
      · rw [if_neg hd, if_neg hd, if_neg]
        rintro ⟨rfl, -⟩
        exact hd hdp
  refine ⟨⟨by rw [htype]; exact h.root.1, by rw [hup _ h.root.1, h.root.2]⟩,
    fun j hj => h.range j (by rw [← htype]; exact hj), fun j hj => ?_, fun j hj => ?_,
    fun d j hd hj hpos hjdir => ?_, fun d hd hnd => ?_⟩
  · rw [htype] at hj
    have hji : j ≠ i := by
      rintro rfl
      exact hexists hj
    have hjdp : j ≠ dp := by
      rintro rfl
      rw [hdp] at hj
      cases hj
    rw [hnlink, if_neg hji, if_neg fun hc => hjdp hc.2, add_zero, sub_zero]
    exact h.free j hj
  · have hle := h.names j hj
    have := hnames j hj
    rw [hnlink]
    split_ifs at this ⊢ <;> omega
  · rw [htype] at hd hjdir
    have hold := hheld d j hd hj
    obtain ⟨h1, h2, h3⟩ := h.once d j hd hj (by omega) hjdir
    rw [hup j hjdir]
    exact ⟨h1, h2, by omega⟩
  · rw [htype] at hd
    rw [hup d hd, htype]
    by_cases hdi : d = i
    · subst hdi
      rw [(h.once dp d hdp hi hpos hd).2.1]
      exact ⟨hdp, (hnamed he.ne (h.ne_zero hdp)).mpr (hok hd).1⟩
    · rw [hnamed hdi (h.ne_zero hd)] at hnd
      obtain ⟨h1, h2⟩ := h.parent d hd hnd
      have hupi : t.up d ≠ i := fun hc => (hok (hc ▸ h1)).2 d (h.lt hd) hd hc
      exact ⟨h1, (hnamed hupi (h.ne_zero h1)).mpr h2⟩

/-- A named directory that holds an empty one has two links at least. -/
theorem two_le_nlink (hdp : (t dp).type = .dir) (hn : t.Named N dp)
    (hi : i ≠ 0) (hpos : 0 < t.held dp i) (hidir : (t i).type = .dir)
    (hempty : ∀ j, j ≠ 0 → t.held i j = 0) : 2 ≤ (t dp).nlink := by
  obtain ⟨hroot, hupi, -⟩ := h.once dp i hdp hi hpos hidir
  have hone : 0 < t.namesIn N i dp := by
    rw [namesIn, if_pos hidir, if_pos ⟨hupi, .inr ⟨dp, h.lt hdp, hdp, hpos⟩⟩]
    omega
  have hother : ∃ b, b ≠ i ∧ b < N ∧ 0 < t.namesIn N b dp := by
    obtain rfl | ⟨d, hlt, hd, hheld⟩ := hn
    · refine ⟨rootino, hroot.symm, h.lt hdp, ?_⟩
      rw [namesIn, if_pos hdp, if_pos ⟨h.root.2, .inl rfl⟩]
      omega
    refine ⟨d, ?_, hlt, ?_⟩
    · rintro rfl
      rw [hempty dp (h.ne_zero hdp)] at hheld
      exact absurd hheld (by decide)
    · rw [namesIn, if_pos hd]
      omega
  obtain ⟨b, hbi, hbN, hb⟩ := hother
  have hle : t.namesIn N b dp + t.namesIn N i dp ≤ t.names N dp :=
    add_le_sum_range (fun d => t.namesIn N d dp) hbi hbN (h.lt hidir)
  have := h.names dp (h.ne_zero hdp)
  omega

end

end EntriesInv

/-! ### Runs -/

theorem boot_entries {names : List Name} (hlen : names.length + 2 ≤ 200) :
    EntriesInv 200 (mkfsInode names) := by
  have htree := boot_tree hlen
  have hroot : Linked (mkfsInode names) rootino := htree.root.1
  have hnames : ∀ i, Inodes.names (mkfsInode names) 200 i =
    Inodes.links (mkfsInode names) 200 i := by
    intro i
    refine Finset.sum_congr rfl fun d _ => ?_
    unfold namesIn linksIn
    by_cases hd : (mkfsInode names d).type = .dir
    · obtain rfl := boot_dir hd
      have hn : Inodes.Named (mkfsInode names) 200 rootino := .inl rfl
      simp only [if_pos hd, if_pos hroot, hn, and_true]
    · rw [if_neg hd, if_neg fun hl => hd hl.1]
  have hlinked : ∀ {d}, (mkfsInode names d).type = .dir → Linked (mkfsInode names) d := by
    intro d hd
    obtain rfl := boot_dir hd
    exact hroot
  refine ⟨⟨hroot.1, htree.root.2⟩, htree.range, fun i hi => ?_, fun i hi => ?_,
    fun d i hd => htree.once d i (hlinked hd), fun d hd hn => ?_⟩
  · unfold mkfsInode at hi ⊢
    split
    next hc =>
      rw [if_pos hc] at hi
      cases hi
    next hc =>
      rw [if_neg hc] at hi
      split
      next hc' =>
        rw [if_pos hc'] at hi
        cases hi
      next => rfl
  · rw [hnames]
    by_cases hfree : (mkfsInode names i).type = .free
    · rw [htree.links_eq_zero hi (.inr hfree)]
      unfold mkfsInode
      split_ifs <;> simp
    · rw [htree.links i hfree]
  · exact absurd (.inl (boot_dir hd)) hn

/-- The invariant. -/
structure EntriesState (s : Fs n) : Prop where
  held : Held 0 none s
  shape : Shape s.inode
  entries : EntriesInv s.ninodes s.inode

/-- A directory may be removed from one that has a name, where no `..` is for it. -/
def Removable (s : Fs n) (d i : Nat) : Prop :=
  Named s.inode s.ninodes d ∧ ∀ d', d' < s.ninodes → (s.inode d').type = .dir → up s.inode d' ≠ i

instance (s : Fs n) (d i : Nat) : Decidable (Removable s d i) := inferInstanceAs (Decidable (_ ∧ _))

variable {s s' : Fs n} {call : FsCall n}

theorem EntriesState.ready (h : EntriesState s) : Ready s := by
  refine ⟨h.held, h.shape, h.entries.range, fun i hi => ?_⟩
  have h0 := (h.entries.range i hi).1
  have := h.entries.names i (by omega)
  omega

theorem fsStep_entries (h : EntriesState s)
    (hok : ∀ d i, call.removes s = some (d, i) → Removable s d i) (hs : fsStep s call = some s') :
    EntriesState s' := by
  have hlast : ∀ d i, call.removes s = some (d, i) → (s.inode d).nlink ≠ 1 := by
    intro d i hrem
    have hn := (hok d i hrem).1
    unfold FsCall.removes at hrem
    split at hrem
    · obtain ⟨hdir, h0, hin, hidir, hempty⟩ := emptyDirIn_spec h.shape hrem
      have := h.entries.two_le_nlink hdir hn h0 hin hidir hempty
      omega
    · cases hrem
  obtain ⟨t, hedit, hret⟩ := fsStep_returned h.ready hlast hs
  have hentries : EntriesInv s.ninodes t := by
    cases hedit with
    | keep heq =>
      rw [heq]
      exact h.entries
    | make _ hmade =>
      cases hmade with
      | name he => exact h.entries.enter he.entered
      | dir he => exact h.entries.enter he.entered
    | removeName he => exact h.entries.take he.taken fun hc => absurd hc he.old
    | removeDir hrem he => exact h.entries.take he.taken fun _ => hok _ _ hrem
  rw [← hret.ninodes] at hentries
  obtain heq | ⟨i, hfreed⟩ := hret.inode
  · exact ⟨hret.held, by rw [heq]; exact hret.shape, by rw [heq]; exact hentries⟩
  · exact ⟨hret.held, hret.shape.freed hfreed, hentries.freed hfreed⟩

/-! ### What entries name exists -/

/-- Every entry in use names an inode that is not free. -/
def Inodes.Intact (t : Inodes) : Prop :=
  ∀ d, (t d).type = .dir → ∀ e ∈ (t d).slots, e.inum ≠ 0 → (t e.inum).type ≠ .free

theorem EntriesState.intact (h : EntriesState s) : Intact s.inode := by
  intro d hd e he h0
  obtain ⟨p, rest, hslots, -, -, -⟩ := h.shape.dirShape hd
  rw [hslots] at he
  rcases List.mem_cons.mp he with rfl | he
  · rw [hd]
    exact nofun
  rcases List.mem_cons.mp he with rfl | he
  · have hup : up s.inode d = p := by rw [up, hslots]; rfl
    have := h.entries.up_dir hd
    rw [hup] at this
    rw [this]
    exact nofun
  · refine h.entries.entry hd h0 ?_
    rw [Inodes.held, hslots]
    exact List.countP_pos_iff.mpr ⟨e, he, by simp⟩

theorem Inodes.Intact.lookup {t : Inodes} (h : t.Intact) {d i : Nat} {name : Name}
    (hd : (t d).type = .dir) (hl : t.lookup d name = some i) : (t i).type ≠ .free := by
  obtain ⟨off, hslot, rfl⟩ := map_eq_some_iff.mp hl
  obtain ⟨hlt, hin, -⟩ := List.findIdx?_eq_some_iff_getElem.mp hslot
  simp only [decide_eq_true_eq] at hin
  rw [List.getD, List.getElem?_eq_getElem hlt]
  exact h d hd _ (List.getElem_mem hlt) hin.1

theorem Inodes.Intact.walk {t : Inodes} (h : t.Intact) {parent : Bool} {path : List Name}
    {i d : Nat} {name : Name} (hi : (t i).type ≠ .free)
    (hw : t.walk parent path i = some (d, name)) : (t d).type ≠ .free := by
  induction path generalizing i with
  | nil =>
    rw [Inodes.walk] at hw
    split at hw
    · cases hw
    · obtain ⟨rfl, -⟩ := Prod.mk.inj (some.inj hw)
      exact hi
  | cons first rest ih =>
    rw [Inodes.walk] at hw
    split at hw
    · cases hw
    next hdir =>
      split at hw
      · obtain ⟨rfl, -⟩ := Prod.mk.inj (some.inj hw)
        exact hi
      cases hj : t.lookup i first with
      | none =>
        rw [hj] at hw
        cases hw
      | some j =>
        rw [hj] at hw
        exact ih (h.lookup (not_not.mp hdir) hj) hw

/-! ### Where paths stop -/

/-- The panic of `ilock` on a free inode. -/
def noType : Stop := .panic "ilock: no type"

/-- The panic of `iget` without a free entry. -/
def noInodes : Stop := .panic "iget: no inodes"

section Errors

variable {ip dp : InodePtr} {own : Own} {e : Stop} {name : Name}

theorem iget_error {dev : Word} {i : Nat} (h : iget dev i s = .error e) :
    e = noInodes ∧ ∀ f, (s.icache f).ref ≠ 0 := by
  rw [iget, get_bind_error] at h
  cases hfor : entryFor s dev i with
  | some f =>
    rw [hfor, bind_pure_error] at h
    exact absurd h set_error
  | none =>
    rw [hfor] at h
    cases hempty : emptyEntry s with
    | some f =>
      rw [hempty, bind_pure_error] at h
      exact absurd h set_error
    | none =>
      rw [hempty] at h
      exact ⟨(throw_error.mp h).symm, by simpa [emptyEntry] using hempty⟩

theorem acquiresleep_error (h : acquiresleep ip s = .error e) :
    e = .wait ∧ (s.icache ip).locked = true := by
  obtain ⟨hl, h⟩ | ⟨-, h⟩ := ite_error.mp h
  · exact ⟨(throw_error.mp h).symm, hl⟩
  · exact absurd h set_error

theorem iunlock_error (h : iunlock ip s = .error e) :
    (s.icache ip).locked = false ∨ (s.icache ip).ref < 1 := by
  obtain ⟨hl, -⟩ | ⟨-, h⟩ := ite_error.mp h
  · exact hl
  · cases h

theorem iput_error (h : iput ip s = .error e) : e = .wait ∧ (s.icache ip).locked = true := by
  obtain h | ⟨u, s1, -, h⟩ := bind_error.mp h
  · exact acquiresleep_error h
  · cases h

theorem iunlockput_error (h : iunlockput ip s = .error e) :
    (s.icache ip).locked = false ∨ (s.icache ip).ref < 1 := by
  obtain h | ⟨u, s1, hunlock, h⟩ := bind_error.mp h
  · exact iunlock_error h
  · obtain ⟨-, rfl⟩ := iunlock_ok hunlock
    have hl := (iput_error h).2
    rw [Fs.setLocked, setEntry_self] at hl
    cases hl

theorem dirlookup_error (hdir : (s.inodeOf dp).type = .dir) (h : dirlookup dp name s = .error e) :
    e = noInodes ∧ ∀ f, (s.icache f).ref ≠ 0 := by
  obtain ⟨hc, -⟩ | ⟨-, h⟩ := ite_error.mp h
  · exact absurd hdir hc
  cases hslot : slotOf (s.inodeOf dp).slots name with
  | none =>
    rw [hslot] at h
    exact absurd h pure_error
  | some off =>
    rw [hslot] at h
    exact iget_error (bind_pure_error.mp h)

theorem ilock_error (hlive : 0 < (s.icache ip).ref) (hfree : (s.inodeOf ip).type ≠ .free)
    (h : ilock ip s = .error e) : e = .wait ∧ (s.icache ip).locked = true := by
  obtain ⟨hc, -⟩ | ⟨-, h⟩ := ite_error.mp h
  · omega
  obtain h | ⟨u, s3, hacq, h⟩ := bind_error.mp h
  · exact acquiresleep_error h
  obtain ⟨-, rfl⟩ := acquiresleep_ok hacq
  obtain ⟨-, h⟩ | ⟨-, h⟩ := ite_error.mp h
  · exact absurd h pure_error
  obtain ⟨hc, -⟩ | ⟨-, h⟩ := ite_error.mp h
  · refine absurd ?_ hfree
    rw [← hc, Fs.inodeOf, Fs.inodeOf, Fs.setLocked, setEntry_self]
    rfl
  · exact absurd h set_error

theorem locks_eq {a : Account} (h : s'.account = s.account + a) (f : InodePtr) :
    s'.locks f = s.locks f + a.2.1 f :=
  congrFun (congrArg (·.2.1) h) f

theorem locks_nonneg (s : Fs n) (f : InodePtr) : 0 ≤ s.locks f := by
  unfold Fs.locks
  split <;> decide

theorem locked_iff {f : InodePtr} : (s.icache f).locked = true ↔ 0 < s.locks f := by
  unfold Fs.locks
  split <;> simp_all

theorem locks_aRef (ip f : InodePtr) : (aRef ip).2.1 f = 0 := by
  simp [aRef, anEntry]

theorem locks_found {γ : Type} (r : Option (InodePtr × γ)) (f : InodePtr) :
    (found r).2.1 f = 0 := by
  match r with
  | none => rfl
  | some (ip, _) => exact locks_aRef ip f

/-- Cache entries run out, one of them held by the path, or somebody has a lock. -/
inductive PathStops (own : Own) (s : Fs n) : Stop → Prop
  | full (f : InodePtr) (h : ∀ g, g ≠ f → 0 < s.pointers g + own g) : PathStops own s noInodes
  | locked (f : InodePtr) (h : (s.icache f).locked = true) : PathStops own s .wait

theorem PathStops.back (h : PathStops own s' e) (hp : ∀ g, s'.pointers g = s.pointers g)
    (hl : ∀ f, s'.locks f = s.locks f) : PathStops own s e := by
  cases h with
  | full f h => exact .full f fun g hg => by rw [← hp]; exact h g hg
  | locked f h => exact .locked f (locked_iff.mpr (by rw [← hl]; exact locked_iff.mp h))

theorem PathStops.ne_noType (h : PathStops own s e) : e ≠ noType := by
  cases h <;> decide

theorem namexLoop_error {parent : Bool} {path : List Name} (hint : Intact s.inode)
    (h : Held (own + one ip) none s) (hfree : (s.inodeOf ip).type ≠ .free)
    (hl : namexLoop parent path ip s = .error e) : PathStops own s e := by
  induction path generalizing ip s with
  | nil =>
    obtain ⟨-, hl⟩ | ⟨-, hl⟩ := ite_error.mp hl
    · obtain ⟨rfl, hlocked⟩ := iput_error (bind_pure_error.mp hl)
      exact .locked ip hlocked
    · exact absurd hl pure_error
  | cons name rest ih =>
    obtain hl | ⟨u, s1, hlock, hl⟩ := bind_error.mp hl
    · obtain ⟨rfl, hlocked⟩ := ilock_error (h.live ip (by simp)) hfree hl
      exact .locked ip hlocked
    obtain ⟨h1, hsame1, -⟩ := ilock_held h hlock
    have hlocks1 := locks_eq (costs_ilock ip s u s1 hlock).1
    -- until it is unlocked, the inode can be
    have hnot : ∀ s2 : Fs n, 0 < (s2.icache ip).ref → s2.locks ip = s1.locks ip →
        ¬ ((s2.icache ip).locked = false ∨ (s2.icache ip).ref < 1) := by
      intro s2 hlive2 hlocks
      rw [hlocks1, show (aLock ip).2.1 ip = 1 from Pi.single_eq_same ..] at hlocks
      have hnonneg := locks_nonneg s ip
      have hlocked : (s2.icache ip).locked = true := locked_iff.mpr (by omega)
      simp only [hlocked, Bool.true_eq_false, false_or]
      omega
    obtain ⟨-, hl⟩ | ⟨hdir, hl⟩ := ite_error.mp hl
    · exact absurd (iunlockput_error (bind_pure_error.mp hl)) (hnot s1 (h1.live ip (by simp)) rfl)
    obtain ⟨-, hl⟩ | ⟨-, hl⟩ := ite_error.mp hl
    · exact absurd (iunlock_error (bind_pure_error.mp hl)) (hnot s1 (h1.live ip (by simp)) rfl)
    obtain hl | ⟨r1, s2, hlookup, hl⟩ := bind_error.mp hl
    · obtain ⟨rfl, hused⟩ := dirlookup_error (not_not.mp hdir) hl
      refine .full ip fun g hg => ?_
      have hrefs := h1.refs g
      have := hused g
      have := pointers_nonneg s g
      rw [hsame1.pointers, Pi.add_apply, one_of_ne hg] at hrefs
      omega
    obtain ⟨h2, hsame2, -, -, hfound⟩ := dirlookup_held h1 (by simp) hlookup
    have hlocks2 := locks_eq (costs_dirlookup ip name s1 r1 s2 hlookup).1
    simp only [locks_found, add_zero] at hlocks2
    have hnot2 := hnot s2 (h2.live ip (by simp)) (hlocks2 ip)
    match r1 with
    | none => exact absurd (iunlockput_error (bind_pure_error.mp hl)) hnot2
    | some (next, off) =>
      obtain hl | ⟨u, s4, hput, hl⟩ := bind_error.mp hl
      · exact absurd (iunlockput_error hl) hnot2
      obtain ⟨hslot, hnext⟩ := hfound next off rfl
      rw [given, add_right_comm] at h2
      obtain ⟨h4, hsame4⟩ := iunlockput_held h2 hput
      have hin := hsame4.inode.trans (hsame2.inode.trans hsame1.inode)
      have hstops : PathStops own s4 e := by
        refine ih (by rw [hin]; exact hint) h4 ?_ hl
        rw [Fs.inodeOf, hin, hsame4.inum (by simp), hnext]
        rw [← hsame1.inode] at hint ⊢
        exact hint.lookup (not_not.mp hdir) (lookup_of_slot hslot)
      refine hstops.back (fun g => ?_) fun f => ?_
      · rw [hsame4.pointers, hsame2.pointers, hsame1.pointers]
      · have hlocks4 := locks_eq (costs_iunlockput ip s2 _ s4 hput).1 f
        have hsplit : (-aLock ip - aRef ip).2.1 f = -(aLock ip).2.1 f - (aRef ip).2.1 f := rfl
        simp only [hsplit, hlocks2, hlocks1, locks_aRef] at hlocks4
        omega

theorem EntriesState.start_alloc (h : EntriesState s) {p : Fin n} {path : Path} {i : Nat}
    (hi : s.startOf p path = some i) : (s.inode i).type ≠ .free := by
  unfold Fs.startOf at hi
  split at hi
  · cases hi
    rw [h.entries.root.1]
    exact nofun
  · obtain ⟨e, hp, rfl⟩ := map_eq_some_iff.mp hi
    exact h.held.pointed e (pointers_of_cwd hp)

theorem namex_error {p : Fin n} {path : Path} {parent : Bool} (hint : Intact s.inode)
    (h : Held own none s) (hfree : ∀ i, s.startOf p path = some i → (s.inode i).type ≠ .free)
    (hl : namex p path parent s = .error e) :
    e = .unused ∧ s.cwd p = none ∨ PathStops own s e := by
  obtain hl | ⟨ip, s1, hstart, hl⟩ := bind_error.mp hl
  · unfold namexStart at hl
    obtain ⟨-, hl⟩ | ⟨-, hl⟩ := ite_error.mp hl
    · obtain ⟨rfl, hused⟩ := iget_error hl
      refine .inr (.full ⟨0, by decide⟩ fun g _ => ?_)
      have := h.refs g
      have := hused g
      have := pointers_nonneg s g
      omega
    obtain hl | ⟨e, s2, -, hl⟩ := bind_error.mp hl
    · rw [cwdOf, get_bind_error] at hl
      cases hf : s.cwd p with
      | none =>
        rw [hf] at hl
        exact .inl ⟨(throw_error.mp hl).symm, rfl⟩
      | some f =>
        rw [hf] at hl
        exact absurd hl pure_error
    · cases hl
  · obtain ⟨h1, hsame1, hof⟩ := namexStart_held h hstart
    have hlocks := locks_eq (costs_namexStart p path s ip s1 hstart).1
    simp only [locks_aRef, add_zero] at hlocks
    refine .inr ((namexLoop_error (by rw [hsame1.inode]; exact hint) h1 ?_ hl).back hsame1.pointers
      hlocks)
    rw [Fs.inodeOf, hsame1.inode]
    exact hfree _ hof

theorem EntriesState.namex_noType (h : EntriesState s) (p : Fin n) (path : Path) (parent : Bool) :
    namex p path parent s ≠ .error noType ∧
    ∀ ip name s', namex p path parent s = .ok (some (ip, name), s') →
      ilock ip s' ≠ .error noType := by
  constructor
  · intro hl
    obtain ⟨hc, -⟩ | hstops := namex_error h.intact h.held (fun _ => h.start_alloc) hl
    · cases hc
    · exact hstops.ne_noType rfl
  · intro ip name s' hl hlock
    obtain ⟨hheld, hsame, hwalk⟩ := namex_held h.held hl
    obtain ⟨i, hi, hw⟩ := bind_eq_some_iff.mp hwalk
    obtain ⟨hc, -⟩ := ilock_error (hheld.live ip (by simp [given])) (by
      rw [Fs.inodeOf, hsame.inode]
      exact h.intact.walk (h.start_alloc hi) hw) hlock
    cases hc

end Errors

/-- **Entries of directories**: in every run from an image of `mkfs` in which a directory is only
removed from one that has a name, and while no `..` is for it, every entry in use of every
directory names an inode that is not free, and no `ilock` through a path panics for one that is. -/
theorem directory_entries (n : Nat) (names : List Name) (hlen : names.length + 2 ≤ 200)
    (hdots : ∀ name ∈ names, name ≠ dot ∧ name ≠ dotdot) (s : Fs (n + 1))
    (hrun : Run fsStep (fun s call => ∀ r, call.removes s = some r → Removable s r.1 r.2)
      (fsBoot (n + 1) names) s) :
    (∀ d, (s.inode d).type = .dir → ∀ e ∈ (s.inode d).slots, e.inum ≠ 0 →
      (s.inode e.inum).type ≠ .free) ∧
    ∀ p path parent, namex p path parent s ≠ .error (.panic "ilock: no type") ∧
      ∀ ip name s', namex p path parent s = .ok (some (ip, name), s') →
        ilock ip s' ≠ .error (.panic "ilock: no type") := by
  have hinv : EntriesState s :=
    hrun.inv (I := EntriesState) ⟨boot_isHeld, boot_shape hdots, boot_entries hlen⟩
      fun _ _ _ hi hok hs => fsStep_entries hi (fun d i => hok (d, i)) hs
  exact ⟨hinv.intact, hinv.namex_noType⟩

/-- `mkdir("/a")`, `mkdir("/a/b")`, `unlink("/a/b")` and `unlink("/a")`. -/
theorem directory_entries_removed :
    (([.mkdir 0 (some [47, 97]), .mkdir 0 (some [47, 97, 47, 98]),
      .unlink 0 (some [47, 97, 47, 98]),
        .unlink 0 (some [47, 97])] : List (FsCall 1)).foldlM
      (fun s call => if ∀ r, call.removes s = some r → Removable s r.1 r.2 then fsStep s call
        else none) (fsBoot 1 [])).map (fun s => ((s.inode 2).type, (s.inode 3).type)) =
      some (.free, .free) ∧
    ∀ s, ([.mkdir 0 (some [47, 97]), .mkdir 0 (some [47, 97, 47, 98]),
        .unlink 0 (some [47, 97, 47, 98]), .unlink 0 (some [47, 97])] : List (FsCall 1)).foldlM
      (fun s call => if ∀ r, call.removes s = some r → Removable s r.1 r.2 then fsStep s call
        else none) (fsBoot 1 []) = some s →
      (∀ d, (s.inode d).type = .dir → ∀ e ∈ (s.inode d).slots, e.inum ≠ 0 →
        (s.inode e.inum).type ≠ .free) ∧
      ∀ p path parent, namex p path parent s ≠ .error (.panic "ilock: no type") ∧
        ∀ ip name s', namex p path parent s = .ok (some (ip, name), s') →
          ilock ip s' ≠ .error (.panic "ilock: no type") :=
  ⟨by decide +kernel, fun _ h =>
    directory_entries 0 [] (by decide) (by decide) _ (.of_guarded h)⟩

/-- `mkdir("/a")`, `mkdir("/a/b")`, `chdir("/a/b")`, `unlink("/a/b")` and `unlink("/a")`: the `..`
of the current directory is for a free inode, and a path through it panics. -/
theorem directory_entries_fails :
    (([.mkdir 0 (some [47, 97]), .mkdir 0 (some [47, 97, 47, 98]), .chdir 0 (some [47, 97, 47, 98]),
        .unlink 0 (some [47, 97, 47, 98]), .unlink 0 (some [47, 97])] :
      List (FsCall 1)).foldlM fsStep (fsBoot 1 [])).map
        (fun s => ((s.inode 3).type, (s.inode 3).slots.getD 1 ⟨0, []⟩, (s.inode 2).type,
          match namex 0 [46, 46, 47, 120] false s with
          | .ok _ => none
          | .error e => some e)) =
      some (.dir, ⟨2, dotdot⟩, .free, some (.panic "ilock: no type")) := by
  decide +kernel

end Xv6
