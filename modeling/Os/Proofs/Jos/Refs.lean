/-
What the page tables refer to.

The kernel keeps one reference count per page and three kinds of things that count:
an environment's directory, a page table in the user half of a directory, and a page
mapped by such a table.  `refs` reads all of them off physical memory as one map from
slots to pages.  Seen through it, every operation of `kern/pmap.c` writes one slot.

That is only so while tables are not shared.  If a page were a page table twice, or a
page table and a mapped page at once, one store would change two slots.  `Excl` rules
it out, and the lemmas here say that under `Excl` a store to a table or a directory
is the write of a single slot.
-/
import Os.Lib.RefMap
import Os.Proofs.Jos.Word
import Mathlib.Tactic.DeriveFintype
import Mathlib.Data.Fintype.Sigma

namespace Jos

open Option Function

variable {M : Machine}
variable {α : Type} {R : Ref → Option α}

/-- A place that can refer to a page. -/
inductive Ref
  /-- `env_pgdir` of a slot of `envs[]`. -/
  | dir (e : EnvIdx)
  /-- A directory entry of the user half. -/
  | table (e : EnvIdx) (i : Upde)
  /-- An entry of a page table of the user half. -/
  | leaf (e : EnvIdx) (i : Upde) (j : Fin nptentries)
  /-- The reference `page_insert` has counted and not yet written. -/
  | inFlight
  deriving DecidableEq, Fintype

/-- Directories and page tables, as opposed to what they map. -/
def Ref.isNode : Ref → Prop
  | .dir _ => True
  | .table _ _ => True
  | _ => False

/-- The page an entry refers to. -/
def entryOf (M : Machine) (w : Word) : Option (Ppn M) :=
  if present w then frame M (pteAddr w) else none

abbrev entry (pm : Pmap M) (p : Ppn M) (i : Fin nptentries) : Option (Ppn M) :=
  entryOf M (pm.load (p, i))

/-- The page table for index `i` in the directory `root`. -/
def tableOf (pm : Pmap M) (root : Option (Ppn M)) (i : Upde) : Option (Ppn M) :=
  root.bind fun d => entry pm d (toPde i)

/-- What each slot refers to, `root` being the `env_pgdir` fields. -/
def refs (root : EnvIdx → Option (Ppn M)) (tmp : Option (Ppn M)) (pm : Pmap M) :
    Ref → Option (Ppn M)
  | .dir e => root e
  | .table e i => tableOf pm (root e) i
  | .leaf e i j => (tableOf pm (root e) i).bind fun t => entry pm t j
  | .inFlight => tmp

/-- A directory or page table is referred to once, and by nothing of another kind. -/
def Excl {α : Type} (R : Ref → Option α) : Prop :=
  ∀ r r' p, R r = some p → R r' = some p → r.isNode → r' = r

variable {root : EnvIdx → Option (Ppn M)} {tmp : Option (Ppn M)} {pm pm' : Pmap M}
variable {e : EnvIdx} {i : Upde} {j : Fin nptentries} {d t p : Ppn M} {w : Word}

@[simp] theorem entryOf_zero : entryOf M 0 = none := by
  simp [entryOf]

theorem entryOf_eq_some : entryOf M w = some p ↔ present w ∧ frame M (pteAddr w) = some p := by
  unfold entryOf
  split <;> simp_all

theorem entryOf_of_not_present (h : ¬ present w) : entryOf M w = none := if_neg h

/-- Flags added to a present entry do not change what it refers to. -/
theorem entryOf_or_flags {f : Word} (hf : FlagsOnly f) (hw : present w) :
    entryOf M (w ||| f) = entryOf M w := by
  simp only [entryOf, if_pos hw, if_pos (present_or_left hw), frame_or_flags w hf]

/-- The entry `page_insert` writes refers to the page it inserts. -/
theorem entryOf_pte (p : Ppn M) {perm : Word} (hperm : FlagsOnly perm) :
    entryOf M (page2pa p ||| perm ||| pteP) = some p := by
  rw [entryOf, if_pos (present_or_right present_pteP), BitVec.or_assoc]
  exact frame_page2pa_or p (flagsOnly_or hperm flagsOnly_pteP)

/-- So does the entry `pgdir_walk` writes for a new page table. -/
theorem entryOf_pde (p : Ppn M) :
    entryOf M (page2pa p ||| pteP ||| pteW ||| pteU) = some p := by
  have hflags : page2pa p ||| pteP ||| pteW ||| pteU = page2pa p ||| (pteW ||| pteU) ||| pteP := by
    rw [BitVec.or_assoc, BitVec.or_assoc, BitVec.or_assoc, BitVec.or_comm pteP]
  rw [hflags]
  exact entryOf_pte p flagsOnly_regionPerm

/-! ### What a write to memory changes -/

theorem load_store_self (pm : Pmap M) (pte : PtePtr M) (w : Word) :
    (pm.store pte w).load pte = w := by
  simp [Pmap.load, Pmap.store, Pmap.fill]

theorem load_store_of_ne {pte pte' : PtePtr M} (h : pte' ≠ pte) (w : Word) :
    (pm.store pte w).load pte' = pm.load pte' := by
  obtain ⟨p, i⟩ := pte
  obtain ⟨p', i'⟩ := pte'
  simp only [Pmap.load, Pmap.store, Pmap.fill]
  by_cases hp : p' = p
  · subst hp
    have hi : i' ≠ i := fun hc => h (by rw [hc])
    simp [update_of_ne hi]
  · rw [update_of_ne hp]

theorem refs_congr_mem (h : pm'.mem = pm.mem) : refs root tmp pm' = refs root tmp pm := by
  have hload : ∀ pte, pm'.load pte = pm.load pte := fun pte => by simp [Pmap.load, h]
  funext r
  cases r <;> simp [refs, tableOf, entry, hload]

@[simp] theorem refs_incRef (p : Ppn M) :
    refs root tmp (pm.incRef p) = refs root tmp pm := refs_congr_mem rfl

theorem refs_leaf_eq_some :
    refs root tmp pm (.leaf e i j) = some p ↔
      ∃ t, refs root tmp pm (.table e i) = some t ∧ entry pm t j = some p := by
  simp [refs, bind_eq_some_iff]

/-- The view is made of the directories and the page tables, and of no other page. -/
theorem refs_congr_nodes
    (h : ∀ r q, r.isNode → refs root tmp pm r = some q → pm'.mem q = pm.mem q) :
    refs root tmp pm' = refs root tmp pm := by
  have htab : ∀ e i, tableOf pm' (root e) i = tableOf pm (root e) i := by
    intro e i
    cases hroot : root e with
    | none => rfl
    | some d => simp [tableOf, entry, Pmap.load, h (.dir e) d trivial hroot]
  funext r
  cases r with
  | dir e => rfl
  | table e i => exact htab e i
  | leaf e i j =>
    simp only [refs, htab]
    cases ht : tableOf pm (root e) i with
    | none => rfl
    | some t => simp [entry, Pmap.load, h (.table e i) t trivial ht]
  | inFlight => rfl

/-- Filling a page that is neither a directory nor a page table changes nothing. -/
theorem refs_fill (hp : ∀ r, r.isNode → refs root tmp pm r ≠ some p)
    (f : Fin nptentries → Word) : refs root tmp (pm.fill p f) = refs root tmp pm := by
  refine refs_congr_nodes fun r q hr hq => ?_
  have hne : q ≠ p := fun hc => hp r hr (hc ▸ hq)
  simp [Pmap.fill, update_of_ne hne]

/-- **A store to a page table writes one leaf.** -/
theorem refs_store_leaf (hx : Excl (refs root tmp pm))
    (ht : refs root tmp pm (.table e i) = some t) (j : Fin nptentries) (w : Word) :
    refs root tmp (pm.store (t, j) w) = update (refs root tmp pm) (.leaf e i j) (entryOf M w) := by
  have hdir : ∀ e' i', tableOf (pm.store (t, j) w) (root e') i' = tableOf pm (root e') i' := by
    intro e' i'
    cases hroot : root e' with
    | none => rfl
    | some d =>
      have hne : ((d, toPde i') : PtePtr M) ≠ (t, j) := by
        intro hc
        have hd : refs root tmp pm (.dir e') = some t := by
          simp [refs, hroot, (Prod.mk.inj hc).1]
        exact absurd (hx _ _ _ hd ht trivial) (by simp)
      simp only [tableOf, bind_some, entry]
      rw [load_store_of_ne hne]
  funext r
  cases r with
  | dir e' => simp [refs]
  | table e' i' => simpa [refs] using hdir e' i'
  | inFlight => simp [refs]
  | leaf e' i' j' =>
    by_cases hr : Ref.leaf e' i' j' = .leaf e i j
    · cases hr
      simp only [refs, hdir]
      rw [show tableOf pm (root e) i = some t from ht]
      simp [entry, load_store_self]
    · rw [update_of_ne hr]
      simp only [refs, hdir]
      cases ht' : tableOf pm (root e') i' with
      | none => rfl
      | some t' =>
        have hne : ((t', j') : PtePtr M) ≠ (t, j) := by
          intro hc
          cases hc
          cases hx _ (.table e' i') _ ht ht' trivial
          exact hr rfl
        simp only [bind_some, entry]
        rw [load_store_of_ne hne]

/--
**A store to a directory writes one table**, provided the entry it writes leads to
the leaves that were there: the same table again, a new table of zeros where there
was none, or no table where every leaf was clear.
-/
theorem refs_store_table (hx : Excl (refs root tmp pm)) (hd : root e = some d)
    (hw : ∀ j, ((entryOf M w).bind fun t => entry (pm.store (d, toPde i) w) t j)
      = refs root tmp pm (.leaf e i j)) :
    refs root tmp (pm.store (d, toPde i) w)
      = update (refs root tmp pm) (.table e i) (entryOf M w) := by
  have hdref : refs root tmp pm (.dir e) = some d := hd
  have htab : ∀ e' i', Ref.table e' i' ≠ .table e i →
      tableOf (pm.store (d, toPde i) w) (root e') i' = tableOf pm (root e') i' := by
    intro e' i' hne
    cases hroot : root e' with
    | none => rfl
    | some d' =>
      have hpte : ((d', toPde i') : PtePtr M) ≠ (d, toPde i) := by
        intro hc
        obtain ⟨hdd, hii⟩ := Prod.mk.inj hc
        have hd' : refs root tmp pm (.dir e') = some d := by simp [refs, hroot, hdd]
        cases hx _ _ _ hdref hd' trivial
        exact hne (by rw [toPde_injective hii])
      simp only [tableOf, bind_some, entry]
      rw [load_store_of_ne hpte]
  have hself : tableOf (pm.store (d, toPde i) w) (root e) i = entryOf M w := by
    simp [tableOf, hd, entry, load_store_self]
  funext r
  cases r with
  | dir e' => simp [refs]
  | inFlight => simp [refs]
  | table e' i' =>
    by_cases hr : Ref.table e' i' = .table e i
    · cases hr
      rw [update_self]
      exact hself
    · rw [update_of_ne hr]
      exact htab e' i' hr
  | leaf e' i' j' =>
    rw [update_of_ne (by simp)]
    by_cases hr : Ref.table e' i' = .table e i
    · cases hr
      rw [← hw j']
      simp only [refs, hself]
    simp only [refs, htab e' i' hr]
    cases ht' : tableOf pm (root e') i' with
    | none => rfl
    | some t' =>
      have hne : t' ≠ d := by
        intro hc
        have ht'' : refs root tmp pm (.table e' i') = some d := by simp [refs, ht', hc]
        exact absurd (hx _ _ _ hdref ht'' trivial) (by simp)
      simp only [bind_some, entry]
      rw [load_store_of_ne (fun hc => hne (Prod.mk.inj hc).1)]

/-! ### Unsharedness is kept by single writes -/

theorem Excl.mono {R' : Ref → Option α} (hx : Excl R) (hle : ∀ r p, R' r = some p → R r = some p) :
    Excl R' :=
  fun r1 r2 p h1 h2 hn => hx r1 r2 p (hle r1 p h1) (hle r2 p h2) hn

theorem Excl.update_none (hx : Excl R) (r : Ref) :
    Excl (update R r none) :=
  hx.mono fun _ _ => (RefMap.Cleared.update_none R r).of_eq_some

theorem Excl.update_fresh {p : α} (hx : Excl R) (hp : ∀ r, R r ≠ some p) (r : Ref) :
    Excl (update R r (some p)) := by
  intro r1 r2 q h1 h2 hn
  by_cases h1r : r1 = r <;> by_cases h2r : r2 = r
  · rw [h1r, h2r]
  · rw [h1r, update_self] at h1
    rw [update_of_ne h2r, ← h1] at h2
    exact absurd h2 (hp r2)
  · rw [h2r, update_self] at h2
    rw [update_of_ne h1r, ← h2] at h1
    exact absurd h1 (hp r1)
  · rw [update_of_ne h1r] at h1
    rw [update_of_ne h2r] at h2
    exact hx r1 r2 q h1 h2 hn

/-- A new mapping of a page that is not a directory or page table. -/
theorem Excl.update_leaf {p : α} (hx : Excl R) (hp : ∀ r, r.isNode → R r ≠ some p) {r : Ref}
    (hr : ¬ r.isNode) :
    Excl (update R r (some p)) := by
  intro r1 r2 q h1 h2 hn
  have h1r : r1 ≠ r := fun hc => hr (hc ▸ hn)
  rw [update_of_ne h1r] at h1
  by_cases h2r : r2 = r
  · rw [h2r, update_self] at h2
    rw [← h2] at h1
    exact absurd h1 (hp r1 hn)
  · rw [update_of_ne h2r] at h2
    exact hx r1 r2 q h1 h2 hn

end Jos
