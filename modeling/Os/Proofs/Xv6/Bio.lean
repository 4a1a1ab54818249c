/-
One copy of each block.

Before anyone has asked for it a buffer claims to hold block 0 of device 0, as all of them
do.  So it is not true that no two buffers have the same address; but of two that do, the
one further down the list has never been used (`Shadowed`), and a search from the front
never comes to it.

With that the data of a valid buffer is what was last stored for its block, unless its
holder has changed it and is still to store it, and the disk has what was last stored for
every block of which no buffer is dirty.
-/
import Os.Lib.RefMap
import Os.Xv6.Bio

namespace Xv6

open Runs RefMap Dlist List Option Function

variable {D : Type} {n : Nat} {s s' : Bcache D n} {b b' : Fin nbuf} {h : Fin n} {a : BlockAddr}
variable {l : List (Fin nbuf)}
variable {u : BufUse} {x : Buf D n}

namespace BufUse

/-- The buffer a use refers to. -/
def buf : BufUse → Option (Fin nbuf)
  | .idle => none
  | .waiting b _ | .reading b _ | .holding b _ | .writing b | .releasing b => some b

/-- The buffer whose sleep lock a use holds. -/
def locked : BufUse → Option (Fin nbuf)
  | .reading b _ | .holding b _ | .writing b => some b
  | _ => none

/-- The block that `bread` was asked for. -/
def asked : BufUse → Option (Fin nbuf × BlockAddr)
  | .waiting b a | .reading b a => some (b, a)
  | _ => none

/-- The buffer that `bread` has returned. -/
def got : BufUse → Option (Fin nbuf)
  | .holding b _ | .writing b | .releasing b => some b
  | _ => none

theorem buf_of_locked (h : u.locked = some b) : u.buf = some b := by
  cases u <;> simp_all [locked, buf]

theorem buf_of_asked (h : u.asked = some (b, a)) : u.buf = some b := by
  cases u <;> simp_all [asked, buf]

theorem buf_of_got (h : u.got = some b) : u.buf = some b := by
  cases u <;> simp_all [got, buf]

end BufUse

/-- The buffer has been asked for. -/
def Buf.used (x : Buf D n) : Prop := x.refcnt ≠ 0 ∨ x.valid = true

/-- Behind a buffer with its address a buffer is unused. -/
def Shadowed (s : Bcache D n) (b b' : Fin nbuf) : Prop :=
  (s.bufs b).addr = (s.bufs b').addr → ¬ (s.bufs b').used

structure BioInv (s : Bcache D n) (l : List (Fin nbuf)) : Prop where
  ring : Ring s.next s.prev none (l.map some)
  all : ∀ b, b ∈ l
  refs : ∀ b, (s.bufs b).refcnt = refCount (fun h => (s.uses h).buf) b
  lock : ∀ b h, (s.bufs b).lock = some h ↔ (s.uses h).locked = some b
  asked : ∀ h b a, (s.uses h).asked = some (b, a) → (s.bufs b).addr = a
  shadowed : l.Pairwise (Shadowed s)
  fresh : ∀ b, ¬ (s.bufs b).used → (s.bufs b).addr = (0, 0)
  dirty : ∀ b, (s.bufs b).dirty = true → (s.bufs b).valid = true
  reading : ∀ h b a, s.uses h = .reading b a → (s.bufs b).valid = false
  got : ∀ h b, (s.uses h).got = some b → (s.bufs b).valid = true
  writing : ∀ h b, s.uses h = .writing b → (s.bufs b).dirty = true
  data : ∀ b, (s.bufs b).valid = true →
    (s.bufs b).data = s.stored (s.bufs b).addr ∨ ∃ h, s.uses h = .holding b true
  disk : ∀ a, s.disk a = s.stored a ∨ ∃ b, (s.bufs b).addr = a ∧ (s.bufs b).dirty = true
  returns : ∀ r ∈ s.returns, r.2.1 = r.2.2

namespace BioInv

section

variable (hi : BioInv s l)
include hi

theorem refcnt_ne_zero (hb : (s.uses h).buf = some b) :
    (s.bufs b).refcnt ≠ 0 := by
  have hpos : 0 < refCount (fun h => (s.uses h).buf) b :=
    refCount_pos (R := fun h => (s.uses h).buf) hb
  rw [hi.refs b]
  omega

theorem unused_of_addr_eq (hne : b ≠ b')
    (haddr : (s.bufs b).addr = (s.bufs b').addr) :
    ¬ (s.bufs b).used ∨ ¬ (s.bufs b').used := by
  obtain ⟨l1, l2, hl⟩ := append_of_mem (hi.all b)
  have hpair := hi.shadowed
  have hmem := hi.all b'
  rw [hl] at hpair hmem
  obtain ⟨-, hcons, hcross⟩ := pairwise_append.mp hpair
  rw [mem_append, mem_cons] at hmem
  obtain hmem | rfl | hmem := hmem
  · exact .inl (hcross b' hmem b (by simp) haddr.symm)
  · exact absurd rfl hne
  · exact .inr ((pairwise_cons.mp hcons).1 b' hmem haddr)

/-- A buffer that is in use is the only one in use for its block. -/
theorem addr_ne (hne : b' ≠ b) (hb : (s.bufs b).used) (hb' : (s.bufs b').used) :
    (s.bufs b').addr ≠ (s.bufs b).addr := by
  intro he
  obtain hu | hu := hi.unused_of_addr_eq hne he
  · exact hu hb'
  · exact hu hb

theorem locked_unique {h' : Fin n} (hb : (s.uses h).locked = some b)
    (hb' : (s.uses h').locked = some b) : h = h' := by
  have hlock := (hi.lock b h).mpr hb
  rw [(hi.lock b h').mpr hb'] at hlock
  exact (some.inj hlock).symm

/-- Nobody is changing the data of a buffer whose lock is not held by a use with changes. -/
theorem data_of_locked (hb : (s.uses h).locked = some b)
    (hh : s.uses h ≠ .holding b true) (hv : (s.bufs b).valid = true) :
    (s.bufs b).data = s.stored (s.bufs b).addr := by
  obtain hd | ⟨h', hh'⟩ := hi.data b hv
  · exact hd
  · have heq := hi.locked_unique hb (show (s.uses h').locked = some b by rw [hh']; rfl)
    rw [heq] at hh
    exact absurd hh' hh

theorem data_of_unlocked (hb : (s.bufs b).lock = none)
    (hv : (s.bufs b).valid = true) : (s.bufs b).data = s.stored (s.bufs b).addr := by
  obtain hd | ⟨h', hh'⟩ := hi.data b hv
  · exact hd
  · rw [(hi.lock b h').mpr (by rw [hh']; rfl)] at hb
    cases hb

theorem refs_setUse (h : Fin n) (u : BufUse) (b : Fin nbuf) :
    refCount (fun h' => (update s.uses h u h').buf) b + (if (s.uses h).buf = some b then 1 else 0)
      = (s.bufs b).refcnt + (if u.buf = some b then 1 else 0) := by
  have hcomp : (fun h' => (update s.uses h u h').buf)
      = update (fun h' => (s.uses h').buf) h u.buf := by
    funext h'
    simp only [update_apply]
    split <;> rfl
  rw [hcomp, hi.refs b]
  exact refCount_update ..

/-- Buffers whose addresses stay and that are in use only if they were. -/
theorem shadowed_mono {s' : Bcache D n}
    (haddr : ∀ b, (s'.bufs b).addr = (s.bufs b).addr)
    (hused : ∀ b, (s'.bufs b).used → (s.bufs b).used) : l.Pairwise (Shadowed s') := by
  refine hi.shadowed.imp fun {x y} hxy he hy => ?_
  rw [haddr, haddr] at he
  exact hxy he (hused y hy)

end

/-- What a use may do to its own buffer `b` while it is the only one that can have the sleep
lock: `x` is the buffer and `u` the use afterwards. -/
structure OwnStep (s s' : Bcache D n) (h : Fin n) (b : Fin nbuf) (x : Buf D n) (u : BufUse) :
    Prop where
  next : s'.next = s.next := by rfl
  prev : s'.prev = s.prev := by rfl
  bufs : s'.bufs = update s.bufs b x
  uses : s'.uses = update s.uses h u := by rfl
  mine : (s.uses h).buf = some b
  owner : (s.bufs b).lock = none ∨ (s.bufs b).lock = some h
  buf : u.buf = some b := by rfl
  addr : x.addr = (s.bufs b).addr := by rfl
  refcnt : x.refcnt = (s.bufs b).refcnt := by rfl
  lock : x.lock = if u.locked = some b then some h else none
  asked : ∀ a, u.asked = some (b, a) → (s.uses h).asked = some (b, a) := by exact nofun
  valid : (s.bufs b).valid = true → x.valid = true := by exact id
  reading : ∀ a, u = .reading b a → x.valid = false := by exact nofun
  got : u.got = some b → x.valid = true
  dirty : x.dirty = true → x.valid = true
  writing : u = .writing b → x.dirty = true := by exact nofun
  data : x.valid = true → x.data = s'.stored x.addr ∨ u = .holding b true
  stored : ∀ a, a ≠ x.addr → s'.stored a = s.stored a := by exact fun _ _ => rfl
  disk : ∀ a, a ≠ x.addr → s'.disk a = s.disk a := by exact fun _ _ => rfl
  written : s'.disk x.addr = s'.stored x.addr ∨ x.dirty = true
  returns : ∀ r ∈ s'.returns, r ∈ s.returns ∨ r.2.1 = r.2.2 := by exact fun _ hr => .inl hr

section

variable (hi : BioInv s l)
include hi

theorem own (hs : OwnStep s s' h b x u) :
    BioInv s' l := by
  have hused : (s.bufs b).used := .inl (hi.refcnt_ne_zero hs.mine)
  have hbal := hi.refs_setUse h u
  have hother : ∀ b', b' ≠ b → (s.bufs b').used → (s.bufs b').addr ≠ (s.bufs b).addr :=
    fun b' hne => hi.addr_ne hne hused
  have hunique : ∀ h', (s.uses h').locked = some b → h' = h := by
    intro h' hh'
    have hlock := (hi.lock b h').mpr hh'
    obtain ho | ho := hs.owner
    · rw [ho] at hlock
      cases hlock
    · rw [ho] at hlock
      exact (some.inj hlock).symm
  have hbuf : ∀ b', s'.bufs b' = if b' = b then x else s.bufs b' := by
    intro b'
    rw [hs.bufs, update_apply]
  have huse : ∀ h', s'.uses h' = if h' = h then u else s.uses h' := by
    intro h'
    rw [hs.uses, update_apply]
  have haddr : ∀ b', (s'.bufs b').addr = (s.bufs b').addr := by
    intro b'
    rw [hbuf]
    split
    next hb' => rw [hb', hs.addr]
    next => rfl
  -- what a use other than `h` says is about another buffer, or was so before
  have hmine : ∀ b', u.buf = some b' → b' = b := fun b' hb' =>
    some.inj (hb'.symm.trans hs.buf)
  refine ⟨hs.next ▸ hs.prev ▸ hi.ring, hi.all, fun b' => ?_, fun b' h' => ?_, fun h' b' a ha => ?_,
    hi.shadowed_mono haddr fun b' => ?_, fun b' hb' => ?_, fun b' => ?_, fun h' b' a hh' => ?_,
    fun h' b' hh' => ?_, fun h' b' hh' => ?_, fun b' hv => ?_, fun a => ?_, fun r hr => ?_⟩
  · have hsame : refCount (fun h' => (s'.uses h').buf) b' = (s.bufs b').refcnt := by
      have hb' := hbal b'
      rw [hs.mine, hs.buf] at hb'
      simp only [hs.uses]
      omega
    rw [hsame, hbuf]
    split
    next hb' => rw [hb', hs.refcnt]
    next => rfl
  · have hold := hi.lock b' h'
    have hnot : (s.uses h).locked = some b' → b' = b := fun hb' =>
      some.inj ((BufUse.buf_of_locked hb').symm.trans hs.mine)
    have hnew : u.locked = some b' → b' = b := fun hb' => hmine b' (BufUse.buf_of_locked hb')
    have hun := hunique h'
    rw [hbuf, huse]
    have hlock := hs.lock
    grind
  · rw [haddr]
    rw [huse] at ha
    split at ha
    next hh' =>
      obtain rfl := hmine b' (BufUse.buf_of_asked ha)
      exact hi.asked h b' a (hs.asked a ha)
    next => exact hi.asked h' b' a ha
  · rw [hbuf]
    split
    next hb' => exact fun _ => hb' ▸ hused
    next => exact id
  · rw [hbuf] at hb' ⊢
    split at hb'
    next he => exact absurd (.inl (by rw [hs.refcnt]; exact hi.refcnt_ne_zero hs.mine)) hb'
    next he =>
      rw [if_neg he]
      exact hi.fresh b' hb'
  · rw [hbuf]
    split
    next => exact hs.dirty
    next => exact hi.dirty b'
  · rw [huse] at hh'
    rw [hbuf]
    split at hh'
    next =>
      obtain rfl := hmine b' (by rw [hh']; rfl)
      rw [if_pos rfl]
      exact hs.reading a hh'
    next hne =>
      rw [if_neg fun hb' => hne (hunique h' (by rw [hh', hb']; rfl))]
      exact hi.reading h' b' a hh'
  · rw [huse] at hh'
    rw [hbuf]
    split at hh'
    next =>
      obtain rfl := hmine b' (BufUse.buf_of_got hh')
      rw [if_pos rfl]
      exact hs.got hh'
    next hne =>
      have hold := hi.got h' b' hh'
      split
      next hb' => exact hs.valid (hb' ▸ hold)
      next => exact hold
  · rw [huse] at hh'
    rw [hbuf]
    split at hh'
    next =>
      obtain rfl := hmine b' (by rw [hh']; rfl)
      rw [if_pos rfl]
      exact hs.writing hh'
    next hne =>
      rw [if_neg fun hb' => hne (hunique h' (by rw [hh', hb']; rfl))]
      exact hi.writing h' b' hh'
  · rw [hbuf] at hv ⊢
    split at hv
    next hb' =>
      rw [if_pos hb']
      obtain hd | hd := hs.data hv
      · exact .inl hd
      · exact .inr ⟨h, by rw [huse, if_pos rfl, hb', hd]⟩
    next hb' =>
      rw [if_neg hb', hs.stored _ (hs.addr ▸ hother b' hb' (.inr hv))]
      obtain hd | ⟨h', hh'⟩ := hi.data b' hv
      · exact .inl hd
      have hne : h' ≠ h := by
        rintro rfl
        have hmine := hs.mine
        rw [hh'] at hmine
        exact hb' (some.inj hmine)
      exact .inr ⟨h', by rw [huse, if_neg hne, hh']⟩
  · by_cases ha : a = x.addr
    · rw [ha]
      obtain hd | hd := hs.written
      · exact .inl hd
      · exact .inr ⟨b, by rw [hbuf, if_pos rfl], by rw [hbuf, if_pos rfl, hd]⟩
    · rw [hs.stored a ha, hs.disk a ha]
      obtain hd | ⟨b', hb', hd⟩ := hi.disk a
      · exact .inl hd
      · have hne : b' ≠ b := by
          rintro rfl
          exact ha (hb'.symm.trans hs.addr.symm)
        exact .inr ⟨b', by rw [hbuf, if_neg hne, hb'], by rw [hbuf, if_neg hne, hd]⟩
  · obtain hr | hr := hs.returns r hr
    · exact hi.returns r hr
    · exact hr

/-! ### The steps of a use that has its buffer -/

/-- The disk lacks what was stored for the block of a buffer in use only if that is dirty. -/
theorem written (hb : (s.bufs b).used) :
    s.disk (s.bufs b).addr = s.stored (s.bufs b).addr ∨ (s.bufs b).dirty = true := by
  obtain hd | ⟨b', hb', hd⟩ := hi.disk (s.bufs b).addr
  · exact .inl hd
  · by_cases hne : b' = b
    · exact .inr (hne ▸ hd)
    · exact absurd hb' (hi.addr_ne hne hb (.inr (hi.dirty b' hd)))

theorem lock_of_locked (hb : (s.uses h).locked = some b) :
    (s.bufs b).lock = some h := (hi.lock b h).mpr hb

theorem modify {d : D} (hs : modifyBuf s h d = some s') : BioInv s' l := by
  unfold modifyBuf at hs
  split at hs
  next b c hu =>
    cases hs
    have hlocked : (s.uses h).locked = some b := by rw [hu]; rfl
    have hvalid := hi.got h b (by rw [hu]; rfl)
    exact hi.own (b := b) (u := .holding b true)
      { bufs := rfl
        mine := BufUse.buf_of_locked hlocked
        owner := .inr (hi.lock_of_locked hlocked)
        lock := by simpa [BufUse.locked] using hi.lock_of_locked hlocked
        got := fun _ => hvalid
        dirty := fun _ => hvalid
        data := fun _ => .inr rfl
        written := hi.written (.inr hvalid) }
  next => cases hs

theorem unlock (hs : unlockBuf s h = some s') : BioInv s' l := by
  unfold unlockBuf at hs
  split at hs
  next b hu =>
    cases hs
    have hlocked : (s.uses h).locked = some b := by rw [hu]; rfl
    have hvalid := hi.got h b (by rw [hu]; rfl)
    exact hi.own (b := b) (u := .releasing b)
      { bufs := rfl
        mine := BufUse.buf_of_locked hlocked
        owner := .inr (hi.lock_of_locked hlocked)
        lock := rfl
        got := fun _ => hvalid
        dirty := fun _ => hvalid
        data := fun _ => .inl (hi.data_of_locked hlocked (by simp [hu]) hvalid)
        written := hi.written (.inr hvalid) }
  next => cases hs

/-- `bwrite` and `log_write`: what the buffer holds is stored, and the buffer is dirty. -/
theorem store {c : Bool} (hu : s.uses h = .holding b c)
    (hu' : u = .writing b ∨ u = .holding b false) :
    BioInv (((s.store b).setBuf b { s.bufs b with dirty := true }).setUse h u) l := by
  have hlocked : (s.uses h).locked = some b := by rw [hu]; rfl
  have hvalid := hi.got h b (by rw [hu]; rfl)
  have hlock := hi.lock_of_locked hlocked
  refine hi.own (b := b) (u := u)
    { bufs := rfl
      mine := BufUse.buf_of_locked hlocked
      owner := .inr hlock
      buf := ?_
      lock := ?_
      asked := ?_
      reading := ?_
      got := fun _ => hvalid
      dirty := fun _ => hvalid
      writing := fun _ => rfl
      data := fun _ => .inl (by simp [Bcache.store, Bcache.setBuf, Bcache.setUse])
      stored := fun _ ha => update_of_ne ha ..
      written := .inr rfl }
  all_goals obtain rfl | rfl := hu'
  all_goals first | rfl | exact hlock.trans (if_pos rfl).symm | exact nofun

theorem bwrite (hs : Xv6.bwrite s h = some s') : BioInv s' l := by
  unfold Xv6.bwrite at hs
  split at hs
  next b c hu => exact some.inj hs ▸ hi.store hu (.inl rfl)
  next => cases hs

theorem logWrite (hs : logWriteBuf s h = some s') : BioInv s' l := by
  unfold logWriteBuf at hs
  split at hs
  next b c hu => exact some.inj hs ▸ hi.store hu (.inr rfl)
  next => cases hs

theorem bread (hs : Xv6.bread s h = some s') : BioInv s' l := by
  unfold Xv6.bread at hs
  split at hs
  next b a hu =>
    obtain ⟨hfree, hs⟩ := ite_none_right_eq_some.mp hs
    have hmine : (s.uses h).buf = some b := by rw [hu]; rfl
    have hused : (s.bufs b).used := .inl (hi.refcnt_ne_zero hmine)
    have haddr := hi.asked h b a (by rw [hu]; rfl)
    split at hs
    next hvalid =>
      cases hs
      have hdata := hi.data_of_unlocked hfree hvalid
      exact hi.own (b := b) (u := .holding b false)
        { bufs := rfl
          mine := hmine
          owner := .inl hfree
          lock := (if_pos rfl).symm
          got := fun _ => hvalid
          dirty := fun _ => hvalid
          data := fun _ => .inl hdata
          written := hi.written hused
          returns := fun r hr => by
            obtain rfl | hr := mem_cons.mp hr
            · refine .inr ?_
              simpa [Bcache.setBuf, haddr] using hdata
            · exact .inl hr }
    next hinvalid =>
      cases hs
      exact hi.own (b := b) (u := .reading b a)
        { bufs := rfl
          mine := hmine
          owner := .inl hfree
          lock := (if_pos rfl).symm
          asked := fun a' ha' => by
            rw [hu]
            exact ha'
          reading := fun _ _ => Bool.eq_false_iff.mpr hinvalid
          got := nofun
          dirty := hi.dirty b
          data := fun hv => absurd hv hinvalid
          written := hi.written hused }
  next => cases hs

theorem wrote (hu : s.uses h = .writing b) :
    BioInv ((ideDone s b).setUse h (.holding b false)) l := by
  have hlocked : (s.uses h).locked = some b := by rw [hu]; rfl
  have hdirty := hi.writing h b hu
  have hdata := hi.data_of_locked hlocked (by simp [hu]) (hi.dirty b hdirty)
  unfold ideDone
  rw [if_pos hdirty]
  exact hi.own (b := b) (u := .holding b false)
    { bufs := rfl
      mine := BufUse.buf_of_locked hlocked
      owner := .inr (hi.lock_of_locked hlocked)
      lock := (hi.lock_of_locked hlocked).trans (if_pos rfl).symm
      valid := fun _ => rfl
      got := fun _ => rfl
      dirty := nofun
      data := fun _ => .inl hdata
      disk := fun _ ha => update_of_ne ha ..
      written := .inl ((update_self ..).trans hdata) }

/-- The disk has read the block into the buffer; no other buffer has anything newer. -/
theorem read (hu : s.uses h = .reading b a) :
    BioInv ((ideDone s b).returned h b a) l := by
  have hlocked : (s.uses h).locked = some b := by rw [hu]; rfl
  have hmine := BufUse.buf_of_locked hlocked
  have hdirty : (s.bufs b).dirty ≠ true := by
    intro hd
    have hinvalid := hi.reading h b a hu
    rw [hi.dirty b hd] at hinvalid
    cases hinvalid
  have haddr := hi.asked h b a (by rw [hu]; rfl)
  have hdisk := (hi.written (.inl (hi.refcnt_ne_zero hmine))).resolve_right hdirty
  unfold ideDone
  rw [if_neg hdirty]
  exact hi.own (b := b) (u := .holding b false)
    { bufs := rfl
      mine := hmine
      owner := .inr (hi.lock_of_locked hlocked)
      lock := (hi.lock_of_locked hlocked).trans (if_pos rfl).symm
      valid := fun _ => rfl
      got := fun _ => rfl
      dirty := fun _ => rfl
      data := fun _ => .inl hdisk
      written := .inl hdisk
      returns := fun r hr => by
        obtain rfl | hr := mem_cons.mp hr
        · refine .inr ?_
          simpa [Bcache.setBuf, haddr] using hdisk
        · exact .inl hr }

theorem ideintr (hs : Xv6.ideintr s h = some s') : BioInv s' l := by
  unfold Xv6.ideintr at hs
  split at hs
  next b a hu => exact some.inj hs ▸ hi.read hu
  next b hu => exact some.inj hs ▸ hi.wrote hu
  next => cases hs

/-! ### The list: searched from the front, recycled from the back -/

theorem length_le : (l.map some).length < nbuf + 1 := by
  have hnodup : l.Nodup := (nodup_cons.mp hi.ring.nodup).2.of_map _
  exact Nat.lt_succ_of_le (by simpa using hnodup.length_le_card)

end

theorem find?_map_some (l : List (Fin nbuf)) (p : Fin nbuf → Bool) :
    (l.map some).find? (Option.any p) = (l.find? p).map some := by
  rw [List.find?_map]
  rfl

theorem cached_eq (hi : BioInv s l) (a : BlockAddr) :
    cached s a = some ((l.find? fun b => (s.bufs b).addr = a).map some) := by
  unfold cached
  rw [hi.ring.scan_next hi.length_le, find?_map_some]

theorem recyclable_eq (hi : BioInv s l) :
    recyclable s = some ((l.reverse.find? fun b =>
      (s.bufs b).refcnt = 0 ∧ (s.bufs b).dirty = false).map some) := by
  unfold recyclable
  rw [hi.ring.scan_prev hi.length_le, ← map_reverse, find?_map_some]

theorem nodup (hi : BioInv s l) : l.Nodup :=
  (nodup_cons.mp hi.ring.nodup).2.of_map _

/-- One buffer changes: no buffer before it may have its address now. -/
theorem shadowed_update {l1 l2 : List (Fin nbuf)} (hi : BioInv s (l1 ++ b :: l2))
    (hsame : ∀ b' ≠ b, s'.bufs b' = s.bufs b')
    (hbefore : ∀ b' ∈ l1, (s.bufs b').addr ≠ (s'.bufs b).addr)
    (hafter : ∀ b' ∈ l2, (s'.bufs b).addr = (s.bufs b').addr → ¬ (s.bufs b').used) :
    (l1 ++ b :: l2).Pairwise (Shadowed s') := by
  have hnodup := hi.nodup
  obtain ⟨hl1, hcons, hcross⟩ := pairwise_append.mp hi.shadowed
  obtain ⟨-, hl2⟩ := pairwise_cons.mp hcons
  have hne1 : ∀ b' ∈ l1, b' ≠ b := by grind
  have hne2 : ∀ b' ∈ l2, b' ≠ b := by grind
  refine pairwise_append.mpr ⟨?_, pairwise_cons.mpr ⟨fun y hy => ?_, ?_⟩, fun x hx y hy => ?_⟩
  · refine hl1.imp_of_mem fun {x y} hx hy hxy => ?_
    simpa only [Shadowed, hsame x (hne1 x hx), hsame y (hne1 y hy)] using hxy
  · simpa only [Shadowed, hsame y (hne2 y hy)] using hafter y hy
  · refine hl2.imp_of_mem fun {x y} hx hy hxy => ?_
    simpa only [Shadowed, hsame x (hne2 x hx), hsame y (hne2 y hy)] using hxy
  obtain rfl | hy := mem_cons.mp hy
  · intro he
    rw [hsame x (hne1 x hx)] at he
    exact absurd he (hbefore x hx)
  · simpa only [Shadowed, hsame x (hne1 x hx), hsame y (hne2 y hy)]
      using hcross x hx y (mem_cons_of_mem _ hy)

section

variable (hi : BioInv s l)
include hi

/-- A use is given a buffer to wait for: what holds of the other uses and of the disk stays. -/
theorem given (hidle : s.uses h = .idle) (haddr : x.addr = a)
    (hsame : x.addr = (s.bufs b).addr ∧ x.valid = (s.bufs b).valid ∧ x.dirty = (s.bufs b).dirty ∧
        x.data = (s.bufs b).data ∨
      (s.bufs b).refcnt = 0 ∧ (s.bufs b).dirty = false ∧ x.valid = false ∧ x.dirty = false)
    (hlock : x.lock = (s.bufs b).lock) (hrefcnt : x.refcnt = (s.bufs b).refcnt + 1)
    (hshadowed : l.Pairwise (Shadowed ((s.setBuf b x).setUse h (.waiting b a)))) :
    BioInv ((s.setBuf b x).setUse h (.waiting b a)) l := by
  have hrefs := hi.refs_setUse h (.waiting b a)
  have hnone : (s.bufs b).refcnt = 0 → ∀ h', (s.uses h').buf ≠ some b := by
    intro hz h' hh'
    exact hi.refcnt_ne_zero hh' hz
  have hbufl := fun u b => @BufUse.buf_of_locked b u
  have hbufa := fun u b a => @BufUse.buf_of_asked b a u
  have hbufg := fun u b => @BufUse.buf_of_got b u
  obtain ⟨_, _, _, _, _, _, _, _, _, _, _, _, _, _⟩ := hi
  constructor
  case shadowed => exact hshadowed
  all_goals
    simp only [Bcache.setBuf, Bcache.setUse, update_apply, Buf.used] at *
    grind [BufUse.locked, BufUse.asked, BufUse.got, BufUse.buf]

/-- The block is cached: the first buffer with its address gets one more reference. -/
theorem hit (hidle : s.uses h = .idle)
    (hfind : l.find? (fun b => (s.bufs b).addr = a) = some b) :
    BioInv ((s.setBuf b { s.bufs b with refcnt := (s.bufs b).refcnt + 1 }).setUse h
      (.waiting b a)) l := by
  obtain ⟨haddr, l1, l2, rfl, hbefore⟩ := List.find?_eq_some_iff_append.mp hfind
  have haddr : (s.bufs b).addr = a := by simpa using haddr
  have hbefore : ∀ b' ∈ l1, (s.bufs b').addr ≠ a := by simpa using hbefore
  refine hi.given hidle haddr (.inl ⟨rfl, rfl, rfl, rfl⟩) rfl rfl ?_
  refine hi.shadowed_update (fun b' hne => update_of_ne hne ..) (fun b' hb' => ?_) fun b' hb' => ?_
  · simpa [Bcache.setBuf, Bcache.setUse, haddr] using hbefore b' hb'
  · obtain ⟨-, hcons, -⟩ := pairwise_append.mp hi.shadowed
    simpa [Shadowed, Bcache.setBuf, Bcache.setUse] using (pairwise_cons.mp hcons).1 b' hb'

/-- The block is not cached: a buffer without references that is not dirty gets its address. -/
theorem miss (hidle : s.uses h = .idle)
    (hnone : l.find? (fun b => (s.bufs b).addr = a) = none)
    (hfree : (s.bufs b).refcnt = 0 ∧ (s.bufs b).dirty = false) :
    BioInv ((s.setBuf b
      { s.bufs b with addr := a, valid := false, dirty := false, refcnt := 1 }).setUse
      h (.waiting b a)) l := by
  have hno : ∀ b', (s.bufs b').addr ≠ a := by
    intro b'
    simpa using List.find?_eq_none.mp hnone b' (hi.all b')
  refine hi.given hidle rfl (.inr ⟨hfree.1, hfree.2, rfl, rfl⟩) rfl (by rw [hfree.1]) ?_
  obtain ⟨l1, l2, rfl⟩ := append_of_mem (hi.all b)
  refine hi.shadowed_update (fun b' hne => update_of_ne hne ..) (fun b' _ => ?_) fun b' _ he => ?_
  · simpa [Bcache.setBuf, Bcache.setUse] using hno b'
  · exact absurd he.symm (by simpa [Bcache.setBuf, Bcache.setUse] using hno b')

theorem bget_cases (hs : Xv6.bget s h a = some s') :
    (∃ b, l.find? (fun b => (s.bufs b).addr = a) = some b ∧
      s' = (s.setBuf b { s.bufs b with refcnt := (s.bufs b).refcnt + 1 }).setUse h (.waiting b a)) ∨
    (∃ b, l.find? (fun b => (s.bufs b).addr = a) = none ∧
      ((s.bufs b).refcnt = 0 ∧ (s.bufs b).dirty = false) ∧
      s' = (s.setBuf b
        { s.bufs b with addr := a, valid := false, dirty := false, refcnt := 1 }).setUse
          h (.waiting b a)) := by
  unfold Xv6.bget at hs
  rw [hi.cached_eq] at hs
  cases hfind : l.find? (fun b => (s.bufs b).addr = a) with
  | some b =>
    rw [hfind] at hs
    exact .inl ⟨b, rfl, (some.inj hs).symm⟩
  | none =>
    rw [hfind] at hs
    simp only [map_none, hi.recyclable_eq] at hs
    cases hfree : l.reverse.find? (fun b => (s.bufs b).refcnt = 0 ∧ (s.bufs b).dirty = false) with
    | some b =>
      rw [hfree] at hs
      exact .inr ⟨b, rfl, by simpa using List.find?_some hfree, (some.inj hs).symm⟩
    | none =>
      rw [hfree] at hs
      cases hs

theorem bget (hidle : s.uses h = .idle) (hs : Xv6.bget s h a = some s') :
    BioInv s' l := by
  obtain ⟨b, hfind, rfl⟩ | ⟨b, hnone, hfree, rfl⟩ := hi.bget_cases hs
  · exact hi.hit hidle hfind
  · exact hi.miss hidle hnone hfree

theorem drop (hu : s.uses h = .releasing b) :
    BioInv ((s.setBuf b { s.bufs b with refcnt := (s.bufs b).refcnt - 1 }).setUse h .idle) l := by
  have hrefs := hi.refs_setUse h .idle
  have hvalid := hi.got h b (by rw [hu]; rfl)
  have hshadowed : l.Pairwise (Shadowed
      ((s.setBuf b { s.bufs b with refcnt := (s.bufs b).refcnt - 1 }).setUse h .idle)) := by
    refine hi.shadowed_mono (fun b' => ?_) fun b' => ?_
    all_goals
      simp only [Bcache.setBuf, Bcache.setUse, update_apply, Buf.used]
      grind
  obtain ⟨_, _, _, _, _, _, _, _, _, _, _, _, _, _⟩ := hi
  constructor
  case shadowed => exact hshadowed
  all_goals
    simp only [Bcache.setBuf, Bcache.setUse, update_apply, Buf.used] at *
    grind [BufUse.locked, BufUse.asked, BufUse.got, BufUse.buf]

/-- A buffer in use comes to the front: no other buffer in use has its address. -/
theorem front (hb : (s.bufs b).used) : ∃ l', BioInv (s.moveFront b) l' := by
  obtain ⟨l1, l2, rfl⟩ := append_of_mem (hi.all b)
  obtain ⟨hl1, hcons, hcross⟩ := pairwise_append.mp hi.shadowed
  obtain ⟨hafter, hl2⟩ := pairwise_cons.mp hcons
  refine ⟨b :: (l1 ++ l2), ?_, fun b' => ?_, hi.refs, hi.lock, hi.asked, ?_, hi.fresh, hi.dirty,
    hi.reading, hi.got, hi.writing, hi.data, hi.disk, hi.returns⟩
  · have hring := hi.ring
    rw [map_append, map_cons] at hring
    simpa [Bcache.moveFront] using hring.moveFront
  · have hall := hi.all b'
    simp only [mem_append, mem_cons] at hall ⊢
    tauto
  · refine pairwise_cons.mpr ⟨fun b' hb' he => ?_, pairwise_append.mpr ⟨hl1, hl2, ?_⟩⟩
    · obtain hb' | hb' := mem_append.mp hb'
      · exact absurd hb (hcross b' hb' b (by simp) he.symm)
      · exact hafter b' hb' he
    · exact fun x hx y hy => hcross x hx y (mem_cons_of_mem _ hy)

theorem brelse (hs : Xv6.brelse s h = some s') : ∃ l', BioInv s' l' := by
  unfold Xv6.brelse at hs
  split at hs
  next b hu =>
    have hdrop := hi.drop hu
    split at hs
    next =>
      cases hs
      have hvalid := hi.got h b (by rw [hu]; rfl)
      refine hdrop.front (b := b) (.inr ?_)
      simpa [Bcache.setBuf, Bcache.setUse] using hvalid
    next => exact ⟨l, some.inj hs ▸ hdrop⟩
  next => cases hs

end

end BioInv

/-! ### Runs keep one copy of each block -/

theorem bioStep_inv {a : BioAct D n} (hi : BioInv s l) (hs : bioStep s a = some s') :
    ∃ l', BioInv s' l' := by
  cases a with
  | bget h a =>
    obtain ⟨hidle, hs⟩ := ite_none_right_eq_some.mp hs
    exact ⟨l, hi.bget hidle hs⟩
  | bread h => exact ⟨l, hi.bread hs⟩
  | ideintr h => exact ⟨l, hi.ideintr hs⟩
  | modify h d => exact ⟨l, hi.modify hs⟩
  | bwrite h => exact ⟨l, hi.bwrite hs⟩
  | logWrite h => exact ⟨l, hi.logWrite hs⟩
  | unlock h => exact ⟨l, hi.unlock hs⟩
  | brelse h => exact hi.brelse hs

theorem binitLinks_ring : ∃ l : List (Fin nbuf), (∀ b, b ∈ l) ∧
    Ring binitLinks.1 binitLinks.2 none (l.map some) := by
  have hloop : ∀ (todo done : List (Fin nbuf)) (r : (BufPtr → BufPtr) × (BufPtr → BufPtr)),
      (todo.reverse ++ done).Nodup → Ring r.1 r.2 none (done.map some) →
      Ring (todo.foldl (fun r b => pushFront r.1 r.2 none (some b)) r).1
        (todo.foldl (fun r b => pushFront r.1 r.2 none (some b)) r).2 none
        ((todo.reverse ++ done).map some) := by
    intro todo
    induction todo with
    | nil => exact fun done r _ h => by simpa using h
    | cons b todo ih =>
      intro done r hnodup h
      have hb : some b ∉ none :: done.map some := by
        simp only [reverse_cons, append_assoc, singleton_append] at hnodup
        have hcons := (nodup_append.mp hnodup).2.1
        simpa using (nodup_cons.mp hcons).1
      have hpush := ih (b :: done) _ (by simpa using hnodup) (h.push hb)
      simpa using hpush
  refine ⟨(finRange nbuf).reverse, fun b => by simp, ?_⟩
  have hstart : Ring (fun _ => none) (fun _ => none) none (([] : List (Fin nbuf)).map some) :=
    ⟨⟨rfl, rfl⟩, by simp⟩
  simpa [binitLinks] using
    hloop (finRange nbuf) [] _ (by simpa using (nodup_finRange nbuf)) hstart

theorem bioInv_binit (data : Fin nbuf → D) (disk : BlockAddr → D) :
    ∃ l, BioInv (binit data disk : Bcache D n) l := by
  obtain ⟨l, hall, hring⟩ := binitLinks_ring
  have hzero : ∀ b : Fin nbuf, refCount (fun _ : Fin n => BufUse.idle.buf) b = 0 := by
    intro b
    exact refCount_eq_zero.mpr (by simp [BufUse.buf])
  refine ⟨l, hring, hall, fun b => (hzero b).symm, fun b h => ?_, nofun, ?_, fun _ _ => rfl, nofun,
    nofun, nofun, nofun, nofun, fun _ => .inl rfl, nofun⟩
  · exact iff_of_false nofun nofun
  · exact pairwise_of_forall fun _ _ _ => by simp [binit, Buf.used]

theorem addr_update {f : Fin nbuf → Buf D n} {b : Fin nbuf} (b' : Fin nbuf)
    (h : x.addr = (f b).addr) : (update f b x b').addr = (f b').addr := by
  rw [update_apply]
  split
  next heq => rw [heq, h]
  next => rfl

theorem addr_ideDone {b : Fin nbuf} (b' : Fin nbuf) :
    ((ideDone s b).bufs b').addr = (s.bufs b').addr := by
  unfold ideDone
  split
  all_goals
    refine addr_update b' ?_
    rfl

/-- Only `bget` gives a buffer another block, and only one nobody refers to that is not dirty. -/
theorem addr_kept {a : BioAct D n} (hi : BioInv s l) (hs : bioStep s a = some s')
    (hb : (s.bufs b).refcnt ≠ 0 ∨ (s.bufs b).dirty = true) :
    (s'.bufs b).addr = (s.bufs b).addr := by
  cases a with
  | bget h a =>
    obtain ⟨-, hs⟩ := ite_none_right_eq_some.mp hs
    obtain ⟨b', -, rfl⟩ | ⟨b', -, hfree, rfl⟩ := hi.bget_cases hs
    all_goals
      simp only [Bcache.setBuf, Bcache.setUse, update_apply]
      grind
  | _ =>
    simp only [bioStep, bread, ideintr, modifyBuf, bwrite, logWriteBuf, unlockBuf, brelse] at hs
    repeat' split at hs
    all_goals cases hs
    all_goals first
      | exact addr_ideDone b
      | refine addr_update b ?_; rfl

/-- **The buffer cache, in every state that any interleaving reaches.** -/
theorem buffer_cache {data : Fin nbuf → D} {disk : BlockAddr → D}
    (hrun : Run bioStep (fun _ _ => True) (binit data disk : Bcache D n) s) :
    (∃ l : List (Fin nbuf), l.Nodup ∧ (∀ b, b ∈ l) ∧ Link s.next s.prev none (l.map some) none) ∧
    (∀ b b', (s.bufs b).addr.1 = rootdev → (s.bufs b).addr = (s.bufs b').addr → b = b') ∧
    (∀ a s' b, bioStep s a = some s' → (s.bufs b).refcnt ≠ 0 ∨ (s.bufs b).dirty = true →
      (s'.bufs b).addr = (s.bufs b).addr) ∧
    (∀ b, (s.bufs b).refcnt = refCount (fun h => (s.uses h).buf) b) ∧
    ∀ r ∈ s.returns, r.2.1 = r.2.2 := by
  obtain ⟨l, hi⟩ := hrun.inv (I := fun s => ∃ l, BioInv s l) (bioInv_binit data disk)
    fun _ _ _ ⟨_, hi⟩ _ hs => bioStep_inv hi hs
  refine ⟨⟨l, hi.nodup, hi.all, hi.ring.link⟩, fun b b' hroot haddr => ?_, fun a s' b hs hb => ?_,
    hi.refs, hi.returns⟩
  · by_contra hne
    have hzero : (s.bufs b).addr = (0, 0) := by
      obtain hu | hu := hi.unused_of_addr_eq hne haddr
      · exact hi.fresh b hu
      · exact haddr.trans (hi.fresh b' hu)
    rw [hzero] at hroot
    exact absurd hroot (by decide)
  · exact addr_kept hi hs hb

/-- One use stores into block 5 and gives it back; another one reads it. -/
def storeAndRead : List (BioAct Nat 2) :=
  [.bget 0 (rootdev, 5), .bget 1 (rootdev, 5), .bread 0, .ideintr 0, .modify 0 42, .logWrite 0,
    .unlock 0, .bread 1, .brelse 0]

theorem buffer_cache_shared :
    (storeAndRead.foldlM bioStep (binit (fun _ => 0) fun _ => 7)).map Bcache.returns =
      some [((rootdev, 5), 42, 42), ((rootdev, 5), 7, 7)] ∧
    ∀ s, storeAndRead.foldlM bioStep (binit (fun _ => 0) fun _ => 7) = some s →
      ∀ b b', (s.bufs b).addr.1 = rootdev → (s.bufs b).addr = (s.bufs b').addr → b = b' :=
  ⟨by decide +kernel, fun _ h => (buffer_cache (.of_foldlM h fun _ _ _ => trivial)).2.1⟩

end Xv6
