/-
What an event does to memory.

Whatever happens to the machine, memory and the page tables only change through a
handful of operations.  `MemStep` lists them, and `next_steps` shows that every event
is a sequence of them.  An invariant of the page tables is then shown for each
operation and holds of all runs; nothing about traps, scheduling or the loading of
programs comes into it again.

`sys_page_map` is the one operation with conditions on its call.  It is asked for room
for one more reference, and for a permission that satisfies `Q`, which a particular
invariant may choose.
-/
import Os.Proofs.Jos.Memory
import Os.Proofs.Jos.UserWrites

namespace Jos

open Relation Runs BitVec

variable {M : Machine} {s s' s1 : Kern M} {c : CpuIdx} {e : EnvIdx} {Q : Word → Prop}

/-- Loading a program: the operations that only concern the address space of `e`. -/
inductive LoadStep (e : EnvIdx) (s : Kern M) : Kern M → Prop
  | same {s' : Kern M} (h : SameTables s s') : LoadStep e s s'
  | region {va len : Word} {s' : Kern M} (hbelow : RegionBelow va len)
      (h : regionAlloc s e va len = some s') : LoadStep e s s'
  | store {d : Ppn M} {va : Word} {bs : List (BitVec 8)} {pm' : Pmap M}
      (hd : s.root e = some d) (hva : va.toNat + bs.length ≤ utop.toNat)
      (h : storeBytes s.pm d va bs = some pm') : LoadStep e s { s with pm := pm' }

inductive MemStep (Q : Word → Prop) (s : Kern M) : Kern M → Prop
  | load {e : EnvIdx} {s' : Kern M} (h : LoadStep e s s') : MemStep Q s s'
  | envAlloc {parentId : Word} {x : Except Int EnvIdx} {s' : Kern M}
      (h : envAlloc s parentId = (x, s')) : MemStep Q s s'
  | envFree {e : EnvIdx} {s' : Kern M} (h : envFree s e = some s') : MemStep Q s s'
  | pageAlloc {c : CpuIdx} {envid va perm : Word} {r : Int} {s' : Kern M}
      (h : sysPageAlloc s c envid va perm = some (r, s')) : MemStep Q s s'
  | pageMap {c : CpuIdx} {srcenvid srcva dstenvid dstva perm : Word} {r : Int} {s' : Kern M}
      (hroom : RoomToMap s c srcenvid srcva) (hQ : Q perm)
      (h : sysPageMap s c srcenvid srcva dstenvid dstva perm = some (r, s')) : MemStep Q s s'
  | pageUnmap {c : CpuIdx} {envid va : Word} {r : Int} {s' : Kern M}
      (h : sysPageUnmap s c envid va = some (r, s')) : MemStep Q s s'

/-- One operation after the other. -/
abbrev MemSteps (Q : Word → Prop) : Kern M → Kern M → Prop := ReflTransGen (MemStep Q)

abbrev LoadSteps (e : EnvIdx) : Kern M → Kern M → Prop := ReflTransGen (LoadStep e)

theorem MemStep.same (h : SameTables s s') : MemStep Q s s' := .load (e := 0) (.same h)

theorem MemSteps.same (h : SameTables s s') : MemSteps Q s s' := .single (.same h)

theorem LoadSteps.steps (h : LoadSteps e s s') : MemSteps Q s s' :=
  h.lift id fun _ _ => .load

/-! ### What the calls in an event are asked for -/

/-- A call of `sys_page_map` leaves room for the reference it makes, and no program stores through
a directory that has been freed under it. -/
def RoomFor (s : Kern M) : Event → Prop
  | .trap c _ tf => tf.tfTrapno = tSyscall → tf.tfRegs.regEax = sysNoPageMap →
      RoomToMap s c tf.tfRegs.regEdx tf.tfRegs.regEcx
  | .store c _ _ => ∀ e, s.curenv c = some e → s.cr3 c = (s.envs e).envPgdir
  | _ => True

/-- A call of `sys_page_map` has a permission with `Q`. -/
def MapPerm (Q : Word → Prop) : Event → Prop
  | .trap _ _ tf => tf.tfTrapno = tSyscall → tf.tfRegs.regEax = sysNoPageMap →
      Q tf.tfRegs.regEsi
  | _ => True

theorem RoomToMap.trapEntry {tf : Trapframe} {srcenvid srcva : Word}
    (h : RoomToMap s c srcenvid srcva) : RoomToMap (trapEntry s c e tf) c srcenvid srcva := by
  have hsame := sameTables_trapEntry s c e tf
  intro src sd pp pte hsrc hsd hlook
  rw [lookupEnv_trapEntry] at hsrc
  rw [hsame.pgdir] at hsd
  rw [hsame.refs_eq]
  exact h src sd pp pte hsrc hsd hlook

/-! ### Creating an environment -/

/-- A segment that ends below `UTOP` is given pages below `UTOP`. -/
theorem regionBelow_of_le {va len : Word} (h : va.toNat + len.toNat ≤ utop.toNat) :
    RegionBelow va len := by
  rw [toNat_utop] at h
  have hsum : (va + len).toNat = va.toNat + len.toNat := by
    rw [toNat_add]
    omega
  have hup : (va + len + pgsize - 1).toNat = va.toNat + len.toNat + 4095 := by
    rw [toNat_sub, toNat_add, hsum]
    show (2 ^ 32 - 1 + (va.toNat + len.toNat + 4096) % 2 ^ 32) % 2 ^ 32 = _
    omega
  have hfinish : (roundup (va + len) pgsize).toNat
      = va.toNat + len.toNat + 4095 - (va.toNat + len.toNat + 4095) % 4096 := by
    unfold roundup
    rw [toNat_rounddown, hup]
  intro k hk
  unfold pageSteps at hk
  split at hk
  · rename_i hlt
    have hlt' : (rounddown va pgsize).toNat < (roundup (va + len) pgsize).toNat := hlt
    have hdiff : (roundup (va + len) pgsize - rounddown va pgsize).toNat
        = (roundup (va + len) pgsize).toNat - (rounddown va pgsize).toNat :=
      toNat_sub_of_le hlt'.le
    rw [hdiff, hfinish, toNat_rounddown] at hk
    rw [toNat_rounddown, toNat_utop]
    omega
  · omega

theorem copySegment_steps {d : Ppn M} {elf : Elf} {ph : Proghdr} {pm' : Pmap M}
    (hd : s.root e = some d) (hle : ph.pVa.toNat + ph.pMemsz.toNat ≤ utop.toNat)
    (hfile : ph.pFilesz.toNat ≤ ph.pMemsz.toNat) (h : copySegment s.pm d elf ph = some pm') :
    LoadSteps e s { s with pm := pm' } := by
  unfold copySegment at h
  split at h
  · simp at h
  rename_i pm1 hmove
  have hrest : (ph.pMemsz - ph.pFilesz).toNat = ph.pMemsz.toNat - ph.pFilesz.toNat :=
    toNat_sub_of_le hfile
  have hmid : (ph.pVa + ph.pFilesz).toNat = ph.pVa.toNat + ph.pFilesz.toNat := by
    rw [toNat_add]
    omega
  have h1 : LoadStep e s { s with pm := pm1 } :=
    .store hd (by rw [List.length_map, List.length_range]; omega) hmove
  have h2 : LoadStep e { s with pm := pm1 } { s with pm := pm' } :=
    .store (s := { s with pm := pm1 }) hd (by rw [List.length_replicate, hrest, hmid]; omega) h
  exact (ReflTransGen.single h1).tail h2

theorem loadSegment_steps {img : Image} {ph : Proghdr} (hph : ph ∈ img.elf.phdrs)
    (h : loadSegment e img.elf s ph = some s') : LoadSteps e s s' := by
  unfold loadSegment at h
  split at h
  · cases h
    exact .refl
  rename_i htype
  have hle := img.belowUtop ph hph (not_not.mp htype)
  split at h
  · simp at h
  split at h
  · simp at h
  rename_i s1 hregion
  split at h
  · simp at h
  rename_i d hd
  split at h
  · simp at h
  · rename_i pm' hcopy
    cases h
    exact (copySegment_steps hd hle (img.fileszLe ph hph (not_not.mp htype)) hcopy).head
      (.region (regionBelow_of_le hle) hregion)

theorem loadIcode_steps {img : Image} (h : loadIcode s e img.elf = some s') :
    LoadSteps e s s' := by
  unfold loadIcode at h
  split_ifs at h
  simp only at h
  split at h
  · simp at h
  rename_i s1 hload
  have hentry : LoadSteps e s (s.modifyEnv e fun v =>
      { v with envTf := { v.envTf with tfEip := img.elf.eEntry } }) :=
    .single (.same (.modify s e rfl rfl rfl rfl))
  have hsegs : LoadSteps e s s1 :=
    foldlM_rule (P := fun _ s1 => LoadSteps e s s1) hload hentry
      fun _ ph s2 s3 hph h2 hstep => h2.trans (loadSegment_steps hph hstep)
  refine hsegs.tail (.region (regionBelow_of_le ?_) h)
  decide

/-- `env_create` allocates an environment and loads a program. -/
theorem envCreate_steps {img : Image} {type : EnvType} (h : envCreate s img.elf type = some s') :
    ∃ e s1, envAlloc s 0 = (.ok e, s1) ∧ LoadSteps e s1 s' := by
  unfold envCreate at h
  split at h
  · simp at h
  rename_i e s1 halloc
  split at h
  · simp at h
  · rename_i s2 hload
    cases h
    exact ⟨e, s1, halloc,
      (loadIcode_steps hload).tail (.same (.modify s2 e rfl rfl rfl rfl))⟩

/-! ### Traps -/

theorem Leaves.steps (h : Leaves c s s') : MemSteps Q s s' := by
  cases h with
  | kill hcur hfree hsched =>
    refine (MemSteps.same ?_).head (.envFree hfree)
    exact ((Resched.setCurenv _ c none).trans (Resched.schedYield hsched)).toSameTables
  | yield hsched => exact MemSteps.same (Resched.schedYield hsched).toSameTables
  | @fault e d pm tf va _ hcur hd hstore hrun =>
    have hlen : (utfAddr tf.tfEsp).toNat + (utfOf tf va).bytes.length ≤ utop.toNat := by
      exact utfAddr_le tf.tfEsp
    refine (MemSteps.same ?_).head (.load (.store hd hlen hstore))
    exact (SameTables.modify _ e rfl rfl rfl rfl).trans (SameTables.envRun hrun)

theorem Call.steps {no a1 a2 a3 a4 a5 : Word} (hroom : no = sysNoPageMap → RoomToMap s c a1 a2)
    (hQ : no = sysNoPageMap → Q a5) (h : Call c no a1 a2 a3 a4 a5 s s') : MemSteps Q s s' := by
  cases h with
  | idle => exact .refl
  | destroy _ _ hd =>
    rcases envDestroy_steps hd with hr | ⟨s1, hfree, hr⟩
    · exact .same hr.toSameTables
    · exact (MemSteps.same hr.toSameTables).head (.envFree hfree)
  | exofork _ hx =>
    rcases sysExofork_steps hx with rfl | ⟨parentId, e, s1, ha, hr⟩
    · exact .refl
    · exact (MemSteps.same hr.toSameTables).head (.envAlloc ha)
  | pageAlloc _ hx => exact .single (.pageAlloc hx)
  | pageMap hno hx => exact .single (.pageMap (hroom hno) (hQ hno) hx)
  | pageUnmap _ hx => exact .single (.pageUnmap hx)
  | setStatus _ hx =>
    rcases sysEnvSetStatus_cases hx with rfl | ⟨st, e, -, -, rfl⟩
    · exact .refl
    · exact .same (.modify s e rfl rfl rfl rfl)

/-- **Every event is a sequence of operations.** -/
theorem next_steps {ev : Event} (hroom : RoomFor s ev) (hQ : MapPerm Q ev)
    (h : next s ev = some s') : MemSteps Q s s' := by
  cases ev with
  | create img =>
    obtain ⟨e, s1, halloc, hload⟩ := envCreate_steps h
    exact hload.steps.head (.envAlloc halloc)
  | sched c =>
    simp only [next] at h
    split at h
    · exact MemSteps.same (Resched.schedYield h).toSameTables
    · simp at h
  | store c va b =>
    obtain ⟨e, d, pm, hcur, hcr3, hva, hstore, rfl⟩ := userStore_cases h
    have hd : (s.envs e).envPgdir = some d := (hroom e hcur).symm.trans hcr3
    have hle : va.toNat + [b].length ≤ utop.toNat := hva hd
    exact .single (.load (.store hd hle hstore))
  | trap c o tf =>
    simp only [next] at h
    split at h
    · rename_i huser
      obtain ⟨e, -, ⟨-, s1, hfree, hsched⟩ | ⟨-, hl | ⟨r, s1, hcall, hret⟩⟩⟩ :=
        trap_cases huser h
      · refine ((MemSteps.same ?_).head (.envFree hfree)).head (.same (SameTables.setCpus s _))
        exact ((Resched.setCurenv s1 c none).trans (Resched.schedYield hsched)).toSameTables
      · exact hl.steps.head (.same (sameTables_trapEntry s c e tf))
      · have hin : MemSteps Q (trapEntry s c e tf) s1 :=
          hcall.2.steps (fun hno => (hroom hcall.1 hno).trapEntry) (hQ hcall.1)
        have hout : SameTables s1 s' :=
          ((Resched.setEax s1 (some e) r).trans (Resched.trapReturn hret)).toSameTables
        exact (hin.head (.same (sameTables_trapEntry s c e tf))).tail (.same hout)
    · simp at h

/-- An invariant that every operation keeps is kept by every event. -/
theorem next_inv {I : Kern M → Prop} {ev : Event}
    (hkeep : ∀ s s', MemStep Q s s' → I s → I s') (hroom : RoomFor s ev) (hQ : MapPerm Q ev)
    (hI : I s) (h : next s ev = some s') : I s' := by
  have hsteps : MemSteps Q s s' := next_steps hroom hQ h
  clear h
  induction hsteps with
  | refl => exact hI
  | tail _ hstep ih => exact hkeep _ _ hstep ih

/-! ### The memory invariant -/

theorem MemInv.writes {A : Set (Ppn M)} {pm' : Pmap M} (h : MemInv A s)
    (hw : WritesLeaves s.refs e s.pm pm') : MemInv A { s with pm := pm' } := by
  have hrefs : Jos.refs s.root none pm' = s.refs := hw.refs_eq h.excl
  refine h.setPm ?_ ?_ ?_
  · rw [hrefs]
    exact h.excl
  · rw [hrefs]
    exact h.ledger.congr hw.pages hw.freeList
  · rw [hrefs]
    exact h.bound

theorem MemInv.loadStep {A : Set (Ppn M)} (hstep : LoadStep e s s') (h : MemInv A s) :
    MemInv A s' := by
  cases hstep with
  | same hs => exact h.same hs
  | region hbelow ha => exact h.regionAlloc hbelow ha
  | store hd hva hs => exact h.writes (storeBytes_writes _ h.excl hd hva hs)

theorem MemInv.step {A : Set (Ppn M)} (hstep : MemStep Q s s') (h : MemInv A s) :
    MemInv A s' := by
  cases hstep with
  | load hl => exact h.loadStep hl
  | envAlloc ha => exact h.envAlloc ha
  | envFree hf => exact h.envFree hf
  | pageAlloc hc => exact h.sysPageAlloc hc
  | pageMap hroom _ hc => exact h.sysPageMap hroom hc
  | pageUnmap hc => exact h.sysPageUnmap hc

theorem mapPerm_true (ev : Event) : MapPerm (fun _ => True) ev := by
  cases ev <;> simp [MapPerm]

/-- The memory invariant holds in every run that leaves room for its references. -/
theorem memInv_of_run {l : List (Ppn M)} {s0 : Kern M} (h0 : MemInit l s0)
    (hrun : Run next RoomFor (envInit s0) s) : MemInv {p | p ∈ l} s :=
  hrun.inv (.start h0) fun _ ev _ h hroom hnext =>
    next_inv (fun _ _ hstep hI => hI.step hstep) hroom (mapPerm_true ev) h hnext

end Jos
