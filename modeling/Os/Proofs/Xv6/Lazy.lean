/-
When lazy allocation cannot be told from eager allocation.

The two kernels give a program the same memory as long as it stays inside the memory it
has asked for.  Then the lazy kernel maps a page at the first access that the eager one
has mapped all along, and both hold zeros.  `Agree` is that relation: below the break a
page is the same in both, or still missing in the lazy kernel and untouched in the other.

It breaks in three ways.  An access outside kills the process in one kernel and is
answered with a new page, or a panic, in the other.  `sys_sbrk` does not look at the
size it sets.  And it gives no page back, so a page that is returned and asked for again
is not zero.
-/
import Os.Xv6.Lazy
import Os.Proofs.Xv6.Access

namespace Xv6

variable {M : Machine} {K : Linker M}

/-! ### The conditions -/

/-- The page a process has at an address. -/
def User.page (s : User M) (va : Word) : Page := s.p.pgdir.bind fun d => pageAt s.km d va

/-- Nothing, or a page nobody has written to. -/
def Untouched (x : Page) : Prop := x = none ∨ x = zeroPage

/-- The program asks for memory below `KERNBASE`, gives back untouched pages only, and
keeps something. -/
def SbrkFits (s : User M) (n : Word) : Prop :=
  n = 0 ∨
  ((0 : Word).slt n = true ∧ s.p.sz.toNat + n.toNat < 2147483648) ∨
  (n.slt 0 = true ∧ 0 < (s.p.sz + n).toNat ∧ (s.p.sz + n).toNat < s.p.sz.toNat ∧
    ∀ va : Word, (s.p.sz + n).toNat ≤ vpn va * 4096 → vpn va * 4096 < s.p.sz.toNat →
      Untouched (s.page va))

/-- The process has a page there that lets the access pass. -/
def AccessFits (s : User M) (va : Word) (wr : Bool) : Prop :=
  va.toNat < 2147483648 ∧ ∃ flags c, s.page va = some (flags, c) ∧ UserMay wr flags

/-- What a program may do: `l` is the lazy kernel's process and `e` the eager one's. -/
def Fits (l e : User M) : UserOp → Prop
  | .sbrk n => SbrkFits l n
  | .load va => AccessFits e va false
  | .store va _ => AccessFits e va true

/-- An access faults and the kernel finds no page for it. -/
def FaultFails (s : User M) (va : Word) (wr : Bool) : Prop :=
  ∃ d m, s.p.pgdir = some d ∧ translate s.km d va true wr = none ∧
    trapPgflt s.km d va = some (false, m)

/-- An allocation that one of the kernels makes for the operation fails. -/
def OutOfMemory (K : Linker M) (l e : User M) : UserOp → Prop
  | .sbrk n => (0 : Word).slt n = true ∧ ∃ m p, growproc K e.km e.p n = some (false, m, p)
  | .load va => FaultFails l va false
  | .store va _ => FaultFails l va true

/-- Every operation of a run fits and finds memory. -/
def Admitted (K : Linker M) : User M → User M → List UserOp → Prop
  | _, _, [] => True
  | l, e, op :: ops =>
    Fits l e op ∧ ¬ OutOfMemory K l e op ∧
      Admitted K (lazyStep l op).2 (eagerStep K e op).2 ops

/-- A process whose pages are exactly those below its size: what `exec` leaves. -/
structure Laid (K : Linker M) (s : User M) : Prop where
  owned : ∃ d role, s.p.pgdir = some d ∧ Owned K s.km role ∧ Live role d
  size : s.p.sz.toNat ≤ 2147483648
  below : ∀ va : Word, vpn va * 4096 < s.p.sz.toNat → s.page va ≠ none
  above : ∀ va : Word, va.toNat < 2147483648 → s.p.sz.toNat ≤ vpn va * 4096 → s.page va = none

/-! ### The relation between the two kernels -/

/-- A process in order: its directory is one, and pages have one owner each. -/
structure Sound (K : Linker M) (s : User M) (d : Ppn M) (role : Ppn M → Role M) : Prop where
  dir : s.p.pgdir = some d
  owned : Owned K s.km role
  live : Live role d

theorem Sound.page_eq {s : User M} {d : Ppn M} {role : Ppn M → Role M} (h : Sound K s d role)
    (va : Word) : s.page va = pageAt s.km d va := by
  rw [User.page, h.dir]
  rfl

structure Agree (K : Linker M) (l e : User M) : Prop where
  lazy : ∃ d role, Sound K l d role
  eager : ∃ d role, Sound K e d role
  size : l.p.sz = e.p.sz
  bound : e.p.sz.toNat ≤ 2147483648
  below : ∀ va : Word, vpn va * 4096 < e.p.sz.toNat → e.page va ≠ none ∧
    (l.page va = e.page va ∨ l.page va = none ∧ e.page va = zeroPage)
  above : ∀ va : Word, va.toNat < 2147483648 → e.p.sz.toNat ≤ vpn va * 4096 →
    e.page va = none ∧ Untouched (l.page va)

theorem Laid.agree {s : User M} (h : Laid K s) : Agree K s s where
  lazy := by
    obtain ⟨d, role, hd, howned, hlive⟩ := h.owned
    exact ⟨d, role, hd, howned, hlive⟩
  eager := by
    obtain ⟨d, role, hd, howned, hlive⟩ := h.owned
    exact ⟨d, role, hd, howned, hlive⟩
  size := rfl
  bound := h.size
  below := fun va hva => ⟨h.below va hva, .inl rfl⟩
  above := fun va hva hge => ⟨h.above va hva hge, .inl (h.above va hva hge)⟩

variable {l e : User M}

/-! ### `sbrk` -/

section Growproc

variable {m m' : Kmem M} {p : Proc M} {d : Ppn M} {n r : Word}

theorem growproc_up (hd : p.pgdir = some d) (hpos : (0 : Word).slt n = true)
    (halloc : allocuvm K m d p.sz (p.sz + n) = some (r, m')) :
    growproc K m p n = if r = 0 then some (false, m', p)
      else some (true, m', { p with sz := r }) := by
  unfold growproc
  simp only [hd, hpos, if_true, halloc]

theorem growproc_down (hd : p.pgdir = some d) (hpos : ¬ (0 : Word).slt n = true)
    (hneg : n.slt 0 = true) (hdealloc : deallocuvm K m d p.sz (p.sz + n) = some (r, m')) :
    growproc K m p n = if r = 0 then some (false, m', p)
      else some (true, m', { p with sz := r }) := by
  unfold growproc
  simp only [hd, if_neg hpos, hneg, if_true, hdealloc]

end Growproc

theorem Agree.sbrk_zero (h : Agree K l e) :
    (lazyStep l (.sbrk 0)).1 = (eagerStep K e (.sbrk 0)).1 ∧
      Agree K (lazyStep l (.sbrk 0)).2 (eagerStep K e (.sbrk 0)).2 := by
  obtain ⟨d, role, hs⟩ := h.eager
  have hgrow : oldSysSbrk K e.km e.p 0 = some (e.p.sz, e.km, e.p) := by
    have hg : growproc K e.km e.p 0 = some (true, e.km, e.p) := by
      unfold growproc
      rw [hs.dir]
      rfl
    unfold oldSysSbrk
    rw [hg]
  have hsame : (lazyStep l (.sbrk 0)).2 = l := by
    show (⟨l.km, { l.p with sz := l.p.sz + 0 }⟩ : User M) = l
    rw [show l.p.sz + 0 = l.p.sz from BitVec.add_zero _]
  have heager : eagerStep K e (.sbrk 0) = (.ret e.p.sz, e) := by
    rw [eagerStep, hgrow]
  rw [hsame, heager]
  refine ⟨?_, h⟩
  show Outcome.ret l.p.sz = _
  rw [h.size]

/-- What the two kernels do once `growproc` has succeeded. -/
theorem sbrk_steps {n sz : Word} {m : Kmem M} (hsz : sz = e.p.sz + n)
    (hgrow : growproc K e.km e.p n = some (true, m, { e.p with sz := sz })) (h : l.p.sz = e.p.sz) :
    (lazyStep l (.sbrk n)).1 = (eagerStep K e (.sbrk n)).1 ∧
      (lazyStep l (.sbrk n)).2 = ⟨l.km, { l.p with sz := sz }⟩ ∧
      (eagerStep K e (.sbrk n)).2 = ⟨m, { e.p with sz := sz }⟩ := by
  have heager : eagerStep K e (.sbrk n) = (.ret e.p.sz, ⟨m, { e.p with sz := sz }⟩) := by
    rw [eagerStep, oldSysSbrk, hgrow]
  rw [heager]
  refine ⟨?_, ?_, rfl⟩
  · show Outcome.ret l.p.sz = _
    rw [h]
  · show (⟨l.km, { l.p with sz := l.p.sz + n }⟩ : User M) = _
    rw [hsz, h]

/-- Both kernels have set the size, and the eager one has done to the pages what `g` says. -/
theorem Agree.resized {sz : Word} {m : Kmem M} {d : Ppn M} {role role' : Ppn M → Role M}
    {g : Word → Page → Page} (h : Agree K l e) (hs : Sound K e d role)
    (hal : Alters K d g e.km role m role') (hsz : sz.toNat ≤ 2147483648)
    (hbelow : ∀ va : Word, va.toNat < 2147483648 → vpn va * 4096 < sz.toNat →
      g va (e.page va) ≠ none ∧
        (l.page va = g va (e.page va) ∨ l.page va = none ∧ g va (e.page va) = zeroPage))
    (habove : ∀ va : Word, va.toNat < 2147483648 → sz.toNat ≤ vpn va * 4096 →
      g va (e.page va) = none ∧ Untouched (l.page va)) :
    Agree K ⟨l.km, { l.p with sz := sz }⟩ ⟨m, { e.p with sz := sz }⟩ := by
  have hpage : ∀ va : Word, va.toNat < 2147483648 →
      (⟨m, { e.p with sz := sz }⟩ : User M).page va = g va (e.page va) := by
    intro va hva
    rw [hs.page_eq, ← hal.page va hva]
    show (e.p.pgdir.bind fun d => pageAt m d va) = _
    rw [hs.dir]
    rfl
  obtain ⟨dl, rolel, hsl⟩ := h.lazy
  refine ⟨⟨dl, rolel, hsl.dir, hsl.owned, hsl.live⟩,
    ⟨d, role', hs.dir, hal.owned, hal.within.live hs.live⟩, rfl, hsz, fun va hlt => ?_,
    fun va hva hge => ?_⟩
  · have hlt' : vpn va * 4096 < sz.toNat := hlt
    have hva : va.toNat < 2147483648 := by
      have hv : vpn va = va.toNat / 4096 := rfl
      omega
    rw [hpage va hva]
    exact hbelow va hva hlt
  · rw [hpage va hva]
    exact habove va hva hge

theorem Agree.sbrk_grow {n : Word} (h : Agree K l e) (hpos : (0 : Word).slt n = true)
    (hfit : l.p.sz.toNat + n.toNat < 2147483648) (hmem : ¬ OutOfMemory K l e (.sbrk n)) :
    (lazyStep l (.sbrk n)).1 = (eagerStep K e (.sbrk n)).1 ∧
      Agree K (lazyStep l (.sbrk n)).2 (eagerStep K e (.sbrk n)).2 := by
  obtain ⟨d, role, hs⟩ := h.eager
  rw [h.size] at hfit
  have hnew : (e.p.sz + n).toNat = e.p.sz.toNat + n.toNat := by
    rw [BitVec.toNat_add]
    omega
  have hn : n ≠ 0 := by
    intro hz
    rw [hz] at hpos
    exact absurd hpos (by decide)
  have hnpos : 0 < n.toNat := by
    refine Nat.pos_of_ne_zero fun hz => hn ?_
    exact BitVec.eq_of_toNat_eq hz
  obtain ⟨r, m, role', halloc, hres⟩ := hs.owned.allocuvm e.p.sz (e.p.sz + n) hs.live (by omega)
    (by omega) (by
      intro va hva hle _
      rw [← hs.page_eq]
      exact (h.above va hva (by omega)).1)
  have hgrow := growproc_up hs.dir hpos halloc
  rcases hres with ⟨rfl, hal⟩ | ⟨hr, -⟩
  · have hr0 : e.p.sz + n ≠ 0 := by
      intro hz
      have hz' := congrArg BitVec.toNat hz
      have h0 : (0 : Word).toNat = 0 := rfl
      omega
    rw [if_neg hr0] at hgrow
    obtain ⟨hout, hl, he⟩ := sbrk_steps rfl hgrow h.size
    rw [hl, he]
    refine ⟨hout, h.resized hs hal (by omega) (fun va hva hlt => ?_) fun va hva hge => ?_⟩
    · by_cases hold : vpn va * 4096 < e.p.sz.toNat
      · rw [putZeros, if_neg (by omega)]
        exact h.below va hold
      rw [putZeros, if_pos (by omega)]
      refine ⟨by simp [zeroPage], ?_⟩
      rcases (h.above va hva (by omega)).2 with hnone | hzero
      · exact .inr ⟨hnone, rfl⟩
      · exact .inl hzero
    · rw [putZeros, if_neg (by omega)]
      exact h.above va hva (by omega)
  · rw [if_pos hr] at hgrow
    exact absurd ⟨hpos, m, e.p, hgrow⟩ hmem

theorem Agree.sbrk_shrink {n : Word} (h : Agree K l e) (hneg : n.slt 0 = true)
    (hkeep : 0 < (l.p.sz + n).toNat) (hless : (l.p.sz + n).toNat < l.p.sz.toNat)
    (huntouched : ∀ va : Word, (l.p.sz + n).toNat ≤ vpn va * 4096 →
      vpn va * 4096 < l.p.sz.toNat → Untouched (l.page va)) :
    (lazyStep l (.sbrk n)).1 = (eagerStep K e (.sbrk n)).1 ∧
      Agree K (lazyStep l (.sbrk n)).2 (eagerStep K e (.sbrk n)).2 := by
  obtain ⟨d, role, hs⟩ := h.eager
  rw [h.size] at hkeep hless huntouched
  have hbound := h.bound
  obtain ⟨m, role', hdealloc, hun⟩ := hs.owned.deallocuvm (e.p.sz + n) hs.live hbound
  have hle : ¬ e.p.sz ≤ e.p.sz + n := BitVec.not_le.mpr (BitVec.lt_def.mpr hless)
  rw [if_neg hle] at hdealloc
  have hpos : ¬ (0 : Word).slt n = true := by
    rw [BitVec.slt_iff_toInt_lt] at hneg ⊢
    have h0 : (0 : Word).toInt = 0 := rfl
    omega
  have hne : e.p.sz + n ≠ 0 := by
    intro hz
    rw [hz] at hkeep
    exact absurd hkeep (by decide)
  have hgrow := growproc_down hs.dir hpos hneg hdealloc
  rw [if_neg hne] at hgrow
  obtain ⟨hout, hl, he⟩ := sbrk_steps rfl hgrow h.size
  rw [hl, he]
  refine ⟨hout, h.resized hs hun.alters (by omega) (fun va hva hlt => ?_) fun va hva hge => ?_⟩
  · rw [cut, if_neg (by omega)]
    exact h.below va (by omega)
  · rw [cut]
    by_cases hold : vpn va * 4096 < e.p.sz.toNat
    · rw [if_pos (by omega)]
      exact ⟨rfl, huntouched va hge hold⟩
    · rw [if_neg (by omega)]
      exact h.above va hva (by omega)

/-! ### Loads and stores -/

/-- What an access shows of a page with the contents `c`. -/
def seen (b : Option Byte) (c : Fin nptentries → Word) (o : Fin 4096) : Outcome :=
  match b with
  | none => .loaded (getByte (c (wordOf o)) (o.val % 4))
  | some _ => .stored

/-- What it leaves of the contents. -/
def after (b : Option Byte) (o : Fin 4096) (c : Fin nptentries → Word) : Fin nptentries → Word :=
  match b with
  | none => c
  | some b => Function.update c (wordOf o) (setByte (c (wordOf o)) (o.val % 4) b)

/-- What it leaves of the page at an address. -/
def written (b : Option Byte) (va va' : Word) (x : Page) : Page :=
  if vpn va' = vpn va then x.map fun y => (y.1, after b (pageOff va) y.2) else x

theorem page_vpn (s : User M) {va va' : Word} (h : vpn va = vpn va') : s.page va = s.page va' :=
  congrArg s.p.pgdir.bind (funext fun d => pageAt_vpn s.km d h)

variable {s : User M} {d : Ppn M} {role : Ppn M → Role M} {va flags : Word}
variable {c : Fin nptentries → Word} {b : Option Byte}

/-- **An access that passes**: what the program sees and what memory becomes depend on the
contents of the page alone. -/
theorem Sound.granted (h : Sound K s d role) (hva : va.toNat < 2147483648)
    (hpage : s.page va = some (flags, c)) (hmay : UserMay b.isSome flags) :
    ∃ a, translate s.km d va true b.isSome = some a ∧ (perform s.km a b).1 = seen b c (pageOff va) ∧
      Sound K { s with km := (perform s.km a b).2 } d role ∧
      ∀ va' : Word, va'.toNat < 2147483648 →
        ({ s with km := (perform s.km a b).2 } : User M).page va' =
          written b va va' (s.page va') := by
  rw [h.page_eq] at hpage
  obtain ⟨u, hu, hmem, htrans⟩ := h.owned.translate_page b.isSome h.live hva hpage
  rw [if_pos hmay] at htrans
  refine ⟨(u, pageOff va), htrans, ?_⟩
  cases b with
  | none =>
    refine ⟨?_, h, fun va' _ => ?_⟩
    · show Outcome.loaded (s.km.byte u (pageOff va)) = _
      rw [Kmem.byte, hmem]
      rfl
    show s.page va' = _
    unfold written after
    split
    · cases s.page va' <;> rfl
    · rfl
  | some b =>
    obtain ⟨howned, hview⟩ := h.owned.writeUser hu (after (some b) (pageOff va) (s.km.mem u))
    refine ⟨rfl, ⟨h.dir, howned, h.live⟩, fun va' hva' => ?_⟩
    have hnew : ({ s with km := (perform s.km (u, pageOff va) (some b)).2 } : User M).page va'
        = pageAt (s.km.fill u (after (some b) (pageOff va) (s.km.mem u))) d va' := by
      show (s.p.pgdir.bind fun d => pageAt _ d va') = _
      rw [h.dir]
      rfl
    rw [hnew, hview va' hva', h.page_eq, written]
    by_cases hvpn : vpn va' = vpn va
    · rw [if_pos hvpn, if_pos hvpn, ← h.page_eq, page_vpn s hvpn, h.page_eq, hpage, hmem]
      rfl
    · rw [if_neg hvpn, if_neg hvpn]

theorem Sound.lazyAccess_hit {a : Ppn M × Fin 4096} (h : Sound K s d role)
    (htrans : translate s.km d va true b.isSome = some a) :
    lazyAccess s va b = ((perform s.km a b).1, { s with km := (perform s.km a b).2 }) := by
  unfold lazyAccess access
  rw [h.dir]
  simp only [htrans]

theorem Sound.lazyAccess_fault {a : Ppn M × Fin 4096} {m : Kmem M} (h : Sound K s d role)
    (hnone : translate s.km d va true b.isSome = none)
    (hfault : trapPgflt s.km d va = some (true, m))
    (htrans : translate m d va true b.isSome = some a) :
    lazyAccess s va b = ((perform m a b).1, { s with km := (perform m a b).2 }) := by
  have hpages : 0 < M.npages := Nat.lt_of_le_of_lt (Nat.zero_le _) d.isLt
  obtain ⟨n, hn⟩ : ∃ n, M.npages = n + 1 := ⟨M.npages - 1, by omega⟩
  unfold lazyAccess
  rw [h.dir, hn]
  simp only [access, hnone, hfault, htrans]

theorem userMay_zeroPage (wr : Bool) : UserMay wr (pteW ||| pteU ||| pteP) := by
  refine ⟨by decide, fun _ => by decide⟩

/-- Below the break the lazy kernel answers an access from the same contents. -/
theorem Agree.lazyAccess (h : Agree K l e) (hva : va.toNat < 2147483648)
    (hpage : e.page va = some (flags, c)) (hmay : UserMay b.isSome flags)
    (hmem : ¬ FaultFails l va b.isSome) :
    ∃ l' d role, Xv6.lazyAccess l va b = (seen b c (pageOff va), l') ∧ Sound K l' d role ∧
      l'.p = l.p ∧ ∀ va' : Word, va'.toNat < 2147483648 →
        l'.page va' = written b va va' (if vpn va' = vpn va then e.page va' else l.page va') := by
  obtain ⟨d, role, hs⟩ := h.lazy
  have hlt : vpn va * 4096 < e.p.sz.toNat := by
    by_contra hge
    rw [(h.above va hva (by omega)).1] at hpage
    simp at hpage
  rcases (h.below va hlt).2 with hsame | ⟨hmiss, hzero⟩
  · obtain ⟨a, htrans, hseen, hsound, hview⟩ := hs.granted hva (hsame.trans hpage) hmay
    refine ⟨_, d, role, ?_, hsound, rfl, fun va' hva' => ?_⟩
    · rw [hs.lazyAccess_hit htrans, hseen]
    rw [hview va' hva']
    split
    · rename_i hvpn
      rw [page_vpn l hvpn, page_vpn e hvpn, hsame]
    · rfl
  · have hmiss' : pageAt l.km d va = none := by rw [← hs.page_eq, hmiss]
    have hnone := hs.owned.translate_none b.isSome hs.live hmiss' hva
    rcases hs.owned.trapPgflt hs.live hva hmiss' with ⟨m, hfail⟩ | ⟨m, role', hfault, hal⟩
    · exact absurd ⟨d, m, hs.dir, hnone, hfail⟩ hmem
    have hs' : Sound K ⟨m, l.p⟩ d role' := ⟨hs.dir, hal.owned, hal.within.live hs.live⟩
    have hput : ∀ va' : Word, va'.toNat < 2147483648 →
        (⟨m, l.p⟩ : User M).page va' = putZero va va' (l.page va') := by
      intro va' hva'
      rw [hs'.page_eq, hs.page_eq]
      exact hal.page va' hva'
    have hpage' : (⟨m, l.p⟩ : User M).page va = some (flags, c) := by
      rw [hput va hva, putZero, if_pos rfl, ← hzero, hpage]
    obtain ⟨a, htrans, hseen, hsound, hview⟩ := hs'.granted hva hpage' hmay
    refine ⟨_, d, role', ?_, hsound, rfl, fun va' hva' => ?_⟩
    · rw [hs.lazyAccess_fault hnone hfault htrans, ← hseen]
    rw [hview va' hva', hput va' hva', putZero]
    split
    · rename_i hvpn
      rw [page_vpn e hvpn, hzero]
    · rfl

theorem Agree.access (h : Agree K l e) (hfit : AccessFits e va b.isSome)
    (hmem : ¬ FaultFails l va b.isSome) :
    (Xv6.lazyAccess l va b).1 = (eagerAccess e va b).1 ∧
      Agree K (Xv6.lazyAccess l va b).2 (eagerAccess e va b).2 := by
  obtain ⟨hva, flags, c, hpage, hmay⟩ := hfit
  obtain ⟨l', dl, rolel, hl, hsl, hpl, hviewl⟩ := h.lazyAccess hva hpage hmay hmem
  obtain ⟨d, role, hs⟩ := h.eager
  obtain ⟨a, htrans, hseen, hsound, hview⟩ := hs.granted hva hpage hmay
  have he : eagerAccess e va b =
    (seen b c (pageOff va), { e with km := (perform e.km a b).2 }) := by
    unfold eagerAccess
    rw [hs.dir]
    simp only [htrans, hseen]
  rw [hl, he]
  have hbound := h.bound
  refine ⟨rfl, ⟨dl, rolel, hsl⟩, ⟨d, role, hsound⟩, ?_, hbound, ?_, ?_⟩
  · show l'.p.sz = e.p.sz
    rw [hpl, h.size]
  · intro va' hlt
    have hlt' : vpn va' * 4096 < e.p.sz.toNat := hlt
    have hva' : va'.toNat < 2147483648 := by
      have hv : vpn va' = va'.toNat / 4096 := rfl
      omega
    obtain ⟨hsome, hrel⟩ := h.below va' hlt'
    rw [hviewl va' hva', hview va' hva', written, written]
    by_cases hvpn : vpn va' = vpn va
    · simp only [if_pos hvpn]
      refine ⟨?_, .inl trivial⟩
      intro hc
      exact hsome (Option.map_eq_none_iff.mp hc)
    · simp only [if_neg hvpn]
      exact ⟨hsome, hrel⟩
  · intro va' hva' hge
    have hge' : e.p.sz.toNat ≤ vpn va' * 4096 := hge
    have hvpn : vpn va' ≠ vpn va := by
      intro hvpn
      have hnone := (h.above va' hva' hge').1
      rw [page_vpn e hvpn, hpage] at hnone
      simp at hnone
    rw [hviewl va' hva', hview va' hva', written, written]
    simp only [if_neg hvpn]
    exact h.above va' hva' hge'

/-! ### Whole runs -/

/-- **One operation**: both kernels show the same and stay in agreement. -/
theorem Agree.step {op : UserOp} (h : Agree K l e) (hfit : Fits l e op)
    (hmem : ¬ OutOfMemory K l e op) :
    (lazyStep l op).1 = (eagerStep K e op).1 ∧
      Agree K (lazyStep l op).2 (eagerStep K e op).2 := by
  cases op with
  | sbrk n =>
    rcases hfit with hzero | ⟨hpos, hlt⟩ | ⟨hneg, hkeep, hless, huntouched⟩
    · subst hzero
      exact h.sbrk_zero
    · exact h.sbrk_grow hpos hlt hmem
    · exact h.sbrk_shrink hneg hkeep hless huntouched
  | load va => exact h.access (b := none) hfit hmem
  | store va b => exact h.access (b := some b) hfit hmem

theorem Agree.outcomes (ops : List UserOp) : ∀ {l e : User M}, Agree K l e →
    Admitted K l e ops → outcomes lazyStep l ops = outcomes (eagerStep K) e ops := by
  induction ops with
  | nil =>
    intro l e _ _
    rfl
  | cons op ops ih =>
    intro l e h hadm
    obtain ⟨hfit, hmem, hrest⟩ := hadm
    obtain ⟨hout, hagree⟩ := h.step hfit hmem
    rw [Xv6.outcomes, Xv6.outcomes, hout, ih hagree hrest]

/--
**Lazy allocation refines eager allocation** for programs that keep to their memory: from
any process whose pages are those below its size, while memory lasts, the two kernels
show the same.
-/
theorem lazy_outcomes_eq_eager {s : User M} {ops : List UserOp} (h : Laid K s)
    (hadm : Admitted K s s ops) : Xv6.outcomes lazyStep s ops = Xv6.outcomes (eagerStep K) s ops :=
  h.agree.outcomes ops hadm

/-! ### A process without memory -/

/-- Memory behind the kernel: an empty directory and free pages. -/
theorem Owned.laid {d : Ppn M} {l : List (Ppn M)} {o : Owner} (hd : K.endPage ≤ d.val)
    (hl : ∀ p ∈ l, K.endPage ≤ p.val) (hnot : d ∉ l) (hnodup : l.Nodup) :
    Owned K (l.foldl Owned.freed ⟨fun _ _ => 0, none⟩)
        (Function.update (Owned.returned (Owned.unclaimed K) l) d (.pgdir o)) ∧
      (l.foldl Owned.freed ⟨fun _ _ => 0, none⟩).mem d = fun _ => 0 := by
  have hheld : ∀ p : Ppn M, K.endPage ≤ p.val → Owned.unclaimed K p = .held :=
    fun p hp => if_neg (by omega)
  obtain ⟨-, howned, hmem⟩ := (Owned.start (K := K) ⟨fun _ _ => 0, none⟩ rfl).kfrees l
    (fun p hp => hheld p (hl p hp)) hnodup
  have hrole : Owned.returned (Owned.unclaimed K) l d = .held := (if_neg hnot).trans (hheld d hd)
  refine ⟨howned.newDir ?_ ?_ (congrFun (hmem d hnot)), hmem d hnot⟩
  · rw [hrole]
    trivial
  · rw [hrole]
    simp

/-- A machine with four pages behind the kernel. -/
def tinyMachine : Machine := ⟨262, by decide⟩

instance : NeZero tinyMachine.npages := ⟨by decide⟩

def tinyLinker : Linker tinyMachine where
  data := 0x80101000
  kend := 0x80102000
  dataAligned := by decide
  dataAbove := by decide
  dataBelow := by decide
  endBelow := by decide

/-- The pages that are free; page 258 is an empty directory. -/
def tinyFree : List (Ppn tinyMachine) := [261, 260, 259]

def tinyMemory : Kmem tinyMachine := tinyFree.foldl Owned.freed ⟨fun _ _ => 0, none⟩

def tinyUser : User tinyMachine where
  km := tinyMemory
  p := ⟨0, some 258, none, .running, 1, none, ⟨0, 0, 0⟩, false, fun _ => none, []⟩

theorem tinyMemory_owned : (∃ role, Owned tinyLinker tinyMemory role ∧ Live role 258) ∧
    tinyMemory.mem 258 = fun _ => 0 := by
  have hend : tinyLinker.endPage = 258 := by decide
  have hfree : ∀ p ∈ tinyFree, 258 ≤ p.val := by decide +kernel
  obtain ⟨howned, hzero⟩ := Owned.laid (K := tinyLinker) (d := 258) (l := tinyFree) (o := .temp)
    (by decide) (by rw [hend]; exact hfree) (by decide) (by decide)
  exact ⟨⟨_, howned, .temp, Function.update_self _ _ _⟩, hzero⟩

theorem tinyUser_laid : Laid tinyLinker tinyUser := by
  obtain ⟨⟨role, howned, hlive⟩, hzero⟩ := tinyMemory_owned
  refine ⟨⟨258, role, rfl, howned, hlive⟩, by decide, fun va hva => ?_, fun va _ _ => ?_⟩
  · exact absurd hva (Nat.not_lt_zero _)
  · refine pageAt_of_not_present fun hpres => ?_
    exact Jos.not_present_zero hpres

theorem tinyMemory_empty {va : Word} (hva : va.toNat < 2147483648) :
    pageAt tinyMemory 258 va = none :=
  tinyUser_laid.above va hva (Nat.zero_le _)

/-- A page is asked for, written and read back. -/
def tinyOps : List UserOp := [.sbrk 4096, .store 0 7, .load 0]

theorem accessFits_of_flags {s : User M} {va : Word} {wr : Bool} (flags : Word)
    (hva : va.toNat < 2147483648) (h : (s.page va).map (·.1) = some flags)
    (hmay : UserMay wr flags) : AccessFits s va wr := by
  obtain ⟨⟨flags', c⟩, hpage, hflags⟩ := Option.map_eq_some_iff.mp h
  subst hflags
  exact ⟨hva, flags', c, hpage, hmay⟩

theorem not_faultFails {s : User M} {va : Word} {wr : Bool} {d : Ppn M} (hd : s.p.pgdir = some d)
    (h : (translate s.km d va true wr).isSome = true ∨
      (trapPgflt s.km d va).map (·.1) = some true) : ¬ FaultFails s va wr := by
  intro ⟨d', m, hd', hnone, hfail⟩
  obtain rfl := Option.some.inj (hd.symm.trans hd')
  rw [hnone, hfail] at h
  simp at h

theorem tinyOps_admitted : Admitted tinyLinker tinyUser tinyUser tinyOps := by
  refine ⟨.inr (.inl ⟨by decide, by decide⟩), ?_, ?_, ?_, ?_, ?_, trivial⟩
  · intro ⟨_, m, p, hfail⟩
    have hgrow : (growproc tinyLinker tinyUser.km tinyUser.p 4096).map (·.1) = some true := by
      decide +kernel
    rw [hfail] at hgrow
    simp at hgrow
  · exact accessFits_of_flags 7 (by decide) (by decide +kernel) (by decide)
  · exact not_faultFails (d := 258) rfl (.inr (by decide +kernel))
  · exact accessFits_of_flags 7 (by decide) (by decide +kernel) (by decide)
  · exact not_faultFails (d := 258) (by decide +kernel) (.inl (by decide +kernel))

theorem lazy_outcomes_eq_eager_tiny :
    outcomes lazyStep tinyUser tinyOps = outcomes (eagerStep tinyLinker) tinyUser tinyOps :=
  lazy_outcomes_eq_eager tinyUser_laid tinyOps_admitted

/-- An access beyond the end kills the program under one kernel and gives it a page of
zeros under the other.  So does a page that is given back and asked for again show what
was in it, and a size of `KERNBASE` is granted. -/
theorem lazy_reads_beyond : Laid tinyLinker tinyUser ∧
    (outcomes lazyStep tinyUser [.load 0] = [.loaded 0] ∧
      outcomes (eagerStep tinyLinker) tinyUser [.load 0] = [.killed]) ∧
    (outcomes lazyStep tinyUser [.sbrk 8192, .store 4096 7, .sbrk (-4096), .sbrk 4096, .load 4096]
        = [.ret 0, .stored, .ret 8192, .ret 4096, .loaded 7] ∧
      outcomes (eagerStep tinyLinker) tinyUser
          [.sbrk 8192, .store 4096 7, .sbrk (-4096), .sbrk 4096, .load 4096]
        = [.ret 0, .stored, .ret 8192, .ret 4096, .loaded 0]) ∧
    outcomes lazyStep tinyUser [.sbrk 4096, .sbrk 0x7FFFF000] = [.ret 0, .ret 4096] ∧
    outcomes (eagerStep tinyLinker) tinyUser [.sbrk 4096, .sbrk 0x7FFFF000] = [.ret 0, .ret (-1)] :=
  ⟨tinyUser_laid, ⟨by decide +kernel, by decide +kernel⟩, ⟨by decide +kernel, by decide +kernel⟩,
    by decide +kernel, by decide +kernel⟩

end Xv6
