/-
Where the runs start.

After `mem_init` some pages are on the free list, with no references, and everything
else that follows depends only on that: `MemInit` is what is taken for granted of the
start.  The directory of the kernel itself is not on the list, `envs[]` has been
cleared, and no processor runs anything yet.

`Kern.fresh n` is such a state with the pages `1 … n` free.  The last section has what
is needed to make something happen on it: a program that loads nothing, and system
calls as events.
-/
import Os.Proofs.Jos.Ledger
import Os.Jos.System

namespace Jos

open Linked

variable {M : Machine}

/-- The state `mem_init` leaves, with the pages `l` on the free list. -/
structure MemInit (l : List (Ppn M)) (s : Kern M) : Prop where
  list : FreeList s.pm l
  ref : ∀ p ∈ l, (s.pm.pages p).ppRef = 0
  kern : s.pm.kernPgdir ∉ l
  pgdir : ∀ e, (s.envs e).envPgdir = none
  idle : ∀ c, s.curenv c = none

/-! ### A state to start from -/

/-- A machine with one page for the kernel's directory and `n` more. -/
def Machine.withFree (n : Fin 65536) : Machine := ⟨n.val + 1, n.isLt⟩

instance neZero_frames : NeZero 65536 := ⟨by decide⟩

/-- The pages after the first. -/
def freshPages (n : Fin 65536) : List (Ppn (Machine.withFree n)) :=
  List.ofFn fun i : Fin n.val => ⟨i.val + 1, Nat.succ_lt_succ i.isLt⟩

/-- A slot of `envs[]` after the `memset` of `mem_init`. -/
def Env.zero : Env M where
  envTf := .zero
  envLink := none
  envId := 0
  envParentId := 0
  envType := .user
  envStatus := .free
  envRuns := 0
  envCpunum := 0
  envPgdir := none
  envPgfaultUpcall := 0
  envIpcRecving := false

def Kern.fresh (n : Fin 65536) : Kern (Machine.withFree n) where
  pm :=
    { mem := fun _ _ => 0
      pages := fun p =>
        { ppLink := if h : p.val + 1 < n.val + 1 then some ⟨p.val + 1, h⟩ else none, ppRef := 0 }
      pageFreeList := (freshPages n).head?
      kernPgdir := ⟨0, Nat.succ_pos _⟩ }
  envs := fun _ => Env.zero
  envFreeList := none
  cpus := fun _ => { cpuStatus := .unused, cpuEnv := none }
  cr3 := fun _ => none

theorem freeList_fresh (n : Fin 65536) : FreeList (Kern.fresh n).pm (freshPages n) := by
  refine chain_of_getElem ?_
  intro i hi
  by_cases hlast : i + 1 < n.val
  · simp [links, Kern.fresh, freshPages, hlast]
  · simp [links, Kern.fresh, freshPages, hlast]

theorem memInit_fresh (n : Fin 65536) : MemInit (freshPages n) (Kern.fresh n) where
  list := freeList_fresh n
  ref _ _ := rfl
  kern hc := by
    obtain ⟨i, hi⟩ := (List.mem_ofFn' _ _).mp hc
    exact absurd (congrArg Fin.val hi) (Nat.succ_ne_zero i.val)
  pgdir _ := rfl
  idle _ := rfl

/-! ### Things to do -/

/-- A program without segments: it has its stack and nothing else. -/
def Image.bare : Image where
  elf := { eMagic := elfMagic, eEntry := 0x800020, phdrs := [], binary := fun _ => 0 }
  belowUtop _ hph := absurd hph List.not_mem_nil
  fileszLe _ hph := absurd hph List.not_mem_nil

/-- The trap frame of `int $T_SYSCALL` with a call number and its arguments. -/
def callFrame (no a1 a2 a3 a4 a5 : Word) : Trapframe :=
  { Trapframe.zero with
    tfRegs :=
      { regEdi := a4, regEsi := a5, regEbp := 0, regOesp := 0
        regEbx := a3, regEdx := a1, regEcx := a2, regEax := no }
    tfTrapno := tSyscall
    tfCs := gdUt ||| 3 }

/-- The program running on `c` makes a system call. -/
def Event.call (c : CpuIdx) (no a1 a2 a3 a4 a5 : Word) : Event :=
  .trap c ⟨0, 0, .zero⟩ (callFrame no a1 a2 a3 a4 a5)

instance neZero_page8 : NeZero 9 := ⟨by decide⟩

/-- The pages of a small machine. -/
def page8 (n : Fin 9) : Ppn (Machine.withFree 8) := n

/-- A machine that has booted one program. -/
def oneProgram : Option (Kern (Machine.withFree 8)) := next (envInit (Kern.fresh 8)) (.create .bare)

/-- Two programs, of which processor 0 runs the first. -/
def twoPrograms : Option (Kern (Machine.withFree 8)) :=
  [.create .bare, .create .bare, .sched 0].foldlM next (envInit (Kern.fresh 8))

end Jos
