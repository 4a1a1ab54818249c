/-
The kernel as a machine that takes one step after another.

There are two granularities.  `Op` calls single functions of the kernel, one at a
time and in any order, which is what the bookkeeping of pages and environments has
to withstand.  `Event` is what can happen to a running machine: an environment is
created, an idle processor looks for work, a user program stores a byte, or a
processor traps into the kernel, does there what `trap` does, and leaves.  The
kernel lock makes each of these atomic.

In both an action that panics, faults or ends in the kernel monitor has no next
state.
-/
import Os.Jos.Syscall

namespace Jos

variable {M : Machine}

/-! ### Function by function -/

inductive Op
  | envAlloc (parentId : Word)
  | regionAlloc (e : EnvIdx) (va len : Word)
  | sysExofork (c : CpuIdx)
  | sysPageAlloc (c : CpuIdx) (envid va perm : Word)
  | sysPageMap (c : CpuIdx) (srcenvid srcva dstenvid dstva perm : Word)
  | sysPageUnmap (c : CpuIdx) (envid va : Word)
  | envDestroy (c : CpuIdx) (e : EnvIdx)
  | envFree (e : EnvIdx)
  /-- Whatever environment `curenv` may name when the next call is made. -/
  | setCurenv (c : CpuIdx) (k : Option EnvIdx)

/-- The state a flow leaves, whether or not the function returned. -/
def Flow.state {α : Type} : Flow M α → Kern M
  | .ret _ s => s
  | .left s => s

def Op.apply (s : Kern M) : Op → Option (Kern M)
  | .envAlloc parentId => some (Jos.envAlloc s parentId).2
  | .regionAlloc e va len => Jos.regionAlloc s e va len
  | .sysExofork c => (Jos.sysExofork s c).map (·.2)
  | .sysPageAlloc c envid va perm => (Jos.sysPageAlloc s c envid va perm).map (·.2)
  | .sysPageMap c srcenvid srcva dstenvid dstva perm =>
    (Jos.sysPageMap s c srcenvid srcva dstenvid dstva perm).map (·.2)
  | .sysPageUnmap c envid va => (Jos.sysPageUnmap s c envid va).map (·.2)
  | .envDestroy c e => (Jos.envDestroy s c e).map Flow.state
  | .envFree e => Jos.envFree s e
  | .setCurenv c k => some (s.setCurenv c k)

/-! ### Event by event -/

/-- A program the boot code loads: linked below `UTOP`, as everything under `user/` is. -/
structure Image where
  elf : Elf
  belowUtop : ∀ ph ∈ elf.phdrs, ph.pType = elfProgLoad →
    ph.pVa.toNat + ph.pMemsz.toNat ≤ utop.toNat
  fileszLe : ∀ ph ∈ elf.phdrs, ph.pType = elfProgLoad → ph.pFilesz.toNat ≤ ph.pMemsz.toNat

inductive Event
  /-- `env_create`, from `i386_init`. -/
  | create (img : Image)
  /-- `sched_yield` on a processor that runs nothing: the end of `i386_init` and of `mp_main`. -/
  | sched (c : CpuIdx)
  /-- A trap from user mode. -/
  | trap (c : CpuIdx) (o : Outside) (tf : Trapframe)
  /-- The program running on `c` stores a byte. -/
  | store (c : CpuIdx) (va : Word) (b : BitVec 8)

/-- The processor that takes the step; programs are created while the machine boots. -/
def Event.cpu : Event → Option CpuIdx
  | .create _ => none
  | .sched c => some c
  | .trap c _ _ => some c
  | .store c _ _ => some c

/-- A store in user mode, through the directory in `%cr3`.  That is the environment's own, unless
another processor has freed the environment meanwhile.  The half above `UTOP` of an environment's
directory is read-only to user programs; in a page that has been freed anything may stand there. -/
def userStore (s : Kern M) (c : CpuIdx) (va : Word) (b : BitVec 8) : Option (Kern M) :=
  match s.curenv c with
  | none => none
  | some e =>
    match s.cr3 c with
    | none => none
    | some d =>
      if (s.envs e).envPgdir = some d ∧ utop ≤ va then none
      else
        match translate s.pm d (pteP ||| pteW ||| pteU) va with
        | none => none
        | some p =>
          let w := s.pm.load (p, wordIdx va)
          some { s with pm := s.pm.store (p, wordIdx va) (setByte w (va &&& 3).toNat b) }

def next (s : Kern M) : Event → Option (Kern M)
  | .create img => envCreate s img.elf .user
  | .sched c => if s.curenv c = none then schedYield s c else none
  | .trap c o tf => if tf.tfCs &&& 3 = 3 then Jos.trap s c o tf else none
  | .store c va b => userStore s c va b

end Jos
