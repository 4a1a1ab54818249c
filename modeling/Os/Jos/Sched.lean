/-
Scheduling: `env_run` and `env_destroy` of `kern/env.c`, and `kern/sched.c`.

None of `env_run`, `sched_yield` and `sched_halt` returns.  The state each gives is
the one in which the processor has left the kernel: in user mode, or halted.  When
no environment is left `sched_halt` stays in the kernel monitor with the kernel
lock held, and so no processor ever does anything again; that is a `none`.
-/
import Os.Jos.Env

namespace Jos

variable {M : Machine}

/-- The start of `env_run`: an environment that was running goes back to being runnable. -/
def preempt (s : Kern M) (c : CpuIdx) : Kern M :=
  match s.curenv c with
  | none => s
  | some k => if (s.envs k).envStatus = .running then s.setStatus k .runnable else s

/-- `env_run`, with `env_pop_tf`. -/
def envRun (s : Kern M) (c : CpuIdx) (e : EnvIdx) : Option (Kern M) :=
  let s := (preempt s c).setCurenv c (some e)
  let s := s.modifyEnv e fun v => { v with envStatus := .running, envRuns := v.envRuns + 1 }
  match (s.envs e).envPgdir with
  | none => none
  | some d => some ((s.setCr3 c d).modifyEnv e fun v => { v with envCpunum := c })

def schedHalt (s : Kern M) (c : CpuIdx) : Option (Kern M) :=
  if ∃ i, (s.envs i).envStatus = .runnable ∨ (s.envs i).envStatus = .running ∨
      (s.envs i).envStatus = .dying then
    some ((s.setCurenv c none).setCpuStatus c .halted)
  else none

/-- Where the search of `sched_yield` starts. -/
def startid (s : Kern M) (c : CpuIdx) : EnvIdx :=
  match s.curenv c with
  | none => 0
  | some k => envx (s.envs k).envId

/-- The first runnable slot, going round from `start`. -/
def findRunnable (s : Kern M) (start : EnvIdx) : Option EnvIdx :=
  ((List.finRange nenv).map fun i => start + i).find? fun k => (s.envs k).envStatus = .runnable

def schedYield (s : Kern M) (c : CpuIdx) : Option (Kern M) :=
  match findRunnable s (startid s c) with
  | some k => envRun s c k
  | none =>
    let k := startid s c
    if (s.envs k).envStatus = .running ∧ (s.envs k).envCpunum = c then envRun s c k
    else schedHalt s c

def envDestroy (s : Kern M) (c : CpuIdx) (e : EnvIdx) : Option (Flow M Unit) :=
  if (s.envs e).envStatus = .running ∧ s.curenv c ≠ some e then
    some (.ret () (s.setStatus e .dying))
  else
    match envFree s e with
    | none => none
    | some s =>
      if s.curenv c = some e then
        match schedYield (s.setCurenv c none) c with
        | none => none
        | some s => some (.left s)
      else some (.ret () s)

end Jos
