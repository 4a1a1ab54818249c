/-
A pipe is a queue.

The bytes between the two counters are in the buffer, in the order they were stored, and
this survives the wrap of the counters because 512 divides 2³².  Each call moves its own
bytes one at a time while it holds the lock, so what it has moved is known from where it
is in its loop, whatever other calls do while it sleeps.
-/
import Os.Lib.Runs
import Os.Xv6.Pipe

namespace Xv6

open List
open RingBuffer (Ring Tracks)
open Runs (Run)
open Function

variable {s s' s0 : PipeState} {c : Nat}

/-- The bytes that a call has moved, in order. -/
def bytesOf (c : Nat) (l : List (Nat × Byte)) : List Byte := (l.filter fun x => x.1 = c).map (·.2)

theorem bytesOf_self (c : Nat) (l : List (Nat × Byte)) (b : Byte) :
    bytesOf c (l ++ [(c, b)]) = bytesOf c l ++ [b] := by
  simp [bytesOf]

theorem bytesOf_of_ne {c' : Nat} (h : c' ≠ c) (l : List (Nat × Byte)) (b : Byte) :
    bytesOf c (l ++ [(c', b)]) = bytesOf c l := by
  simp [bytesOf, h]

/-- The pipe as a ring buffer. -/
def Pipe.ring (p : Pipe) : Ring Byte pipesize 32 := ⟨p.data, p.nread, p.nwrite⟩

/-- What a call has moved fits where it is. -/
def Moved (stored fetched : List Byte) : PipeCall → Prop
  | .fresh => stored = [] ∧ fetched = []
  | .writing addr i => i ≤ addr.length ∧ stored = addr.take i ∧ fetched = []
  | .wrote addr i => i ≤ addr.length ∧ stored = addr.take i ∧ fetched = []
  | .waiting _ => stored = [] ∧ fetched = []
  | .reading n got => got.length ≤ n ∧ stored = [] ∧ fetched = got
  | .got bytes => stored = [] ∧ fetched = bytes

structure PipeInv (s : PipeState) : Prop where
  ring : Tracks s.pipe.ring (s.stored.map (·.2)) (s.fetched.map (·.2))
  moved : ∀ c, Moved (bytesOf c s.stored) (bytesOf c s.fetched) (s.calls c)

theorem pipesize_dvd : pipesize ∣ 2 ^ 32 := by decide

theorem pipesize_lt : pipesize < 2 ^ 32 := by decide

namespace PipeInv

section

variable (h : PipeInv s)
include h

theorem moved_of {x : PipeCall} (hc : s.calls c = x) :
    Moved (bytesOf c s.stored) (bytesOf c s.fetched) x := by
  rw [← hc]
  exact h.moved c

theorem alter {x : PipeCall} {lock : Option Nat}
    (hx : Moved (bytesOf c s.stored) (bytesOf c s.fetched) x) :
    PipeInv { s with lock := lock, calls := update s.calls c x } := by
  refine ⟨h.ring, fun c' => ?_⟩
  show Moved _ _ (update s.calls c x c')
  by_cases hc : c' = c
  · rw [hc, update_self]
    exact hx
  · rw [update_of_ne hc]
    exact h.moved c'

/-- **A byte is stored.** -/
theorem put {addr : List Byte} {i : Nat} {b : Byte}
    (hc : s.calls c = .writing addr i) (hb : addr[i]? = some b)
    (hroom : s.pipe.nwrite ≠ s.pipe.nread + BitVec.ofNat 32 pipesize) :
    PipeInv ((s.put c b).goOn c (.writing addr (i + 1))) := by
  have hlt : i < addr.length := (List.getElem?_eq_some_iff.mp hb).1
  obtain ⟨-, hstored, hfetched⟩ := h.moved_of hc
  refine ⟨?_, fun c' => ?_⟩
  · show Tracks (s.pipe.ring.push b) ((s.stored ++ [(c, b)]).map (·.2)) (s.fetched.map (·.2))
    rw [map_append, map_singleton]
    refine h.ring.push pipesize_dvd ?_
    have hne : (s.stored.map (·.2)).length ≠ (s.fetched.map (·.2)).length + pipesize :=
      fun heq => hroom ((h.ring.full_iff pipesize_lt).mpr heq)
    have hfits := h.ring.fits
    omega
  · show Moved (bytesOf c' (s.stored ++ [(c, b)])) (bytesOf c' s.fetched)
      (update s.calls c (.writing addr (i + 1)) c')
    by_cases hcc : c' = c
    · subst hcc
      rw [update_self, bytesOf_self, hstored]
      refine ⟨hlt, ?_, hfetched⟩
      rw [take_add_one, hb]
      rfl
    · rw [update_of_ne hcc, bytesOf_of_ne (Ne.symm hcc)]
      exact h.moved c'

/-- **A byte is fetched.** -/
theorem take {n : Nat} {got : List Byte} (hc : s.calls c = .reading n got)
    (hlt : got.length < n) (hsome : s.pipe.nread ≠ s.pipe.nwrite) :
    PipeInv ((s.take c).goOn c (.reading n (got ++ [s.next]))) := by
  obtain ⟨-, hstored, hfetched⟩ := h.moved_of hc
  refine ⟨?_, fun c' => ?_⟩
  · show Tracks s.pipe.ring.pop (s.stored.map (·.2)) ((s.fetched ++ [(c, s.next)]).map (·.2))
    rw [map_append, map_singleton]
    refine h.ring.pop pipesize_dvd ?_
    have hne : (s.fetched.map (·.2)).length ≠ (s.stored.map (·.2)).length :=
      fun heq => hsome ((h.ring.empty_iff pipesize_lt).mpr heq)
    have hle := h.ring.done.length_le
    omega
  · show Moved (bytesOf c' s.stored) (bytesOf c' (s.fetched ++ [(c, s.next)]))
      (update s.calls c (.reading n (got ++ [s.next])) c')
    by_cases hcc : c' = c
    · subst hcc
      rw [update_self, bytesOf_self, hfetched]
      refine ⟨?_, hstored, rfl⟩
      rw [length_append, length_singleton]
      exact hlt
    · rw [update_of_ne hcc, bytesOf_of_ne (Ne.symm hcc)]
      exact h.moved c'

theorem turn {killed : Bool} (hs : pipeStep s (.turn c killed) = some s') :
    PipeInv s' := by
  obtain ⟨-, hs⟩ := Option.ite_none_right_eq_some.mp hs
  split at hs
  · rename_i addr i hc
    cases hs
    have hm := h.moved_of hc
    unfold pipewriteTurn
    split
    · exact h.alter hm
    rename_i b hb
    split
    · split
      · exact h.alter hm
      · exact h.alter hm
    · rename_i hroom
      exact h.put hc hb hroom
  · rename_i n hc
    cases hs
    have hm := h.moved_of hc
    unfold pipereadWait
    split
    · split
      · exact h.alter hm
      · exact h.alter hm
    · exact h.alter ⟨Nat.zero_le _, hm.1, hm.2⟩
  · rename_i n got hc
    cases hs
    unfold pipereadTurn
    split
    · rename_i hmore
      exact h.take hc hmore.1 hmore.2
    · exact h.alter (h.moved_of hc).2
  · simp at hs

/-- **One step.** -/
theorem step {a : PipeAct} (hs : pipeStep s a = some s') : PipeInv s' := by
  cases a with
  | write c addr =>
    rw [pipeStep] at hs
    split at hs
    · rename_i hc
      cases hs
      have hm := h.moved_of hc
      exact h.alter ⟨Nat.zero_le _, hm.1, hm.2⟩
    · simp at hs
  | read c n =>
    rw [pipeStep] at hs
    split at hs
    · rename_i hc
      cases hs
      have hm := h.moved_of hc
      exact h.alter hm
    · simp at hs
  | wake c =>
    rw [pipeStep] at hs
    split at hs
    · cases hs
      exact ⟨h.ring, h.moved⟩
    · cases hs
      exact ⟨h.ring, h.moved⟩
    · simp at hs
  | turn c killed => exact h.turn hs
  | close writable =>
    obtain ⟨-, rfl⟩ := Option.ite_some_none_eq_some.mp hs
    refine ⟨?_, h.moved⟩
    cases writable
    · exact ⟨h.ring.nwrite, h.ring.nread, h.ring.done, h.ring.fits, h.ring.data⟩
    · exact ⟨h.ring.nwrite, h.ring.nread, h.ring.done, h.ring.fits, h.ring.data⟩

end

end PipeInv

/-! ### Whole runs -/

/-- What `pipealloc` makes, before the first call. -/
structure FreshPipe (s : PipeState) : Prop where
  nread : s.pipe.nread = 0
  nwrite : s.pipe.nwrite = 0
  calls : ∀ c, s.calls c = .fresh
  stored : s.stored = []
  fetched : s.fetched = []

theorem FreshPipe.inv (h : FreshPipe s) : PipeInv s := by
  refine ⟨?_, fun c => ?_⟩
  · rw [h.stored, h.fetched]
    refine ⟨h.nwrite, h.nread, prefix_refl _, Nat.zero_le _, ?_⟩
    intro j a _ hj
    simp at hj
  · rw [h.calls c, h.stored, h.fetched]
    exact ⟨rfl, rfl⟩

/--
**A pipe is a FIFO** for any number of readers and writers: the counters are at most
`PIPESIZE` apart however often they have wrapped, the bytes fetched are the first of the
bytes stored, and each call has stored the first bytes of its buffer, or returns the bytes
it fetched, in order.
-/
theorem pipe_is_fifo (h0 : FreshPipe s0) (h : Run pipeStep (fun _ _ => True) s0 s) :
    (s.pipe.nwrite - s.pipe.nread).toNat ≤ pipesize ∧
      s.fetched.map (·.2) <+: s.stored.map (·.2) ∧
      ∀ c, Moved (bytesOf c s.stored) (bytesOf c s.fetched) (s.calls c) := by
  have hinv : PipeInv s := h.inv h0.inv fun _ _ _ hi _ hstep => hi.step hstep
  refine ⟨?_, hinv.ring.done, hinv.moved⟩
  have hsub : (s.pipe.nwrite - s.pipe.nread).toNat
      = (s.stored.map (·.2)).length - (s.fetched.map (·.2)).length :=
    hinv.ring.toNat_sub pipesize_lt
  have hfits := hinv.ring.fits
  omega

/-- A writer of 513 bytes fills the buffer and sleeps, is overtaken by a reader of one byte, and
goes on. -/
def overtaken : List PipeAct :=
  .write 0 (List.replicate 513 7) :: List.replicate 513 (.turn 0 false) ++
    [.read 1 1, .turn 1 false, .turn 1 false, .turn 1 false, .wake 0, .turn 0 false, .turn 0 false]

def freshPipe : PipeState := ⟨⟨fun _ => 0, 0, 0, true, true⟩, none, fun _ => .fresh, [], []⟩

theorem pipe_is_fifo_overtaken :
    (overtaken.foldlM pipeStep freshPipe).map (fun s => (s.fetched, s.stored.length)) =
      some ([(1, 7)], 513) ∧
    ∀ s, overtaken.foldlM pipeStep freshPipe = some s →
      (s.pipe.nwrite - s.pipe.nread).toNat ≤ pipesize ∧
        s.fetched.map (·.2) <+: s.stored.map (·.2) ∧
        ∀ c, Moved (bytesOf c s.stored) (bytesOf c s.fetched) (s.calls c) :=
  ⟨by decide +kernel, fun _ h => pipe_is_fifo ⟨rfl, rfl, fun _ => rfl, rfl, rfl⟩
    (.of_foldlM h fun _ _ _ => trivial)⟩

end Xv6
