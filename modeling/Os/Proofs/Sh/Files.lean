/-
What a redirection leaves in its file.

The program writes from the beginning of the file, and what was there behind stays.
-/
import Os.Sh.Files
import Os.Proofs.Sh.Parsecmd
import Os.Proofs.Sh.Runcmd

namespace Sh

open List Function

variable {α β : Type} [DecidableEq α] {s : Holder α β} {file : α} {nofile : Nat}
variable {old w b : List UInt8}

/-- Descriptor 1 is a file that held `old`, and `w` has been written to it. -/
structure Writing (file : α) (old w : List UInt8) (s : Holder α β) : Prop where
  table : s.table 1 = some (.named file .wronlyCreat)
  offset : s.offset 1 = w.length
  disk : s.disk file = some (w ++ old.drop w.length)

theorem Writing.write (h : Writing file old w s) (b : List UInt8) :
    Writing file old (w ++ b) (s.write 1 b) := by
  simp only [Holder.write, h.table, h.disk, h.offset]
  refine ⟨h.table, by simp, ?_⟩
  simp [drop_append]

theorem Writing.writes (h : Writing file old w s) (bs : List (List UInt8)) :
    Writing file old (w ++ bs.flatten) (bs.foldl (Holder.write 1) s) := by
  induction bs generalizing w s with
  | nil => simpa using h
  | cons b bs ih => simpa using ih (h.write b)

/-- `runcmd` opens the file as descriptor 1, and leaves in it what it held. -/
theorem Holder.runcmd_redir (file : α) (h0 : s.table 0 ≠ none) (hn : 1 < nofile) (π : Path)
    (argv : List α) :
    ∃ s', runcmd nofile (.redir (.exec argv) file .wronlyCreat 1) π s = some (s', argv) ∧
      Writing file ((s.disk file).getD []) [] s' := by
  have hlow : (s.table.close 1).lowest nofile = some 1 := by
    refine Table.lowest_close hn fun m hm => ?_
    rwa [Nat.lt_one_iff.mp hm]
  refine ⟨⟨update (s.table.close 1) 1 (some (.named file .wronlyCreat)), update s.offset 1 0,
    update s.disk file (some ((s.disk file).getD []))⟩, ?_, ?_⟩
  · simp [runcmd, Sh.runcmd, instr, openFile, hlow]
  · constructor <;> simp

theorem append_drop_eq_append_iff :
    b ++ old.drop b.length = old ++ b ↔ old = [] ∨ b = [] := by
  constructor
  · intro h
    have hlen := congrArg length h
    simp only [length_append, length_drop] at hlen
    rw [← length_eq_zero_iff, ← length_eq_zero_iff]
    omega
  · rintro (rfl | rfl)
    · simp
    · simp

/-- A simple command whose last token is a redirection. -/
theorem line_redir (ws : List (List UInt8)) (v : List UInt8) (r : Redir)
    (hargs : ws.length + 1 < maxargs) :
    Line ((ws ++ [v]).map .word ++ r.tokens) (r.wrap (.exec (ws ++ [v]))) := by
  have hexec := Exec.simple [] (ws.map (⟨·, []⟩) ++ [⟨v, [r]⟩]) (by simpa using hargs)
  have hnone : ws.flatMap (fun _ => ([] : List Redir)) = [] := flatMap_eq_nil_iff.mpr fun _ _ => rfl
  simpa [Arg.tokens, flatMap_map, wrap, comp_def, ← map_eq_flatMap, hnone] using
    Line.last 0 (.last hexec)

/-- **Redirected output**: `c > f` leaves in `f` what the command wrote if and only if that is at
least as long as what `f` held, and `c >> f` appends it if and only if `f` held nothing or nothing
is written. -/
theorem redirection_iff (line : CString) (ws : List (List UInt8)) (v file : List UInt8)
    {op : RedirOp} (hop : op = .gt ∨ op = .gtgt) (hargs : ws.length + 1 < maxargs)
    (hline : tokens line.chars = (ws ++ [v]).map .word ++ [.redir op, .word file])
    {s : Holder (List UInt8) β} (h0 : s.table 0 ≠ none) (hn : 1 < nofile)
    (bs : List (List UInt8)) :
    ∃ mem c s', parsecmd line = .ok (mem, c) ∧
      Holder.runcmd nofile (c.strings mem line.es) [] s = some (s', ws ++ [v]) ∧
      ((bs.foldl (Holder.write 1) s').disk file =
          some (if op = .gt then bs.flatten else (s.disk file).getD [] ++ bs.flatten) ↔
        if op = .gt then ((s.disk file).getD []).length ≤ bs.flatten.length
        else s.disk file = none ∨ s.disk file = some [] ∨ bs.flatten = []) := by
  have hgram := line_redir ws v ⟨op, file⟩ hargs
  rw [Redir.tokens, ← hline] at hgram
  obtain ⟨mem, c, hparse, htree⟩ := parsecmd_complete hgram
  obtain ⟨s', hrun, hopen⟩ := Holder.runcmd_redir file h0 hn [] (ws ++ [v])
  refine ⟨mem, c, s', hparse, ?_, ?_⟩
  · rw [htree]
    rcases hop with rfl | rfl
    · exact hrun
    · exact hrun
  rw [(hopen.writes bs).disk, nil_append, Option.some_inj]
  split
  next => rw [append_right_eq_self, drop_eq_nil_iff]
  next =>
    rw [append_drop_eq_append_iff]
    cases s.disk file <;> simp

/-- A shell with its three descriptors, and one file. -/
def shellHolder (f : Option (List UInt8)) : Holder (List UInt8) Unit :=
  ⟨fun n => if n < 3 then some (.given ()) else none, fun _ => 0,
    fun file => if file = bytes "f" then f else none⟩

/-- A file that was not there. -/
theorem redirection_new : ∃ mem c s', parsecmd ⟨bytes "c >f", by decide⟩ = .ok (mem, c) ∧
    Holder.runcmd 16 (c.strings mem 4) [] (shellHolder none) = some (s', [bytes "c"]) ∧
    ([[120], [121]].foldl (Holder.write 1) s').disk (bytes "f") = some [120, 121] := by
  obtain ⟨mem, c, s', hparse, hrun, hiff⟩ := redirection_iff ⟨bytes "c >f", by decide⟩ []
    (bytes "c") (bytes "f") (.inl rfl) (by decide) (by decide +kernel) (s := shellHolder none)
    (by decide) (by decide : 1 < 16) [[120], [121]]
  exact ⟨mem, c, s', hparse, hrun, hiff.mpr (by decide)⟩

/-- What a command that writes `x` leaves in a file that held `old`. -/
def afterOld (line : CString) : Option (List UInt8) := do
  let r ← (parsecmd line).toOption
  let t ← Holder.runcmd 16 (r.2.strings r.1 line.es) [] (shellHolder (some (bytes "old")))
  (t.1.write 1 (bytes "x")).disk (bytes "f")

/-- The end of a longer file stays, whether it should be replaced or appended to. -/
theorem redirection_keeps_end : afterOld ⟨bytes "c >f", by decide⟩ = some (bytes "xld") ∧
    afterOld ⟨bytes "c >>f", by decide⟩ = some (bytes "xld") := by
  decide +kernel

end Sh
