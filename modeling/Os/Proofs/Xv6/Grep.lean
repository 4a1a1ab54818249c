/-
What `grep` matches and what it writes.

The matcher finds a part of the text that is a word of the pattern.  The lines of the input are
written whole and in order if no newline comes after a read without one: where the buffer holds no
newline, `grep` forgets it.  A NUL in the buffer hides the newlines behind it.
-/
import Os.Xv6.Grep

namespace Grep

open List

variable {c : UInt8} {re text line p q pattern : List UInt8}

/-! ### The matcher -/

/-- The character `c` of a pattern stands for `x`. -/
abbrev Fits (c x : UInt8) : Prop := c = dot ∨ c = x

/-- The words of a pattern without its `^`, and without the `$` at its end. -/
def Word : List UInt8 → List UInt8 → Prop
  | [], w => w = []
  | [c], w => if c = dollar then w = [] else ∃ x, Fits c x ∧ w = [x]
  | c :: d :: re, w =>
    if d = star then ∃ a b, w = a ++ b ∧ (∀ x ∈ a, Fits c x) ∧ Word re b
    else ∃ x b, w = x :: b ∧ Fits c x ∧ Word (d :: re) b

/-- The pattern ends in a `$` that is not starred. -/
def AtEnd : List UInt8 → Prop
  | [] => False
  | [c] => c = dollar
  | _ :: d :: re => if d = star then AtEnd re else AtEnd (d :: re)

/-- The text starts with a word of the pattern. -/
def Begins (re text : List UInt8) : Prop :=
  ∃ w post, text = w ++ post ∧ Word re w ∧ (AtEnd re → post = [])

theorem matchone_iff {rest : List UInt8 → Bool} : matchone c rest text = true ↔
    ∃ x b, text = x :: b ∧ Fits c x ∧ rest b = true := by
  cases text with
  | nil => simp [matchone]
  | cons t text =>
    simp only [matchone, Bool.and_eq_true, Bool.or_eq_true, decide_eq_true_iff]
    refine ⟨fun h => ⟨t, text, rfl, h⟩, ?_⟩
    rintro ⟨x, b, heq, h⟩
    cases heq
    exact h

theorem matchstar_iff {here : List UInt8 → Bool} : matchstar c here text = true ↔
    ∃ a b, text = a ++ b ∧ (∀ x ∈ a, Fits c x) ∧ here b = true := by
  have hfits : ∀ x, (x = c || c = dot) = true ↔ Fits c x := by
    intro x
    rw [Bool.or_eq_true, decide_eq_true_iff, decide_eq_true_iff, eq_comm, or_comm]
  induction text with
  | nil => simp [matchstar]
  | cons t text ih =>
    simp only [matchstar, Bool.or_eq_true, Bool.and_eq_true, ih, hfits]
    constructor
    · rintro (h | ⟨ht, a, b, rfl, ha, hb⟩)
      · exact ⟨[], t :: text, rfl, nofun, h⟩
      · exact ⟨t :: a, b, rfl, forall_mem_cons.mpr ⟨ht, ha⟩, hb⟩
    · rintro ⟨_ | ⟨x, a⟩, b, heq, ha, hb⟩
      · exact .inl (heq ▸ hb)
      · cases heq
        obtain ⟨hx, ha⟩ := forall_mem_cons.mp ha
        exact .inr ⟨hx, a, b, rfl, ha, hb⟩

theorem matchhere_iff : matchhere re text = true ↔ Begins re text := by
  induction re using AtEnd.induct generalizing text with
  | case1 => simp [matchhere, Begins, Word, AtEnd]
  | case2 c =>
    by_cases hc : c = dollar
    · simp [matchhere, Begins, Word, AtEnd, hc]
    rw [matchhere, if_neg hc, matchone_iff]
    simp only [Begins, Word, AtEnd, hc, if_false, false_implies, and_true, matchhere]
    constructor
    · rintro ⟨x, b, rfl, hx⟩
      exact ⟨[x], b, rfl, x, hx, rfl⟩
    · rintro ⟨_, b, rfl, x, hx, rfl⟩
      exact ⟨x, b, rfl, hx⟩
  | case3 c re ih =>
    rw [matchhere, if_pos rfl, matchstar_iff]
    simp only [ih, Begins, Word, AtEnd, if_true]
    constructor
    · rintro ⟨a, _, rfl, ha, b, post, rfl, hb, hend⟩
      exact ⟨a ++ b, post, (append_assoc ..).symm, ⟨a, b, rfl, ha, hb⟩, hend⟩
    · rintro ⟨_, post, rfl, ⟨a, b, rfl, ha, hb⟩, hend⟩
      exact ⟨a, b ++ post, append_assoc .., ha, b, post, rfl, hb, hend⟩
  | case4 c d re hd ih =>
    rw [matchhere, if_neg hd, matchone_iff]
    simp only [ih, Begins, Word, AtEnd, if_neg hd]
    constructor
    · rintro ⟨x, _, rfl, hx, b, post, rfl, hb, hend⟩
      exact ⟨x :: b, post, rfl, ⟨x, b, rfl, hx, hb⟩, hend⟩
    · rintro ⟨_, post, rfl, ⟨x, b, rfl, hx, hb⟩, hend⟩
      exact ⟨x, b ++ post, rfl, hx, b, post, rfl, hb, hend⟩

theorem matchLoop_iff :
    matchLoop re text = true ↔ ∃ pre rest, text = pre ++ rest ∧ Begins re rest := by
  induction text with
  | nil => simp [matchLoop, matchhere_iff]
  | cons t text ih =>
    rw [matchLoop, Bool.or_eq_true, matchhere_iff, ih]
    constructor
    · rintro (h | ⟨pre, rest, rfl, h⟩)
      · exact ⟨[], t :: text, rfl, h⟩
      · exact ⟨t :: pre, rest, rfl, h⟩
    · rintro ⟨_ | ⟨x, pre⟩, rest, heq, h⟩
      · exact .inl (heq ▸ h)
      · cases heq
        exact .inr ⟨pre, rest, rfl, h⟩

/-- The pattern without its `^`. -/
def body (re : List UInt8) : List UInt8 := if re.head? = some caret then re.tail else re

/-- **The matcher finds what the pattern denotes**: a part of the text, which is at its start
after a `^` and at its end before a `$`. -/
theorem matchText_iff (re text : List UInt8) : matchText re text = true ↔
    ∃ pre w post, text = pre ++ w ++ post ∧ Word (body re) w ∧
      (re.head? = some caret → pre = []) ∧ (AtEnd (body re) → post = []) := by
  have hmatch : matchText re text = true ↔ ∃ pre rest, text = pre ++ rest ∧
      Begins (body re) rest ∧ (re.head? = some caret → pre = []) := by
    cases re with
    | nil => simp [matchText, matchLoop_iff, body]
    | cons c re =>
      by_cases hc : c = caret
      · simp [matchText, matchhere_iff, body, hc]
      · simp [matchText, matchLoop_iff, body, hc]
  rw [hmatch]
  constructor
  · rintro ⟨pre, _, rfl, ⟨w, post, rfl, hw, hend⟩, hpre⟩
    exact ⟨pre, w, post, (append_assoc ..).symm, hw, hpre, hend⟩
  · rintro ⟨pre, w, post, rfl, hw, hpre, hend⟩
    exact ⟨pre, w ++ post, append_assoc .., ⟨w, post, rfl, hw, hend⟩, hpre⟩

/-! ### Lines that arrive in pieces -/

/-- The lines that end in `p`, where `line` comes before it. -/
def lines : List UInt8 → List UInt8 → List (List UInt8)
  | _, [] => []
  | line, c :: cs => if c = newline then line :: lines [] cs else lines (line ++ [c]) cs

/-- The lines that match, with their newlines. -/
def accepted (pattern : List UInt8) (ls : List (List UInt8)) : List UInt8 :=
  (ls.filter (matchText pattern)).flatMap (· ++ [newline])

/-- No newline comes after a NUL. -/
def NulsLast (text : List UInt8) : Prop := ∀ a b, text = a ++ 0 :: b → newline ∉ b

/-- No newline comes after a read without one, nor after a NUL. -/
structure Kept (chunks : List (List UInt8)) : Prop where
  reads : ∀ pre chunk post, chunks = pre ++ chunk :: post → newline ∉ chunk →
    newline ∉ post.flatten
  nuls : NulsLast chunks.flatten

theorem NulsLast.of_append (h : NulsLast (p ++ q)) : NulsLast q := by
  rintro a b rfl
  exact h (p ++ a) b (append_assoc ..).symm

/-- A newline has no NUL before it. -/
theorem NulsLast.notMem {a b : List UInt8} (h : NulsLast (p ++ (a ++ newline :: b ++ q))) :
    0 ∉ p ++ a ∧ NulsLast (b ++ q) := by
  have hsplit : p ++ (a ++ newline :: b ++ q) = (p ++ a ++ [newline]) ++ (b ++ q) := by simp
  refine ⟨fun hp => ?_, (hsplit ▸ h).of_append⟩
  obtain ⟨c, d, hcd⟩ := mem_iff_append.mp hp
  refine h c (d ++ [newline] ++ (b ++ q)) ?_ (by simp)
  rw [hsplit, hcd]
  simp

theorem last_newline (h : newline ∈ p) : ∃ a b, p = a ++ newline :: b ∧ newline ∉ b := by
  induction p with
  | nil => exact absurd h not_mem_nil
  | cons c cs ih =>
    by_cases hcs : newline ∈ cs
    · obtain ⟨a, b, rfl, hb⟩ := ih hcs
      exact ⟨c :: a, b, rfl, hb⟩
    · obtain rfl : newline = c := (mem_cons.mp h).resolve_right hcs
      exact ⟨[], cs, rfl, hcs⟩

/-! #### What the lines are -/

theorem lines_of_notMem (hp : newline ∉ p) : lines line (p ++ q) = lines (line ++ p) q := by
  induction p generalizing line with
  | nil => rw [nil_append, append_nil]
  | cons c cs ih =>
    obtain ⟨hc, hcs⟩ := ne_and_not_mem_of_not_mem_cons hp
    rw [cons_append, lines, if_neg hc.symm, ih hcs, append_cons line c cs]

theorem lines_eq_nil (hp : newline ∉ p) : lines line p = [] := by
  have h : lines line (p ++ []) = lines (line ++ p) [] := lines_of_notMem hp
  rwa [append_nil] at h

theorem lines_newline :
    lines line (p ++ newline :: q) = lines line (p ++ [newline]) ++ lines [] q := by
  induction p generalizing line with
  | nil => simp [lines]
  | cons c cs ih =>
    rw [cons_append, cons_append, lines, lines]
    split
    · rw [ih, cons_append]
    · exact ih

theorem accepted_append (ls ls' : List (List UInt8)) :
    accepted pattern (ls ++ ls') = accepted pattern ls ++ accepted pattern ls' := by
  simp [accepted]

theorem matchText_nil (text : List UInt8) : matchText [] text = true := by
  cases text <;> simp [matchText, matchLoop, matchhere]

/-- Every line matches the empty pattern. -/
theorem accepted_nil : accepted [] (lines line (p ++ [newline])) = line ++ p ++ [newline] := by
  induction p generalizing line with
  | nil => simp [lines, accepted, matchText_nil]
  | cons c cs ih =>
    rw [cons_append, lines]
    split
    next hc =>
      have hrest : accepted [] (lines [] (cs ++ [newline])) = [] ++ cs ++ [newline] := ih
      rw [← singleton_append, accepted_append, hrest, hc]
      simp [accepted, matchText_nil]
    next => rw [ih, append_assoc line, singleton_append]

theorem accepted_last {a b : List UInt8} (hb : newline ∉ b) :
    accepted pattern (lines p (a ++ newline :: b ++ q)) =
      accepted pattern (lines p (a ++ [newline])) ++ accepted pattern (lines b q) := by
  rw [append_assoc, cons_append, lines_newline, accepted_append, lines_of_notMem hb, nil_append]

theorem accepted_carried (hq : newline ∈ q) :
    accepted [] (lines line q) = line ++ accepted [] (lines [] q) := by
  obtain ⟨a, b, rfl⟩ := mem_iff_append.mp hq
  rw [lines_newline, accepted_append, accepted_nil, lines_newline, accepted_append, accepted_nil]
  simp only [nil_append, append_assoc]

/-! #### One read -/

/-- Without a newline nothing is written. -/
theorem grepLines_of_notMem (hp : newline ∉ p) : grepLines pattern line p = ([], line ++ p) := by
  induction p generalizing line with
  | nil => rw [append_nil, grepLines]
  | cons c cs ih =>
    obtain ⟨hn, hns⟩ := ne_and_not_mem_of_not_mem_cons hp
    rw [grepLines]
    split
    · rfl
    · rw [if_neg hn.symm, ih hns, append_cons line c cs]

/-- What stays in the buffer is what comes after the last newline. -/
theorem grepLines_last (h : 0 ∉ p) (hq : newline ∉ q) :
    grepLines pattern line (p ++ newline :: q) =
      (accepted pattern (lines line (p ++ [newline])), q) := by
  have hout : ∀ line ls, (if matchText pattern line then line ++ [newline] else []) ++
      accepted pattern ls = accepted pattern (line :: ls) := by
    intro line ls
    by_cases hm : matchText pattern line = true <;> simp [accepted, hm]
  induction p generalizing line with
  | nil =>
    rw [nil_append, grepLines, if_neg (by decide), if_pos rfl, grepLines_of_notMem hq]
    exact Prod.ext (hout line []) rfl
  | cons c cs ih =>
    obtain ⟨hc, hcs⟩ := ne_and_not_mem_of_not_mem_cons h
    rw [cons_append, grepLines, if_neg hc.symm, cons_append, lines]
    split
    next =>
      rw [ih hcs]
      exact Prod.ext (hout line _) rfl
    next => exact ih hcs

section

variable {chunks : List (List UInt8)} {chunk : List UInt8} (hp : newline ∉ p)
include hp

theorem grep_cons_of_notMem (hc : newline ∉ chunk) :
    grep pattern p (chunk :: chunks) = grep pattern [] chunks := by
  have hno : newline ∉ p ++ chunk := by simp [hp, hc]
  rw [grep, grepLines_of_notMem hno]
  simp

theorem grep_cons_of_mem (h : 0 ∉ p ++ line) (hq : newline ∉ q) :
    grep pattern p ((line ++ newline :: q) :: chunks) =
      accepted pattern (lines p (line ++ [newline])) ++ grep pattern q chunks := by
  have hlines : lines [] (p ++ (line ++ [newline])) = lines ([] ++ p) (line ++ [newline]) :=
    lines_of_notMem hp
  rw [← append_assoc, nil_append] at hlines
  have hlen : q.length ≠ (p ++ line ++ newline :: q).length := by
    simp only [length_append, length_cons]
    omega
  rw [grep, ← append_assoc, grepLines_last h hq, hlines]
  dsimp only
  rw [if_neg hlen]

theorem grep_eq_nil (hc : newline ∉ chunks.flatten) : grep pattern p chunks = [] := by
  induction chunks generalizing p with
  | nil => rfl
  | cons chunk chunks ih =>
    rw [flatten_cons, mem_append, not_or] at hc
    rw [grep_cons_of_notMem hp hc.1]
    exact ih not_mem_nil hc.2

/-! #### All reads -/

/-- However the input comes, it is looked at as if it had come at once. -/
theorem grep_eq (hnul : NulsLast (p ++ chunks.flatten))
    (hreads : ∀ pre chunk post, chunks = pre ++ chunk :: post → newline ∉ chunk →
      newline ∉ post.flatten) :
    grep pattern p chunks = accepted pattern (lines p chunks.flatten) := by
  induction chunks generalizing p with
  | nil => rfl
  | cons chunk chunks ih =>
    by_cases hc : newline ∈ chunk
    · obtain ⟨a, b, rfl, hb⟩ := last_newline hc
      obtain ⟨h0, htail⟩ := hnul.notMem
      have hrest : ∀ pre c post, chunks = pre ++ c :: post → newline ∉ c →
          newline ∉ post.flatten := by
        rintro pre c post rfl
        exact hreads (_ :: pre) c post rfl
      rw [grep_cons_of_mem hp h0 hb, ih hb htail hrest, flatten_cons, accepted_last hb]
    · have hrest := hreads [] chunk chunks rfl hc
      have hall : newline ∉ (chunk :: chunks).flatten := by simp [hc, hrest]
      rw [grep_eq_nil hp hall, lines_eq_nil hall]
      rfl

/-- Under the pattern that every line matches, what is lost is missing. -/
theorem length_grep_le (hnul : NulsLast (p ++ chunks.flatten)) (hne : [] ∉ chunks) :
    (grep [] p chunks).length ≤ (accepted [] (lines p chunks.flatten)).length ∧
      ((grep [] p chunks).length = (accepted [] (lines p chunks.flatten)).length →
        ∀ pre chunk post, chunks = pre ++ chunk :: post → newline ∉ chunk →
          newline ∉ post.flatten) := by
  induction chunks generalizing p with
  | nil => exact ⟨Nat.zero_le _, fun _ pre chunk post heq => by simp at heq⟩
  | cons chunk chunks ih =>
    obtain ⟨hchunk, hne'⟩ := ne_and_not_mem_of_not_mem_cons hne
    rw [flatten_cons] at hnul ⊢
    by_cases hc : newline ∈ chunk
    · obtain ⟨a, b, rfl, hb⟩ := last_newline hc
      obtain ⟨h0, htail⟩ := hnul.notMem
      obtain ⟨hle, heq⟩ := ih hb htail hne'
      rw [grep_cons_of_mem hp h0 hb, accepted_last hb, length_append, length_append]
      refine ⟨Nat.add_le_add_left hle _, fun hlen pre c post hsplit hno => ?_⟩
      rcases pre with _ | ⟨d, pre⟩
      · cases hsplit
        exact absurd hc hno
      · exact heq (Nat.add_left_cancel hlen) pre c post (cons.inj hsplit).2 hno
    · obtain ⟨hle, -⟩ := ih not_mem_nil hnul.of_append.of_append hne'
      rw [grep_cons_of_notMem hp hc, lines_of_notMem hc]
      by_cases hrest : newline ∈ chunks.flatten
      · -- the first line has lost what came before
        have hpos := length_pos_iff.mpr hchunk.symm
        rw [accepted_carried hrest, length_append, length_append]
        exact ⟨by omega, fun heq => by omega⟩
      · rw [lines_eq_nil hrest, grep_eq_nil not_mem_nil hrest]
        refine ⟨Nat.le_refl _, fun _ pre c post hsplit _ hpost => hrest ?_⟩
        rcases pre with _ | ⟨d, pre⟩
        · cases hsplit
          exact hpost
        · obtain ⟨-, rfl⟩ := cons.inj hsplit
          simp [hpost]

end

/-- A NUL is never written. -/
theorem zero_notMem_grepLines (hline : 0 ∉ line) : 0 ∉ (grepLines pattern line p).1 := by
  induction p generalizing line with
  | nil => exact not_mem_nil
  | cons c cs ih =>
    rw [grepLines]
    split
    · exact not_mem_nil
    next hc =>
      split
      · have hrest : 0 ∉ (grepLines pattern [] cs).1 := ih not_mem_nil
        have hnl : (0 : UInt8) ≠ newline := by decide
        dsimp only
        split <;> simp [hline, hrest, hnl]
      · exact ih (by simp [hline, Ne.symm hc])

theorem zero_notMem_grep (chunks : List (List UInt8)) : 0 ∉ grep pattern p chunks := by
  induction chunks generalizing p with
  | nil => exact not_mem_nil
  | cons chunk chunks ih =>
    rw [grep]
    exact not_mem_append (zero_notMem_grepLines not_mem_nil) ih

/-- **`grep` writes the lines that match**, complete and in order, for every pattern, if and only if
no newline comes after a read without one, nor after a NUL.  A `read` that the loop goes on after
brings something. -/
theorem grep_writes_iff (chunks : List (List UInt8)) (hne : [] ∉ chunks) :
    (∀ pattern, grep pattern [] chunks = accepted pattern (lines [] chunks.flatten)) ↔
      Kept chunks := by
  constructor
  · intro h
    have hnul : NulsLast chunks.flatten := by
      intro a b heq hb
      obtain ⟨b1, b2, rfl⟩ := mem_iff_append.mp hb
      have hall := h []
      rw [heq, ← cons_append, ← append_assoc, lines_newline, accepted_append, accepted_nil] at hall
      have hno : 0 ∉ grep [] [] chunks := zero_notMem_grep chunks
      refine hno ?_
      rw [hall]
      simp
    exact ⟨(length_grep_le not_mem_nil hnul hne).2 (congrArg length (h [])), hnul⟩
  · intro h pattern
    exact grep_eq not_mem_nil h.nuls h.reads

/-- A line comes in two reads, and what is left over at the end in two more. -/
theorem grep_writes_carried : grep [98] [] [[97, 10, 97], [98, 10], [97], [98]] = [97, 98, 10] := by
  have hkept : Kept [[97, 10, 97], [98, 10], [97], [98]] := by
    refine ⟨fun pre chunk post heq hno => ?_, fun a b heq => ?_⟩
    · rcases pre with _ | ⟨c, _ | ⟨d, pre⟩⟩
      · cases heq
        exact absurd hno (by decide)
      · cases heq
        exact absurd hno (by decide)
      -- the last two reads bring no newline
      have hend : [[97], [98]] = pre ++ chunk :: post := (cons.inj (cons.inj heq).2).2
      intro hpost
      have hmem : newline ∈ (pre ++ chunk :: post).flatten := by simp [hpost]
      rw [← hend] at hmem
      exact absurd hmem (by decide)
    · exact absurd (heq ▸ mem_append_right a mem_cons_self) (by decide)
  exact ((grep_writes_iff _ (by decide)).mpr hkept [98]).trans (by decide)

/-- Characters that come without a newline are lost. -/
theorem grep_forgets : grep [] [] [[97, 98], [99, 10]] = [99, 10] ∧
    accepted [] (lines [] [97, 98, 99, 10]) = [97, 98, 99, 10] := by
  decide

end Grep
