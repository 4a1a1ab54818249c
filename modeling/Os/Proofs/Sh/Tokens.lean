/-
`gettoken` and `peek` deliver the tokens of the line.

A position of the scanner stands for the text behind it.  Skipping blanks does not change the
tokens of that text, `gettoken` takes the first of them, and `peek` tells which symbol it starts
with; the text of a word lies between its two offsets.  From here on the parser can be followed
on token lists.
-/
import Mathlib.Data.List.TakeWhile
import Os.Sh.Grammar

namespace Sh

open List

-- The character classes of the shell are strings; `decide` looks into them character by character.
set_option maxRecDepth 4000

/-! ### Tokens -/

/-- What `gettoken` returns for a token. -/
def Token.code : Token → UInt8
  | .redir .lt => char '<'
  | .redir .gt => char '>'
  | .redir .gtgt => char '+'
  | .bar => char '|'
  | .amp => char '&'
  | .semi => char ';'
  | .lparen => char '('
  | .rparen => char ')'
  | .word _ => char 'a'

/-- The symbol a token starts with. -/
def Token.symbol : Token → Option UInt8
  | .redir .lt => char '<'
  | .redir .gt => char '>'
  | .redir .gtgt => char '>'
  | .bar => char '|'
  | .amp => char '&'
  | .semi => char ';'
  | .lparen => char '('
  | .rparen => char ')'
  | .word _ => none

/-- The token list starts with one of the symbols. -/
def starts (toks : List UInt8) : List Token → Bool
  | [] => false
  | t :: _ => t.symbol.any toks.contains

theorem symbolToken_some {c : UInt8} {t : Token} (h : symbolToken c = some t) :
    (bytes "|();&<").contains c = true ∧ t.code = c ∧ t.symbol = some c ∧ ∀ w, t ≠ .word w := by
  unfold symbolToken at h
  repeat' split at h
  all_goals
    try subst c
    cases h
  all_goals exact ⟨by decide, rfl, rfl, nofun⟩

theorem symbolToken_none {c : UInt8} (hblank : c ∉ whitespace) (hgt : c ≠ char '>')
    (h : symbolToken c = none) : isWord c = true := by
  unfold symbolToken at h
  repeat' split at h
  all_goals try cases h
  have hlist : symbols =
    [char '<', char '|', char '>', char '&', char ';', char '(', char ')'] := by
    decide
  have hsymbol : c ∉ symbols := by
    simp only [hlist, mem_cons, not_mem_nil, or_false, not_or]
    exact ⟨‹_›, ‹_›, hgt, ‹_›, ‹_›, ‹_›, ‹_›⟩
  simp [isWord, hblank, hsymbol]

theorem not_contains_of_isWord {c : UInt8} (h : isWord c = true) :
    (bytes "|();&<").contains c = false ∧ c ≠ char '>' := by
  simp only [isWord, Bool.and_eq_true, Bool.not_eq_true'] at h
  refine ⟨?_, ?_⟩
  · by_contra hc
    have hsub : ∀ c ∈ bytes "|();&<", symbols.contains c = true := by decide
    rw [hsub c (by simpa using hc)] at h
    exact absurd h.2 (by simp)
  · rintro rfl
    exact absurd h.2 (by decide)

theorem drop_length_takeWhile (f : UInt8 → Bool) (l : List UInt8) :
    l.drop (l.takeWhile f).length = l.dropWhile f := by
  nth_rewrite 2 [← takeWhile_append_dropWhile (p := f) (l := l)]
  exact drop_left

theorem tokens_dropWhile (l : List UInt8) :
    tokens (l.dropWhile whitespace.contains) = tokens l := by
  induction l with
  | nil => rfl
  | cons c l ih =>
    rw [dropWhile_cons]
    split
    next h => rw [ih, tokens, if_pos h]
    next => rfl

theorem tokens_eq_nil {l : List UInt8} (h : tokens l = []) :
    l.dropWhile whitespace.contains = [] := by
  induction l with
  | nil => rfl
  | cons c l ih =>
    rw [tokens] at h
    split at h
    next hc => rw [dropWhile_cons, if_pos hc, ih h]
    next =>
      repeat' split at h
      all_goals cases h

theorem length_tokens_le (l : List UInt8) : (tokens l).length ≤ l.length := by
  fun_induction tokens l with
  | case1 => simp
  | case2 c cs _ ih => exact Nat.le_succ_of_le ih
  | case3 cs _ _ ih =>
    rw [length_tail] at ih
    simp only [length_cons]
    omega
  | case4 cs _ _ ih => simpa using ih
  | case5 c cs _ _ t _ ih => simpa using ih
  | case6 c cs _ _ _ ih =>
    have := (dropWhile_sublist isWord (l := cs)).length_le
    simp only [length_cons]
    omega

/-! ### What a position stands for -/

namespace CString

variable (line : CString)
variable {c : UInt8} {t : Token} {cs : List UInt8} {f : UInt8 → Bool}

/-- The text from an offset on. -/
def rest (p : Nat) : List UInt8 := line.chars.drop p

/-- The tokens from an offset on. -/
def ahead (p : Nat) : List Token := tokens (line.rest p)

variable {line}
variable {p : Nat}

theorem rest_add (k : Nat) : line.rest (p + k) = (line.rest p).drop k := by
  rw [rest, rest, drop_drop]

theorem mem_of_rest_nil (h : line.rest p = []) : line.mem p = 0 := by
  have hp : line.chars.length ≤ p := drop_eq_nil_iff.mp h
  simp [mem, getD_eq_getElem?_getD, hp]

theorem mem_of_rest_cons (h : line.rest p = c :: cs) :
    line.mem p = c ∧ c ≠ 0 ∧ line.rest (p + 1) = cs := by
  have hget : line.chars[p]? = some c := by
    rw [← List.head?_drop]
    exact congrArg List.head? h
  refine ⟨by simp [mem, getD_eq_getElem?_getD, hget], ?_, by rw [rest_add, h]; rfl⟩
  rintro rfl
  exact line.noNul (mem_of_getElem? hget)

/-- A `while` loop over the line passes the characters its condition holds of. -/
theorem skipWhile_eq {g : UInt8 → Bool} (hfg : ∀ c, c ≠ 0 → f c = g c) (p : Nat) :
    skipWhile line.mem f (line.es - p) p = p + ((line.rest p).takeWhile g).length := by
  induction hn : line.es - p generalizing p with
  | zero =>
    have hnil : line.rest p = [] := drop_eq_nil_iff.mpr (Nat.sub_eq_zero_iff_le.mp hn)
    simp [skipWhile, hnil]
  | succ n ih =>
    cases hrest : line.rest p with
    | nil =>
      have := drop_eq_nil_iff.mp hrest
      unfold es at hn
      omega
    | cons c cs =>
      obtain ⟨hc, hne, hcs⟩ := mem_of_rest_cons hrest
      rw [skipWhile, hc, hfg c hne, takeWhile_cons]
      split
      · rw [ih (p + 1) (by omega), hcs, length_cons]
        omega
      · rfl

theorem rest_skipWhile {g : UInt8 → Bool} (hfg : ∀ c, c ≠ 0 → f c = g c) (p : Nat) :
    line.rest (skipWhile line.mem f (line.es - p) p) = (line.rest p).dropWhile g := by
  rw [skipWhile_eq hfg, rest_add, drop_length_takeWhile]

variable (line) in
theorem rest_skipBlanks (p : Nat) :
    line.rest (skipBlanks line.mem line.es p) = (line.rest p).dropWhile whitespace.contains :=
  rest_skipWhile (fun c hc => by simp [strchr, hc]) p

@[simp] theorem ahead_skipBlanks (p : Nat) :
    line.ahead (skipBlanks line.mem line.es p) = line.ahead p := by
  rw [ahead, rest_skipBlanks, tokens_dropWhile, ahead]

/-! ### The scanner -/

/-- A word of the line: a maximal run of word characters. -/
structure IsSpan (line : CString) (w : Span) : Prop where
  le : w.q ≤ w.eq
  inside : ∀ i, w.q ≤ i → i < w.eq → line.mem i ≠ 0 ∧ isWord (line.mem i) = true
  stop : line.mem w.eq = 0 ∨ isWord (line.mem w.eq) = false
  bound : w.eq ≤ line.es

/-- The text of a word. -/
def text (line : CString) (w : Span) : List UInt8 := (line.rest w.q).take (w.eq - w.q)

variable (line) in
theorem rest_skipBlanks_cases (p : Nat) :
    line.rest (skipBlanks line.mem line.es p) = [] ∧ line.ahead p = [] ∨
    ∃ c cs, line.rest (skipBlanks line.mem line.es p) = c :: cs ∧ c ∉ whitespace := by
  have hrest := rest_skipBlanks line p
  cases hd : (line.rest p).dropWhile whitespace.contains with
  | nil =>
    refine .inl ⟨hrest.trans hd, ?_⟩
    rw [ahead, ← tokens_dropWhile, hd, tokens]
  | cons c cs =>
    refine .inr ⟨c, cs, hrest.trans hd, ?_⟩
    have hc := List.head?_dropWhile_not whitespace.contains (line.rest p)
    rw [hd] at hc
    simpa using hc

theorem scan_nil (h : line.rest p = []) : scanToken line.mem line.es p = (0, p) := by
  rw [scanToken, if_pos (mem_of_rest_nil h)]

theorem scan_symbol (h : line.rest p = c :: cs) (ht : symbolToken c = some t) :
    scanToken line.mem line.es p = (t.code, p + 1) := by
  obtain ⟨hc, hne, -⟩ := mem_of_rest_cons h
  obtain ⟨hsymbol, hcode, -⟩ := symbolToken_some ht
  rw [scanToken, hc, if_neg hne, if_pos hsymbol, hcode]

theorem scan_gt (h : line.rest p = char '>' :: cs) :
    scanToken line.mem line.es p =
      if cs.head? = some (char '>') then (char '+', p + 2) else (char '>', p + 1) := by
  obtain ⟨hc, hne, hcs⟩ := mem_of_rest_cons h
  have hnext : line.mem (p + 1) = char '>' ↔ cs.head? = some (char '>') := by
    cases hrest : line.rest (p + 1) with
    | nil =>
      rw [mem_of_rest_nil hrest, ← hcs, hrest]
      decide
    | cons d ds => simp [(mem_of_rest_cons hrest).1, ← hcs, hrest]
  rw [scanToken, hc, if_neg hne, if_neg (by decide), if_pos rfl]
  simp only [hnext]

theorem scan_word (h : line.rest p = c :: cs) (hword : isWord c = true) :
    scanToken line.mem line.es p = (char 'a', p + ((line.rest p).takeWhile isWord).length) := by
  obtain ⟨hc, hne, -⟩ := mem_of_rest_cons h
  obtain ⟨hsymbol, hgt⟩ := not_contains_of_isWord hword
  rw [scanToken, hc, if_neg hne, if_neg (by simpa using hsymbol), if_neg hgt,
    skipWhile_eq (g := isWord) fun c hc => by simp [strchr, hc, isWord]]

theorem mem_of_lt_takeWhile {k : Nat} (hk : k < ((line.rest p).takeWhile f).length) :
    line.mem (p + k) ≠ 0 ∧ f (line.mem (p + k)) = true := by
  have hrest : line.rest (p + k) =
      ((line.rest p).takeWhile f).drop k ++ (line.rest p).dropWhile f := by
    rw [rest_add, ← drop_append_of_le_length (Nat.le_of_lt hk),
      takeWhile_append_dropWhile]
  rw [drop_eq_getElem_cons hk] at hrest
  obtain ⟨hmem, hne, -⟩ := mem_of_rest_cons hrest
  rw [hmem]
  exact ⟨hne, mem_takeWhile_imp (getElem_mem hk)⟩

theorem isSpan_word (h : line.rest p = c :: cs) :
    IsSpan line ⟨p, p + ((line.rest p).takeWhile isWord).length⟩ where
  le := Nat.le_add_right ..
  inside i hq heq := by
    obtain ⟨k, rfl⟩ := Nat.exists_eq_add_of_le hq
    exact mem_of_lt_takeWhile (Nat.lt_of_add_lt_add_left heq)
  stop := by
    have hrest : line.rest (p + ((line.rest p).takeWhile isWord).length) =
        (line.rest p).dropWhile isWord := by
      rw [rest_add, drop_length_takeWhile]
    cases hd : (line.rest p).dropWhile isWord with
    | nil => exact .inl (mem_of_rest_nil (hrest.trans hd))
    | cons d ds =>
      refine .inr ?_
      rw [(mem_of_rest_cons (hrest.trans hd)).1]
      have hhead := List.head?_dropWhile_not isWord (line.rest p)
      rw [hd] at hhead
      simpa using hhead
  bound := by
    have hlen : ((line.rest p).takeWhile isWord).length ≤ (line.rest p).length :=
      (takeWhile_sublist isWord).length_le
    have hrest : (line.rest p).length = line.es - p := length_drop
    have hpos : (line.rest p).length ≠ 0 := by simp [h]
    dsimp only
    omega

theorem text_word (p : Nat) :
    line.text ⟨p, p + ((line.rest p).takeWhile isWord).length⟩ =
      (line.rest p).takeWhile isWord := by
  rw [text, Nat.add_sub_cancel_left]
  nth_rewrite 2 [← takeWhile_append_dropWhile (p := isWord) (l := line.rest p)]
  exact take_left

theorem gettoken_nil (h : line.ahead p = []) :
    (gettoken line.mem line.es p).ret = 0 ∧ line.ahead (gettoken line.mem line.es p).ps = [] := by
  have hnil : line.rest (skipBlanks line.mem line.es p) = [] := by
    rw [rest_skipBlanks]
    exact tokens_eq_nil h
  simp only [gettoken, scan_nil hnil, ahead_skipBlanks, h, and_self]

theorem gettoken_cons {ts : List Token} (h : line.ahead p = t :: ts) :
    (gettoken line.mem line.es p).ret = t.code ∧
    line.ahead (gettoken line.mem line.es p).ps = ts ∧
    ∀ w, t = .word w →
      IsSpan line ⟨(gettoken line.mem line.es p).q, (gettoken line.mem line.es p).eq⟩ ∧
      line.text ⟨(gettoken line.mem line.es p).q, (gettoken line.mem line.es p).eq⟩ = w := by
  obtain ⟨-, hnil⟩ | ⟨c, cs, hrest, hblank⟩ := rest_skipBlanks_cases line p
  · rw [hnil] at h
    cases h
  rw [← ahead_skipBlanks] at h
  simp only [gettoken, ahead_skipBlanks]
  generalize skipBlanks line.mem line.es p = s at h hrest
  have hone : line.rest (s + 1) = cs := (mem_of_rest_cons hrest).2.2
  rw [ahead, hrest, tokens, if_neg (by simpa using hblank)] at h
  split at h
  next hgt =>
    subst hgt
    rw [scan_gt hrest]
    split at h
    next hnext =>
      obtain ⟨rfl, rfl⟩ := List.cons.inj h
      rw [if_pos hnext]
      refine ⟨rfl, ?_, by simp⟩
      rw [ahead, rest_add, hrest]
      cases cs <;> rfl
    next hnext =>
      obtain ⟨rfl, rfl⟩ := List.cons.inj h
      rw [if_neg hnext]
      exact ⟨rfl, by rw [ahead, hone], by simp⟩
  next hgt =>
    split at h
    next t' ht =>
      obtain ⟨rfl, rfl⟩ := List.cons.inj h
      rw [scan_symbol hrest ht]
      exact ⟨rfl, by rw [ahead, hone], fun w hw => absurd hw ((symbolToken_some ht).2.2.2 w)⟩
    next ht =>
      obtain ⟨rfl, rfl⟩ := List.cons.inj h
      have hword := symbolToken_none hblank hgt ht
      have htake : (line.rest s).takeWhile isWord = c :: cs.takeWhile isWord := by
        rw [hrest, takeWhile_cons, if_pos hword]
      rw [scan_word hrest hword]
      refine ⟨rfl, ?_, fun w hw => ⟨isSpan_word hrest, ?_⟩⟩
      · rw [ahead, htake, length_cons, rest_add, hrest, drop_succ_cons,
          drop_length_takeWhile]
      · rw [text_word, htake]
        exact Token.word.inj hw

variable (line) in
theorem peek_eq (toks : List UInt8) (htoks : ∀ c ∈ toks, c ∈ symbols) (p : Nat) :
    peek line.mem line.es p toks =
      (skipBlanks line.mem line.es p, starts toks (line.ahead p)) := by
  refine Prod.ext rfl ?_
  unfold peek
  obtain ⟨hrest, hnil⟩ | ⟨c, cs, hrest, hblank⟩ := rest_skipBlanks_cases line p
  · simp [mem_of_rest_nil hrest, hnil, starts]
  obtain ⟨hc, hne, -⟩ := mem_of_rest_cons hrest
  rw [← ahead_skipBlanks p, ahead, hrest, tokens, if_neg (by simpa using hblank)]
  rw [hc]
  split
  next hgt =>
    subst hgt
    split
    all_goals simp [starts, Token.symbol, strchr, hne]
  next hgt =>
    split
    next t ht => simp [starts, (symbolToken_some ht).2.2.1, strchr, hne]
    next ht =>
      have hword := symbolToken_none hblank hgt ht
      have hnot : c ∉ toks := by
        intro hmem
        simp [isWord, htoks c hmem] at hword
      simp [starts, Token.symbol, strchr, hne, hnot]

variable (line) in
theorem peek_spec (p : Nat) (toks : List UInt8) (htoks : ∀ c ∈ toks, c ∈ symbols) :
    ∃ s, line.ahead s = line.ahead p ∧
      peek line.mem line.es p toks = (s, starts toks (line.ahead s)) :=
  ⟨_, ahead_skipBlanks p, by rw [line.peek_eq toks htoks, ahead_skipBlanks]⟩

end CString

end Sh
