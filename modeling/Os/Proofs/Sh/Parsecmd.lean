/-
`parsecmd`: the whole line, and the strings of its tree.

The parser never moves past the NUL of the line, so that when no token is left it stands on it.
`nulterminate` then writes a NUL behind every word of the tree.  A word is a maximal run of word
characters, so the character behind it belongs to no word, and each word still reads as its own
text.
-/
import Os.Proofs.Sh.Parse

namespace Sh

open List

-- The character classes of the shell are strings; `decide` looks into them character by character.
set_option maxRecDepth 4000

variable {line : CString}
variable {p n : Nat} {c : Cmd Span}

/-! ### The scanner stays on the line -/

/-- The function does not move past `es`. -/
def Within (es : Nat) : Parsed → Prop
  | .ok (_, p) => p ≤ es
  | .error _ => True

theorem Within.bind {es : Nat} {r : Parsed} {f : Cmd Span × Nat → Parsed} (hr : Within es r)
    (hf : ∀ c p, p ≤ es → Within es (f (c, p))) : Within es (r >>= f) := by
  match r, hr with
  | .ok (c, p), hr => exact hf c p hr
  | .error _, _ => trivial

theorem skipWhile_le (mem : Mem) (f : UInt8 → Bool) (n s : Nat) : skipWhile mem f n s ≤ s + n := by
  induction n generalizing s with
  | zero => exact Nat.le_refl _
  | succ n ih =>
    rw [skipWhile]
    split
    · exact (ih (s + 1)).trans (by omega)
    · exact Nat.le_add_right ..

theorem skipBlanks_le (mem : Mem) {es : Nat} (h : p ≤ es) : skipBlanks mem es p ≤ es :=
  (skipWhile_le ..).trans (by omega)

theorem lt_es_of_mem_ne (h : line.mem p ≠ 0) : p < line.es := by
  by_contra hp
  exact h (CString.mem_of_rest_nil (drop_eq_nil_iff.mpr (Nat.le_of_not_lt hp)))

theorem gettoken_le (h : p ≤ line.es) : (gettoken line.mem line.es p).ps ≤ line.es := by
  have hs := skipBlanks_le line.mem h
  refine skipBlanks_le _ ?_
  generalize skipBlanks line.mem line.es p = s at hs
  unfold scanToken
  split
  next => exact hs
  next hne =>
    have hlt := lt_es_of_mem_ne hne
    repeat' split
    next => exact hlt
    next hgt => exact lt_es_of_mem_ne (by rw [hgt]; decide)
    next => exact hlt
    next => exact (skipWhile_le ..).trans (by omega)

theorem parseredirs_within (hp : p ≤ line.es) :
    Within line.es (parseredirs line.mem line.es n c p) := by
  induction n generalizing p c with
  | zero => trivial
  | succ n ih =>
    rw [parseredirs, peek]
    dsimp only
    repeat' split
    · trivial
    · exact ih (gettoken_le (gettoken_le (skipBlanks_le _ hp)))
    · exact skipBlanks_le _ hp

theorem parseargs_within {argc : Nat} (hp : p ≤ line.es) :
    Within line.es (parseargs line.mem line.es n argc c p) := by
  induction n generalizing argc p c with
  | zero => trivial
  | succ n ih =>
    rw [parseargs, peek]
    dsimp only
    split
    next => exact skipBlanks_le _ hp
    next =>
      split
      next => exact gettoken_le (skipBlanks_le _ hp)
      next =>
        split
        next => trivial
        next =>
          split
          next => trivial
          next =>
            refine (parseredirs_within (gettoken_le (skipBlanks_le _ hp))).bind ?_
            exact fun c p hp => ih hp

theorem parsebacks_within (hp : p ≤ line.es) :
    Within line.es (parsebacks line.mem line.es n c p) := by
  induction n generalizing p c with
  | zero => trivial
  | succ n ih =>
    rw [parsebacks, peek]
    dsimp only
    split
    · exact ih (gettoken_le (skipBlanks_le _ hp))
    · exact skipBlanks_le _ hp

theorem parse_within (line : CString) (n : Nat) :
    (∀ {p}, p ≤ line.es → Within line.es (parseline line.mem line.es n p)) ∧
    (∀ {p}, p ≤ line.es → Within line.es (parsepipe line.mem line.es n p)) ∧
    (∀ {p}, p ≤ line.es → Within line.es (parseexec line.mem line.es n p)) ∧
    ∀ {p}, p ≤ line.es → Within line.es (parseblock line.mem line.es n p) := by
  induction n with
  | zero =>
    simp only [parseline, parsepipe, parseexec, parseblock]
    exact ⟨fun _ => trivial, fun _ => trivial, fun _ => trivial, fun _ => trivial⟩
  | succ n ih =>
    obtain ⟨hline, hpipe, hexec, hblock⟩ := ih
    refine ⟨fun hp => ?_, fun hp => ?_, fun hp => ?_, fun hp => ?_⟩
    · rw [parseline]
      refine (hpipe hp).bind fun c1 p1 h1 => ?_
      refine (parsebacks_within h1).bind fun c2 p2 h2 => ?_
      dsimp only [peek]
      split
      · refine (hline (gettoken_le (skipBlanks_le _ h2))).bind ?_
        exact fun c3 p3 h3 => h3
      · exact skipBlanks_le _ h2
    · rw [parsepipe]
      refine (hexec hp).bind fun c1 p1 h1 => ?_
      dsimp only [peek]
      split
      · refine (hpipe (gettoken_le (skipBlanks_le _ h1))).bind ?_
        exact fun c2 p2 h2 => h2
      · exact skipBlanks_le _ h1
    · rw [parseexec, peek]
      dsimp only
      split
      · exact hblock (skipBlanks_le _ hp)
      · refine (parseredirs_within (skipBlanks_le _ hp)).bind ?_
        exact fun c1 p1 h1 => parseargs_within h1
    · rw [parseblock, peek]
      dsimp only
      split
      · trivial
      refine (hline (gettoken_le (skipBlanks_le _ hp))).bind fun c1 p1 h1 => ?_
      split
      · trivial
      · exact parseredirs_within (gettoken_le (skipBlanks_le _ h1))

/-! ### NUL-termination -/

theorem nulterminate_eq (mem : Mem) (c : Cmd Span) :
    nulterminate mem c = c.words.foldl (fun mem w => Function.update mem w.eq 0) mem := by
  induction c generalizing mem with
  | exec argv => rfl
  | redir c file mode fd ih => rw [nulterminate, ih, Cmd.words, foldl_append]; rfl
  | pipe c d ihc ihd => rw [nulterminate, ihc, ihd, Cmd.words, foldl_append]
  | list c d ihc ihd => rw [nulterminate, ihc, ihd, Cmd.words, foldl_append]
  | back c ih => rw [nulterminate, ih, Cmd.words]

theorem nulled_apply (ws : List Span) (mem : Mem) (i : Nat) :
    ws.foldl (fun mem w => Function.update mem w.eq 0) mem i =
      if ∃ w ∈ ws, w.eq = i then 0 else mem i := by
  induction ws generalizing mem with
  | nil => simp
  | cons w ws ih =>
    rw [foldl_cons, ih, Function.update_apply]
    simp only [exists_mem_cons_iff, eq_comm (a := i)]
    by_cases hw : w.eq = i
    · simp [hw]
    · simp [hw]

/-- A string in memory that still reads as the line does. -/
theorem cstr_eq {mem : Mem} {k q : Nat} (hk : k ≤ n)
    (hsame : ∀ i, q ≤ i → i < q + k → mem i = line.mem i ∧ line.mem i ≠ 0)
    (hend : mem (q + k) = 0) : cstr mem n q = (line.rest q).take k := by
  induction k generalizing n q with
  | zero =>
    cases n with
    | zero => rfl
    | succ n => exact if_pos hend
  | succ k ih =>
    obtain ⟨n, rfl⟩ := Nat.exists_eq_add_one_of_ne_zero (show n ≠ 0 by omega)
    obtain ⟨hq, hne⟩ := hsame q (Nat.le_refl q) (by omega)
    have hnext := ih (q := q + 1) (Nat.le_of_succ_le_succ hk)
      (fun i hi hlt => hsame i (by omega) (by omega)) (by rw [← hend]; congr 1; omega)
    cases hrest : line.rest q with
    | nil => exact absurd (CString.mem_of_rest_nil hrest) hne
    | cons c cs =>
      obtain ⟨hc, -, hcs⟩ := CString.mem_of_rest_cons hrest
      rw [cstr, hq, if_neg hne, hnext, hc, hcs, take_succ_cons]

/-- After `nulterminate` every word of the tree reads as its text. -/
theorem strings_nulterminate (h : ∀ w ∈ c.words, line.IsSpan w) {w : Span} (hw : w ∈ c.words) :
    cstr (nulterminate line.mem c) line.es w.q = line.text w := by
  have hspan := h w hw
  have hle := hspan.le
  have hbound := hspan.bound
  rw [nulterminate_eq]
  refine cstr_eq (by omega) (fun i hi hlt => ?_) ?_
  · obtain ⟨hne, hword⟩ := hspan.inside i hi (by omega)
    rw [nulled_apply, if_neg]
    · exact ⟨rfl, hne⟩
    rintro ⟨v, hv, rfl⟩
    obtain hstop | hstop := (h v hv).stop
    · exact hne hstop
    · rw [hstop] at hword
      cases hword
  · rw [nulled_apply, if_pos ⟨w, hw, by omega⟩]

theorem Cmd.map_congr {α β : Type} {f g : α → β} {c : Cmd α} (h : ∀ w ∈ c.words, f w = g w) :
    c.map f = c.map g := by
  induction c with
  | exec argv => exact congrArg Cmd.exec (map_congr_left h)
  | redir c file mode fd ih =>
    rw [Cmd.map, Cmd.map, ih fun w hw => h w (mem_append_left _ hw),
      h file (mem_append_right _ (mem_singleton_self file))]
  | pipe c d ihc ihd =>
    rw [Cmd.map, Cmd.map, ihc fun w hw => h w (mem_append_left _ hw),
      ihd fun w hw => h w (mem_append_right _ hw)]
  | list c d ihc ihd =>
    rw [Cmd.map, Cmd.map, ihc fun w hw => h w (mem_append_left _ hw),
      ihd fun w hw => h w (mem_append_right _ hw)]
  | back c ih => rw [Cmd.map, Cmd.map, ih h]

theorem Shows.strings {t : Cmd (List UInt8)} (h : Shows line c t) :
    c.strings (nulterminate line.mem c) line.es = t :=
  (Cmd.map_congr fun _ hw => strings_nulterminate h.spans hw).trans h.text

/-! ### The whole line -/

theorem fuel_le (line : CString) : 4 * (line.ahead 0).length + 4 ≤ 4 * (line.es + 1) := by
  have hlen : (line.ahead 0).length ≤ line.chars.length := length_tokens_le line.chars
  unfold CString.es
  omega

theorem parsecmd_sound (line : CString) :
    (∃ msg, parsecmd line = .error (.panic msg)) ∨
    ∃ mem c t, parsecmd line = .ok (mem, c) ∧ c.strings mem line.es = t ∧
      Line (tokens line.chars) t := by
  have h := (parse_sound _).1 0 (fuel_le line)
  unfold parsecmd
  match hr : parseline line.mem line.es (4 * (line.es + 1)) 0, h with
  | .error (.panic msg), _ => exact .inl ⟨msg, rfl⟩
  | .ok (c, p), ⟨ts, t, hts, hline, hshows⟩ =>
    by_cases hend : (peek line.mem line.es p []).1 ≠ line.es
    · exact .inl ⟨"syntax", by simp [hend, bind, Except.bind, throw, throwThe, MonadExceptOf.throw]⟩
    refine .inr ⟨nulterminate line.mem c, c, t, ?_, hshows.strings, ?_⟩
    · simp [hend, bind, Except.bind, pure, Except.pure]
    have hnil : line.ahead p = [] := by
      rw [← line.ahead_skipBlanks, show skipBlanks line.mem line.es p = line.es from
        not_not.mp hend, CString.ahead, CString.rest, CString.es, drop_length, tokens]
    rw [hnil, append_nil] at hts
    rw [show tokens line.chars = ts from hts]
    exact hline

theorem parsecmd_complete {line : CString} {t : Cmd (List UInt8)}
    (ht : Line (tokens line.chars) t) :
    ∃ mem c, parsecmd line = .ok (mem, c) ∧ c.strings mem line.es = t := by
  have hall : line.ahead 0 = tokens line.chars ++ [] := (append_nil _).symm
  obtain ⟨c, p, hr, hnil, hshows⟩ := (parse_complete _).1 (fuel_le line) ht hall (.inl rfl)
  have hp : p ≤ line.es := by
    have h := (parse_within line (4 * (line.es + 1))).1 (Nat.zero_le _)
    rw [hr] at h
    exact h
  have hend : (peek line.mem line.es p []).1 = line.es := by
    refine Nat.le_antisymm (skipBlanks_le _ hp) (drop_eq_nil_iff.mp ?_)
    exact (line.rest_skipBlanks p).trans (tokens_eq_nil hnil)
  refine ⟨nulterminate line.mem c, c, ?_, hshows.strings⟩
  unfold parsecmd
  simp [hr, hend, bind, Except.bind, pure, Except.pure]

/-- **`parsecmd` returns a command exactly for the lines that derive from the grammar**, with the
tree of the derivation; every other line is reported as an error. -/
theorem parsecmd_grammar (line : CString) :
    (∀ t, (∃ mem c, parsecmd line = .ok (mem, c) ∧ c.strings mem line.es = t) ↔
      Line (tokens line.chars) t) ∧
    ((∃ msg, parsecmd line = .error (.panic msg)) ↔ ¬ ∃ t, Line (tokens line.chars) t) := by
  refine ⟨fun t => ⟨?_, parsecmd_complete⟩, ?_, ?_⟩
  · rintro ⟨mem, c, hr, rfl⟩
    obtain ⟨msg, herr⟩ | ⟨mem', c', t, hok, rfl, hline⟩ := parsecmd_sound line
    · rw [hr] at herr
      cases herr
    · rw [hr] at hok
      cases hok
      exact hline
  · rintro ⟨msg, herr⟩ ⟨t, ht⟩
    obtain ⟨mem, c, hok, -⟩ := parsecmd_complete ht
    rw [hok] at herr
    cases herr
  · intro hnone
    obtain herr | ⟨mem, c, t, -, -, hline⟩ := parsecmd_sound line
    · exact herr
    · exact absurd ⟨t, hline⟩ hnone

end Sh
