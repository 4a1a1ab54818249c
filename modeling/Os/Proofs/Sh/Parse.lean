/-
The parser accepts the grammar and nothing else.

One half is soundness: what a parsing function returns is the tree of a derivation of the tokens
it went past.  It is proved together with the fuel sufficing, as a postcondition that a `panic`
of the shell meets and running out of fuel does not (`Holds`).  The other half is completeness: on
the tokens of a derivation, followed by a token that cannot continue it, the function returns
that derivation's tree.  Each half is an induction on the fuel, over the four functions that call
each other.
-/
import Os.Proofs.Sh.Tokens

namespace Sh

open List

-- The character classes of the shell are strings; `decide` looks into them character by character.
set_option maxRecDepth 4000

variable {line : CString}
variable {argv : List (List UInt8)} {rs : List Redir} {r : Parsed}

/-! ### Trees over the line -/

/-- The words of a tree, in the order in which `nulterminate` comes to them. -/
def Cmd.words {α : Type} : Cmd α → List α
  | .exec argv => argv
  | .redir cmd file _ _ => cmd.words ++ [file]
  | .pipe left right => left.words ++ right.words
  | .list left right => left.words ++ right.words
  | .back cmd => cmd.words

namespace Cmd

variable {α β : Type}

theorem map_addArg (f : α → β) (w : α) (c : Cmd α) :
    (c.addArg w).map f = (c.map f).addArg (f w) := by
  induction c with
  | exec argv => simp [addArg, map]
  | redir c file mode fd ih => simp [addArg, map, ih]
  | _ => rfl

theorem mem_words_addArg {w v : α} {c : Cmd α} (h : v ∈ (c.addArg w).words) :
    v ∈ c.words ∨ v = w := by
  induction c with
  | exec argv => simpa [addArg, words] using h
  | redir c file mode fd ih =>
    obtain h | h := mem_append.mp h
    · exact (ih h).imp_left (mem_append_left _)
    · exact .inl (mem_append_right _ h)
  | _ => exact .inl h

end Cmd

theorem wrap_wrap (c : Cmd (List UInt8)) (rs ss : List Redir) :
    wrap (wrap c rs) ss = wrap c (rs ++ ss) := foldl_append.symm

theorem addArg_wrap (w : List UInt8) (c : Cmd (List UInt8)) (rs : List Redir) :
    (wrap c rs).addArg w = wrap (c.addArg w) rs := by
  induction rs generalizing c with
  | nil => rfl
  | cons r rs ih =>
    have hr : (r.wrap c).addArg w = r.wrap (c.addArg w) := by
      unfold Redir.wrap
      split <;> rfl
    exact (ih (r.wrap c)).trans (by rw [hr]; rfl)

/-- The tree `c`, whose words are given by offsets, stands for `t`. -/
structure Shows (line : CString) (c : Cmd Span) (t : Cmd (List UInt8)) : Prop where
  text : c.map line.text = t
  spans : ∀ w ∈ c.words, line.IsSpan w

namespace Shows

variable {c d : Cmd Span} {t u : Cmd (List UInt8)} {w : Span}

theorem execcmd : Shows line (.exec []) (.exec []) := ⟨rfl, nofun⟩

section

variable (hc : Shows line c t)
include hc

theorem pipe (hd : Shows line d u) : Shows line (.pipe c d) (.pipe t u) := by
  refine ⟨by rw [Cmd.map, hc.text, hd.text], fun w hw => ?_⟩
  obtain hw | hw := mem_append.mp hw
  · exact hc.spans w hw
  · exact hd.spans w hw

theorem list (hd : Shows line d u) : Shows line (.list c d) (.list t u) := by
  refine ⟨by rw [Cmd.map, hc.text, hd.text], fun w hw => ?_⟩
  obtain hw | hw := mem_append.mp hw
  · exact hc.spans w hw
  · exact hd.spans w hw

theorem back : Shows line (.back c) (.back t) :=
  ⟨by rw [Cmd.map, hc.text], hc.spans⟩

theorem redir (hw : line.IsSpan w) (mode : OpenMode) (fd : Nat) :
    Shows line (.redir c w mode fd) (.redir t (line.text w) mode fd) := by
  refine ⟨by rw [Cmd.map, hc.text], fun v hv => ?_⟩
  obtain hv | hv := mem_append.mp hv
  · exact hc.spans v hv
  · rw [mem_singleton.mp hv]
    exact hw

theorem redirTo (hw : line.IsSpan w) (op : RedirOp) :
    Shows line (redirTo (Token.redir op).code c w) (Redir.wrap t ⟨op, line.text w⟩) := by
  cases op with
  | lt => exact hc.redir hw ..
  | gt => exact hc.redir hw ..
  | gtgt => exact hc.redir hw ..

end

/-- An argument goes into the simple command inside the redirections. -/
theorem addArg (hc : Shows line c (wrap (.exec argv) rs)) (hw : line.IsSpan w) :
    Shows line (c.addArg w) (wrap (.exec (argv ++ [line.text w])) rs) := by
  refine ⟨?_, fun v hv => ?_⟩
  · rw [Cmd.map_addArg, hc.text, addArg_wrap]
    rfl
  · obtain hv | rfl := Cmd.mem_words_addArg hv
    · exact hc.spans v hv
    · exact hw

end Shows

/-! ### Results -/

/-- The function returns something with the property, or the shell panics. -/
def Holds : Parsed → (Cmd Span → Nat → Prop) → Prop
  | .ok (c, p), P => P c p
  | .error (.panic _), _ => True
  | .error .fuel, _ => False

theorem Holds.bind {f : Cmd Span × Nat → Parsed} {P Q : Cmd Span → Nat → Prop} (hr : Holds r P)
    (hf : ∀ c p, P c p → Holds (f (c, p)) Q) : Holds (r >>= f) Q := by
  match r, hr with
  | .ok (c, p), hr => exact hf c p hr
  | .error (.panic _), _ => trivial

theorem Holds.mono {P Q : Cmd Span → Nat → Prop} (hr : Holds r P) (hPQ : ∀ c p, P c p → Q c p) :
    Holds r Q := by
  match r, hr with
  | .ok (c, p), hr => exact hPQ c p hr
  | .error (.panic _), _ => trivial

/-! ### Symbols -/

theorem starts_cons (toks : List UInt8) (t : Token) (ts : List Token) :
    starts toks (t :: ts) = t.symbol.any toks.contains := rfl

@[simp] theorem starts_word (toks : List UInt8) (w : List UInt8) (ts : List Token) :
    starts toks (.word w :: ts) = false := rfl

theorem starts_redir {ts : List Token} (h : starts (bytes "<>") ts = true) :
    ∃ op us, ts = .redir op :: us := by
  match ts, h with
  | .redir op :: us, _ => exact ⟨op, us, rfl⟩

theorem starts_amp {ts : List Token} (h : starts (bytes "&") ts = true) :
    ∃ us, ts = .amp :: us := by
  match ts, h with
  | .amp :: us, _ => exact ⟨us, rfl⟩

theorem starts_semi {ts : List Token} (h : starts (bytes ";") ts = true) :
    ∃ us, ts = .semi :: us := by
  match ts, h with
  | .semi :: us, _ => exact ⟨us, rfl⟩

theorem starts_bar {ts : List Token} (h : starts (bytes "|") ts = true) :
    ∃ us, ts = .bar :: us := by
  match ts, h with
  | .bar :: us, _ => exact ⟨us, rfl⟩

theorem starts_lparen {ts : List Token} (h : starts (bytes "(") ts = true) :
    ∃ us, ts = .lparen :: us := by
  match ts, h with
  | .lparen :: us, _ => exact ⟨us, rfl⟩

theorem starts_rparen {ts : List Token} (h : starts (bytes ")") ts = true) :
    ∃ us, ts = .rparen :: us := by
  match ts, h with
  | .rparen :: us, _ => exact ⟨us, rfl⟩

/-- `gettoken` returns `'a'` for a word only, with its offsets. -/
theorem gettoken_word {p : Nat} (h : (gettoken line.mem line.es p).ret = char 'a') :
    ∃ w ts, line.ahead p = .word w :: ts ∧ line.ahead (gettoken line.mem line.es p).ps = ts ∧
      line.IsSpan ⟨(gettoken line.mem line.es p).q, (gettoken line.mem line.es p).eq⟩ ∧
      line.text ⟨(gettoken line.mem line.es p).q, (gettoken line.mem line.es p).eq⟩ = w := by
  cases hp : line.ahead p with
  | nil =>
    rw [(CString.gettoken_nil hp).1] at h
    exact absurd h (by decide)
  | cons t ts =>
    obtain ⟨hret, hps, hspan⟩ := CString.gettoken_cons hp
    rw [hret] at h
    match t, h with
    | .word w, _ => exact ⟨w, ts, rfl, hps, hspan w rfl⟩

theorem gettoken_end {p : Nat} (h : (gettoken line.mem line.es p).ret = 0) :
    line.ahead p = [] ∧ line.ahead (gettoken line.mem line.es p).ps = [] := by
  cases hp : line.ahead p with
  | nil => exact ⟨rfl, (CString.gettoken_nil hp).2⟩
  | cons t ts =>
    rw [(CString.gettoken_cons hp).1] at h
    match t, h with
    | .redir .lt, h => exact absurd h (by decide)
    | .redir .gt, h => exact absurd h (by decide)
    | .redir .gtgt, h => exact absurd h (by decide)

/-! ### Soundness -/

theorem parseredirs_sound {n p : Nat} {c : Cmd Span} {t : Cmd (List UInt8)}
    (hn : (line.ahead p).length < n) (hc : Shows line c t) :
    Holds (parseredirs line.mem line.es n c p) fun c' p' => ∃ rs : List Redir,
      line.ahead p = rs.flatMap Redir.tokens ++ line.ahead p' ∧ Shows line c' (wrap t rs) := by
  induction n generalizing p c t with
  | zero => exact absurd hn (Nat.not_lt_zero _)
  | succ n ih =>
    obtain ⟨s, hs, hpeek⟩ := line.peek_spec p (bytes "<>") (by decide)
    rw [parseredirs, hpeek]
    rw [← hs] at hn ⊢
    dsimp only
    split
    next hmore =>
      obtain ⟨op, us, hop⟩ := starts_redir hmore
      obtain ⟨hret, hps, -⟩ := CString.gettoken_cons hop
      split
      next => trivial
      next hfile =>
        obtain ⟨w, ts, hw, hts, hspan, htext⟩ := gettoken_word (not_not.mp hfile)
        rw [hps] at hw
        subst hw
        rw [hop, length_cons, length_cons] at hn
        rw [hret]
        refine (ih (by rw [hts]; omega) (hc.redirTo hspan op)).mono fun c' p' h => ?_
        obtain ⟨rs, hrs, hshows⟩ := h
        refine ⟨⟨op, w⟩ :: rs, ?_, ?_⟩
        · rw [hop, flatMap_cons, Redir.tokens, ← hts, hrs]
          rfl
        · rw [htext] at hshows
          exact hshows
    next => exact ⟨[], by simp, hc⟩

theorem parseargs_sound {n argc p : Nat} {c : Cmd Span} (hn : (line.ahead p).length < n)
    (hc : Shows line c (wrap (.exec argv) rs)) (hargc : argc < maxargs) :
    Holds (parseargs line.mem line.es n argc c p) fun c' p' => ∃ args : List Arg,
      line.ahead p = args.flatMap Arg.tokens ++ line.ahead p' ∧ argc + args.length < maxargs ∧
      Shows line c' (wrap (.exec (argv ++ args.map Arg.word)) (rs ++ args.flatMap Arg.redirs)) := by
  induction n generalizing argc p c argv rs with
  | zero => exact absurd hn (Nat.not_lt_zero _)
  | succ n ih =>
    obtain ⟨s, hs, hpeek⟩ := line.peek_spec p (bytes "|)&;") (by decide)
    rw [parseargs, hpeek]
    rw [← hs] at hn ⊢
    dsimp only
    split
    next => exact ⟨[], by simp, by simpa using hargc, by simpa using hc⟩
    next =>
      split
      next hzero =>
        obtain ⟨hs, hps⟩ := gettoken_end hzero
        exact ⟨[], by rw [hs, hps]; rfl, by simpa using hargc, by simpa using hc⟩
      next =>
        split
        next => trivial
        next hword =>
          split
          next => trivial
          next hmax =>
            obtain ⟨w, ts, hw, hts, hspan, htext⟩ := gettoken_word (not_not.mp hword)
            rw [hw, length_cons] at hn
            refine (parseredirs_sound (by rw [hts]; omega) (hc.addArg hspan)).bind ?_
            rintro c1 p1 ⟨rs1, hrs1, hshows1⟩
            rw [hts] at hrs1
            have hlen := congrArg length hrs1
            rw [length_append] at hlen
            rw [wrap_wrap, htext] at hshows1
            dsimp only
            refine (ih (by omega) hshows1 (by omega)).mono ?_
            rintro c' p' ⟨args, hargs, hcount, hshows⟩
            refine ⟨⟨w, rs1⟩ :: args, ?_, ?_, ?_⟩
            · simp [hw, hrs1, hargs, Arg.tokens]
            · simp only [length_cons]
              omega
            · simpa using hshows

theorem parsebacks_sound {n p : Nat} {c : Cmd Span} {t : Cmd (List UInt8)}
    (hn : (line.ahead p).length < n) (hc : Shows line c t) :
    Holds (parsebacks line.mem line.es n c p) fun c' p' => ∃ k : Nat,
      line.ahead p = replicate k .amp ++ line.ahead p' ∧ Shows line c' (Cmd.back^[k] t) := by
  induction n generalizing p c t with
  | zero => exact absurd hn (Nat.not_lt_zero _)
  | succ n ih =>
    obtain ⟨s, hs, hpeek⟩ := line.peek_spec p (bytes "&") (by decide)
    rw [parsebacks, hpeek]
    rw [← hs] at hn ⊢
    dsimp only
    split
    next hmore =>
      obtain ⟨us, hus⟩ := starts_amp hmore
      obtain ⟨-, hps, -⟩ := CString.gettoken_cons hus
      rw [hus, length_cons] at hn
      refine (ih (by rw [hps]; omega) hc.back).mono ?_
      rintro c' p' ⟨k, hk, hshows⟩
      refine ⟨k + 1, ?_, hshows⟩
      rw [hus, replicate_succ, cons_append, ← hk, hps]
    next => exact ⟨0, by simp, hc⟩

/-- A function went past a derivation of the nonterminal and returned its tree. -/
def Derives (line : CString) (G : List Token → Cmd (List UInt8) → Prop) (p : Nat) (c : Cmd Span)
    (p' : Nat) : Prop :=
  ∃ ts t, line.ahead p = ts ++ line.ahead p' ∧ G ts t ∧ Shows line c t

theorem Derives.length_le {G : List Token → Cmd (List UInt8) → Prop} {p p' : Nat} {c : Cmd Span}
    (h : Derives line G p c p') : (line.ahead p').length ≤ (line.ahead p).length := by
  obtain ⟨ts, -, hts, -⟩ := h
  rw [hts, length_append]
  exact Nat.le_add_left ..

/-- With `n` turns left, `k` of them for the function itself, it goes past a derivation. -/
def Sound (line : CString) (n k : Nat) (f : Mem → Nat → Nat → Nat → Parsed)
    (G : List Token → Cmd (List UInt8) → Prop) : Prop :=
  ∀ p, 4 * (line.ahead p).length + k ≤ n → Holds (f line.mem line.es n p) (Derives line G p)

section Step

variable {n : Nat}

theorem parseline_step (hpipe : Sound line n 3 parsepipe Pipe)
    (hline : Sound line n 4 parseline Line) :
    Sound line (n + 1) 4 parseline Line := by
  intro p hn
  rw [parseline]
  refine (hpipe p (by omega)).bind ?_
  rintro c1 p1 h1
  have hlen1 := h1.length_le
  obtain ⟨ts, t, hts, hp, hc1⟩ := h1
  refine (parsebacks_sound (by omega) hc1).bind ?_
  rintro c2 p2 ⟨k, hk, hc2⟩
  have hlen2 := congrArg length hk
  rw [length_append] at hlen2
  dsimp only
  obtain ⟨s, hs, hpeek⟩ := line.peek_spec p2 (bytes ";") (by decide)
  rw [hpeek]
  rw [← hs] at hk hlen2
  split
  next hmore =>
    obtain ⟨us, hus⟩ := starts_semi hmore
    obtain ⟨-, hps, -⟩ := CString.gettoken_cons hus
    rw [hus, length_cons] at hlen2
    refine (hline _ (by rw [hps]; omega)).bind ?_
    rintro c3 p3 ⟨us', u, hus', hl, hc3⟩
    refine ⟨_, _, ?_, .list k hp hl, hc2.list hc3⟩
    rw [hts, hk, hus, ← hps, hus']
    simp
  next => exact ⟨_, _, by rw [hts, hk, append_assoc], .last k hp, hc2⟩

theorem parsepipe_step (hexec : Sound line n 2 parseexec Exec)
    (hpipe : Sound line n 3 parsepipe Pipe) :
    Sound line (n + 1) 3 parsepipe Pipe := by
  intro p hn
  rw [parsepipe]
  refine (hexec p (by omega)).bind ?_
  rintro c1 p1 h1
  have hlen1 := h1.length_le
  obtain ⟨ts, t, hts, he, hc1⟩ := h1
  dsimp only
  obtain ⟨s, hs, hpeek⟩ := line.peek_spec p1 (bytes "|") (by decide)
  rw [hpeek]
  rw [← hs] at hts hlen1
  split
  next hmore =>
    obtain ⟨us, hus⟩ := starts_bar hmore
    obtain ⟨-, hps, -⟩ := CString.gettoken_cons hus
    rw [hus, length_cons] at hlen1
    refine (hpipe _ (by rw [hps]; omega)).bind ?_
    rintro c2 p2 ⟨us', u, hus', hp, hc2⟩
    refine ⟨_, _, ?_, .pipe he hp, hc1.pipe hc2⟩
    rw [hts, hus, ← hps, hus']
    simp
  next => exact ⟨ts, t, hts, .last he, hc1⟩

theorem parseblock_step (hline : Sound line n 4 parseline Line) :
    Sound line (n + 1) 1 parseblock Exec := by
  intro p hn
  obtain ⟨s, hs, hpeek⟩ := line.peek_spec p (bytes "(") (by decide)
  rw [parseblock, hpeek]
  unfold Derives
  rw [← hs] at hn ⊢
  dsimp only
  split
  next => trivial
  next hopen =>
    obtain ⟨us, hus⟩ := starts_lparen (by simpa using hopen)
    obtain ⟨-, hps, -⟩ := CString.gettoken_cons hus
    rw [hus, length_cons] at hn
    refine (hline _ (by rw [hps]; omega)).bind ?_
    rintro c1 p1 h1
    have hlen1 := h1.length_le
    obtain ⟨ts, t, hts, hl, hc1⟩ := h1
    rw [hps] at hts hlen1
    obtain ⟨s1, hs1, hpeek1⟩ := line.peek_spec p1 (bytes ")") (by decide)
    rw [hpeek1]
    rw [← hs1] at hts hlen1
    split
    next => trivial
    next hclose =>
      obtain ⟨vs, hvs⟩ := starts_rparen (by simpa using hclose)
      obtain ⟨-, hps1, -⟩ := CString.gettoken_cons hvs
      rw [hvs, length_cons] at hlen1
      refine (parseredirs_sound (by rw [hps1]; omega) hc1).mono ?_
      rintro c2 p2 ⟨rs, hrs, hc2⟩
      refine ⟨_, _, ?_, .block rs hl, hc2⟩
      rw [hus, hts, hvs, ← hps1, hrs]
      simp

theorem parseexec_step (hblock : Sound line n 1 parseblock Exec) :
    Sound line (n + 1) 2 parseexec Exec := by
  intro p hn
  rw [parseexec, line.peek_eq (bytes "(") (by decide)]
  rw [← line.ahead_skipBlanks p] at hn
  unfold Derives
  rw [← line.ahead_skipBlanks p]
  generalize skipBlanks line.mem line.es p = s at hn ⊢
  dsimp only
  split
  next => exact hblock s (by omega)
  next =>
    refine (parseredirs_sound (by omega) .execcmd).bind ?_
    rintro c1 p1 ⟨rs, hrs, hc1⟩
    have hlen := congrArg length hrs
    rw [length_append] at hlen
    dsimp only
    refine (parseargs_sound (by omega) hc1 (by decide)).mono ?_
    rintro c2 p2 ⟨args, hargs, hcount, hc2⟩
    refine ⟨_, _, ?_, .simple rs args (by simpa using hcount), hc2⟩
    rw [hrs, hargs, append_assoc]

end Step

/-- The recursion of the parser, whose fuel goes down with the tokens. -/
theorem parse_sound (n : Nat) :
    (Sound line n 4 parseline Line) ∧
    (Sound line n 3 parsepipe Pipe) ∧
    (Sound line n 2 parseexec Exec) ∧
    Sound line n 1 parseblock Exec := by
  induction n with
  | zero => exact ⟨nofun, nofun, nofun, nofun⟩
  | succ n ih =>
    obtain ⟨hline, hpipe, hexec, hblock⟩ := ih
    exact ⟨parseline_step hpipe hline, parsepipe_step hexec hpipe, parseexec_step hblock,
      parseblock_step hline⟩

/-! ### Completeness -/

/-- The function returns the tree, in front of the tokens that are left. -/
def Returns (line : CString) (r : Parsed) (t : Cmd (List UInt8)) (left : List Token) : Prop :=
  ∃ c p, r = .ok (c, p) ∧ line.ahead p = left ∧ Shows line c t

theorem Returns.bind {f : Cmd Span × Nat → Parsed} {t u : Cmd (List UInt8)}
    {left left' : List Token} (hr : Returns line r t left)
    (hf : ∀ c p, line.ahead p = left → Shows line c t → Returns line (f (c, p)) u left') :
    Returns line (r >>= f) u left' := by
  obtain ⟨c, p, rfl, hleft, hshows⟩ := hr
  exact hf c p hleft hshows

/-- Nothing is left, or one of the symbols is next. -/
def Stops (toks : List UInt8) (ts : List Token) : Prop := ts = [] ∨ starts toks ts = true

namespace Stops

variable {toks toks' : List UInt8} {ts : List Token}

theorem starts_eq_false (h : Stops toks ts) (hne : ∀ c ∈ toks, toks'.contains c = false) :
    starts toks' ts = false := by
  obtain rfl | h := h
  · rfl
  match ts, h with
  | t :: ts, h =>
    rw [starts_cons] at h ⊢
    cases hs : t.symbol with
    | none => rfl
    | some c =>
      rw [hs] at h
      exact hne c (by simpa using h)

theorem mono (h : Stops toks ts) (hsub : ∀ c ∈ toks, toks'.contains c = true) :
    Stops toks' ts := by
  obtain rfl | h := h
  · exact .inl rfl
  match ts, h with
  | t :: ts, h =>
    refine .inr ?_
    rw [starts_cons] at h ⊢
    cases hs : t.symbol with
    | none =>
      rw [hs] at h
      cases h
    | some c =>
      rw [hs] at h
      exact hsub c (by simpa using h)

end Stops

theorem parseredirs_complete {n p : Nat} {c : Cmd Span} {t : Cmd (List UInt8)} {left : List Token}
    (hn : (line.ahead p).length < n) (hc : Shows line c t)
    (hp : line.ahead p = rs.flatMap Redir.tokens ++ left)
    (hleft : starts (bytes "<>") left = false) :
    Returns line (parseredirs line.mem line.es n c p) (wrap t rs) left := by
  induction rs generalizing n p c t with
  | nil =>
    obtain ⟨n, rfl⟩ := Nat.exists_eq_add_one_of_ne_zero (Nat.ne_zero_of_lt hn)
    rw [parseredirs, line.peek_eq (bytes "<>") (by decide)]
    dsimp only
    rw [hp, flatMap_nil, nil_append, hleft, if_neg (by decide)]
    exact ⟨c, _, rfl, by rw [line.ahead_skipBlanks, hp]; rfl, hc⟩
  | cons r rs ih =>
    obtain ⟨n, rfl⟩ := Nat.exists_eq_add_one_of_ne_zero (Nat.ne_zero_of_lt hn)
    obtain ⟨s, hs, hpeek⟩ := line.peek_spec p (bytes "<>") (by decide)
    rw [parseredirs, hpeek]
    rw [← hs] at hn hp
    have hop : line.ahead s =
        .redir r.op :: .word r.file :: (rs.flatMap Redir.tokens ++ left) := hp
    obtain ⟨hret, hps, -⟩ := CString.gettoken_cons hop
    obtain ⟨hret', hps', hword⟩ := CString.gettoken_cons hps
    obtain ⟨hspan, htext⟩ := hword r.file rfl
    have hmore : starts (bytes "<>") (line.ahead s) = true := by
      rw [hop, starts_cons]
      cases r.op <;> decide
    dsimp only
    rw [if_pos hmore, hret', if_neg (by simp [Token.code]), hret]
    rw [hop, length_cons, length_cons] at hn
    have hlen : (line.ahead (gettoken line.mem line.es (gettoken line.mem line.es s).ps).ps).length
        < n := by
      rw [hps']
      omega
    have hnext := ih hlen (hc.redirTo hspan r.op) hps'
    rw [htext] at hnext
    exact hnext

theorem parseargs_complete {args : List Arg} {n argc p : Nat} {c : Cmd Span}
    {argv : List (List UInt8)} {rs : List Redir} {left : List Token}
    (hn : (line.ahead p).length < n) (hc : Shows line c (wrap (.exec argv) rs))
    (hp : line.ahead p = args.flatMap Arg.tokens ++ left) (hargc : argc + args.length < maxargs)
    (hleft : Stops (bytes "|)&;") left) :
    Returns line (parseargs line.mem line.es n argc c p)
      (wrap (.exec (argv ++ args.map Arg.word)) (rs ++ args.flatMap Arg.redirs)) left := by
  induction args generalizing n argc p c argv rs with
  | nil =>
    obtain ⟨n, rfl⟩ := Nat.exists_eq_add_one_of_ne_zero (Nat.ne_zero_of_lt hn)
    obtain ⟨s, hs, hpeek⟩ := line.peek_spec p (bytes "|)&;") (by decide)
    rw [parseargs, hpeek]
    rw [← hs] at hn hp
    rw [flatMap_nil, nil_append] at hp
    dsimp only
    obtain rfl | hstop := hleft
    · obtain ⟨hret, hps⟩ := CString.gettoken_nil hp
      rw [hp, if_neg (by decide), if_pos hret]
      exact ⟨c, _, rfl, hps, by simpa using hc⟩
    · rw [hp, if_pos hstop]
      exact ⟨c, s, rfl, hp, by simpa using hc⟩
  | cons a args ih =>
    obtain ⟨n, rfl⟩ := Nat.exists_eq_add_one_of_ne_zero (Nat.ne_zero_of_lt hn)
    obtain ⟨s, hs, hpeek⟩ := line.peek_spec p (bytes "|)&;") (by decide)
    rw [parseargs, hpeek]
    rw [← hs] at hn hp
    have hword : line.ahead s = .word a.word ::
        (a.redirs.flatMap Redir.tokens ++ (args.flatMap Arg.tokens ++ left)) := by
      rw [hp, flatMap_cons, Arg.tokens, append_assoc]
      rfl
    obtain ⟨hret, hps, hspan⟩ := CString.gettoken_cons hword
    obtain ⟨hspan, htext⟩ := hspan a.word rfl
    rw [hword, length_cons] at hn
    rw [length_cons] at hargc
    dsimp only
    rw [hword, if_neg (by simp), hret, Token.code, if_neg (by decide), if_neg (by simp),
      if_neg (by omega)]
    have hnext : starts (bytes "<>") (args.flatMap Arg.tokens ++ left) = false := by
      cases args with
      | nil => exact hleft.starts_eq_false (by decide)
      | cons => rfl
    refine (parseredirs_complete (by rw [hps]; omega) (hc.addArg hspan) hps hnext).bind ?_
    intro c1 p1 hp1 hc1
    rw [wrap_wrap, htext] at hc1
    have hlen := congrArg length hp1
    rw [length_append] at hn
    have hlen1 : (line.ahead p1).length < n := by omega
    have hcount : argc + 1 + args.length < maxargs := by omega
    simpa using ih hlen1 hc1 hp1 hcount

theorem parsebacks_complete {k n p : Nat} {c : Cmd Span} {t : Cmd (List UInt8)}
    {left : List Token} (hn : (line.ahead p).length < n) (hc : Shows line c t)
    (hp : line.ahead p = replicate k .amp ++ left)
    (hleft : starts (bytes "&") left = false) :
    Returns line (parsebacks line.mem line.es n c p) (Cmd.back^[k] t) left := by
  induction k generalizing n p c t with
  | zero =>
    obtain ⟨n, rfl⟩ := Nat.exists_eq_add_one_of_ne_zero (Nat.ne_zero_of_lt hn)
    rw [parsebacks, line.peek_eq (bytes "&") (by decide)]
    dsimp only
    rw [hp, replicate_zero, nil_append, hleft, if_neg (by decide)]
    exact ⟨c, _, rfl, by rw [line.ahead_skipBlanks, hp]; rfl, hc⟩
  | succ k ih =>
    obtain ⟨n, rfl⟩ := Nat.exists_eq_add_one_of_ne_zero (Nat.ne_zero_of_lt hn)
    obtain ⟨s, hs, hpeek⟩ := line.peek_spec p (bytes "&") (by decide)
    rw [parsebacks, hpeek]
    rw [← hs] at hn hp
    rw [replicate_succ, cons_append] at hp
    obtain ⟨-, hps, -⟩ := CString.gettoken_cons hp
    rw [hp, length_cons] at hn
    dsimp only
    rw [hp, starts_cons, if_pos (by decide)]
    exact ih (by rw [hps]; omega) hc.back hps

/-- With `n` turns left, `k` of them for the function itself, it follows a derivation up to one of
the symbols. -/
def Complete (line : CString) (n k : Nat) (f : Mem → Nat → Nat → Nat → Parsed)
    (G : List Token → Cmd (List UInt8) → Prop) (toks : String) : Prop :=
  ∀ {p ts t left}, 4 * (line.ahead p).length + k ≤ n → G ts t → line.ahead p = ts ++ left →
    Stops (bytes toks) left → Returns line (f line.mem line.es n p) t left

section Step

variable {n p : Nat} {ts left : List Token} {t : Cmd (List UInt8)}

theorem parseline_complete (hpipe : Complete line n 3 parsepipe Pipe ")&;")
    (hline : Complete line n 4 parseline Line ")") :
    Complete line (n + 1) 4 parseline Line ")" := by
  intro p ts t left hn ht hp hleft
  have hamps : ∀ k {us : List Token}, Stops (bytes ");") us →
      Stops (bytes ")&;") (replicate k .amp ++ us) := by
    intro k us hus
    cases k with
    | zero => exact hus.mono (by decide)
    | succ k => exact .inr (by rw [replicate_succ, cons_append, starts_cons]; decide)
  have hlen := congrArg length hp
  rw [parseline]
  cases ht with
  | last k ht =>
    rw [append_assoc] at hp
    simp only [length_append] at hlen
    refine (hpipe (by omega) ht hp (hamps k (hleft.mono (by decide)))).bind ?_
    intro c1 p1 hp1 hc1
    have hlen1 := congrArg length hp1
    rw [length_append] at hlen1
    refine (parsebacks_complete (by omega) hc1 hp1 (hleft.starts_eq_false (by decide))).bind ?_
    intro c2 p2 hp2 hc2
    dsimp only
    rw [line.peek_eq (bytes ";") (by decide)]
    dsimp only
    rw [hp2, hleft.starts_eq_false (by decide), if_neg (by decide)]
    exact ⟨c2, _, rfl, by rw [line.ahead_skipBlanks, hp2], hc2⟩
  | @list ts c us d k ht hl =>
    have hp : line.ahead p = ts ++ (replicate k .amp ++ (.semi :: (us ++ left))) := by
      rw [hp]
      simp
    simp only [length_append, length_cons] at hlen
    have hsemi : Stops (bytes ");") (.semi :: (us ++ left)) :=
      .inr (by rw [starts_cons]; decide)
    refine (hpipe (by omega) ht hp (hamps k hsemi)).bind ?_
    intro c1 p1 hp1 hc1
    have hlen1 := congrArg length hp1
    simp only [length_append, length_cons] at hlen1
    refine (parsebacks_complete (by omega) hc1 hp1 (by rw [starts_cons]; decide)).bind ?_
    intro c2 p2 hp2 hc2
    dsimp only
    obtain ⟨s, hs, hpeek⟩ := line.peek_spec p2 (bytes ";") (by decide)
    rw [hpeek]
    rw [← hs] at hp2
    obtain ⟨-, hps, -⟩ := CString.gettoken_cons hp2
    dsimp only
    rw [hp2, starts_cons, if_pos (by decide)]
    refine (hline (by rw [hps, length_append]; omega) hl hps hleft).bind ?_
    intro c3 p3 hp3 hc3
    exact ⟨_, p3, rfl, hp3, hc2.list hc3⟩

theorem parsepipe_complete (hexec : Complete line n 2 parseexec Exec "|)&;")
    (hpipe : Complete line n 3 parsepipe Pipe ")&;") :
    Complete line (n + 1) 3 parsepipe Pipe ")&;" := by
  intro p ts t left hn ht hp hleft
  have hlen := congrArg length hp
  rw [parsepipe]
  cases ht with
  | last ht =>
    refine (hexec (by omega) ht hp (hleft.mono (by decide))).bind ?_
    intro c1 p1 hp1 hc1
    dsimp only
    rw [line.peek_eq (bytes "|") (by decide)]
    dsimp only
    rw [hp1, hleft.starts_eq_false (by decide), if_neg (by decide)]
    exact ⟨c1, _, rfl, by rw [line.ahead_skipBlanks, hp1], hc1⟩
  | @pipe ts c us d ht hu =>
    have hp : line.ahead p = ts ++ (.bar :: (us ++ left)) := by
      rw [hp]
      simp
    simp only [length_append, length_cons] at hlen
    refine (hexec (by omega) ht hp (.inr (by rw [starts_cons]; decide))).bind ?_
    intro c1 p1 hp1 hc1
    dsimp only
    obtain ⟨s, hs, hpeek⟩ := line.peek_spec p1 (bytes "|") (by decide)
    rw [hpeek]
    rw [← hs] at hp1
    obtain ⟨-, hps, -⟩ := CString.gettoken_cons hp1
    dsimp only
    rw [hp1, starts_cons, if_pos (by decide)]
    refine (hpipe (by rw [hps, length_append]; omega) hu hps hleft).bind ?_
    intro c2 p2 hp2 hc2
    exact ⟨_, p2, rfl, hp2, hc1.pipe hc2⟩

theorem parseblock_complete {rs : List Redir} (hline : Complete line n 4 parseline Line ")")
    (hn : 4 * (line.ahead p).length + 1 ≤ n + 1) (ht : Line ts t)
    (hp : line.ahead p = .lparen :: (ts ++ .rparen :: (rs.flatMap Redir.tokens ++ left)))
    (hleft : Stops (bytes "|)&;") left) :
    Returns line (parseblock line.mem line.es (n + 1) p) (wrap t rs) left := by
  obtain ⟨s, hs, hpeek⟩ := line.peek_spec p (bytes "(") (by decide)
  rw [parseblock, hpeek]
  rw [← hs] at hp hn
  obtain ⟨-, hps, -⟩ := CString.gettoken_cons hp
  rw [hp] at hn
  simp only [length_append, length_cons] at hn
  dsimp only
  rw [hp, starts_cons, if_neg (by decide)]
  refine (hline (by rw [hps, length_append, length_cons, length_append]; omega) ht hps
    (.inr (by rw [starts_cons]; decide))).bind ?_
  intro c1 p1 hp1 hc1
  obtain ⟨s1, hs1, hpeek1⟩ := line.peek_spec p1 (bytes ")") (by decide)
  rw [hpeek1]
  rw [← hs1] at hp1
  obtain ⟨-, hps1, -⟩ := CString.gettoken_cons hp1
  dsimp only
  rw [hp1, starts_cons, if_neg (by decide)]
  exact parseredirs_complete (by rw [hps1, length_append]; omega) hc1 hps1
    (hleft.starts_eq_false (by decide))

theorem parseexec_complete
    (hblock : ∀ {p ts t left} {rs : List Redir}, 4 * (line.ahead p).length + 1 ≤ n → Line ts t →
      line.ahead p = .lparen :: (ts ++ .rparen :: (rs.flatMap Redir.tokens ++ left)) →
      Stops (bytes "|)&;") left →
      Returns line (parseblock line.mem line.es n p) (wrap t rs) left) :
    Complete line (n + 1) 2 parseexec Exec "|)&;" := by
  intro p ts t left hn ht hp hleft
  obtain ⟨s, hs, hpeek⟩ := line.peek_spec p (bytes "(") (by decide)
  rw [parseexec, hpeek]
  rw [← hs] at hp hn
  dsimp only
  cases ht with
  | @block ts c rs hl =>
    have hp : line.ahead s = .lparen :: (ts ++ .rparen :: (rs.flatMap Redir.tokens ++ left)) := by
      rw [hp]
      simp
    have hopen : starts (bytes "(") (line.ahead s) = true := by
      rw [hp, starts_cons]
      decide
    rw [if_pos hopen]
    exact hblock (by omega) hl hp hleft
  | simple rs args hcount =>
    rw [append_assoc] at hp
    have hargs : starts (bytes "<>") (args.flatMap Arg.tokens ++ left) = false := by
      cases args with
      | nil => exact hleft.starts_eq_false (by decide)
      | cons => rfl
    have hopen : starts (bytes "(") (line.ahead s) = false := by
      rw [hp]
      cases rs with
      | nil =>
        cases args with
        | nil => exact hleft.starts_eq_false (by decide)
        | cons => rfl
      | cons r rs =>
        rw [flatMap_cons, Redir.tokens, cons_append, cons_append, starts_cons]
        cases r.op <;> decide
    rw [hopen, if_neg (by decide)]
    refine (parseredirs_complete (by omega) .execcmd hp hargs).bind ?_
    intro c1 p1 hp1 hc1
    have hlen := congrArg length hp
    have hlen1 := congrArg length hp1
    rw [length_append] at hlen
    exact parseargs_complete (by dsimp only; omega) hc1 hp1 (by simpa using hcount) hleft

end Step

theorem parse_complete (n : Nat) :
    (Complete line n 4 parseline Line ")") ∧
    (Complete line n 3 parsepipe Pipe ")&;") ∧
    (Complete line n 2 parseexec Exec "|)&;") ∧
    ∀ {p ts t left} {rs : List Redir}, 4 * (line.ahead p).length + 1 ≤ n → Line ts t →
      line.ahead p = .lparen :: (ts ++ .rparen :: (rs.flatMap Redir.tokens ++ left)) →
      Stops (bytes "|)&;") left →
      Returns line (parseblock line.mem line.es n p) (wrap t rs) left := by
  induction n with
  | zero => exact ⟨nofun, nofun, nofun, nofun⟩
  | succ n ih =>
    obtain ⟨hline, hpipe, hexec, hblock⟩ := ih
    exact ⟨parseline_complete hpipe hline, parsepipe_complete hexec hpipe,
      parseexec_complete hblock, parseblock_complete hline⟩

end Sh
