import TxChain.Json.Parser

/-!
# How far the parser reads

On every text the parser comes to an answer within the bounds on its steps. A value other
than a number is settled by its own text: whatever is appended, the same value is read.
A number is settled as soon as something else follows it.
-/

namespace TxChain.Json

open Parsing

variable {s r : Text} {c : Char} {n m depths depths' : ℕ}

/-! ### Characters -/

theorem firm_getc : Firm getc where
  shrinks s c r h := by
    cases s with
    | nil => cases h
    | cons d s =>
        obtain ⟨rfl, rfl⟩ := Prod.mk.inj (Except.ok.inj h)
        simp
  settles s c r h t := by
    cases s with
    | nil => cases h
    | cons d s =>
        obtain ⟨rfl, rfl⟩ := Prod.mk.inj (Except.ok.inj h)
        rfl
  lasts n s _ := by cases s <;> rintro ⟨⟩

/-- Reading a character leaves a shorter text. -/
theorem lasts_getc_bind {α : Type} {q : Char → Parser Char α} (hq : ∀ c, Lasts (q c) n) :
    Lasts (getc >>= q) (n + 1) := by
  intro s hs
  cases s with
  | nil => rintro ⟨⟩
  | cons c s =>
      rw [bind_ok (a := c) (t := s) rfl]
      exact hq c (by simpa using hs)

theorem expect_cases (c : Char) (s : Text) :
    (expect c s = .ok (false, []) ∧ skipWs s = []) ∨
      (∃ r, expect c s = .ok (true, r) ∧ skipWs s = c :: r) ∨
      ∃ d r, d ≠ c ∧ expect c s = .ok (false, d :: r) ∧ skipWs s = d :: r := by
  rw [expect]
  cases skipWs s with
  | nil => exact .inl ⟨rfl, rfl⟩
  | cons d r =>
      obtain rfl | hne := eq_or_ne d c
      · exact .inr (.inl ⟨r, if_pos rfl, rfl⟩)
      · exact .inr (.inr ⟨d, r, hne, if_neg hne, rfl⟩)

theorem length_skipWs_le (s : Text) : (skipWs s).length ≤ s.length :=
  (List.dropWhile_suffix _).length_le

theorem skipWs_append (h : skipWs s = c :: r) (t : Text) : skipWs (s ++ t) = c :: r ++ t := by
  have hne : s.dropWhile isWs ≠ [] := by
    rw [← skipWs, h]
    exact List.cons_ne_nil c r
  rw [skipWs, List.dropWhile_append, if_neg (by simpa using hne), ← skipWs, h]

/-- An expected character is taken out of the text. -/
theorem expect_length {b : Bool} (h : expect c s = .ok (b, r)) : r.length + b.toNat ≤ s.length := by
  have hle := length_skipWs_le s
  obtain ⟨hrun, -⟩ | ⟨t, hrun, hskip⟩ | ⟨d, t, -, hrun, hskip⟩ := expect_cases c s
  all_goals
    rw [hrun] at h
    obtain ⟨rfl, rfl⟩ := Prod.mk.inj (Except.ok.inj h)
  · simp
  · rw [hskip] at hle
    simpa using hle
  · rw [hskip] at hle
    simpa using hle

theorem shrinks_expect : Shrinks (expect c) := fun _ _ _ h =>
  Nat.le_of_add_right_le (expect_length h)

theorem lasts_expect : Lasts (expect c) n := by
  intro s _ h
  obtain ⟨hrun, -⟩ | ⟨t, hrun, -⟩ | ⟨d, t, -, hrun, -⟩ := expect_cases c s
  all_goals
    rw [hrun] at h
    cases h

theorem expect_true (h : expect c s = .ok (true, r)) (t : Text) :
    expect c (s ++ t) = .ok (true, r ++ t) := by
  obtain ⟨hrun, -⟩ | ⟨r', hrun, hskip⟩ | ⟨d, r', -, hrun, -⟩ := expect_cases c s
  all_goals
    rw [hrun] at h
    cases h
  rw [expect, skipWs_append hskip, List.cons_append]
  exact if_pos rfl

theorem carries_expect : Carries (expect c) (expect c) := by
  intro s b r h hr t
  obtain ⟨hrun, -⟩ | ⟨r', hrun, hskip⟩ | ⟨d, r', hne, hrun, hskip⟩ := expect_cases c s
  all_goals
    rw [hrun] at h
    obtain ⟨rfl, rfl⟩ := Prod.mk.inj (Except.ok.inj h)
  · exact absurd rfl hr
  · exact expect_true hrun t
  · rw [expect, skipWs_append hskip, List.cons_append]
    exact if_neg hne

/-- Expecting a character and giving up without it. -/
theorem settles_expect {α : Type} {p p' : Parser Char α} (h : Settles p p') :
    Settles (do if ← expect c then p else refuse) (do if ← expect c then p' else refuse) := by
  intro s a r hrun t
  obtain ⟨b, s', hb, ha⟩ := of_bind_ok hrun
  cases b with
  | false => cases ha
  | true =>
      rw [bind_true (expect_true hb t)]
      exact h ha t

theorem shrinks_expect_ite {α : Type} {p q : Parser Char α} (hp : Shrinks p) (hq : Shrinks q) :
    Shrinks (do if ← expect c then p else q) := by
  refine shrinks_expect.bind fun b => ?_
  cases b with
  | true => exact hp
  | false => exact hq

theorem lasts_expect_ite {α : Type} {p q : Parser Char α} (hp : Lasts p n) (hq : Lasts q n) :
    Lasts (do if ← expect c then p else q) n := by
  refine lasts_expect.bind shrinks_expect fun b => ?_
  cases b with
  | true => exact hp
  | false => exact hq

theorem firm_matchText (pattern : Text) : Firm (matchText pattern) := by
  induction pattern with
  | nil => exact firm_pure
  | cons c pattern ih =>
      refine firm_getc.bind fun d => ?_
      split
      · exact ih
      · exact firm_refuse

/-! ### Strings -/

theorem firm_parseHexes (i uniCh : ℕ) : Firm (parseHexes i uniCh) := by
  induction i generalizing uniCh with
  | zero => exact firm_pure
  | succ i ih =>
      refine firm_getc.bind fun c => ?_
      split
      next hex _ => exact ih (uniCh * 16 + hex)
      next => exact firm_refuse

theorem firm_parseCodepoint : Firm parseCodepoint := by
  have hsecond : ∀ first, Firm (parseSurrogate first) := by
    intro first
    refine (firm_matchText _).bind fun _ => (firm_parseHexes 4 0).bind fun second => ?_
    split
    · exact firm_pure
    · exact firm_refuse
  refine (firm_parseHexes 4 0).bind fun uniCh => ?_
  split
  · split
    · exact firm_refuse
    · exact hsecond uniCh
  · exact firm_pure

theorem firm_escaped (c : Char) : Firm (escaped c) := by
  rw [escaped.eq_def]
  split
  all_goals first
    | exact firm_pure
    | exact firm_parseCodepoint
    | exact firm_refuse

theorem shrinks_parseString (n : ℕ) : Shrinks (parseString n) := by
  induction n with
  | zero => rintro s a r ⟨⟩
  | succ n ih =>
      refine firm_getc.shrinks.bind fun c => ?_
      split
      · exact shrinks_refuse
      · split
        · exact shrinks_pure
        · split
          · exact firm_getc.shrinks.bind fun d => (firm_escaped d).shrinks.bind fun _ =>
              ih.bind fun _ => shrinks_pure
          · exact ih.bind fun _ => shrinks_pure

theorem settles_parseString (h : n ≤ m) : Settles (parseString n) (parseString m) := by
  induction n generalizing m with
  | zero => rintro s a r ⟨⟩
  | succ n ih =>
      obtain ⟨m, rfl⟩ : ∃ k, m = k + 1 := ⟨m - 1, by omega⟩
      have hrest := ih (m := m) (by omega)
      refine firm_getc.settles.bind fun c => ?_
      split
      · exact settles_refuse
      · split
        · exact settles_pure
        · split
          · exact firm_getc.settles.bind fun d => (firm_escaped d).settles.bind fun _ =>
              hrest.bind fun _ => settles_pure
          · exact hrest.bind fun _ => settles_pure

theorem lasts_parseString (n : ℕ) : Lasts (parseString n) n := by
  induction n with
  | zero => exact fun s hs => absurd hs (Nat.not_lt_zero _)
  | succ n ih =>
      refine lasts_getc_bind fun c => ?_
      split
      · exact lasts_refuse
      · split
        · exact lasts_pure
        · split
          · exact (firm_getc.lasts n).bind firm_getc.shrinks fun d =>
              ((firm_escaped d).lasts n).bind (firm_escaped d).shrinks fun _ =>
                ih.bind (shrinks_parseString n) fun _ => lasts_pure
          · exact ih.bind (shrinks_parseString n) fun _ => lasts_pure

/-! ### Numbers -/

theorem numberValue_ne_spent (numStr : Text) : numberValue numStr ≠ .error .spent := by
  rw [numberValue]
  split
  · split <;> rintro ⟨⟩
  · split <;> rintro ⟨⟩

theorem parseNumber_ok {v : Value} :
    parseNumber s = .ok (v, r) ↔
      numberValue (s.takeWhile isNumberChar) = .ok v ∧ s.dropWhile isNumberChar = r := by
  rw [parseNumber]
  cases numberValue (s.takeWhile isNumberChar) with
  | error e =>
      constructor
      · rintro ⟨⟩
      · rintro ⟨⟨⟩, -⟩
  | ok v' =>
      constructor
      · intro h
        obtain ⟨rfl, rfl⟩ := Prod.mk.inj (Except.ok.inj h)
        exact ⟨rfl, rfl⟩
      · rintro ⟨⟨⟩, rfl⟩
        rfl

theorem shrinks_parseNumber : Shrinks parseNumber := by
  intro s v r h
  rw [← (parseNumber_ok.mp h).2]
  exact (List.dropWhile_suffix _).length_le

theorem lasts_parseNumber : Lasts parseNumber n := by
  intro s _ h
  rw [parseNumber] at h
  cases hv : numberValue (s.takeWhile isNumberChar) with
  | error e =>
      rw [hv] at h
      exact numberValue_ne_spent _ (hv.trans (congrArg _ (Except.error.inj h)))
  | ok v =>
      rw [hv] at h
      cases h

/-- What follows a number ends it. -/
theorem carries_parseNumber : Carries parseNumber parseNumber := by
  intro s v r h hr t
  obtain ⟨hv, hdrop⟩ := parseNumber_ok.mp h
  have hfirst : s.dropWhile isNumberChar ≠ [] := hdrop ▸ hr
  have htake : (s ++ t).takeWhile isNumberChar = s.takeWhile isNumberChar := by
    rw [List.takeWhile_append, if_neg]
    intro hall
    have hsplit := congrArg List.length
      (List.takeWhile_append_dropWhile (p := isNumberChar) (l := s))
    rw [List.length_append] at hsplit
    exact hfirst (List.eq_nil_of_length_eq_zero (by omega))
  refine parseNumber_ok.mpr ⟨by rw [htake, hv], ?_⟩
  rw [List.dropWhile_append, if_neg (by simpa using hfirst), hdrop]

/-! ### Values -/

section Nested

variable {item item' : Parser Char Value} {α : Type} {close : Char} {empty : α}
  {loop loop' : Parser Char α}

theorem shrinks_bracketed (h : Shrinks loop) : Shrinks (bracketed close empty loop) :=
  shrinks_expect_ite shrinks_pure
    (h.bind fun _ => shrinks_expect_ite shrinks_pure shrinks_refuse)

theorem lasts_bracketed (h : Lasts loop n) (hshrinks : Shrinks loop) :
    Lasts (bracketed close empty loop) n :=
  lasts_expect_ite lasts_pure (h.bind hshrinks fun _ => lasts_expect_ite lasts_pure lasts_refuse)

/-- The closing bracket settles what is in front of it. -/
theorem settles_bracketed (h : Carries loop loop') (hshrinks : Shrinks loop) :
    Settles (bracketed close empty loop) (bracketed close empty loop') := by
  intro s a r hrun t
  obtain ⟨b, s', hb, ha⟩ := of_bind_ok hrun
  cases b with
  | true =>
      obtain ⟨rfl, rfl⟩ := Prod.mk.inj (Except.ok.inj ha)
      exact bind_true (expect_true hb t)
  | false =>
      have hrest : Settles (loop >>= fun x => do if ← expect close then return x else refuse)
          (loop' >>= fun x => do if ← expect close then return x else refuse) := by
        refine h.bind_settles (fun x => settles_expect settles_pure) ?_
        rintro x a r ⟨⟩
      have hne : s' ≠ [] := by
        rintro rfl
        obtain ⟨x, s'', hx, hlast⟩ := of_bind_ok ha
        obtain rfl : s'' = [] := List.eq_nil_of_length_eq_zero (Nat.le_zero.mp (hshrinks hx))
        cases hlast
      have hopen : expect close (s ++ t) = .ok (false, s' ++ t) := carries_expect hb hne t
      rw [bracketed, bind_false hopen]
      exact hrest ha t

theorem shrinks_parseMember (h : Shrinks item) (n : ℕ) (o : Fields) :
    Shrinks (parseMember item n o) :=
  shrinks_expect_ite ((shrinks_parseString n).bind fun _ =>
    shrinks_expect_ite (h.bind fun _ => shrinks_pure) shrinks_refuse) shrinks_refuse

theorem lasts_parseMember (h : Lasts item n) (hshrinks : Shrinks item) (o : Fields) :
    Lasts (parseMember item n o) n :=
  lasts_expect_ite ((lasts_parseString n).bind (shrinks_parseString n) fun _ =>
    lasts_expect_ite (h.bind hshrinks fun _ => lasts_pure) lasts_refuse) lasts_refuse

/-- Expecting a character in front of what is carried. -/
theorem carries_expect_ite {p p' : Parser Char α} (h : Carries p p') (hshrinks : Shrinks p) :
    Carries (do if ← expect close then p else refuse)
      (do if ← expect close then p' else refuse) := by
  refine carries_expect.bind (fun b => ?_) fun b => ?_
  · cases b with
    | true => exact h
    | false => exact settles_refuse.carries
  · cases b with
    | true => exact hshrinks
    | false => exact shrinks_refuse

theorem carries_parseMember (h : Carries item item') (hshrinks : Shrinks item) (hnm : n ≤ m)
    (o : Fields) : Carries (parseMember item n o) (parseMember item' m o) := by
  have hvalue : ∀ key, Shrinks (item >>= fun v => pure (setField o (String.ofList key) v)) :=
    fun key => hshrinks.bind fun _ => shrinks_pure
  refine carries_expect_ite ((settles_parseString hnm).carries.bind (fun key => ?_) fun key => ?_)
    ?_
  · exact carries_expect_ite (h.bind (fun _ => settles_pure.carries) fun _ => shrinks_pure)
      (hvalue key)
  · exact shrinks_expect_ite (hvalue key) shrinks_refuse
  · exact (shrinks_parseString n).bind fun key => shrinks_expect_ite (hvalue key) shrinks_refuse

theorem shrinks_parseArray (h : Shrinks item) (n : ℕ) : Shrinks (parseArray item n) :=
  shrinks_bracketed (shrinks_doWhile (fun _ => h.bind fun _ => shrinks_pure) shrinks_expect n [])

theorem shrinks_parseObject (h : Shrinks item) (n : ℕ) : Shrinks (parseObject item n) :=
  shrinks_bracketed (shrinks_doWhile (shrinks_parseMember h n) shrinks_expect n [])

theorem lasts_parseArray (h : Lasts item n) (hshrinks : Shrinks item) :
    Lasts (parseArray item n) n := by
  have hbody : ∀ xs : List Value, Shrinks (do return xs ++ [← item]) := fun _ =>
    hshrinks.bind fun _ => shrinks_pure
  exact lasts_bracketed (lasts_doWhile (fun _ => h.bind hshrinks fun _ => lasts_pure) hbody
    lasts_expect (fun _ _ _ => expect_length) le_rfl []) (shrinks_doWhile hbody shrinks_expect n [])

theorem lasts_parseObject (h : Lasts item n) (hshrinks : Shrinks item) :
    Lasts (parseObject item n) n :=
  lasts_bracketed (lasts_doWhile (lasts_parseMember h hshrinks) (shrinks_parseMember hshrinks n)
    lasts_expect (fun _ _ _ => expect_length) le_rfl [])
    (shrinks_doWhile (shrinks_parseMember hshrinks n) shrinks_expect n [])

theorem settles_parseArray (h : Carries item item') (hshrinks : Shrinks item) (hnm : n ≤ m) :
    Settles (parseArray item n) (parseArray item' m) := by
  have hbody : ∀ xs : List Value, Shrinks (do return xs ++ [← item]) := fun _ =>
    hshrinks.bind fun _ => shrinks_pure
  exact settles_bracketed (carries_doWhile
    (fun _ => h.bind (fun _ => settles_pure.carries) fun _ => shrinks_pure) hbody carries_expect
    shrinks_expect hnm []) (shrinks_doWhile hbody shrinks_expect n [])

theorem settles_parseObject (h : Carries item item') (hshrinks : Shrinks item) (hnm : n ≤ m) :
    Settles (parseObject item n) (parseObject item' m) :=
  settles_bracketed (carries_doWhile (carries_parseMember h hshrinks hnm)
    (shrinks_parseMember hshrinks n) carries_expect shrinks_expect hnm [])
    (shrinks_doWhile (shrinks_parseMember hshrinks n) shrinks_expect n [])

end Nested

section Values

variable {item item' : ℕ → Parser Char Value}

/-- The kinds of values behind their first character, in two runs of the parser, of which the
second may nest deeper. -/
theorem parseBehind_cases (item item' : ℕ → Parser Char Value)
    {P : Parser Char Value → Parser Char Value → Prop} (hdepths : depths ≤ depths')
    (hrefuse : ∀ p, P refuse p)
    (hword : ∀ pattern (v : Value), P (do matchText pattern; return v)
      (do matchText pattern; return v))
    (hstring : P (do return .string (← parseString n)) (do return .string (← parseString m)))
    (harray : P (do return .array (← parseArray (item (depths - 1)) n))
      (do return .array (← parseArray (item' (depths' - 1)) m)))
    (hobject : P (do return .object (← parseObject (item depths) n))
      (do return .object (← parseObject (item' depths') m))) (c : Char) :
    P (parseBehind item n depths c) (parseBehind item' m depths' c) := by
  rw [parseBehind.eq_def, parseBehind.eq_def]
  split
  · exact hword _ _
  · exact hword _ _
  · exact hword _ _
  · exact hstring
  · split
    · exact hrefuse _
    · rw [if_neg (by omega)]
      exact harray
  · split
    · exact hrefuse _
    · rw [if_neg (by omega)]
      exact hobject
  · exact hrefuse _

theorem firm_word (pattern : Text) (v : Value) : Firm (do matchText pattern; return v) :=
  (firm_matchText pattern).bind fun _ => firm_pure

theorem shrinks_parseBehind (h : ∀ d, Shrinks (item d)) (n depths : ℕ) (c : Char) :
    Shrinks (parseBehind item n depths c) :=
  parseBehind_cases item item (m := n) (P := fun p _ => Shrinks p) le_rfl (fun _ => shrinks_refuse)
    (fun pattern v => (firm_word pattern v).shrinks)
    ((shrinks_parseString n).bind fun _ => shrinks_pure)
    ((shrinks_parseArray (h _) n).bind fun _ => shrinks_pure)
    ((shrinks_parseObject (h _) n).bind fun _ => shrinks_pure) c

theorem lasts_parseBehind (h : ∀ d, Lasts (item d) n) (hshrinks : ∀ d, Shrinks (item d))
    (depths : ℕ) (c : Char) : Lasts (parseBehind item n depths c) n :=
  parseBehind_cases item item (m := n) (P := fun p _ => Lasts p n) le_rfl (fun _ => lasts_refuse)
    (fun pattern v => (firm_word pattern v).lasts n)
    ((lasts_parseString n).bind (shrinks_parseString n) fun _ => lasts_pure)
    ((lasts_parseArray (h _) (hshrinks _)).bind (shrinks_parseArray (hshrinks _) n) fun _ =>
      lasts_pure)
    ((lasts_parseObject (h _) (hshrinks _)).bind (shrinks_parseObject (hshrinks _) n)
      fun _ => lasts_pure) c

theorem settles_parseBehind (h : ∀ d, Carries (item d) (item' d)) (hshrinks : ∀ d, Shrinks (item d))
    (hnm : n ≤ m) (depths : ℕ) (c : Char) :
    Settles (parseBehind item n depths c) (parseBehind item' m depths c) :=
  parseBehind_cases item item' (P := Settles) le_rfl (fun _ => settles_refuse)
    (fun pattern v => (firm_word pattern v).settles)
    ((settles_parseString hnm).bind fun _ => settles_pure)
    ((settles_parseArray (h _) (hshrinks _) hnm).bind fun _ => settles_pure)
    ((settles_parseObject (h _) (hshrinks _) hnm).bind fun _ => settles_pure) c

theorem shrinks_parseToken (h : ∀ d, Shrinks (item d)) (n depths : ℕ) :
    Shrinks (parseToken item n depths) := by
  intro s v r hrun
  cases s with
  | nil => cases hrun
  | cons c s =>
      rw [parseToken] at hrun
      split at hrun
      · exact shrinks_parseNumber hrun
      · exact (shrinks_parseBehind h n depths c hrun).trans (Nat.le_succ _)

theorem lasts_parseToken (h : ∀ d, Lasts (item d) n) (hshrinks : ∀ d, Shrinks (item d))
    (depths : ℕ) : Lasts (parseToken item n depths) (n + 1) := by
  intro s hs
  cases s with
  | nil => rintro ⟨⟩
  | cons c s =>
      rw [parseToken]
      split
      · exact lasts_parseNumber hs
      · exact lasts_parseBehind h hshrinks depths c (by simpa using hs)

theorem carries_parseToken (h : ∀ d, Carries (item d) (item' d)) (hshrinks : ∀ d, Shrinks (item d))
    (hnm : n ≤ m) (depths : ℕ) :
    Carries (parseToken item n depths) (parseToken item' m depths) := by
  intro s v r hrun hr t
  cases s with
  | nil => cases hrun
  | cons c s =>
      rw [parseToken] at hrun
      rw [List.cons_append, parseToken]
      split at hrun
      next hc =>
        rw [if_pos hc]
        exact carries_parseNumber hrun hr t
      next hc =>
        rw [if_neg hc]
        exact settles_parseBehind h hshrinks hnm depths c hrun t

end Values

theorem shrinks_parseValue (n depths : ℕ) : Shrinks (parseValue n depths) := by
  induction n generalizing depths with
  | zero => rintro s v r ⟨⟩
  | succ n ih =>
      intro s v r hrun
      exact (shrinks_parseToken ih n depths hrun).trans (length_skipWs_le s)

theorem lasts_parseValue (n depths : ℕ) : Lasts (parseValue n depths) n := by
  induction n generalizing depths with
  | zero => exact fun s hs => absurd hs (Nat.not_lt_zero _)
  | succ n ih =>
      intro s hs
      exact lasts_parseToken ih (shrinks_parseValue n) depths ((length_skipWs_le s).trans_lt hs)

/-- A run that gets to a value has skipped to its first character. -/
theorem parseValue_skips {v : Value} (h : parseValue (n + 1) depths s = .ok (v, r)) :
    ∃ c s', skipWs s = c :: s' ∧ parseToken (parseValue n) n depths (c :: s') = .ok (v, r) := by
  rw [parseValue] at h
  cases hskip : skipWs s with
  | nil =>
      rw [hskip] at h
      cases h
  | cons c s' =>
      rw [hskip] at h
      exact ⟨c, s', rfl, h⟩

theorem carries_parseValue (hnm : n ≤ m) (depths : ℕ) :
    Carries (parseValue n depths) (parseValue m depths) := by
  induction n generalizing m depths with
  | zero => rintro s v r ⟨⟩
  | succ n ih =>
      obtain ⟨m, rfl⟩ : ∃ k, m = k + 1 := ⟨m - 1, by omega⟩
      intro s v r hrun hr t
      obtain ⟨c, s', hskip, htoken⟩ := parseValue_skips hrun
      rw [parseValue, skipWs_append hskip]
      exact carries_parseToken (ih (by omega)) (shrinks_parseValue n) (by omega) depths htoken hr t

/-! ### Depth -/

section Depth

variable {item item' : Parser Char Value} {α : Type} {close : Char} {empty : α}
  {loop loop' : Parser Char α}

theorem restricts_bracketed (h : Restricts loop loop') :
    Restricts (bracketed close empty loop) (bracketed close empty loop') :=
  Restricts.ite restricts_rfl (h.bind fun _ => restricts_rfl)

theorem restricts_parseArray (h : Restricts item item') (n : ℕ) :
    Restricts (parseArray item n) (parseArray item' n) :=
  restricts_bracketed (restricts_doWhile (fun _ => h.bind fun _ => restricts_rfl) n [])

theorem restricts_parseMember (h : Restricts item item') (n : ℕ) (o : Fields) :
    Restricts (parseMember item n o) (parseMember item' n o) :=
  Restricts.ite (restricts_rfl.bind fun _ =>
    Restricts.ite (h.bind fun _ => restricts_rfl) restricts_rfl) restricts_rfl

theorem restricts_parseObject (h : Restricts item item') (n : ℕ) :
    Restricts (parseObject item n) (parseObject item' n) :=
  restricts_bracketed (restricts_doWhile (restricts_parseMember h n) n [])

/-- A smaller bound on the depth only refuses more. -/
theorem parseValue_restricts (hdepths : depths ≤ depths') (n : ℕ) :
    Restricts (parseValue n depths) (parseValue n depths') := by
  induction n generalizing depths depths' with
  | zero => exact restricts_rfl
  | succ n ih =>
      intro s
      rw [parseValue, parseValue]
      cases skipWs s with
      | nil => exact .inl rfl
      | cons c s' =>
          rw [parseToken, parseToken]
          split
          next => exact .inr rfl
          next =>
            refine parseBehind_cases (parseValue n) (parseValue n) (P := Restricts) hdepths
              (fun _ => restricts_refuse) (fun _ _ => restricts_rfl) restricts_rfl ?_ ?_ c s'
            · exact (restricts_parseArray (ih (by omega)) n).bind fun _ => restricts_rfl
            · exact (restricts_parseObject (ih hdepths) n).bind fun _ => restricts_rfl

end Depth

/-! ### Whole texts -/

/-- The parser comes to an answer on every text. -/
theorem parse_answers (s : Text) : parse s ≠ .error .spent :=
  lasts_parseValue (s.length + 1) defaultMaxDepths (Nat.lt_succ_self _)

/-- A value that is not a number. -/
def Settled : Value → Prop
  | .int64 _ => False
  | .double _ => False
  | _ => True

theorem not_settled_number {numStr : Text} {v : Value} (h : numberValue numStr = .ok v) :
    ¬Settled v := by
  rw [numberValue] at h
  split at h
  · split at h
    · cases h
    · obtain rfl := Except.ok.inj h
      exact id
  · split at h
    · obtain rfl := Except.ok.inj h
      exact id
    · cases h
    · cases h

/-- What is read off the front of a text is read whatever is appended to it, except that digits
may go on a number at its end. -/
theorem parse_append {v : Value} (h : parse s = .ok (v, r)) (hv : Settled v ∨ r ≠ []) (t : Text) :
    parse (s ++ t) = .ok (v, r ++ t) := by
  have hlen : s.length ≤ (s ++ t).length := by simp
  obtain hsettled | hr := hv
  · obtain ⟨c, s', hskip, htoken⟩ := parseValue_skips h
    rw [parseToken] at htoken
    split at htoken
    next => exact absurd hsettled (not_settled_number (parseNumber_ok.mp htoken).1)
    next hc =>
      rw [parse, parseValue, skipWs_append hskip, List.cons_append, parseToken, if_neg hc]
      exact settles_parseBehind (fun d => carries_parseValue hlen d) (shrinks_parseValue _) hlen _ c
        htoken t
  · exact carries_parseValue (Nat.succ_le_succ hlen) defaultMaxDepths h hr t

/-- A quoted text in front of another one. -/
theorem parse_append_quoted :
    parse ("\"a\"".toList ++ "1".toList) = .ok (.string ['a'], "1".toList) :=
  parse_append (v := .string ['a']) (r := []) rfl (.inl trivial) "1".toList

end TxChain.Json
