import TxChain.Json.Documents

/-!
# Reading a written document

The induction over documents: a text is read as the document's value in front of
anything, and refused when it stops early, with nothing or with something foreign behind
the cut. The array bound and the different keys of an object are what it takes.
-/

namespace TxChain

open Parsing Json

variable {P : NumberLiteral → Prop} {depths n : ℕ} {w : Written} {s u rest : Text} {c : Char}

theorem Written.Within.mono {P' : NumberLiteral → Prop} (hP : ∀ l, P l → P' l)
    (h : Written.Within P depths w) : Written.Within P' depths w := by
  induction h with
  | null => exact .null
  | bool => exact .bool
  | number spelled => exact .number (hP _ spelled)
  | string bare => exact .string bare
  | array _ ih => exact .array ih
  | object keys _ ih => exact .object keys ih

/-! ### One value -/

theorem isWs_of_isDigit (h : c.isDigit = true) : isWs c = false := by
  have hspace := Scan.not_isSpace_of_isDigit h
  simp only [Scan.isSpace, Bool.or_eq_false_iff] at hspace
  simp only [isWs, hspace, Bool.or_self]

theorem parseValue_cons (h : isWs c = false) :
    parseValue (n + 1) depths (c :: s) = parseToken (parseValue n) n depths (c :: s) := by
  rw [parseValue, skipWs_cons h]

theorem parseValue_string :
    parseValue (n + 1) depths ('"' :: s) = (parseString n >>= fun s => pure (.string s)) s :=
  parseValue_cons (by decide)

theorem parseValue_array :
    parseValue (n + 1) (depths + 1) ('[' :: s) =
      (parseArray (parseValue n depths) n >>= fun xs => pure (.array xs)) s :=
  parseValue_cons (by decide)

theorem parseValue_object :
    parseValue (n + 1) (depths + 1) ('\x7b' :: s) =
      (parseObject (parseValue n (depths + 1)) n >>= fun o => pure (.object o)) s :=
  parseValue_cons (by decide)

theorem parseValue_number (hc : c.isDigit = true ∨ c = '-') :
    parseValue (n + 1) depths (c :: s) = parseNumber (c :: s) := by
  have hws : isWs c = false := by
    obtain hdigit | rfl := hc
    · exact isWs_of_isDigit hdigit
    · decide
  rw [parseValue_cons hws, parseToken]
  exact if_pos hc

/-! ### The first character -/

/-- What a value begins with. -/
def Begins (c : Char) : Prop := isWs c = false ∧ c ≠ ']' ∧ c ≠ '\x7d'

instance (c : Char) : Decidable (Begins c) := inferInstanceAs (Decidable (_ ∧ _ ∧ _))

theorem NumberLiteral.Readable.head {l : NumberLiteral} (h : l.Readable) :
    ∃ c s, l.text = c :: s ∧ (c.isDigit = true ∨ c = '-') := by
  have hwhole : ∃ c s, l.whole.text = c :: s ∧ (c.isDigit = true ∨ c = '-') := by
    cases hsign : l.whole.sign with
    | plus => exact absurd hsign h.sign
    | minus => exact ⟨'-', l.whole.digits, by rw [Numeral.Literal.text, hsign]; rfl, .inr rfl⟩
    | absent =>
        obtain ⟨c, s, hdigits⟩ := List.exists_cons_of_ne_nil l.whole.nonempty
        refine ⟨c, s, ?_, .inl (l.whole.digit c (by simp [hdigits]))⟩
        rw [Numeral.Literal.text, hsign, hdigits]
        rfl
  obtain ⟨c, s, htext, hc⟩ := hwhole
  exact ⟨c, _, by rw [NumberLiteral.text, htext, List.cons_append], hc⟩

theorem Written.Within.head (h : Written.Within NumberLiteral.Readable depths w) :
    ∃ c s, w.render = c :: s ∧ Begins c := by
  cases h with
  | null => exact ⟨'n', "ull".toList, rfl, by decide⟩
  | @bool _ b =>
      cases b with
      | true => exact ⟨'t', "rue".toList, rfl, by decide⟩
      | false => exact ⟨'f', "alse".toList, rfl, by decide⟩
  | number spelled =>
      obtain ⟨c, s, htext, hc⟩ := spelled.head
      refine ⟨c, s, htext, ?_⟩
      obtain hdigit | rfl := hc
      · refine ⟨isWs_of_isDigit hdigit, ?_, ?_⟩
        all_goals
          rintro rfl
          exact absurd hdigit (by decide)
      · decide
  | string => exact ⟨'"', _, rfl, by decide⟩
  | array => exact ⟨'[', _, rfl, by decide⟩
  | object => exact ⟨'\x7b', _, rfl, by decide⟩

/-! ### Maps and lists -/

/-- A new key comes last. -/
theorem setField_new {o : Fields} {key : String} (h : key ∉ o.map Prod.fst) (v : Value) :
    setField o key v = o ++ [(key, v)] := by
  induction o with
  | nil => rfl
  | cons f o ih =>
      rw [List.map_cons, List.mem_cons, not_or] at h
      rw [setField, if_neg (Ne.symm h.1), ih h.2, List.cons_append]

theorem foldl_setField {fields : WrittenFields} (o : Fields)
    (h : (o.map Prod.fst ++ fields.map Prod.fst).Nodup) :
    fields.foldl (fun o f => setField o f.1 f.2.toValue) o =
      o ++ fields.map fun f => (f.1, f.2.toValue) := by
  induction fields generalizing o with
  | nil => simp
  | cons f fields ih =>
      have hnew : f.1 ∉ o.map Prod.fst := fun hmem =>
        List.disjoint_of_nodup_append h hmem List.mem_cons_self
      rw [List.foldl_cons, setField_new hnew, ih]
      · simp
      · simpa using h

theorem foldl_snoc (f : Written → Value) (vs : List Value) (ws : List Written) :
    ws.foldl (fun vs w => vs ++ [f w]) vs = vs ++ ws.map f := by
  induction ws generalizing vs with
  | nil => simp
  | cons w ws ih =>
      rw [List.foldl_cons, ih, List.map_cons, List.append_assoc, List.singleton_append]

/-! ### The round trip -/

theorem stops_comma (s : Text) : Stops (',' :: s) ∧ expect ',' (',' :: s) = .ok (true, s) :=
  ⟨by simp [Stops, isNumberChar], expect_self (by decide)⟩

/-- What may follow a document: anything, unless it is a number. -/
def Written.Follows (w : Written) (rest : Text) : Prop := ∀ l, w = .number l → Stops rest

/-! ### Brackets -/

section Brackets

variable {α : Type} {close : Char} {empty a : α} {loop : Parser Char α} {ts : List Text} {t : Text}

/-- Texts behind an opening bracket do not close it. -/
def Opens (close : Char) (ts : List Text) : Prop :=
  ∀ t ∈ ts.head?, ∃ c s, t = c :: s ∧ isWs c = false ∧ c ≠ close

theorem Opens.head (h : Opens close ts) (hts : ts ≠ []) :
    ∃ c s, [','].intercalate ts = c :: s ∧ isWs c = false ∧ c ≠ close := by
  obtain ⟨t, ts, rfl⟩ := List.exists_cons_of_ne_nil hts
  obtain ⟨c, s, rfl, hc⟩ := h t rfl
  obtain ⟨others, hothers⟩ := intercalate_cons ',' (c :: s) ts
  exact ⟨c, s ++ others, by rw [hothers, List.cons_append], hc⟩

theorem bracketed_reads (hclose : isWs close = false) (hopens : Opens close ts)
    (hempty : ts = [] → a = empty)
    (hloop : ts ≠ [] → ∀ rest,
      loop ([','].intercalate ts ++ close :: rest) = .ok (a, close :: rest)) :
    Parsing.Reads (bracketed close empty loop) ([','].intercalate ts ++ [close]) a
      fun _ => True := by
  intro rest _
  rw [List.append_assoc, List.singleton_append, bracketed]
  obtain rfl | hts := eq_or_ne ts []
  · rw [hempty rfl]
    exact bind_true (expect_self hclose)
  · obtain ⟨c, s, htext, hws, hne⟩ := hopens.head hts
    have hread := hloop hts rest
    rw [htext, List.cons_append] at hread ⊢
    rw [bind_false (expect_other hws hne), bind_ok hread, bind_true (expect_self hclose)]
    rfl

/-- In front of the closing bracket nothing is complete. -/
theorem bracketed_torn (hclose : close = ']' ∨ close = '\x7d') (hopens : Opens close ts)
    (ht : Foreign t) (hloop : Stalls loop (u ++ t) Foreign) (hu : u <+: [','].intercalate ts) :
    bracketed close empty loop (u ++ t) = .error .refused := by
  have hforeign : ∀ r, Foreign r → expect close r = .ok (false, r) := by
    intro r hr
    refine hr.expect ?_
    obtain rfl | rfl := hclose <;> simp
  have hopen : expect close (u ++ t) = .ok (false, u ++ t) := by
    cases u with
    | nil => exact hforeign t ht
    | cons d u =>
        have hts : ts ≠ [] := by
          rintro rfl
          simp at hu
        obtain ⟨c, s, htext, hws, hne⟩ := hopens.head hts
        rw [htext] at hu
        obtain ⟨rfl, -⟩ := List.cons_prefix_cons.mp hu
        exact expect_other hws hne
  rw [bracketed, bind_false hopen]
  refine hloop.refused fun x r hr => ?_
  rw [bind_false (hforeign r hr)]
  rfl

theorem bracketed_stalls (ht : Foreign t)
    (hwhole : u = [','].intercalate ts ++ [close] →
      ∃ a, bracketed close empty loop (u ++ t) = .ok (a, t))
    (htorn : u <+: [','].intercalate ts → bracketed close empty loop (u ++ t) = .error .refused)
    (hu : u <+: [','].intercalate ts ++ [close]) :
    Stalls (bracketed close empty loop) (u ++ t) Foreign := by
  obtain hinside | ⟨v, hv, hpre, rfl⟩ := prefix_append_cases hu
  · exact .inl (htorn hinside)
  · obtain rfl := eq_of_prefix_singleton hv hpre
    obtain ⟨a, ha⟩ := hwhole rfl
    exact .inr ⟨a, t, ha, ht⟩

end Brackets

/-- A text behind a cut that begins anew and is not taken for the rest of the document. -/
structure Apart (t : Text) : Prop where
  head : ∀ c ∈ t.head?, c = '\x7b'
  string : ∀ n, t.length < n → Stalls (parseString n) t Foreign
  value : ∀ n depths, t.length < n → Stalls (parseValue n depths) t Foreign

theorem apart_nil : Apart [] := by
  refine ⟨by simp, fun n hn => ?_, fun n depths hn => ?_⟩
  · obtain ⟨n, rfl⟩ : ∃ m, n = m + 1 := ⟨n - 1, by omega⟩
    exact .inl rfl
  · obtain ⟨n, rfl⟩ : ∃ m, n = m + 1 := ⟨n - 1, by omega⟩
    exact .inl rfl

theorem Apart.foreign {t : Text} (h : Apart t) : Foreign t := by
  intro c hc
  rw [h.head c hc]
  decide

theorem Apart.stops {t : Text} (h : Apart t) : Stops t := by
  intro c hc
  rw [h.head c hc]
  decide

theorem Apart.no_quote {t : Text} (h : Apart t) (r : Text) : t ≠ '"' :: r := by
  rintro rfl
  exact absurd (h.head '"' rfl) (by decide)

/-! ### Arrays and objects -/

section Nested

variable {item : Parser Char Value} {ws : List Written} {fields : WrittenFields} {t : Text}

theorem opens_items (hhead : ∀ w ∈ ws, ∃ c s, w.render = c :: s ∧ Begins c) :
    Opens ']' (ws.map Written.render) := by
  intro t ht
  obtain ⟨w, hw, rfl⟩ := List.mem_map.mp (List.mem_of_mem_head? ht)
  obtain ⟨c, s, htext, hbegins⟩ := hhead w hw
  exact ⟨c, s, htext, hbegins.1, hbegins.2.1⟩

theorem item_reads {w : Written} (h : Parsing.Reads item w.render w.toValue Stops)
    (vs : List Value) :
    Parsing.Reads (do return vs ++ [← item]) w.render (vs ++ [w.toValue]) Stops := by
  intro rest hrest
  rw [bind_ok (h rest hrest)]
  rfl

theorem parseArray_reads (hn : ([','].intercalate (ws.map Written.render)).length < n)
    (hhead : ∀ w ∈ ws, ∃ c s, w.render = c :: s ∧ Begins c)
    (hitem : ∀ w ∈ ws, Parsing.Reads item w.render w.toValue Stops) :
    Parsing.Reads (parseArray item n) ([','].intercalate (ws.map Written.render) ++ [']'])
      (ws.map Written.toValue) fun _ => True := by
  refine bracketed_reads (by decide) (opens_items hhead) (fun h => ?_) fun hne rest => ?_
  · rw [List.map_eq_nil_iff.mp h, List.map_nil]
  · have hfold := foldl_snoc Written.toValue [] ws
    rw [List.nil_append] at hfold
    rw [← hfold]
    exact doWhile_reads Stops (by simpa using hne) hn
      (fun w hw vs => item_reads (hitem w hw) vs) stops_comma
      (by simp [Stops, isNumberChar]) (expect_other (by decide) (by decide)) []

theorem parseArray_stalls (ht : Apart t) (hn : (u ++ t).length < n)
    (hhead : ∀ w ∈ ws, ∃ c s, w.render = c :: s ∧ Begins c)
    (hitem : ∀ w ∈ ws, w.render.length ≤ (u ++ t).length →
      Parsing.Reads item w.render w.toValue Stops)
    (hcut : ∀ w ∈ ws, ∀ v, (v ++ t).length ≤ (u ++ t).length → v <+: w.render →
      Stalls item (v ++ t) Foreign)
    (hnone : Stalls item t Foreign)
    (hu : u <+: [','].intercalate (ws.map Written.render) ++ [']']) :
    Stalls (parseArray item n) (u ++ t) Foreign := by
  refine bracketed_stalls ht.foreign (fun hwhole => ?_) (fun hinside => ?_) hu
  · have hlen : ([','].intercalate (ws.map Written.render)).length < u.length := by
      rw [hwhole, List.length_append, List.length_singleton]
      exact Nat.lt_succ_self _
    rw [List.length_append] at hn
    have hitem' : ∀ w ∈ ws, Parsing.Reads item w.render w.toValue Stops := by
      intro w hw
      have hlong := length_le_intercalate ',' (List.mem_map_of_mem (f := Written.render) hw)
      exact hitem w hw (by rw [List.length_append]; omega)
    have hread := parseArray_reads (n := n) (by omega) hhead hitem' t trivial
    rw [← hwhole] at hread
    exact ⟨_, hread⟩
  · refine bracketed_torn (.inl rfl) (opens_items hhead) ht.foreign ?_ hinside
    exact doWhile_stalls Stops (fun vs w => vs ++ [Written.toValue w]) hn le_rfl
      (fun w hw hlen vs => item_reads (hitem w hw hlen) vs)
      (fun w hw vs v hv hpre => (hcut w hw v hv hpre).bind fun _ _ => stalls_pure)
      (fun vs => hnone.bind fun _ _ => stalls_pure) stops_comma (fun r hr => hr.expect (by simp)) []
      hinside

/-- The text of a field. -/
def fieldText (f : String × Written) : Text := memberText f.1.toList f.2.render

theorem opens_fields (fields : WrittenFields) : Opens '\x7d' (fields.map fieldText) := by
  intro t ht
  obtain ⟨f, -, rfl⟩ := List.mem_map.mp (List.mem_of_mem_head? ht)
  exact ⟨'"', _, rfl, by decide, by decide⟩

theorem field_reads {f : String × Written} (hbare : Bare f.1.toList) (hn : (fieldText f).length < n)
    (hitem : Parsing.Reads item f.2.render f.2.toValue Stops) (o : Fields) :
    Parsing.Reads (parseMember item n o) (fieldText f) (setField o f.1 f.2.toValue) Stops := by
  have hkey : f.1.toList.length < n := by
    rw [fieldText, memberText] at hn
    simp only [List.length_cons, List.length_append] at hn
    omega
  have hread := parseMember_reads hbare hkey hitem o
  rwa [String.ofList_toList] at hread

theorem parseObject_reads (hn : ([','].intercalate (fields.map fieldText)).length < n)
    (hkeys : KeysFit (fields.map Prod.fst))
    (hitem : ∀ f ∈ fields, Parsing.Reads item f.2.render f.2.toValue Stops) :
    Parsing.Reads (parseObject item n) ([','].intercalate (fields.map fieldText) ++ ['\x7d'])
      (fields.map fun f => (f.1, f.2.toValue)) fun _ => True := by
  refine bracketed_reads (by decide) (opens_fields fields) (fun h => ?_) fun hne rest => ?_
  · rw [List.map_eq_nil_iff.mp h, List.map_nil]
  · have hfold := foldl_setField [] (by simpa using hkeys.1)
    rw [List.nil_append] at hfold
    rw [← hfold]
    refine doWhile_reads Stops (by simpa using hne) hn (fun f hf o => ?_) stops_comma
      (by simp [Stops, isNumberChar]) (expect_other (by decide) (by decide)) []
    have hlong := (length_le_intercalate ',' (List.mem_map_of_mem hf)).trans_lt hn
    exact field_reads (hkeys.2 f.1 (List.mem_map_of_mem hf)) hlong (hitem f hf) o

theorem render_length_le (f : String × Written) : f.2.render.length ≤ (fieldText f).length := by
  rw [fieldText, memberText]
  simp only [List.length_cons, List.length_append]
  omega

theorem parseObject_torn (ht : Apart t) (hn : (u ++ t).length < n)
    (hkeys : KeysFit (fields.map Prod.fst))
    (hitem : ∀ f ∈ fields, f.2.render.length ≤ (u ++ t).length →
      Parsing.Reads item f.2.render f.2.toValue Stops)
    (hcut : ∀ f ∈ fields, ∀ v, (v ++ t).length ≤ (u ++ t).length → v <+: f.2.render →
      Stalls item (v ++ t) Foreign)
    (hu : u <+: [','].intercalate (fields.map fieldText)) :
    parseObject item n (u ++ t) = .error .refused := by
  refine bracketed_torn (.inr rfl) (opens_fields fields) ht.foreign ?_ hu
  refine doWhile_stalls Stops (fun o f => setField o f.1 (Written.toValue f.2)) hn
    le_rfl (fun f hf hlen o => ?_) (fun f hf o v hv hpre => ?_) (fun o =>
      .inl (parseMember_foreign ht.foreign ht.no_quote o)) stops_comma
    (fun r hr => hr.expect (by simp)) [] hu
  · have := render_length_le f
    exact field_reads (hkeys.2 f.1 (List.mem_map_of_mem hf)) (by omega) (hitem f hf (by omega)) o
  · exact parseMember_stalls (hkeys.2 f.1 (List.mem_map_of_mem hf))
      (by omega) ht.foreign ht.no_quote
      ht.string (fun v' hle hpre' => hcut f hf v' (hle.trans hv) hpre') o hpre

theorem parseObject_stalls (ht : Apart t) (hn : (u ++ t).length < n)
    (hkeys : KeysFit (fields.map Prod.fst))
    (hitem : ∀ f ∈ fields, f.2.render.length ≤ (u ++ t).length →
      Parsing.Reads item f.2.render f.2.toValue Stops)
    (hcut : ∀ f ∈ fields, ∀ v, (v ++ t).length ≤ (u ++ t).length → v <+: f.2.render →
      Stalls item (v ++ t) Foreign)
    (hu : u <+: [','].intercalate (fields.map fieldText) ++ ['\x7d']) :
    Stalls (parseObject item n) (u ++ t) Foreign := by
  refine bracketed_stalls ht.foreign (fun hwhole => ?_) (parseObject_torn ht hn hkeys hitem hcut) hu
  have hlen : ([','].intercalate (fields.map fieldText)).length < u.length := by
    rw [hwhole, List.length_append, List.length_singleton]
    exact Nat.lt_succ_self _
  rw [List.length_append] at hn
  have hitem' : ∀ f ∈ fields, Parsing.Reads item f.2.render f.2.toValue Stops := by
    intro f hf
    have hlong := length_le_intercalate ',' (List.mem_map_of_mem (f := fieldText) hf)
    have := render_length_le f
    exact hitem f hf (by rw [List.length_append]; omega)
  have hread := parseObject_reads (n := n) (by omega) hkeys hitem' t trivial
  rw [← hwhole] at hread
  exact ⟨_, hread⟩

end Nested

/-! ### Documents -/

theorem matchText_reads (pattern : Text) :
    Parsing.Reads (matchText pattern) pattern () fun _ => True := by
  intro rest _
  induction pattern with
  | nil => rfl
  | cons c pattern ih =>
      rw [List.cons_append, matchText, bind_ok (a := c) (t := pattern ++ rest) rfl, if_pos rfl]
      exact ih

theorem matchText_stalls {pattern t : Text} (ht : Apart t) (hpattern : '\x7b' ∉ pattern)
    (hu : u <+: pattern) : Stalls (matchText pattern) (u ++ t) Foreign := by
  induction pattern generalizing u with
  | nil =>
      obtain rfl := List.prefix_nil.mp hu
      exact .inr ⟨(), t, rfl, ht.foreign⟩
  | cons c pattern ih =>
      rw [List.mem_cons, not_or] at hpattern
      cases u with
      | nil =>
          cases t with
          | nil => exact .inl rfl
          | cons d t =>
              obtain rfl := ht.head d rfl
              rw [List.nil_append, Stalls, matchText, bind_ok (a := '\x7b') (t := t) rfl,
                if_neg hpattern.1]
              exact .inl rfl
      | cons d u =>
          obtain ⟨rfl, htail⟩ := List.cons_prefix_cons.mp hu
          rw [List.cons_append, Stalls, matchText, bind_ok (a := d) (t := u ++ t) rfl, if_pos rfl]
          exact ih hpattern.2 htail

theorem Written.render_array (ws : List Written) :
    (Written.array ws).render =
      '[' :: ([','].intercalate (ws.map Written.render) ++ [']']) := by
  rw [Written.render, renderItems_eq]

theorem Written.render_object (fields : WrittenFields) :
    (Written.object fields).render =
      '\x7b' :: ([','].intercalate (fields.map fieldText) ++ ['\x7d']) := by
  rw [Written.render, renderMembers_eq]
  rfl

theorem Written.follows_of_stops (w : Written) (h : Stops rest) : w.Follows rest := fun _ _ => h

/-- The parser reads the text of a document as the value it spells, and leaves what follows. -/
theorem Written.Within.reads (h : Written.Within NumberLiteral.Readable depths w)
    (hn : w.render.length < n) :
    Parsing.Reads (parseValue n depths) w.render w.toValue w.Follows := by
  intro rest hrest
  obtain ⟨n, rfl⟩ : ∃ m, n = m + 1 := ⟨n - 1, by omega⟩
  induction h generalizing n rest with
  | null =>
      have hread := matchText_reads "ull".toList rest trivial
      change (matchText "ull".toList >>= fun _ => pure Value.null) ("ull".toList ++ rest) = _
      rw [bind_ok hread]
      rfl
  | @bool _ b =>
      cases b with
      | true =>
          have hread := matchText_reads "rue".toList rest trivial
          change (matchText "rue".toList >>= fun _ => pure (Value.bool true))
            ("rue".toList ++ rest) = _
          rw [bind_ok hread]
          rfl
      | false =>
          have hread := matchText_reads "alse".toList rest trivial
          change (matchText "alse".toList >>= fun _ => pure (Value.bool false))
            ("alse".toList ++ rest) = _
          rw [bind_ok hread]
          rfl
  | @number _ l spelled =>
      obtain ⟨c, s, htext, hc⟩ := spelled.head
      have hread := NumberLiteral.parseNumber_reads spelled rest (hrest l rfl)
      rw [Written.render, htext, List.cons_append] at *
      rw [parseValue_number hc]
      exact hread
  | @string _ s bare =>
      rw [Written.render, List.length_cons, List.length_append, List.length_singleton] at hn
      have hread := parseString_reads (n := n) bare (by omega) rest trivial
      rw [Written.render, List.cons_append, parseValue_string, bind_ok hread]
      rfl
  | @array depths ws each ih =>
      rw [Written.render_array, List.length_cons, List.length_append, List.length_singleton] at hn
      have hitem : ∀ w ∈ ws, Parsing.Reads (parseValue n depths) w.render w.toValue Stops := by
        intro w hw rest hstops
        have hlong := length_le_intercalate ',' (List.mem_map_of_mem (f := Written.render) hw)
        obtain ⟨n, rfl⟩ : ∃ m, n = m + 1 := ⟨n - 1, by omega⟩
        exact ih w hw rest (w.follows_of_stops hstops) n (by omega)
      have hread := parseArray_reads (n := n) (by omega) (fun w hw => (each w hw).head) hitem rest
        trivial
      rw [Written.render_array, List.cons_append, parseValue_array, bind_ok hread, Written.toValue,
        itemValues_eq]
      rfl
  | @object depths fields keys each ih =>
      rw [Written.render_object, List.length_cons, List.length_append, List.length_singleton] at hn
      have hitem : ∀ f ∈ fields,
          Parsing.Reads (parseValue n (depths + 1)) f.2.render f.2.toValue Stops := by
        intro f hf rest hstops
        have hlong := length_le_intercalate ',' (List.mem_map_of_mem (f := fieldText) hf)
        have hvalue := render_length_le f
        obtain ⟨n, rfl⟩ : ∃ m, n = m + 1 := ⟨n - 1, by omega⟩
        exact ih f hf rest (f.2.follows_of_stops hstops) n (by omega)
      have hread := parseObject_reads (n := n) (by omega) keys hitem rest trivial
      rw [Written.render_object, List.cons_append, parseValue_object, bind_ok hread,
        Written.toValue, fieldValues_eq]
      rfl

/-- A text that stops inside a document is refused, or is a number. -/
theorem Written.Within.stalls {t : Text} (h : Written.Within NumberLiteral.Short depths w)
    (ht : Apart t) (hn : (u ++ t).length < n) (hu : u <+: w.render) :
    Stalls (parseValue n depths) (u ++ t) Foreign := by
  have hreadable : ∀ {depths : ℕ} {w : Written}, Written.Within NumberLiteral.Short depths w →
      Written.Within NumberLiteral.Readable depths w := fun h => h.mono fun _ hl => hl.readable
  cases u with
  | nil => exact ht.value n depths hn
  | cons c u =>
      obtain ⟨n, rfl⟩ : ∃ m, n = m + 1 := ⟨n - 1, by omega⟩
      rw [List.cons_append, List.length_cons] at hn
      induction h generalizing n c u with
      | null =>
          obtain ⟨rfl, htail⟩ := List.cons_prefix_cons.mp hu
          exact (matchText_stalls ht (by decide) htail).bind (q := fun _ => pure Value.null)
            fun _ _ => stalls_pure
      | @bool _ b =>
          cases b with
          | true =>
              obtain ⟨rfl, htail⟩ := List.cons_prefix_cons.mp hu
              exact (matchText_stalls ht (by decide) htail).bind
                (q := fun _ => pure (Value.bool true)) fun _ _ => stalls_pure
          | false =>
              obtain ⟨rfl, htail⟩ := List.cons_prefix_cons.mp hu
              exact (matchText_stalls ht (by decide) htail).bind
                (q := fun _ => pure (Value.bool false)) fun _ _ => stalls_pure
      | @number _ l spelled =>
          obtain ⟨d, s, htext, hd⟩ := spelled.readable.head
          obtain ⟨v, hread⟩ := NumberLiteral.Short.parseNumber_cut spelled (by simp) hu ht.stops
          rw [Written.render, htext] at hu
          obtain ⟨rfl, -⟩ := List.cons_prefix_cons.mp hu
          rw [List.cons_append] at hread ⊢
          rw [Stalls, parseValue_number hd]
          exact .inr ⟨v, t, hread, ht.foreign⟩
      | @string _ s bare =>
          obtain ⟨rfl, htail⟩ := List.cons_prefix_cons.mp hu
          rw [List.cons_append, Stalls, parseValue_string]
          exact (parseString_stalls bare (by omega) ht.foreign ht.string htail).bind
            fun _ _ => stalls_pure
      | @array depths ws each ih =>
          rw [Written.render_array] at hu
          obtain ⟨rfl, htail⟩ := List.cons_prefix_cons.mp hu
          have htail_lt : t.length < n := by
            rw [List.length_append] at hn
            omega
          rw [List.cons_append, Stalls, parseValue_array]
          refine (parseArray_stalls ht (by omega) (fun w hw => (hreadable (each w hw)).head)
            (fun w hw hle => ?_) (fun w hw v hle hpre => ?_) ?_ htail).bind fun _ _ => stalls_pure
          · exact ((hreadable (each w hw)).reads (by omega)).mono fun rest => w.follows_of_stops
          · cases v with
            | nil => exact ht.value n depths htail_lt
            | cons d v =>
                obtain ⟨n, rfl⟩ : ∃ m, n = m + 1 := ⟨n - 1, by omega⟩
                rw [List.cons_append, List.length_cons] at hle
                exact ih w hw d v hpre n (by omega)
          · exact ht.value n depths htail_lt
      | @object depths fields keys each ih =>
          rw [Written.render_object] at hu
          obtain ⟨rfl, htail⟩ := List.cons_prefix_cons.mp hu
          have htail_lt : t.length < n := by
            rw [List.length_append] at hn
            omega
          rw [List.cons_append, Stalls, parseValue_object]
          refine (parseObject_stalls ht (by omega) keys (fun f hf hle => ?_)
            (fun f hf v hle hpre => ?_) htail).bind fun _ _ => stalls_pure
          · exact ((hreadable (each f hf)).reads (by omega)).mono fun rest => f.2.follows_of_stops
          · cases v with
            | nil => exact ht.value n (depths + 1) htail_lt
            | cons d v =>
                obtain ⟨n, rfl⟩ : ∃ m, n = m + 1 := ⟨n - 1, by omega⟩
                rw [List.cons_append, List.length_cons] at hle
                exact ih f hf d v hpre n (by omega)

/-- An object that is cut off is refused. -/
theorem Written.Within.torn {fields : WrittenFields} {t : Text}
    (h : Written.Within NumberLiteral.Short depths (.object fields)) (ht : Apart t)
    (hn : (u ++ t).length < n) (hu : u <+: (Written.object fields).render) (hpos : u ≠ [])
    (hne : u ≠ (Written.object fields).render) :
    parseValue n depths (u ++ t) = .error .refused := by
  obtain ⟨n, rfl⟩ : ∃ m, n = m + 1 := ⟨n - 1, by omega⟩
  obtain ⟨c, u, rfl⟩ := List.exists_cons_of_ne_nil hpos
  cases h with
  | object keys each =>
      have hreadable : ∀ f ∈ fields, f.2.render.length < n →
          Parsing.Reads (parseValue n _) f.2.render f.2.toValue Stops := fun f hf hlt =>
        (((each f hf).mono fun _ hl => hl.readable).reads hlt).mono
          fun rest => f.2.follows_of_stops
      rw [Written.render_object] at hu hne
      obtain ⟨rfl, htail⟩ := List.cons_prefix_cons.mp hu
      rw [List.cons_append, List.length_cons] at hn
      have hinside : u <+: [','].intercalate (fields.map fieldText) := by
        obtain hinside | ⟨v, hv, hpre, rfl⟩ := prefix_append_cases htail
        · exact hinside
        · obtain rfl := eq_of_prefix_singleton hv hpre
          exact absurd rfl hne
      rw [List.cons_append, parseValue_object]
      exact bind_error (parseObject_torn ht (by omega) keys
        (fun f hf hle => hreadable f hf (by omega))
        (fun f hf v hle hpre => (each f hf).stalls ht (by omega) hpre) hinside)

/-! ### Whole texts -/

/-- The parser reads a written document, whatever follows it. -/
theorem parse_render (h : Written.Within NumberLiteral.Readable defaultMaxDepths w) (rest : Text)
    (hrest : w.Follows rest) : parse (w.render ++ rest) = .ok (w.toValue, rest) :=
  h.reads (by rw [List.length_append]; omega) rest hrest

/-- It refuses an object that is cut off, also when something else was written behind the cut. -/
theorem parse_torn {fields : WrittenFields} {t : Text}
    (h : Written.Within NumberLiteral.Short defaultMaxDepths (.object fields)) (ht : Apart t)
    (hu : u <+: (Written.object fields).render) (hpos : u ≠ [])
    (hne : u ≠ (Written.object fields).render) : parse (u ++ t) = .error .refused :=
  h.torn ht (Nat.lt_succ_self _) hu hpos hne

/-- White space in front of a value does not matter. -/
theorem parseValue_skips_ws {front : Text} (hfront : ∀ c ∈ front, isWs c = true) (s : Text) :
    parseValue n depths (front ++ s) = parseValue n depths s := by
  cases n with
  | zero => rfl
  | succ n =>
      have hskip : skipWs (front ++ s) = skipWs s := by
        rw [skipWs, List.dropWhile_append_of_pos hfront]
        rfl
      rw [parseValue, parseValue, hskip]

/-- Every document comes back as the value it spells, with white space in front of it and with
anything behind it that does not go on with a number. -/
theorem parse_document (h : Written.Within NumberLiteral.Readable defaultMaxDepths w) {front : Text}
    (hfront : ∀ c ∈ front, isWs c = true) (hrest : w.Follows rest) :
    parse (front ++ (w.render ++ rest)) = .ok (w.toValue, rest) := by
  rw [parse, parseValue_skips_ws hfront]
  refine h.reads ?_ rest hrest
  simp only [List.length_append]
  omega

section Samples

/-- An object in an array and a number behind it. -/
def nested : Written := .array [.object [("ok", .bool true)], .number (.ofNat 7)]

theorem nested_within {P : NumberLiteral → Prop} (hP : P (.ofNat 7)) :
    Written.Within P defaultMaxDepths nested := by
  have hkeys : KeysFit ["ok"] := by simp [KeysFit, Bare]
  refine .array fun w hw => ?_
  obtain rfl | rfl := List.mem_pair.mp hw
  · exact .object hkeys fun f hf => by rw [List.mem_singleton.mp hf]; exact .bool
  · exact .number hP

theorem nested_returns :
    parse ("  ".toList ++ (nested.render ++ "]".toList)) = .ok (nested.toValue, "]".toList) :=
  parse_document (nested_within (NumberLiteral.short_ofNat (by decide)).readable) (by simp [isWs])
    fun _ h => by cases h

end Samples

/-! ### What the program writes -/

theorem bare_toHex (bytes : List Byte) : Bare (toHex bytes) := by
  intro c hc
  have hall : kHex.all (fun c => !decide (c < ' ') && decide (c ≠ '"') && decide (c ≠ '\\')) =
      true := by decide
  have hchar := List.all_eq_true.mp hall c (mem_toHex hc)
  simpa [and_assoc] using hchar

theorem number_within {depths n : ℕ} (hn : n < 2 ^ 64) :
    Written.Within NumberLiteral.Short depths (.number (.ofNat n)) :=
  .number (NumberLiteral.short_ofNat hn)

theorem word_within {depths : ℕ} (w : UInt64) :
    Written.Within NumberLiteral.Short depths (.number (.ofNat w.toNat)) :=
  number_within w.toNat_lt

theorem hex_within {depths : ℕ} (bytes : List Byte) :
    Written.Within NumberLiteral.Short depths (.string (toHex bytes)) :=
  .string (bare_toHex bytes)

end TxChain
