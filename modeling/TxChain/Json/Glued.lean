import TxChain.Json.ChainLine
import TxChain.Json.Extent

/-!
# Lines run together

Where an append stopped inside a line the next one goes on in the same place, so that pieces
of several lines end up without a newline between them. The parser reads such a text by its
first piece: a whole line hides what is behind it, and a torn one is not mended.
-/

namespace TxChain

open Parsing Json

variable [Crypto] {b : Block} {t : Text} {m n depths : ℕ}

/-- What every line begins with. -/
theorem toJsonLine_head (b : Block) : ∃ s, toJsonLine b = '\x7b' :: '"' :: 'h' :: s := by
  rw [toJsonLine_eq, Block.written, Written.render_object, List.map_cons]
  obtain ⟨others, hothers⟩ := intercalate_cons ',' (fieldText ("header", headerWritten b.header))
    (([("txns", .array (b.txns.map txnWritten)),
      ("blockHash", .string (toHex (blockHash b.header).toList))] : WrittenFields).map fieldText)
  rw [hothers, fieldText, memberText]
  simp only [String.reduceToList, List.cons_append, List.cons.injEq, true_and, exists_eq']

theorem parseValue_torn (ht : Apart t) (hpos : 0 < m) (hm : m < (toJsonLine b).length)
    (hn : ((toJsonLine b).take m ++ t).length < n) :
    parseValue n depths ((toJsonLine b).take m ++ t) = .error .refused := by
  have htorn : parseValue n (depths + 2) ((toJsonLine b).take m ++ t) = .error .refused := by
    rw [toJsonLine_eq] at hm hn ⊢
    refine Written.Within.torn b.written_within ht hn (List.take_prefix m _) ?_ fun hwhole => ?_
    · exact List.ne_nil_of_length_pos (by rw [List.length_take]; omega)
    · have hlen := congrArg List.length hwhole
      rw [List.length_take] at hlen
      change min m b.written.render.length = b.written.render.length at hlen
      omega
  obtain hrefused | hsame := parseValue_restricts (Nat.le_add_right depths 2) n
    ((toJsonLine b).take m ++ t)
  · exact hrefused
  · rw [hsame, htorn]

/-- A line behind a cut does not go on with what was cut. -/
theorem apart_line (hpos : 0 < m) (ht : Apart t) : Apart ((toJsonLine b).take m ++ t) := by
  obtain ⟨s, hhead⟩ := toJsonLine_head b
  obtain ⟨m, rfl⟩ : ∃ k, m = k + 1 := ⟨m - 1, by omega⟩
  constructor
  · rw [hhead]
    simp
  · intro n hn
    have hbare : Bare ['\x7b'] := by simp [Bare]
    cases m with
    | zero =>
        rw [hhead] at hn ⊢
        exact parseString_stalls (u := ['\x7b']) hbare hn ht.foreign ht.string (by simp)
    | succ m =>
        cases m with
        | zero =>
            rw [hhead] at hn ⊢
            exact parseString_stalls (u := ['\x7b', '"']) hbare hn ht.foreign ht.string
              List.prefix_rfl
        | succ m =>
            rw [hhead] at hn ⊢
            have hread := parseString_reads (n := n) hbare (by simp at hn ⊢; omega)
              ('h' :: (s.take m ++ t)) trivial
            refine .inr ⟨_, _, hread, ?_⟩
            simp [Foreign, isWs]
  · intro n depths hn
    by_cases htorn : m + 1 < (toJsonLine b).length
    · exact .inl (parseValue_torn ht hpos htorn hn)
    · rw [List.take_of_length_le (Nat.not_lt.mp htorn)] at hn ⊢
      have hread : parseValue n (depths + 2) (toJsonLine b ++ t) = .ok (b.written.toValue, t) := by
        have hlen : (toJsonLine b).length < n := by
          rw [List.length_append] at hn
          omega
        rw [toJsonLine_eq] at hlen ⊢
        exact (b.written_within.mono fun _ hl => hl.readable).reads hlen t fun _ h => by cases h
      obtain hrefused | hsame := parseValue_restricts (Nat.le_add_right depths 2) n
        (toJsonLine b ++ t)
      · exact .inl hrefused
      · exact .inr ⟨_, t, hsame.trans hread, ht.foreign⟩

/-! ### Pieces -/

/-- The front of a line, at least one character and possibly all of it. -/
abbrev Piece := Block × ℕ

/-- The pieces with nothing between them. -/
def glue (pieces : List Piece) : Text := pieces.flatMap fun p => (toJsonLine p.1).take (p.2 + 1)

theorem apart_glue (pieces : List Piece) : Apart (glue pieces) := by
  induction pieces with
  | nil => exact apart_nil
  | cons p pieces ih => exact apart_line (Nat.succ_pos p.2) ih

theorem newline_not_mem_glue (pieces : List Piece) : '\n' ∉ glue pieces := by
  intro hmem
  obtain ⟨p, -, hp⟩ := List.mem_flatMap.mp hmem
  exact newline_not_mem_toJsonLine p.1 (List.mem_of_mem_take hp)

theorem glue_append (pieces pieces' : List Piece) :
    glue (pieces ++ pieces') = glue pieces ++ glue pieces' :=
  List.flatMap_append

attribute [local instance] picojson

/-- A torn line with other lines behind it is malformed. -/
theorem torn_line_malformed (pieces : List Piece) (hpos : 0 < m) (hm : m < (toJsonLine b).length) :
    fromJsonLine ((toJsonLine b).take m ++ glue pieces) = none := by
  have htorn : parse ((toJsonLine b).take m ++ glue pieces) = .error .refused :=
    parseValue_torn (apart_glue pieces) hpos hm (Nat.lt_succ_self _)
  rw [fromJsonLine, parse_picojson, htorn]
  rfl

end TxChain
