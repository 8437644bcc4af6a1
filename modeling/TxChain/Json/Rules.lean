import TxChain.Json.Parser

/-!
# What the parser makes of each token

The texts that the program writes: strings without escapes, tokens without white space
in front of them. Each rule says how a token is read in front of anything, and what
becomes of a text that stops inside it, with something behind the cut that does not go
on with it.
-/

namespace TxChain.Json

open Parsing

variable {c d : Char} {s u key rest : Text} {n : ℕ}

/-! ### Characters -/

theorem skipWs_cons (h : isWs c = false) : skipWs (c :: s) = c :: s := by
  rw [skipWs, List.dropWhile_cons_of_neg (by simp [h])]

theorem expect_self (h : isWs c = false) : expect c (c :: s) = .ok (true, s) := by
  rw [expect, skipWs_cons h]
  exact if_pos rfl

theorem expect_other (h : isWs d = false) (hne : d ≠ c) :
    expect c (d :: s) = .ok (false, d :: s) := by
  rw [expect, skipWs_cons h]
  exact if_neg hne

theorem expect_nil : expect c [] = .ok (false, []) := rfl

/-! ### Strings -/

/-- A text that a string holds as it is. -/
def Bare (s : Text) : Prop := ∀ c ∈ s, ¬c < ' ' ∧ c ≠ '"' ∧ c ≠ '\\'

/-- Different keys, each held as it is. -/
def KeysFit (keys : List String) : Prop := keys.Nodup ∧ ∀ key ∈ keys, Bare key.toList

theorem parseString_quote : parseString (n + 1) ('"' :: s) = .ok ([], s) := rfl

theorem parseString_cons (h : ¬c < ' ' ∧ c ≠ '"' ∧ c ≠ '\\') :
    parseString (n + 1) (c :: s) = (parseString n >>= fun out => pure (c :: out)) s := by
  rw [parseString, bind_ok (a := c) (t := s) rfl, if_neg h.1, if_neg h.2.1, if_neg h.2.2]

theorem parseString_reads (hs : Bare s) (hn : s.length < n) :
    Reads (parseString n) (s ++ ['"']) s fun _ => True := by
  intro rest _
  induction s generalizing n with
  | nil =>
      obtain ⟨n, rfl⟩ : ∃ m, n = m + 1 := ⟨n - 1, by simp at hn; omega⟩
      exact parseString_quote
  | cons c s ih =>
      obtain ⟨n, rfl⟩ : ∃ m, n = m + 1 := ⟨n - 1, by simp at hn; omega⟩
      obtain ⟨hc, hs⟩ := List.forall_mem_cons.mp hs
      rw [List.cons_append, List.cons_append, parseString_cons hc,
        bind_ok (ih hs (by simpa using hn))]
      rfl

/-! ### Cuts -/

/-- What may be left behind a cut: it goes on with no document. -/
def Foreign (r : Text) : Prop :=
  ∀ c ∈ r.head?, isWs c = false ∧ c ≠ ',' ∧ c ≠ ':' ∧ c ≠ ']' ∧ c ≠ '\x7d'

theorem Foreign.expect {r : Text} (h : Foreign r) (hc : c = ',' ∨ c = ':' ∨ c = ']' ∨ c = '\x7d') :
    expect c r = .ok (false, r) := by
  cases r with
  | nil => exact expect_nil
  | cons d r =>
      obtain ⟨hws, hcomma, hcolon, hbracket, hbrace⟩ := h d rfl
      refine expect_other hws ?_
      obtain rfl | rfl | rfl | rfl := hc <;> assumption

theorem parseString_stalls {t : Text} {Left : Text → Prop} (hs : Bare s) (hn : (u ++ t).length < n)
    (hleft : Left t) (ht : ∀ m, t.length < m → Stalls (parseString m) t Left)
    (hu : u <+: s ++ ['"']) : Stalls (parseString n) (u ++ t) Left := by
  induction s generalizing n u with
  | nil =>
      cases u with
      | nil => exact ht n hn
      | cons c u =>
          obtain ⟨n, rfl⟩ : ∃ m, n = m + 1 := ⟨n - 1, by omega⟩
          obtain ⟨rfl, htail⟩ := List.cons_prefix_cons.mp hu
          obtain rfl : u = [] := List.prefix_nil.mp htail
          exact .inr ⟨[], t, rfl, hleft⟩
  | cons c s ih =>
      obtain ⟨hc, hs'⟩ := List.forall_mem_cons.mp hs
      cases u with
      | nil => exact ht n hn
      | cons d u =>
          obtain ⟨n, rfl⟩ : ∃ m, n = m + 1 := ⟨n - 1, by omega⟩
          obtain ⟨rfl, htail⟩ := List.cons_prefix_cons.mp hu
          rw [List.cons_append, Stalls, parseString_cons hc]
          exact (ih hs' (by simpa using hn) htail).bind fun _ _ => stalls_pure

/-! ### Members -/

/-- A key, the colon and the text of the value. -/
def memberText (key text : Text) : Text := '"' :: (key ++ '"' :: ':' :: text)

section Members

variable {item : Parser Char Value} {text : Text} {v : Value} {Follow : Text → Prop}

theorem parseMember_reads (hkey : Bare key) (hn : key.length < n) (hitem : Reads item text v Follow)
    (o : Fields) :
    Reads (parseMember item n o) (memberText key text) (setField o (String.ofList key) v)
      Follow := by
  intro rest hrest
  have hstring : parseString n (key ++ '"' :: ':' :: text ++ rest) =
      .ok (key, ':' :: text ++ rest) := by
    have hread := parseString_reads hkey hn (':' :: text ++ rest) trivial
    simpa using hread
  rw [memberText, parseMember, List.cons_append, bind_true (expect_self (by decide)),
    bind_ok hstring, List.cons_append, bind_true (expect_self (by decide)),
    bind_ok (hitem rest hrest)]
  rfl

/-- Without an opening quote there is no key. -/
theorem parseMember_foreign {t : Text} (h : Foreign t) (hquote : ∀ r, t ≠ '"' :: r) (o : Fields) :
    parseMember item n o t = .error .refused := by
  have hnone : expect '"' t = .ok (false, t) := by
    cases t with
    | nil => exact expect_nil
    | cons c r => exact expect_other (h c rfl).1 fun hc => hquote r (hc ▸ rfl)
  rw [parseMember, bind_false hnone]
  rfl

theorem parseMember_stalls {t : Text} (hkey : Bare key) (hn : (u ++ t).length < n)
    (hleft : Foreign t) (hquote : ∀ r, t ≠ '"' :: r)
    (ht : ∀ m, t.length < m → Stalls (parseString m) t Foreign)
    (hitem : ∀ v, (v ++ t).length ≤ (u ++ t).length → v <+: text → Stalls item (v ++ t) Foreign)
    (o : Fields) (hu : u <+: memberText key text) :
    Stalls (parseMember item n o) (u ++ t) Foreign := by
  cases u with
  | nil => exact .inl (parseMember_foreign hleft hquote o)
  | cons c u =>
      obtain ⟨rfl, htail⟩ := List.cons_prefix_cons.mp hu
      have hsplit : key ++ '"' :: ':' :: text = (key ++ ['"']) ++ ':' :: text := by simp
      rw [hsplit] at htail
      rw [List.cons_append, List.length_cons] at hn
      rw [List.cons_append, Stalls, parseMember, bind_true (expect_self (by decide))]
      obtain hfirst | ⟨v, hv, hpre, rfl⟩ := prefix_append_cases htail
      · refine (parseString_stalls hkey (by omega) hleft ht hfirst).bind fun _ r hr => ?_
        rw [Stalls, bind_false (hr.expect (by simp))]
        exact .inl rfl
      · cases v with
        | nil => exact absurd rfl hv
        | cons d v =>
            obtain ⟨rfl, hvalue⟩ := List.cons_prefix_cons.mp hpre
            simp only [List.length_append, List.length_cons] at hn hitem
            have hread := parseString_reads (n := n) hkey (by omega) (':' :: (v ++ t)) trivial
            rw [List.append_assoc, List.cons_append, bind_ok hread,
              bind_true (expect_self (by decide))]
            exact (hitem v (by omega) hvalue).bind fun _ _ => stalls_pure

end Members

end TxChain.Json
