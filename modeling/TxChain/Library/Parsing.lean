import Mathlib

/-!
# Recursive descent

A parser reads a value off the front of a text and leaves what is behind it. `Reads`
says what it makes of a text that something follows, and `Stalls` what it makes of a text
that stops short or goes on with something else: it refuses, or it gets no further. Both
compose along a sequence and along a loop that reads items with a separator between them.
So do bounds on what a parser reads, on its steps, that what it has read is read off any
longer text, that one parser refuses more than another and differs in nothing else, and
properties of the values it reads.
-/

namespace Parsing

/-- Why a parser gives up. `spent` is a bound on its steps and no answer of its own. -/
inductive Fault where
  | refused
  | threw
  | spent
  deriving DecidableEq

abbrev Parser (σ : Type) := StateT (List σ) (Except Fault)

variable {σ α β ι : Type}

def refuse : Parser σ α := fun _ => .error .refused

/-- Reads items as long as `again` reads a separator behind them. -/
def doWhile (body : α → Parser σ α) (again : Parser σ Bool) : ℕ → α → Parser σ α
  | 0, _ => fun _ => .error .spent
  | n + 1, a => do
      let a' ← body a
      if ← again then doWhile body again n a' else return a'

/-! ### Sequences -/

variable {p : Parser σ α} {q : α → Parser σ β} {s t u w rest : List σ} {a : α} {e : Fault}

theorem bind_ok (h : p s = .ok (a, t)) : (p >>= q) s = q a t := by
  change (p s >>= fun r => q r.1 r.2) = q a t
  rw [h]
  rfl

theorem bind_error (h : p s = .error e) : (p >>= q) s = .error e := by
  change (p s >>= fun r => q r.1 r.2) = .error e
  rw [h]
  rfl

/-- A run of two parsers that succeeds is a run of each. -/
theorem of_bind_ok {b : β} (h : (p >>= q) s = .ok (b, t)) :
    ∃ a r, p s = .ok (a, r) ∧ q a r = .ok (b, t) := by
  cases hp : p s with
  | ok r =>
      rw [bind_ok (a := r.1) (t := r.2) hp] at h
      exact ⟨r.1, r.2, rfl, h⟩
  | error e =>
      rw [bind_error hp] at h
      cases h

theorem bind_true {c : Parser σ Bool} {x y : Parser σ α} (h : c s = .ok (true, t)) :
    (do if ← c then x else y) s = x t := by
  rw [bind_ok h]
  rfl

theorem bind_false {c : Parser σ Bool} {x y : Parser σ α} (h : c s = .ok (false, t)) :
    (do if ← c then x else y) s = y t := by
  rw [bind_ok h]
  rfl

/-- With any of the texts behind it that `Follow` allows, `w` is read as `a`. -/
def Reads (p : Parser σ α) (w : List σ) (a : α) (Follow : List σ → Prop) : Prop :=
  ∀ rest, Follow rest → p (w ++ rest) = .ok (a, rest)

theorem Reads.mono {Follow Follow' : List σ → Prop} (h : Reads p w a Follow)
    (hfollow : ∀ rest, Follow' rest → Follow rest) : Reads p w a Follow' :=
  fun rest hrest => h rest (hfollow rest hrest)

/-- The parser refuses the text, or stops in front of one that satisfies `Left`. -/
def Stalls (p : Parser σ α) (s : List σ) (Left : List σ → Prop) : Prop :=
  p s = .error .refused ∨ ∃ a r, p s = .ok (a, r) ∧ Left r

variable {Left Left' : List σ → Prop}

theorem Stalls.bind (hp : Stalls p s Left) (hq : ∀ a r, Left r → Stalls (q a) r Left') :
    Stalls (p >>= q) s Left' := by
  obtain hp | ⟨a, r, hp, hr⟩ := hp
  · exact .inl (bind_error hp)
  · rw [Stalls, bind_ok hp]
    exact hq a r hr

/-- Where nothing that is left is taken, the text is refused. -/
theorem Stalls.refused (hp : Stalls p s Left) (hq : ∀ a r, Left r → q a r = .error .refused) :
    (p >>= q) s = .error .refused := by
  obtain hp | ⟨a, r, hp, hr⟩ := hp
  · exact bind_error hp
  · rw [bind_ok hp]
    exact hq a r hr

theorem stalls_pure (h : Left s) : Stalls (pure a : Parser σ α) s Left := .inr ⟨a, s, rfl, h⟩

/-- What is cut off inside a sequence is cut off inside its first part, or inside the others. -/
theorem prefix_append_cases (h : u <+: w ++ rest) :
    u <+: w ∨ ∃ v, v ≠ [] ∧ v <+: rest ∧ u = w ++ v := by
  obtain hshort | hlong := Nat.le_total u.length w.length
  · exact .inl (List.prefix_of_prefix_length_le h (List.prefix_append w rest) hshort)
  · obtain ⟨v, rfl⟩ := List.prefix_of_prefix_length_le (List.prefix_append w rest) h hlong
    have hv := (List.prefix_append_right_inj w).mp h
    obtain rfl | hne := eq_or_ne v []
    · exact .inl (by rw [List.append_nil])
    · exact .inr ⟨v, hne, hv, rfl⟩

theorem eq_of_prefix_singleton {c : σ} (hne : u ≠ []) (h : u <+: [c]) : u = [c] := by
  have hlen := h.length_le
  have hpos := List.length_pos_iff.mpr hne
  exact h.eq_of_length (by simp only [List.length_singleton] at hlen ⊢; omega)

/-! ### Loops -/

section Loops

variable {body : α → Parser σ α} {again : Parser σ Bool} {step : α → ι → α} {text : ι → List σ}
  {sep : σ} {Follow : List σ → Prop} {items : List ι} {n : ℕ}

/-- What items with separators begin with. -/
theorem intercalate_cons (sep : σ) (t : List σ) (ts : List (List σ)) :
    ∃ others, [sep].intercalate (t :: ts) = t ++ others := by
  obtain rfl | hne := eq_or_ne ts []
  · exact ⟨[], by simp⟩
  · rw [List.intercalate_cons_of_ne_nil hne, List.append_assoc]
    exact ⟨_, rfl⟩

theorem length_le_intercalate (sep : σ) {ts : List (List σ)} (h : t ∈ ts) :
    t.length ≤ ([sep].intercalate ts).length := by
  induction ts with
  | nil => cases h
  | cons t' ts ih =>
      obtain rfl | hne := eq_or_ne ts []
      · obtain rfl := List.mem_singleton.mp h
        simp
      · rw [List.intercalate_cons_of_ne_nil hne, List.length_append, List.length_append]
        obtain rfl | h := List.mem_cons.mp h
        · omega
        · have := ih h
          omega

/-- Items with separators between them. -/
theorem doWhile_reads (Follow : List σ → Prop) (hitems : items ≠ [])
    (hn : ([sep].intercalate (items.map text)).length < n)
    (hbody : ∀ i ∈ items, ∀ a, Reads (body a) (text i) (step a i) Follow)
    (hsep : ∀ s, Follow (sep :: s) ∧ again (sep :: s) = .ok (true, s))
    (hrest : Follow rest) (hstop : again rest = .ok (false, s)) (a : α) :
    doWhile body again n a ([sep].intercalate (items.map text) ++ rest) =
      .ok (items.foldl step a, s) := by
  induction items generalizing n a with
  | nil => exact absurd rfl hitems
  | cons i items ih =>
      obtain ⟨n, rfl⟩ : ∃ m, n = m + 1 := ⟨n - 1, by omega⟩
      obtain ⟨hi, hothers⟩ := List.forall_mem_cons.mp hbody
      rw [doWhile]
      obtain rfl | hne := eq_or_ne items []
      · have htext : [sep].intercalate ([i].map text) ++ rest = text i ++ rest := by simp
        rw [htext, bind_ok (hi a rest hrest), bind_false hstop]
        rfl
      · have htexts : items.map text ≠ [] := by simpa using hne
        have htext : [sep].intercalate ((i :: items).map text) ++ rest =
            text i ++ sep :: ([sep].intercalate (items.map text) ++ rest) := by
          rw [List.map_cons, List.intercalate_cons_of_ne_nil htexts]
          simp
        rw [List.map_cons, List.intercalate_cons_of_ne_nil htexts, List.length_append,
          List.length_append, List.length_singleton] at hn
        rw [htext, bind_ok (hi a _ (hsep _).1), bind_true (hsep _).2]
        exact ih hne (by omega) hothers (step a i)

/-- Items cut off anywhere, with `t` behind the cut. Only those that begin in front of the cut
matter. -/
theorem doWhile_stalls (Follow : List σ → Prop) (step : α → ι → α) {Left : List σ → Prop} {m : ℕ}
    (hn : (u ++ t).length < n) (hm : (u ++ t).length ≤ m)
    (hbody : ∀ i ∈ items, (text i).length ≤ m → ∀ a, Reads (body a) (text i) (step a i) Follow)
    (hcut : ∀ i ∈ items, ∀ a v, (v ++ t).length ≤ m → v <+: text i → Stalls (body a) (v ++ t) Left)
    (hnone : ∀ a, Stalls (body a) t Left)
    (hsep : ∀ s, Follow (sep :: s) ∧ again (sep :: s) = .ok (true, s))
    (hend : ∀ r, Left r → again r = .ok (false, r)) (a : α)
    (hu : u <+: [sep].intercalate (items.map text)) :
    Stalls (doWhile body again n a) (u ++ t) Left := by
  have hagain : ∀ (a' : α) (k : ℕ) (r : List σ), Left r →
      Stalls (do if ← again then doWhile body again k a' else return a') r Left := by
    intro a' k r hr
    rw [Stalls, bind_false (hend r hr)]
    exact stalls_pure hr
  induction items generalizing n a u with
  | nil =>
      obtain rfl : u = [] := by simpa using hu
      obtain ⟨n, rfl⟩ : ∃ k, n = k + 1 := ⟨n - 1, by omega⟩
      rw [doWhile, List.nil_append]
      exact (hnone a).bind fun a' => hagain a' n
  | cons i items ih =>
      obtain ⟨n, rfl⟩ : ∃ k, n = k + 1 := ⟨n - 1, by omega⟩
      obtain ⟨hi, hothers⟩ := List.forall_mem_cons.mp hbody
      obtain ⟨hci, hcothers⟩ := List.forall_mem_cons.mp hcut
      rw [doWhile]
      obtain rfl | hne := eq_or_ne items []
      · have htext : [sep].intercalate ([i].map text) = text i := by simp
        rw [htext] at hu
        exact (hci a u hm hu).bind fun a' => hagain a' n
      · have htexts : items.map text ≠ [] := by simpa using hne
        rw [List.map_cons, List.intercalate_cons_of_ne_nil htexts, List.append_assoc] at hu
        obtain hfirst | ⟨v, hv, hpre, rfl⟩ := prefix_append_cases hu
        · exact (hci a u hm hfirst).bind fun a' => hagain a' n
        · -- the cut is behind the first separator
          obtain ⟨v, rfl⟩ : ∃ v', v = sep :: v' := by
            cases v with
            | nil => exact absurd rfl hv
            | cons c v => exact ⟨v, by rw [(List.cons_prefix_cons.mp hpre).1]⟩
          have hlater := (List.cons_prefix_cons.mp hpre).2
          simp only [List.length_append, List.length_cons] at hn hm
          rw [List.append_assoc, List.cons_append, Stalls, bind_ok (hi (by omega) a _ (hsep _).1),
            bind_true (hsep _).2]
          exact ih (by simp only [List.length_append]; omega)
            (by simp only [List.length_append]; omega) hothers hcothers (step a i) hlater

end Loops

/-! ### Extent -/

/-- A parser does not add to the text. -/
def Shrinks (p : Parser σ α) : Prop := ∀ ⦃s a r⦄, p s = .ok (a, r) → r.length ≤ s.length

/-- It takes every step it needs on texts shorter than `n`. -/
def Lasts (p : Parser σ α) (n : ℕ) : Prop := ∀ ⦃s⦄, s.length < n → p s ≠ .error .spent

/-- What `p` reads in front of something `p'` reads off a longer text. -/
def Carries (p p' : Parser σ α) : Prop :=
  ∀ ⦃s a r⦄, p s = .ok (a, r) → r ≠ [] → ∀ t, p' (s ++ t) = .ok (a, r ++ t)

/-- What `p` reads `p'` reads off a longer text. -/
def Settles (p p' : Parser σ α) : Prop :=
  ∀ ⦃s a r⦄, p s = .ok (a, r) → ∀ t, p' (s ++ t) = .ok (a, r ++ t)

variable {p' : Parser σ α} {q' : α → Parser σ β} {r : List σ} {n : ℕ}

theorem shrinks_pure : Shrinks (pure a : Parser σ α) := by
  rintro s b r ⟨⟩
  exact le_rfl

theorem shrinks_refuse : Shrinks (refuse : Parser σ α) := by
  rintro s b r ⟨⟩

theorem Shrinks.bind (hp : Shrinks p) (hq : ∀ a, Shrinks (q a)) : Shrinks (p >>= q) := by
  intro s b r h
  obtain ⟨a, s', hs', hb⟩ := of_bind_ok h
  exact (hq a hb).trans (hp hs')

theorem Shrinks.nonempty (hp : Shrinks p) (h : p s = .ok (a, r)) (hr : r ≠ []) : s ≠ [] := by
  rintro rfl
  exact hr (List.eq_nil_of_length_eq_zero (Nat.le_zero.mp (hp h)))

theorem lasts_pure : Lasts (pure a : Parser σ α) n := by
  rintro s - ⟨⟩

theorem lasts_refuse : Lasts (refuse : Parser σ α) n := by
  rintro s - ⟨⟩

theorem Lasts.bind (hp : Lasts p n) (hshrinks : Shrinks p) (hq : ∀ a, Lasts (q a) n) :
    Lasts (p >>= q) n := by
  intro s hs
  cases hrun : p s with
  | error e =>
      rw [bind_error hrun]
      intro hspent
      exact hp hs (hrun.trans (congrArg _ (Except.error.inj hspent)))
  | ok r =>
      rw [bind_ok (a := r.1) (t := r.2) hrun]
      exact hq r.1 ((hshrinks hrun).trans_lt hs)

theorem settles_pure : Settles (pure a) (pure a : Parser σ α) := by
  rintro s b r ⟨⟩ t
  rfl

theorem settles_refuse : Settles (refuse : Parser σ α) p' := by
  rintro s b r ⟨⟩

theorem Settles.carries (h : Settles p p') : Carries p p' := fun _ _ _ hs _ t => h hs t

theorem Settles.bind (hp : Settles p p') (hq : ∀ a, Settles (q a) (q' a)) :
    Settles (p >>= q) (p' >>= q') := by
  intro s b r h t
  obtain ⟨a, s', hs', hb⟩ := of_bind_ok h
  rw [bind_ok (hp hs' t)]
  exact hq a hb t

theorem Carries.bind (hp : Carries p p') (hq : ∀ a, Carries (q a) (q' a))
    (hshrinks : ∀ a, Shrinks (q a)) : Carries (p >>= q) (p' >>= q') := by
  intro s b r h hr t
  obtain ⟨a, s', hs', hb⟩ := of_bind_ok h
  rw [bind_ok (hp hs' ((hshrinks a).nonempty hb hr) t)]
  exact hq a hb hr t

/-- A parser that reads on settles what the one in front of it left open. -/
theorem Carries.bind_settles (hp : Carries p p') (hq : ∀ a, Settles (q a) (q' a))
    (hnil : ∀ a b r, q a [] ≠ .ok (b, r)) : Settles (p >>= q) (p' >>= q') := by
  intro s b r h t
  obtain ⟨a, s', hs', hb⟩ := of_bind_ok h
  have hne : s' ≠ [] := by
    rintro rfl
    exact hnil a b r hb
  rw [bind_ok (hp hs' hne t)]
  exact hq a hb t

/-- A parser without loops reads what it needs and no further. -/
structure Firm (p : Parser σ α) : Prop where
  shrinks : Shrinks p
  settles : Settles p p
  lasts : ∀ n, Lasts p n

theorem firm_pure : Firm (pure a : Parser σ α) := ⟨shrinks_pure, settles_pure, fun _ => lasts_pure⟩

theorem firm_refuse : Firm (refuse : Parser σ α) :=
  ⟨shrinks_refuse, settles_refuse, fun _ => lasts_refuse⟩

theorem Firm.bind (hp : Firm p) (hq : ∀ a, Firm (q a)) : Firm (p >>= q) where
  shrinks := hp.shrinks.bind fun a => (hq a).shrinks
  settles := hp.settles.bind fun a => (hq a).settles
  lasts n := (hp.lasts n).bind hp.shrinks fun a => (hq a).lasts n

section Loops

variable {body body' : α → Parser σ α} {again : Parser σ Bool} {m : ℕ}

theorem shrinks_doWhile (hbody : ∀ a, Shrinks (body a)) (hagain : Shrinks again) (n : ℕ) (a : α) :
    Shrinks (doWhile body again n a) := by
  induction n generalizing a with
  | zero => rintro s b r ⟨⟩
  | succ n ih =>
      refine (hbody a).bind fun a' => hagain.bind fun more => ?_
      cases more with
      | true => exact ih a'
      | false => exact shrinks_pure

/-- Every separator takes up some of the text. -/
theorem lasts_doWhile (hbody : ∀ a, Lasts (body a) m) (hshrinks : ∀ a, Shrinks (body a))
    (hagain : Lasts again m)
    (hsep : ∀ s b r, again s = .ok (b, r) → r.length + b.toNat ≤ s.length) (hn : n ≤ m) (a : α) :
    Lasts (doWhile body again n a) n := by
  induction n generalizing a with
  | zero =>
      intro s hs
      exact absurd hs (Nat.not_lt_zero _)
  | succ n ih =>
      intro s hs
      rw [doWhile]
      cases hrun : body a s with
      | error e =>
          rw [bind_error hrun]
          intro hspent
          exact hbody a (by omega) (hrun.trans (congrArg _ (Except.error.inj hspent)))
      | ok r =>
          have hr := hshrinks a hrun
          rw [bind_ok (a := r.1) (t := r.2) hrun]
          cases hmore : again r.2 with
          | error e =>
              rw [bind_error hmore]
              intro hspent
              exact hagain (by omega) (hmore.trans (congrArg _ (Except.error.inj hspent)))
          | ok more =>
              have hlen := hsep r.2 more.1 more.2 hmore
              rw [bind_ok (a := more.1) (t := more.2) hmore]
              cases hb : more.1 with
              | true =>
                  rw [hb, Bool.toNat_true] at hlen
                  exact ih (by omega) r.1 (by omega)
              | false => exact lasts_pure (by omega : more.2.length < m)

theorem carries_doWhile (hbody : ∀ a, Carries (body a) (body' a)) (hshrinks : ∀ a, Shrinks (body a))
    (hagain : Carries again again) (hagains : Shrinks again) (hnm : n ≤ m) (a : α) :
    Carries (doWhile body again n a) (doWhile body' again m a) := by
  induction n generalizing a m with
  | zero => rintro s b r ⟨⟩
  | succ n ih =>
      obtain ⟨m, rfl⟩ : ∃ k, m = k + 1 := ⟨m - 1, by omega⟩
      refine (hbody a).bind (fun a' => hagain.bind (fun more => ?_) fun more => ?_)
        fun a' => hagains.bind fun more => ?_
      · cases more with
        | true => exact ih (by omega) a'
        | false => exact settles_pure.carries
      all_goals
        cases more with
        | true => exact shrinks_doWhile hshrinks hagains n a'
        | false => exact shrinks_pure

end Loops

/-! ### Restriction -/

/-- `p` refuses, or does what `p'` does. -/
def Restricts (p p' : Parser σ α) : Prop := ∀ s, p s = .error .refused ∨ p s = p' s

theorem restricts_rfl : Restricts p p := fun _ => .inr rfl

theorem restricts_refuse : Restricts (refuse : Parser σ α) p' := fun _ => .inl rfl

theorem Restricts.bind (hp : Restricts p p') (hq : ∀ a, Restricts (q a) (q' a)) :
    Restricts (p >>= q) (p' >>= q') := by
  intro s
  obtain hrefused | hsame := hp s
  · exact .inl (bind_error hrefused)
  · cases hrun : p s with
    | error e =>
        rw [bind_error hrun, bind_error (hsame.symm.trans hrun)]
        exact .inr rfl
    | ok r =>
        rw [bind_ok (a := r.1) (t := r.2) hrun,
          bind_ok (a := r.1) (t := r.2) (hsame.symm.trans hrun)]
        exact hq r.1 r.2

theorem Restricts.ite {c : Parser σ Bool} {x x' y y' : Parser σ α} (hx : Restricts x x')
    (hy : Restricts y y') : Restricts (do if ← c then x else y) (do if ← c then x' else y') := by
  refine restricts_rfl.bind fun b => ?_
  cases b with
  | true => exact hx
  | false => exact hy

theorem restricts_doWhile {body body' : α → Parser σ α} {again : Parser σ Bool}
    (hbody : ∀ a, Restricts (body a) (body' a)) (n : ℕ) (a : α) :
    Restricts (doWhile body again n a) (doWhile body' again n a) := by
  induction n generalizing a with
  | zero => exact restricts_rfl
  | succ n ih => exact (hbody a).bind fun a' => Restricts.ite (ih a') restricts_rfl

/-! ### What is read -/

/-- Everything that `p` reads has the property. -/
def Yields (p : Parser σ α) (P : α → Prop) : Prop := ∀ ⦃s a r⦄, p s = .ok (a, r) → P a

section Yields

variable {P : α → Prop} {Q : β → Prop}

theorem yields_true : Yields p fun _ => True := fun _ _ _ _ => trivial

theorem yields_pure (h : P a) : Yields (pure a : Parser σ α) P := by
  rintro s b r ⟨⟩
  exact h

theorem yields_refuse : Yields (refuse : Parser σ α) P := by
  rintro s b r ⟨⟩

theorem Yields.bind (hp : Yields p P) (hq : ∀ a, P a → Yields (q a) Q) : Yields (p >>= q) Q := by
  intro s b r h
  obtain ⟨a, s', hs', hb⟩ := of_bind_ok h
  exact hq a (hp hs') hb

theorem Yields.ite {c : Parser σ Bool} {x y : Parser σ α} (hx : Yields x P) (hy : Yields y P) :
    Yields (do if ← c then x else y) P := by
  refine yields_true.bind fun b _ => ?_
  cases b with
  | true => exact hx
  | false => exact hy

/-- What every turn of a loop keeps holds at its end. -/
theorem yields_doWhile {body : α → Parser σ α} {again : Parser σ Bool}
    (hbody : ∀ a, P a → Yields (body a) P) (n : ℕ) (h : P a) :
    Yields (doWhile body again n a) P := by
  induction n generalizing a with
  | zero => rintro s b r ⟨⟩
  | succ n ih => exact (hbody a h).bind fun a' ha' => Yields.ite (ih ha') (yields_pure ha')

end Yields

end Parsing
