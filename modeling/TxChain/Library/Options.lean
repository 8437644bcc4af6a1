import Mathlib

/-!
# Scans of a command line

A parse of a command line goes from flag to flag: a flag that takes a value consumes the
next argument, whatever it looks like. A plain scan looks at every argument that another
one follows. The two differ where a flag stands in the place of a value, and at the end of
the line. Of several occurrences the last one counts.
-/

namespace Options

universe u v w

/-- Which arguments are flags, and which of them take a value. -/
structure Grammar (α : Type u) (φ : Type v) where
  read : α → Option φ
  takesValue : φ → Bool

variable {α : Type u} {β : Type u} {φ : Type v} {σ : Type w}

/-! ### The last occurrence -/

section Last

variable [DecidableEq φ]

def last (f : φ) : List (φ × α) → Option α
  | [] => none
  | (k, v) :: rest => (last f rest).or (if k = f then some v else none)

theorem last_cons_self (f : φ) (v : α) (rest : List (φ × α)) :
    last f ((f, v) :: rest) = (last f rest).or (some v) := by rw [last, if_pos rfl]

theorem last_cons_ne {f k : φ} (h : k ≠ f) (v : α) (rest : List (φ × α)) :
    last f ((k, v) :: rest) = last f rest := by rw [last, if_neg h, Option.or_none]

theorem last_map (g : α → β) (f : φ) (occs : List (φ × α)) :
    last f (occs.map fun o => (o.1, g o.2)) = (last f occs).map g := by
  induction occs with
  | nil => rfl
  | cons o occs ih =>
      obtain ⟨k, v⟩ := o
      by_cases hk : k = f
      · subst hk
        rw [List.map_cons, last_cons_self, last_cons_self, ih]
        cases last k occs <;> rfl
      · rw [List.map_cons, last_cons_ne hk, last_cons_ne hk, ih]

/-- A field that one flag sets is left as the last occurrence of that flag sets it. -/
theorem foldl_set {π : σ → α} {set : σ → φ × β → σ} {f : φ} {g : β → α}
    (hset : ∀ s k v, π (set s (k, v)) = if k = f then g v else π s) (occs : List (φ × β)) (s : σ) :
    π (occs.foldl set s) = ((last f occs).map g).getD (π s) := by
  induction occs generalizing s with
  | nil => rfl
  | cons o occs ih =>
      obtain ⟨k, v⟩ := o
      rw [List.foldl_cons, ih, hset]
      by_cases hk : k = f
      · subst hk
        rw [if_pos rfl, last_cons_self]
        cases last k occs <;> rfl
      · rw [if_neg hk, last_cons_ne hk]

end Last

/-! ### The two scans -/

section Scans

variable (g : Grammar α φ) (missing : α)

/-- The flags with the values they consume; `missing` for a flag without one. -/
def parse : List α → List (φ × α)
  | [] => []
  | [a] => ((g.read a).map fun f => (f, missing)).toList
  | a :: v :: rest =>
      match g.read a with
      | none => parse (v :: rest)
      | some f => if g.takesValue f then (f, v) :: parse rest else (f, missing) :: parse (v :: rest)

/-- What looks like a flag in front of another argument. -/
def pairs : List α → List (φ × α)
  | a :: v :: rest => ((g.read a).map fun f => (f, v)).toList ++ pairs (v :: rest)
  | _ => []

/-- Whether the parse reads the next argument as a flag, from whether it reads this one so. -/
def Grammar.next (isFlag : Bool) (a : α) : Bool := !(isFlag && (g.read a).any g.takesValue)

/-- What looks like a flag in front of another argument, and whether the parse reads it as one. -/
def marked : Bool → List α → List (φ × Bool × α)
  | isFlag, a :: v :: rest =>
      ((g.read a).map fun f => (f, isFlag, v)).toList ++ marked (g.next isFlag a) (v :: rest)
  | _, _ => []

/-- The flag that the parse finds at the end of the line. -/
def trailing : Bool → List α → Option φ
  | _, [] => none
  | isFlag, [a] => if isFlag then g.read a else none
  | isFlag, a :: v :: rest => trailing (g.next isFlag a) (v :: rest)

/-- The entries that the parse reads as flags. -/
def flagged (entries : List (φ × Bool × α)) : List (φ × α) :=
  (entries.filter fun e => e.2.1).map fun e => (e.1, e.2.2)

end Scans

section Agreement

variable {g : Grammar α φ} {missing d : α} {f : φ} {args : List α}

theorem pairs_eq (isFlag : Bool) (args : List α) :
    pairs g args = (marked g isFlag args).map fun e => (e.1, e.2.2) := by
  induction args generalizing isFlag with
  | nil => rfl
  | cons a args ih =>
      cases args with
      | nil => rfl
      | cons v rest =>
          rw [pairs, marked, List.map_append, ← ih]
          cases g.read a <;> rfl

theorem next_of_value {a : α} {f : φ} (hread : g.read a = some f) (htakes : g.takesValue f = true) :
    g.next true a = false := by simp [Grammar.next, hread, htakes]

theorem next_of_switch {a : α} {f : φ} (hread : g.read a = some f)
    (hswitch : ¬g.takesValue f = true) :
    g.next true a = true := by simp [Grammar.next, hread, hswitch]

theorem next_of_none {a : α} (hread : g.read a = none) : g.next true a = true := by
  simp [Grammar.next, hread]

theorem next_false (a : α) : g.next false a = true := rfl

/-- Behind a value the parse goes on with a flag. -/
theorem flagged_value (v : α) (rest : List α) :
    flagged (marked g false (v :: rest)) = flagged (marked g true rest) := by
  cases rest with
  | nil => rfl
  | cons w rest =>
      rw [marked, next_false]
      cases g.read v <;> rfl

theorem trailing_value (v : α) (rest : List α) :
    trailing g false (v :: rest) = trailing g true rest := by
  cases rest with
  | nil => rfl
  | cons w rest => rw [trailing, next_false]

theorem flagged_cons (k : φ) (isFlag : Bool) (v : α) (entries : List (φ × Bool × α)) :
    flagged ((k, isFlag, v) :: entries) =
      if isFlag then (k, v) :: flagged entries else flagged entries := by
  cases isFlag <;> rfl

variable [DecidableEq φ]

theorem last_pairs_cons (f : φ) (a v : α) (rest : List α) :
    last f (pairs g (a :: v :: rest)) =
      (last f (pairs g (v :: rest))).or (if g.read a = some f then some v else none) := by
  rw [pairs]
  cases hread : g.read a with
  | none => exact (Option.or_none).symm
  | some k =>
      by_cases hk : k = f
      · subst hk
        rw [if_pos rfl]
        exact last_cons_self k v _
      · rw [if_neg fun h => hk (Option.some.inj h), Option.or_none]
        exact last_cons_ne hk v _

/-- The last value the parse assigns to a flag: the flag ends the line, or it is the last one that
is read as a flag. -/
theorem last_parse (hf : g.takesValue f = true) (args : List α) :
    last f (parse g missing args) =
      if trailing g true args = some f then some missing
      else last f (flagged (marked g true args)) := by
  induction args using parse.induct g with
  | case1 => rfl
  | case2 a =>
      rw [parse, trailing, if_pos rfl]
      cases g.read a with
      | none => rfl
      | some k =>
          by_cases hk : k = f
          · subst hk
            rw [if_pos rfl]
            exact last_cons_self k missing []
          · rw [if_neg (fun h => hk (Option.some.inj h))]
            exact last_cons_ne hk missing []
  | case3 a v rest hread ih =>
      rw [parse, trailing, marked, hread, next_of_none hread]
      exact ih
  | case4 a v rest k hread htakes ih =>
      rw [parse, trailing, marked, hread, next_of_value hread htakes, trailing_value]
      dsimp only
      rw [if_pos htakes]
      have hentries : flagged (((some k).map fun f => (f, true, v)).toList ++
          marked g false (v :: rest)) = (k, v) :: flagged (marked g true rest) := by
        rw [← flagged_value v rest]
        rfl
      rw [hentries]
      by_cases hk : k = f
      · subst hk
        rw [last_cons_self, last_cons_self, ih]
        split <;> rfl
      · rw [last_cons_ne hk, last_cons_ne hk, ih]
  | case5 a v rest k hread hswitch ih =>
      rw [parse, trailing, marked, hread, next_of_switch hread hswitch]
      dsimp only
      rw [if_neg hswitch]
      have hk : k ≠ f := by
        rintro rfl
        exact hswitch hf
      have hentries : flagged (((some k).map fun f => (f, true, v)).toList ++
          marked g true (v :: rest)) = (k, v) :: flagged (marked g true (v :: rest)) := rfl
      rw [hentries, last_cons_ne hk, last_cons_ne hk, ih]

theorem last_flagged_none {entries : List (φ × Bool × α)} (h : last f entries = none) :
    last f (flagged entries) = none := by
  induction entries with
  | nil => rfl
  | cons e entries ih =>
      obtain ⟨k, isFlag, v⟩ := e
      by_cases hk : k = f
      · subst hk
        rw [last_cons_self] at h
        cases hrest : last k entries with
        | none => rw [hrest] at h; cases h
        | some w => rw [hrest] at h; cases h
      · rw [last_cons_ne hk] at h
        rw [flagged_cons]
        split
        next => rw [last_cons_ne hk, ih h]
        next => exact ih h

/-- The last entry of a flag counts for the parse if it is read as a flag. -/
theorem last_flagged_of_true {entries : List (φ × Bool × α)} {v : α}
    (h : last f entries = some (true, v)) : last f (flagged entries) = some v := by
  induction entries with
  | nil => cases h
  | cons e entries ih =>
      obtain ⟨k, isFlag, w⟩ := e
      by_cases hk : k = f
      · subst hk
        rw [last_cons_self] at h
        cases hrest : last k entries with
        | none =>
            rw [hrest, Option.none_or] at h
            obtain ⟨rfl, rfl⟩ := Prod.mk.inj (Option.some.inj h)
            rw [flagged_cons, if_pos rfl, last_cons_self, last_flagged_none hrest, Option.none_or]
        | some e =>
            rw [hrest, Option.some_or] at h
            rw [flagged_cons]
            split
            next => rw [last_cons_self, ih (hrest.trans h), Option.some_or]
            next => exact ih (hrest.trans h)
      · rw [last_cons_ne hk] at h
        rw [flagged_cons]
        split
        next => rw [last_cons_ne hk, ih h]
        next => exact ih h

/-- Where the line ends with the flag, the last one before has the empty value; otherwise the
last one in front of another argument is read as a flag, or what follows it happens to be the
value the parse finds. -/
structure Agrees (g : Grammar α φ) (missing : α) (f : φ) (d : α) (args : List α) : Prop where
  ending : trailing g true args = some f →
    ((last f (marked g true args)).map Prod.snd).getD d = missing
  inside : trailing g true args ≠ some f → ∀ v, last f (marked g true args) = some (false, v) →
    v = (last f (flagged (marked g true args))).getD d

/-- The two scans find the same value exactly then. -/
theorem agrees_iff (hf : g.takesValue f = true) (missing d : α) (args : List α) :
    (last f (pairs g args)).getD d = (last f (parse g missing args)).getD d ↔
      Agrees g missing f d args := by
  have hpairs : last f (pairs g args) = (last f (marked g true args)).map Prod.snd := by
    rw [pairs_eq true args]
    exact last_map Prod.snd f _
  rw [hpairs, last_parse hf]
  by_cases hend : trailing g true args = some f
  · rw [if_pos hend]
    exact ⟨fun h => ⟨fun _ => h, fun hne => absurd hend hne⟩, fun h => h.ending hend⟩
  · rw [if_neg hend]
    constructor
    · intro h
      refine ⟨fun hend' => absurd hend' hend, fun _ v hv => ?_⟩
      rw [hv] at h
      exact h
    · intro h
      cases hlast : last f (marked g true args) with
      | none =>
          rw [last_flagged_none hlast]
          rfl
      | some e =>
          obtain ⟨isFlag, v⟩ := e
          cases isFlag with
          | true =>
              rw [last_flagged_of_true hlast]
              rfl
          | false => exact h.inside hend v hlast

end Agreement

end Options
