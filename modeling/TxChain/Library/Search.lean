import Mathlib

/-!
# First occurrences

`find` is the index at which a pattern first occurs in a text. A search is settled by the
part of the text that ends with the occurrence, and a symbol that the pattern lacks splits
it: no occurrence crosses such a symbol.
-/

namespace Search

universe u

variable {α : Type u} [DecidableEq α]

def find (pat : List α) : List α → Option ℕ
  | [] => if pat = [] then some 0 else none
  | c :: rest => if pat <+: c :: rest then some 0 else (find pat rest).map (· + 1)

variable {pat s t : List α} {i : ℕ}

theorem find_start (h : pat <+: s) : find pat s = some 0 := by
  cases s with
  | nil =>
      rw [find, if_pos (List.prefix_nil.mp h)]
  | cons c rest =>
      rw [find, if_pos h]

theorem find_cons (c : α) (h : ¬pat <+: c :: s) :
    find pat (c :: s) = (find pat s).map (· + 1) := by
  rw [find, if_neg h]

/-- A found pattern stands at its index. -/
theorem prefix_of_find (h : find pat s = some i) : pat <+: s.drop i ∧ i ≤ s.length := by
  induction s generalizing i with
  | nil =>
      rw [find] at h
      split_ifs at h with hpat
      obtain rfl := Option.some.inj h
      rw [hpat]
      exact ⟨List.nil_prefix, Nat.le_refl _⟩
  | cons c rest ih =>
      by_cases hpat : pat <+: c :: rest
      · rw [find_start hpat] at h
        obtain rfl := Option.some.inj h
        exact ⟨hpat, Nat.zero_le _⟩
      · rw [find_cons c hpat] at h
        obtain ⟨j, hj, rfl⟩ := Option.map_eq_some_iff.mp h
        exact ⟨(ih hj).1, Nat.succ_le_succ (ih hj).2⟩

theorem add_length_le (h : find pat s = some i) : i + pat.length ≤ s.length := by
  obtain ⟨hstarts, hi⟩ := prefix_of_find h
  have hlength := hstarts.length_le
  rw [List.length_drop] at hlength
  omega

/-- Text behind an occurrence does not change it. -/
theorem find_append (h : find pat s = some i) (t : List α) : find pat (s ++ t) = some i := by
  induction s generalizing i with
  | nil =>
      rw [find] at h
      split_ifs at h with hpat
      obtain rfl := Option.some.inj h
      rw [hpat]
      exact find_start List.nil_prefix
  | cons c rest ih =>
      by_cases hpat : pat <+: c :: rest
      · rw [find_start hpat] at h
        obtain rfl := Option.some.inj h
        exact find_start (hpat.trans (List.prefix_append _ _))
      · rw [find_cons c hpat] at h
        obtain ⟨j, hj, rfl⟩ := Option.map_eq_some_iff.mp h
        have hlater : ¬pat <+: c :: (rest ++ t) := by
          intro hfirst
          have hfits := add_length_le hj
          have hwithin : pat <+: c :: rest :=
            List.prefix_of_prefix_length_le hfirst (List.prefix_append (c :: rest) t)
              (by rw [List.length_cons]; omega)
          exact hpat hwithin
        rw [List.cons_append, find_cons c hlater, ih hj, Option.map_some]

/-- An occurrence that ends within a part of the text is found in that part. -/
theorem find_of_append (h : find pat (s ++ t) = some i) (hfits : i + pat.length ≤ s.length) :
    find pat s = some i := by
  cases hs : find pat s with
  | some j =>
      rw [find_append hs t] at h
      exact h
  | none =>
      exfalso
      induction s generalizing i with
      | nil =>
          rw [find] at hs
          split_ifs at hs with hpat
          rw [List.length_nil] at hfits
          exact hpat (List.eq_nil_of_length_eq_zero (by omega))
      | cons c rest ih =>
          by_cases hpat : pat <+: c :: rest
          · rw [find_start hpat] at hs
            cases hs
          · rw [find_cons c hpat] at hs
            have hlater : ¬pat <+: c :: (rest ++ t) := by
              intro hfirst
              refine hpat
                (List.prefix_of_prefix_length_le hfirst (List.prefix_append (c :: rest) t) ?_)
              omega
            rw [List.cons_append, find_cons c hlater] at h
            obtain ⟨j, hj, rfl⟩ := Option.map_eq_some_iff.mp h
            rw [List.length_cons] at hfits
            exact ih hj (by omega) (Option.map_eq_none_iff.mp hs)

/-- Symbols other than the first of the pattern are passed over. -/
theorem find_skip {p : α} {ps : List α} (h : p ∉ s) (t : List α) :
    find (p :: ps) (s ++ t) = (find (p :: ps) t).map (· + s.length) := by
  induction s with
  | nil => simp
  | cons c rest ih =>
      have hc : ¬(p :: ps) <+: c :: (rest ++ t) := by
        intro hfirst
        exact h (List.mem_cons.mpr (.inl (List.cons_prefix_cons.mp hfirst).1))
      rw [List.cons_append, find_cons c hc, ih (fun hmem => h (List.mem_cons_of_mem _ hmem)),
        Option.map_map, List.length_cons]
      rfl

/-- A single symbol is found where it first stands. -/
theorem find_symbol {x : α} (h : x ∉ s) (t : List α) : find [x] (s ++ x :: t) = some s.length := by
  have hfirst : [x] <+: x :: t := List.prefix_append [x] t
  rw [find_skip h, find_start hfirst, Option.map_some, Nat.zero_add]

/-- No occurrence crosses a symbol that the pattern lacks. -/
theorem find_barrier {x : α} (hx : x ∉ pat) (h : find pat s = none) (t : List α) :
    find pat (s ++ x :: t) = (find pat t).map (· + (s.length + 1)) := by
  have hcross : ∀ s : List α, pat <+: s ++ x :: t → pat <+: s := by
    intro s hs
    by_cases hlength : pat.length ≤ s.length
    · exact List.prefix_of_prefix_length_le hs (List.prefix_append _ _) hlength
    · have hin : s ++ [x] <+: pat := by
        refine List.prefix_of_prefix_length_le ?_ hs (by simp; omega)
        exact ⟨t, by simp⟩
      exact absurd (hin.subset (by simp)) hx
  induction s with
  | nil =>
      have hpat : pat ≠ [] := by
        rintro rfl
        rw [find_start List.nil_prefix] at h
        cases h
      rw [List.nil_append, find_cons x (fun hs => hpat (List.prefix_nil.mp (hcross [] hs)))]
      rfl
  | cons c rest ih =>
      have hc : ¬pat <+: c :: rest := by
        intro hs
        rw [find_start hs] at h
        cases h
      rw [find_cons c hc] at h
      have hlater : ¬pat <+: c :: (rest ++ x :: t) := fun hs => hc (hcross (c :: rest) hs)
      rw [List.cons_append, find_cons c hlater, ih (Option.map_eq_none_iff.mp h), Option.map_map,
        List.length_cons]
      rfl

/-- `pat` occurs right behind `before`, and nowhere earlier. -/
structure FirstAt (pat s before after : List α) : Prop where
  split : s = before ++ (pat ++ after)
  first : ∀ b a, s = b ++ (pat ++ a) → before.length ≤ b.length

/-- A search never passes an occurrence. -/
theorem find_of_split {before after : List α} (h : s = before ++ (pat ++ after)) :
    ∃ j ≤ before.length, find pat s = some j := by
  subst h
  induction before with
  | nil => exact ⟨0, Nat.le_refl _, find_start (List.prefix_append _ _)⟩
  | cons c rest ih =>
      by_cases hpat : pat <+: c :: (rest ++ (pat ++ after))
      · exact ⟨0, Nat.zero_le _, find_start hpat⟩
      · obtain ⟨j, hj, hfind⟩ := ih
        refine ⟨j + 1, Nat.succ_le_succ hj, ?_⟩
        rw [List.cons_append, find_cons c hpat, hfind, Option.map_some]

theorem split_of_find (h : find pat s = some i) :
    ∃ before after, s = before ++ (pat ++ after) ∧ before.length = i := by
  obtain ⟨⟨after, hafter⟩, hi⟩ := prefix_of_find h
  refine ⟨s.take i, after, ?_, List.length_take_of_le hi⟩
  rw [hafter, List.take_append_drop]

/-- What `find` returns is the first occurrence. -/
theorem firstAt_of_find (h : find pat s = some i) :
    ∃ before after, FirstAt pat s before after ∧ before.length = i := by
  obtain ⟨before, after, hsplit, hlength⟩ := split_of_find h
  refine ⟨before, after, ⟨hsplit, fun b a hs => ?_⟩, hlength⟩
  obtain ⟨j, hj, hfind⟩ := find_of_split hs
  rw [h] at hfind
  rw [hlength, Option.some.inj hfind]
  exact hj

theorem FirstAt.find {before after : List α} (h : FirstAt pat s before after) :
    find pat s = some before.length := by
  obtain ⟨j, hj, hfind⟩ := find_of_split h.split
  obtain ⟨b, a, hsplit, hb⟩ := split_of_find hfind
  have hfirst := h.first b a hsplit
  rw [hfind, show j = before.length by omega]

omit [DecidableEq α] in
theorem FirstAt.after_unique {before after before' after' : List α}
    (h : FirstAt pat s before after) (h' : FirstAt pat s before' after') : after = after' := by
  have hlength : before.length = before'.length :=
    Nat.le_antisymm (h.first before' after' h'.split) (h'.first before after h.split)
  have hsplit := h.split.symm.trans h'.split
  exact (List.append_right_inj pat).mp (List.append_inj hsplit hlength).2

theorem find_eq_none_iff : find pat s = none ↔ ∀ before after, ¬FirstAt pat s before after := by
  constructor
  · intro h before after hfirst
    rw [hfirst.find] at h
    cases h
  · intro h
    cases hfind : find pat s with
    | none => rfl
    | some i =>
        obtain ⟨before, after, hfirst, -⟩ := firstAt_of_find hfind
        exact absurd hfirst (h before after)

end Search
