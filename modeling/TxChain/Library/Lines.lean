import Mathlib

/-!
# Texts of terminated lines

A text in which every record ends with a separator can be appended to without
reading it. Reading splits at the separators and skips empty pieces, so the piece
after the last separator and blank lines do not show.
-/

namespace Lines

universe u

variable {α : Type u} [DecidableEq α]

/-- Each record followed by the separator. -/
def unlines (sep : α) (records : List (List α)) : List α := records.flatMap fun r => r ++ [sep]

/-- The non-empty pieces between separators. -/
def records (sep : α) (text : List α) : List (List α) :=
  (text.splitOn sep).filter fun piece => piece ≠ []

omit [DecidableEq α] in
theorem unlines_append (sep : α) (rs ss : List (List α)) :
    unlines sep (rs ++ ss) = unlines sep rs ++ unlines sep ss :=
  List.flatMap_append

theorem records_nil (sep : α) : records sep [] = [] := by simp [records, List.splitOn_nil]

/-- Reading goes separator by separator. -/
theorem records_append (sep : α) (text rest : List α) :
    records sep (text ++ sep :: rest) = records sep text ++ records sep rest := by
  rw [records, List.splitOn_append_cons_self, List.filter_append]
  rfl

/-- A text that is empty or ends with the separator. -/
def Ended (sep : α) (text : List α) : Prop := text = [] ∨ text.getLast? = some sep

instance (sep : α) (text : List α) : Decidable (Ended sep text) :=
  inferInstanceAs (Decidable (_ ∨ _))

omit [DecidableEq α] in
theorem ended_append (sep : α) (text r : List α) : Ended sep (text ++ (r ++ [sep])) := by
  rw [← List.append_assoc]
  exact .inr List.getLast?_concat

/-- What is appended to an ended text is read on its own. -/
theorem Ended.records_append {sep : α} {text : List α} (h : Ended sep text) (rest : List α) :
    records sep (text ++ rest) = records sep text ++ records sep rest := by
  rcases h with rfl | hlast
  · rw [records_nil]
    rfl
  · obtain ⟨init, rfl⟩ := List.getLast?_eq_some_iff.mp hlast
    have hinit := Lines.records_append sep init []
    rw [records_nil, List.append_nil] at hinit
    rw [List.append_assoc, List.singleton_append, Lines.records_append, hinit]

/-- A record that contains no separator is read with and without one after it. -/
theorem records_single {sep : α} {r : List α} (hsep : sep ∉ r) (hne : r ≠ []) :
    records sep r = [r] := by
  rw [records, List.splitOn_eq_singleton hsep, List.filter_singleton]
  simp [hne]

/-- Reading what was written record by record gives the records back, and then what
stands behind them. -/
theorem records_unlines_append {sep : α} {rs : List (List α)} (h : ∀ r ∈ rs, sep ∉ r ∧ r ≠ [])
    (tail : List α) : records sep (unlines sep rs ++ tail) = rs ++ records sep tail := by
  induction rs with
  | nil => rfl
  | cons r rs ih =>
      obtain ⟨⟨hsep, hne⟩, hrest⟩ := List.forall_mem_cons.mp h
      have hcons : unlines sep (r :: rs) ++ tail = r ++ sep :: (unlines sep rs ++ tail) := by
        simp [unlines]
      rw [hcons, records_append, records_single hsep hne, ih hrest]
      rfl

theorem records_unlines {sep : α} {rs : List (List α)} (h : ∀ r ∈ rs, sep ∉ r ∧ r ≠ []) :
    records sep (unlines sep rs) = rs := by
  have htext := records_unlines_append h []
  rw [List.append_nil] at htext
  rwa [records_nil, List.append_nil] at htext

/-! ### Cut texts -/

/-- A cut where the first `k` records end, behind the last separator or in front of it. -/
def CutsAfter (sep : α) (rs : List (List α)) (k n : ℕ) : Prop :=
  n = (unlines sep (rs.take k)).length ∨ n + 1 = (unlines sep (rs.take k)).length

instance (sep : α) (rs : List (List α)) (k n : ℕ) : Decidable (CutsAfter sep rs k n) :=
  inferInstanceAs (Decidable (_ ∨ _))

omit [DecidableEq α] in
@[simp] theorem length_unlines_cons (sep : α) (r : List α) (rs : List (List α)) :
    (unlines sep (r :: rs)).length = r.length + 1 + (unlines sep rs).length := by
  simp [unlines]
  omega

omit [DecidableEq α] in
theorem unlines_cons (sep : α) (r : List α) (rs : List (List α)) :
    unlines sep (r :: rs) = r ++ sep :: unlines sep rs := by
  simp [unlines]

/-- A text cut where a record ends is read as the records in front of the cut. -/
theorem records_take_of_cut {sep : α} {rs : List (List α)} (h : ∀ r ∈ rs, sep ∉ r ∧ r ≠ [])
    {k n : ℕ} (hcut : CutsAfter sep rs k n) :
    records sep ((unlines sep rs).take n) = rs.take k := by
  have hfront : ∀ r ∈ rs.take k, sep ∉ r ∧ r ≠ [] := fun r hr => h r (List.mem_of_mem_take hr)
  have hsplit : unlines sep rs = unlines sep (rs.take k) ++ unlines sep (rs.drop k) := by
    rw [← unlines_append, List.take_append_drop]
  rw [hsplit]
  rcases hcut with hend | hend
  · rw [List.take_left' hend.symm]
    exact records_unlines hfront
  · cases hlast : (rs.take k).reverse with
    | nil =>
        rw [List.reverse_eq_nil_iff.mp hlast] at hend
        exact absurd hend (Nat.succ_ne_zero n)
    | cons r front =>
        have htake : rs.take k = front.reverse ++ [r] := by
          rw [← List.reverse_cons, ← hlast, List.reverse_reverse]
        rw [htake] at hend hfront ⊢
        obtain ⟨hrecords, hr⟩ := List.forall_mem_append.mp hfront
        obtain ⟨hsep, hne⟩ := hr r (List.mem_singleton_self r)
        have hline : unlines sep (front.reverse ++ [r]) =
            (unlines sep front.reverse ++ r) ++ [sep] := by
          simp [unlines]
        have hcut : (unlines sep front.reverse ++ r).length = n := by
          rw [hline, List.length_append, List.length_singleton] at hend
          exact (Nat.succ.inj hend).symm
        rw [hline, List.append_assoc, List.take_left' hcut, records_unlines_append hrecords,
          records_single hsep hne]

omit [DecidableEq α] in
/-- Every other cut goes through a record. -/
theorem cut_or_torn (sep : α) (rs : List (List α)) {n : ℕ} (hn : n ≤ (unlines sep rs).length) :
    (∃ k ≤ rs.length, CutsAfter sep rs k n) ∨
      ∃ k r m, rs[k]? = some r ∧ 0 < m ∧ m < r.length ∧
        (unlines sep rs).take n = unlines sep (rs.take k) ++ r.take m := by
  induction rs generalizing n with
  | nil => exact .inl ⟨0, Nat.le_refl 0, .inl (Nat.le_zero.mp hn)⟩
  | cons r rs ih =>
      rw [length_unlines_cons] at hn
      by_cases hzero : n = 0
      · exact .inl ⟨0, Nat.zero_le _, .inl hzero⟩
      by_cases hinside : n < r.length
      · right
        refine ⟨0, r, n, rfl, Nat.pos_of_ne_zero hzero, hinside, ?_⟩
        rw [unlines_cons, List.take_append_of_le_length hinside.le]
        rfl
      by_cases hend : n = r.length
      · left
        refine ⟨1, by simp, .inr ?_⟩
        simp [unlines, hend]
      obtain ⟨n, rfl⟩ : ∃ n', n = r.length + 1 + n' := ⟨n - (r.length + 1), by omega⟩
      rcases ih (n := n) (by omega) with ⟨k, hk, hcut⟩ | ⟨k, r', m, hr', hpos, hlt, htake⟩
      · left
        refine ⟨k + 1, by simpa using hk, ?_⟩
        rw [CutsAfter, List.take_succ_cons, length_unlines_cons]
        rcases hcut with hcut | hcut
        · exact .inl (by omega)
        · exact .inr (by omega)
      · right
        refine ⟨k + 1, r', m, by simpa using hr', hpos, hlt, ?_⟩
        have hline : r ++ sep :: unlines sep rs = (r ++ [sep]) ++ unlines sep rs := by simp
        have hlength : (r ++ [sep]).length = r.length + 1 := by simp
        rw [unlines_cons, hline, ← hlength, List.take_length_add_append, htake,
          List.take_succ_cons, unlines_cons]
        simp

/-- A torn record shows as one more record. -/
theorem records_torn {sep : α} {rs : List (List α)} (h : ∀ r ∈ rs, sep ∉ r ∧ r ≠ []) {k m : ℕ}
    {r : List α} (hr : rs[k]? = some r) (hpos : 0 < m) (hlt : m < r.length) :
    records sep (unlines sep (rs.take k) ++ r.take m) = rs.take k ++ [r.take m] := by
  have hsep : sep ∉ r.take m :=
    fun hmem => (h r (List.mem_of_getElem? hr)).1 (List.mem_of_mem_take hmem)
  have hne : r.take m ≠ [] := by
    rw [← List.length_pos_iff, List.length_take]
    omega
  rw [records_unlines_append fun r hr => h r (List.mem_of_mem_take hr), records_single hsep hne]

/-- Reading goes on behind a separator. -/
theorem records_cons_sep (sep : α) (rest : List α) :
    records sep (sep :: rest) = records sep rest := by
  have hempty := records_append sep [] rest
  rwa [records_nil, List.nil_append, List.nil_append] at hempty

/-- Records may also each have the separator in front. -/
theorem records_led {sep : α} {rs : List (List α)} (h : ∀ r ∈ rs, sep ∉ r ∧ r ≠ []) :
    records sep (rs.flatMap (sep :: ·)) = rs := by
  induction rs with
  | nil => exact records_nil sep
  | cons r rs ih =>
      obtain ⟨⟨hsep, hne⟩, hrest⟩ := List.forall_mem_cons.mp h
      rw [List.flatMap_cons, List.cons_append, records_cons_sep]
      cases rs with
      | nil =>
          rw [List.flatMap_nil, List.append_nil, records_single hsep hne]
      | cons r' rs =>
          have ih' := ih hrest
          rw [List.flatMap_cons, List.cons_append, records_cons_sep] at ih'
          rw [List.flatMap_cons, List.cons_append, records_append, records_single hsep hne, ih']
          rfl

end Lines
