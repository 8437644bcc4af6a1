import Mathlib

/-!
# Runs of a step function

A run feeds a list of inputs to a total step function. `List.foldl` is the state
it ends in and `List.scanl` the states it passes through; `moves` pairs every
state that an input met with that input. The rules below turn facts about one
step into facts about runs of any length.
-/

namespace Run

universe u v w

variable {σ : Type u} {ι : Type v} {step : σ → ι → σ}

/-- Each input of a run with the state it was applied to. -/
def moves (step : σ → ι → σ) : σ → List ι → List (σ × ι)
  | _, [] => []
  | s, i :: is => (s, i) :: moves step (step s i) is

/-- What every step preserves holds at the end of every run. -/
theorem invariant {J : σ → Prop} (preserved : ∀ s i, J s → J (step s i)) {s : σ} (start : J s)
    (is : List ι) : J (is.foldl step s) := by
  induction is generalizing s with
  | nil => exact start
  | cons i is ih => exact ih (preserved s i start)

/-- Preservation may rely on a property of the states the run is known to visit; the
invariant then holds in all of them. -/
theorem invariant_of_always {P J : σ → Prop} (preserved : ∀ s i, P s → J s → J (step s i))
    {s : σ} (start : J s) {is : List ι} (always : ∀ t ∈ is.scanl step s, P t) :
    ∀ t ∈ is.scanl step s, J t := by
  induction is generalizing s with
  | nil => simpa using start
  | cons i is ih =>
      simp only [List.scanl_cons, List.forall_mem_cons] at always ⊢
      exact ⟨start, ih (preserved s i always.1 start) always.2⟩

/-- What the steps of a run preserve holds in all the states it visits. -/
theorem invariant_mem {J : σ → Prop} {is : List ι} (preserved : ∀ s, ∀ i ∈ is, J s → J (step s i))
    {s : σ} (start : J s) : ∀ t ∈ is.scanl step s, J t := by
  induction is generalizing s with
  | nil => simpa using start
  | cons i is ih =>
      obtain ⟨hi, his⟩ := List.forall_mem_cons.mp fun j hj s => preserved s j hj
      simp only [List.scanl_cons, List.forall_mem_cons]
      exact ⟨start, ih (fun s j hj => his j hj s) (hi s start)⟩

/-- Preservation may rely on a condition that every step of the run meets. -/
theorem invariant_of_moves {J : σ → Prop} {C : σ → ι → Prop}
    (preserved : ∀ s i, C s i → J s → J (step s i)) {s : σ} (start : J s) {is : List ι}
    (met : ∀ m ∈ moves step s is, C m.1 m.2) : ∀ t ∈ is.scanl step s, J t := by
  induction is generalizing s with
  | nil => simpa using start
  | cons i is ih =>
      obtain ⟨hi, his⟩ := List.forall_mem_cons.mp met
      simp only [List.scanl_cons, List.forall_mem_cons]
      exact ⟨start, ih (preserved s i hi start) his⟩

/-- The states that the parts of a run visit. -/
theorem mem_scanl_append {s t : σ} {is js : List ι}
    (h : t ∈ is.scanl step s ∨ t ∈ js.scanl step (is.foldl step s)) :
    t ∈ (is ++ js).scanl step s := by
  induction is generalizing s with
  | nil =>
      obtain h | h := h
      · rw [List.mem_singleton.mp h]
        cases js <;> simp
      · exact h
  | cons i is ih =>
      rw [List.scanl_cons, List.mem_cons] at h
      rw [List.cons_append, List.scanl_cons, List.mem_cons]
      obtain (rfl | h) | h := h
      · exact .inl rfl
      · exact .inr (ih (.inl h))
      · exact .inr (ih (.inr h))

/-- The last input of a run met the state the others led to. -/
theorem moves_concat (s : σ) (is : List ι) (i : ι) :
    moves step s (is ++ [i]) = moves step s is ++ [(is.foldl step s, i)] := by
  induction is generalizing s with
  | nil => rfl
  | cons j is ih => exact congrArg ((s, j) :: ·) (ih (step s j))

/-- An input met one of the visited states. -/
theorem mem_of_moves {s : σ} {is : List ι} {m : σ × ι} (h : m ∈ moves step s is) :
    m.1 ∈ is.scanl step s ∧ m.2 ∈ is := by
  induction is generalizing s with
  | nil => exact absurd h List.not_mem_nil
  | cons i is ih =>
      simp only [moves, List.mem_cons] at h
      simp only [List.scanl_cons, List.mem_cons]
      rcases h with rfl | h
      · exact ⟨.inl rfl, .inl rfl⟩
      · exact ⟨.inr (ih h).1, .inr (ih h).2⟩

/-- Two machines fed the same inputs stay related if each step that meets the condition keeps
them so. -/
theorem simulation {τ : Type w} {astep : τ → ι → τ} {R : σ → τ → Prop} {C : σ → ι → Prop}
    (preserved : ∀ s t i, C s i → R s t → R (step s i) (astep t i)) {s : σ} {t : τ} (start : R s t)
    {is : List ι} (met : ∀ m ∈ moves step s is, C m.1 m.2) :
    R (is.foldl step s) (is.foldl astep t) := by
  induction is generalizing s t with
  | nil => exact start
  | cons i is ih =>
      obtain ⟨hi, his⟩ := List.forall_mem_cons.mp met
      exact ih (preserved s t i hi start) his

/-- A property whose preservation by one step is exactly a condition on that step
holds throughout a run exactly when every step of the run meets the condition. -/
theorem always_iff_moves {I J : σ → Prop} {C : σ → ι → Prop}
    (preserved : ∀ s i, J s → J (step s i))
    (exact : ∀ s i, J s → I s → (I (step s i) ↔ C s i)) {s : σ} (hJ : J s) (hI : I s)
    (is : List ι) :
    (∀ t ∈ is.scanl step s, I t) ↔ ∀ m ∈ moves step s is, C m.1 m.2 := by
  induction is generalizing s with
  | nil => simpa [moves] using hI
  | cons i is ih =>
      have hnext := exact s i hJ hI
      simp only [List.scanl_cons, List.forall_mem_cons, moves]
      constructor
      · rintro ⟨-, hrest⟩
        have hI' : I (step s i) := by
          refine hrest _ ?_
          cases is <;> simp
        exact ⟨hnext.mp hI', (ih (preserved s i hJ) hI').mp hrest⟩
      · rintro ⟨hC, hrest⟩
        exact ⟨hI, (ih (preserved s i hJ) (hnext.mpr hC)).mpr hrest⟩

/-- A property of single steps that keeps an invariant, and under it amounts to a condition on
the step: along a run the two go together. -/
theorem moves_iff {J : σ → Prop} {P C : σ → ι → Prop}
    (preserved : ∀ s i, J s → P s i → J (step s i)) (exact : ∀ s i, J s → (P s i ↔ C s i))
    {s : σ} (hJ : J s) (is : List ι) :
    (∀ m ∈ moves step s is, P m.1 m.2) ↔ ∀ m ∈ moves step s is, C m.1 m.2 := by
  induction is generalizing s with
  | nil => simp [moves]
  | cons i is ih =>
      simp only [moves, List.forall_mem_cons]
      rw [← exact s i hJ]
      exact and_congr_right fun hP => ih (preserved s i hJ hP)

end Run
