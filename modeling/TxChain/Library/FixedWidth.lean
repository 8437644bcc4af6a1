import Mathlib

/-!
# Fixed-width encoders

An encoder whose outputs all have one width needs no delimiters: the width is
the frame. Encoders compose field by field, and concatenating the encodings of a
list loses neither the order nor the number of its elements.
-/

universe u v w

/-- An injective encoder all of whose outputs have the same length. -/
structure FixedWidth (α : Type u) (β : Type v) where
  width : ℕ
  encode : α → List β
  length_encode : ∀ a, (encode a).length = width
  injective : Function.Injective encode

namespace FixedWidth

variable {α : Type u} {β : Type v} {γ : Type w}

/-- Two fields one after the other. -/
def pair (f : FixedWidth α β) (g : FixedWidth γ β) : FixedWidth (α × γ) β where
  width := f.width + g.width
  encode := fun x => f.encode x.1 ++ g.encode x.2
  length_encode := by
    intro x
    simp [f.length_encode, g.length_encode]
  injective := by
    intro x y h
    obtain ⟨h₁, h₂⟩ := List.append_inj h (by rw [f.length_encode, f.length_encode])
    exact Prod.ext (f.injective h₁) (g.injective h₂)

/-- Encode a value through the fields that determine it. -/
def comap (f : FixedWidth α β) (fields : γ → α) (hf : Function.Injective fields) :
    FixedWidth γ β where
  width := f.width
  encode := fun x => f.encode (fields x)
  length_encode := fun x => f.length_encode (fields x)
  injective := f.injective.comp hf

/-- A single symbol is its own encoding. -/
def symbol (β : Type v) : FixedWidth β β where
  width := 1
  encode := fun b => [b]
  length_encode := fun _ => rfl
  injective := fun _ _ h => List.head_eq_of_cons_eq h

/-- A fixed-length array is encoded by its elements. -/
def array (β : Type v) (n : ℕ) : FixedWidth (Vector β n) β where
  width := n
  encode := Vector.toList
  length_encode := fun _ => Vector.length_toList
  injective := fun _ _ h => Vector.toList_inj.mp h

/-- Undelimited concatenation is injective as long as encodings are not empty. -/
theorem flatMap_injective (f : FixedWidth α β) (hw : 0 < f.width) :
    Function.Injective (List.flatMap f.encode) := by
  have nonempty : ∀ a rest, f.encode a ++ rest ≠ [] := by
    intro a rest h
    have hlen := congrArg List.length h
    simp only [List.length_append, f.length_encode, List.length_nil] at hlen
    omega
  intro xs
  induction xs with
  | nil =>
      intro ys h
      cases ys with
      | nil => rfl
      | cons y ys => exact absurd h.symm (nonempty y _)
  | cons x xs ih =>
      intro ys h
      cases ys with
      | nil => exact absurd h (nonempty x _)
      | cons y ys =>
          simp only [List.flatMap_cons] at h
          obtain ⟨hxy, hrest⟩ := List.append_inj h (by rw [f.length_encode, f.length_encode])
          rw [f.injective hxy, ih hrest]

end FixedWidth
