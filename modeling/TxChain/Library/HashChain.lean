import Mathlib

/-!
# Hash chains

Each item of a chain names the hash of the item before it. Two chains of the same
length that end in the same hash are the same chain, unless two different items
somewhere in them share a hash.
-/

namespace HashChain

universe u v

variable {α : Type u} {H : Type v} {hash parent : α → H}

/-- Every item names the hash of the item before it. -/
def Linked (hash parent : α → H) (xs : List α) : Prop := xs.IsChain fun a b => parent b = hash a

/-- Two different items, one of each chain, with the same hash. -/
def Collides (hash : α → H) (xs ys : List α) : Prop :=
  ∃ a ∈ xs, ∃ b ∈ ys, a ≠ b ∧ hash a = hash b

theorem Collides.cons {xs ys : List α} {x y : α} (h : Collides hash xs ys) :
    Collides hash (x :: xs) (y :: ys) := by
  obtain ⟨a, ha, b, hb, hne, heq⟩ := h
  exact ⟨a, List.mem_cons_of_mem x ha, b, List.mem_cons_of_mem y hb, hne, heq⟩

private theorem cons_eq_or_collides {xs : List α} {x y : α} (h : hash x = hash y) :
    x :: xs = y :: xs ∨ Collides hash (x :: xs) (y :: xs) := by
  by_cases hxy : x = y
  · exact .inl (by rw [hxy])
  · exact .inr ⟨x, by simp, y, by simp, hxy, h⟩

/-- The last hash commits to the whole chain, up to a collision. -/
theorem eq_or_collides {xs ys : List α} (hx : Linked hash parent xs) (hy : Linked hash parent ys)
    (hlength : xs.length = ys.length) (hlast : xs.getLast?.map hash = ys.getLast?.map hash) :
    xs = ys ∨ Collides hash xs ys := by
  induction xs generalizing ys with
  | nil => exact .inl (List.length_eq_zero_iff.mp hlength.symm).symm
  | cons x xs ih =>
      cases ys with
      | nil => exact absurd hlength (Nat.succ_ne_zero _)
      | cons y ys =>
          have htails : xs.length = ys.length := Nat.succ.inj hlength
          cases xs with
          | nil =>
              cases List.length_eq_zero_iff.mp htails.symm
              exact cons_eq_or_collides (Option.some.inj hlast)
          | cons x' xs =>
              cases ys with
              | nil => exact absurd htails (Nat.succ_ne_zero _)
              | cons y' ys =>
                  obtain ⟨hxx, hx⟩ := List.isChain_cons_cons.mp hx
                  obtain ⟨hyy, hy⟩ := List.isChain_cons_cons.mp hy
                  rw [List.getLast?_cons_cons, List.getLast?_cons_cons] at hlast
                  rcases ih hx hy htails hlast with heq | hcollides
                  · -- Equal successors name the same parent.
                    cases heq
                    exact cons_eq_or_collides (hxx.symm.trans hyy)
                  · exact .inr hcollides.cons

end HashChain
