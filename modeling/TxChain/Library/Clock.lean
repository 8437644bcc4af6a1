import Mathlib

/-!
# Strictly increasing stamps

Stamps taken from a clock that may stand still or run backwards: each stamp is the
reading, or one past the last stamp where the reading is not later. The stamp after a
history of readings is the furthest of them, each moved on by one for every later
stamp.
-/

namespace Clock

/-- The stamp of a reading behind the last stamp. -/
def tick (last reading : ℕ) : ℕ := max reading (last + 1)

/-- The last stamp of a history: the start, then each reading. -/
def stamp (start : ℕ) (readings : List ℕ) : ℕ := readings.foldl tick start

/-- The readings of a history, each moved on by one for every later one. -/
def carried (readings : List ℕ) : Set ℕ :=
  {t | ∃ (j : ℕ) (hj : j < readings.length), t = readings[j] + (readings.length - 1 - j)}

theorem stamp_concat (start : ℕ) (readings : List ℕ) (n : ℕ) :
    stamp start (readings ++ [n]) = tick (stamp start readings) n := by
  rw [stamp, List.foldl_concat, stamp]

theorem carried_singleton (n : ℕ) : carried [n] = {n} := by
  ext t
  simp [carried]

/-- A new reading stands for itself and moves the others on. -/
theorem carried_concat {readings : List ℕ} (n : ℕ) :
    carried (readings ++ [n]) = insert n ((fun t => t + 1) '' carried readings) := by
  ext t
  simp only [carried, Set.mem_ofPred_eq, Set.mem_insert_iff, Set.mem_image, List.length_append,
    List.length_singleton]
  constructor
  · rintro ⟨j, hj, rfl⟩
    by_cases hlast : j < readings.length
    · refine .inr ⟨_, ⟨j, hlast, rfl⟩, ?_⟩
      rw [List.getElem_append_left hlast]
      omega
    · obtain rfl : j = readings.length := by omega
      left
      rw [List.getElem_concat_length rfl]
      omega
  · rintro (rfl | ⟨_, ⟨j, hj, rfl⟩, rfl⟩)
    · refine ⟨readings.length, by omega, ?_⟩
      rw [List.getElem_concat_length rfl]
      omega
    · refine ⟨j, by omega, ?_⟩
      rw [List.getElem_append_left hj]
      omega

/-- The last stamp is the furthest of the readings moved on. -/
theorem stamp_isGreatest (start : ℕ) (readings : List ℕ) :
    IsGreatest (carried (start :: readings)) (stamp start readings) := by
  induction readings using List.reverseRecOn with
  | nil =>
      rw [carried_singleton]
      exact isGreatest_singleton
  | append_singleton readings n ih =>
      have hmoved : IsGreatest ((fun t => t + 1) '' carried (start :: readings))
          (stamp start readings + 1) :=
        Monotone.map_isGreatest (fun a b hab => Nat.add_le_add_right hab 1) ih
      rw [stamp_concat, tick, ← List.cons_append, carried_concat]
      exact hmoved.insert n

/-- So the next stamp passes a bound the reading keeps exactly where a reading moved on does. -/
theorem exceeds_iff (start : ℕ) (readings : List ℕ) (bound : ℕ) :
    bound < stamp start readings + 1 ↔ ∃ t ∈ carried (start :: readings), bound < t + 1 := by
  have hgreatest := stamp_isGreatest start readings
  constructor
  · intro h
    exact ⟨_, hgreatest.1, h⟩
  · rintro ⟨t, ht, h⟩
    exact h.trans_le (Nat.add_le_add_right (hgreatest.2 ht) 1)

end Clock
