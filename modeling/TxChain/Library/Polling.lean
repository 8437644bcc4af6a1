import Mathlib

/-!
# Searches that poll a flag

A search tries the numbers one after another and ends at the first that passes the test.
At some of them it reads a flag before the try, and ends without a result if the flag is
set. It need not end; `fuel` bounds the turns it is given.
-/

namespace Polling

/-- How a search ended: what it found, the numbers it tried, and what it read from the flag. -/
structure Outcome where
  found : Option ℕ
  tried : List ℕ
  reads : List Bool

section Search

variable (poll flag test : ℕ → Bool)

/-- The search from `i` on. -/
def search : ℕ → ℕ → List ℕ → List Bool → Option Outcome
  | 0, _, _, _ => none
  | fuel + 1, i, tried, reads =>
      let reads := if poll i then reads ++ [flag i] else reads
      if poll i && flag i then some ⟨none, tried, reads⟩
      else if test i then some ⟨some i, tried ++ [i], reads⟩
      else search fuel (i + 1) (tried ++ [i]) reads

/-- What the flag reads as in the first `n` turns. -/
def readings (n : ℕ) : List Bool := ((List.range n).filter fun i => poll i).map flag

theorem readings_succ (n : ℕ) :
    readings poll flag (n + 1) =
      if poll n then readings poll flag n ++ [flag n] else readings poll flag n := by
  rw [readings, readings, List.range_succ, List.filter_append, List.map_append]
  cases hpoll : poll n <;> simp [hpoll]

end Search

section Outcomes

variable {poll flag test : ℕ → Bool} {fuel i : ℕ} {tried : List ℕ} {reads : List Bool}
  {r : Outcome}

/-- A search comes to turn `i` with all numbers below tried in vain and no reading that was set. -/
structure Comes (poll flag test : ℕ → Bool) (i : ℕ) (tried : List ℕ) (reads : List Bool) :
    Prop where
  tried_eq : tried = List.range i
  reads_eq : reads = readings poll flag i
  fails : ∀ j < i, test j = false
  unset : ∀ j < i, poll j = true → flag j = false

theorem Comes.start : Comes poll flag test 0 [] [] where
  tried_eq := rfl
  reads_eq := rfl
  fails _ h := absurd h (Nat.not_lt_zero _)
  unset _ h := absurd h (Nat.not_lt_zero _)

theorem Comes.length (h : Comes poll flag test i tried reads) : tried.length = i := by
  rw [h.tried_eq, List.length_range]

theorem Comes.read (h : Comes poll flag test i tried reads) :
    (if poll i then reads ++ [flag i] else reads) = readings poll flag (i + 1) := by
  rw [readings_succ, h.reads_eq]

theorem Comes.unset_succ (h : Comes poll flag test i tried reads)
    (hgo : ¬(poll i && flag i) = true) : ∀ j < i + 1, poll j = true → flag j = false := by
  intro j hj hpoll
  rcases Nat.lt_succ_iff_lt_or_eq.mp hj with hlt | rfl
  · exact h.unset j hlt hpoll
  · rw [Bool.and_eq_true, not_and] at hgo
    exact Bool.eq_false_iff.mpr (hgo hpoll)

/-- A turn that ends nothing leads to the next one. -/
theorem Comes.next (h : Comes poll flag test i tried reads) (hgo : ¬(poll i && flag i) = true)
    (hfails : ¬test i = true) :
    Comes poll flag test (i + 1) (tried ++ [i])
      (if poll i then reads ++ [flag i] else reads) where
  tried_eq := by rw [h.tried_eq, List.range_succ]
  reads_eq := h.read
  fails := by
    intro j hj
    rcases Nat.lt_succ_iff_lt_or_eq.mp hj with hlt | rfl
    · exact h.fails j hlt
    · exact Bool.eq_false_iff.mpr hfails
  unset := h.unset_succ hgo

/-- A number is found if it is the first that passes. Without one, the search stands at a turn that
reads the flag as set, and nothing passed before. No earlier reading was set. -/
structure Outcome.Sound (poll flag test : ℕ → Bool) (r : Outcome) : Prop where
  tried : r.tried = List.range r.tried.length
  unset : ∀ i < r.tried.length, poll i = true → flag i = false
  found : ∀ n, r.found = some n →
    r.tried.length = n + 1 ∧ r.reads = readings poll flag (n + 1) ∧
      test n = true ∧ ∀ j < n, test j = false
  stopped : r.found = none →
    poll r.tried.length = true ∧ flag r.tried.length = true ∧
      r.reads = readings poll flag (r.tried.length + 1) ∧ ∀ j < r.tried.length, test j = false

theorem Comes.sound (hcomes : Comes poll flag test i tried reads)
    (h : search poll flag test fuel i tried reads = some r) : r.Sound poll flag test := by
  induction fuel generalizing i tried reads with
  | zero => cases h
  | succ fuel ih =>
      have hlength := hcomes.length
      rw [search] at h
      split at h
      next hstop =>
        obtain rfl := Option.some.inj h
        refine ⟨?_, ?_, ?_, ?_⟩
        · rw [hlength, ← hcomes.tried_eq]
        · rw [hlength]
          exact hcomes.unset
        · rintro n ⟨⟩
        · rintro -
          rw [Bool.and_eq_true] at hstop
          rw [hlength]
          exact ⟨hstop.1, hstop.2, hcomes.read, hcomes.fails⟩
      next hgo =>
        split at h
        next htest =>
          obtain rfl := Option.some.inj h
          have hnext : (tried ++ [i]).length = i + 1 := by rw [List.length_append, hlength]; rfl
          refine ⟨?_, ?_, ?_, ?_⟩
          · rw [hnext, List.range_succ, hcomes.tried_eq]
          · rw [hnext]
            exact hcomes.unset_succ hgo
          · rintro n ⟨⟩
            exact ⟨hnext, hcomes.read, htest, hcomes.fails⟩
          · rintro ⟨⟩
        next hfails => exact ih (hcomes.next hgo hfails) h

theorem search_sound (h : search poll flag test fuel 0 [] [] = some r) : r.Sound poll flag test :=
  Comes.start.sound h

/-- A polled flag that is set ends the search there or before. -/
theorem search_returns (test : ℕ → Bool) {stop : ℕ} (hpoll : poll stop = true)
    (hflag : flag stop = true) (hi : i ≤ stop) (hlength : tried.length = i) (reads : List Bool) :
    ∃ r, search poll flag test (stop + 1 - i) i tried reads = some r ∧ r.tried.length ≤ stop := by
  induction hd : stop - i generalizing i tried reads with
  | zero =>
      obtain rfl : i = stop := by omega
      refine ⟨⟨none, tried, reads ++ [flag i]⟩, ?_, hlength.le⟩
      rw [Nat.add_sub_cancel_left, search, hpoll, hflag]
      rfl
  | succ d ih =>
      have hfuel : stop + 1 - i = (stop + 1 - (i + 1)) + 1 := by omega
      have hnext : (tried ++ [i]).length = i + 1 := by rw [List.length_append, hlength]; rfl
      rw [hfuel, search]
      split
      next => exact ⟨_, rfl, hlength.trans_le hi⟩
      next =>
        split
        next => exact ⟨_, rfl, hnext.trans_le (Nat.lt_of_sub_eq_succ hd)⟩
        next => exact ih (by omega) hnext _ (by omega)

/-- A search that polls at least every `width` tries makes at most so many more once the
flag stays set. -/
theorem search_stops (test : ℕ → Bool) {width m : ℕ}
    (hpolls : ∀ i, ∃ j, i < j ∧ j ≤ i + width ∧ poll j = true)
    (hflag : ∀ i, m < i → flag i = true) :
    ∃ fuel r, search poll flag test fuel 0 [] [] = some r ∧ r.tried.length ≤ m + width := by
  obtain ⟨j, hlater, hnear, hpoll⟩ := hpolls m
  obtain ⟨r, hrun, htried⟩ :=
    search_returns test hpoll (hflag j hlater) (Nat.zero_le j) (rfl : ([] : List ℕ).length = 0) []
  exact ⟨_, r, hrun, htried.trans hnear⟩

end Outcomes

end Polling
