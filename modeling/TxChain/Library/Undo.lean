import Mathlib

/-!
# Undo logs

A log of a run holds, for every step that changed something, the values from
before the step at all the keys the step changed. Writing the entries back, newest
step first, takes the current function to any earlier one. An entry may name a key
twice and may name keys that did not change.
-/

namespace Undo

universe u v w x

variable {K : Type u} {V : Type v} [DecidableEq K]

/-- Write the recorded values back, one after the other. -/
def write (f : K → V) (entry : List (K × V)) : K → V :=
  entry.foldl (fun g p => Function.update g p.1 p.2) f

/-- Write back several entries, the newest first. -/
def rollback (f : K → V) (entries : List (List (K × V))) : K → V := entries.foldl write f

/-- The entry holds values from before a change, and a value for every key that changed. -/
structure Inverse (before after : K → V) (entry : List (K × V)) : Prop where
  exact : ∀ p ∈ entry, p.2 = before p.1
  covers : ∀ k, (∀ p ∈ entry, p.1 ≠ k) → after k = before k

/-- Writing back an entry that covers a change takes the change back. -/
theorem Inverse.write_eq {before after : K → V} {entry : List (K × V)}
    (h : Inverse before after entry) : write after entry = before := by
  induction entry generalizing after with
  | nil =>
      funext k
      exact h.covers k (by simp)
  | cons p entry ih =>
      obtain ⟨hp, hentry⟩ := List.forall_mem_cons.mp h.exact
      refine ih ⟨hentry, fun k hk => ?_⟩
      change Function.update after p.1 p.2 k = before k
      by_cases hpk : p.1 = k
      · rw [← hpk, Function.update_self, hp]
      · rw [Function.update_of_ne (Ne.symm hpk)]
        exact h.covers k (List.forall_mem_cons.mpr ⟨hpk, hk⟩)

/-! ### Runs that keep a log -/

variable {σ : Type w} {ι : Type x} (view : σ → K → V) (log : σ → List (List (K × V)))

/-- A step changes nothing, or appends an entry that takes back what it changed. -/
def Logs (s s' : σ) : Prop :=
  (view s' = view s ∧ log s' = log s) ∨
    ∃ entry, log s' = log s ++ [entry] ∧ Inverse (view s) (view s') entry

/-- The part of the log written since `t` leads back to it. -/
def LeadsBack (t s : σ) : Prop :=
  ∃ since, log s = log t ++ since ∧ rollback (view s) since.reverse = view t

variable {view log}

theorem LeadsBack.refl (s : σ) : LeadsBack view log s s := ⟨[], by simp, rfl⟩

theorem LeadsBack.step {t s s' : σ} (h : LeadsBack view log t s) (hstep : Logs view log s s') :
    LeadsBack view log t s' := by
  obtain ⟨since, hlog, hback⟩ := h
  rcases hstep with ⟨hview, hsame⟩ | ⟨entry, hentry, hinverse⟩
  · exact ⟨since, by rw [hsame, hlog], by rw [hview, hback]⟩
  · refine ⟨since ++ [entry], by rw [hentry, hlog, List.append_assoc], ?_⟩
    rw [List.reverse_append, List.reverse_singleton, List.singleton_append, rollback,
      List.foldl_cons, hinverse.write_eq]
    exact hback

variable {step : σ → ι → σ}

/-- Every state of a run is led back to from its end. -/
theorem leadsBack_of_mem (hstep : ∀ s i, Logs view log s (step s i)) {s : σ} {is : List ι} :
    ∀ t ∈ is.scanl step s, LeadsBack view log t (is.foldl step s) := by
  induction is using List.reverseRecOn with
  | nil =>
      simp only [List.scanl_nil, List.mem_singleton, forall_eq]
      exact .refl s
  | append_singleton is i ih =>
      intro t ht
      rw [List.scanl_append, List.scanl_singleton, List.tail_cons, List.mem_append,
        List.mem_singleton] at ht
      rw [List.foldl_append, List.foldl_cons, List.foldl_nil]
      rcases ht with ht | rfl
      · exact (ih t ht).step (hstep _ i)
      · exact .refl _

omit [DecidableEq K] in
/-- The log grows by one entry at a time, so a run passes through every length. -/
theorem exists_length (hstep : ∀ s i, Logs view log s (step s i)) {s : σ} (hs : log s = [])
    {is : List ι} {n : ℕ} (hn : n ≤ (log (is.foldl step s)).length) :
    ∃ t ∈ is.scanl step s, (log t).length = n := by
  induction is using List.reverseRecOn with
  | nil => exact ⟨s, by simp, by simp_all⟩
  | append_singleton is i ih =>
      rw [List.foldl_append, List.foldl_cons, List.foldl_nil] at hn
      by_cases hle : n ≤ (log (is.foldl step s)).length
      · obtain ⟨t, ht, hlen⟩ := ih hle
        exact ⟨t, by rw [List.scanl_append]; exact List.mem_append_left _ ht, hlen⟩
      · refine ⟨step (is.foldl step s) i, by simp [List.scanl_append], ?_⟩
        rcases hstep (is.foldl step s) i with ⟨-, hsame⟩ | ⟨entry, hentry, -⟩
        · rw [hsame] at hn
          exact absurd hn hle
        · rw [hentry, List.length_append, List.length_singleton] at hn ⊢
          omega

/-- Writing back the newest `k` entries of the log takes the end of a run to the states it
passed through `k` entries earlier. -/
theorem rollback_eq (hstep : ∀ s i, Logs view log s (step s i)) {s : σ} {is : List ι} {k : ℕ}
    {t : σ} (ht : t ∈ is.scanl step s)
    (hk : (log t).length = (log (is.foldl step s)).length - k) :
    rollback (view (is.foldl step s)) ((log (is.foldl step s)).reverse.take k) = view t := by
  obtain ⟨since, hlog, hback⟩ := leadsBack_of_mem hstep t ht
  have htake : (log (is.foldl step s)).reverse.take k = since.reverse := by
    rw [hlog, List.length_append] at hk
    rw [hlog, List.reverse_append]
    by_cases hle : k ≤ since.length
    · exact List.take_left' (by rw [List.length_reverse]; omega)
    · have hnil : log t = [] := List.eq_nil_of_length_eq_zero (by omega)
      rw [hnil, List.reverse_nil, List.append_nil]
      exact List.take_of_length_le (by rw [List.length_reverse]; omega)
  rw [htake, hback]

end Undo
