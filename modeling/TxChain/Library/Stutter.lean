import TxChain.Library.Run

/-!
# Simulations that need more or fewer steps

One step of a machine may correspond to several steps of a coarser one, or to none. The
inputs of the coarser machine may depend on the state, so a run determines them only as it
goes. What holds of the inputs that single steps need holds of all inputs of the run.
-/

namespace Run

universe u v w x

variable {σ : Type u} {ι : Type v} {τ : Type w} {κ : Type x} {step : σ → ι → σ} {astep : τ → κ → τ}

/-- If each step is matched by a list of abstract steps, then so is a run, by lists that
belong to its inputs. -/
theorem matched {R : σ → τ → Prop} {Matches : ι → List κ → Prop} {is : List ι}
    (preserved : ∀ s t, ∀ i ∈ is, R s t → ∃ js, Matches i js ∧ R (step s i) (js.foldl astep t))
    {s : σ} {t : τ} (start : R s t) :
    ∃ jss, List.Forall₂ Matches is jss ∧ R (is.foldl step s) (jss.flatten.foldl astep t) := by
  induction is generalizing s t with
  | nil => exact ⟨[], List.Forall₂.nil, start⟩
  | cons i is ih =>
      obtain ⟨hi, his⟩ := List.forall_mem_cons.mp fun j hj s t => preserved s t j hj
      obtain ⟨js, hjs, hnext⟩ := hi s t start
      obtain ⟨jss, hmatched, hlast⟩ := ih (fun s t j hj => his j hj s t) hnext
      refine ⟨js :: jss, List.Forall₂.cons hjs hmatched, ?_⟩
      rw [List.flatten_cons, List.foldl_append]
      exact hlast

end Run
