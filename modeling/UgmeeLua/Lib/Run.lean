import Mathlib.Logic.Function.Iterate

namespace UgmeeLua.Run

variable {σ : Type}

/-- The states that a system comes to from its start, step after step. -/
inductive Reach (start : σ → Prop) (step : σ → σ → Prop) : σ → Prop where
  | start {s : σ} (h : start s) : Reach start step s
  | step {s s' : σ} (hs : Reach start step s) (h : step s s') : Reach start step s'

variable {start : σ → Prop} {step : σ → σ → Prop}

/-- The rule of runs: what holds at the start and is kept by every step holds wherever the system
comes to. -/
theorem Reach.inv (I : σ → Prop) (h0 : ∀ s, start s → I s) (hstep : ∀ s s', I s → step s s' → I s')
    {s : σ} (h : Reach start step s) : I s := by
  induction h with
  | start h => exact h0 _ h
  | step _ h ih => exact hstep _ _ ih h

/-! ## Loops -/

/-- A loop comes to a state with `P`. -/
def Leads (f : σ → σ) (P : σ → Prop) (s : σ) : Prop := ∃ n, P (f^[n] s)

variable {f : σ → σ} {P Q : σ → Prop} {s : σ}

theorem Leads.later (h : Leads f P (f s)) : Leads f P s := by
  obtain ⟨n, hn⟩ := h
  exact ⟨n + 1, hn⟩

theorem Leads.trans (h : Leads f P s) (hnext : ∀ s, P s → Leads f Q s) : Leads f Q s := by
  obtain ⟨n, hn⟩ := h
  obtain ⟨m, hm⟩ := hnext _ hn
  refine ⟨m + n, ?_⟩
  rw [Function.iterate_add_apply]
  exact hm

/-- The rule of termination: each pass of the loop ends it, or takes its rank down. -/
theorem Leads.of_rank {ρ : Type} {r : ρ → ρ → Prop} (hr : WellFounded r) (rank : σ → ρ) (I : σ → Prop)
    (hstep : ∀ s, I s → P (f s) ∨ I (f s) ∧ r (rank (f s)) (rank s)) (h : I s) : Leads f P s := by
  induction hs : rank s using hr.induction generalizing s with
  | _ n ih =>
    rcases hstep s h with hend | ⟨hkept, hless⟩
    · exact ⟨1, hend⟩
    · exact Leads.later (ih _ (hs ▸ hless) hkept rfl)

end UgmeeLua.Run
