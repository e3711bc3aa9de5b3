import Mathlib.Order.Basic

/-!
# Runs that must end

A relation may offer several next states, or none. From some states every way to go on leads,
without getting stuck, to a state that meets a condition.
-/
namespace Total

variable {σ : Type*} {step : σ → σ → Prop} {P Q : σ → Prop} {s : σ}

inductive Ends (step : σ → σ → Prop) (P : σ → Prop) : σ → Prop where
  | done {s : σ} (meets : P s) : Ends step P s
  | step {s : σ} (moves : ∃ s', step s s') (all : ∀ s', step s s' → Ends step P s') : Ends step P s

theorem Ends.trans (h : Ends step P s) (hP : ∀ s, P s → Ends step Q s) : Ends step Q s := by
  induction h with
  | done meets => exact hP _ meets
  | step moves _ ih => exact .step moves ih

theorem Ends.mono (h : Ends step P s) (hP : ∀ s, P s → Q s) : Ends step Q s :=
  h.trans fun s hs => .done (hP s hs)

/-- There is one way to go on. -/
def Only (step : σ → σ → Prop) (s s' : σ) : Prop := step s s' ∧ ∀ s'', step s s'' → s'' = s'

theorem Ends.next {s' : σ} (hstep : Only step s s') (h : Ends step P s') : Ends step P s :=
  .step ⟨s', hstep.1⟩ fun s'' hs => hstep.2 s'' hs ▸ h

/-- Two conditions that are met only where nothing goes on are met together. -/
theorem Ends.meet (hP : Ends step P s) (hQ : Ends step Q s) (finalP : ∀ s, P s → ∀ s', ¬ step s s')
    (finalQ : ∀ s, Q s → ∀ s', ¬ step s s') : ∃ s', P s' ∧ Q s' := by
  induction hP with
  | @done s meets =>
    cases hQ with
    | done meets' => exact ⟨s, meets, meets'⟩
    | step moves =>
      obtain ⟨s', hs'⟩ := moves
      exact absurd hs' (finalP s meets s')
  | @step s moves _ ih =>
    obtain ⟨s', hs'⟩ := moves
    cases hQ with
    | done meets => exact absurd hs' (finalQ s meets s')
    | step _ all => exact ih s' hs' (all s' hs')

/-- Nothing is stuck before the goal, and a number goes down with every step. -/
theorem Ends.of_measure {I : σ → Prop} (measure : σ → Nat) (hs : I s)
    (moves : ∀ s, I s → ¬ P s → ∃ s', step s s') (keep : ∀ s s', I s → step s s' → I s')
    (decreases : ∀ s s', I s → step s s' → measure s' < measure s) : Ends step (fun s => I s ∧ P s) s := by
  induction hn : measure s using Nat.strongRecOn generalizing s with
  | ind n ih =>
    by_cases hP : P s
    · exact .done ⟨hs, hP⟩
    · refine .step (moves s hs hP) fun s' h => ?_
      exact ih (measure s') (hn ▸ decreases s s' hs h) (keep s s' hs h) rfl

/-- The same for two numbers, the second of which may go up when the first goes down. -/
theorem Ends.of_lex {I : σ → Prop} (first second : σ → Nat) (hs : I s)
    (moves : ∀ s, I s → ¬ P s → ∃ s', step s s') (keep : ∀ s s', I s → step s s' → I s')
    (decreases : ∀ s s', I s → step s s' →
      first s' < first s ∨ first s' = first s ∧ second s' < second s) :
    Ends step (fun s => I s ∧ P s) s := by
  induction hn : first s using Nat.strongRecOn generalizing s with
  | ind n ihn =>
    induction hm : second s using Nat.strongRecOn generalizing s with
    | ind m ihm =>
      by_cases hP : P s
      · exact .done ⟨hs, hP⟩
      · refine .step (moves s hs hP) fun s' h => ?_
        have hs' := keep s s' hs h
        rcases decreases s s' hs h with hlt | ⟨heq, hlt⟩
        · exact ihn (first s') (hn ▸ hlt) hs' rfl
        · exact ihm (second s') (hm ▸ hlt) hs' (heq.trans hn) rfl

end Total
