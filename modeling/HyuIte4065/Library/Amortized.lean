import HyuIte4065.Library.Atomic
import Mathlib.Algebra.Order.BigOperators.Group.Finset

/-!
# Steps paid from a potential

Each step takes one off a potential unless it brings something in itself. Then the length of an
execution is bounded by the potential at its start and by what its steps have brought in. The
potential of a shared object is the sum of what its threads are still going to do; a step of one
thread may make work for the others.
-/
namespace Transition.Execution

universe u v

variable {σ : Type u} {ℓ : Type v} {S : System σ ℓ} (e : Execution S)

theorem length_le_income (potential : σ → Nat) (income : σ → ℓ → Nat)
    (pays : ∀ s l s', Reachable S s → S.step s l s' → potential s' + 1 ≤ potential s + income s l) {k : Nat}
    (hk : k ≤ e.length) :
    k + potential (e.state k) ≤ potential (e.state 0) + ∑ j ∈ Finset.range k, income (e.state j) (e.label j) := by
  induction k with
  | zero => simp
  | succ k ih =>
    have hstep := pays _ _ _ (e.reachable (by omega)) (e.steps k (by omega))
    have hle := ih (by omega)
    rw [Finset.sum_range_succ]
    omega

end Transition.Execution

namespace Amortized

universe u

variable {τ : Type u} [DecidableEq τ] {threads : Finset τ} {t : τ} {d : Nat}

/-- One thread moves on, and each of the others gets up to `d` more to do. -/
theorem sum_step (weight weight' : τ → Nat) (ht : t ∈ threads)
    (others : ∀ u ∈ threads, u ≠ t → weight' u ≤ weight u + d) :
    ∑ u ∈ threads, weight' u + weight t + d ≤ ∑ u ∈ threads, weight u + weight' t + threads.card * d := by
  have hrest : ∑ u ∈ threads.erase t, weight' u ≤ ∑ u ∈ threads.erase t, weight u + (threads.erase t).card * d := by
    rw [← Nat.nsmul_eq_mul, ← Finset.sum_const, ← Finset.sum_add_distrib]
    exact Finset.sum_le_sum fun u hu => others u (Finset.mem_of_mem_erase hu) (Finset.ne_of_mem_erase hu)
  have hcard : threads.card * d = (threads.erase t).card * d + d := by
    rw [← Finset.card_erase_add_one ht, Nat.succ_mul]
  rw [← Finset.sum_erase_add _ _ ht, ← Finset.sum_erase_add threads weight ht, hcard]
  omega

theorem sum_ite_const {ι : Type*} (s : Finset ι) (p : ι → Prop) [DecidablePred p] (c : Nat) :
    ∑ j ∈ s, (if p j then c else 0) = (s.filter p).card * c := by
  rw [← Finset.sum_filter, Finset.sum_const, Nat.nsmul_eq_mul]

end Amortized
