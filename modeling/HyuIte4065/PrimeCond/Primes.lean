import HyuIte4065.Library.Borders
import HyuIte4065.PrimeCond.Protocol
import HyuIte4065.PrimeMt.Count

/-!
# What a round counts

The shares of any number of workers cut the range into pieces, also where the range is empty or its
length is no multiple of the number of workers. Their sum is the number of primes in the range,
and such sums are what is printed.
-/
namespace PrimeCond

open Borders
open PrimeMt (primes primes_next primes_of_ge)

variable {numThread k : Nat}

/-! ### Trial division -/

theorem isPrime_eq (n : Int) : isPrime n = decide n.toNat.Prime := by
  by_cases hn : 2 ≤ n
  · obtain ⟨m, rfl⟩ := Int.eq_ofNat_of_zero_le (by omega : 0 ≤ n)
    have hm : 2 ≤ m := by exact_mod_cast hn
    have hroot : ∀ i, i ∈ List.range' 2 (Nat.sqrt m - 1) ↔ 2 ≤ i ∧ i ≤ m.sqrt := by
      intro i
      rw [List.mem_range'_1]
      omega
    have hdvd : ∀ i : Nat, (m : Int) % i ≠ 0 ↔ ¬ i ∣ m := by
      intro i
      rw [Ne, ← Int.dvd_iff_emod_eq_zero, Int.natCast_dvd_natCast]
    rw [isPrime, decide_eq_true hn, Bool.true_and, Int.toNat_natCast, Bool.eq_iff_iff, List.all_eq_true,
      decide_eq_true_eq, Nat.prime_def_le_sqrt]
    simp only [hroot, decide_eq_true_eq, hdvd, and_imp]
    exact (and_iff_right hm).symm
  · have hnot : ¬ n.toNat.Prime := fun hp => by
      have htwo := hp.two_le
      omega
    rw [isPrime, decide_eq_false hn, Bool.false_and, decide_eq_false hnot]

theorem countPrimes_eq (start stop : Int) : countPrimes start stop = primes start stop := by
  induction hrest : (stop - start).toNat generalizing start with
  | zero =>
    rw [countPrimes_nil (by omega), primes_of_ge (by omega)]
    rfl
  | succ r ih =>
    have hlt : start < stop := by omega
    rw [countPrimes_cons hlt, primes_next hlt, ih (start + 1) (by omega), isPrime_eq, Nat.cast_add, Nat.cast_ite]
    simp only [decide_eq_true_eq, Nat.cast_one, Nat.cast_zero]

/-! ### The pieces -/

theorem share_eq {range : Int × Int} (hk : k < numThread) :
    share numThread k range =
      primes (evenBorder numThread range.1 range.2 k) (evenBorder numThread range.1 range.2 (k + 1)) := by
  rw [share, countPrimes_eq, evenBorder, evenBorder, if_neg (Nat.ne_of_lt hk), Nat.cast_add, Nat.cast_one]
  by_cases hlast : k + 1 = numThread
  · rw [if_pos (by omega), if_pos hlast]
  · rw [if_neg (by omega), if_neg hlast]

theorem sum_map_range (f : Nat → Nat) (n : Nat) :
    ((List.range n).map fun k => (f k : Int)).sum = (∑ k ∈ Finset.range n, f k : Nat) := by
  induction n with
  | zero => rfl
  | succ n ih => simp [List.range_succ, Finset.sum_range_succ, ih]

/-- The workers count all primes of the range together, and each of them once. -/
theorem total_eq (hn : 0 < numThread) (range : Int × Int) :
    total numThread range = primes range.1 (range.2 + 1) := by
  let cut := evenBorder numThread range.1 range.2
  have hshares : total numThread range =
      ((List.range numThread).map fun k => (primes (cut k) (cut (k + 1)) : Int)).sum := by
    rw [total, List.map_congr_left fun k hk => share_eq (List.mem_range.mp hk)]
  rw [hshares, sum_map_range fun k => primes (cut k) (cut (k + 1))]
  congr 1
  rcases le_total range.1 (range.2 + 1) with h | h
  · have hsum := sum_card_pieces (fun n => n.toNat.Prime) (evenBorder_rises (n := numThread) h)
    rwa [evenBorder_zero hn, evenBorder_last] at hsum
  · rw [primes_of_ge h]
    exact Finset.sum_eq_zero fun k hk => primes_of_ge (evenBorder_falls h k (Finset.mem_range.mp hk))

/-- The numbers of primes in the ranges. -/
noncomputable def counts (ranges : List (Int × Int)) : List Int :=
  ranges.map fun range => (primes range.1 (range.2 + 1) : Int)

theorem map_total (hn : 0 < numThread) (ranges : List (Int × Int)) : ranges.map (total numThread) = counts ranges :=
  List.map_congr_left fun range _ => total_eq hn range

/-! ### What the version with two condition variables has printed -/

variable {ranges rounds : List (Int × Int)} {range : Int × Int} {input printed : List Int} {s : State}

theorem Between.printed_initial (h : Between numThread ranges rounds input printed) :
    printed <+: ranges.map (total numThread) := by
  obtain ⟨⟨rest, rfl, -⟩, rfl⟩ := h
  rw [List.map_append]
  exact List.prefix_append ..

theorem InRound.printed_initial (h : InRound numThread ranges range rounds input printed) :
    printed <+: ranges.map (total numThread) := by
  obtain ⟨earlier, rest, rfl, rfl, -, rfl⟩ := h
  rw [List.append_assoc, List.map_append]
  exact List.prefix_append ..

theorem Inv.printed_initial (hi : Inv numThread ranges s) : s.printed <+: ranges.map (total numThread) := by
  have hm := hi.main
  cases hmain : s.main <;> rw [hmain] at hm
  case create => exact hm.2.2.printed_initial
  case awaitReady => exact hm.2.2.printed_initial
  case scanEnd => exact hm.2.printed_initial
  case collect => exact hm.1.printed_initial
  case print => exact hm.1.printed_initial
  all_goals first
    | exact Between.printed_initial hm
    | exact InRound.printed_initial hm
    | obtain ⟨⟨rest, rfl, -⟩, hprinted⟩ := hm
      rw [hprinted, List.map_append]
      exact List.prefix_append ..
    | rw [hm.2, hm.1]

end PrimeCond
