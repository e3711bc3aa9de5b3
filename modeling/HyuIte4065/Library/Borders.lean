import Mathlib.Order.Interval.Finset.Basic
import Mathlib.Algebra.BigOperators.Group.Finset.Basic
import Mathlib.Order.CompletePartialOrder

/-!
# Intervals between borders

A sequence of borders cuts an interval into half-open pieces. Borders that are evenly spaced cut an
interval of integers into pieces of one size, of which the last one takes the rest.
-/
namespace Borders

variable {α : Type*} [LinearOrder α] {f : Nat → α} {n : Nat} {x : α}

/-- Between two of the borders there is a piece that the element lies in. -/
theorem exists_piece (h₀ : f 0 ≤ x) (h₁ : x < f n) : ∃ k < n, x ∈ Set.Ico (f k) (f (k + 1)) := by
  induction n with
  | zero => exact absurd h₁ h₀.not_gt
  | succ n ih =>
    rcases lt_or_ge x (f n) with hlt | hge
    · obtain ⟨k, hk, hx⟩ := ih hlt
      exact ⟨k, by omega, hx⟩
    · exact ⟨n, by omega, hge, h₁⟩

theorem le_of_rising (hf : ∀ k < n, f k ≤ f (k + 1)) {i j : Nat} (hij : i ≤ j) (hj : j ≤ n) : f i ≤ f j := by
  induction j, hij using Nat.le_induction with
  | base => exact le_rfl
  | succ j _ ih => exact (ih (by omega)).trans (hf j (by omega))

theorem disjoint_pieces (hf : ∀ k < n, f k ≤ f (k + 1)) :
    (Set.Iio n).PairwiseDisjoint fun k => Set.Ico (f k) (f (k + 1)) := by
  have hlt : ∀ i j, i < j → j < n → Disjoint (Set.Ico (f i) (f (i + 1))) (Set.Ico (f j) (f (j + 1))) := by
    intro i j hij hj
    refine Set.disjoint_left.mpr fun x hi hj' => ?_
    exact absurd (hi.2.trans_le (le_of_rising hf hij hj.le)) hj'.1.not_gt
  intro i hi j hj hne
  rcases Nat.lt_or_gt_of_ne hne with hij | hji
  · exact hlt i j hij hj
  · exact (hlt j i hji hi).symm

theorem union_pieces (hf : ∀ k < n, f k ≤ f (k + 1)) :
    ⋃ k ∈ Set.Iio n, Set.Ico (f k) (f (k + 1)) = Set.Ico (f 0) (f n) := by
  ext x
  simp only [Set.mem_iUnion, Set.mem_Iio, exists_prop]
  constructor
  · rintro ⟨k, hk, hlo, hhi⟩
    exact ⟨(le_of_rising hf k.zero_le hk.le).trans hlo, hhi.trans_le (le_of_rising hf hk le_rfl)⟩
  · rintro ⟨hlo, hhi⟩
    exact exists_piece hlo hhi

/-- What is counted piece by piece is counted once. -/
theorem sum_card_pieces [LocallyFiniteOrder α] (p : α → Prop) [DecidablePred p] (hf : ∀ k < n, f k ≤ f (k + 1)) :
    ∑ k ∈ Finset.range n, ((Finset.Ico (f k) (f (k + 1))).filter p).card =
      ((Finset.Ico (f 0) (f n)).filter p).card := by
  induction n with
  | zero => simp
  | succ n ih =>
    have hn : f 0 ≤ f n := le_of_rising hf n.zero_le n.le_succ
    rw [Finset.sum_range_succ, ih fun k hk => hf k (by omega), ← Finset.card_union_of_disjoint, ← Finset.filter_union,
      Finset.Ico_union_Ico_eq_Ico hn (hf n (by omega))]
    exact Finset.disjoint_filter_filter (Finset.Ico_disjoint_Ico_consecutive _ _ _)

/-! ### Pieces of one size -/

def evenBorder (parts : Nat) (first last : Int) (k : Nat) : Int :=
  if k = parts then last + 1 else first + (last - first + 1).tdiv parts * k

variable {k : Nat} {first last s : Int}

theorem evenBorder_last : evenBorder n first last n = last + 1 := if_pos rfl

theorem evenBorder_of_ne (hk : k ≠ n) :
    evenBorder n first last k = first + (last - first + 1).tdiv n * k := if_neg hk

theorem evenBorder_zero (hparts : 0 < n) : evenBorder n first last 0 = first := by
  rw [evenBorder_of_ne (Nat.ne_of_lt hparts), Int.natCast_zero, Int.mul_zero, Int.add_zero]

theorem tdiv_of_nonneg (n : Nat) (h : 0 ≤ s) : 0 ≤ s.tdiv n ∧ s.tdiv n * n ≤ s :=
  ⟨Int.tdiv_nonneg h (Int.natCast_nonneg _), by rw [Int.mul_comm]; exact Int.mul_tdiv_self_le h⟩

theorem tdiv_of_nonpos (n : Nat) (h : s ≤ 0) : s.tdiv n ≤ 0 ∧ s ≤ s.tdiv n * n := by
  have hneg := tdiv_of_nonneg n (s := -s) (by omega)
  rw [Int.neg_tdiv, Int.neg_mul] at hneg
  omega

/-- Each multiple of the quotient lies between nothing and the whole, whichever way round. -/
theorem offset_between (hk : k ≤ n) :
    min 0 s ≤ s.tdiv n * k ∧ s.tdiv n * k ≤ max 0 s := by
  have hk' : (k : Int) ≤ n := Int.ofNat_le.mpr hk
  have hk₀ : (0 : Int) ≤ k := Int.natCast_nonneg k
  rcases Int.le_total 0 s with h | h
  · obtain ⟨hq, hle⟩ := tdiv_of_nonneg n h
    have hmul : s.tdiv n * k ≤ s.tdiv n * n := Int.mul_le_mul_of_nonneg_left hk' hq
    have hnonneg : 0 ≤ s.tdiv n * k := Int.mul_nonneg hq hk₀
    omega
  · obtain ⟨hq, hle⟩ := tdiv_of_nonpos n h
    have hmul : s.tdiv n * n ≤ s.tdiv n * k := Int.mul_le_mul_of_nonpos_left hq hk'
    have hnonpos : s.tdiv n * k ≤ 0 := Int.mul_nonpos_of_nonpos_of_nonneg hq hk₀
    omega

theorem evenBorder_between (first last : Int) (hk : k ≤ n) :
    min first (last + 1) ≤ evenBorder n first last k ∧
    evenBorder n first last k ≤ max first (last + 1) := by
  have hoffset := offset_between (s := last - first + 1) hk
  unfold evenBorder
  split <;> omega

theorem evenBorder_rises (h : first ≤ last + 1) :
    ∀ k < n, evenBorder n first last k ≤ evenBorder n first last (k + 1) := by
  intro k hk
  have hoffset := offset_between (s := last - first + 1) hk.le
  rw [evenBorder_of_ne hk.ne]
  by_cases hlast : k + 1 = n
  · rw [hlast, evenBorder_last]
    omega
  · have hq := (tdiv_of_nonneg n (s := last - first + 1) (by omega)).1
    rw [evenBorder_of_ne hlast, Int.natCast_add, Int.natCast_one, Int.mul_add, Int.mul_one]
    omega

theorem evenBorder_falls (h : last + 1 ≤ first) :
    ∀ k < n, evenBorder n first last (k + 1) ≤ evenBorder n first last k := by
  intro k hk
  have hoffset := offset_between (s := last - first + 1) hk.le
  rw [evenBorder_of_ne hk.ne]
  by_cases hlast : k + 1 = n
  · rw [hlast, evenBorder_last]
    omega
  · have hq := (tdiv_of_nonpos n (s := last - first + 1) (by omega)).1
    rw [evenBorder_of_ne hlast, Int.natCast_add, Int.natCast_one, Int.mul_add, Int.mul_one]
    omega

end Borders
