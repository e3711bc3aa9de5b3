import HyuIte4065.Transactions.Workload
import Mathlib.Algebra.BigOperators.Ring.Finset
import Mathlib.Algebra.Order.BigOperators.Group.Finset
import Mathlib.Data.Nat.Fib.Basic
import Mathlib.Tactic.LinearCombination

/-!
# How fast the records can grow

The transactions of the workload on integers without a limit. A value that a run leaves is a
combination of the first values, and going through the run from its end each transaction changes
one coefficient: by the difference between two others. How far these can be apart is a sequence
with `E (n + 3) = 2 * E (n + 2) - E (n + 1) + E n`, and for three records that of Fibonacci.
-/
namespace Transactions

open Lock

/-- Three different records. -/
structure Pick where
  i : RecordId
  j : RecordId
  k : RecordId
  distinct : j ≠ i ∧ k ≠ j ∧ k ≠ i

namespace Pick

/-- What a transaction makes of the records. -/
def exact (p : Pick) (t : RecordId → Int) : RecordId → Int :=
  Function.update (Function.update t p.j (t p.j + (t p.i + 1))) p.k (t p.k + -t p.i)

/-- What it makes of the coefficients. -/
def pull (p : Pick) (c : RecordId → Int) : RecordId → Int :=
  Function.update c p.i (c p.i + (c p.j - c p.k))

structure In (p : Pick) (S : Finset RecordId) : Prop where
  read : p.i ∈ S
  raise : p.j ∈ S
  lower : p.k ∈ S

end Pick

def exactRun (ps : List Pick) : RecordId → Int := ps.foldl (fun t p => p.exact t) fun _ => 100

def pairing (S : Finset RecordId) (c t : RecordId → Int) : Int := ∑ r ∈ S, c r * t r

variable {S : Finset RecordId} {c t : RecordId → Int} {p : Pick} {ps : List Pick} {r : RecordId} {n : Nat}

theorem exactRun_concat : exactRun (ps ++ [p]) = p.exact (exactRun ps) := by
  rw [exactRun, List.foldl_append]
  rfl

theorem Pick.exact_apply : p.exact t r =
    t r + (if r = p.j then t p.i + 1 else 0) + (if r = p.k then -t p.i else 0) := by
  have hkj := p.distinct.2.1
  rw [Pick.exact]
  by_cases hk : r = p.k
  · subst hk
    rw [Function.update_self, if_neg hkj, if_pos rfl, add_zero]
  · rw [Function.update_of_ne hk, if_neg hk, add_zero]
    by_cases hj : r = p.j
    · subst hj
      rw [Function.update_self, if_pos rfl]
    · rw [Function.update_of_ne hj, if_neg hj, add_zero]

theorem Pick.pull_apply : p.pull c r = c r + if r = p.i then c p.j - c p.k else 0 := by
  rw [Pick.pull]
  by_cases hi : r = p.i
  · subst hi
    rw [Function.update_self, if_pos rfl]
  · rw [Function.update_of_ne hi, if_neg hi, add_zero]

/-- A transaction changes the values, or as well the coefficients. -/
theorem pairing_exact (h : p.In S) : pairing S c (p.exact t) = pairing S (p.pull c) t + c p.j := by
  simp only [pairing, Pick.exact_apply, Pick.pull_apply, mul_add, add_mul, mul_ite, ite_mul, mul_zero,
    zero_mul, Finset.sum_add_distrib, Finset.sum_ite_eq', h.read, h.raise, h.lower, if_true]
  ring

theorem sum_pull (h : p.In S) : ∑ r ∈ S, p.pull c r = ∑ r ∈ S, c r + (c p.j - c p.k) := by
  simp only [Pick.pull_apply, Finset.sum_add_distrib, Finset.sum_ite_eq', h.read, if_true]

/-- What holds of the coefficients after each number of steps, and how much one step then adds. -/
structure Widens (S : Finset RecordId) (Level : Nat → (RecordId → Int) → Prop) (width : Nat → Int) :
    Prop where
  pull : ∀ {n c} {p : Pick}, p.In S → Level n c → Level (n + 1) (p.pull c)
  le : ∀ {n c} {p : Pick}, p.In S → Level n c → |100 * (c p.j - c p.k) + c p.j| ≤ width n

variable {Level : Nat → (RecordId → Int) → Prop} {width : Nat → Int}

/-- Bounds for the coefficients bound the values of the run. -/
theorem Widens.pairing_le (h : Widens S Level width)
    (hps : ∀ p ∈ ps, p.In S) (hc : Level n c) :
    |pairing S c (exactRun ps) - 100 * ∑ r ∈ S, c r| ≤ ∑ l ∈ Finset.range ps.length, width (n + l) := by
  induction ps using List.reverseRecOn generalizing n c with
  | nil =>
    have hconst : pairing S c (exactRun []) = 100 * ∑ r ∈ S, c r := by
      rw [pairing, Finset.mul_sum]
      exact Finset.sum_congr rfl fun r _ => mul_comm _ _
    rw [hconst, sub_self, abs_zero, List.length_nil, Finset.sum_range_zero]
  | append_singleton ps p ih =>
    have hp := hps p (by simp)
    have hrest := ih (fun q hq => hps q (by simp [hq])) (h.pull hp hc)
    have hlast := h.le hp hc
    have hshift : ∑ l ∈ Finset.range ps.length, width (n + 1 + l) =
        ∑ l ∈ Finset.range ps.length, width (n + (l + 1)) :=
      Finset.sum_congr rfl fun l _ => by rw [Nat.add_assoc, Nat.add_comm 1]
    rw [exactRun_concat, pairing_exact hp, List.length_append, List.length_singleton,
      Finset.sum_range_succ', ← hshift, Nat.add_zero]
    rw [sum_pull hp] at hrest
    calc |pairing S (p.pull c) (exactRun ps) + c p.j - 100 * ∑ r ∈ S, c r|
        = |(pairing S (p.pull c) (exactRun ps) - 100 * (∑ r ∈ S, c r + (c p.j - c p.k))) +
            (100 * (c p.j - c p.k) + c p.j)| := by congr 1; ring
      _ ≤ _ := (abs_add_le _ _).trans (add_le_add hrest hlast)

theorem Widens.exactRun_le (h : Widens S Level width) (hps : ∀ p ∈ ps, p.In S) (hr : r ∈ S)
    (hstart : Level 0 (Pi.single r 1)) :
    |exactRun ps r - 100| ≤ ∑ l ∈ Finset.range ps.length, width l := by
  have h := h.pairing_le hps hstart
  have hvalue : pairing S (Pi.single r 1) (exactRun ps) = exactRun ps r := by
    simp [pairing, Pi.single_apply, hr]
  have hone : ∑ x ∈ S, (Pi.single r 1 : RecordId → Int) x = 1 := by simp [Pi.single_apply, hr]
  rw [hvalue, hone, mul_one] at h
  simpa using h

/-! ### Any number of records -/

/-- How far the two highest and the two lowest coefficients go. -/
structure Outer (c : RecordId → Int) (a a' b b' : Int) : Prop where
  top : ∀ x, c x ≤ a
  second : ∀ x y, x ≠ y → c x ≤ a' ∨ c y ≤ a'
  bottom : ∀ x, -b ≤ c x
  lower : ∀ x y, x ≠ y → -b' ≤ c x ∨ -b' ≤ c y
  high : 0 ≤ a' ∧ a' ≤ a
  low : 0 ≤ b' ∧ b' ≤ b

variable {a a' b b' : Int}

theorem Outer.neg (h : Outer c a a' b b') : Outer (-c) b b' a a' where
  top x := neg_le.mp (h.bottom x)
  second x y hne := (h.lower x y hne).imp neg_le.mp neg_le.mp
  bottom x := neg_le_neg (h.top x)
  lower x y hne := (h.second x y hne).imp neg_le_neg neg_le_neg
  high := h.low
  low := h.high

theorem Pick.pull_neg : p.pull (-c) = -p.pull c := by
  funext r
  rw [Pi.neg_apply, Pick.pull_apply, Pick.pull_apply]
  split <;> simp only [Pi.neg_apply] <;> ring

/-- The changed coefficient is the highest one now. -/
theorem Outer.up (h : Outer c a a' b b') (hv : 0 ≤ p.pull c p.i) :
    Outer (p.pull c) (a + a' + b) a b b' := by
  have hhigh := h.high
  have hlow := h.low
  have hself : p.pull c p.i = c p.i + (c p.j - c p.k) := Function.update_self _ _ _
  have hother : ∀ x, x ≠ p.i → p.pull c x = c x := fun x hx => Function.update_of_ne hx _ _
  have hle : p.pull c p.i ≤ a + a' + b := by
    have hi := h.top p.i
    have hj := h.top p.j
    have hk := h.bottom p.k
    rcases h.second p.j p.i p.distinct.1 with hs | hs <;> omega
  refine ⟨fun x => ?_, fun x y hne => ?_, fun x => ?_, fun x y hne => ?_, ⟨by omega, by omega⟩, hlow⟩
  · by_cases hx : x = p.i
    · exact hx ▸ hle
    · have := h.top x
      rw [hother x hx]
      omega
  · by_cases hx : x = p.i
    · exact .inr (by rw [hother y fun hy => hne (hx.trans hy.symm)]; exact h.top y)
    · exact .inl (by rw [hother x hx]; exact h.top x)
  · by_cases hx : x = p.i
    · subst hx
      omega
    · rw [hother x hx]
      exact h.bottom x
  · by_cases hx : x = p.i
    · exact .inl (by rw [hx]; omega)
    · by_cases hy : y = p.i
      · exact .inr (by rw [hy]; omega)
      · rw [hother x hx, hother y hy]
        exact h.lower x y hne

theorem Outer.down (h : Outer c a a' b b') (hv : p.pull c p.i ≤ 0) :
    Outer (p.pull c) a a' (b + b' + a) b := by
  have hup := h.neg.up (p := p) (by rw [Pick.pull_neg, Pi.neg_apply]; omega)
  rw [Pick.pull_neg] at hup
  exact neg_neg (p.pull c) ▸ hup.neg

/-- The largest distances between coefficients, two steps late. -/
def widest : Nat → Int
  | 0 => 0
  | 1 => 0
  | 2 => 1
  | n + 3 => 2 * widest (n + 2) - widest (n + 1) + widest n

theorem widest_succ (n : Nat) : widest (n + 3) = 2 * widest (n + 2) - widest (n + 1) + widest n := rfl

theorem widest_mono (n : Nat) : 0 ≤ widest n ∧ widest n ≤ widest (n + 1) ∧
    widest (n + 1) ≤ widest (n + 2) := by
  induction n with
  | zero => decide
  | succ n ih =>
    obtain ⟨h₀, h₁, h₂⟩ := ih
    have hnext := widest_succ n
    refine ⟨h₀.trans h₁, h₂, ?_⟩
    show widest (n + 2) ≤ widest (n + 3)
    omega

/-- What can become of the distance between the highest and the lowest coefficient in `n` steps. -/
def lead (n : Nat) (a a' b b' : Int) : Int :=
  widest (n + 2) * a + widest n * a' + (widest (n + 2) - widest (n + 1) + widest n) * b + widest (n + 1) * b'

theorem lead_up (n : Nat) (a a' b b' : Int) : lead n (a + a' + b) a b b' = lead (n + 1) b b' a a' := by
  rw [lead, lead, widest_succ]
  ring

theorem lead_up_swap (n : Nat) (h : Outer c a a' b b') :
    lead n b b' (a + a' + b) a ≤ lead (n + 1) b b' a a' := by
  obtain ⟨-, hle, -⟩ := widest_mono n
  have h₁ := mul_le_mul_of_nonneg_right hle h.high.1
  have h₂ := mul_le_mul_of_nonneg_right hle h.low.1
  have hgap : lead (n + 1) b b' a a' - lead n b b' (a + a' + b) a =
      (widest (n + 1) * a' - widest n * a') + (widest (n + 1) * b' - widest n * b') := by
    rw [lead, lead, widest_succ]
    ring
  omega

/-- Coefficients after `n` steps. -/
def Wide (n : Nat) (c : RecordId → Int) : Prop :=
  ∃ a a' b b', Outer c a a' b b' ∧
    ∀ m, lead m a a' b b' ≤ widest (n + m + 2) ∧ lead m b b' a a' ≤ widest (n + m + 2)

theorem wide_single (r : RecordId) : Wide 0 (Pi.single r 1) := by
  refine ⟨1, 0, 0, 0, ⟨fun x => ?_, fun x y hne => ?_, fun x => ?_, fun x y _ => .inl ?_, by decide,
    by decide⟩, fun m => ?_⟩
  · by_cases hx : x = r <;> simp [hx]
  · by_cases hx : x = r
    · exact .inr (by rw [Pi.single_eq_of_ne (by rw [← hx]; exact hne.symm)])
    · exact .inl (by rw [Pi.single_eq_of_ne hx])
  · by_cases hx : x = r <;> simp [hx]
  · by_cases hx : x = r <;> simp [hx]
  · have hmono := widest_mono m
    simp only [lead, mul_one, mul_zero, add_zero, zero_add]
    omega

theorem Wide.pull (h : Wide n c) (p : Pick) : Wide (n + 1) (p.pull c) := by
  obtain ⟨a, a', b, b', hc, hlead⟩ := h
  have hnext : ∀ m, lead (m + 1) a a' b b' ≤ widest (n + 1 + m + 2) ∧
      lead (m + 1) b b' a a' ≤ widest (n + 1 + m + 2) := fun m => by
    rw [Nat.add_assoc n 1 m, Nat.add_comm 1 m]
    exact hlead (m + 1)
  rcases le_total 0 (p.pull c p.i) with hv | hv
  · exact ⟨_, _, _, _, hc.up hv, fun m => ⟨(lead_up m a a' b b').trans_le (hnext m).2,
      (lead_up_swap m hc).trans (hnext m).2⟩⟩
  · exact ⟨_, _, _, _, hc.down hv, fun m => ⟨(lead_up_swap m hc.neg).trans (hnext m).1,
      (lead_up m b b' a a').trans_le (hnext m).1⟩⟩

theorem Wide.le (h : Wide n c) (p : Pick) :
    |100 * (c p.j - c p.k) + c p.j| ≤ 101 * widest (n + 2) := by
  obtain ⟨a, a', b, b', hc, hlead⟩ := h
  have hsum : lead 0 a a' b b' = a + b := by simp [lead, widest]
  have hle : a + b ≤ widest (n + 2) := hsum ▸ (hlead 0).1
  have h₁ := hc.top p.j
  have h₂ := hc.bottom p.j
  have h₃ := hc.top p.k
  have h₄ := hc.bottom p.k
  have h₅ := hc.high
  have h₆ := hc.low
  rw [abs_le]
  omega

theorem widens_wide (S : Finset RecordId) : Widens S Wide fun n => 101 * widest (n + 2) :=
  ⟨fun _ h => h.pull _, fun _ h => h.le _⟩

/-- Up to 69 transactions. -/
theorem exactRun_small (hps : ∀ p ∈ ps, p.In S) (hlen : ps.length ≤ 69) (hr : r ∈ S) :
    |exactRun ps r| < 2 ^ 63 - 1 := by
  have h := (widens_wide S).exactRun_le hps hr (wide_single r)
  have hsum : ∑ l ∈ Finset.range ps.length, 101 * widest (l + 2) ≤
      ∑ l ∈ Finset.range 69, 101 * widest (l + 2) :=
    Finset.sum_le_sum_of_subset_of_nonneg (Finset.range_mono hlen) fun l _ _ =>
      mul_nonneg (by decide) (widest_mono _).1
  have hlimit : ∑ l ∈ Finset.range 69, 101 * widest (l + 2) < 2 ^ 63 - 101 := by decide +kernel
  rw [abs_le] at h
  rw [abs_lt]
  omega

/-! ### Three records -/

/-- Coefficients of three records after `n` steps: two of the three distances are small. -/
structure Narrow (n : Nat) (c : RecordId → Int) : Prop where
  values : ∀ x ∈ Finset.Icc 1 3, |c x| ≤ (n + 3).fib
  distance : ∀ x ∈ Finset.Icc 1 3, ∀ y ∈ Finset.Icc 1 3, |c x - c y| ≤ (n + 2).fib
  gaps : ∀ x ∈ Finset.Icc 1 3, ∀ y ∈ Finset.Icc 1 3, ∀ z ∈ Finset.Icc 1 3, x ≠ z →
    |c x - c y| ≤ (n + 1).fib ∨ |c z - c y| ≤ (n + 1).fib

theorem narrow_single (r : RecordId) : Narrow 0 (Pi.single r 1) := by
  have hbit : ∀ x, (Pi.single r 1 : RecordId → Int) x = 0 ∨
      (Pi.single r 1 : RecordId → Int) x = 1 := fun x => by
    by_cases hx : x = r <;> simp [hx]
  have hdistance : ∀ x y,
      |(Pi.single r 1 : RecordId → Int) x - (Pi.single r 1 : RecordId → Int) y| ≤ 1 := fun x y => by
    rw [abs_le]
    have := hbit x
    have := hbit y
    omega
  have hvalue : ∀ x, |(Pi.single r 1 : RecordId → Int) x| ≤ 2 := fun x => by
    rw [abs_le]
    have := hbit x
    omega
  exact ⟨fun x _ => hvalue x, fun x _ y _ => hdistance x y, fun x _ y _ z _ _ => .inl (hdistance x y)⟩

theorem one_of_three {i j k x : Nat} (hi : 1 ≤ i ∧ i ≤ 3) (hj : 1 ≤ j ∧ j ≤ 3) (hk : 1 ≤ k ∧ k ≤ 3)
    (hx : 1 ≤ x ∧ x ≤ 3) (h : j ≠ i ∧ k ≠ j ∧ k ≠ i) : x = i ∨ x = j ∨ x = k := by omega

theorem Pick.In.cases (h : p.In (Finset.Icc 1 3)) {x : RecordId} (hx : x ∈ Finset.Icc 1 3) :
    x = p.i ∨ x = p.j ∨ x = p.k :=
  one_of_three (Finset.mem_Icc.mp h.read) (Finset.mem_Icc.mp h.raise) (Finset.mem_Icc.mp h.lower)
    (Finset.mem_Icc.mp hx) p.distinct

/-- The distance that may be large is that of the changed coefficient from the one subtracted. -/
theorem Narrow.close (h : Narrow n c) (hp : p.In (Finset.Icc 1 3)) {x y : RecordId}
    (hx : x ∈ Finset.Icc 1 3) (hy : y ∈ Finset.Icc 1 3) :
    |p.pull c x - p.pull c y| ≤ (n + 2).fib ∨ (x = p.i ∧ y = p.k) ∨ (x = p.k ∧ y = p.i) := by
  obtain ⟨hji, hkj, hki⟩ := p.distinct
  have hself : p.pull c p.i = c p.i + (c p.j - c p.k) := Function.update_self _ _ _
  have hj : p.pull c p.j = c p.j := Function.update_of_ne hji _ _
  have hk : p.pull c p.k = c p.k := Function.update_of_ne hki _ _
  have hij : p.pull c p.i - p.pull c p.j = c p.i - c p.k := by rw [hself, hj]; ring
  have hzero : |(0 : Int)| ≤ (n + 2).fib := by simp
  have hwide := h.distance p.i hp.read p.k hp.lower
  have hold := h.distance p.j hp.raise p.k hp.lower
  rcases hp.cases hx with rfl | rfl | rfl <;> rcases hp.cases hy with rfl | rfl | rfl
  · exact .inl (by rwa [sub_self])
  · exact .inl (by rwa [hij])
  · exact .inr (.inl ⟨rfl, rfl⟩)
  · exact .inl (by rwa [abs_sub_comm, hij])
  · exact .inl (by rwa [sub_self])
  · exact .inl (by rwa [hj, hk])
  · exact .inr (.inr ⟨rfl, rfl⟩)
  · exact .inl (by rwa [abs_sub_comm, hj, hk])
  · exact .inl (by rwa [sub_self])

theorem Narrow.pull (h : Narrow n c) (hp : p.In (Finset.Icc 1 3)) : Narrow (n + 1) (p.pull c) := by
  obtain ⟨hji, hkj, hki⟩ := p.distinct
  have hself : p.pull c p.i = c p.i + (c p.j - c p.k) := Function.update_self _ _ _
  have hk : p.pull c p.k = c p.k := Function.update_of_ne hki _ _
  have hfib₃ : ((n + 3).fib : Int) = (n + 1).fib + (n + 2).fib := by rw [Nat.fib_add_two]; push_cast; rfl
  have hfib₄ : ((n + 4).fib : Int) = (n + 2).fib + (n + 3).fib := by rw [Nat.fib_add_two]; push_cast; rfl
  have hstep := h.distance p.j hp.raise p.k hp.lower
  have hfar : |p.pull c p.i - p.pull c p.k| ≤ (n + 3).fib := by
    have hwide := h.distance p.i hp.read p.k hp.lower
    rw [hself, hk, hfib₃]
    rw [abs_le] at *
    rcases h.gaps p.i hp.read p.k hp.lower p.j hp.raise hji.symm with hgap | hgap <;>
      (rw [abs_le] at hgap; omega)
  refine ⟨fun x hx => ?_, fun x hx y hy => ?_, fun x hx y hy z hz hne => ?_⟩
  · show |p.pull c x| ≤ ((n + 4).fib : Int)
    have hvalue := h.values x hx
    rw [Pick.pull_apply, hfib₄]
    rw [abs_le] at *
    split <;> omega
  · show |p.pull c x - p.pull c y| ≤ ((n + 3).fib : Int)
    rcases h.close hp hx hy with hle | ⟨rfl, rfl⟩ | ⟨rfl, rfl⟩
    · omega
    · exact hfar
    · rwa [abs_sub_comm]
  · show _ ≤ ((n + 2).fib : Int) ∨ _ ≤ ((n + 2).fib : Int)
    rcases h.close hp hx hy with hle | ⟨rfl, rfl⟩ | ⟨rfl, rfl⟩
    · exact .inl hle
    · refine .inr ((h.close hp hz hp.lower).resolve_right ?_)
      rintro (⟨rfl, -⟩ | ⟨-, he⟩)
      · exact hne rfl
      · exact hki he
    · refine .inr ((h.close hp hz hp.read).resolve_right ?_)
      rintro (⟨-, he⟩ | ⟨rfl, -⟩)
      · exact hki he.symm
      · exact hne rfl

theorem widens_narrow : Widens (Finset.Icc 1 3) Narrow fun n => 100 * (n + 2).fib + (n + 3).fib where
  pull hp h := h.pull hp
  le {n c p} hp h := by
    have hvalue := h.values p.j hp.raise
    have hstep := h.distance p.j hp.raise p.k hp.lower
    rw [abs_le] at *
    omega

/-- Up to 79 transactions. -/
theorem exactRun_small_three (hps : ∀ p ∈ ps, p.In (Finset.Icc 1 3)) (hlen : ps.length ≤ 79)
    (hr : r ∈ Finset.Icc 1 3) : |exactRun ps r| < 2 ^ 63 - 1 := by
  have h := widens_narrow.exactRun_le hps hr (narrow_single r)
  have hsum : ∑ l ∈ Finset.range ps.length, (100 * ((l + 2).fib : Int) + (l + 3).fib) ≤
      ∑ l ∈ Finset.range 79, (100 * ((l + 2).fib : Int) + (l + 3).fib) :=
    Finset.sum_le_sum_of_subset_of_nonneg (Finset.range_mono hlen) fun l _ _ => by omega
  have hlimit : ∑ l ∈ Finset.range 79, (100 * ((l + 2).fib : Int) + (l + 3).fib) < 2 ^ 63 - 101 := by
    decide +kernel
  rw [abs_le] at h
  rw [abs_lt]
  omega

/-! ### Runs that grow that fast -/

/-- The number of executions up to which no value can get too large. -/
def exactLimit (numRecord : Nat) : Nat := if numRecord = 3 then 78 else 68

def turns : List Pick := [⟨1, 2, 3, by decide⟩, ⟨2, 1, 3, by decide⟩]

def fourTurns : List Pick :=
  [⟨1, 2, 3, by decide⟩, ⟨3, 4, 2, by decide⟩, ⟨2, 1, 4, by decide⟩, ⟨4, 3, 1, by decide⟩]

/-- A run as long as the limit, and one transaction more. -/
def fastest (numRecord : Nat) : List Pick :=
  if numRecord = 3 then (List.replicate 40 turns).flatten
  else turns ++ (List.replicate 17 fourTurns).flatten

end Transactions
