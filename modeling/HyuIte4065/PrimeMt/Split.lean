import HyuIte4065.Library.Borders
import Mathlib.Data.Int.Interval
import Mathlib.Tactic.Ring
import Mathlib.Data.Int.ConditionallyCompleteOrder
import Mathlib.Order.ConditionallyCompleteLattice.Basic

/-!
# The ranges of the threads

How `ThreadFunc` of `prime_mt.cpp` splits the range. The computations are those of the source; one
that leaves its type has no value.
-/
namespace PrimeMt

open Borders

def numThread : Nat := 10

/-- A signed integer of some width, if it is one. -/
def ofWidth (w : Nat) (x : Int) : Option Int := if -2 ^ (w - 1) ≤ x ∧ x < 2 ^ (w - 1) then some x else none

def int (x : Int) : Option Int := ofWidth 32 x

def long (x : Int) : Option Int := ofWidth 64 x

/-- `(range_end - range_start + 1) / numThread`. -/
def quotient (rangeStart rangeEnd : Int) : Option Int := do
  let diff ← int (rangeEnd - rangeStart)
  let size ← int (diff + 1)
  int (size.tdiv numThread)

/-- `start` and `end`; `tid` is a `long`. -/
def splitRange (rangeStart rangeEnd : Int) (tid : Nat) : Option (Int × Int) := do
  let q ← quotient rangeStart rangeEnd
  let offset ← long (q * tid)
  let start ← int (← long (rangeStart + offset))
  let offset ← long (q * (tid + 1))
  let stop ← int (← long (rangeStart + offset))
  if tid = numThread - 1 then
    let stop ← int (rangeEnd + 1)
    return (start, stop)
  else
    return (start, stop)

variable {rangeStart rangeEnd x : Int} {k tid : Nat}

theorem int_eq (h : -2 ^ 31 ≤ x) (h' : x < 2 ^ 31) : int x = some x := if_pos ⟨h, h'⟩

theorem long_eq (h : -2 ^ 63 ≤ x) (h' : x < 2 ^ 63) : long x = some x := if_pos ⟨h, h'⟩

theorem quotient_eq (hs : 0 ≤ rangeStart) (hs' : rangeStart < 2 ^ 31)
    (he : 0 ≤ rangeEnd) (he' : rangeEnd < 2 ^ 31 - 1) :
    quotient rangeStart rangeEnd = some ((rangeEnd - rangeStart + 1).tdiv numThread) := by
  have hq := offset_between (n := numThread) (k := 1) (s := rangeEnd - rangeStart + 1) (by decide)
  rw [Nat.cast_one, mul_one] at hq
  rw [quotient, int_eq (by omega) (by omega), Option.bind_eq_bind, Option.bind_some, int_eq (by omega) (by omega),
    Option.bind_some, int_eq (by omega) (by omega)]

/-- The bounds of every thread are computed without leaving the types. -/
theorem splitRange_eq (hs : 0 ≤ rangeStart) (hs' : rangeStart < 2 ^ 31) (he : 0 ≤ rangeEnd)
    (he' : rangeEnd < 2 ^ 31 - 1) (htid : tid < numThread) :
    splitRange rangeStart rangeEnd tid =
      some (evenBorder numThread rangeStart rangeEnd tid, evenBorder numThread rangeStart rangeEnd (tid + 1)) := by
  have hlo := offset_between (n := numThread) (k := tid) (s := rangeEnd - rangeStart + 1) (by omega)
  have hhi := offset_between (n := numThread) (k := tid + 1) (s := rangeEnd - rangeStart + 1) (by omega)
  rw [Nat.cast_add, Nat.cast_one] at hhi
  have hborder : evenBorder numThread rangeStart rangeEnd tid =
      rangeStart + (rangeEnd - rangeStart + 1).tdiv numThread * tid := if_neg (by omega)
  rw [splitRange, quotient_eq hs hs' he he']
  simp only [Option.bind_eq_bind, Option.bind_some]
  rw [long_eq (by omega) (by omega), Option.bind_some, long_eq (by omega) (by omega), Option.bind_some,
    int_eq (by omega) (by omega), Option.bind_some, long_eq (by omega) (by omega), Option.bind_some,
    long_eq (by omega) (by omega), Option.bind_some, int_eq (by omega) (by omega), Option.bind_some, hborder]
  by_cases hlast : tid = numThread - 1
  · have hend : evenBorder numThread rangeStart rangeEnd (tid + 1) = rangeEnd + 1 := if_pos (by omega)
    rw [if_pos hlast, int_eq (by omega) (by omega), Option.bind_some, hend]
    rfl
  · have hend : evenBorder numThread rangeStart rangeEnd (tid + 1) =
        rangeStart + (rangeEnd - rangeStart + 1).tdiv numThread * (tid + 1 : Nat) := if_neg (by omega)
    rw [if_neg hlast, hend, Nat.cast_add, Nat.cast_one]
    rfl

/-- The part of a thread. -/
def part (rangeStart rangeEnd : Int) (tid : Nat) : Set Int :=
  Set.Ico (evenBorder numThread rangeStart rangeEnd tid) (evenBorder numThread rangeStart rangeEnd (tid + 1))

theorem part_empty (h : rangeEnd + 1 ≤ rangeStart) (htid : tid < numThread) : part rangeStart rangeEnd tid = ∅ :=
  Set.Ico_eq_empty (evenBorder_falls h tid htid).not_gt

theorem parts_disjoint : (Set.Iio numThread).PairwiseDisjoint (part rangeStart rangeEnd) := by
  rcases le_total rangeStart (rangeEnd + 1) with h | h
  · exact disjoint_pieces (evenBorder_rises h)
  · intro i hi j _ _
    show Disjoint (part rangeStart rangeEnd i) (part rangeStart rangeEnd j)
    rw [part_empty h hi]
    exact Set.empty_disjoint _

theorem parts_union : ⋃ tid ∈ Set.Iio numThread, part rangeStart rangeEnd tid = Set.Icc rangeStart rangeEnd := by
  rcases le_total rangeStart (rangeEnd + 1) with h | h
  · have hunion := union_pieces (evenBorder_rises (n := numThread) h)
    rw [evenBorder_zero (by decide), evenBorder_last] at hunion
    refine hunion.trans (Set.ext fun i => ?_)
    exact and_congr_right fun _ => Int.lt_add_one_iff
  · rw [Set.Icc_eq_empty (by omega)]
    exact Set.iUnion_eq_empty.mpr fun tid => Set.iUnion_eq_empty.mpr fun htid => part_empty h htid

theorem card_parts (rangeStart rangeEnd : Int) (p : Int → Prop) [DecidablePred p] :
    ∑ tid ∈ Finset.range numThread,
      ((Finset.Ico (evenBorder numThread rangeStart rangeEnd tid)
        (evenBorder numThread rangeStart rangeEnd (tid + 1))).filter p).card =
    ((Finset.Icc rangeStart rangeEnd).filter p).card := by
  rcases le_total rangeStart (rangeEnd + 1) with h | h
  · have hsum := sum_card_pieces p (evenBorder_rises (n := numThread) h)
    rw [evenBorder_zero (by decide), evenBorder_last] at hsum
    have hlast : Finset.Ico rangeStart (rangeEnd + 1) = Finset.Icc rangeStart rangeEnd := by
      ext i
      rw [Finset.mem_Ico, Finset.mem_Icc, Int.lt_add_one_iff]
    rw [hsum, hlast]
  · rw [Finset.Icc_eq_empty (by omega)]
    refine Finset.sum_eq_zero fun tid htid => ?_
    rw [Finset.Ico_eq_empty (evenBorder_falls h tid (Finset.mem_range.mp htid)).not_gt]
    rfl

end PrimeMt
