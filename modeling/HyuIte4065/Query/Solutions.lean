import HyuIte4065.Query.Answer
import Mathlib.Algebra.Group.Pi.Basic

/-!
# How solutions are combined

The solutions over one binding, those that satisfy one more predicate, and those over two
disjoint sets of bindings, which are sums of tuples.
-/
namespace Query

open Enumerate

section
variable (relations : List Relation) (query : QueryInfo)

/-- The tuples that have a row for one binding only. -/
def boundRows (binding : Nat) : List Tuple :=
  (List.range (numRows relations query binding)).map (Pi.single binding)

end

variable {relations : List Relation} {query : QueryInfo} {info : SelectInfo} {p : PredicateInfo}
  {f : FilterInfo} {bindings left right : Finset Nat} {t u : Tuple} {binding : Nat}
  {predicates predicatesLeft predicatesRight : List PredicateInfo}

theorem boundRows_value (hi : info.binding = binding) :
    (boundRows relations query binding).map (value relations query · info) =
      (List.range (numRows relations query binding)).map (cell relations query info) := by
  rw [boundRows, List.map_map]
  refine List.map_congr_left fun i _ => ?_
  rw [Function.comp_apply, value, hi, Pi.single_eq_same]

theorem value_add_left (h : u info.binding = 0) :
    value relations query (t + u) info = value relations query t info :=
  value_congr (by rw [Pi.add_apply, h, Nat.add_zero])

theorem value_add_right (h : t info.binding = 0) :
    value relations query (t + u) info = value relations query u info :=
  value_congr (by rw [Pi.add_apply, h, Nat.zero_add])

/-- The rows that the tuple has for some of the bindings. -/
def restrict (bindings : Finset Nat) (t : Tuple) : Tuple := fun b => if b ∈ bindings then t b else 0

end Query
