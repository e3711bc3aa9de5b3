import HyuIte4065.Query.Run
import Mathlib.Algebra.BigOperators.Group.List.Basic

/-!
# The sums over the solutions

The tuples that qualify are the solutions over all bindings, and the sums that are printed do not
depend on their order. The loop that prints them counts with an `unsigned`.
-/
namespace Query

open Enumerate Loops

variable {relations : List Relation} {query : QueryInfo} {containers : Containers}
  {info : SelectInfo} {op : Operator} {rows : List Tuple} {l : List Nat} {t : Tuple}

theorem InRange.lt (h : InRange relations query info) : info.binding < query.relationIds.length :=
  (List.getElem?_eq_some_iff.mp h.resolved).1

variable (relations query) in
/-- The text for the sums over the rows. -/
def printed (rows : List Tuple) : String :=
  String.intercalate " " (query.selections.map fun sInfo =>
    if rows = [] then "NULL"
    else toString ((rows.map (value relations query · sInfo)).sum).toNat) ++ "\n"

end Query
