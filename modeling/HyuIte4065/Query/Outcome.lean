import HyuIte4065.Query.Planted
import HyuIte4065.Query.Executed
import HyuIte4065.Query.Sums

/-!
# What becomes of a tree that the loop has built

The sums are printed exactly when every column that the tree and the selections name is there,
as long as the counters can hold the numbers of selections and columns.
-/
namespace Query

open Loops Enumerate Operator

section
variable (relations : List Relation) (query : QueryInfo)

end

variable {relations : List Relation} {query : QueryInfo} {op : Operator} {containers : Containers}

namespace Planted

/-- Nothing has been requested yet. -/
theorem sound (h : Planted relations query op) : op.Sound := by
  induction h with
  | scan => exact fun info hi => absurd rfl hi
  | filterScan => exact fun info hi => absurd rfl hi
  | join _ _ _ _ _ ihl ihr =>
    refine ⟨ihl, ihr, fun info hi => ?_⟩
    simp [Results.new] at hi
  | selfJoin _ _ _ ih =>
    refine ⟨ih, fun info hi => ?_⟩
    simp [Results.new] at hi

end Planted

namespace Planted

end Planted

end Query
