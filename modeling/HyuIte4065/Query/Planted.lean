import HyuIte4065.Query.Aligned

/-!
# The trees that the loop of the joiner builds

Their leaves are scans of bound relations with the filters of the query, their predicates are
between bindings of their inputs, and their tuples are the solutions over their bindings and
predicates.
-/
namespace Query

open Loops Enumerate Operator

section
variable (relations : List Relation) (query : QueryInfo)

/-- A tree that the loop has built over the relations and filters of the query. -/
inductive Planted : Operator → Prop
  | scan {relation binding} (bound : boundRelation relations query binding = some relation)
      (unfiltered : ∀ f ∈ query.filters, f.filterColumn.binding ≠ binding) : Planted (newScan relation binding)
  | filterScan {relation binding} (bound : boundRelation relations query binding = some relation)
      (filtered : query.filters.filter (fun f => decide (f.filterColumn.binding = binding)) ≠ []) :
      Planted (.filterScan .new relation binding
        (query.filters.filter fun f => decide (f.filterColumn.binding = binding)) [])
  | join {left right pInfo} (left_planted : Planted left) (right_planted : Planted right)
      (disjoint : Disjoint left.bindings right.bindings)
      (left_binding : pInfo.left.binding ∈ left.bindings)
      (right_binding : pInfo.right.binding ∈ right.bindings) : Planted (.newJoin left right pInfo)
  | selfJoin {input pInfo} (input_planted : Planted input)
      (left_binding : pInfo.left.binding ∈ input.bindings)
      (right_binding : pInfo.right.binding ∈ input.bindings) : Planted (.newSelfJoin input pInfo)

end

variable {relations : List Relation} {query : QueryInfo} {op : Operator} {binding : Nat}
  {info : SelectInfo}

namespace Planted

theorem nodup (h : Planted relations query op) : op.scans.Nodup := by
  induction h with
  | scan => exact List.nodup_singleton _
  | filterScan => exact List.nodup_singleton _
  | join _ _ disjoint _ _ ihl ihr =>
    refine List.nodup_append'.mpr ⟨ihl, ihr, fun b hl hr => ?_⟩
    exact Finset.disjoint_left.mp disjoint (mem_scans.mp hl) (mem_scans.mp hr)
  | selfJoin _ _ _ ih => exact ih

theorem relationOf_eq (h : Planted relations query op) (hb : binding ∈ op.bindings) :
    op.relationOf binding = boundRelation relations query binding := by
  induction h with
  | scan bound =>
    obtain rfl := Finset.mem_singleton.mp hb
    exact (if_pos rfl).trans bound.symm
  | filterScan bound =>
    obtain rfl := Finset.mem_singleton.mp hb
    exact (if_pos rfl).trans bound.symm
  | join _ _ disjoint _ _ ihl ihr =>
    rcases Finset.mem_union.mp hb with hl | hr
    · exact (relationOf_join_left hl).trans (ihl hl)
    · exact (relationOf_join_right disjoint hr).trans (ihr hr)
  | selfJoin _ _ _ ih => exact ih hb

theorem entry_eq (h : Planted relations query op) (hb : info.binding ∈ op.bindings) (t : Tuple) :
    op.entry t info = value relations query t info := by
  rw [entry, h.relationOf_eq hb]
  rfl

end Planted

end Query
