import HyuIte4065.Query.Run
import Mathlib.Data.Finset.Lattice.Fold
import Mathlib.Data.Multiset.Bind

/-!
# What an operator tree stands for

Trees as the constructors of the operators build them, and their meaning in relational
algebra: the multiset of the tuples that pass the filters and the joins.
-/
namespace Query

namespace Operator

/-- The bindings that are scanned, from left to right. -/
def scans : Operator → List Nat
  | .scan _ _ relationBinding => [relationBinding]
  | .filterScan _ _ relationBinding _ _ => [relationBinding]
  | .join _ left right _ _ _ _ => left.scans ++ right.scans
  | .selfJoin _ input _ _ => input.scans

/-- The relation that is scanned for a binding. -/
def relationOf : Operator → Nat → Option Relation
  | .scan _ relation relationBinding, binding => if binding = relationBinding then some relation else none
  | .filterScan _ relation relationBinding _ _, binding =>
    if binding = relationBinding then some relation else none
  | .join _ left right _ _ _ _, binding => (left.relationOf binding).or (right.relationOf binding)
  | .selfJoin _ input _ _, binding => input.relationOf binding

def HasColumn (op : Operator) (info : SelectInfo) : Prop :=
  ∃ relation, op.relationOf info.binding = some relation ∧ info.colId < relation.columns.length

/-- What a tuple has in a column. -/
def entry (op : Operator) (t : Tuple) (info : SelectInfo) : Value :=
  (((op.relationOf info.binding).bind (·.columns[info.colId]?)).bind (·[t info.binding]?)).getD 0

/-- The filtered and joined tuples. A tuple has a row number for each binding that is scanned
and is zero elsewhere. -/
def tuples : Operator → Multiset Tuple
  | .scan _ relation relationBinding =>
    (Multiset.range relation.size).map (Pi.single relationBinding)
  | .filterScan _ relation relationBinding filters _ =>
    ((Multiset.range relation.size).filter fun i => filters.all (·.passes relation i)).map
      (Pi.single relationBinding)
  | .join _ left right pInfo _ _ _ =>
    ((left.tuples ×ˢ right.tuples).filter fun pair =>
      left.entry pair.1 pInfo.left = right.entry pair.2 pInfo.right).map fun pair => pair.1 + pair.2
  | .selfJoin _ input pInfo _ =>
    input.tuples.filter fun t => input.entry t pInfo.left = input.entry t pInfo.right

/-- The filters of a scan name columns of its relation, the predicate of a join columns of
its inputs. -/
def WellPlaced : Operator → Prop
  | .scan .. => True
  | .filterScan _ relation _ filters _ =>
    ∀ f ∈ filters, 0 < relation.size → f.filterColumn.colId < relation.columns.length
  | .join _ left right pInfo _ _ _ =>
    left.WellPlaced ∧ right.WellPlaced ∧ left.HasColumn pInfo.left ∧ right.HasColumn pInfo.right
  | .selfJoin _ input pInfo _ =>
    input.WellPlaced ∧ input.HasColumn pInfo.left ∧ input.HasColumn pInfo.right

/-- Trees as the constructors leave them. -/
inductive Built : Operator → Prop
  | scan (relation : Relation) (relationBinding : Nat) : Built (newScan relation relationBinding)
  | filterScan {relation : Relation} {filters : List FilterInfo} {op : Operator}
      (new : newFilterScan relation filters = some op) : Built op
  | join {left right : Operator} (pInfo : PredicateInfo) (left_built : Built left)
      (right_built : Built right) : Built (newJoin left right pInfo)
  | selfJoin {input : Operator} (pInfo : PredicateInfo) (input_built : Built input) :
      Built (newSelfJoin input pInfo)

/-- Requests that are made one after the other, with all answers. -/
def requireAll (op : Operator) : List SelectInfo → Option (List Bool × Operator)
  | [] => some ([], op)
  | info :: infos => do
    let (success, op) ← op.require info
    let (successes, op) ← op.requireAll infos
    return (success :: successes, op)

theorem mem_scans {op : Operator} {binding : Nat} : binding ∈ op.scans ↔ binding ∈ op.bindings := by
  induction op with
  | scan => rw [scans, bindings, List.mem_singleton, Finset.mem_singleton]
  | filterScan => rw [scans, bindings, List.mem_singleton, Finset.mem_singleton]
  | join _ left right _ _ _ _ ihl ihr => rw [scans, bindings, List.mem_append, Finset.mem_union, ihl, ihr]
  | selfJoin _ input _ _ ih => exact ih

theorem relationOf_isSome {op : Operator} {binding : Nat} :
    (op.relationOf binding).isSome ↔ binding ∈ op.bindings := by
  induction op with
  | scan => simp [relationOf, bindings]
  | filterScan => simp [relationOf, bindings]
  | join _ left right _ _ _ _ ihl ihr =>
    rw [relationOf, bindings, Finset.mem_union, Option.isSome_or, Bool.or_eq_true, ihl, ihr]
  | selfJoin _ input _ _ ih => exact ih

section
variable {left right : Operator} {results : Results} {pInfo : PredicateInfo} {binding : Nat}
  {requested requestedLeft requestedRight : List SelectInfo}

theorem relationOf_join_left (hb : binding ∈ left.bindings) :
    (join results left right pInfo requested requestedLeft requestedRight).relationOf binding =
      left.relationOf binding := by
  obtain ⟨relation, hrel⟩ := Option.isSome_iff_exists.mp (relationOf_isSome.mpr hb)
  rw [relationOf, hrel, Option.some_or]

theorem relationOf_join_right (hdisj : Disjoint left.bindings right.bindings) (hb : binding ∈ right.bindings) :
    (join results left right pInfo requested requestedLeft requestedRight).relationOf binding =
      right.relationOf binding := by
  have hnone : left.relationOf binding = none := by
    rw [← Option.not_isSome_iff_eq_none, relationOf_isSome]
    exact Finset.disjoint_right.mp hdisj hb
  rw [relationOf, hnone, Option.none_or]

end

theorem HasColumn.mem {op : Operator} {info : SelectInfo} (h : op.HasColumn info) :
    info.binding ∈ op.bindings := by
  obtain ⟨relation, hrel, -⟩ := h
  rw [← relationOf_isSome, hrel]
  rfl

theorem entry_congr {op op' : Operator} (h : op'.relationOf = op.relationOf) : op'.entry = op.entry := by
  funext t info
  rw [entry, entry, h]

theorem hasColumn_congr {op op' : Operator} (h : op'.relationOf = op.relationOf) {info : SelectInfo} :
    op'.HasColumn info ↔ op.HasColumn info := by
  rw [HasColumn, HasColumn, h]

/-- Tuples are zero where nothing is scanned. -/
theorem tuples_zero {op : Operator} {t : Tuple} (ht : t ∈ op.tuples) {binding : Nat}
    (hb : binding ∉ op.bindings) : t binding = 0 := by
  induction op generalizing t with
  | scan =>
    obtain ⟨i, -, rfl⟩ := Multiset.mem_map.mp ht
    exact Pi.single_eq_of_ne (fun h => hb (Finset.mem_singleton.mpr h)) _
  | filterScan =>
    obtain ⟨i, -, rfl⟩ := Multiset.mem_map.mp ht
    exact Pi.single_eq_of_ne (fun h => hb (Finset.mem_singleton.mpr h)) _
  | join _ left right _ _ _ _ ihl ihr =>
    obtain ⟨⟨a, b⟩, hmem, rfl⟩ := Multiset.mem_map.mp ht
    obtain ⟨ha, hb'⟩ := Multiset.mem_product.mp (Multiset.mem_of_mem_filter hmem)
    rw [bindings, Finset.mem_union, not_or] at hb
    rw [Pi.add_apply, ihl ha hb.1, ihr hb' hb.2]
  | selfJoin _ input _ _ ih => exact ih (Multiset.mem_of_mem_filter ht) hb

end Operator

end Query
