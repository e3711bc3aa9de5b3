import HyuIte4065.Query.Joiner
import HyuIte4065.Library.Forest

/-!
# The disjoint set of the joiner

The trees that its elements point to, what each operation does to the parents and the trees, and
that `getRootOfJoinTree` finds the root.
-/
namespace Query

open Forest Loops
open Function (update)

namespace OperatorPtr

/-- The bindings at the scans, from left to right. -/
def leaves : OperatorPtr → List Nat
  | .null => []
  | .scan _ relationBinding => [relationBinding]
  | .filterScan _ relationBinding _ => [relationBinding]
  | .join left right _ => left.leaves ++ right.leaves
  | .selfJoin input _ => input.leaves

def predicates : OperatorPtr → List PredicateInfo
  | .null => []
  | .scan _ _ => []
  | .filterScan _ _ _ => []
  | .join left right pInfo => pInfo :: (left.predicates ++ right.predicates)
  | .selfJoin input pInfo => pInfo :: input.predicates

/-- Neither the tree nor an input in it is null. -/
def Complete : OperatorPtr → Prop
  | .null => False
  | .scan _ _ => True
  | .filterScan _ _ _ => True
  | .join left right _ => left.Complete ∧ right.Complete
  | .selfJoin input _ => input.Complete

/-- What `addScan` creates. -/
def leaf (filters : List FilterInfo) (relation : Relation) (binding : Nat) : OperatorPtr :=
  let own := filters.filter fun f => decide (f.filterColumn.binding = binding)
  if own = [] then .scan relation binding else .filterScan relation binding own

end OperatorPtr

def DisjointSet.parents (disjointSet : DisjointSet) (id : Nat) : Option Nat :=
  (disjointSet id).map (·.rootId)

def DisjointSet.trees (disjointSet : DisjointSet) (id : Nat) : Option OperatorPtr :=
  (disjointSet id).map (·.tree)

variable {relations : List Relation} {query : QueryInfo} {disjointSet : DisjointSet} {info : SelectInfo}
  {b r s id : Nat} {element : DisjointSetElement} {tree : OperatorPtr} {filters : List FilterInfo}
  {relation : Relation} {binding : Nat}

section

open OperatorPtr

theorem leaf_cases (filters : List FilterInfo) (relation : Relation) (binding : Nat) :
    (leaf filters relation binding = .scan relation binding ∧
      ∀ f ∈ filters, f.filterColumn.binding ≠ binding) ∨
    leaf filters relation binding = .filterScan relation binding
      (filters.filter fun f => decide (f.filterColumn.binding = binding)) ∧
      filters.filter (fun f => decide (f.filterColumn.binding = binding)) ≠ [] := by
  rw [leaf]
  by_cases hown : filters.filter (fun f => decide (f.filterColumn.binding = binding)) = []
  · exact .inl ⟨if_pos hown, fun f hf => by simpa using List.filter_eq_nil_iff.mp hown f hf⟩
  · exact .inr ⟨if_neg hown, hown⟩

theorem leaves_leaf : (leaf filters relation binding).leaves = [binding] := by
  rcases leaf_cases filters relation binding with ⟨he, _⟩ | ⟨he, _⟩ <;> rw [he] <;> rfl

theorem predicates_leaf : (leaf filters relation binding).predicates = [] := by
  rcases leaf_cases filters relation binding with ⟨he, _⟩ | ⟨he, _⟩ <;> rw [he] <;> rfl

theorem complete_leaf : (leaf filters relation binding).Complete := by
  rcases leaf_cases filters relation binding with ⟨he, _⟩ | ⟨he, _⟩ <;> rw [he] <;> trivial

end

theorem addScan_eq (info : SelectInfo) : addScan relations disjointSet info query =
    (relations[info.relId]?).map fun relation =>
      disjointSet.set info.binding ⟨info.binding, .leaf query.filters relation info.binding⟩ := by
  rw [addScan]
  cases relations[info.relId]? with
  | none => rfl
  | some relation =>
    simp only [bind_some, Option.map_some, OperatorPtr.leaf]
    cases hown : query.filters.filter fun f => decide (f.filterColumn.binding = info.binding) with
    | nil => rfl
    | cons f own =>
      have hmem : f ∈ query.filters.filter fun f => decide (f.filterColumn.binding = info.binding) := by
        rw [hown]; exact List.mem_cons_self
      have hf : f.filterColumn.binding = info.binding := of_decide_eq_true (List.mem_filter.mp hmem).2
      rw [if_neg (List.cons_ne_nil f own), if_neg (List.cons_ne_nil f own), OperatorPtr.newFilterScan]
      simp only [List.getElem?_cons_zero, bind_some, ← hf]
      rfl

namespace DisjointSet

@[simp] theorem parents_set :
    (disjointSet.set id element).parents = update disjointSet.parents id (some element.rootId) := by
  funext x
  by_cases hx : x = id
  · subst hx
    simp [parents, set]
  · simp [parents, set, hx]

@[simp] theorem trees_set :
    (disjointSet.set id element).trees = update disjointSet.trees id (some element.tree) := by
  funext x
  by_cases hx : x = id
  · subst hx
    simp [trees, set]
  · simp [trees, set, hx]

theorem isSome_trees (id : Nat) : (disjointSet.trees id).isSome = (disjointSet id).isSome :=
  Option.isSome_map

theorem isSome_parents (id : Nat) : (disjointSet.parents id).isSome = (disjointSet id).isSome :=
  Option.isSome_map

theorem setRootId_spec (r : Nat) (h : disjointSet.parents id = some s) :
    ∃ ds', disjointSet.setRootId id r = some ds' ∧
      ds'.parents = update disjointSet.parents id (some r) ∧ ds'.trees = disjointSet.trees := by
  obtain ⟨element, he, -⟩ := Option.map_eq_some_iff.mp h
  refine ⟨disjointSet.set id ⟨r, element.tree⟩, by rw [setRootId, he]; rfl, parents_set, ?_⟩
  rw [trees_set, Function.update_eq_self_iff, trees, he]
  rfl

theorem moveTree_spec (h : disjointSet.trees id = some tree) :
    ∃ ds', disjointSet.moveTree id = some (tree, ds') ∧
      ds'.parents = disjointSet.parents ∧ ds'.trees = update disjointSet.trees id (some .null) := by
  obtain ⟨element, he, rfl⟩ := Option.map_eq_some_iff.mp h
  refine ⟨disjointSet.set id ⟨element.rootId, .null⟩, by rw [moveTree, he]; rfl, ?_, trees_set⟩
  rw [parents_set, Function.update_eq_self_iff, parents, he]
  rfl

theorem setTree_spec (tree : OperatorPtr) (h : disjointSet.parents id = some s) :
    ∃ ds', disjointSet.setTree id tree = some ds' ∧
      ds'.parents = disjointSet.parents ∧ ds'.trees = update disjointSet.trees id (some tree) := by
  obtain ⟨element, he, -⟩ := Option.map_eq_some_iff.mp h
  refine ⟨disjointSet.set id ⟨element.rootId, tree⟩, by rw [setTree, he]; rfl, ?_, trees_set⟩
  rw [parents_set, Function.update_eq_self_iff, parents, he]
  rfl

end DisjointSet

/-- The root is found, and path compression keeps the roots and the trees. -/
theorem getRootOfJoinTree_returns (h : Root disjointSet.parents b r) :
    ∃ ds', Returns (getRootOfJoinTree · disjointSet b) (r, ds') ∧ ds'.trees = disjointSet.trees ∧
      ∀ c s, Root disjointSet.parents c s → Root ds'.parents c s := by
  induction h with
  | @here x hx =>
    obtain ⟨element, he, rfl⟩ := Option.map_eq_some_iff.mp hx
    refine ⟨disjointSet, .succ ?_, rfl, fun _ _ h => h⟩
    simp only [getRootOfJoinTree, he, bind_some, if_true]
    exact .const rfl
  | @up x y r hx hyx hy ih =>
    obtain ⟨ds₁, hret, htrees, hroots⟩ := ih
    obtain ⟨element, he, hroot⟩ := Option.map_eq_some_iff.mp hx
    have hxr := hroots x r (.up hx hyx hy)
    obtain ⟨p, hp⟩ := Option.isSome_iff_exists.mp hxr.isSome
    obtain ⟨ds₂, hset, hparents, htrees₂⟩ := DisjointSet.setRootId_spec r hp
    refine ⟨ds₂, .succ ?_, htrees₂.trans htrees, fun z s hz => ?_⟩
    · simp only [getRootOfJoinTree, he, bind_some, hroot, if_neg hyx]
      exact hret.bind (.const (by simp only [hset]; rfl))
    · rw [hparents]
      exact (hroots z s hz).compress hxr

end Query
