import HyuIte4065.Query.Components
import HyuIte4065.Query.Outcome

/-!
# From the pointers to the operators

The tree that `Joiner::join` runs is the one of the bindings that its last predicate is connected
with. Where no pointer in it is null, it is a tree of operators that the loop has planted.
-/
namespace Query

open Loops

variable {relations : List Relation} {query : QueryInfo} {named : SelectInfo → Prop} {tree : OperatorPtr}
  {op : Operator} {containers : Containers} {fuel : Nat} {p : PredicateInfo} {b : Nat}
  {state : Option Nat × DisjointSet}

/-- What the loop has grafted is planted, once no pointer is null. -/
theorem Grafted.planted (h : Grafted relations query named tree)
    (hres : ∀ info, named info → query.relationIds[info.binding]? = some info.relId)
    (hcomplete : tree.Complete) (hnodup : tree.leaves.Nodup) :
    ∃ op, tree.operator = some op ∧ Planted relations query op ∧ (∀ b, b ∈ op.bindings ↔ b ∈ tree.leaves) ∧
      op.predicates = tree.predicates := by
  induction h with
  | @leaf info relation side hrel =>
    have hbound : boundRelation relations query info.binding = some relation := by
      rw [boundRelation, hres info side, Option.bind_some, hrel]
    rcases leaf_cases query.filters relation info.binding with ⟨he, unfiltered⟩ | ⟨he, filtered⟩
    · rw [he]
      exact ⟨_, rfl, .scan hbound unfiltered, fun b => Finset.mem_singleton.trans List.mem_singleton.symm, rfl⟩
    · rw [he]
      exact ⟨_, rfl, .filterScan hbound filtered, fun b => Finset.mem_singleton.trans List.mem_singleton.symm, rfl⟩
  | join _ _ left_binding right_binding ihl ihr =>
    obtain ⟨nodupl, nodupr, hdisj⟩ := List.nodup_append'.mp hnodup
    obtain ⟨opl, hl, plantedl, bindingsl, predicatesl⟩ := ihl hcomplete.1 nodupl
    obtain ⟨opr, hr, plantedr, bindingsr, predicatesr⟩ := ihr hcomplete.2 nodupr
    refine ⟨_, by rw [OperatorPtr.operator, hl, hr]; rfl, .join plantedl plantedr ?_ ((bindingsl _).mpr left_binding)
      ((bindingsr _).mpr right_binding), fun b => ?_, ?_⟩
    · exact Finset.disjoint_left.mpr fun b hl hr => hdisj ((bindingsl b).mp hl) ((bindingsr b).mp hr)
    · rw [Operator.newJoin, Operator.bindings, Finset.mem_union, bindingsl, bindingsr, OperatorPtr.leaves,
        List.mem_append]
    · rw [Operator.newJoin, Operator.predicates, predicatesl, predicatesr, OperatorPtr.predicates]
  | torn => exact absurd hcomplete.2 id
  | selfJoin _ left_binding right_binding ih =>
    obtain ⟨op, hi, planted, hbindings, hpredicates⟩ := ih hcomplete hnodup
    refine ⟨_, by rw [OperatorPtr.operator, hi]; rfl, .selfJoin planted ((hbindings _).mpr left_binding)
      ((hbindings _).mpr right_binding), hbindings, ?_⟩
    rw [Operator.newSelfJoin, Operator.predicates, hpredicates, OperatorPtr.predicates]

/-- `join` once its predicates are walked through like a list. -/
theorem join_eq (h : query.predicates.length < 2 ^ 32) :
    join containers fuel relations query = joinLoop fuel relations query query.predicates >>= fun joined =>
      joined.1 >>= fun root => joined.2.moveTree root >>= fun moved => moved.1.operator >>= fun op =>
        Checksum.run containers fuel op query.selections >>= printResults := by
  rw [joinLoop, ← countAll_eq h (joinTurn fuel relations query)]
  rfl

variable (relations query named) in
/-- The tree of the bindings that are connected with the left side of a predicate. -/
structure TreeAround (p : PredicateInfo) (tree : OperatorPtr) : Prop where
  grafted : Grafted relations query named tree
  nodup : tree.leaves.Nodup
  leaves : ∀ b, b ∈ tree.leaves ↔ Connected query.predicates p.left.binding b
  complete : tree.Complete ↔ ∀ b ∈ tree.leaves, ¬Alone query.predicates b
  predicates : ∀ q, q ∈ tree.predicates ↔ q ∈ query.predicates ∧ q.left.binding ∈ tree.leaves
  closed : ∀ q ∈ query.predicates, q.left.binding ∈ tree.leaves ↔ q.right.binding ∈ tree.leaves

/-- The tree that is moved out at the end. -/
theorem Processed.last (h : Processed relations query named query.predicates state)
    (hlast : query.predicates.getLast? = some p) :
    ∃ r tree ds', state.1 = some r ∧ state.2.moveTree r = some (tree, ds') ∧
      TreeAround relations query named p tree := by
  obtain ⟨find, hconnects, hgrouped, hroot⟩ := h
  obtain ⟨r, hstate, hfind⟩ := hroot p hlast
  obtain ⟨tree, htree, hcovers⟩ := hgrouped.tree _ r hfind
  obtain ⟨ds', hmove, -, -⟩ := DisjointSet.moveTree_spec htree
  refine ⟨r, tree, ds', hstate, hmove, hcovers.grafted, hcovers.nodup, fun b => ?_, ?_, fun q => ?_, fun q hq => ?_⟩
  · rw [hcovers.leaves]
    exact ⟨hconnects.connected _ b r hfind, fun hb => (hb.find_eq hconnects.joined).symm.trans hfind⟩
  · rw [hcovers.complete]
    exact ⟨fun h b hb halone => h b halone ((hcovers.leaves b).mp hb),
      fun h b halone hb => h b ((hcovers.leaves b).mpr hb) halone⟩
  · rw [hcovers.predicates, hcovers.leaves]
  · rw [hcovers.leaves, hcovers.leaves, hconnects.joined q hq]

/-- `join`, for enough fuel. -/
theorem join_of_loop {m : Nat} {r : Nat} {ds' : DisjointSet}
    (hloop : ∀ fuel, m ≤ fuel → joinLoop fuel relations query query.predicates = some state)
    (hroot : state.1 = some r) (hmove : state.2.moveTree r = some (tree, ds'))
    (hcounted : query.predicates.length < 2 ^ 32) (hle : m ≤ fuel) :
    join containers fuel relations query = tree.operator >>= fun op =>
      Checksum.run containers fuel op query.selections >>= printResults := by
  rw [join_eq hcounted, hloop fuel hle]
  simp only [bind_some, hroot, hmove]

end Query
