import HyuIte4065.Query.Connect

/-!
# The joiner on any resolved query

Predicates may leave bindings apart, a predicate may be the first to mention its two equal
bindings, and relations and columns may be missing. Either no fuel is enough for `join`, or what
is printed depends on the solutions over the bindings that the last predicate is connected with.
-/
namespace Query

open Loops Enumerate Operator

/-- What the relation ids of a resolved query are. -/
structure QueryInfo.IdsResolved (query : QueryInfo) : Prop where
  predicates : ∀ p ∈ query.predicates, query.relationIds[p.left.binding]? = some p.left.relId ∧
    query.relationIds[p.right.binding]? = some p.right.relId
  filters : ∀ f ∈ query.filters,
    query.relationIds[f.filterColumn.binding]? = some f.filterColumn.relId
  selections : ∀ s ∈ query.selections, query.relationIds[s.binding]? = some s.relId

variable {relations : List Relation} {query query' : QueryInfo} {done : List PredicateInfo}
  {named : SelectInfo → Prop} {pInfo p : PredicateInfo} {containers : Containers} {op : Operator} {tree : OperatorPtr}
  {state : Option Nat × DisjointSet} {b : Nat} {text : String}

/-- The relations that are scanned in a tree are there. -/
theorem Grafted.relation (h : Grafted relations query named tree) (hb : b ∈ tree.leaves) :
    ∃ info, named info ∧ info.binding = b ∧ info.relId < relations.length := by
  induction h with
  | @leaf info relation side hrel =>
    rw [leaves_leaf, List.mem_singleton] at hb
    exact ⟨info, side, hb.symm, (List.getElem?_eq_some_iff.mp hrel).1⟩
  | join _ _ _ _ ihl ihr =>
    rcases List.mem_append.mp hb with hb | hb
    · exact ihl hb
    · exact ihr hb
  | torn _ ih =>
    rw [OperatorPtr.leaves, OperatorPtr.leaves, List.append_nil] at hb
    exact ih hb
  | selfJoin _ _ _ ih => exact ih hb

theorem QueryInfo.IdsResolved.side (h : query.IdsResolved) (info : SelectInfo) (hi : Side query.predicates info) :
    query.relationIds[info.binding]? = some info.relId := by
  obtain ⟨q, hq, rfl | rfl⟩ := hi
  · exact (h.predicates q hq).1
  · exact (h.predicates q hq).2

/-- A relation that the loop has come past is there. -/
theorem Processed.relation (h : Processed relations query named done state)
    (hres : ∀ info, named info → query.relationIds[info.binding]? = some info.relId) {info : SelectInfo}
    (hside : named info) (hseen : Seen done info.binding) : info.relId < relations.length := by
  obtain ⟨find, hconnects, hgrouped, -⟩ := h
  obtain ⟨r, hr⟩ := Option.ne_none_iff_exists'.mp ((hconnects.seen _).mpr hseen)
  obtain ⟨tree, -, hcovers⟩ := hgrouped.tree _ r hr
  obtain ⟨info', hside', hb, hlt⟩ := hcovers.grafted.relation ((hcovers.leaves _).mpr hr)
  have hsame := hres info' hside'
  rw [hb, hres info hside] at hsame
  exact Option.some.inj hsame ▸ hlt

/-- A set of bindings that no predicate leaves, and the predicates within it. -/
structure Component (query : QueryInfo) (bindings : Finset Nat) (predicates : List PredicateInfo) : Prop where
  subset : ∀ p ∈ predicates, p ∈ query.predicates
  closed : ∀ p ∈ query.predicates, p.left.binding ∈ bindings ∨ p.right.binding ∈ bindings →
    p ∈ predicates ∧ p.left.binding ∈ bindings ∧ p.right.binding ∈ bindings

end Query
