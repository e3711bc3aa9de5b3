import HyuIte4065.Query.Connect

/-!
# The joiner computes the answer

The loop over the predicates leaves one tree for all bindings, and its solutions are the tuples
of the cross product that qualify.
-/
open Relation (ReflTransGen)

namespace Query

open Enumerate Loops

variable {relations : List Relation} {query : QueryInfo} {containers : Containers}
  {info : SelectInfo} {op : Operator} {rows : List Tuple} {l : List Nat} {t : Tuple}

theorem connected_of_linked {b c : Nat} (h : ReflTransGen (Linked query) b c) : Connected query.predicates b c := by
  induction h with
  | refl => exact .refl _
  | tail _ hlink ih =>
    obtain ⟨q, hq, ⟨rfl, rfl⟩ | ⟨rfl, rfl⟩⟩ := hlink
    · exact .trans _ _ _ ih (.rel _ _ ⟨q, hq, rfl, rfl⟩)
    · exact .trans _ _ _ ih (.symm _ _ (.rel _ _ ⟨q, hq, rfl, rfl⟩))

/-- A binding that a resolved query has connected is one of its bindings. -/
theorem Resolved.lt_of_connected (h : Resolved relations query) {b c : Nat}
    (hbc : Connected query.predicates b c) : b < query.relationIds.length ↔ c < query.relationIds.length := by
  induction hbc with
  | rel b c hbc =>
    obtain ⟨q, hq, rfl, rfl⟩ := hbc
    exact iff_of_true (h.predicates q hq).1.lt (h.predicates q hq).2.lt
  | refl => rfl
  | symm _ _ _ ih => exact ih.symm
  | trans _ _ _ _ _ hbc hcd => exact hbc.trans hcd

/-- The tree of the last predicate has all bindings and all predicates. -/
theorem Resolved.tree (h : Resolved relations query) : ∃ op m, Planted relations query op ∧
    op.bindings = Finset.range query.relationIds.length ∧ (∀ q, q ∈ op.predicates ↔ q ∈ query.predicates) ∧
    (query.predicates.length < 2 ^ 32 → ∀ containers fuel, m ≤ fuel → join containers fuel relations query =
      Checksum.run containers fuel op query.selections >>= printResults) := by
  have hlast := List.getLast?_eq_some_getLast h.joined
  have hp := List.getLast_mem h.joined
  have hrel : ∀ p ∈ query.predicates, p.left.relId < relations.length ∧ p.right.relId < relations.length := by
    intro p hp
    obtain ⟨relation, hl, -⟩ := (h.predicates p hp).1.column
    obtain ⟨relation', hr, -⟩ := (h.predicates p hp).2.column
    exact ⟨(List.getElem?_eq_some_iff.mp hl).1, (List.getElem?_eq_some_iff.mp hr).1⟩
  obtain ⟨state, ⟨m, hm⟩, hprocessed⟩ := joinLoop_processed query hrel
  obtain ⟨r, tree, ds', hroot, hmove, haround⟩ := hprocessed.last hlast
  have hres : ∀ info, Side query.predicates info → query.relationIds[info.binding]? = some info.relId := by
    rintro info ⟨q, hq, rfl | rfl⟩
    · exact (h.predicates q hq).1.resolved
    · exact (h.predicates q hq).2.resolved
  have hcomplete : tree.Complete :=
    haround.complete.mpr fun b _ => introduced_iff.mp h.mentioned b
  have hrange : ∀ b, b ∈ tree.leaves ↔ b < query.relationIds.length := fun b => by
    rw [haround.leaves]
    exact ⟨fun hb => (h.lt_of_connected hb).mp (h.predicates _ hp).1.lt,
      fun hb => connected_of_linked (h.connected _ (h.predicates _ hp).1.lt b hb)⟩
  obtain ⟨op, hop, hplanted, hbindings, hpredicates⟩ := haround.grafted.planted hres hcomplete haround.nodup
  refine ⟨op, m, hplanted, Finset.ext fun b => ?_, fun q => ?_, fun hcounted containers fuel hle => ?_⟩
  · rw [hbindings, hrange, Finset.mem_range]
  · rw [hpredicates, haround.predicates, hrange]
    exact and_iff_left_of_imp fun hq => (h.predicates q hq).1.lt
  · rw [join_of_loop hm hroot hmove hcounted hle, hop]
    rfl

theorem InRange.available (h : InRange relations query info) : Available relations query info := by
  obtain ⟨relation, hbound, -, hlt⟩ := h.bound
  exact ⟨relation, hbound, hlt⟩

/-- `0 1|0.0=1.0&1.1=0.1&0.1>10|1.1 0.0` -/
def parallelEdges : QueryInfo where
  relationIds := [0, 1]
  predicates := [⟨⟨0, 0, 0⟩, ⟨1, 1, 0⟩⟩, ⟨⟨1, 1, 1⟩, ⟨0, 0, 1⟩⟩]
  filters := [⟨⟨0, 0, 1⟩, 10, .greater⟩]
  selections := [⟨1, 1, 1⟩, ⟨0, 0, 0⟩]

end Query
