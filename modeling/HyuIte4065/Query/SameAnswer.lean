import HyuIte4065.Query.AnyQuery
import HyuIte4065.Query.Propagate
import HyuIte4065.Query.Parser

/-!
# What filter propagation keeps

A new filter says nothing more about the solutions: the predicates of its chain are all in the
component of its column. So `Joiner::join` prints the same for both queries, or nothing for either.
-/
open Relation (ReflTransGen)

namespace Query

open Loops Enumerate

variable {relations : List Relation} {query query' : QueryInfo} {bindings : Finset Nat}
  {predicates : List PredicateInfo} {c d : SelectInfo} {containers : Containers} {text : String}

theorem resolveIds_resolved {relationIds : List RelationId} {info info' : SelectInfo}
    (h : resolveIds relationIds info = .ok info') : relationIds[info'.binding]? = some info'.relId := by
  obtain ⟨relId, helement, h⟩ := ok_of_bind h
  cases h
  exact element_eq_ok helement

/-- `resolveRelationIds` leaves a resolved query. -/
theorem QueryInfo.resolveRelationIds_idsResolved (h : query.resolveRelationIds = .ok query') :
    query'.IdsResolved := by
  obtain ⟨selections, hselections, h⟩ := ok_of_bind h
  obtain ⟨predicates, hpredicates, h⟩ := ok_of_bind h
  obtain ⟨filters, hfilters, h⟩ := ok_of_bind h
  cases h
  refine ⟨fun p hp => ?_, fun f hf => ?_, fun s hs => ?_⟩
  · obtain ⟨p₀, _, hp⟩ := mapM_yields hpredicates p hp
    obtain ⟨left, hleft, hp⟩ := ok_of_bind hp
    obtain ⟨right, hright, hp⟩ := ok_of_bind hp
    cases hp
    exact ⟨resolveIds_resolved hleft, resolveIds_resolved hright⟩
  · obtain ⟨f₀, _, hf⟩ := mapM_yields hfilters f hf
    obtain ⟨column, hcolumn, hf⟩ := ok_of_bind hf
    cases hf
    exact resolveIds_resolved hcolumn
  · obtain ⟨s₀, _, hs⟩ := mapM_yields hselections s hs
    exact resolveIds_resolved hs

/-- A chain of predicates that ends in the component lies in it. -/
theorem Component.chain (h : Component query bindings predicates)
    (hchain : ReflTransGen (Equated query.predicates) c d) (hd : d.binding ∈ bindings) :
    ReflTransGen (Equated predicates) c d ∧ c.binding ∈ bindings := by
  induction hchain with
  | refl => exact ⟨.refl, hd⟩
  | @tail b d _ hlink ih =>
    obtain ⟨p, hp, hends⟩ := hlink
    rcases hends with ⟨rfl, rfl⟩ | ⟨rfl, rfl⟩
    · obtain ⟨hmem, hl, -⟩ := h.closed p hp (.inr hd)
      obtain ⟨hchain, hc⟩ := ih hl
      exact ⟨hchain.tail ⟨p, hmem, .inl ⟨rfl, rfl⟩⟩, hc⟩
    · obtain ⟨hmem, -, hr⟩ := h.closed p hp (.inl hd)
      obtain ⟨hchain, hc⟩ := ih hr
      exact ⟨hchain.tail ⟨p, hmem, .inr ⟨rfl, rfl⟩⟩, hc⟩

namespace QueryInfo.Propagated

theorem subset (h : query.Propagated query') {f : FilterInfo} (hf : f ∈ query.filters) :
    f ∈ query'.filters := by
  obtain ⟨added, hadded, -, -⟩ := h.filters
  rw [hadded]
  exact List.mem_append_left added hf

theorem eq (h : query.Propagated query') : query' = { query with filters := query'.filters } := by
  obtain ⟨hids, hpredicates, hselections, -, -⟩ := h
  cases query'
  cases hids
  cases hpredicates
  cases hselections
  rfl

end QueryInfo.Propagated

end Query
