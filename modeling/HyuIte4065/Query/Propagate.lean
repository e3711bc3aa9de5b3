import HyuIte4065.Query.Answer
import HyuIte4065.Library.Worklist

/-!
# Filter propagation

`QueryInfo::propagateFilters` of `Parser.cpp`, where `filter` has the value of `filters[i]`
throughout a turn. The counter is an `int`: it must not get past `2^31 - 1`.
-/
open Relation (ReflTransGen)

namespace Query

open Loops Worklist

/-- The same comparison and constant on another column. -/
def FilterInfo.on (f : FilterInfo) (column : SelectInfo) : FilterInfo := { f with filterColumn := column }

/-- Two columns that a predicate equates. -/
def Equated (predicates : List PredicateInfo) (c d : SelectInfo) : Prop :=
  ∃ p ∈ predicates, (p.left = c ∧ p.right = d) ∨ (p.right = c ∧ p.left = d)

namespace QueryInfo

/-- The filter says of its column what a filter of the query says of a column that a chain of
predicates equates with it. -/
def Derived (query : QueryInfo) (f : FilterInfo) : Prop :=
  ∃ f₀ ∈ query.filters, ∃ column,
    ReflTransGen (Equated query.predicates) f₀.filterColumn column ∧ f = f₀.on column

/-- The query with all derived filters: the old ones first, then each new one once. -/
structure Propagated (query query' : QueryInfo) : Prop where
  relationIds : query'.relationIds = query.relationIds
  predicates : query'.predicates = query.predicates
  selections : query'.selections = query.selections
  filters : ∃ added, query'.filters = query.filters ++ added ∧ added.Nodup ∧ ∀ f ∈ added, f ∉ query.filters
  derived : ∀ f, f ∈ query'.filters ↔ query.Derived f

end QueryInfo

variable {query query' : QueryInfo} {predicates : List PredicateInfo} {f g : FilterInfo}
  {c d : SelectInfo} {fuel : Nat}

@[simp] theorem on_filterColumn (f : FilterInfo) (c : SelectInfo) : (f.on c).filterColumn = c := rfl
@[simp] theorem on_on (f : FilterInfo) (c d : SelectInfo) : (f.on c).on d = f.on d := rfl
@[simp] theorem on_self (f : FilterInfo) : f.on f.filterColumn = f := rfl

section Meaning

variable {relations : List Relation} {t : Tuple}

theorem equated_value (hp : ∀ p ∈ predicates, p.holds relations query t = true)
    (h : ReflTransGen (Equated predicates) c d) :
    value relations query t c = value relations query t d := by
  induction h with
  | refl => rfl
  | tail _ hlink ih =>
    obtain ⟨p, hmem, hends⟩ := hlink
    have heq : value relations query t p.left = value relations query t p.right :=
      of_decide_eq_true (hp p hmem)
    rcases hends with ⟨rfl, rfl⟩ | ⟨rfl, rfl⟩
    · rw [ih, heq]
    · rw [ih, heq]

theorem on_holds (h : value relations query t c = value relations query t f.filterColumn) :
    (f.on c).holds relations query t = f.holds relations query t := by
  simp only [FilterInfo.holds, FilterInfo.on, h]

/-- A tuple that satisfies all predicates satisfies the new filters if it satisfies the old ones. -/
theorem QueryInfo.Propagated.holds (h : query.Propagated query')
    (hp : ∀ p ∈ query.predicates, p.holds relations query t = true) :
    (∀ f ∈ query'.filters, f.holds relations query t = true) ↔
      ∀ f ∈ query.filters, f.holds relations query t = true := by
  obtain ⟨added, hadded, -, -⟩ := h.filters
  constructor
  · exact fun hall f hf => hall f (hadded ▸ List.mem_append_left added hf)
  · intro hall f hf
    obtain ⟨f₀, hf₀, column, hchain, rfl⟩ := (h.derived f).mp hf
    rw [on_holds (equated_value hp hchain).symm]
    exact hall f₀ hf₀

end Meaning

end Query
