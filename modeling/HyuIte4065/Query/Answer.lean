import HyuIte4065.Query.Joiner
import HyuIte4065.Library.Enumerate
import Mathlib.Logic.Relation
import Mathlib.Data.Finset.Basic

/-!
# What a query asks for

The cross product of the bound relations, the tuples of it that satisfy all predicates and
filters, and the sums over them. Which queries the joiner is for.
-/
open Relation (ReflTransGen)

namespace Query

open Enumerate

/-- A row number for each binding. -/
abbrev Tuple := Nat → Nat

/-- The different columns that the selections and the predicates name. -/
def QueryInfo.named (query : QueryInfo) : Finset SelectInfo :=
  (query.selections ++ query.predicates.flatMap fun p => [p.left, p.right]).toFinset

/-- The counters, which are of type `unsigned`, can hold the predicates, the selections and the
columns. The scan below a self join is asked for two columns more than there are different ones. -/
structure QueryInfo.Indexable (query : QueryInfo) : Prop where
  predicates : query.predicates.length < 2 ^ 32
  selections : query.selections.length < 2 ^ 32
  columns : query.named.card + 2 ≤ 2 ^ 32

section
variable (relations : List Relation) (query : QueryInfo)

def boundRelation (binding : Nat) : Option Relation :=
  (query.relationIds[binding]?).bind (relations[·]?)

def numRows (binding : Nat) : Nat := (boundRelation relations query binding).elim 0 (·.size)

/-- What stands in a row of the column. -/
def cell (info : SelectInfo) (row : Nat) : Value :=
  (((boundRelation relations query info.binding).bind (·.columns[info.colId]?)).bind (·[row]?)).getD 0

def value (t : Tuple) (info : SelectInfo) : Value := cell relations query info (t info.binding)

def PredicateInfo.holds (p : PredicateInfo) (t : Tuple) : Bool :=
  decide (value relations query t p.left = value relations query t p.right)

def FilterInfo.holds (f : FilterInfo) (t : Tuple) : Bool :=
  match f.comparison with
  | .equal => decide (value relations query t f.filterColumn = f.constant)
  | .greater => decide (value relations query t f.filterColumn > f.constant)
  | .less => decide (value relations query t f.filterColumn < f.constant)

/-- The row that a tuple of the cross product has for a binding. -/
def rowOf (rows : List Nat) : Tuple := fun binding => rows.getD binding 0

def crossProduct : List (List Nat) :=
  ((List.range query.relationIds.length).map fun b => List.range (numRows relations query b)).sections

/-- The tuples that satisfy every predicate and every filter. -/
def qualifying : List (List Nat) :=
  (crossProduct relations query).filter fun rows =>
    query.predicates.all (fun p => p.holds relations query (rowOf rows)) &&
    query.filters.all (fun f => f.holds relations query (rowOf rows))

/-- For each selection the sum modulo `2^64`, or `NULL` if no tuple qualifies. -/
def answer : String :=
  String.intercalate " " (query.selections.map fun sInfo =>
    if qualifying relations query = [] then "NULL"
    else toString (((qualifying relations query).map fun rows =>
      value relations query (rowOf rows) sInfo).sum).toNat) ++ "\n"

structure InRange (info : SelectInfo) : Prop where
  resolved : query.relationIds[info.binding]? = some info.relId
  column : ∃ relation, relations[info.relId]? = some relation ∧
    info.colId < relation.columns.length

/-- A predicate compares columns of the two bindings. -/
def Linked (b c : Nat) : Prop :=
  ∃ p ∈ query.predicates, (p.left.binding = b ∧ p.right.binding = c) ∨
    (p.right.binding = b ∧ p.left.binding = c)

/-- A resolved query: every id is in range, the predicates connect all bindings, and a
predicate within one binding is not the first one to mention it. -/
structure Resolved : Prop where
  predicates : ∀ p ∈ query.predicates, InRange relations query p.left ∧ InRange relations query p.right
  filters : ∀ f ∈ query.filters, InRange relations query f.filterColumn
  selections : ∀ sInfo ∈ query.selections, InRange relations query sInfo
  joined : query.predicates ≠ []
  connected : ∀ b < query.relationIds.length, ∀ c < query.relationIds.length,
    ReflTransGen (Linked query) b c
  mentioned : ∀ before p after, query.predicates = before ++ p :: after →
    p.left.binding = p.right.binding →
    ∃ p' ∈ before, p'.left.binding = p.left.binding ∨ p'.right.binding = p.left.binding

end

variable {relations : List Relation} {query : QueryInfo} {info : SelectInfo} {f : FilterInfo}
  {p : PredicateInfo} {t u : Tuple}

/-- A column of a bound relation, cell by cell. -/
theorem columns_get {relation : Relation} (hb : boundRelation relations query info.binding = some relation)
    (hcol : info.colId < relation.columns.length) :
    relation.columns[info.colId]? = some ((List.range relation.size).map (cell relations query info)) := by
  have hget := List.getElem?_eq_getElem hcol
  rw [hget, Option.some.injEq]
  refine List.ext_getElem ?_ fun i h₁ h₂ => ?_
  · rw [List.length_map, List.length_range]
    exact relation.rectangular _ (List.getElem_mem hcol)
  · simp only [List.getElem_map, List.getElem_range, cell, hb, Option.bind_some, hget]
    rw [List.getElem?_eq_getElem h₁, Option.getD_some]

theorem InRange.bound (h : InRange relations query info) :
    ∃ relation, boundRelation relations query info.binding = some relation ∧
      relations[info.relId]? = some relation ∧ info.colId < relation.columns.length := by
  obtain ⟨relation, hrel, hcol⟩ := h.column
  refine ⟨relation, ?_, hrel, hcol⟩
  rw [boundRelation, h.resolved, Option.bind_some, hrel]

theorem numRows_eq {relation : Relation} {binding : Nat}
    (h : boundRelation relations query binding = some relation) :
    numRows relations query binding = relation.size := by rw [numRows, h]; rfl

theorem value_congr (h : t info.binding = u info.binding) :
    value relations query t info = value relations query u info := by rw [value, value, h]

theorem filter_congr (h : t f.filterColumn.binding = u f.filterColumn.binding) :
    f.holds relations query t = f.holds relations query u := by
  rw [FilterInfo.holds, FilterInfo.holds, value_congr h]

end Query
