import HyuIte4065.Query.RoundTrip

/-!
# The indices of the parser

Which texts make `parseQuery` index outside a vector. `parseRelColPair` never asks how many
numbers it read, and `resolveIds` never asks how many relations there are.
-/
namespace Query

open Loops

variable {raw left right rawPredicate : Text} {ids : List Nat} {b : Nat} {e : Stop}

/-- The text of a column of the relation bound at `b`; further numbers are ignored. -/
def IsColumn (raw : Text) (b : Nat) : Prop := ∃ colId rest, splitNumbers raw '.' = .ok (b :: colId :: rest)

def Readable (raw : Text) : Prop := ∃ b, IsColumn raw b

/-- Fewer numbers than a column has, and nothing that is no number. -/
def TooShort (raw : Text) : Prop := ∃ ids, splitNumbers raw '.' = .ok ids ∧ ids.length < 2

/-- The two sides that the asserts of `parsePredicate` let through. -/
def HasSides (rawPredicate left right : Text) : Prop :=
  splitPredicates rawPredicate = [left, right] ∧ isConstant left = false

def PredicateReadable (rawPredicate : Text) : Prop :=
  ∃ left right, HasSides rawPredicate left right ∧ Readable left ∧
    if isConstant right then ∃ constant, stoul right = .ok constant else Readable right

def PredicateTooShort (rawPredicate : Text) : Prop :=
  ∃ left right, HasSides rawPredicate left right ∧
    (TooShort left ∨ Readable left ∧ isConstant right = false ∧ TooShort right)

/-- One of the sides is a column of the relation bound at `b`. -/
def PredicateBinds (rawPredicate : Text) (b : Nat) : Prop :=
  ∃ left right, HasSides rawPredicate left right ∧
    (IsColumn left b ∨ isConstant right = false ∧ IsColumn right b)

/-- Nothing is too short before something else stops the parser, and if nothing stops it then
every binding is that of a relation. -/
structure PartsInRange (relationIds : List RelationId) (rawPredicates rawSelections : List Text) :
    Prop where
  predicates : ¬FirstBad PredicateReadable PredicateTooShort rawPredicates
  selections : (∀ p ∈ rawPredicates, PredicateReadable p) →
    ¬FirstBad Readable TooShort rawSelections
  bindings : (∀ p ∈ rawPredicates, PredicateReadable p) → (∀ s ∈ rawSelections, Readable s) →
    ∀ b, (∃ p ∈ rawPredicates, PredicateBinds p b) ∨ (∃ s ∈ rawSelections, IsColumn s b) →
      b < relationIds.length

def IndicesInRange (rawQuery : Text) : Prop :=
  ∀ rawRelations rawPredicates rawSelections relationIds,
    splitString rawQuery '|' = [rawRelations, rawPredicates, rawSelections] →
    splitNumbers rawRelations ' ' = .ok relationIds →
    PartsInRange relationIds (splitString rawPredicates '&') (splitString rawSelections ' ')

theorem stoul_ne_index (token : Text) : stoul token ≠ .error .index := by
  unfold stoul
  intro h
  dsimp only at h
  split at h
  · cases h
  split at h <;> cases h

theorem splitNumbers_ne_index (line : Text) (delimiter : Char) :
    splitNumbers line delimiter ≠ .error .index := fun h => by
  obtain ⟨token, _, htoken⟩ := mapM_stops h
  rcases error_of_bind htoken with hstop | ⟨value, _, hvalue⟩
  · exact stoul_ne_index token hstop
  · cases hvalue

theorem parseRelColPair_ok {info : SelectInfo} (h : parseRelColPair raw = .ok info) :
    ∃ rest, splitNumbers raw '.' = .ok (info.binding :: info.colId :: rest) := by
  obtain ⟨ids, hids, h⟩ := ok_of_bind h
  obtain ⟨binding, hb, h⟩ := ok_of_bind h
  obtain ⟨colId, hc, h⟩ := ok_of_bind h
  cases h
  rcases ids with _ | ⟨b, _ | ⟨c, rest⟩⟩
  · cases hb
  · cases hc
  · cases hb
    cases hc
    exact ⟨rest, hids⟩

theorem parseRelColPair_column (h : IsColumn raw b) :
    ∃ info, parseRelColPair raw = .ok info ∧ info.binding = b := by
  obtain ⟨colId, rest, hids⟩ := h
  refine ⟨⟨0, b, colId⟩, ?_, rfl⟩
  rw [parseRelColPair, hids]
  rfl

theorem parseRelColPair_ok_iff : (∃ info, parseRelColPair raw = .ok info) ↔ Readable raw := by
  constructor
  · rintro ⟨info, h⟩
    obtain ⟨rest, hids⟩ := parseRelColPair_ok h
    exact ⟨info.binding, info.colId, rest, hids⟩
  · rintro ⟨b, hb⟩
    obtain ⟨info, hinfo, _⟩ := parseRelColPair_column hb
    exact ⟨info, hinfo⟩

theorem isColumn_iff {info : SelectInfo} (h : parseRelColPair raw = .ok info) :
    IsColumn raw b ↔ info.binding = b := by
  constructor
  · intro hb
    obtain ⟨info', hinfo, hbinding⟩ := parseRelColPair_column hb
    rw [h] at hinfo
    cases hinfo
    exact hbinding
  · rintro rfl
    obtain ⟨rest, hids⟩ := parseRelColPair_ok h
    exact ⟨info.colId, rest, hids⟩

theorem parseRelColPair_index_iff : parseRelColPair raw = .error .index ↔ TooShort raw := by
  constructor
  · intro h
    rcases error_of_bind h with hstop | ⟨ids, hids, h⟩
    · exact absurd hstop (splitNumbers_ne_index raw '.')
    refine ⟨ids, hids, ?_⟩
    rcases error_of_bind h with hb | ⟨binding, _, h⟩
    · have hlen := (element_error hb).2
      omega
    rcases error_of_bind h with hc | ⟨colId, _, h⟩
    · have hlen := (element_error hc).2
      omega
    · cases h
  · rintro ⟨ids, hids, hlen⟩
    rw [parseRelColPair, hids]
    rcases ids with _ | ⟨b, _ | ⟨c, rest⟩⟩
    · rfl
    · rfl
    · exact absurd hlen (by simp)

/-- The character behind the left side is there. -/
theorem element_compType (h : splitPredicates rawPredicate = [left, right]) :
    ∃ compType, element rawPredicate left.length = .ok compType := by
  have hlt : left.length < rawPredicate.length := by
    unfold splitPredicates at h
    split at h
    · exact Pieces.length_lt_of_cut h
    · cases h
  exact ⟨rawPredicate[left.length], by rw [element, List.getElem?_eq_getElem hlt]⟩

namespace QueryInfo

variable {query query' : QueryInfo}

theorem parsePredicate_sides (h : HasSides rawPredicate left right) (query : QueryInfo) :
    query.parsePredicate rawPredicate = (do
      let leftSelect ← parseRelColPair left
      if isConstant right then
        let constant ← stoul right
        let compType ← element rawPredicate left.length
        return { query with filters := query.filters ++ [⟨leftSelect, constant, .ofChar compType⟩] }
      else
        return { query with
          predicates := query.predicates ++ [⟨leftSelect, ← parseRelColPair right⟩] }) := by
  rw [parsePredicate, h.1]
  simp only [h.2]
  rfl

theorem parsePredicate_without (h : ¬∃ left right, HasSides rawPredicate left right)
    (query : QueryInfo) : query.parsePredicate rawPredicate = .error .assertion := by
  unfold parsePredicate
  split
  · next left right hsplit =>
    refine if_pos ?_
    by_contra hleft
    exact h ⟨left, right, hsplit, Bool.eq_false_iff.mpr hleft⟩
  · rfl

theorem parsePredicate_ok (h : query.parsePredicate rawPredicate = .ok query') :
    ∃ left right leftSelect, HasSides rawPredicate left right ∧
      parseRelColPair left = .ok leftSelect ∧
      ((isConstant right = true ∧ ∃ constant comparison, stoul right = .ok constant ∧
          query' = { query with filters := query.filters ++ [⟨leftSelect, constant, comparison⟩] }) ∨
        (isConstant right = false ∧ ∃ rightSelect, parseRelColPair right = .ok rightSelect ∧
          query' = { query with predicates := query.predicates ++ [⟨leftSelect, rightSelect⟩] })) := by
  by_cases hsides : ∃ left right, HasSides rawPredicate left right
  · obtain ⟨left, right, hs⟩ := hsides
    rw [parsePredicate_sides hs] at h
    obtain ⟨leftSelect, hleft, h⟩ := ok_of_bind h
    refine ⟨left, right, leftSelect, hs, hleft, ?_⟩
    split at h
    · next hconstant =>
      obtain ⟨constant, hvalue, h⟩ := ok_of_bind h
      obtain ⟨compType, _, h⟩ := ok_of_bind h
      cases h
      exact .inl ⟨hconstant, constant, _, hvalue, rfl⟩
    · next hconstant =>
      obtain ⟨rightSelect, hright, h⟩ := ok_of_bind h
      cases h
      exact .inr ⟨Bool.eq_false_iff.mpr hconstant, rightSelect, hright, rfl⟩
  · rw [parsePredicate_without hsides] at h
    cases h

theorem parsePredicate_ok_iff (query : QueryInfo) (rawPredicate : Text) :
    (∃ query', query.parsePredicate rawPredicate = .ok query') ↔ PredicateReadable rawPredicate := by
  constructor
  · rintro ⟨query', h⟩
    obtain ⟨left, right, leftSelect, hs, hleft, hright⟩ := parsePredicate_ok h
    refine ⟨left, right, hs, parseRelColPair_ok_iff.mp ⟨leftSelect, hleft⟩, ?_⟩
    rcases hright with ⟨hconstant, constant, _, hvalue, _⟩ | ⟨hconstant, rightSelect, hright, _⟩
    · rw [if_pos hconstant]
      exact ⟨constant, hvalue⟩
    · rw [if_neg (Bool.eq_false_iff.mp hconstant)]
      exact parseRelColPair_ok_iff.mp ⟨rightSelect, hright⟩
  · rintro ⟨left, right, hs, hleft, hright⟩
    obtain ⟨leftSelect, hleft⟩ := parseRelColPair_ok_iff.mpr hleft
    obtain ⟨compType, hcomp⟩ := element_compType hs.1
    rw [parsePredicate_sides hs, hleft]
    split at hright
    · next hconstant =>
      obtain ⟨constant, hvalue⟩ := hright
      rw [hvalue, hcomp]
      exact ⟨_, if_pos hconstant⟩
    · next hconstant =>
      obtain ⟨rightSelect, hright⟩ := parseRelColPair_ok_iff.mpr hright
      rw [hright]
      exact ⟨_, if_neg hconstant⟩

theorem parsePredicate_index_iff (query : QueryInfo) (rawPredicate : Text) :
    query.parsePredicate rawPredicate = .error .index ↔ PredicateTooShort rawPredicate := by
  constructor
  · intro h
    by_cases hsides : ∃ left right, HasSides rawPredicate left right
    · obtain ⟨left, right, hs⟩ := hsides
      rw [parsePredicate_sides hs] at h
      refine ⟨left, right, hs, ?_⟩
      rcases error_of_bind h with hstop | ⟨leftSelect, hleft, h⟩
      · exact .inl (parseRelColPair_index_iff.mp hstop)
      refine .inr ⟨parseRelColPair_ok_iff.mp ⟨leftSelect, hleft⟩, ?_⟩
      split at h
      · rcases error_of_bind h with hstop | ⟨constant, _, h⟩
        · exact absurd hstop (stoul_ne_index right)
        obtain ⟨compType, hcomp⟩ := element_compType hs.1
        rw [hcomp] at h
        cases h
      · next hconstant =>
        rcases error_of_bind h with hstop | ⟨rightSelect, _, h⟩
        · exact ⟨Bool.eq_false_iff.mpr hconstant, parseRelColPair_index_iff.mp hstop⟩
        · cases h
    · rw [parsePredicate_without hsides] at h
      cases h
  · rintro ⟨left, right, hs, hshort⟩
    rw [parsePredicate_sides hs]
    rcases hshort with hleft | ⟨hleft, hconstant, hright⟩
    · rw [parseRelColPair_index_iff.mpr hleft]
      rfl
    · obtain ⟨leftSelect, hleft⟩ := parseRelColPair_ok_iff.mpr hleft
      rw [hleft]
      refine (if_neg (Bool.eq_false_iff.mp hconstant)).trans ?_
      rw [parseRelColPair_index_iff.mpr hright]
      rfl

/-- The columns that will be resolved. -/
def columns (query : QueryInfo) : List SelectInfo :=
  query.selections ++ query.predicates.flatMap (fun pInfo => [pInfo.left, pInfo.right]) ++
    query.filters.map (·.filterColumn)

def Binds (query : QueryInfo) (b : Nat) : Prop := ∃ info ∈ query.columns, info.binding = b

theorem parsePredicate_binds (h : query.parsePredicate rawPredicate = .ok query') (b : Nat) :
    query'.Binds b ↔ query.Binds b ∨ PredicateBinds rawPredicate b := by
  obtain ⟨left, right, leftSelect, hs, hleft, hright⟩ := parsePredicate_ok h
  have hbinds : PredicateBinds rawPredicate b ↔
      IsColumn left b ∨ isConstant right = false ∧ IsColumn right b := by
    refine ⟨?_, fun hside => ⟨left, right, hs, hside⟩⟩
    rintro ⟨left', right', hs', hside⟩
    have heq := hs.1.symm.trans hs'.1
    simp only [List.cons.injEq, and_true] at heq
    rwa [heq.1, heq.2]
  rw [hbinds, isColumn_iff hleft]
  rcases hright with ⟨hconstant, constant, comparison, _, rfl⟩ | ⟨hconstant, rightSelect, hright, rfl⟩
  · simp [Binds, columns, hconstant, or_and_right, exists_or, or_assoc]
  · rw [isColumn_iff hright]
    simp [Binds, columns, hconstant, or_and_right, exists_or, or_assoc, or_left_comm, or_comm]

theorem parsePredicate_relationIds (h : query.parsePredicate rawPredicate = .ok query') :
    query'.relationIds = query.relationIds := by
  obtain ⟨_, _, _, _, _, hright⟩ := parsePredicate_ok h
  rcases hright with ⟨_, _, _, _, rfl⟩ | ⟨_, _, _, rfl⟩ <;> rfl

theorem parseSelection_ok (h : query.parseSelection raw = .ok query') :
    ∃ info, parseRelColPair raw = .ok info ∧
      query' = { query with selections := query.selections ++ [info] } := by
  obtain ⟨info, hinfo, h⟩ := ok_of_bind h
  cases h
  exact ⟨info, hinfo, rfl⟩

theorem parseSelection_relationIds (h : query.parseSelection raw = .ok query') :
    query'.relationIds = query.relationIds := by
  obtain ⟨info, _, rfl⟩ := parseSelection_ok h
  rfl

theorem parseSelection_ok_iff (query : QueryInfo) (raw : Text) :
    (∃ query', query.parseSelection raw = .ok query') ↔ Readable raw := by
  rw [← parseRelColPair_ok_iff]
  constructor
  · rintro ⟨query', h⟩
    obtain ⟨info, hinfo, _⟩ := parseSelection_ok h
    exact ⟨info, hinfo⟩
  · rintro ⟨info, hinfo⟩
    rw [parseSelection, hinfo]
    exact ⟨_, rfl⟩

theorem parseSelection_index_iff (query : QueryInfo) (raw : Text) :
    query.parseSelection raw = .error .index ↔ TooShort raw := by
  rw [← parseRelColPair_index_iff]
  constructor
  · intro h
    rcases error_of_bind h with hstop | ⟨info, _, h⟩
    · exact hstop
    · cases h
  · intro hstop
    rw [parseSelection, hstop]
    rfl

theorem parseSelection_binds (h : query.parseSelection raw = .ok query') (b : Nat) :
    query'.Binds b ↔ query.Binds b ∨ IsColumn raw b := by
  obtain ⟨info, hinfo, rfl⟩ := parseSelection_ok h
  rw [isColumn_iff hinfo]
  simp [Binds, columns, or_and_right, exists_or, or_left_comm, or_comm]

end QueryInfo

section Resolve

variable {relationIds : List RelationId}

theorem resolveIds_ok {info info' : SelectInfo} (h : resolveIds relationIds info = .ok info') :
    info.binding < relationIds.length := by
  obtain ⟨relId, hget, _⟩ := ok_of_bind h
  exact element_lt hget

theorem resolveIds_error {info : SelectInfo} (h : resolveIds relationIds info = .error e) :
    e = .index ∧ relationIds.length ≤ info.binding := by
  rcases error_of_bind h with hget | ⟨relId, _, h⟩
  · exact element_error hget
  · cases h

theorem PredicateInfo.resolveIds_ok {pInfo pInfo' : PredicateInfo}
    (h : pInfo.resolveIds relationIds = .ok pInfo') :
    ∀ info ∈ [pInfo.left, pInfo.right], info.binding < relationIds.length := by
  obtain ⟨left, hleft, h⟩ := ok_of_bind h
  obtain ⟨right, hright, _⟩ := ok_of_bind h
  simpa using ⟨Query.resolveIds_ok hleft, Query.resolveIds_ok hright⟩

theorem PredicateInfo.resolveIds_error {pInfo : PredicateInfo}
    (h : pInfo.resolveIds relationIds = .error e) :
    e = .index ∧ ∃ info ∈ [pInfo.left, pInfo.right], relationIds.length ≤ info.binding := by
  rcases error_of_bind h with hleft | ⟨left, _, h⟩
  · have hstop := Query.resolveIds_error hleft
    exact ⟨hstop.1, pInfo.left, by simp, hstop.2⟩
  rcases error_of_bind h with hright | ⟨right, _, h⟩
  · have hstop := Query.resolveIds_error hright
    exact ⟨hstop.1, pInfo.right, by simp, hstop.2⟩
  · cases h

theorem FilterInfo.resolveIds_ok {fInfo fInfo' : FilterInfo}
    (h : fInfo.resolveIds relationIds = .ok fInfo') :
    fInfo.filterColumn.binding < relationIds.length := by
  obtain ⟨column, hcolumn, _⟩ := ok_of_bind h
  exact Query.resolveIds_ok hcolumn

theorem FilterInfo.resolveIds_error {fInfo : FilterInfo}
    (h : fInfo.resolveIds relationIds = .error e) :
    e = .index ∧ relationIds.length ≤ fInfo.filterColumn.binding := by
  rcases error_of_bind h with hcolumn | ⟨column, _, h⟩
  · exact Query.resolveIds_error hcolumn
  · cases h

end Resolve

namespace QueryInfo

variable {query query' : QueryInfo}

theorem mem_columns {info : SelectInfo} : info ∈ query.columns ↔ info ∈ query.selections ∨
    (∃ pInfo ∈ query.predicates, info ∈ [pInfo.left, pInfo.right]) ∨
      ∃ fInfo ∈ query.filters, fInfo.filterColumn = info := by
  simp [columns]

theorem resolveRelationIds_ok (h : query.resolveRelationIds = .ok query') :
    ∀ b, query.Binds b → b < query.relationIds.length := by
  obtain ⟨selections, hselections, h⟩ := ok_of_bind h
  obtain ⟨predicates, hpredicates, h⟩ := ok_of_bind h
  obtain ⟨filters, hfilters, _⟩ := ok_of_bind h
  rintro b ⟨info, hinfo, rfl⟩
  rcases mem_columns.mp hinfo with hsel | ⟨pInfo, hp, hside⟩ | ⟨fInfo, hf, rfl⟩
  · obtain ⟨info', hok⟩ := mapM_turns hselections info hsel
    exact resolveIds_ok hok
  · obtain ⟨pInfo', hok⟩ := mapM_turns hpredicates pInfo hp
    exact PredicateInfo.resolveIds_ok hok info hside
  · obtain ⟨fInfo', hok⟩ := mapM_turns hfilters fInfo hf
    exact FilterInfo.resolveIds_ok hok

theorem resolveRelationIds_error (h : query.resolveRelationIds = .error e) :
    e = .index ∧ ∃ b, query.Binds b ∧ query.relationIds.length ≤ b := by
  rcases error_of_bind h with hselections | ⟨selections, _, h⟩
  · obtain ⟨info, hsel, hstop⟩ := mapM_stops hselections
    have hlong := resolveIds_error hstop
    exact ⟨hlong.1, info.binding, ⟨info, mem_columns.mpr (.inl hsel), rfl⟩, hlong.2⟩
  rcases error_of_bind h with hpredicates | ⟨predicates, _, h⟩
  · obtain ⟨pInfo, hp, hstop⟩ := mapM_stops hpredicates
    obtain ⟨he, info, hside, hlong⟩ := PredicateInfo.resolveIds_error hstop
    exact ⟨he, info.binding, ⟨info, mem_columns.mpr (.inr (.inl ⟨pInfo, hp, hside⟩)), rfl⟩, hlong⟩
  rcases error_of_bind h with hfilters | ⟨filters, _, h⟩
  · obtain ⟨fInfo, hf, hstop⟩ := mapM_stops hfilters
    have hlong := FilterInfo.resolveIds_error hstop
    exact ⟨hlong.1, fInfo.filterColumn.binding,
      ⟨fInfo.filterColumn, mem_columns.mpr (.inr (.inr ⟨fInfo, hf, rfl⟩)), rfl⟩, hlong.2⟩
  · cases h

theorem resolveRelationIds_index_iff (query : QueryInfo) :
    query.resolveRelationIds ≠ .error .index ↔ ∀ b, query.Binds b → b < query.relationIds.length := by
  cases h : query.resolveRelationIds with
  | ok query' => exact ⟨fun _ => resolveRelationIds_ok h, fun _ he => by cases he⟩
  | error e =>
    obtain ⟨rfl, b, hb, hlong⟩ := resolveRelationIds_error h
    exact ⟨fun hne => absurd rfl hne, fun hall => absurd (hall b hb) (by omega)⟩

theorem parsePredicates_relationIds (h : query.parsePredicates raw = .ok query') :
    query'.relationIds = query.relationIds :=
  foldlM_keeps (I := fun q => q.relationIds = query.relationIds)
    (fun _ _ _ hturn hq => (parsePredicate_relationIds hturn).trans hq) h rfl

theorem parsePredicates_binds (h : query.parsePredicates raw = .ok query') (b : Nat) :
    query'.Binds b ↔ query.Binds b ∨ ∃ p ∈ splitString raw '&', PredicateBinds p b :=
  foldlM_collects h (fun _ _ _ => parsePredicate_binds) b

theorem parseSelections_relationIds (h : query.parseSelections raw = .ok query') :
    query'.relationIds = query.relationIds :=
  foldlM_keeps (I := fun q => q.relationIds = query.relationIds)
    (fun _ _ _ hturn hq => (parseSelection_relationIds hturn).trans hq) h rfl

theorem parseSelections_binds (h : query.parseSelections raw = .ok query') (b : Nat) :
    query'.Binds b ↔ query.Binds b ∨ ∃ s ∈ splitString raw ' ', IsColumn s b :=
  foldlM_collects h (fun _ _ _ => parseSelection_binds) b

/-- What follows the relation ids, which are read first. -/
theorem parts_index_iff (hcolumns : ∀ b, ¬query.Binds b) (rawPredicates rawSelections : Text) :
    (query.parsePredicates rawPredicates >>= fun query =>
        query.parseSelections rawSelections >>= resolveRelationIds) ≠ .error .index ↔
      PartsInRange query.relationIds (splitString rawPredicates '&')
        (splitString rawSelections ' ') := by
  have hpredicates := foldlM_error_iff parsePredicate_ok_iff parsePredicate_index_iff
    (splitString rawPredicates '&') query
  have hselections := foldlM_error_iff parseSelection_ok_iff parseSelection_index_iff
    (splitString rawSelections ' ')
  have hbound : ∀ query₂ query₃, query.parsePredicates rawPredicates = .ok query₂ →
      query₂.parseSelections rawSelections = .ok query₃ →
      query₃.relationIds = query.relationIds ∧ ∀ b, query₃.Binds b ↔
        (∃ p ∈ splitString rawPredicates '&', PredicateBinds p b) ∨
          ∃ s ∈ splitString rawSelections ' ', IsColumn s b := by
    intro query₂ query₃ h₂ h₃
    refine ⟨(parseSelections_relationIds h₃).trans (parsePredicates_relationIds h₂), fun b => ?_⟩
    rw [parseSelections_binds h₃, parsePredicates_binds h₂]
    simp [hcolumns b]
  rw [bind_ne_error_iff]
  constructor
  · rintro ⟨hnone, hrest⟩
    refine ⟨fun hbad => hnone (hpredicates.mpr hbad), fun hall hbad => ?_,
      fun hall hall' b hb => ?_⟩
    · obtain ⟨query₂, h₂⟩ := (foldlM_ok_iff parsePredicate_ok_iff _ query).mpr hall
      exact (bind_ne_error_iff.mp (hrest query₂ h₂)).1 ((hselections query₂).mpr hbad)
    · obtain ⟨query₂, h₂⟩ := (foldlM_ok_iff parsePredicate_ok_iff _ query).mpr hall
      obtain ⟨query₃, h₃⟩ := (foldlM_ok_iff parseSelection_ok_iff _ query₂).mpr hall'
      obtain ⟨hkept, hbinds⟩ := hbound query₂ query₃ h₂ h₃
      have hresolve := (bind_ne_error_iff.mp (hrest query₂ h₂)).2 query₃ h₃
      rw [← hkept]
      exact (resolveRelationIds_index_iff query₃).mp hresolve b ((hbinds b).mpr hb)
  · intro h
    refine ⟨fun hbad => h.predicates (hpredicates.mp hbad), fun query₂ h₂ => ?_⟩
    have hall := (foldlM_ok_iff parsePredicate_ok_iff _ query).mp ⟨query₂, h₂⟩
    refine bind_ne_error_iff.mpr
      ⟨fun hbad => h.selections hall ((hselections query₂).mp hbad), fun query₃ h₃ => ?_⟩
    have hall' := (foldlM_ok_iff parseSelection_ok_iff _ query₂).mp ⟨query₃, h₃⟩
    obtain ⟨hkept, hbinds⟩ := hbound query₂ query₃ h₂ h₃
    rw [resolveRelationIds_index_iff, hkept]
    exact fun b hb => h.bindings hall hall' b ((hbinds b).mp hb)

/-- The indices of the parser are in range exactly for these texts. -/
theorem parseQuery_in_range_iff (rawQuery : Text) :
    parseQuery rawQuery ≠ .error .index ↔ IndicesInRange rawQuery := by
  unfold parseQuery IndicesInRange
  split
  · next rawRelations rawPredicates rawSelections hsplit =>
    rw [hsplit]
    cases hids : splitNumbers rawRelations ' ' with
    | error e =>
      have he : e ≠ .index := by
        rintro rfl
        exact splitNumbers_ne_index rawRelations ' ' hids
      rw [parseRelationIds, hids]
      constructor
      · rintro _ _ _ _ relationIds ⟨⟩ hok
        rw [hids] at hok
        cases hok
      · rintro _ ⟨⟩
        exact he rfl
    | ok relationIds =>
      have hstart : clear.parseRelationIds rawRelations = .ok { clear with relationIds } := by
        rw [parseRelationIds, hids]
        rfl
      have hcolumns : ∀ b, ¬QueryInfo.Binds { clear with relationIds } b := by
        rintro b ⟨info, hinfo, _⟩
        cases hinfo
      rw [hstart]
      refine (parts_index_iff hcolumns rawPredicates rawSelections).trans ?_
      constructor
      · rintro h _ _ _ relationIds' ⟨⟩ hok
        rw [hids] at hok
        cases hok
        exact h
      · exact fun h => h rawRelations rawPredicates rawSelections relationIds rfl hids
  · next hsplit =>
    constructor
    · intro _ rawRelations rawPredicates rawSelections relationIds hparts
      exact absurd hparts (hsplit rawRelations rawPredicates rawSelections)
    · intro _ h
      cases h

/-- A selection without a column. -/
theorem parseQuery_leaves_range : parseQuery "0|0.0=1|0".toList = .error .index := rfl

-- a binding without a relation
example : parseQuery "0|0.0=1|7.0".toList = .error .index := rfl

end QueryInfo

end Query
