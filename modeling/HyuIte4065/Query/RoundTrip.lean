import HyuIte4065.Query.Parser
import Mathlib.Data.List.TakeWhile

/-!
# Dumping and parsing a query

What `dumpText` writes, `parseQuery` reads back, as long as the counters of `dumpText` can
count its lists.
-/
namespace Query

open Loops

variable {n : Nat} {d : Char} {info : SelectInfo} {query : QueryInfo}

theorem not_mem_toText (hd : d.isDigit = false) : d ∉ toText n := fun h => by
  have hdigit := Nat.isDigit_of_mem_toDigits (by decide) (by decide) h
  rw [hd] at hdigit
  cases hdigit

theorem toText_ne_nil : toText n ≠ [] := Nat.toDigits_ne_nil

theorem isSpace_of_isDigit {c : Char} (h : c.isDigit = true) : isSpace c = false := by
  have hdigit : 48 ≤ c.toNat ∧ c.toNat ≤ 57 := Char.isDigit_iff_toNat.mp h
  simp only [isSpace, Bool.or_eq_false_iff, decide_eq_false_iff_not, Bool.and_eq_false_iff]
  omega

theorem takeSign_digit {c : Char} (h : c.isDigit = true) (rest : Text) :
    takeSign (c :: rest) = (false, c :: rest) := by
  unfold takeSign
  split
  · next he => rw [(List.cons.inj he).1] at h; cases h
  · next he => rw [(List.cons.inj he).1] at h; cases h
  · rfl

theorem stoul_toText (h : n < 2 ^ 64) : stoul (toText n) = .ok (BitVec.ofNat 64 n) := by
  have hall : ∀ c ∈ toText n, c.isDigit = true := fun c hc =>
    Nat.isDigit_of_mem_toDigits (by decide) (by decide) hc
  obtain ⟨c, rest, htext⟩ := List.exists_cons_of_ne_nil (toText_ne_nil (n := n))
  have hc : c.isDigit = true := hall c (htext ▸ List.mem_cons_self)
  have hsign : takeSign ((toText n).dropWhile isSpace) = (false, toText n) := by
    rw [htext, List.dropWhile_cons_of_neg (by rw [isSpace_of_isDigit hc]; decide), takeSign_digit hc]
  have hdigits : (toText n).takeWhile Char.isDigit = toText n := List.takeWhile_eq_self_iff.mpr hall
  have hvalue : Nat.ofDigitChars 10 (toText n) 0 = n := Nat.ofDigitChars_ten_toDigits
  simp only [stoul, hsign, hdigits, hvalue, toText_ne_nil, if_false, if_neg (by omega : ¬2 ^ 64 ≤ n)]
  rfl

theorem splitNumbers_intercalate (hd : d.isDigit = false) {ids : List Nat}
    (h : ∀ id ∈ ids, id < 2 ^ 32) :
    splitNumbers ([d].intercalate (ids.map toText)) d = .ok ids := by
  have hcut : splitString ([d].intercalate (ids.map toText)) d = ids.map toText := by
    refine Pieces.cut_intercalate ?_ ?_
    · simp only [List.mem_map]
      rintro _ ⟨id, _, rfl⟩
      exact not_mem_toText hd
    · simp only [List.mem_map]
      rintro _ ⟨id, _, rfl⟩
      exact toText_ne_nil
  rw [splitNumbers, hcut, List.mapM_map]
  refine (mapM_eq_pure (g := fun n => n) fun n hn => ?_).trans (by rw [List.map_id']; rfl)
  have hlt := h n hn
  rw [Function.comp_apply, stoul_toText (by omega)]
  exact congrArg Except.ok (by rw [BitVec.toNat_ofNat]; omega)

theorem mem_dumpText {c : Char} (h : c ∈ info.dumpText) : c.isDigit = true ∨ c = '.' := by
  rw [SelectInfo.dumpText, List.mem_append, List.mem_cons] at h
  rcases h with hb | rfl | hc
  · exact .inl (Nat.isDigit_of_mem_toDigits (by decide) (by decide) hb)
  · exact .inr rfl
  · exact .inl (Nat.isDigit_of_mem_toDigits (by decide) (by decide) hc)

theorem not_mem_dumpText (hd : d.isDigit = false) (hdot : d ≠ '.') : d ∉ info.dumpText := fun h => by
  rcases mem_dumpText h with hdigit | he
  · rw [hd] at hdigit
    cases hdigit
  · exact hdot he

theorem dumpText_ne_nil : info.dumpText ≠ [] := by simp [SelectInfo.dumpText]

theorem isConstant_dumpText : isConstant info.dumpText = false := by
  simp [isConstant, SelectInfo.dumpText]

theorem isConstant_toText : isConstant (toText n) = true :=
  decide_eq_true (not_mem_toText (by decide))

/-- The two ids are `unsigned`. -/
structure SelectInfo.Narrow (info : SelectInfo) : Prop where
  binding : info.binding < 2 ^ 32
  colId : info.colId < 2 ^ 32

structure SelectInfo.Fits (relationIds : List RelationId) (info : SelectInfo) : Prop extends
    info.Narrow where
  relId : relationIds[info.binding]? = some info.relId

/-- A column before its relation id is looked up. -/
def SelectInfo.unresolved (info : SelectInfo) : SelectInfo := { info with relId := 0 }

def PredicateInfo.unresolved (p : PredicateInfo) : PredicateInfo :=
  ⟨p.left.unresolved, p.right.unresolved⟩

def FilterInfo.unresolved (f : FilterInfo) : FilterInfo :=
  { f with filterColumn := f.filterColumn.unresolved }

variable {relationIds : List RelationId} {p : PredicateInfo} {f : FilterInfo}

theorem parseRelColPair_dumpText (h : info.Fits relationIds) :
    parseRelColPair info.dumpText = .ok info.unresolved := by
  have hids : ∀ id ∈ [info.binding, info.colId], id < 2 ^ 32 := by
    simp only [List.mem_cons, List.not_mem_nil, or_false]
    rintro id (rfl | rfl)
    · exact h.binding
    · exact h.colId
  have htext : info.dumpText = ['.'].intercalate ([info.binding, info.colId].map toText) := by
    simp [SelectInfo.dumpText]
  rw [parseRelColPair, htext, splitNumbers_intercalate (by decide) hids]
  rfl

theorem resolveIds_unresolved (h : info.Fits relationIds) :
    resolveIds relationIds info.unresolved = .ok info := by
  have hget : element relationIds info.unresolved.binding = .ok info.relId := by
    rw [element, show info.unresolved.binding = info.binding from rfl, h.relId]
  rw [resolveIds, hget]
  rfl

theorem mapM_unresolved {α : Type} {elements : List α} (unresolve : α → α)
    (resolve : α → Except Stop α) (h : ∀ e ∈ elements, resolve (unresolve e) = .ok e) :
    (elements.map unresolve).mapM resolve = .ok elements := by
  rw [List.mapM_map]
  exact (mapM_eq_pure (g := fun e => e) h).trans (by rw [List.map_id']; rfl)

theorem splitPredicates_append (cT : Comparison) {left right : Text}
    (hleft : ∀ cT' : Comparison, cT'.toChar ∉ left) (hright : ∀ cT' : Comparison, cT'.toChar ∉ right)
    (hne : right ≠ []) : splitPredicates (left ++ cT.toChar :: right) = [left, right] := by
  have hmem : ∀ cT' : Comparison, cT'.toChar ∈ left ++ cT.toChar :: right ↔ cT' = cT := by
    intro cT'
    rw [List.mem_append, List.mem_cons]
    refine ⟨?_, fun he => .inr (.inl (congrArg _ he))⟩
    rintro (hl | he | hr)
    · exact absurd hl (hleft cT')
    · cases cT <;> cases cT' <;> first | rfl | exact absurd he (by decide)
    · exact absurd hr (hright cT')
  have hfind : comparisonTypes.find? (fun cT' => decide (cT'.toChar ∈ left ++ cT.toChar :: right)) =
      some cT := by
    simp only [hmem]
    cases cT <;> rfl
  rw [splitPredicates, hfind]
  show Pieces.cut _ _ = _
  rw [Pieces.cut_append (hleft cT), Pieces.cut_last (hright cT) hne]

theorem comparison_not_mem (cT : Comparison) : cT.toChar ∉ info.dumpText :=
  not_mem_dumpText (by cases cT <;> decide) (by cases cT <;> decide)

theorem parsePredicate_filter (h : f.filterColumn.Fits relationIds) (query : QueryInfo) :
    query.parsePredicate f.dumpText =
      .ok { query with filters := query.filters ++ [f.unresolved] } := by
  have hsplit : splitPredicates f.dumpText = [f.filterColumn.dumpText, toText f.constant.toNat] :=
    splitPredicates_append f.comparison comparison_not_mem
      (fun cT => not_mem_toText (by cases cT <;> decide)) toText_ne_nil
  have hchar : element f.dumpText f.filterColumn.dumpText.length = .ok f.comparison.toChar := by
    simp [element, FilterInfo.dumpText]
  have hback : Comparison.ofChar f.comparison.toChar = f.comparison := by cases f.comparison <;> rfl
  rw [QueryInfo.parsePredicate, hsplit]
  simp only [isConstant_dumpText, isConstant_toText, parseRelColPair_dumpText h,
    stoul_toText f.constant.isLt, hchar]
  show Except.ok _ = Except.ok _
  simp only [hback, BitVec.ofNat_toNat, BitVec.setWidth_eq]
  rfl

theorem parsePredicate_predicate (hl : p.left.Fits relationIds) (hr : p.right.Fits relationIds)
    (query : QueryInfo) : query.parsePredicate p.dumpText =
      .ok { query with predicates := query.predicates ++ [p.unresolved] } := by
  have hsplit : splitPredicates p.dumpText = [p.left.dumpText, p.right.dumpText] :=
    splitPredicates_append .equal comparison_not_mem comparison_not_mem dumpText_ne_nil
  rw [QueryInfo.parsePredicate, hsplit]
  simp only [isConstant_dumpText, parseRelColPair_dumpText hl, parseRelColPair_dumpText hr]
  rfl

/-- A loop that reads back one dumped element in each turn. -/
theorem foldlM_dumped {β : Type} (parse : QueryInfo → Text → Except Stop QueryInfo) (dump : β → Text)
    (add : QueryInfo → List β → QueryInfo) (hnil : ∀ query, add query [] = query)
    (hcons : ∀ query b bs, add (add query [b]) bs = add query (b :: bs)) {bs : List β}
    (hparse : ∀ b ∈ bs, ∀ query, parse query (dump b) = .ok (add query [b])) (query : QueryInfo) :
    (bs.map dump).foldlM parse query = .ok (add query bs) := by
  induction bs generalizing query with
  | nil => exact congrArg Except.ok (hnil query).symm
  | cons b bs ih =>
    rw [List.map_cons, List.foldlM_cons, hparse b List.mem_cons_self]
    refine (ih (fun b' hb' => hparse b' (List.mem_cons_of_mem b hb')) _).trans ?_
    rw [hcons]

namespace QueryInfo

/-- A query whose values fit their types and whose columns are resolved. -/
structure WellFormed (query : QueryInfo) : Prop where
  relationIds : ∀ relId ∈ query.relationIds, relId < 2 ^ 32
  predicates : ∀ p ∈ query.predicates,
    p.left.Fits query.relationIds ∧ p.right.Fits query.relationIds
  filters : ∀ f ∈ query.filters, f.filterColumn.Fits query.relationIds
  selections : ∀ info ∈ query.selections, info.Fits query.relationIds

/-- Every list of the query can be counted with an `unsigned`. -/
structure Countable (query : QueryInfo) : Prop where
  relationIds : query.relationIds.length < 2 ^ 32
  predicates : query.predicates.length < 2 ^ 32
  filters : query.filters.length < 2 ^ 32
  selections : query.selections.length < 2 ^ 32

def relationsText (query : QueryInfo) : Text := [' '].intercalate (query.relationIds.map toText)

def predicatesText (query : QueryInfo) : Text :=
  ['&'].intercalate (query.predicates.map (·.dumpText) ++ query.filters.map (·.dumpText))

def selectionsText (query : QueryInfo) : Text := [' '].intercalate (query.selections.map (·.dumpText))

/-- The text of a query, without the loops. -/
def text (query : QueryInfo) : Text :=
  query.relationsText ++ '|' :: (query.predicatesText ++ '|' :: query.selectionsText)

end QueryInfo

theorem dumpPart_returns {α : Type} (dump : α → Text) (delimiter : Char) {elements : List α}
    (h : elements.length < 2 ^ 32) (ss : Text) :
    Returns (fun fuel => dumpPart dump delimiter elements fuel ss)
      (ss ++ [delimiter].intercalate (elements.map dump)) := by
  -- what is written and what is left to write make the whole text
  obtain ⟨text, hret, htext⟩ : ∃ text, Returns (fun fuel => dumpPart dump delimiter elements fuel ss)
      text ∧ text ++ [delimiter].intercalate ((elements.drop elements.length).map dump) =
        ss ++ [delimiter].intercalate (elements.map dump) :=
    Returns.countUp h (I := fun i text => text ++ [delimiter].intercalate
      ((elements.drop i).map dump) = ss ++ [delimiter].intercalate (elements.map dump))
      (by rw [List.drop_zero]) fun i hi text htext => by
        refine ⟨_, by rw [dumpElement, List.getElem?_eq_getElem hi]; rfl, ?_⟩
        rw [← htext, List.drop_eq_getElem_cons hi, List.map_cons, Pieces.intercalate_cons]
        have hlast : (elements.drop (i + 1)).map dump = [] ↔ ¬i < elements.length - 1 := by
          rw [List.map_eq_nil_iff, List.drop_eq_nil_iff]
          omega
        simp only [hlast, List.append_assoc, ite_not]
  rw [List.drop_length, List.map_nil, List.intercalate_nil, List.append_nil] at htext
  exact htext ▸ hret

theorem dumpPart_endless {α : Type} (dump : α → Text) (delimiter : Char) {elements : List α}
    (h : 2 ^ 32 ≤ elements.length) (fuel : Nat) (ss : Text) :
    dumpPart dump delimiter elements fuel ss = none := countUp_endless h _ fuel 0#32 ss

theorem dumpText_returns (h : query.Countable) : Returns query.dumpText query.text := by
  refine (dumpPart_returns toText ' ' h.relationIds []).bind ?_
  refine (dumpPart_returns PredicateInfo.dumpText '&' h.predicates _).bind ?_
  refine (dumpPart_returns FilterInfo.dumpText '&' h.filters _).bind ?_
  refine (congrArg (Returns _) ?_).mpr (dumpPart_returns SelectInfo.dumpText ' ' h.selections _)
  rw [QueryInfo.text, QueryInfo.predicatesText, Pieces.intercalate_append]
  simp only [ne_eq, List.map_eq_nil_iff]
  split <;> simp [QueryInfo.relationsText, QueryInfo.selectionsText]

/-- A list that an `unsigned` cannot count is dumped for ever. -/
theorem dumpText_endless (h : ¬query.Countable) (fuel : Nat) : query.dumpText fuel = none := by
  by_contra hsome
  obtain ⟨text, htext⟩ := Option.ne_none_iff_exists'.mp hsome
  unfold QueryInfo.dumpText at htext
  obtain ⟨t₁, hrelations, htext⟩ := Option.bind_eq_some_iff.mp htext
  obtain ⟨t₂, hpredicates, htext⟩ := Option.bind_eq_some_iff.mp htext
  obtain ⟨t₃, hfilters, hselections⟩ := Option.bind_eq_some_iff.mp htext
  have hshort : ∀ {α : Type} {dump : α → Text} {delimiter : Char} {elements : List α} {ss t : Text},
      dumpPart dump delimiter elements fuel ss = some t → elements.length < 2 ^ 32 := by
    intro α dump delimiter elements ss t hpart
    by_contra hlong
    rw [dumpPart_endless dump delimiter (by omega) fuel ss] at hpart
    cases hpart
  exact h ⟨hshort hrelations, hshort hpredicates, hshort hfilters, hshort hselections⟩

/-- The delimiters of lists do not occur inside a predicate or a filter. -/
theorem pieces_clean (hd : d ∈ ['&', '|']) :
    ∀ piece ∈ query.predicates.map (·.dumpText) ++ query.filters.map (·.dumpText),
      d ∉ piece ∧ piece ≠ [] := by
  have hdigit : d.isDigit = false ∧ d ≠ '.' ∧ ∀ cT : Comparison, d ≠ cT.toChar := by
    rw [List.mem_cons, List.mem_singleton] at hd
    rcases hd with rfl | rfl <;> refine ⟨by decide, by decide, fun cT => ?_⟩ <;> cases cT <;> decide
  obtain ⟨hdigit, hdot, hcomparison⟩ := hdigit
  intro piece hpiece
  rw [List.mem_append, List.mem_map, List.mem_map] at hpiece
  rcases hpiece with ⟨p, _, rfl⟩ | ⟨f, _, rfl⟩
  · refine ⟨?_, by simp [PredicateInfo.dumpText]⟩
    rw [PredicateInfo.dumpText, List.mem_append, List.mem_cons]
    rintro (hl | he | hr)
    · exact not_mem_dumpText hdigit hdot hl
    · exact hcomparison .equal he
    · exact not_mem_dumpText hdigit hdot hr
  · refine ⟨?_, by simp [FilterInfo.dumpText]⟩
    rw [FilterInfo.dumpText, List.mem_append, List.mem_cons]
    rintro (hl | he | hr)
    · exact not_mem_dumpText hdigit hdot hl
    · exact hcomparison _ he
    · exact not_mem_toText hdigit hr

theorem splitString_text (hsel : query.selections ≠ []) : splitString query.text '|' =
    [query.relationsText, query.predicatesText, query.selectionsText] := by
  have hrelations : '|' ∉ query.relationsText := by
    refine Pieces.not_mem_intercalate (by decide) fun piece hpiece => ?_
    obtain ⟨relId, _, rfl⟩ := List.mem_map.mp hpiece
    exact not_mem_toText (by decide)
  have hpredicates : '|' ∉ query.predicatesText :=
    Pieces.not_mem_intercalate (by decide) fun piece hpiece =>
      (pieces_clean (by decide) piece hpiece).1
  have hselections : '|' ∉ query.selectionsText := by
    refine Pieces.not_mem_intercalate (by decide) fun piece hpiece => ?_
    obtain ⟨info, _, rfl⟩ := List.mem_map.mp hpiece
    exact not_mem_dumpText (by decide) (by decide)
  have hne : query.selectionsText ≠ [] := by
    obtain ⟨info, rest, hcons⟩ := List.exists_cons_of_ne_nil hsel
    rw [QueryInfo.selectionsText, hcons, List.map_cons, Pieces.intercalate_cons]
    simp [dumpText_ne_nil]
  rw [QueryInfo.text, splitString, Pieces.cut_append hrelations, Pieces.cut_append hpredicates,
    Pieces.cut_last hselections hne]

namespace QueryInfo.WellFormed

theorem parseRelationIds (h : query.WellFormed) :
    clear.parseRelationIds query.relationsText = .ok { clear with relationIds := query.relationIds } := by
  rw [QueryInfo.parseRelationIds, relationsText, splitNumbers_intercalate (by decide) h.relationIds]
  rfl

theorem parsePredicates (h : query.WellFormed) (parsed : QueryInfo) :
    parsed.parsePredicates query.predicatesText = .ok { parsed with
      predicates := parsed.predicates ++ query.predicates.map (·.unresolved)
      filters := parsed.filters ++ query.filters.map (·.unresolved) } := by
  have hcut : splitString query.predicatesText '&' =
      query.predicates.map (·.dumpText) ++ query.filters.map (·.dumpText) :=
    Pieces.cut_intercalate (fun piece hpiece => (pieces_clean (by decide) piece hpiece).1)
      fun piece hpiece => (pieces_clean (d := '&') (by decide) piece hpiece).2
  have hpredicates := foldlM_dumped parsePredicate PredicateInfo.dumpText
    (fun q ps => { q with predicates := q.predicates ++ ps.map (·.unresolved) })
    (fun q => by simp) (fun q p ps => by simp) (fun p (hp : p ∈ query.predicates) q =>
      parsePredicate_predicate (h.predicates p hp).1 (h.predicates p hp).2 q) parsed
  have hfilters := foldlM_dumped parsePredicate FilterInfo.dumpText
    (fun q fs => { q with filters := q.filters ++ fs.map (·.unresolved) })
    (fun q => by simp) (fun q f fs => by simp) fun f (hf : f ∈ query.filters) q =>
      parsePredicate_filter (h.filters f hf) q
  rw [QueryInfo.parsePredicates, hcut, List.foldlM_append, hpredicates]
  exact hfilters _

theorem parseSelections (h : query.WellFormed) (parsed : QueryInfo) :
    parsed.parseSelections query.selectionsText = .ok { parsed with
      selections := parsed.selections ++ query.selections.map (·.unresolved) } := by
  have hcut : splitString query.selectionsText ' ' = query.selections.map (·.dumpText) := by
    refine Pieces.cut_intercalate ?_ ?_
    · intro piece hpiece
      obtain ⟨info, _, rfl⟩ := List.mem_map.mp hpiece
      exact not_mem_dumpText (by decide) (by decide)
    · intro piece hpiece
      obtain ⟨info, _, rfl⟩ := List.mem_map.mp hpiece
      exact dumpText_ne_nil
  rw [QueryInfo.parseSelections, hcut]
  refine foldlM_dumped parseSelection SelectInfo.dumpText
    (fun q infos => { q with selections := q.selections ++ infos.map (·.unresolved) })
    (fun q => by simp) (fun q info infos => by simp) (fun info hinfo q => ?_) parsed
  rw [parseSelection, parseRelColPair_dumpText (h.selections info hinfo)]
  rfl

theorem resolveRelationIds (h : query.WellFormed) : QueryInfo.resolveRelationIds
    ⟨query.relationIds, query.predicates.map (·.unresolved), query.filters.map (·.unresolved),
      query.selections.map (·.unresolved)⟩ = .ok query := by
  have hselections := mapM_unresolved SelectInfo.unresolved (Query.resolveIds query.relationIds)
    fun info hinfo => resolveIds_unresolved (h.selections info hinfo)
  have hpredicates := mapM_unresolved PredicateInfo.unresolved
    (PredicateInfo.resolveIds query.relationIds) fun p (hp : p ∈ query.predicates) => by
      have hl := resolveIds_unresolved (h.predicates p hp).1
      have hr := resolveIds_unresolved (h.predicates p hp).2
      rw [PredicateInfo.resolveIds, PredicateInfo.unresolved, hl, hr]
      rfl
  have hfilters := mapM_unresolved FilterInfo.unresolved
    (FilterInfo.resolveIds query.relationIds) fun f (hf : f ∈ query.filters) => by
      have hcol := resolveIds_unresolved (h.filters f hf)
      rw [FilterInfo.resolveIds, FilterInfo.unresolved, hcol]
      rfl
  rw [QueryInfo.resolveRelationIds]
  simp only [hselections, hpredicates, hfilters]
  rfl

theorem parseQuery (h : query.WellFormed) (hsel : query.selections ≠ []) :
    QueryInfo.parseQuery query.text = .ok query := by
  have hrelations := h.parseRelationIds
  have hpredicates := h.parsePredicates { clear with relationIds := query.relationIds }
  have hselections := h.parseSelections
  rw [QueryInfo.parseQuery, splitString_text hsel]
  simp only [hrelations]
  show (QueryInfo.parsePredicates _ _ >>= _) = _
  rw [hpredicates]
  show (QueryInfo.parseSelections _ _ >>= _) = _
  rw [hselections]
  exact h.resolveRelationIds

end QueryInfo.WellFormed

theorem splitNumbers_lt {line : Text} {ids : List Nat} {d : Char}
    (h : splitNumbers line d = .ok ids) : ∀ n ∈ ids, n < 2 ^ 32 := fun n hn => by
  obtain ⟨token, _, htoken⟩ := mapM_yields h n hn
  obtain ⟨value, _, hvalue⟩ := ok_of_bind htoken
  cases hvalue
  exact Nat.mod_lt _ (by decide)

theorem parseRelColPair_narrow {raw : Text} (h : parseRelColPair raw = .ok info) : info.Narrow := by
  obtain ⟨ids, hids, h⟩ := ok_of_bind h
  obtain ⟨binding, hb, h⟩ := ok_of_bind h
  obtain ⟨colId, hc, h⟩ := ok_of_bind h
  cases h
  exact ⟨splitNumbers_lt hids _ (List.mem_of_getElem? (element_eq_ok hb)),
    splitNumbers_lt hids _ (List.mem_of_getElem? (element_eq_ok hc))⟩

theorem resolveIds_fits {info' : SelectInfo} (h : resolveIds relationIds info = .ok info')
    (hn : info.Narrow) : info'.Fits relationIds := by
  obtain ⟨relId, hget, h⟩ := ok_of_bind h
  cases h
  exact ⟨⟨hn.binding, hn.colId⟩, element_eq_ok hget⟩

namespace QueryInfo

/-- What the parser has read so far fits the types. -/
structure Narrow (query : QueryInfo) : Prop where
  relationIds : ∀ relId ∈ query.relationIds, relId < 2 ^ 32
  predicates : ∀ p ∈ query.predicates, p.left.Narrow ∧ p.right.Narrow
  filters : ∀ f ∈ query.filters, f.filterColumn.Narrow
  selections : ∀ info ∈ query.selections, info.Narrow

theorem parsePredicate_narrow {raw : Text} {query query' : QueryInfo}
    (h : query.parsePredicate raw = .ok query') (hn : query.Narrow) : query'.Narrow := by
  unfold parsePredicate at h
  split at h
  · split at h
    · cases h
    obtain ⟨leftSelect, hleft, h⟩ := ok_of_bind h
    have hl := parseRelColPair_narrow hleft
    split at h
    · obtain ⟨constant, _, h⟩ := ok_of_bind h
      obtain ⟨compType, _, h⟩ := ok_of_bind h
      cases h
      refine ⟨hn.relationIds, hn.predicates, fun f hf => ?_, hn.selections⟩
      rcases List.mem_append.mp hf with hold | hnew
      · exact hn.filters f hold
      · rwa [List.mem_singleton.mp hnew]
    · obtain ⟨rightSelect, hright, h⟩ := ok_of_bind h
      have hr := parseRelColPair_narrow hright
      cases h
      refine ⟨hn.relationIds, fun p hp => ?_, hn.filters, hn.selections⟩
      rcases List.mem_append.mp hp with hold | hnew
      · exact hn.predicates p hold
      · rw [List.mem_singleton.mp hnew]
        exact ⟨hl, hr⟩
  · cases h

theorem parseSelection_narrow {raw : Text} {query query' : QueryInfo}
    (h : query.parseSelection raw = .ok query') (hn : query.Narrow) : query'.Narrow := by
  obtain ⟨info, hinfo, h⟩ := ok_of_bind h
  have hi := parseRelColPair_narrow hinfo
  cases h
  refine ⟨hn.relationIds, hn.predicates, hn.filters, fun info' hinfo' => ?_⟩
  rcases List.mem_append.mp hinfo' with hold | hnew
  · exact hn.selections info' hold
  · rwa [List.mem_singleton.mp hnew]

theorem resolveRelationIds_wellFormed {query query' : QueryInfo}
    (h : query.resolveRelationIds = .ok query') (hn : query.Narrow) : query'.WellFormed := by
  obtain ⟨selections, hselections, h⟩ := ok_of_bind h
  obtain ⟨predicates, hpredicates, h⟩ := ok_of_bind h
  obtain ⟨filters, hfilters, h⟩ := ok_of_bind h
  cases h
  refine ⟨hn.relationIds, fun p hp => ?_, fun f hf => ?_, fun info hinfo => ?_⟩
  · obtain ⟨p', hp', hresolve⟩ := mapM_yields hpredicates p hp
    obtain ⟨left, hleft, hresolve⟩ := ok_of_bind hresolve
    obtain ⟨right, hright, hresolve⟩ := ok_of_bind hresolve
    cases hresolve
    exact ⟨resolveIds_fits hleft (hn.predicates p' hp').1,
      resolveIds_fits hright (hn.predicates p' hp').2⟩
  · obtain ⟨f', hf', hresolve⟩ := mapM_yields hfilters f hf
    obtain ⟨column, hcolumn, hresolve⟩ := ok_of_bind hresolve
    cases hresolve
    exact resolveIds_fits hcolumn (hn.filters f' hf')
  · obtain ⟨info', hinfo', hresolve⟩ := mapM_yields hselections info hinfo
    exact resolveIds_fits hresolve (hn.selections info' hinfo')

/-- Whatever is accepted is well formed. -/
theorem parseQuery_wellFormed {raw : Text} (h : parseQuery raw = .ok query) : query.WellFormed := by
  unfold parseQuery at h
  split at h
  · next rawRelations rawPredicates rawSelections _ =>
    obtain ⟨query₁, hrelations, h⟩ := ok_of_bind h
    obtain ⟨query₂, hpredicates, h⟩ := ok_of_bind h
    obtain ⟨query₃, hselections, h⟩ := ok_of_bind h
    have hn₁ : query₁.Narrow := by
      obtain ⟨ids, hids, hrelations⟩ := ok_of_bind hrelations
      cases hrelations
      refine ⟨fun relId hrel => splitNumbers_lt hids relId ?_, ?_, ?_, ?_⟩ <;> simp_all [clear]
    have hn₂ : query₂.Narrow :=
      foldlM_keeps (fun raw q q' => parsePredicate_narrow) hpredicates hn₁
    have hn₃ : query₃.Narrow := foldlM_keeps (fun raw q q' => parseSelection_narrow) hselections hn₂
    exact resolveRelationIds_wellFormed h hn₃
  · cases h

/-- Dumping returns a text, and parsing it gives the same query. -/
def RoundTrips (query : QueryInfo) : Prop :=
  ∃ text, Returns query.dumpText text ∧ parseQuery text = .ok query

theorem not_roundTrips (h : ¬query.Countable) : ¬query.RoundTrips := by
  rintro ⟨text, ⟨fuel, hfuel⟩, _⟩
  have hsome := hfuel fuel le_rfl
  rw [dumpText_endless h] at hsome
  cases hsome

/-- A well-formed query with a selection, and so any accepted one, comes back exactly when an
`unsigned` can count each of its lists. -/
theorem roundTrips_iff (hsel : query.selections ≠ [])
    (hq : query.WellFormed ∨ ∃ raw, parseQuery raw = .ok query) :
    query.RoundTrips ↔ query.Countable := by
  have hwf : query.WellFormed := by
    rcases hq with hwf | ⟨raw, hraw⟩
    · exact hwf
    · exact parseQuery_wellFormed hraw
  refine ⟨fun h => ?_, fun h => ⟨query.text, dumpText_returns h, hwf.parseQuery hsel⟩⟩
  by_contra hlong
  exact not_roundTrips hlong h

/-- The query of the test of `dumpText`. -/
def dumped : QueryInfo :=
  ⟨[0, 2], [⟨⟨0, 0, 1⟩, ⟨2, 1, 1⟩⟩, ⟨⟨0, 0, 0⟩, ⟨2, 1, 0⟩⟩], [⟨⟨2, 1, 2⟩, 3, .equal⟩],
    [⟨0, 0, 1⟩, ⟨2, 1, 4⟩]⟩

theorem dumped_roundTrips : dumped.RoundTrips :=
  (roundTrips_iff (by decide) (.inr ⟨"0 2|0.1=1.1&0.0=1.0&1.2=3|0.1 1.4".toList, rfl⟩)).mpr
    ⟨by decide, by decide, by decide, by decide⟩

/-- A query that binds the first relation many times. -/
def manyRelations (n : Nat) : QueryInfo := ⟨List.replicate n 0, [], [], [⟨0, 0, 0⟩]⟩

theorem manyRelations_wellFormed (hn : 0 < n) : (manyRelations n).WellFormed where
  relationIds _ hrel := by rw [List.eq_of_mem_replicate hrel]; decide
  predicates _ hp := nomatch hp
  filters _ hf := nomatch hf
  selections info hinfo := by
    rw [List.mem_singleton.mp hinfo]
    exact ⟨⟨by decide, by decide⟩, List.getElem?_replicate_of_lt hn⟩

theorem manyRelations_not_roundTrips : (manyRelations (2 ^ 32)).WellFormed ∧
    (manyRelations (2 ^ 32)).selections ≠ [] ∧ ¬(manyRelations (2 ^ 32)).RoundTrips := by
  refine ⟨manyRelations_wellFormed (by decide), List.cons_ne_nil _ _, not_roundTrips fun h => ?_⟩
  have hlen := h.relationIds
  rw [show (manyRelations (2 ^ 32)).relationIds = List.replicate (2 ^ 32) 0 from rfl,
    List.length_replicate] at hlen
  exact lt_irrefl _ hlen

end QueryInfo

end Query
