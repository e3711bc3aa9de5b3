import HyuIte4065.Query.Results
import HyuIte4065.Query.Solutions

/-!
# Requests for columns

The bindings that a tree covers and the predicates that it applies, what a scan has read for the
columns required of it, and what one call of `require` answers and notes.
-/
namespace Query

namespace Operator

def bindings : Operator → Finset Nat
  | .scan _ _ relationBinding => {relationBinding}
  | .filterScan _ _ relationBinding _ _ => {relationBinding}
  | .join _ left right _ _ _ _ => left.bindings ∪ right.bindings
  | .selfJoin _ input _ _ => input.bindings

def predicates : Operator → List PredicateInfo
  | .scan .. => []
  | .filterScan .. => []
  | .join _ left right pInfo _ _ _ => pInfo :: (left.predicates ++ right.predicates)
  | .selfJoin _ input pInfo _ => pInfo :: input.predicates

def height : Operator → Nat
  | .scan .. => 1
  | .filterScan .. => 1
  | .join _ left right _ _ _ _ => max left.height right.height + 1
  | .selfJoin _ input _ _ => input.height + 1

/-- The columns that have been required of the operator. -/
def Requested : Operator → SelectInfo → Prop
  | .scan results _ _, info => results.select2ResultColId info ≠ none
  | .filterScan results _ _ _ _, info => results.select2ResultColId info ≠ none
  | .join _ _ _ _ requested _ _, info => info ∈ requested
  | .selfJoin _ _ _ requiredIUs, info => info ∈ requiredIUs

end Operator

section
variable (relations : List Relation) (query : QueryInfo)

/-- A scan whose columns are those of `infos`. -/
structure Reads (results : Results) (columns : List Column) (relation : Relation)
    (binding : Nat) (infos : List SelectInfo) : Prop where
  bound : boundRelation relations query binding = some relation
  columns : columns = columnsOf relations query infos (boundRows relations query binding)
  numbered : results.Numbers infos
  own : ∀ info ∈ infos, info.binding = binding

end

/-- Only requests have been added. -/
structure Kept (op op' : Operator) : Prop where
  bindings : op'.bindings = op.bindings
  predicates : op'.predicates = op.predicates
  height : op'.height = op.height
  requested : ∀ info, op.Requested info → op'.Requested info

theorem Kept.refl (op : Operator) : Kept op op := ⟨rfl, rfl, rfl, fun _ h => h⟩

theorem Kept.trans {op op' op'' : Operator} (h : Kept op op') (h' : Kept op' op'') : Kept op op'' :=
  ⟨h'.bindings.trans h.bindings, h'.predicates.trans h.predicates, h'.height.trans h.height,
    fun info hr => h'.requested info (h.requested info hr)⟩

variable {relations : List Relation} {query : QueryInfo} {op op' : Operator} {info : SelectInfo}
  {results : Results} {columns : List Column} {relation : Relation} {binding : Nat}
  {infos : List SelectInfo}

theorem Reads.new (h : boundRelation relations query binding = some relation) :
    Reads relations query .new [] relation binding [] :=
  ⟨h, rfl, Results.Numbers.new, by simp⟩

theorem Reads.binding_eq (h : Reads relations query results columns relation binding infos)
    (hr : results.select2ResultColId info ≠ none) : info.binding = binding :=
  h.own info (h.numbered.listed info hr)

/-- The column of the relation that a scan adds for `info`. -/
theorem Reads.column (h : Reads relations query results columns relation binding infos)
    (hb : info.binding = binding) (hcol : info.colId < relation.columns.length) :
    relation.columns[info.colId]? =
      some ((boundRows relations query binding).map (value relations query · info)) := by
  rw [columns_get (hb ▸ h.bound) hcol, boundRows_value hb, numRows_eq h.bound]

theorem Reads.append {column : Column} (h : Reads relations query results columns relation binding infos)
    (results' : Results) (hb : info.binding = binding)
    (hcol : column = (boundRows relations query binding).map (value relations query · info))
    (hs : results'.select2ResultColId = (results.setColId info infos.length).select2ResultColId) :
    Reads relations query results' (columns ++ [column]) relation binding (infos ++ [info]) := by
  refine ⟨h.bound, ?_, ?_, fun i hi => ?_⟩
  · rw [columnsOf_append, h.columns, hcol]
    rfl
  · exact ⟨fun i hi => h.numbered.append.listed i (hs ▸ hi),
      fun hlen i k hk => h.numbered.append.position hlen i k (hs ▸ hk)⟩
  · rcases List.mem_append.mp hi with hi | hi
    · exact h.own i hi
    · rwa [List.mem_singleton.mp hi]

theorem Kept.join {results' : Results} {left left' right right' : Operator} {pInfo : PredicateInfo}
    {requested requested' requestedLeft requestedLeft' requestedRight requestedRight' : List SelectInfo}
    (hl : Kept left left') (hr : Kept right right') (hsub : ∀ i ∈ requested, i ∈ requested') :
    Kept (.join results left right pInfo requested requestedLeft requestedRight)
      (.join results' left' right' pInfo requested' requestedLeft' requestedRight') :=
  ⟨by rw [Operator.bindings, Operator.bindings, hl.bindings, hr.bindings],
    by rw [Operator.predicates, Operator.predicates, hl.predicates, hr.predicates],
    by rw [Operator.height, Operator.height, hl.height, hr.height], hsub⟩

theorem Kept.selfJoin {results' : Results} {input input' : Operator} {pInfo : PredicateInfo}
    {requiredIUs requiredIUs' : List SelectInfo} (h : Kept input input')
    (hsub : ∀ i ∈ requiredIUs, i ∈ requiredIUs') :
    Kept (.selfJoin results input pInfo requiredIUs) (.selfJoin results' input' pInfo requiredIUs') :=
  ⟨h.bindings, by rw [Operator.predicates, Operator.predicates, h.predicates],
    by rw [Operator.height, Operator.height, h.height], hsub⟩

theorem Reads.require_scan
    (reads : Reads relations query results results.resultColumns relation binding infos)
    (hcol : info.binding = binding → info.colId < relation.columns.length) :
    ∃ results' infos', (Operator.scan results relation binding).require info =
        some (decide (info.binding = binding), .scan results' relation binding) ∧
      Reads relations query results' results'.resultColumns relation binding infos' ∧
      (∀ i, results.select2ResultColId i ≠ none → results'.select2ResultColId i ≠ none) ∧
      (info.binding = binding → results'.select2ResultColId info ≠ none) := by
  by_cases hb : info.binding = binding
  · have hlen : results.resultColumns.length = infos.length := by
      rw [reads.columns, columnsOf, List.length_map]
    let results' := Results.setColId { results with
      resultColumns := results.resultColumns ++
        [(boundRows relations query binding).map (value relations query · info)] } info infos.length
    refine ⟨results', infos ++ [info], ?_, reads.append results' hb rfl rfl,
      fun i hr => Results.setColId_ne_none.mpr (.inr hr), fun _ => Results.setColId_ne_none.mpr (.inl rfl)⟩
    simp only [Operator.require, hb, ne_eq, not_true_eq_false, if_false, reads.column hb (hcol hb),
      Option.bind_eq_bind, Option.bind_some, List.length_append, List.length_singleton,
      Nat.add_sub_cancel, hlen, decide_true]
    rfl
  · refine ⟨results, infos, ?_, reads, fun _ hr => hr, fun h => absurd h hb⟩
    simp only [Operator.require, hb, ne_eq, not_false_eq_true, if_true, decide_false]

theorem Reads.require_filterScan (filters : List FilterInfo)
    (reads : Reads relations query results columns relation binding infos)
    (idle : results.Idle infos.length)
    (hcol : info.binding = binding → info.colId < relation.columns.length) :
    ∃ results' columns' infos', (Operator.filterScan results relation binding filters columns).require info =
        some (decide (info.binding = binding), .filterScan results' relation binding filters columns') ∧
      Reads relations query results' columns' relation binding infos' ∧ results'.Idle infos'.length ∧
      (∀ i, results.select2ResultColId i ≠ none → results'.select2ResultColId i ≠ none) ∧
      (info.binding = binding → results'.select2ResultColId info ≠ none) := by
  by_cases hb : info.binding = binding
  · by_cases hnew : results.select2ResultColId info = none
    · have hidle : results.addColumn.Idle (infos ++ [info]).length := idle.addColumn
      have hlen : results.addColumn.tmpResults.length - 1 = infos.length := by
        rw [hidle.tmpResults, List.length_replicate, List.length_append, List.length_singleton,
          Nat.add_sub_cancel]
      refine ⟨results.addColumn.setColId info infos.length, _, infos ++ [info], ?_,
        reads.append _ hb rfl rfl, hidle.setColId, fun i hr => Results.setColId_ne_none.mpr (.inr hr),
        fun _ => Results.setColId_ne_none.mpr (.inl rfl)⟩
      simp only [Operator.require, hb, ne_eq, not_true_eq_false, if_false, reads.column hb (hcol hb),
        Option.bind_eq_bind, Option.bind_some, hnew, if_true, hlen, decide_true]
      rfl
    · refine ⟨results, columns, infos, ?_, reads, idle, fun _ hr => hr, fun _ => hnew⟩
      simp only [Operator.require, hb, ne_eq, not_true_eq_false, if_false, reads.column hb (hcol hb),
        decide_true, Option.bind_eq_bind, Option.bind_some, hnew]
      rfl
  · refine ⟨results, columns, infos, ?_, reads, idle, fun _ hr => hr, fun h => absurd h hb⟩
    simp only [Operator.require, hb, ne_eq, not_false_eq_true, if_true, decide_false]

theorem nodup_snoc (h : infos.Nodup) (hnew : info ∉ infos) : (infos ++ [info]).Nodup := by
  rw [← List.concat_eq_append]
  exact h.concat hnew

theorem requested_append {requested : List SelectInfo} (hk : Kept op op') (hr : op'.Requested info)
    (h : ∀ i ∈ requested, op.Requested i) : ∀ i ∈ requested ++ [info], op'.Requested i := by
  intro i hi
  rcases List.mem_append.mp hi with hi | hi
  · exact hk.requested i (h i hi)
  · rwa [List.mem_singleton.mp hi]

/-- What a join has asked of its inputs. -/
structure Asked (results : Results) (left right : Operator)
    (requested requestedLeft requestedRight : List SelectInfo) : Prop where
  idle : results.Idle requested.length
  nodup : requested.Nodup
  split : requested.Perm (requestedLeft ++ requestedRight)
  left_requested : ∀ info ∈ requestedLeft, left.Requested info
  right_requested : ∀ info ∈ requestedRight, right.Requested info

/-- What an operator has answered. -/
structure Answers (op : Operator) (info : SelectInfo) (op' : Operator) : Prop where
  run : op.require info = some (decide (info.binding ∈ op.bindings), op')
  kept : Kept op op'
  requested : info.binding ∈ op.bindings → op'.Requested info

/-- The left input is asked first, the right one if that fails. -/
theorem Asked.require {left left' right right' : Operator}
    {requested requestedLeft requestedRight : List SelectInfo} (pInfo : PredicateInfo)
    (h : Asked results left right requested requestedLeft requestedRight)
    (hbinding : ∀ i ∈ requested, i.binding ∈ left.bindings ∪ right.bindings)
    (hl : Answers left info left') (hr : Answers right info right') :
    ∃ results' left₁ right₁ requested' requestedLeft' requestedRight',
      Answers (.join results left right pInfo requested requestedLeft requestedRight) info
        (.join results' left₁ right₁ pInfo requested' requestedLeft' requestedRight') ∧
      (left₁ = left ∨ left₁ = left') ∧ (right₁ = right ∨ right₁ = right') ∧
      Asked results' left₁ right₁ requested' requestedLeft' requestedRight' := by
  by_cases hold : info ∈ requested
  · refine ⟨results, left, right, requested, requestedLeft, requestedRight,
      ⟨?_, .refl _, fun _ => hold⟩, .inl rfl, .inl rfl, h⟩
    rw [Operator.require, if_pos hold, Operator.bindings, decide_eq_true (hbinding info hold)]
  have hnodup := nodup_snoc h.nodup hold
  have hsplit : (requested ++ [info]).Perm (info :: (requestedLeft ++ requestedRight)) :=
    (List.perm_append_singleton _ _).trans (h.split.cons _)
  have hsub : ∀ i ∈ requested, i ∈ requested ++ [info] := fun i hi => List.mem_append_left _ hi
  have hmem : info ∈ requested ++ [info] := List.mem_append_right _ (List.mem_singleton.mpr rfl)
  have hkeptl : ∀ i ∈ requestedLeft, left'.Requested i :=
    fun i hi => hl.kept.requested i (h.left_requested i hi)
  have hkeptr : ∀ i ∈ requestedRight, right'.Requested i :=
    fun i hi => hr.kept.requested i (h.right_requested i hi)
  by_cases hbl : info.binding ∈ left.bindings
  · refine ⟨results.addColumn, left', right, requested ++ [info], requestedLeft ++ [info], requestedRight,
      ⟨?_, hl.kept.join (.refl _) hsub, fun _ => hmem⟩, .inr rfl, .inl rfl, h.idle.addColumn, hnodup, ?_,
      requested_append hl.kept (hl.requested hbl) h.left_requested, h.right_requested⟩
    · simp only [Operator.require, if_neg hold, hl.run, Option.bind_eq_bind, Option.bind_some,
        Operator.bindings, Finset.mem_union, hbl, decide_true, if_true, true_or]
      rfl
    · rw [List.append_assoc]
      exact hsplit.trans List.perm_middle.symm
  by_cases hbr : info.binding ∈ right.bindings
  · refine ⟨results.addColumn, left', right', requested ++ [info], requestedLeft, requestedRight ++ [info],
      ⟨?_, hl.kept.join hr.kept hsub, fun _ => hmem⟩, .inr rfl, .inr rfl, h.idle.addColumn, hnodup, ?_,
      hkeptl, requested_append hr.kept (hr.requested hbr) h.right_requested⟩
    · simp only [Operator.require, if_neg hold, hl.run, hr.run, Option.bind_eq_bind, Option.bind_some,
        Operator.bindings, Finset.mem_union, hbl, hbr, decide_true, decide_false, Bool.false_eq_true,
        if_true, if_false, or_true]
      rfl
    · rw [← List.append_assoc]
      exact hsplit.trans (List.perm_append_singleton _ _).symm
  · refine ⟨results, left', right', requested, requestedLeft, requestedRight,
      ⟨?_, hl.kept.join hr.kept fun _ hi => hi, fun h => ?_⟩, .inr rfl, .inr rfl,
      h.idle, h.nodup, h.split, hkeptl, hkeptr⟩
    · simp only [Operator.require, if_neg hold, hl.run, hr.run, Option.bind_eq_bind, Option.bind_some,
        Operator.bindings, Finset.mem_union, hbl, hbr, decide_false, Bool.false_eq_true, if_false,
        or_self]
      rfl
    · exact absurd (Finset.mem_union.mp h) (not_or.mpr ⟨hbl, hbr⟩)

theorem Answers.selfJoin {input input' : Operator} {requiredIUs : List SelectInfo} (pInfo : PredicateInfo)
    (idle : results.Idle requiredIUs.length) (nodup : requiredIUs.Nodup)
    (requested : ∀ i ∈ requiredIUs, input.Requested i)
    (hbinding : ∀ i ∈ requiredIUs, i.binding ∈ input.bindings) (hi : Answers input info input') :
    ∃ results' input₁ requiredIUs', Answers (.selfJoin results input pInfo requiredIUs) info
        (.selfJoin results' input₁ pInfo requiredIUs') ∧
      (input₁ = input ∨ input₁ = input') ∧ results'.Idle requiredIUs'.length ∧ requiredIUs'.Nodup ∧
      ∀ i ∈ requiredIUs', input₁.Requested i := by
  by_cases hold : info ∈ requiredIUs
  · refine ⟨results, input, requiredIUs, ⟨?_, .refl _, fun _ => hold⟩, .inl rfl, idle, nodup, requested⟩
    rw [Operator.require, if_pos hold, Operator.bindings, decide_eq_true (hbinding info hold)]
  by_cases hb : info.binding ∈ input.bindings
  · refine ⟨results.addColumn, input', requiredIUs ++ [info],
      ⟨?_, hi.kept.selfJoin fun i hi => List.mem_append_left _ hi,
        fun _ => List.mem_append_right _ (List.mem_singleton.mpr rfl)⟩,
      .inr rfl, idle.addColumn, nodup_snoc nodup hold, requested_append hi.kept (hi.requested hb) requested⟩
    simp only [Operator.require, if_neg hold, hi.run, Option.bind_eq_bind, Option.bind_some,
      Operator.bindings, hb, decide_true, if_true]
    rfl
  · refine ⟨results, input', requiredIUs, ⟨?_, hi.kept.selfJoin fun _ hi => hi, fun h => absurd h hb⟩,
      .inr rfl, idle, nodup, fun i hmem => hi.kept.requested i (requested i hmem)⟩
    simp only [Operator.require, if_neg hold, hi.run, Option.bind_eq_bind, Option.bind_some,
      Operator.bindings, hb, decide_false, Bool.false_eq_true, if_false]
    rfl

end Query
