import HyuIte4065.Query.Requests

/-!
# What the operators compute

What each operator leaves when its inputs have run: for every column that was required of it the
values of the same tuples, all columns in the same order. The indices and counters of the columns
have to be large enough.
-/
namespace Query

open Enumerate Loops

variable (relations : List Relation) (query : QueryInfo) in
/-- The results of the operator are the values of the rows. -/
structure Shows (op : Operator) (requested : SelectInfo → Prop) (rows : List Tuple) : Prop where
  size : op.resultSize = rows.length
  column : ∀ info, requested info →
    op.column info = some (rows.map (value relations query · info))

variable {relations : List Relation} {query : QueryInfo} {containers : Containers}
  {results : Results} {columns : List Column} {relation : Relation} {binding : Nat}
  {infos : List SelectInfo} {info : SelectInfo} {rows : List Tuple} {op : Operator} {k : Nat}

theorem Operator.column_eq (h : op.resolve info = some k) : op.column info = op.getResults[k]? := by
  rw [Operator.column, h]
  rfl

theorem Reads.column_get (h : Reads relations query results columns relation binding infos)
    (hlen : infos.length ≤ 2 ^ 32) (hr : results.select2ResultColId info ≠ none) (rows : List Tuple) :
    ∃ k, results.select2ResultColId info = some k ∧
      (columnsOf relations query infos rows)[k]? = some (rows.map (value relations query · info)) := by
  obtain ⟨k, hk⟩ := Option.ne_none_iff_exists'.mp hr
  exact ⟨k, hk, columnsOf_get (h.numbered.position hlen info k hk)⟩

theorem Reads.length_eq (h : Reads relations query results columns relation binding infos) :
    infos.length = columns.length := by
  rw [h.columns, columnsOf, List.length_map]

theorem Reads.run_scan (h : Reads relations query results results.resultColumns relation binding infos)
    (hlen : results.resultColumns.length ≤ 2 ^ 32) (fuel : Nat) :
    ∃ op, (Operator.scan results relation binding).run containers (fuel + 1) = some op ∧
      Shows relations query op (Operator.scan results relation binding).Requested
        (boundRows relations query binding) := by
  refine ⟨_, rfl, ?_, fun info hr => ?_⟩
  · rw [boundRows, List.length_map, List.length_range, numRows_eq h.bound]
    rfl
  · obtain ⟨k, hk, hget⟩ := h.column_get (h.length_eq.trans_le hlen) hr (boundRows relations query binding)
    refine (Operator.column_eq (k := k) ?_).trans ?_
    · exact hk
    · exact h.columns ▸ hget

/-- The filter on a row of the relation; which binding it names makes no difference. -/
def FilterInfo.passes (f : FilterInfo) (relation : Relation) (i : Nat) : Bool :=
  let value := ((relation.columns[f.filterColumn.colId]?).bind (·[i]?)).getD 0
  match f.comparison with
  | .equal => decide (value = f.constant)
  | .greater => decide (value > f.constant)
  | .less => decide (value < f.constant)

theorem applyFilter_eq {f : FilterInfo} {i : Nat} (hcol : f.filterColumn.colId < relation.columns.length)
    (hi : i < relation.size) : Operator.applyFilter relation i f = some (f.passes relation i) := by
  have hget := List.getElem?_eq_getElem hcol
  have hrow := relation.rectangular _ (List.getElem_mem hcol) ▸ hi
  simp only [Operator.applyFilter, FilterInfo.passes, hget, List.getElem?_eq_getElem hrow,
    Option.bind_eq_bind, Option.bind_some, Option.getD_some]
  rfl

variable (relations query) in
/-- The rows of a relation that pass the filters. -/
def passing (relation : Relation) (binding : Nat) (filters : List FilterInfo) : List Tuple :=
  (boundRows relations query binding).filter fun t => filters.all (·.passes relation (t binding))

theorem Reads.run_filterScan {filters : List FilterInfo}
    (h : Reads relations query results columns relation binding infos)
    (idle : results.Idle infos.length)
    (hfilters : ∀ f ∈ filters, 0 < relation.size → f.filterColumn.colId < relation.columns.length)
    (hlen : columns.length < 2 ^ 32) (fuel : Nat) :
    ∃ op, (Operator.filterScan results relation binding filters columns).run containers (fuel + 1) =
        some op ∧
      Shows relations query op (Operator.filterScan results relation binding filters columns).Requested
        (passing relations query relation binding filters) := by
  have hinfos : infos.length < 2 ^ 32 := h.length_eq ▸ hlen
  have hsize : (boundRows relations query binding).length = relation.size := by
    rw [boundRows, List.length_map, List.length_range, numRows_eq h.bound]
  have hpass : ∀ i < relation.size,
      filters.foldlM (fun pass f => do return pass && (← Operator.applyFilter relation i f)) true =
        some (filters.all (·.passes relation i)) := by
    intro i hi
    rw [foldlM_eq_some (fun pass f => pass && f.passes relation i) ?_, foldl_and]
    · rfl
    · intro f hf s
      rw [applyFilter_eq (hfilters f hf (Nat.zero_lt_of_lt hi)) hi]
      rfl
  have hloop : (List.range relation.size).foldlM (fun results i => do
      let pass ← filters.foldlM
        (fun pass f => do return pass && (← Operator.applyFilter relation i f)) true
      if pass then Operator.copy2Result columns results i else some results) results =
        some (results.fill relations query infos (passing relations query relation binding filters)) := by
    rw [passing, ← flatMap_ite, boundRows, List.flatMap_map, numRows_eq h.bound]
    refine idle.foldlM _ fun i hi rows => ?_
    rw [List.mem_range] at hi
    rw [hpass i hi, Option.bind_eq_bind, Option.bind_some]
    simp only [Pi.single_eq_same]
    by_cases hp : filters.all (·.passes relation i) = true
    · rw [if_pos hp, if_pos hp, h.columns, copy2Result_fill hinfos (by rwa [hsize]), boundRows,
        List.getD_eq_getElem?_getD, List.getElem?_map, numRows_eq h.bound, List.getElem?_range hi]
      rfl
    · rw [if_neg hp, if_neg hp, List.append_nil]
  refine ⟨.filterScan (results.fill relations query infos (passing relations query relation binding filters))
    relation binding filters columns, ?_, rfl, fun info hr => ?_⟩
  · rw [Operator.run, hloop]
    rfl
  · obtain ⟨k, hk, hget⟩ := h.column_get hinfos.le hr (passing relations query relation binding filters)
    refine (Operator.column_eq (k := k) ?_).trans ?_
    · exact hk
    · exact hget

theorem getD_mem {i : Nat} (h : i < rows.length) : rows.getD i 0 ∈ rows := by
  rw [List.getD_eq_getElem?_getD, List.getElem?_eq_getElem h]
  exact List.getElem_mem h

theorem Shows.copyData {requested : SelectInfo → Prop}
    (h : Shows relations query op requested rows) (hr : ∀ i ∈ infos, requested i) :
    infos.mapM op.column = some (columnsOf relations query infos rows) :=
  mapM_eq_some fun i hi => h.column i (hr i hi)

/-- The columns of an operator that has filled and numbered them. -/
theorem column_fill (hres : op.getResults = columnsOf relations query infos rows)
    (hnum : op.results.select2ResultColId = (Operator.numberColumns results infos 0).select2ResultColId)
    (hnd : infos.Nodup) (hlen : infos.length ≤ 2 ^ 32) (hi : info ∈ infos) :
    op.column info = some (rows.map (value relations query · info)) := by
  obtain ⟨i, hget⟩ := List.mem_iff_getElem?.mp hi
  have hresolve : op.resolve info = some i := by
    rw [Operator.resolve, hnum, numberColumns_select hnd (by rwa [Nat.zero_add]) hget, Nat.zero_add]
  rw [Operator.column_eq hresolve, hres, columnsOf_get hget]

variable (relations : List Relation) (query : QueryInfo) in
/-- The hash table of the build phase. -/
def tableOf (key : SelectInfo) (rows : List Tuple) : List (Value × Nat) :=
  (List.range rows.length).map fun i => (value relations query (rows.getD i 0) key, i)

section
variable {key : SelectInfo}

theorem build_table : ((List.range rows.length).mapM fun i =>
    ((rows.map (value relations query · key))[i]?).map (·, i)) =
      some (tableOf relations query key rows) := by
  refine mapM_eq_some fun i hi => ?_
  rw [values_get (List.mem_range.mp hi)]
  rfl

theorem equalRange_lt {v : Value} {i : Nat}
    (h : i ∈ containers.equalRange (tableOf relations query key rows) v) : i < rows.length := by
  rw [(containers.equalRange_perm _ _).mem_iff, List.mem_map] at h
  obtain ⟨entry, hmem, rfl⟩ := h
  obtain ⟨i, hi, rfl⟩ := List.mem_map.mp (List.mem_of_mem_filter hmem)
  exact List.mem_range.mp hi

/-- The rows that a probe of the table finds. -/
theorem equalRange_rows (v : Value) :
    ((containers.equalRange (tableOf relations query key rows) v).map fun i => rows.getD i 0).Perm
      (rows.filter fun t => decide (value relations query t key = v)) := by
  refine ((containers.equalRange_perm _ v).map _).trans (List.Perm.of_eq ?_)
  conv_rhs => rw [← map_range_getD rows 0]
  rw [tableOf, List.filter_map, List.filter_map, List.map_map, List.map_map]
  rfl

end

section
variable {left right : Operator} {bindingsLeft bindingsRight : Finset Nat}
  {predicatesLeft predicatesRight : List PredicateInfo} {requestedLeft requestedRight : List SelectInfo}
  {requestsLeft requestsRight : SelectInfo → Prop} {rowsLeft rowsRight : List Tuple}
  {pInfo : PredicateInfo} {requested : List SelectInfo}

variable (relations query containers) in
/-- The tuples in the order in which the probe phase finds them. -/
def probe (pInfo : PredicateInfo) (rowsLeft rowsRight : List Tuple) : List Tuple :=
  rowsRight.flatMap fun b =>
    (containers.equalRange (tableOf relations query pInfo.left rowsLeft)
      (value relations query b pInfo.right)).map fun i => rowsLeft.getD i 0 + b

/-- The probe phase finds, for each row of the right input, those of the left input that match. -/
theorem probe_perm : (probe relations query containers pInfo rowsLeft rowsRight).Perm
    (rowsRight.flatMap fun b => (rowsLeft.filter fun a => decide (value relations query a pInfo.left =
      value relations query b pInfo.right)).map fun a => a + b) := by
  refine List.Perm.flatMap_left _ fun b _ => ?_
  have hfound : ((containers.equalRange (tableOf relations query pInfo.left rowsLeft)
      (value relations query b pInfo.right)).map fun i => rowsLeft.getD i 0).Perm _ := equalRange_rows _
  have hsums := hfound.map (· + b)
  rwa [List.map_map] at hsums

theorem copyPair2Result_fill {i j : Nat} (hlen : (requestedLeft ++ requestedRight).length < 2 ^ 32)
    (hi : i < rowsLeft.length) (hj : j < rowsRight.length)
    (hl : ∀ info ∈ requestedLeft, rowsRight.getD j 0 info.binding = 0)
    (hr : ∀ info ∈ requestedRight, rowsLeft.getD i 0 info.binding = 0) :
    Operator.copyPair2Result (columnsOf relations query requestedLeft rowsLeft)
      (columnsOf relations query requestedRight rowsRight)
      (results.fill relations query (requestedLeft ++ requestedRight) rows) (i, j) =
    some (results.fill relations query (requestedLeft ++ requestedRight)
      (rows ++ [rowsLeft.getD i 0 + rowsRight.getD j 0])) := by
  rw [List.length_append] at hlen
  obtain ⟨relColId, hleft, hend⟩ := copyColumns_fill relations query rows []
    (columnsOf relations query requestedRight rows) 0 hi
    (fun info h => (value_add_left (hl info h)).symm) rfl (by simp; omega)
  obtain ⟨relColId', hright, -⟩ := copyColumns_fill relations query rows
    (columnsOf relations query requestedLeft (rows ++ [rowsLeft.getD i 0 + rowsRight.getD j 0])) [] relColId hj
    (fun info h => (value_add_right (hr info h)).symm)
    (by rw [hend, columnsOf, List.length_map, List.length_nil, Nat.zero_add]) (by rwa [columnsOf, List.length_map])
  simp only [List.nil_append, List.append_nil] at hleft hright
  simp only [Operator.copyPair2Result, Results.fill, columnsOf_append, hleft, hright, bind_some,
    List.length_append, List.length_singleton]
  rfl

/-- The probe phase: for each row of the right input one turn of the inner loop for each match. -/
theorem probe_loop (idle : results.Idle (requestedLeft ++ requestedRight).length)
    (hlen : (requestedLeft ++ requestedRight).length < 2 ^ 32)
    (hl : ∀ info ∈ requestedLeft, ∀ t ∈ rowsRight, t info.binding = 0)
    (hr : ∀ info ∈ requestedRight, ∀ t ∈ rowsLeft, t info.binding = 0) :
    ((List.range rowsRight.length).foldlM (fun results i => do
      let rightKey ← (rowsRight.map (value relations query · pInfo.right))[i]?
      (containers.equalRange (tableOf relations query pInfo.left rowsLeft) rightKey).foldlM
        (fun results leftId => Operator.copyPair2Result (columnsOf relations query requestedLeft rowsLeft)
          (columnsOf relations query requestedRight rowsRight) results (leftId, i)) results) results) =
    some (results.fill relations query (requestedLeft ++ requestedRight)
      (probe relations query containers pInfo rowsLeft rowsRight)) := by
  have hprobe : probe relations query containers pInfo rowsLeft rowsRight =
      (List.range rowsRight.length).flatMap fun j =>
        (containers.equalRange (tableOf relations query pInfo.left rowsLeft)
          (value relations query (rowsRight.getD j 0) pInfo.right)).flatMap
            fun i => [rowsLeft.getD i 0 + rowsRight.getD j 0] := by
    conv_lhs => rw [probe, ← map_range_getD rowsRight 0, List.flatMap_map]
    simp only [List.map_eq_flatMap]
  rw [hprobe]
  refine idle.foldlM _ fun j hj rows => ?_
  have hjlt := List.mem_range.mp hj
  rw [values_get hjlt, Option.bind_eq_bind, Option.bind_some]
  refine foldlM_fill _ fun i hi rows => ?_
  have hilt := equalRange_lt hi
  exact copyPair2Result_fill hlen hilt hjlt (fun info h => hl info h _ (getD_mem hjlt))
    fun info h => hr info h _ (getD_mem hilt)

variable (containers pInfo requested) in
theorem Shows.joinRun (idle : results.Idle (requestedLeft ++ requestedRight).length)
    (nodup : (requestedLeft ++ requestedRight).Nodup) (hlen : (requestedLeft ++ requestedRight).length < 2 ^ 32)
    (hl : Shows relations query left requestsLeft rowsLeft)
    (hr : Shows relations query right requestsRight rowsRight)
    (left_requested : ∀ info ∈ requestedLeft, requestsLeft info)
    (right_requested : ∀ info ∈ requestedRight, requestsRight info)
    (left_zero : ∀ info ∈ requestedLeft, ∀ t ∈ rowsRight, t info.binding = 0)
    (right_zero : ∀ info ∈ requestedRight, ∀ t ∈ rowsLeft, t info.binding = 0)
    (hpl : requestsLeft pInfo.left) (hpr : requestsRight pInfo.right) :
    ∃ op,
      Operator.joinRun containers results left right pInfo requested requestedLeft requestedRight = some op ∧
      Shows relations query op (· ∈ requestedLeft ++ requestedRight)
        (probe relations query containers pInfo rowsLeft rowsRight) := by
  refine ⟨.join (Results.fill relations query
    (Operator.numberColumns results (requestedLeft ++ requestedRight) 0) (requestedLeft ++ requestedRight)
    (probe relations query containers pInfo rowsLeft rowsRight)) left right pInfo requested requestedLeft
    requestedRight, ?_, rfl, fun info hi => column_fill rfl rfl nodup hlen.le hi⟩
  simp only [Operator.joinRun, hl.copyData left_requested, hr.copyData right_requested,
    hl.column _ hpl, hr.column _ hpr, hl.size, hr.size, numberColumns_append, build_table, bind_some]
  rw [probe_loop idle.numberColumns hlen left_zero right_zero]
  rfl

end

theorem select_loop {pInfo : PredicateInfo} (idle : results.Idle infos.length) (hlen : infos.length < 2 ^ 32) :
    ((List.range rows.length).foldlM (fun results i => do
      if (← (rows.map (value relations query · pInfo.left))[i]?) =
          (← (rows.map (value relations query · pInfo.right))[i]?)
      then Operator.copy2Result (columnsOf relations query infos rows) results i
      else some results) results) =
    some (results.fill relations query infos (rows.filter fun t => pInfo.holds relations query t)) := by
  have hfilter : (rows.filter fun t => pInfo.holds relations query t) =
      (List.range rows.length).flatMap fun i =>
        if pInfo.holds relations query (rows.getD i 0) then [rows.getD i 0] else [] := by
    rw [← flatMap_ite]
    conv_lhs => rw [← map_range_getD rows 0, List.flatMap_map]
  rw [hfilter]
  refine idle.foldlM _ fun i hi copied => ?_
  have hlt := List.mem_range.mp hi
  rw [values_get hlt, values_get hlt, bind_some, bind_some]
  simp only [PredicateInfo.holds, decide_eq_true_eq]
  by_cases he : value relations query (rows.getD i 0) pInfo.left =
      value relations query (rows.getD i 0) pInfo.right
  · rw [if_pos he, if_pos he, copy2Result_fill hlen hlt]
  · rw [if_neg he, if_neg he, List.append_nil]

variable (containers) in
theorem Shows.selfJoinRun {input : Operator} {requests : SelectInfo → Prop}
    {requiredIUs : List SelectInfo} {pInfo : PredicateInfo}
    (idle : results.Idle requiredIUs.length) (nodup : requiredIUs.Nodup) (hlen : requiredIUs.length < 2 ^ 32)
    (h : Shows relations query input requests rows)
    (requested : ∀ info ∈ requiredIUs, requests info)
    (hpl : requests pInfo.left) (hpr : requests pInfo.right) :
    ∃ op, Operator.selfJoinRun containers results input pInfo requiredIUs = some op ∧
      Shows relations query op (· ∈ requiredIUs) (rows.filter fun t => pInfo.holds relations query t) := by
  have hwalk := containers.walk_perm requiredIUs
  have hwalklen : (containers.walk requiredIUs).length < 2 ^ 32 := hwalk.length_eq ▸ hlen
  have hidle : (Operator.numberColumns results (containers.walk requiredIUs) 0).Idle
      (containers.walk requiredIUs).length := by
    rw [hwalk.length_eq]
    exact idle.numberColumns
  refine ⟨.selfJoin (Results.fill relations query
    (Operator.numberColumns results (containers.walk requiredIUs) 0) (containers.walk requiredIUs)
    (rows.filter fun t => pInfo.holds relations query t)) input pInfo requiredIUs, ?_, rfl,
    fun info hi => column_fill rfl rfl (hwalk.nodup_iff.mpr nodup) hwalklen.le (hwalk.mem_iff.mpr hi)⟩
  simp only [Operator.selfJoinRun, h.copyData fun i hi => requested i (hwalk.mem_iff.mp hi),
    h.column _ hpl, h.column _ hpr, h.size, bind_some]
  rw [select_loop hidle hwalklen]
  rfl

end Query
