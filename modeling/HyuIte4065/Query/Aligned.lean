import HyuIte4065.Query.Widths

/-!
# Operator trees compute what they stand for

Through requests and the run every operator keeps its columns aligned: row for row they hold
the values of the same tuples.
-/
namespace Query

open Loops Operator

/-- The trees stand for the same tuples. -/
structure SameTuples (op op' : Operator) : Prop where
  relationOf : op'.relationOf = op.relationOf
  tuples : op'.tuples = op.tuples

theorem SameTuples.refl (op : Operator) : SameTuples op op := ⟨rfl, rfl⟩

theorem SameTuples.trans {op op' op'' : Operator} (h : SameTuples op op') (h' : SameTuples op' op'') :
    SameTuples op op'' :=
  ⟨h'.relationOf.trans h.relationOf, h'.tuples.trans h.tuples⟩

section
variable (relations : List Relation) (query : QueryInfo)

/-- A tree that has been asked for columns and has not been run. -/
inductive Prepared : Operator → Prop
  | scan {results relation binding infos}
      (reads : Reads relations query results results.resultColumns relation binding infos) :
      Prepared (.scan results relation binding)
  | filterScan {results relation binding filters inputData infos}
      (reads : Reads relations query results inputData relation binding infos)
      (idle : results.Idle infos.length)
      (columns : ∀ f ∈ filters, 0 < relation.size → f.filterColumn.colId < relation.columns.length) :
      Prepared (.filterScan results relation binding filters inputData)
  | join {results left right pInfo requested requestedLeft requestedRight}
      (asked : Asked results left right requested requestedLeft requestedRight)
      (left_prepared : Prepared left) (right_prepared : Prepared right)
      (disjoint : Disjoint left.bindings right.bindings)
      (left_column : left.HasColumn pInfo.left) (right_column : right.HasColumn pInfo.right) :
      Prepared (.join results left right pInfo requested requestedLeft requestedRight)
  | selfJoin {results input pInfo requiredIUs}
      (idle : results.Idle requiredIUs.length) (input_prepared : Prepared input)
      (left_column : input.HasColumn pInfo.left) (right_column : input.HasColumn pInfo.right)
      (nodup : requiredIUs.Nodup) (requested : ∀ info ∈ requiredIUs, input.Requested info) :
      Prepared (.selfJoin results input pInfo requiredIUs)

def Available (info : SelectInfo) : Prop :=
  ∃ relation, boundRelation relations query info.binding = some relation ∧
    info.colId < relation.columns.length

/-- A request has been answered. -/
structure Served (op : Operator) (info : SelectInfo) (op' : Operator) : Prop where
  answers : Answers op info op'
  prepared : Prepared relations query op'
  same : SameTuples op op'

end

variable {relations : List Relation} {query : QueryInfo} {containers : Containers}
  {op op' : Operator} {info : SelectInfo} {results : Results} {relation : Relation} {binding : Nat}
  {infos : List SelectInfo} {bindings : Finset Nat} {columns : Finset SelectInfo}

theorem Prepared.binding_mem (h : Prepared relations query op) (hr : op.Requested info) :
    info.binding ∈ op.bindings := by
  induction h with
  | scan reads => exact Finset.mem_singleton.mpr (reads.binding_eq hr)
  | filterScan reads _ _ => exact Finset.mem_singleton.mpr (reads.binding_eq hr)
  | join asked _ _ _ _ _ ihl ihr =>
    rw [Operator.bindings, Finset.mem_union]
    rcases List.mem_append.mp (asked.split.mem_iff.mp hr) with hl | hr
    · exact .inl (ihl (asked.left_requested _ hl))
    · exact .inr (ihr (asked.right_requested _ hr))
  | selfJoin _ _ _ _ _ requested ih => exact ih (requested _ hr)

theorem Prepared.relationOf_eq (h : Prepared relations query op) (hb : binding ∈ op.bindings) :
    op.relationOf binding = boundRelation relations query binding := by
  induction h with
  | scan reads =>
    obtain rfl := Finset.mem_singleton.mp hb
    rw [Operator.relationOf, if_pos rfl, reads.bound]
  | filterScan reads _ _ =>
    obtain rfl := Finset.mem_singleton.mp hb
    rw [Operator.relationOf, if_pos rfl, reads.bound]
  | join _ _ _ disjoint _ _ ihl ihr =>
    rcases Finset.mem_union.mp hb with hl | hr
    · exact (relationOf_join_left hl).trans (ihl hl)
    · exact (relationOf_join_right disjoint hr).trans (ihr hr)
  | selfJoin _ _ _ _ _ _ ih => exact ih hb

theorem Prepared.entry_eq (h : Prepared relations query op) (hb : info.binding ∈ op.bindings) (t : Tuple) :
    op.entry t info = value relations query t info := by
  rw [Operator.entry, h.relationOf_eq hb]
  rfl

theorem Prepared.available (h : Prepared relations query op) (hcol : op.HasColumn info) :
    Available relations query info := by
  obtain ⟨relation, hrel, hlt⟩ := hcol
  have hb : info.binding ∈ op.bindings := relationOf_isSome.mp (by rw [hrel]; rfl)
  exact ⟨relation, by rw [← h.relationOf_eq hb, hrel], hlt⟩

/-- A tree whose constructors have just been called. -/
theorem Operator.Built.prepared (hbuilt : op.Built) (hplaced : op.WellPlaced) (hnodup : op.scans.Nodup)
    (hbound : ∀ b ∈ op.bindings, boundRelation relations query b = op.relationOf b) :
    Prepared relations query op := by
  induction hbuilt with
  | scan relation relationBinding =>
    refine .scan (.new ?_)
    rw [hbound _ (Finset.mem_singleton_self _), newScan, Operator.relationOf, if_pos rfl]
  | @filterScan relation filters op new =>
    obtain ⟨filter, hfilter, he⟩ := Option.bind_eq_some_iff.mp new
    obtain rfl := Option.some.inj he
    refine .filterScan (.new ?_) Results.Idle.new hplaced
    rw [hbound _ (Finset.mem_singleton_self _), Operator.relationOf, if_pos rfl]
  | @join left right pInfo hl hr ihl ihr =>
    obtain ⟨placedl, placedr, left_column, right_column⟩ := hplaced
    obtain ⟨nodupl, nodupr, hdisj⟩ := List.nodup_append'.mp hnodup
    have disjoint : Disjoint left.bindings right.bindings :=
      Finset.disjoint_left.mpr fun b hl hr => hdisj (mem_scans.mpr hl) (mem_scans.mpr hr)
    refine .join ⟨Results.Idle.new, List.nodup_nil, .refl _, by simp, by simp⟩
      (ihl placedl nodupl fun b hb => ?_) (ihr placedr nodupr fun b hb => ?_) disjoint left_column right_column
    · exact (hbound b (Finset.mem_union_left _ hb)).trans (relationOf_join_left hb)
    · exact (hbound b (Finset.mem_union_right _ hb)).trans (relationOf_join_right disjoint hb)
  | selfJoin pInfo hi ih =>
    obtain ⟨placed, left_column, right_column⟩ := hplaced
    exact .selfJoin Results.Idle.new (ih placed hnodup hbound) left_column right_column List.nodup_nil (by simp)

theorem SameTuples.join {left left' right right' : Operator} {results' : Results} {pInfo : PredicateInfo}
    {requested requested' requestedLeft requestedLeft' requestedRight requestedRight' : List SelectInfo}
    (hl : SameTuples left left') (hr : SameTuples right right') :
    SameTuples (.join results left right pInfo requested requestedLeft requestedRight)
      (.join results' left' right' pInfo requested' requestedLeft' requestedRight') := by
  constructor
  · funext binding
    rw [Operator.relationOf, Operator.relationOf, hl.relationOf, hr.relationOf]
  · rw [Operator.tuples, Operator.tuples, hl.tuples, hr.tuples, entry_congr hl.relationOf,
      entry_congr hr.relationOf]

theorem SameTuples.selfJoin {input input' : Operator} {results' : Results} {pInfo : PredicateInfo}
    {requiredIUs requiredIUs' : List SelectInfo} (h : SameTuples input input') :
    SameTuples (.selfJoin results input pInfo requiredIUs) (.selfJoin results' input' pInfo requiredIUs') :=
  ⟨h.relationOf, by rw [Operator.tuples, Operator.tuples, h.tuples, entry_congr h.relationOf]⟩

theorem Reads.lt_of_available {columns : List Column}
    (h : Reads relations query results columns relation binding infos) (hb : info.binding = binding)
    (hi : Available relations query info) : info.colId < relation.columns.length := by
  obtain ⟨relation', hbound, hlt⟩ := hi
  rw [hb, h.bound] at hbound
  exact Option.some.inj hbound ▸ hlt

/-- Either the input has served the request or it has not been asked. -/
theorem Served.of_or {op₁ : Operator} (h : Served relations query op info op')
    (hp : Prepared relations query op) (he : op₁ = op ∨ op₁ = op') :
    Prepared relations query op₁ ∧ SameTuples op op₁ ∧ op₁.bindings = op.bindings := by
  rcases he with rfl | rfl
  · exact ⟨hp, .refl _, rfl⟩
  · exact ⟨h.prepared, h.same, h.answers.kept.bindings⟩

/-- Every request for a column that exists, or of a binding that is not scanned, is answered. -/
theorem Prepared.require (h : Prepared relations query op)
    (hcol : info.binding ∈ op.bindings → Available relations query info) :
    ∃ op', Served relations query op info op' := by
  have hbinding : ∀ i, op.Requested i → i.binding ∈ op.bindings := fun i hr => h.binding_mem hr
  induction h with
  | @scan results relation binding infos reads =>
    have hlt : info.binding = binding → info.colId < relation.columns.length :=
      fun hb => reads.lt_of_available hb (hcol (Finset.mem_singleton.mpr hb))
    obtain ⟨results', infos', hrun, hreads, hold, hnew⟩ := reads.require_scan hlt
    refine ⟨.scan results' relation binding,
      ⟨?_, ⟨rfl, rfl, rfl, hold⟩, fun h => hnew (Finset.mem_singleton.mp h)⟩, .scan hreads, ⟨rfl, rfl⟩⟩
    simp only [hrun, Operator.bindings, Finset.mem_singleton]
  | @filterScan results relation binding filters inputData infos reads idle columns =>
    have hlt : info.binding = binding → info.colId < relation.columns.length :=
      fun hb => reads.lt_of_available hb (hcol (Finset.mem_singleton.mpr hb))
    obtain ⟨results', columns', infos', hrun, hreads, hidle, hold, hnew⟩ :=
      reads.require_filterScan filters idle hlt
    refine ⟨.filterScan results' relation binding filters columns',
      ⟨?_, ⟨rfl, rfl, rfl, hold⟩, fun h => hnew (Finset.mem_singleton.mp h)⟩,
      .filterScan hreads hidle columns, ⟨rfl, rfl⟩⟩
    simp only [hrun, Operator.bindings, Finset.mem_singleton]
  | @join results left right pInfo requested requestedLeft requestedRight asked hl hr disjoint left_column
      right_column ihl ihr =>
    obtain ⟨left', hl'⟩ := ihl (fun hb => hcol (Finset.mem_union_left _ hb)) fun i hr => hl.binding_mem hr
    obtain ⟨right', hr'⟩ := ihr (fun hb => hcol (Finset.mem_union_right _ hb)) fun i h => hr.binding_mem h
    obtain ⟨results₁, left₁, right₁, _, _, _, hanswers, hl₁, hr₁, hasked⟩ :=
      asked.require pInfo hbinding hl'.answers hr'.answers
    obtain ⟨hleft, hsamel, hbl⟩ := hl'.of_or hl hl₁
    obtain ⟨hright, hsamer, hbr⟩ := hr'.of_or hr hr₁
    exact ⟨_, hanswers, .join hasked hleft hright (by rwa [hbl, hbr])
      ((hasColumn_congr hsamel.relationOf).mpr left_column)
      ((hasColumn_congr hsamer.relationOf).mpr right_column), hsamel.join hsamer⟩
  | @selfJoin results input pInfo requiredIUs idle hp left_column right_column nodup requested ih =>
    obtain ⟨input', hi'⟩ := ih hcol fun i hr => hp.binding_mem hr
    obtain ⟨results₁, input₁, _, hanswers, hi₁, hidle, hnodup, hrequested⟩ :=
      Answers.selfJoin pInfo idle nodup requested hbinding hi'.answers
    obtain ⟨hinput, hsame, -⟩ := hi'.of_or hp hi₁
    exact ⟨_, hanswers, .selfJoin hidle hinput ((hasColumn_congr hsame.relationOf).mpr left_column)
      ((hasColumn_congr hsame.relationOf).mpr right_column) hnodup hrequested, hsame.selfJoin⟩

/-- What the requests have been answered. -/
theorem Prepared.requireAll (h : Prepared relations query op)
    (hcol : ∀ info ∈ infos, info.binding ∈ op.bindings → Available relations query info) :
    ∃ op', op.requireAll infos = some (infos.map fun info => decide (info.binding ∈ op.bindings), op') ∧
      Prepared relations query op' ∧ SameTuples op op' ∧ Kept op op' ∧
      ∀ info ∈ infos, info.binding ∈ op.bindings → op'.Requested info := by
  induction infos generalizing op with
  | nil => exact ⟨op, rfl, h, .refl op, .refl op, by simp⟩
  | cons info infos ih =>
    obtain ⟨op₁, hserved⟩ := h.require (hcol info List.mem_cons_self)
    have hkept := hserved.answers.kept
    obtain ⟨op₂, hrun, hprepared, hsame, hkept', hrequested⟩ := ih hserved.prepared fun i hi hb =>
      hcol i (List.mem_cons_of_mem _ hi) (hkept.bindings ▸ hb)
    refine ⟨op₂, ?_, hprepared, hserved.same.trans hsame, hkept.trans hkept', fun i hi hb => ?_⟩
    · simp only [Operator.requireAll, hserved.answers.run, hrun, hkept.bindings, bind_some, List.map_cons]
      rfl
    · rcases List.mem_cons.mp hi with rfl | hi
      · exact hkept'.requested _ (hserved.answers.requested hb)
      · exact hrequested i hi (hkept.bindings ▸ hb)

/-- The columns that the operators have noted after some requests. -/
theorem Operator.Within.requireAll {successes : List Bool} (h : op.Within columns)
    (hr : op.requireAll infos = some (successes, op'))
    (hs : successes = infos.map fun info => decide (info.binding ∈ bindings))
    (hi : ∀ info ∈ infos, info.binding ∈ bindings → info ∈ columns) :
    op'.Within columns ∧ op'.isScan = op.isScan ∧
      op'.scanned ≤ op.scanned + (infos.filter fun info => decide (info.binding ∈ bindings)).length := by
  induction infos generalizing op successes with
  | nil =>
    obtain ⟨-, rfl⟩ := Prod.mk.inj (Option.some.inj hr)
    exact ⟨h, rfl, Nat.le_add_right _ _⟩
  | cons info infos ih =>
    obtain ⟨⟨success, op₁⟩, hfirst, hr⟩ := Option.bind_eq_some_iff.mp hr
    obtain ⟨⟨rest, op₂⟩, hrest, hr⟩ := Option.bind_eq_some_iff.mp hr
    obtain ⟨rfl, rfl⟩ := Prod.mk.inj (Option.some.inj hr)
    obtain ⟨rfl, hrest'⟩ := List.cons.inj hs
    obtain ⟨hown, hothers⟩ := List.forall_mem_cons.mp hi
    obtain ⟨hwithin, hlen, hkind⟩ := h.require (fun hb => hown (of_decide_eq_true hb)) hfirst
    obtain ⟨hwithin', hkind', hlen'⟩ := ih hwithin hrest hrest' hothers
    refine ⟨hwithin', hkind'.trans hkind, ?_⟩
    by_cases hb : info.binding ∈ bindings
    · rw [List.filter_cons_of_pos (by simpa using hb), List.length_cons]
      simp only [hb, decide_true, Bool.toNat_true] at hlen
      omega
    · rw [List.filter_cons_of_neg (by simpa using hb)]
      simp only [hb, decide_false, Bool.toNat_false] at hlen
      omega

theorem coe_boundRows (h : boundRelation relations query binding = some relation) :
    (boundRows relations query binding : Multiset Tuple) =
      (Multiset.range relation.size).map (Pi.single binding) := by
  rw [boundRows, numRows_eq h]
  rfl

theorem coe_passing {filters : List FilterInfo} (h : boundRelation relations query binding = some relation) :
    (passing relations query relation binding filters : Multiset Tuple) =
      ((Multiset.range relation.size).filter fun i => filters.all (·.passes relation i)).map
        (Pi.single binding) := by
  have hpassing : (passing relations query relation binding filters : Multiset Tuple) =
      (boundRows relations query binding : Multiset Tuple).filter fun t =>
        filters.all (·.passes relation (t binding)) := by
    simp only [passing, Multiset.filter_coe, Bool.decide_eq_true]
  rw [hpassing, coe_boundRows h, Multiset.filter_map]
  congr 1
  refine Multiset.filter_congr fun i _ => ?_
  rw [Function.comp_apply, Pi.single_eq_same]

/-- The rows of a join are the pairs that match. -/
theorem coe_probe {pInfo : PredicateInfo} {rowsLeft rowsRight : List Tuple} :
    (probe relations query containers pInfo rowsLeft rowsRight : Multiset Tuple) =
      (((rowsLeft : Multiset Tuple) ×ˢ (rowsRight : Multiset Tuple)).filter fun pair =>
        value relations query pair.1 pInfo.left = value relations query pair.2 pInfo.right).map
          fun pair => pair.1 + pair.2 := by
  rw [Multiset.coe_eq_coe.mpr probe_perm, ← Multiset.map_swap_product, Multiset.filter_map,
    Multiset.map_map, Multiset.coe_product, Multiset.filter_coe, Multiset.map_coe]
  congr 1
  simp only [SProd.sprod, List.product, List.filter_flatMap, List.map_flatMap, List.filter_map, List.map_map]
  rfl

/-- Which input is on the left makes no difference. -/
theorem matching_swap (f g : Tuple → Value) (s t : Multiset Tuple) :
    ((s ×ˢ t).filter fun pair => f pair.1 = g pair.2).map (fun pair => pair.1 + pair.2) =
      ((t ×ˢ s).filter fun pair => g pair.1 = f pair.2).map fun pair => pair.1 + pair.2 := by
  rw [← Multiset.map_swap_product t s, Multiset.filter_map, Multiset.map_map]
  refine Multiset.map_congr (Multiset.filter_congr fun pair _ => eq_comm) fun pair _ => add_comm _ _

variable (containers) in
/-- The smaller input is on the left in the run, whichever it is. -/
theorem Asked.joinRun {left right left' right' leftRun rightRun : Operator} {pInfo : PredicateInfo}
    {requested requestedLeft requestedRight : List SelectInfo} {rowsLeft rowsRight : List Tuple}
    (asked : Asked results left right requested requestedLeft requestedRight)
    (hp : Prepared relations query (.join results left right pInfo requested requestedLeft requestedRight))
    (hlen : requested.length < 2 ^ 32)
    (hl : Served relations query left pInfo.left left') (hr : Served relations query right pInfo.right right')
    (hshowsl : Shows relations query leftRun left'.Requested rowsLeft)
    (hshowsr : Shows relations query rightRun right'.Requested rowsRight)
    (htuplesl : (rowsLeft : Multiset Tuple) = left.tuples) (htuplesr : (rowsRight : Multiset Tuple) = right.tuples) :
    ∃ op' rows, (if leftRun.resultSize > rightRun.resultSize then
        Operator.joinRun containers results rightRun leftRun ⟨pInfo.right, pInfo.left⟩ requested requestedRight
          requestedLeft
      else
        Operator.joinRun containers results leftRun rightRun pInfo requested requestedLeft requestedRight) = some op' ∧
      Shows relations query op' (· ∈ requested) rows ∧ (rows : Multiset Tuple) =
        (Operator.join results left right pInfo requested requestedLeft requestedRight).tuples := by
  cases hp with
  | join _ left_prepared right_prepared disjoint left_column right_column =>
    have hzerol : ∀ info ∈ requestedRight, ∀ t ∈ rowsLeft, t info.binding = 0 := fun info hi t ht =>
      tuples_zero (htuplesl ▸ Multiset.mem_coe.mpr ht)
        (Finset.disjoint_right.mp disjoint (right_prepared.binding_mem (asked.right_requested info hi)))
    have hzeror : ∀ info ∈ requestedLeft, ∀ t ∈ rowsRight, t info.binding = 0 := fun info hi t ht =>
      tuples_zero (htuplesr ▸ Multiset.mem_coe.mpr ht)
        (Finset.disjoint_left.mp disjoint (left_prepared.binding_mem (asked.left_requested info hi)))
    have hreql : ∀ info ∈ requestedLeft, left'.Requested info :=
      fun info hi => hl.answers.kept.requested _ (asked.left_requested info hi)
    have hreqr : ∀ info ∈ requestedRight, right'.Requested info :=
      fun info hi => hr.answers.kept.requested _ (asked.right_requested info hi)
    have htuples : (Operator.join results left right pInfo requested requestedLeft requestedRight).tuples =
        (((rowsLeft : Multiset Tuple) ×ˢ (rowsRight : Multiset Tuple)).filter fun pair =>
          value relations query pair.1 pInfo.left = value relations query pair.2 pInfo.right).map
            fun pair => pair.1 + pair.2 := by
      simp only [Operator.tuples, left_prepared.entry_eq left_column.mem,
        right_prepared.entry_eq right_column.mem, htuplesl, htuplesr]
    by_cases hswap : leftRun.resultSize > rightRun.resultSize
    · have hperm := asked.split.trans List.perm_append_comm
      obtain ⟨op', hrun, hshows⟩ := hshowsr.joinRun containers ⟨pInfo.right, pInfo.left⟩ requested
        (by rw [← hperm.length_eq]; exact asked.idle) (hperm.nodup_iff.mp asked.nodup)
        (hperm.length_eq ▸ hlen) hshowsl hreqr hreql
        hzerol hzeror (hr.answers.requested right_column.mem) (hl.answers.requested left_column.mem)
      rw [if_pos hswap]
      refine ⟨op', _, hrun, ⟨hshows.size, fun info hi => hshows.column info (hperm.mem_iff.mp hi)⟩, ?_⟩
      rw [coe_probe, htuples]
      exact matching_swap (value relations query · pInfo.right) (value relations query · pInfo.left) _ _
    · obtain ⟨op', hrun, hshows⟩ := hshowsl.joinRun containers pInfo requested
        (by rw [← asked.split.length_eq]; exact asked.idle) (asked.split.nodup_iff.mp asked.nodup)
        (asked.split.length_eq ▸ hlen) hshowsr
        hreql hreqr hzeror hzerol (hl.answers.requested left_column.mem)
        (hr.answers.requested right_column.mem)
      rw [if_neg hswap]
      refine ⟨op', _, hrun, ⟨hshows.size, fun info hi => hshows.column info (asked.split.mem_iff.mp hi)⟩, ?_⟩
      rw [coe_probe, htuples]

variable (containers) in
/-- The columns of a tree that has run are aligned: they hold the values of the same rows. -/
theorem Prepared.run {fuel : Nat} (h : Prepared relations query op) (hw : op.Within columns)
    (hcard : columns.card + 2 ≤ 2 ^ 32) (hscanned : op.scanned ≤ 2 ^ 32) (hf : op.height ≤ fuel) :
    ∃ op' rows, op.run containers fuel = some op' ∧ Shows relations query op' op.Requested rows ∧
      (rows : Multiset Tuple) = op.tuples := by
  induction fuel generalizing op with
  | zero => cases op <;> simp [Operator.height] at hf
  | succ fuel ih =>
    have hprepared := h
    cases h with
    | scan reads =>
      obtain ⟨op', hrun, hshows⟩ := reads.run_scan hscanned fuel
      exact ⟨op', _, hrun, hshows, coe_boundRows reads.bound⟩
    | filterScan reads idle columns =>
      obtain ⟨noted, hnodup, hlen, hnoted⟩ := hw
      have hle := length_le_card hnodup fun i hi => (hnoted i hi).1
      obtain ⟨op', hrun, hshows⟩ := reads.run_filterScan idle columns (by omega) fuel
      exact ⟨op', _, hrun, hshows, coe_passing reads.bound⟩
    | @join results left right pInfo requested requestedLeft requestedRight asked left_prepared
        right_prepared disjoint left_column right_column =>
      obtain ⟨left', hl⟩ := left_prepared.require fun _ => left_prepared.available left_column
      obtain ⟨right', hr⟩ := right_prepared.require fun _ => right_prepared.available right_column
      obtain ⟨hwl, hwr, hpredicate, hscannedl, hscannedr, hown⟩ := hw
      obtain ⟨hwl', hscannedl', -⟩ := hwl.require (fun _ => hpredicate.1) hl.answers.run
      obtain ⟨hwr', hscannedr', -⟩ := hwr.require (fun _ => hpredicate.2) hr.answers.run
      -- each input has noted no more than was asked of it, and the column of the predicate
      have hlen := length_le_card asked.nodup hown
      have hsplit := asked.split.length_eq
      rw [List.length_append] at hsplit
      have hone := Bool.toNat_le (decide (pInfo.left.binding ∈ left.bindings))
      have hone' := Bool.toNat_le (decide (pInfo.right.binding ∈ right.bindings))
      simp only [Operator.height] at hf
      obtain ⟨leftRun, rowsLeft, hleft, hshowsl, htuplesl⟩ :=
        ih hl.prepared hwl' (by omega) (by rw [hl.answers.kept.height]; omega)
      obtain ⟨rightRun, rowsRight, hright, hshowsr, htuplesr⟩ :=
        ih hr.prepared hwr' (by omega) (by rw [hr.answers.kept.height]; omega)
      rw [hl.same.tuples] at htuplesl
      rw [hr.same.tuples] at htuplesr
      simp only [Operator.run, hl.answers.run, hleft, hr.answers.run, hright, bind_some]
      exact asked.joinRun containers hprepared (by omega) hl hr hshowsl hshowsr htuplesl htuplesr
    | @selfJoin results input pInfo requiredIUs idle input_prepared left_column right_column nodup requested =>
      obtain ⟨input', hi⟩ := input_prepared.require fun _ => input_prepared.available left_column
      obtain ⟨input'', hi'⟩ := hi.prepared.require fun _ => input_prepared.available right_column
      have hk := hi.answers.kept.trans hi'.answers.kept
      obtain ⟨hwi, hpredicate, hscannedi, hown⟩ := hw
      obtain ⟨hwi₁, hscanned₁, -⟩ := hwi.require (fun _ => hpredicate.1) hi.answers.run
      obtain ⟨hwi₂, hscanned₂, -⟩ := hwi₁.require (fun _ => hpredicate.2) hi'.answers.run
      have hlen := length_le_card nodup hown
      have hone := Bool.toNat_le (decide (pInfo.left.binding ∈ input.bindings))
      have hone' := Bool.toNat_le (decide (pInfo.right.binding ∈ input'.bindings))
      obtain ⟨inputRun, rows, hrun, hshows, htuples⟩ := ih hi'.prepared hwi₂ (by omega) (by
        rw [hk.height]
        simp only [Operator.height] at hf
        omega)
      rw [(hi.same.trans hi'.same).tuples] at htuples
      obtain ⟨op', hself, hshows'⟩ := hshows.selfJoinRun containers idle nodup (by omega)
        (fun i hi => hk.requested i (requested i hi))
        (hi'.answers.kept.requested _ (hi.answers.requested left_column.mem))
        (hi'.answers.requested (by rw [hi.answers.kept.bindings]; exact right_column.mem))
      refine ⟨op', _, ?_, hshows', ?_⟩
      · simp only [Operator.run, hi.answers.run, hi'.answers.run, bind_some, hrun, hself]
      · simp only [Operator.tuples, input_prepared.entry_eq left_column.mem,
          input_prepared.entry_eq right_column.mem, ← htuples, Multiset.filter_coe, PredicateInfo.holds]

namespace Operator

/-- The requests that a tree takes up. -/
def own (op : Operator) (requests : List SelectInfo) : List SelectInfo :=
  requests.filter fun info => decide (info.binding ∈ op.scans)

/-- The different columns that the requests and the predicates of a tree name. -/
def named (op : Operator) (requests : List SelectInfo) : Finset SelectInfo :=
  (op.own requests ++ op.predicates.flatMap fun p => [p.left, p.right]).toFinset

/-- An `unsigned` can number the columns. A scan without filters has one for each request; the
scan below a self join is asked for two more than there are different ones. -/
def Indexable (op : Operator) (requests : List SelectInfo) : Prop :=
  if op.isScan then (op.own requests).length ≤ 2 ^ 32 else (op.named requests).card + 2 ≤ 2 ^ 32

instance (op : Operator) (requests : List SelectInfo) : Decidable (op.Indexable requests) :=
  inferInstanceAs (Decidable (if op.isScan then _ else _))

end Operator

theorem mem_own {requests : List SelectInfo} :
    info ∈ op.own requests ↔ info ∈ requests ∧ info.binding ∈ op.bindings := by
  rw [own, List.mem_filter, decide_eq_true_eq, mem_scans]

/-- The columns that are noted once the requests have been made, and how many a scan has. -/
theorem Operator.Indexable.within {requests : List SelectInfo} {op₁ : Operator} (h : op.Indexable requests)
    (hbuilt : op.Built)
    (hr : op.requireAll requests = some (requests.map fun info => decide (info.binding ∈ op.bindings), op₁)) :
    ∃ columns, op₁.Within columns ∧ columns.card + 2 ≤ 2 ^ 32 ∧ op₁.scanned ≤ 2 ^ 32 := by
  have hpredicates : ∀ p ∈ op.predicates, p.left ∈ op.named requests ∧ p.right ∈ op.named requests := by
    intro p hp
    simp only [named, List.mem_toFinset, List.mem_append, List.mem_flatMap]
    exact ⟨.inr ⟨p, hp, by simp⟩, .inr ⟨p, hp, by simp⟩⟩
  obtain ⟨hbare, hzero⟩ := hbuilt.within hpredicates
  obtain ⟨hwithin, hkind, hlen⟩ := hbare.requireAll hr rfl fun info hi hb =>
    List.mem_toFinset.mpr (List.mem_append_left _ (mem_own.mpr ⟨hi, hb⟩))
  rw [Indexable] at h
  split at h
  · next hscan =>
    refine ⟨∅, within_of_isScan (hkind.trans hscan), by decide, ?_⟩
    simp only [own, mem_scans] at h
    omega
  · next hscan =>
    rw [scanned_eq_zero (hkind.trans (Bool.eq_false_iff.mpr hscan))]
    exact ⟨_, hwithin, h, Nat.zero_le _⟩

theorem require_scan {column : Column} (hcolumn : relation.columns[info.colId]? = some column) :
    (Operator.scan results relation info.binding).require info = some (true, .scan
      (({ results with resultColumns := results.resultColumns ++ [column] } : Results).setColId info
        results.resultColumns.length) relation info.binding) := by
  rw [Operator.require, if_neg (not_not.mpr rfl), hcolumn, bind_some]
  simp only [List.length_append, List.length_singleton, Nat.add_sub_cancel]
  rfl

end Query
