import HyuIte4065.Query.Trees

/-!
# What a run that succeeds shows

Where the requests and the run of a tree have results, every column that they use is there.
-/
namespace Query

open Loops

namespace Operator

/-- The tree as it was built, before anything was requested. -/
def bare : Operator → Operator
  | .scan _ relation relationBinding => .newScan relation relationBinding
  | .filterScan _ relation relationBinding filters _ => .filterScan .new relation relationBinding filters []
  | .join _ left right pInfo _ _ _ => .newJoin left.bare right.bare pInfo
  | .selfJoin _ input pInfo _ => .newSelfJoin input.bare pInfo

/-- The two inputs of a join have no binding in common, and predicates are between bindings of
their inputs. -/
def Separate : Operator → Prop
  | .scan .. => True
  | .filterScan .. => True
  | .join _ left right pInfo _ _ _ => left.Separate ∧ right.Separate ∧
    Disjoint left.bindings right.bindings ∧
    pInfo.left.binding ∈ left.bindings ∧ pInfo.right.binding ∈ right.bindings
  | .selfJoin _ input pInfo _ => input.Separate ∧
    pInfo.left.binding ∈ input.bindings ∧ pInfo.right.binding ∈ input.bindings

/-- Whatever an operator has noted as requested is one of its columns. -/
def Sound : Operator → Prop
  | .scan results relation relationBinding => ∀ info, results.select2ResultColId info ≠ none →
    (Operator.scan results relation relationBinding).HasColumn info
  | .filterScan results relation relationBinding filters inputData => ∀ info,
    results.select2ResultColId info ≠ none →
    (Operator.filterScan results relation relationBinding filters inputData).HasColumn info
  | .join results left right pInfo requested requestedLeft requestedRight => left.Sound ∧ right.Sound ∧
    ∀ info, (results.select2ResultColId info ≠ none ∨ info ∈ requested ∨ info ∈ requestedLeft ∨
      info ∈ requestedRight) →
      (Operator.join results left right pInfo requested requestedLeft requestedRight).HasColumn info
  | .selfJoin results input pInfo requiredIUs => input.Sound ∧
    ∀ info, (results.select2ResultColId info ≠ none ∨ info ∈ requiredIUs) →
      (Operator.selfJoin results input pInfo requiredIUs).HasColumn info

end Operator

open Operator

variable {op op' left right : Operator} {info : SelectInfo} {success : Bool} {results results' : Results}
  {pInfo : PredicateInfo} {containers : Containers} {fuel : Nat}
  {requested requestedLeft requestedRight infos : List SelectInfo}

theorem bindings_bare (op : Operator) : op.bare.bindings = op.bindings := by
  induction op with
  | scan => rfl
  | filterScan => rfl
  | join _ left right _ _ _ _ ihl ihr => rw [bare, newJoin, bindings, bindings, ihl, ihr]
  | selfJoin _ input _ _ ih => exact ih

theorem relationOf_bare (op : Operator) : op.bare.relationOf = op.relationOf := by
  induction op with
  | scan => rfl
  | filterScan => rfl
  | join _ left right _ _ _ _ ihl ihr =>
    funext binding
    rw [bare, newJoin, relationOf, relationOf, ihl, ihr]
  | selfJoin _ input _ _ ih => exact ih

theorem separate_bare (op : Operator) : op.bare.Separate ↔ op.Separate := by
  induction op with
  | scan => rfl
  | filterScan => rfl
  | join _ left right _ _ _ _ ihl ihr =>
    rw [bare, newJoin, Separate, Separate, ihl, ihr, bindings_bare, bindings_bare]
  | selfJoin _ input _ _ ih => rw [bare, newSelfJoin, Separate, Separate, ih, bindings_bare]

theorem wellPlaced_bare (op : Operator) : op.bare.WellPlaced ↔ op.WellPlaced := by
  induction op with
  | scan => rfl
  | filterScan => rfl
  | join _ left right _ _ _ _ ihl ihr =>
    rw [bare, newJoin, WellPlaced, WellPlaced, ihl, ihr, hasColumn_congr (relationOf_bare left),
      hasColumn_congr (relationOf_bare right)]
  | selfJoin _ input _ _ ih =>
    rw [bare, newSelfJoin, WellPlaced, WellPlaced, ih, hasColumn_congr (relationOf_bare input),
      hasColumn_congr (relationOf_bare input)]

/-- Trees that were built alike. -/
theorem separate_of_bare (h : op'.bare = op.bare) (hs : op.Separate) : op'.Separate := by
  rw [← separate_bare, h, separate_bare]
  exact hs

theorem bindings_of_bare (h : op'.bare = op.bare) : op'.bindings = op.bindings := by
  rw [← bindings_bare, h, bindings_bare]

theorem relationOf_of_bare (h : op'.bare = op.bare) : op'.relationOf = op.relationOf := by
  rw [← relationOf_bare, h, relationOf_bare]

theorem wellPlaced_of_bare (h : op'.bare = op.bare) (hp : op'.WellPlaced) : op.WellPlaced := by
  rw [← wellPlaced_bare, ← h, wellPlaced_bare]
  exact hp

theorem hasColumn_of_bare (h : op'.bare = op.bare) : op'.HasColumn info ↔ op.HasColumn info :=
  hasColumn_congr (relationOf_of_bare h)

theorem hasColumn_join_left (h : left.HasColumn info) :
    (Operator.join results left right pInfo requested requestedLeft requestedRight).HasColumn info := by
  have hmem := h.mem
  obtain ⟨relation, hrel, hlt⟩ := h
  exact ⟨relation, (relationOf_join_left hmem).trans hrel, hlt⟩

theorem hasColumn_join_right (hdisj : Disjoint left.bindings right.bindings) (h : right.HasColumn info) :
    (Operator.join results left right pInfo requested requestedLeft requestedRight).HasColumn info := by
  have hmem := h.mem
  obtain ⟨relation, hrel, hlt⟩ := h
  exact ⟨relation, (relationOf_join_right hdisj hmem).trans hrel, hlt⟩

/-- What a request that has an answer shows. -/
structure Told (op : Operator) (info : SelectInfo) (success : Bool) (op' : Operator) : Prop where
  sound : op'.Sound
  bare : op'.bare = op.bare
  answer : success = true → op.HasColumn info
  own : info.binding ∈ op.bindings → op.HasColumn info

/-- An operator without the binding is not asked for more. -/
theorem Told.refused (h : op.Sound) (hb : info.binding ∉ op.bindings) : Told op info false op :=
  ⟨h, rfl, fun hf => absurd hf Bool.false_ne_true, fun hmem => absurd hmem hb⟩

theorem Told.known (h : op.Sound) (hcol : op.HasColumn info) : Told op info true op :=
  ⟨h, rfl, fun _ => hcol, fun _ => hcol⟩

theorem Told.scan {relation : Relation} {relationBinding : Nat}
    (h : (Operator.scan results relation relationBinding).Sound)
    (hr : (Operator.scan results relation relationBinding).require info = some (success, op')) :
    Told (.scan results relation relationBinding) info success op' := by
  rw [Operator.require] at hr
  split at hr
  · next hb =>
    obtain ⟨rfl, rfl⟩ := Prod.mk.inj (Option.some.inj hr)
    exact .refused h fun hmem => hb (Finset.mem_singleton.mp hmem)
  · next hb =>
    obtain ⟨column, hcolumn, hr⟩ := Option.bind_eq_some_iff.mp hr
    obtain ⟨rfl, rfl⟩ := Prod.mk.inj (Option.some.inj hr)
    have hcol : (Operator.scan results relation relationBinding).HasColumn info :=
      ⟨relation, if_pos (not_not.mp hb), (List.getElem?_eq_some_iff.mp hcolumn).1⟩
    refine ⟨fun i hi => ?_, rfl, fun _ => hcol, fun _ => hcol⟩
    rcases Results.setColId_ne_none.mp hi with rfl | hold
    · exact hcol
    · exact h i hold

theorem Told.filterScan {relation : Relation} {relationBinding : Nat} {filters : List FilterInfo}
    {inputData : List Column}
    (h : (Operator.filterScan results relation relationBinding filters inputData).Sound)
    (hr : (Operator.filterScan results relation relationBinding filters inputData).require info =
      some (success, op')) :
    Told (.filterScan results relation relationBinding filters inputData) info success op' := by
  rw [Operator.require] at hr
  split at hr
  · next hb =>
    obtain ⟨rfl, rfl⟩ := Prod.mk.inj (Option.some.inj hr)
    exact .refused h fun hmem => hb (Finset.mem_singleton.mp hmem)
  · next hb =>
    obtain ⟨column, hcolumn, hr⟩ := Option.bind_eq_some_iff.mp hr
    have hcol : (Operator.filterScan results relation relationBinding filters inputData).HasColumn info :=
      ⟨relation, if_pos (not_not.mp hb), (List.getElem?_eq_some_iff.mp hcolumn).1⟩
    split at hr
    · obtain ⟨rfl, rfl⟩ := Prod.mk.inj (Option.some.inj hr)
      refine ⟨fun i hi => ?_, rfl, fun _ => hcol, fun _ => hcol⟩
      rcases Results.setColId_ne_none.mp hi with rfl | hold
      · exact hcol
      · exact h i hold
    · obtain ⟨rfl, rfl⟩ := Prod.mk.inj (Option.some.inj hr)
      exact .known h hcol

/-- A join asks its inputs, the left one first. -/
theorem Told.join (h : (Operator.join results left right pInfo requested requestedLeft requestedRight).Sound)
    (hdisj : Disjoint left.bindings right.bindings)
    (ihl : ∀ {success left'}, left.require info = some (success, left') → Told left info success left')
    (ihr : ∀ {success right'}, right.require info = some (success, right') → Told right info success right')
    (hr : (Operator.join results left right pInfo requested requestedLeft requestedRight).require info =
      some (success, op')) :
    Told (.join results left right pInfo requested requestedLeft requestedRight) info success op' := by
  obtain ⟨hl, hr', hown⟩ := h
  have hsame : ∀ {results' left' right' requested' requestedLeft' requestedRight'},
      left'.bare = left.bare → right'.bare = right.bare →
      (Operator.join results' left' right' pInfo requested' requestedLeft' requestedRight').bare =
        (Operator.join results left right pInfo requested requestedLeft requestedRight).bare :=
    fun hl hr => by rw [Operator.bare, Operator.bare, hl, hr]
  rw [Operator.require] at hr
  split at hr
  · next hmem =>
    obtain ⟨rfl, rfl⟩ := Prod.mk.inj (Option.some.inj hr)
    exact .known ⟨hl, hr', hown⟩ (hown info (.inr (.inl hmem)))
  obtain ⟨⟨successLeft, left₁⟩, hleft, hr⟩ := Option.bind_eq_some_iff.mp hr
  have hl₁ := ihl hleft
  cases successLeft with
  | true =>
    obtain ⟨rfl, rfl⟩ := Prod.mk.inj (Option.some.inj hr)
    have hcol := hl₁.answer rfl
    refine ⟨⟨hl₁.sound, hr', fun i hi => ?_⟩, hsame hl₁.bare rfl,
      fun _ => hasColumn_join_left hcol, fun _ => hasColumn_join_left hcol⟩
    refine (hasColumn_of_bare (hsame hl₁.bare rfl)).mpr ?_
    by_cases he : i = info
    · exact he ▸ hasColumn_join_left hcol
    · exact hown i (by simpa [he, Results.addColumn] using hi)
  | false =>
    obtain ⟨⟨successRight, right₁⟩, hright, hr⟩ := Option.bind_eq_some_iff.mp hr
    have hr₁ := ihr hright
    have hmem : info.binding ∈ left.bindings ∪ right.bindings →
        (Operator.join results left right pInfo requested requestedLeft requestedRight).HasColumn info :=
      fun hb => (Finset.mem_union.mp hb).elim (fun hb => hasColumn_join_left (hl₁.own hb))
        fun hb => hasColumn_join_right hdisj (hr₁.own hb)
    cases successRight with
    | true =>
      obtain ⟨rfl, rfl⟩ := Prod.mk.inj (Option.some.inj hr)
      have hcol := hr₁.answer rfl
      refine ⟨⟨hl₁.sound, hr₁.sound, fun i hi => ?_⟩, hsame hl₁.bare hr₁.bare,
        fun _ => hasColumn_join_right hdisj hcol, hmem⟩
      refine (hasColumn_of_bare (hsame hl₁.bare hr₁.bare)).mpr ?_
      by_cases he : i = info
      · exact he ▸ hasColumn_join_right hdisj hcol
      · exact hown i (by simpa [he, Results.addColumn] using hi)
    | false =>
      obtain ⟨rfl, rfl⟩ := Prod.mk.inj (Option.some.inj hr)
      refine ⟨⟨hl₁.sound, hr₁.sound, fun i hi => ?_⟩, hsame hl₁.bare hr₁.bare,
        fun hf => absurd hf Bool.false_ne_true, hmem⟩
      exact (hasColumn_of_bare (hsame hl₁.bare hr₁.bare)).mpr (hown i hi)

theorem Told.selfJoin (h : (Operator.selfJoin results op pInfo infos).Sound)
    (ih : ∀ {success input'}, op.require info = some (success, input') → Told op info success input')
    (hr : (Operator.selfJoin results op pInfo infos).require info = some (success, op')) :
    Told (.selfJoin results op pInfo infos) info success op' := by
  obtain ⟨hi, hown⟩ := h
  rw [Operator.require] at hr
  split at hr
  · next hmem =>
    obtain ⟨rfl, rfl⟩ := Prod.mk.inj (Option.some.inj hr)
    exact .known ⟨hi, hown⟩ (hown info (.inr hmem))
  obtain ⟨⟨success₁, input₁⟩, hinput, hr⟩ := Option.bind_eq_some_iff.mp hr
  have hi₁ := ih hinput
  have hsame : ∀ {results' requiredIUs'}, (Operator.selfJoin results' input₁ pInfo requiredIUs').bare =
      (Operator.selfJoin results op pInfo infos).bare :=
    congrArg (newSelfJoin · pInfo) hi₁.bare
  cases success₁ with
  | true =>
    obtain ⟨rfl, rfl⟩ := Prod.mk.inj (Option.some.inj hr)
    have hcol := hi₁.answer rfl
    refine ⟨⟨hi₁.sound, fun i hi => ?_⟩, hsame, fun _ => hcol, fun _ => hcol⟩
    refine (hasColumn_of_bare hsame).mpr ?_
    by_cases he : i = info
    · exact he ▸ hcol
    · exact hown i (by simpa [he, Results.addColumn] using hi)
  | false =>
    obtain ⟨rfl, rfl⟩ := Prod.mk.inj (Option.some.inj hr)
    refine ⟨⟨hi₁.sound, fun i hi => ?_⟩, hsame, fun hf => absurd hf Bool.false_ne_true, hi₁.own⟩
    exact (hasColumn_of_bare hsame).mpr (hown i hi)

theorem Operator.Sound.require (h : op.Sound) (hsep : op.Separate) (hr : op.require info = some (success, op')) :
    Told op info success op' := by
  induction op generalizing success op' with
  | scan results relation relationBinding => exact .scan h hr
  | filterScan results relation relationBinding filters inputData => exact .filterScan h hr
  | join results left right pInfo requested requestedLeft requestedRight ihl ihr =>
    exact .join h hsep.2.2.1 (ihl h.1 hsep.1) (ihr h.2.1 hsep.2.1) hr
  | selfJoin results input pInfo requiredIUs ih => exact .selfJoin h (ih h.1 hsep.1) hr

theorem copy2Result_resolves {inputData : List Column} {id : Nat}
    (h : copy2Result inputData results id = some results') :
    results'.select2ResultColId = results.select2ResultColId := by
  obtain ⟨tmpResults, _, h⟩ := Option.bind_eq_some_iff.mp h
  obtain rfl := Option.some.inj h
  rfl

theorem copyPair2Result_resolves {copyLeftData copyRightData : List Column} {ids : Nat × Nat}
    (h : copyPair2Result copyLeftData copyRightData results ids = some results') :
    results'.select2ResultColId = results.select2ResultColId := by
  obtain ⟨state, _, h⟩ := Option.bind_eq_some_iff.mp h
  obtain ⟨⟨tmpResults, _⟩, _, h⟩ := Option.bind_eq_some_iff.mp h
  obtain rfl := Option.some.inj h
  rfl

theorem numberColumns_resolves {k : Nat}
    (h : (numberColumns results infos k).select2ResultColId info ≠ none) :
    info ∈ infos ∨ results.select2ResultColId info ≠ none := by
  by_cases hmem : info ∈ infos
  · exact .inl hmem
  · exact .inr (numberColumns_of_not_mem hmem ▸ h)

/-- After its run a join resolves what it had noted. -/
theorem joinRun_resolves
    (h : joinRun containers results left right pInfo requested requestedLeft requestedRight = some op')
    (hres : op'.resolve info ≠ none) :
    results.select2ResultColId info ≠ none ∨ info ∈ requestedLeft ∨ info ∈ requestedRight := by
  obtain ⟨copyLeftData, _, h⟩ := Option.bind_eq_some_iff.mp h
  obtain ⟨copyRightData, _, h⟩ := Option.bind_eq_some_iff.mp h
  obtain ⟨leftKeyColumn, _, h⟩ := Option.bind_eq_some_iff.mp h
  obtain ⟨rightKeyColumn, _, h⟩ := Option.bind_eq_some_iff.mp h
  obtain ⟨hashTable, _, h⟩ := Option.bind_eq_some_iff.mp h
  obtain ⟨results', hloop, h⟩ := Option.bind_eq_some_iff.mp h
  obtain rfl := Option.some.inj h
  have hkept := foldlM_some_keeps (I := fun r => r.select2ResultColId = (numberColumns (numberColumns
      results requestedLeft 0) requestedRight requestedLeft.length).select2ResultColId)
    (fun i r r' hturn hr => by
      obtain ⟨rightKey, _, hturn⟩ := Option.bind_eq_some_iff.mp hturn
      exact foldlM_some_keeps (fun leftId s s' hcopy hs => (copyPair2Result_resolves hcopy).trans hs)
        hturn hr) hloop rfl
  rw [Operator.resolve, Operator.results, hkept] at hres
  rcases numberColumns_resolves hres with hmem | hres
  · exact .inr (.inr hmem)
  · rcases numberColumns_resolves hres with hmem | hres
    · exact .inr (.inl hmem)
    · exact .inl hres

theorem selfJoinRun_resolves {input : Operator}
    (h : selfJoinRun containers results input pInfo infos = some op') (hres : op'.resolve info ≠ none) :
    results.select2ResultColId info ≠ none ∨ info ∈ infos := by
  obtain ⟨copyData, _, h⟩ := Option.bind_eq_some_iff.mp h
  obtain ⟨leftCol, _, h⟩ := Option.bind_eq_some_iff.mp h
  obtain ⟨rightCol, _, h⟩ := Option.bind_eq_some_iff.mp h
  obtain ⟨results', hloop, h⟩ := Option.bind_eq_some_iff.mp h
  obtain rfl := Option.some.inj h
  have hkept := foldlM_some_keeps (I := fun r => r.select2ResultColId =
      (numberColumns results (containers.walk infos) 0).select2ResultColId)
    (fun i r r' hturn hr => by
      obtain ⟨leftValue, _, hturn⟩ := Option.bind_eq_some_iff.mp hturn
      obtain ⟨rightValue, _, hturn⟩ := Option.bind_eq_some_iff.mp hturn
      split at hturn
      · exact (copy2Result_resolves hturn).trans hr
      · exact Option.some.inj hturn ▸ hr) hloop rfl
  rw [Operator.resolve, Operator.results, hkept] at hres
  rcases numberColumns_resolves hres with hmem | hres
  · exact .inr ((containers.walk_perm infos).mem_iff.mp hmem)
  · exact .inl hres

/-- A scan that runs over a row reads the columns of all its filters. -/
theorem filterScan_placed {relation : Relation} {relationBinding : Nat} {filters : List FilterInfo}
    {inputData : List Column} (h : (Operator.filterScan results relation relationBinding filters
      inputData).run containers fuel = some op') :
    (∀ f ∈ filters, 0 < relation.size → f.filterColumn.colId < relation.columns.length) ∧
      ∀ info, op'.resolve info = results.select2ResultColId info := by
  cases fuel with
  | zero => cases h
  | succ fuel =>
    obtain ⟨results', hloop, h⟩ := Option.bind_eq_some_iff.mp h
    obtain rfl := Option.some.inj h
    refine ⟨fun f hf hsize => ?_, fun info => ?_⟩
    · obtain ⟨r, r', hturn⟩ := foldlM_turns hloop 0 (List.mem_range.mpr hsize)
      obtain ⟨pass, hpass, _⟩ := Option.bind_eq_some_iff.mp hturn
      obtain ⟨p, p', hfilter⟩ := foldlM_turns hpass f hf
      obtain ⟨value, happly, _⟩ := Option.bind_eq_some_iff.mp hfilter
      obtain ⟨compareCol, hcolumn, _⟩ := Option.bind_eq_some_iff.mp happly
      exact (List.getElem?_eq_some_iff.mp hcolumn).1
    · have hkept := foldlM_some_keeps
        (I := fun r => r.select2ResultColId = results.select2ResultColId) (fun i r r' hturn hr => by
          obtain ⟨pass, _, hturn⟩ := Option.bind_eq_some_iff.mp hturn
          split at hturn
          · exact (copy2Result_resolves hturn).trans hr
          · exact Option.some.inj hturn ▸ hr) hloop rfl
      exact congrFun hkept info

/-- A run that has a result: predicates and filters name columns, and so does whatever resolves. -/
theorem Operator.Sound.run (h : op.Sound) (hsep : op.Separate) (hrun : op.run containers fuel = some op') :
    op.WellPlaced ∧ ∀ info, op'.resolve info ≠ none → op.HasColumn info := by
  induction fuel generalizing op op' with
  | zero => cases op <;> cases hrun
  | succ fuel ih =>
    cases op with
    | scan results relation relationBinding =>
      obtain rfl := Option.some.inj hrun
      exact ⟨trivial, h⟩
    | filterScan results relation relationBinding filters inputData =>
      obtain ⟨hplaced, hres⟩ := filterScan_placed hrun
      exact ⟨hplaced, fun info hi => h info (hres info ▸ hi)⟩
    | join results left right pInfo requested requestedLeft requestedRight =>
      obtain ⟨hl, hr, hown⟩ := h
      obtain ⟨hsepl, hsepr, hdisj, hpl, hpr⟩ := hsep
      obtain ⟨⟨_, left₁⟩, hleft, hrun⟩ := Option.bind_eq_some_iff.mp hrun
      obtain ⟨left₂, hleftRun, hrun⟩ := Option.bind_eq_some_iff.mp hrun
      obtain ⟨⟨_, right₁⟩, hright, hrun⟩ := Option.bind_eq_some_iff.mp hrun
      obtain ⟨right₂, hrightRun, hrun⟩ := Option.bind_eq_some_iff.mp hrun
      have hl₁ := hl.require hsepl hleft
      have hr₁ := hr.require hsepr hright
      have hplacedl := (ih hl₁.sound (separate_of_bare hl₁.bare hsepl) hleftRun).1
      have hplacedr := (ih hr₁.sound (separate_of_bare hr₁.bare hsepr) hrightRun).1
      refine ⟨⟨wellPlaced_of_bare hl₁.bare hplacedl, wellPlaced_of_bare hr₁.bare hplacedr,
        hl₁.own hpl, hr₁.own hpr⟩, fun info hi => hown info ?_⟩
      split at hrun
      · have := joinRun_resolves hrun hi
        tauto
      · have := joinRun_resolves hrun hi
        tauto
    | selfJoin results input pInfo requiredIUs =>
      obtain ⟨hi, hown⟩ := h
      obtain ⟨hsepi, hpl, hpr⟩ := hsep
      obtain ⟨⟨_, input₁⟩, hleft, hrun⟩ := Option.bind_eq_some_iff.mp hrun
      obtain ⟨⟨_, input₂⟩, hright, hrun⟩ := Option.bind_eq_some_iff.mp hrun
      obtain ⟨input₃, hinputRun, hrun⟩ := Option.bind_eq_some_iff.mp hrun
      have hi₁ := hi.require hsepi hleft
      have hsep₁ := separate_of_bare hi₁.bare hsepi
      have hi₂ := hi₁.sound.require hsep₁ hright
      have hplaced := (ih hi₂.sound (separate_of_bare hi₂.bare hsep₁) hinputRun).1
      refine ⟨⟨wellPlaced_of_bare (hi₂.bare.trans hi₁.bare) hplaced, hi₁.own hpl, ?_⟩,
        fun info hinfo => hown info (selfJoinRun_resolves hrun hinfo)⟩
      exact (hasColumn_of_bare hi₁.bare).mp (hi₂.own (bindings_of_bare hi₁.bare ▸ hpr))

/-- The requests of `Checksum::run`. -/
theorem Operator.Sound.requireAll (h : op.Sound) (hsep : op.Separate)
    (hrun : infos.foldlM (fun input sInfo => do return (← input.require sInfo).2) op = some op') :
    op'.Sound ∧ op'.bare = op.bare := by
  refine foldlM_some_keeps (I := fun o => o.Sound ∧ o.bare = op.bare) (fun info o o' hturn ho => ?_)
    hrun ⟨h, rfl⟩
  obtain ⟨⟨success, o₁⟩, hrequire, hturn⟩ := Option.bind_eq_some_iff.mp hturn
  obtain rfl := Option.some.inj hturn
  have htold := ho.1.require (separate_of_bare ho.2 hsep) hrequire
  exact ⟨htold.sound, htold.bare.trans ho.2⟩

/-- Sums that are computed: the tree runs, and every selection names a column of it. -/
theorem Operator.Sound.checksum {checksum : Checksum} (h : op.Sound) (hsep : op.Separate)
    (hrun : Checksum.run containers fuel op infos = some checksum) :
    op.WellPlaced ∧ ∀ info ∈ infos, op.HasColumn info := by
  obtain ⟨op₁, hrequire, hrun⟩ := Option.bind_eq_some_iff.mp hrun
  obtain ⟨op₂, hop, hrun⟩ := Option.bind_eq_some_iff.mp hrun
  obtain ⟨hsound, hbare⟩ := h.requireAll hsep hrequire
  obtain ⟨hplaced, hcolumns⟩ := hsound.run (separate_of_bare hbare hsep) hop
  refine ⟨wellPlaced_of_bare hbare hplaced, fun info hi => ?_⟩
  obtain ⟨_, _, hturn⟩ := foldlM_turns hrun info hi
  obtain ⟨resultCol, hcolumn, _⟩ := Option.bind_eq_some_iff.mp hturn
  obtain ⟨k, hk, _⟩ := Option.bind_eq_some_iff.mp hcolumn
  refine (hasColumn_of_bare hbare).mp (hcolumns info ?_)
  rw [hk]
  exact Option.some_ne_none k

end Query
