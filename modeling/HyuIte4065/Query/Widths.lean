import HyuIte4065.Query.Trees

/-!
# How many columns an operator is asked for

Every operator above the scans notes a column once, so it never has more columns than there are
different ones. A scan without filters notes every request, but an operator above it passes on
each column once, and then the columns of its predicate.
-/
namespace Query

namespace Operator

def isScan : Operator → Bool
  | .scan .. => true
  | _ => false

/-- The columns of a scan without filters, one for each request. -/
def scanned : Operator → Nat
  | .scan results _ _ => results.resultColumns.length
  | _ => 0

/-- All columns that the operators have noted, and those of the predicates, are among `columns`. -/
def Within (columns : Finset SelectInfo) : Operator → Prop
  | .scan .. => True
  | .filterScan results _ _ _ inputData => ∃ infos : List SelectInfo, infos.Nodup ∧
      infos.length = inputData.length ∧ ∀ info ∈ infos, info ∈ columns ∧ results.select2ResultColId info ≠ none
  | .join _ left right pInfo requested requestedLeft requestedRight =>
    left.Within columns ∧ right.Within columns ∧ (pInfo.left ∈ columns ∧ pInfo.right ∈ columns) ∧
      left.scanned ≤ requestedLeft.length ∧ right.scanned ≤ requestedRight.length ∧
      ∀ info ∈ requested, info ∈ columns
  | .selfJoin _ input pInfo requiredIUs =>
    input.Within columns ∧ (pInfo.left ∈ columns ∧ pInfo.right ∈ columns) ∧
      input.scanned ≤ requiredIUs.length ∧ ∀ info ∈ requiredIUs, info ∈ columns

end Operator

open Operator

variable {columns : Finset SelectInfo} {op op' left right input : Operator} {info : SelectInfo} {success : Bool}
  {results : Results} {relation : Relation} {binding : Nat} {filters : List FilterInfo}
  {inputData : List Column} {pInfo : PredicateInfo}
  {infos requested requestedLeft requestedRight requiredIUs : List SelectInfo}

variable (columns) in
/-- What a request adds: one column at most, and none that is not asked for. -/
structure Widened (op : Operator) (success : Bool) (op' : Operator) : Prop where
  within : op'.Within columns
  scanned : op'.scanned ≤ op.scanned + success.toNat
  isScan : op'.isScan = op.isScan

theorem Widened.refl (h : op.Within columns) : Widened columns op success op :=
  ⟨h, Nat.le_add_right _ _, rfl⟩

theorem forall_mem_snoc (h : ∀ i ∈ infos, i ∈ columns) (hi : info ∈ columns) : ∀ i ∈ infos ++ [info], i ∈ columns := by
  intro i hmem
  rcases List.mem_append.mp hmem with hmem | hmem
  · exact h i hmem
  · exact List.mem_singleton.mp hmem ▸ hi

theorem Widened.scan (hr : (Operator.scan results relation binding).require info = some (success, op')) :
    Widened columns (.scan results relation binding) success op' := by
  rw [Operator.require] at hr
  split at hr
  · obtain ⟨rfl, rfl⟩ := Prod.mk.inj (Option.some.inj hr)
    exact .refl trivial
  · obtain ⟨column, -, hr⟩ := Option.bind_eq_some_iff.mp hr
    obtain ⟨rfl, rfl⟩ := Prod.mk.inj (Option.some.inj hr)
    refine ⟨trivial, ?_, rfl⟩
    simp [Operator.scanned, Results.setColId]

theorem Widened.filterScan
    (h : (Operator.filterScan results relation binding filters inputData).Within columns)
    (hi : success = true → info ∈ columns)
    (hr : (Operator.filterScan results relation binding filters inputData).require info = some (success, op')) :
    Widened columns (.filterScan results relation binding filters inputData) success op' := by
  rw [Operator.require] at hr
  split at hr
  · obtain ⟨rfl, rfl⟩ := Prod.mk.inj (Option.some.inj hr)
    exact .refl h
  · obtain ⟨column, -, hr⟩ := Option.bind_eq_some_iff.mp hr
    split at hr
    · next hnew =>
      obtain ⟨rfl, rfl⟩ := Prod.mk.inj (Option.some.inj hr)
      obtain ⟨infos, hnodup, hlen, hmem⟩ := h
      have hfresh : info ∉ infos := fun hi => (hmem info hi).2 hnew
      refine ⟨⟨infos ++ [info], nodup_snoc hnodup hfresh, by simp [hlen], fun i hi' => ?_⟩, Nat.zero_le _, rfl⟩
      rcases List.mem_append.mp hi' with hold | hlast
      · exact ⟨(hmem i hold).1, Results.setColId_ne_none.mpr (.inr (hmem i hold).2)⟩
      · obtain rfl := List.mem_singleton.mp hlast
        exact ⟨hi rfl, Results.setColId_ne_none.mpr (.inl rfl)⟩
    · obtain ⟨rfl, rfl⟩ := Prod.mk.inj (Option.some.inj hr)
      exact .refl h

theorem Widened.join
    (h : (Operator.join results left right pInfo requested requestedLeft requestedRight).Within columns)
    (hi : success = true → info ∈ columns)
    (ihl : ∀ {success left'}, left.require info = some (success, left') → (success = true → info ∈ columns) →
      Widened columns left success left')
    (ihr : ∀ {success right'}, right.require info = some (success, right') → (success = true → info ∈ columns) →
      Widened columns right success right')
    (hr : (Operator.join results left right pInfo requested requestedLeft requestedRight).require info =
      some (success, op')) :
    Widened columns (.join results left right pInfo requested requestedLeft requestedRight) success op' := by
  rw [Operator.require] at hr
  split at hr
  · obtain ⟨rfl, rfl⟩ := Prod.mk.inj (Option.some.inj hr)
    exact .refl h
  obtain ⟨hl, hr', hp, hsl, hsr, hown⟩ := h
  obtain ⟨⟨successLeft, left₁⟩, hleft, hr⟩ := Option.bind_eq_some_iff.mp hr
  cases successLeft with
  | true =>
    obtain ⟨rfl, rfl⟩ := Prod.mk.inj (Option.some.inj hr)
    obtain ⟨hl₁, hlen, -⟩ := ihl hleft hi
    refine ⟨⟨hl₁, hr', hp, ?_, hsr, forall_mem_snoc hown (hi rfl)⟩, Nat.zero_le _, rfl⟩
    simp only [List.length_append, List.length_singleton, Bool.toNat_true] at hlen ⊢
    omega
  | false =>
    obtain ⟨hl₁, hlen, -⟩ := ihl hleft fun hf => absurd hf Bool.false_ne_true
    obtain ⟨⟨successRight, right₁⟩, hright, hr⟩ := Option.bind_eq_some_iff.mp hr
    cases successRight with
    | true =>
      obtain ⟨rfl, rfl⟩ := Prod.mk.inj (Option.some.inj hr)
      obtain ⟨hr₁, hlen', -⟩ := ihr hright hi
      refine ⟨⟨hl₁, hr₁, hp, hlen.trans hsl, ?_, forall_mem_snoc hown (hi rfl)⟩, Nat.zero_le _, rfl⟩
      simp only [List.length_append, List.length_singleton, Bool.toNat_true] at hlen' ⊢
      omega
    | false =>
      obtain ⟨rfl, rfl⟩ := Prod.mk.inj (Option.some.inj hr)
      obtain ⟨hr₁, hlen', -⟩ := ihr hright hi
      exact ⟨⟨hl₁, hr₁, hp, hlen.trans hsl, hlen'.trans hsr, hown⟩, Nat.zero_le _, rfl⟩

theorem Widened.selfJoin (h : (Operator.selfJoin results input pInfo requiredIUs).Within columns)
    (hi : success = true → info ∈ columns)
    (ih : ∀ {success input'}, input.require info = some (success, input') → (success = true → info ∈ columns) →
      Widened columns input success input')
    (hr : (Operator.selfJoin results input pInfo requiredIUs).require info = some (success, op')) :
    Widened columns (.selfJoin results input pInfo requiredIUs) success op' := by
  rw [Operator.require] at hr
  split at hr
  · obtain ⟨rfl, rfl⟩ := Prod.mk.inj (Option.some.inj hr)
    exact .refl h
  obtain ⟨hinput, hp, hs, hown⟩ := h
  obtain ⟨⟨success₁, input₁⟩, hrequire, hr⟩ := Option.bind_eq_some_iff.mp hr
  cases success₁ with
  | true =>
    obtain ⟨rfl, rfl⟩ := Prod.mk.inj (Option.some.inj hr)
    obtain ⟨hinput₁, hlen, -⟩ := ih hrequire hi
    refine ⟨⟨hinput₁, hp, ?_, forall_mem_snoc hown (hi rfl)⟩, Nat.zero_le _, rfl⟩
    simp only [List.length_append, List.length_singleton, Bool.toNat_true] at hlen ⊢
    omega
  | false =>
    obtain ⟨rfl, rfl⟩ := Prod.mk.inj (Option.some.inj hr)
    obtain ⟨hinput₁, hlen, -⟩ := ih hrequire hi
    exact ⟨⟨hinput₁, hp, hlen.trans hs, hown⟩, Nat.zero_le _, rfl⟩

theorem Operator.Within.require (h : op.Within columns) (hi : success = true → info ∈ columns)
    (hr : op.require info = some (success, op')) : Widened columns op success op' := by
  induction op generalizing success op' with
  | scan => exact .scan hr
  | filterScan => exact .filterScan h hi hr
  | join results left right pInfo requested requestedLeft requestedRight ihl ihr =>
    exact .join h hi (fun hr hi => ihl h.1 hi hr) (fun hr hi => ihr h.2.1 hi hr) hr
  | selfJoin results input pInfo requiredIUs ih => exact .selfJoin h hi (fun hr hi => ih h.1 hi hr) hr

theorem scanned_eq_zero (h : op.isScan = false) : op.scanned = 0 := by
  cases op with
  | scan => cases h
  | filterScan => rfl
  | join => rfl
  | selfJoin => rfl

theorem within_of_isScan (h : op.isScan = true) : op.Within columns := by
  cases op with
  | scan => trivial
  | filterScan => cases h
  | join => cases h
  | selfJoin => cases h

/-- A tree as the constructors leave it has noted nothing. -/
theorem Operator.Built.within (h : op.Built)
    (hp : ∀ p ∈ op.predicates, p.left ∈ columns ∧ p.right ∈ columns) : op.Within columns ∧ op.scanned = 0 := by
  induction h with
  | scan => exact ⟨trivial, rfl⟩
  | filterScan new =>
    obtain ⟨filter, -, he⟩ := Option.bind_eq_some_iff.mp new
    obtain rfl := Option.some.inj he
    exact ⟨⟨[], List.nodup_nil, rfl, by simp⟩, rfl⟩
  | join pInfo _ _ ihl ihr =>
    obtain ⟨hown, hrest⟩ := List.forall_mem_cons.mp hp
    obtain ⟨hl, hsl⟩ := ihl fun p hp => hrest p (List.mem_append_left _ hp)
    obtain ⟨hr, hsr⟩ := ihr fun p hp => hrest p (List.mem_append_right _ hp)
    exact ⟨⟨hl, hr, hown, hsl.le, hsr.le, by simp⟩, rfl⟩
  | selfJoin pInfo _ ih =>
    obtain ⟨hown, hrest⟩ := List.forall_mem_cons.mp hp
    obtain ⟨hi, hs⟩ := ih hrest
    exact ⟨⟨hi, hown, hs.le, by simp⟩, rfl⟩

theorem length_le_card (hnodup : infos.Nodup) (h : ∀ i ∈ infos, i ∈ columns) : infos.length ≤ columns.card := by
  rw [← List.toFinset_card_of_nodup hnodup]
  exact Finset.card_le_card fun i hi => h i (List.mem_toFinset.mp hi)

end Query
