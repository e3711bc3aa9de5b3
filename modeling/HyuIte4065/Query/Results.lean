import HyuIte4065.Query.Answer
import HyuIte4065.Library.Loops
import Mathlib.Algebra.Group.Pi.Basic

/-!
# Results that hold rows

What the columns of an operator hold once some tuples have been copied to them, and the
numbers that `select2ResultColId` gives the columns.
-/
namespace Query

open Loops

section
variable (relations : List Relation) (query : QueryInfo)

/-- One column for each info, with the values of the tuples. -/
def columnsOf (infos : List SelectInfo) (rows : List Tuple) : List Column :=
  infos.map fun info => rows.map (value relations query · info)

def Results.fill (results : Results) (infos : List SelectInfo) (rows : List Tuple) : Results :=
  { results with tmpResults := columnsOf relations query infos rows, resultSize := rows.length }

end

/-- No tuple has been copied to the `n` columns. -/
structure Results.Idle (results : Results) (n : Nat) : Prop where
  tmpResults : results.tmpResults = List.replicate n []
  resultSize : results.resultSize = 0

/-- What has a number is in `infos`, and the number is its position, unless there are too many. -/
structure Results.Numbers (results : Results) (infos : List SelectInfo) : Prop where
  listed : ∀ info, results.select2ResultColId info ≠ none → info ∈ infos
  position : infos.length ≤ 2 ^ 32 → ∀ info k, results.select2ResultColId info = some k → infos[k]? = some info

variable {relations : List Relation} {query : QueryInfo} {results : Results}
  {infos : List SelectInfo} {info : SelectInfo} {rows : List Tuple} {t : Tuple} {k n : Nat}

theorem columnsOf_get (h : infos[k]? = some info) :
    (columnsOf relations query infos rows)[k]? = some (rows.map (value relations query · info)) := by
  rw [columnsOf, List.getElem?_map, h]
  rfl

theorem columnsOf_append {more : List SelectInfo} :
    columnsOf relations query (infos ++ more) rows =
      columnsOf relations query infos rows ++ columnsOf relations query more rows := by
  rw [columnsOf, List.map_append]
  rfl

theorem values_get {i : Nat} (h : i < rows.length) : (rows.map (value relations query · info))[i]? =
    some (value relations query (rows.getD i 0) info) := by
  rw [List.getElem?_map, List.getD_eq_getElem?_getD, List.getElem?_eq_getElem h]
  rfl

theorem pushBack_append {before after : List Column} {column : Column} {value : Value} (h : k = before.length) :
    pushBack (before ++ column :: after) k value = some (before ++ (column ++ [value]) :: after) := by
  have hset : (before ++ column :: after).set before.length (column ++ [value]) =
      before ++ (column ++ [value]) :: after := by
    rw [List.set_append_right _ _ le_rfl, Nat.sub_self, List.set_cons_zero]
  rw [pushBack, h, List.getElem?_append_right le_rfl, Nat.sub_self, List.getElem?_cons_zero, Option.map_some, hset]

section
variable {rows' : List Tuple} {i : Nat}

theorem copy2Result_fill (hlen : infos.length < 2 ^ 32) (h : i < rows'.length) :
    Operator.copy2Result (columnsOf relations query infos rows')
      (results.fill relations query infos rows) i =
          some (results.fill relations query infos (rows ++ [rows'.getD i 0])) := by
  have hloop : ∀ (infos : List SelectInfo) (before : List Column),
      ((columnsOf relations query infos rows').zipIdx before.length).foldlM
        (fun tmpResults entry => entry.1[i]? >>= pushBack tmpResults entry.2)
        (before ++ columnsOf relations query infos rows) =
      some (before ++ columnsOf relations query infos (rows ++ [rows'.getD i 0])) := by
    intro infos
    induction infos with
    | nil => exact fun _ => rfl
    | cons info infos ih =>
      intro before
      simp only [columnsOf, List.map_cons, List.zipIdx_cons, List.foldlM_cons, values_get h, bind_some,
        pushBack_append rfl, List.map_append, List.map_nil]
      have hrest := ih
        (before ++ [rows.map (value relations query · info) ++ [value relations query (rows'.getD i 0) info]])
      simpa [columnsOf] using hrest
  have hcolumns : (columnsOf relations query infos rows').length < 2 ^ 32 := by rwa [columnsOf, List.length_map]
  rw [Operator.copy2Result, countAll_eq_foldlM hcolumns,
    foldlM_range_getElem? _ fun tmpResults column cId => column[i]? >>= pushBack tmpResults cId]
  have hcopied := hloop infos []
  simp only [List.length_nil, List.nil_append] at hcopied
  simp only [Results.fill, hcopied, bind_some, List.length_append, List.length_singleton]
  rfl

variable (relations query) in
/-- The columns from `before` on get one value each. -/
theorem copyColumns_fill (rows : List Tuple) (before after : List Column) (relColId : BitVec 32)
    (hi : i < rows'.length)
    (hv : ∀ info ∈ infos, value relations query (rows'.getD i 0) info = value relations query t info)
    (hk : relColId.toNat = before.length) (hlen : before.length + infos.length < 2 ^ 32) :
    ∃ relColId' : BitVec 32, Operator.copyColumns (columnsOf relations query infos rows') i
        (before ++ (columnsOf relations query infos rows ++ after), relColId) =
      some (before ++ (columnsOf relations query infos (rows ++ [t]) ++ after), relColId') ∧
      relColId'.toNat = before.length + infos.length := by
  have hcolumns : (columnsOf relations query infos rows').length < 2 ^ 32 := by
    rw [columnsOf, List.length_map]
    omega
  rw [Operator.copyColumns, countAll_eq hcolumns]
  clear hcolumns
  induction infos generalizing before relColId with
  | nil => exact ⟨relColId, rfl, hk⟩
  | cons info infos ih =>
    rw [List.length_cons] at hlen
    have hnext : (relColId + 1#32).toNat = before.length + 1 := by
      rw [BitVec.toNat_add, hk, BitVec.toNat_ofNat, Nat.add_mod_mod]
      exact Nat.mod_eq_of_lt (by omega)
    let column := rows.map (value relations query · info) ++ [value relations query t info]
    obtain ⟨relColId', hrest, hend⟩ := ih (before ++ [column]) (relColId + 1#32)
      (fun info hinfo => hv info (List.mem_cons_of_mem _ hinfo)) (by simpa using hnext) (by simp; omega)
    refine ⟨relColId', ?_, by simpa [Nat.add_assoc, Nat.add_comm] using hend⟩
    simp only [columnsOf, List.map_cons, List.foldlM_cons, values_get hi, bind_some, List.cons_append,
      pushBack_append hk, hv info List.mem_cons_self]
    simpa [columnsOf, column] using hrest

end

/-- A loop whose turn for `x` copies the tuples `out x`. -/
theorem foldlM_fill {α : Type} {xs : List α} {step : Results → α → Option Results}
    (out : α → List Tuple)
    (h : ∀ x ∈ xs, ∀ rows, step (results.fill relations query infos rows) x =
      some (results.fill relations query infos (rows ++ out x))) :
    xs.foldlM step (results.fill relations query infos rows) =
      some (results.fill relations query infos (rows ++ xs.flatMap out)) := by
  induction xs generalizing rows with
  | nil => rw [List.flatMap_nil, List.append_nil]; rfl
  | cons x xs ih =>
    rw [List.foldlM_cons, h x (by simp), List.flatMap_cons, ← List.append_assoc]
    exact ih fun x hx => h x (by simp [hx])

namespace Results

theorem setColId_self : (results.setColId info k).select2ResultColId info = some (k % 2 ^ 32) := by
  simp only [Results.setColId, Function.update_self]

theorem setColId_of_ne {i : SelectInfo} (h : i ≠ info) :
    (results.setColId info k).select2ResultColId i = results.select2ResultColId i := by
  simp only [Results.setColId, Function.update_of_ne h]

theorem setColId_ne_none {i : SelectInfo} : (results.setColId info k).select2ResultColId i ≠ none ↔
    i = info ∨ results.select2ResultColId i ≠ none := by
  by_cases hi : i = info
  · subst hi; simp [setColId_self]
  · simp [setColId_of_ne hi, hi]

theorem Idle.new : Results.new.Idle 0 := ⟨rfl, rfl⟩

theorem Idle.addColumn (h : results.Idle infos.length) :
    results.addColumn.Idle (infos ++ [info]).length :=
  ⟨by rw [Results.addColumn, h.tmpResults, List.length_append, List.length_singleton,
    List.replicate_succ'], h.resultSize⟩

theorem Idle.setColId (h : results.Idle n) : (results.setColId info k).Idle n :=
  ⟨h.tmpResults, h.resultSize⟩

theorem Idle.eq_fill (h : results.Idle infos.length) :
    results = results.fill relations query infos [] := by
  have htmp : results.tmpResults = columnsOf relations query infos [] := by
    rw [h.tmpResults, columnsOf, List.eq_replicate_iff.mpr ⟨List.length_map _, ?_⟩]
    intro column hcolumn
    obtain ⟨_, _, rfl⟩ := List.mem_map.mp hcolumn
    rfl
  rw [Results.fill, ← htmp, List.length_nil, ← h.resultSize]

/-- The loop that fills the columns of an operator. -/
theorem Idle.foldlM {α : Type} {xs : List α} {step : Results → α → Option Results}
    (h : results.Idle infos.length) (out : α → List Tuple)
    (hstep : ∀ x ∈ xs, ∀ rows, step (results.fill relations query infos rows) x =
      some (results.fill relations query infos (rows ++ out x))) :
    xs.foldlM step results = some (results.fill relations query infos (xs.flatMap out)) := by
  have hfold : xs.foldlM step (results.fill relations query infos []) = _ := foldlM_fill out hstep
  rwa [← h.eq_fill, List.nil_append] at hfold

theorem Numbers.new : Results.new.Numbers [] := ⟨fun _ h => absurd rfl h, fun _ _ _ h => nomatch h⟩

theorem Numbers.append (h : results.Numbers infos) :
    (results.setColId info infos.length).Numbers (infos ++ [info]) := by
  constructor
  · intro i hi
    rcases setColId_ne_none.mp hi with rfl | hi
    · simp
    · exact List.mem_append_left _ (h.listed i hi)
  · intro hlen i k hk
    rw [List.length_append, List.length_singleton] at hlen
    by_cases hi : i = info
    · subst hi
      rw [setColId_self, Nat.mod_eq_of_lt (by omega)] at hk
      cases hk
      exact List.getElem?_concat_length
    · rw [setColId_of_ne hi] at hk
      have hget := h.position (by omega) i k hk
      rwa [List.getElem?_append_left (List.getElem?_eq_some_iff.mp hget).1]

end Results

open Operator (numberColumns)

theorem numberColumns_append {more : List SelectInfo} :
    numberColumns (numberColumns results infos 0) more infos.length =
      numberColumns results (infos ++ more) 0 := by
  rw [numberColumns, numberColumns, numberColumns, List.zipIdx_append, List.foldl_append,
    Nat.zero_add]

theorem numberColumns_cons :
    numberColumns results (info :: infos) k = numberColumns (results.setColId info k) infos (k + 1) := by
  rw [numberColumns, List.zipIdx_cons, List.foldl_cons]
  rfl

theorem Results.Idle.numberColumns (h : results.Idle n) : (numberColumns results infos k).Idle n := by
  induction infos generalizing results k with
  | nil => exact h
  | cons info infos ih => rw [numberColumns_cons]; exact ih h.setColId

theorem numberColumns_of_not_mem (h : info ∉ infos) :
    (numberColumns results infos k).select2ResultColId info = results.select2ResultColId info := by
  induction infos generalizing results k with
  | nil => rfl
  | cons first infos ih =>
    rw [List.mem_cons, not_or] at h
    rw [numberColumns_cons, ih h.2, Results.setColId_of_ne h.1]

/-- Without repetitions the columns keep their numbers. -/
theorem numberColumns_select {i : Nat} (hnd : infos.Nodup) (hlen : k + infos.length ≤ 2 ^ 32)
    (hi : infos[i]? = some info) :
    (numberColumns results infos k).select2ResultColId info = some (k + i) := by
  induction infos generalizing results k i with
  | nil => cases hi
  | cons first infos ih =>
    rw [List.length_cons] at hlen
    rw [numberColumns_cons]
    cases i with
    | zero =>
      obtain rfl : first = info := Option.some.inj hi
      rw [numberColumns_of_not_mem (List.nodup_cons.mp hnd).1, Results.setColId_self, Nat.mod_eq_of_lt (by omega)]
      rfl
    | succ i =>
      rw [ih (List.nodup_cons.mp hnd).2 (by omega) (by simpa using hi)]
      congr 1
      omega

end Query
