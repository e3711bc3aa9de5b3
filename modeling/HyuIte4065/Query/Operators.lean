import HyuIte4065.Library.Loops
import Mathlib.Logic.Function.Basic

/-!
# The operators of project 1

`Relation.hpp`, the query of `Parser.hpp`, and `Operators.hpp` and `Operators.cpp` without the
parallel branch, which is not compiled in. A vector is a list and a column a list of values;
a failed `assert` and an access outside a vector have no result. The loops over columns count
with an `unsigned`, and the column indices are of this type as well.
-/
namespace Query

open Loops

abbrev Value := BitVec 64
abbrev RelationId := Nat
abbrev Column := List Value

structure Relation where
  size : Nat
  columns : List Column
  rectangular : ∀ column ∈ columns, column.length = size

structure SelectInfo where
  relId : RelationId
  binding : Nat
  colId : Nat
  deriving DecidableEq, Repr

inductive Comparison where
  | less | greater | equal
  deriving DecidableEq, Repr

structure FilterInfo where
  filterColumn : SelectInfo
  constant : Value
  comparison : Comparison
  deriving DecidableEq, Repr

structure PredicateInfo where
  left : SelectInfo
  right : SelectInfo
  deriving DecidableEq, Repr

structure QueryInfo where
  relationIds : List RelationId
  predicates : List PredicateInfo
  filters : List FilterInfo
  selections : List SelectInfo
  deriving Repr

/-- What the containers of the standard library leave open: the order in which `equal_range`
of a multimap and a walk through a set visit their elements. -/
structure Containers where
  equalRange : List (Value × Nat) → Value → List Nat
  equalRange_perm : ∀ entries key, (equalRange entries key).Perm
    ((entries.filter fun entry => decide (entry.1 = key)).map (·.2))
  walk : List SelectInfo → List SelectInfo
  walk_perm : ∀ elements, (walk elements).Perm elements

/-- The members that every operator has. -/
structure Results where
  select2ResultColId : SelectInfo → Option Nat
  resultColumns : List Column
  tmpResults : List Column
  resultSize : Nat

namespace Results

def new : Results := ⟨fun _ => none, [], [], 0⟩

/-- `emplace_back()` on `tmpResults`. -/
def addColumn (results : Results) : Results :=
  { results with tmpResults := results.tmpResults ++ [[]] }

/-- The values of the map are of type `unsigned`. -/
def setColId (results : Results) (info : SelectInfo) (colId : Nat) : Results :=
  { results with
    select2ResultColId := Function.update results.select2ResultColId info (some (colId % 2 ^ 32)) }

end Results

/-- `tmpResults[colId].push_back(value)` -/
def pushBack (tmpResults : List Column) (colId : Nat) (value : Value) : Option (List Column) :=
  (tmpResults[colId]?).map fun column => tmpResults.set colId (column ++ [value])

inductive Operator where
  | scan (results : Results) (relation : Relation) (relationBinding : Nat)
  | filterScan (results : Results) (relation : Relation) (relationBinding : Nat)
      (filters : List FilterInfo) (inputData : List Column)
  | join (results : Results) (left right : Operator) (pInfo : PredicateInfo)
      (requestedColumns requestedColumnsLeft requestedColumnsRight : List SelectInfo)
  | selfJoin (results : Results) (input : Operator) (pInfo : PredicateInfo)
      (requiredIUs : List SelectInfo)

namespace Operator

def newScan (relation : Relation) (relationBinding : Nat) : Operator :=
  .scan .new relation relationBinding

/-- The constructor; it takes the binding from the first filter. -/
def newFilterScan (relation : Relation) (filters : List FilterInfo) : Option Operator := do
  let filter ← filters[0]?
  return .filterScan .new relation filter.filterColumn.binding filters []

def newJoin (left right : Operator) (pInfo : PredicateInfo) : Operator :=
  .join .new left right pInfo [] [] []

def newSelfJoin (input : Operator) (pInfo : PredicateInfo) : Operator :=
  .selfJoin .new input pInfo []

def results : Operator → Results
  | .scan results _ _ => results
  | .filterScan results _ _ _ _ => results
  | .join results _ _ _ _ _ _ => results
  | .selfJoin results _ _ _ => results

def resultSize (op : Operator) : Nat := op.results.resultSize

/-- `getResults`, which `Scan` overrides. -/
def getResults : Operator → List Column
  | .scan results _ _ => results.resultColumns
  | op => op.results.tmpResults

def resolve (op : Operator) (info : SelectInfo) : Option Nat := op.results.select2ResultColId info

/-- The column of the results that `resolve` names. -/
def column (op : Operator) (info : SelectInfo) : Option Column := do
  op.getResults[← op.resolve info]?

def require : Operator → SelectInfo → Option (Bool × Operator)
  | .scan results relation relationBinding, info =>
    if info.binding ≠ relationBinding then
      some (false, .scan results relation relationBinding)
    else do
      let column ← relation.columns[info.colId]?
      let resultColumns := results.resultColumns ++ [column]
      let results := { results with resultColumns := resultColumns }
      return (true, .scan (results.setColId info (resultColumns.length - 1)) relation relationBinding)
  | .filterScan results relation relationBinding filters inputData, info =>
    if info.binding ≠ relationBinding then
      some (false, .filterScan results relation relationBinding filters inputData)
    else do
      let column ← relation.columns[info.colId]?
      if results.select2ResultColId info = none then
        let results := results.addColumn
        return (true, .filterScan (results.setColId info (results.tmpResults.length - 1)) relation
          relationBinding filters (inputData ++ [column]))
      else
        return (true, .filterScan results relation relationBinding filters inputData)
  | .join results left right pInfo requested requestedLeft requestedRight, info =>
    if info ∈ requested then
      some (true, .join results left right pInfo requested requestedLeft requestedRight)
    else do
      let (success, left) ← left.require info
      if success then
        return (true, .join results.addColumn left right pInfo (requested ++ [info])
          (requestedLeft ++ [info]) requestedRight)
      else
        let (success, right) ← right.require info
        if success then
          return (true, .join results.addColumn left right pInfo (requested ++ [info])
            requestedLeft (requestedRight ++ [info]))
        else
          return (false, .join results left right pInfo requested requestedLeft requestedRight)
  | .selfJoin results input pInfo requiredIUs, info =>
    if info ∈ requiredIUs then
      some (true, .selfJoin results input pInfo requiredIUs)
    else do
      let (success, input) ← input.require info
      if success then
        return (true, .selfJoin results.addColumn input pInfo (requiredIUs ++ [info]))
      else
        return (false, .selfJoin results input pInfo requiredIUs)

/-- `FilterScan::applyFilter` -/
def applyFilter (relation : Relation) (i : Nat) (f : FilterInfo) : Option Bool := do
  let compareCol ← relation.columns[f.filterColumn.colId]?
  let value ← compareCol[i]?
  return match f.comparison with
    | .equal => decide (value = f.constant)
    | .greater => decide (value > f.constant)
    | .less => decide (value < f.constant)

/-- `copy2Result` of `FilterScan` and of `SelfJoin` -/
def copy2Result (inputData : List Column) (results : Results) (id : Nat) : Option Results := do
  let tmpResults ← countAll 32 inputData.length (fun cId tmpResults => do
    let column ← inputData[cId]?
    pushBack tmpResults cId (← column[id]?)) results.tmpResults
  return { results with tmpResults := tmpResults, resultSize := results.resultSize + 1 }

/-- One of the two loops of `Join::copy2Result`, with `tmpResults` and `relColId`. -/
def copyColumns (copyData : List Column) (id : Nat) (state : List Column × BitVec 32) :
    Option (List Column × BitVec 32) :=
  countAll 32 copyData.length (fun cId state => do
    let column ← copyData[cId]?
    return (← pushBack state.1 state.2.toNat (← column[id]?), state.2 + 1)) state

/-- `Join::copy2Result` -/
def copyPair2Result (copyLeftData copyRightData : List Column) (results : Results)
    (ids : Nat × Nat) : Option Results := do
  let state ← copyColumns copyLeftData ids.1 (results.tmpResults, 0)
  let (tmpResults, _) ← copyColumns copyRightData ids.2 state
  return { results with tmpResults := tmpResults, resultSize := results.resultSize + 1 }

/-- `select2ResultColId` numbers the columns from `colId` on, which `resColId` counts. -/
def numberColumns (results : Results) (infos : List SelectInfo) (colId : Nat) : Results :=
  (infos.zipIdx colId).foldl (fun results entry => results.setColId entry.1 entry.2) results

/-- `Join::run` once the inputs have been run and the smaller one is on the left. -/
def joinRun (containers : Containers) (results : Results) (left right : Operator)
    (pInfo : PredicateInfo) (requested requestedLeft requestedRight : List SelectInfo) :
    Option Operator := do
  let copyLeftData ← requestedLeft.mapM left.column
  let copyRightData ← requestedRight.mapM right.column
  let results := numberColumns results requestedLeft 0
  let results := numberColumns results requestedRight requestedLeft.length
  let leftKeyColumn ← left.column pInfo.left
  let rightKeyColumn ← right.column pInfo.right
  let hashTable ← (List.range left.resultSize).mapM fun i => (leftKeyColumn[i]?).map (·, i)
  let results ← (List.range right.resultSize).foldlM (fun results i => do
    let rightKey ← rightKeyColumn[i]?
    (containers.equalRange hashTable rightKey).foldlM
      (fun results leftId => copyPair2Result copyLeftData copyRightData results (leftId, i)) results) results
  return .join results left right pInfo requested requestedLeft requestedRight

/-- `SelfJoin::run` once the input has been run. -/
def selfJoinRun (containers : Containers) (results : Results) (input : Operator)
    (pInfo : PredicateInfo) (requiredIUs : List SelectInfo) : Option Operator := do
  let copyData ← (containers.walk requiredIUs).mapM input.column
  let results := numberColumns results (containers.walk requiredIUs) 0
  let leftCol ← input.column pInfo.left
  let rightCol ← input.column pInfo.right
  let results ← (List.range input.resultSize).foldlM (fun results i => do
    if (← leftCol[i]?) = (← rightCol[i]?) then copy2Result copyData results i else some results) results
  return .selfJoin results input pInfo requiredIUs

/-- `run`; the fuel bounds the height of the tree. -/
def run (containers : Containers) : Nat → Operator → Option Operator
  | 0, _ => none
  | _ + 1, .scan results relation relationBinding =>
    some (.scan { results with resultSize := relation.size } relation relationBinding)
  | _ + 1, .filterScan results relation relationBinding filters inputData => do
    let results ← (List.range relation.size).foldlM (fun results i => do
      let pass ← filters.foldlM (fun pass f => do return pass && (← applyFilter relation i f)) true
      if pass then copy2Result inputData results i else some results) results
    return .filterScan results relation relationBinding filters inputData
  | fuel + 1, .join results left right pInfo requested requestedLeft requestedRight => do
    let (_, left) ← left.require pInfo.left
    let left ← left.run containers fuel
    let (_, right) ← right.require pInfo.right
    let right ← right.run containers fuel
    -- the smaller input builds the hash table
    if left.resultSize > right.resultSize then
      joinRun containers results right left ⟨pInfo.right, pInfo.left⟩ requested requestedRight requestedLeft
    else
      joinRun containers results left right pInfo requested requestedLeft requestedRight
  | fuel + 1, .selfJoin results input pInfo requiredIUs => do
    let (_, input) ← input.require pInfo.left
    let (_, input) ← input.require pInfo.right
    let input ← input.run containers fuel
    selfJoinRun containers results input pInfo requiredIUs

end Operator

/-- What `Checksum::run` leaves: `checkSums` and `resultSize`. -/
structure Checksum where
  checkSums : List Value
  resultSize : Nat
  deriving Repr

/-- `Checksum::run` -/
def Checksum.run (containers : Containers) (fuel : Nat) (input : Operator) (colInfo : List SelectInfo) :
    Option Checksum := do
  let input ← colInfo.foldlM (fun input sInfo => do return (← input.require sInfo).2) input
  let input ← input.run containers fuel
  colInfo.foldlM (fun checksum sInfo => do
    let resultCol ← input.column sInfo
    let sum ← (List.range input.resultSize).foldlM (fun sum i => do return sum + (← resultCol[i]?)) 0
    return ⟨checksum.checkSums ++ [sum], input.resultSize⟩) ⟨[], 0⟩

end Query
