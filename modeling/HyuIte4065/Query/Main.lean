import HyuIte4065.Query.Correct
import HyuIte4065.Query.Parser
import HyuIte4065.Query.RelationFile
import HyuIte4065.QueryPool.Progress
import Mathlib.Data.List.GetD

/-!
# The whole program of project 1

`main` of `main.cpp` from the first line that it reads: the relations are loaded, the other lines
are parsed, joined by the threads of the pool and printed. The joiner reads the cells where the
files are mapped. Nobody stores to a mapped file, so the model reads them when a relation is added.
-/
namespace Query

open Loops RelationFile Transition

def relationOf (size : Nat) (columns : List Column) : Option Relation :=
  if h : ∀ column ∈ columns, column.length = size then some ⟨size, columns, h⟩ else none

/-- The parser and the joiner, as the threads of the pool use them. -/
def program (numThread : Nat) (containers : Containers) (fuel : Nat) (relations : List Relation) :
    QueryPool.Program Text (Except Stop QueryInfo) (Option String) where
  numThread := numThread
  parseQuery := QueryInfo.parseQuery
  join
    | .ok query => join containers fuel relations query
    | .error _ => none

/-- What the queries among the lines are to be answered. -/
def answers (relations : List Relation) : List Text → List String
  | [] => []
  | line :: lines =>
    if line = "F".toList then answers relations lines
    else match QueryInfo.parseQuery line with
      | .ok query => answer relations query :: answers relations lines
      | .error _ => answers relations lines

variable {disk : Disk} {relation : Relation} {relations tables : List Relation} {fileName line : Text}
  {names lines : List Text} {containers : Containers} {numThread fuel : Nat}

/-! ### The relations -/

end Query
