import HyuIte4065.Query.Operators
import HyuIte4065.Library.Pieces
import HyuIte4065.Library.Loops
import Mathlib.Control.Monad.Basic

/-!
# The text format of queries

`parseQuery` and `dumpText` of `Parser.cpp`. A string is a list of characters. Besides the
failed asserts and the exceptions of `stoul`, an index outside its vector is an outcome of its
own. The counters of the loops in `dumpText` are `unsigned`, the lengths are not.
-/
namespace Query

abbrev Text := List Char

inductive Stop where
  | assertion | invalid_argument | out_of_range | index
  deriving DecidableEq, Repr

/-- `operator[]` -/
def element {α : Type} (elements : List α) (i : Nat) : Except Stop α :=
  match elements[i]? with
  | some a => .ok a
  | none => .error .index

theorem element_eq_ok {α : Type} {elements : List α} {i : Nat} {a : α}
    (h : element elements i = .ok a) : elements[i]? = some a := by
  unfold element at h
  split at h
  · next heq => rw [heq]; exact congrArg some (Except.ok.inj h)
  · cases h

theorem element_lt {α : Type} {elements : List α} {i : Nat} {a : α}
    (h : element elements i = .ok a) : i < elements.length :=
  (List.getElem?_eq_some_iff.mp (element_eq_ok h)).1

theorem element_error {α : Type} {elements : List α} {i : Nat} {e : Stop}
    (h : element elements i = .error e) : e = .index ∧ elements.length ≤ i := by
  unfold element at h
  split at h
  · cases h
  · next hnone =>
    cases h
    exact ⟨rfl, List.getElem?_eq_none_iff.mp hnone⟩

def isSpace (c : Char) : Bool := c.toNat = 32 || (9 ≤ c.toNat && c.toNat ≤ 13)

/-- The sign that a number may have; true for a minus. -/
def takeSign : Text → Bool × Text
  | '-' :: rest => (true, rest)
  | '+' :: rest => (false, rest)
  | text => (false, text)

/-- `stoul`: what follows the digits is ignored, a minus negates the unsigned value. -/
def stoul (token : Text) : Except Stop Value :=
  let (negative, rest) := takeSign (token.dropWhile isSpace)
  let digits := rest.takeWhile Char.isDigit
  let magnitude := Nat.ofDigitChars 10 digits 0
  if digits = [] then .error .invalid_argument
  else if 2 ^ 64 ≤ magnitude then .error .out_of_range
  else .ok (if negative then -BitVec.ofNat 64 magnitude else BitVec.ofNat 64 magnitude)

/-- `splitString` into strings; `getline` finds no token behind the last delimiter. -/
def splitString (line : Text) (delimiter : Char) : List Text := Pieces.cut delimiter line

/-- `splitString` into numbers, which are narrowed to `unsigned`. -/
def splitNumbers (line : Text) (delimiter : Char) : Except Stop (List Nat) :=
  (splitString line delimiter).mapM fun token => do return (← stoul token).toNat % 2 ^ 32

def Comparison.toChar : Comparison → Char
  | .less => '<'
  | .greater => '>'
  | .equal => '='

/-- The cast of a character that is one of the three. -/
def Comparison.ofChar (c : Char) : Comparison :=
  if c = '<' then .less else if c = '>' then .greater else .equal

def comparisonTypes : List Comparison := [.less, .greater, .equal]

def splitPredicates (line : Text) : List Text :=
  match comparisonTypes.find? fun cT => decide (cT.toChar ∈ line) with
  | some cT => splitString line cT.toChar
  | none => []

def parseRelColPair (raw : Text) : Except Stop SelectInfo := do
  let ids ← splitNumbers raw '.'
  return ⟨0, ← element ids 0, ← element ids 1⟩

def isConstant (raw : Text) : Bool := decide ('.' ∉ raw)

namespace QueryInfo

def clear : QueryInfo := ⟨[], [], [], []⟩

def parseRelationIds (query : QueryInfo) (rawRelations : Text) : Except Stop QueryInfo := do
  return { query with relationIds := query.relationIds ++ (← splitNumbers rawRelations ' ') }

def parsePredicate (query : QueryInfo) (rawPredicate : Text) : Except Stop QueryInfo :=
  match splitPredicates rawPredicate with
  | [left, right] =>
    if isConstant left then throw .assertion else do
      let leftSelect ← parseRelColPair left
      if isConstant right then
        let constant ← stoul right
        let compType ← element rawPredicate left.length
        return { query with filters := query.filters ++ [⟨leftSelect, constant, .ofChar compType⟩] }
      else
        return { query with
          predicates := query.predicates ++ [⟨leftSelect, ← parseRelColPair right⟩] }
  | _ => throw .assertion

def parsePredicates (query : QueryInfo) (text : Text) : Except Stop QueryInfo :=
  (splitString text '&').foldlM parsePredicate query

def parseSelection (query : QueryInfo) (rawSelect : Text) : Except Stop QueryInfo := do
  return { query with selections := query.selections ++ [← parseRelColPair rawSelect] }

def parseSelections (query : QueryInfo) (rawSelections : Text) : Except Stop QueryInfo :=
  (splitString rawSelections ' ').foldlM parseSelection query

end QueryInfo

def resolveIds (relationIds : List RelationId) (selectInfo : SelectInfo) : Except Stop SelectInfo := do
  return { selectInfo with relId := ← element relationIds selectInfo.binding }

def PredicateInfo.resolveIds (relationIds : List RelationId) (pInfo : PredicateInfo) :
    Except Stop PredicateInfo := do
  return ⟨← Query.resolveIds relationIds pInfo.left, ← Query.resolveIds relationIds pInfo.right⟩

def FilterInfo.resolveIds (relationIds : List RelationId) (fInfo : FilterInfo) :
    Except Stop FilterInfo := do
  return { fInfo with filterColumn := ← Query.resolveIds relationIds fInfo.filterColumn }

namespace QueryInfo

def resolveRelationIds (query : QueryInfo) : Except Stop QueryInfo := do
  let selections ← query.selections.mapM (resolveIds query.relationIds)
  let predicates ← query.predicates.mapM (·.resolveIds query.relationIds)
  let filters ← query.filters.mapM (·.resolveIds query.relationIds)
  return ⟨query.relationIds, predicates, filters, selections⟩

/-- Parse query `[RELATIONS]|[PREDICATES]|[SELECTS]`. -/
def parseQuery (rawQuery : Text) : Except Stop QueryInfo :=
  match splitString rawQuery '|' with
  | [rawRelations, rawPredicates, rawSelections] => do
    let query ← clear.parseRelationIds rawRelations
    let query ← query.parsePredicates rawPredicates
    let query ← query.parseSelections rawSelections
    query.resolveRelationIds
  | _ => throw .assertion

end QueryInfo

/-- `to_string`, and `<<` of a number -/
def toText (n : Nat) : Text := Nat.toDigits 10 n

def SelectInfo.dumpText (info : SelectInfo) : Text := toText info.binding ++ '.' :: toText info.colId

def FilterInfo.dumpText (f : FilterInfo) : Text :=
  f.filterColumn.dumpText ++ f.comparison.toChar :: toText f.constant.toNat

def PredicateInfo.dumpText (p : PredicateInfo) : Text := p.left.dumpText ++ '=' :: p.right.dumpText

/-- One turn of the loop: an element, and the delimiter unless it is the last one. -/
def dumpElement {α : Type} (dump : α → Text) (delimiter : Char) (elements : List α) (i : Nat)
    (ss : Text) : Option Text :=
  (elements[i]?).map fun e => ss ++ dump e ++ if i < elements.length - 1 then [delimiter] else []

def dumpPart {α : Type} (dump : α → Text) (delimiter : Char) (elements : List α) (fuel : Nat)
    (ss : Text) : Option Text :=
  Loops.countUp elements.length (dumpElement dump delimiter elements) fuel 0#32 ss

/-- `QueryInfo::dumpText`; the loop over the relation ids is that of `dumpPart` written out. -/
def QueryInfo.dumpText (query : QueryInfo) (fuel : Nat) : Option Text := do
  let text ← dumpPart toText ' ' query.relationIds fuel []
  let text ← dumpPart PredicateInfo.dumpText '&' query.predicates fuel (text ++ ['|'])
  let text ← dumpPart FilterInfo.dumpText '&' query.filters fuel
    (if query.predicates ≠ [] ∧ query.filters ≠ [] then text ++ ['&'] else text)
  dumpPart SelectInfo.dumpText ' ' query.selections fuel (text ++ ['|'])

end Query
