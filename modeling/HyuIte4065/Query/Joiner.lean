import HyuIte4065.Query.Operators

/-!
# The joiner of project 1

`Joiner.hpp` and `Joiner.cpp`. The disjoint set is a map; `operator[]` on a key that is not
there, which would insert an empty element, has no result here. Its trees are pointers: a tree
that is moved away leaves a null pointer, and a null pointer that is moved into a `Join` or a
`SelfJoin` stays in the tree until it is run. Before a tree runs, its operators hold nothing but
what they are built from.
-/
namespace Query

open Loops

inductive OperatorPtr where
  | null
  | scan (relation : Relation) (relationBinding : Nat)
  | filterScan (relation : Relation) (relationBinding : Nat) (filters : List FilterInfo)
  | join (left right : OperatorPtr) (pInfo : PredicateInfo)
  | selfJoin (input : OperatorPtr) (pInfo : PredicateInfo)

/-- The constructor; it takes the binding from the first filter. -/
def OperatorPtr.newFilterScan (relation : Relation) (filters : List FilterInfo) : Option OperatorPtr := do
  let filter ← filters[0]?
  return .filterScan relation filter.filterColumn.binding filters

/-- The tree that the pointers lead to, if none of them is null. -/
def OperatorPtr.operator : OperatorPtr → Option Operator
  | .null => none
  | .scan relation relationBinding => some (.newScan relation relationBinding)
  | .filterScan relation relationBinding filters =>
    some (.filterScan .new relation relationBinding filters [])
  | .join left right pInfo => do return .newJoin (← left.operator) (← right.operator) pInfo
  | .selfJoin input pInfo => do return .newSelfJoin (← input.operator) pInfo

structure DisjointSetElement where
  rootId : Nat
  tree : OperatorPtr

abbrev DisjointSet := Nat → Option DisjointSetElement

namespace DisjointSet

def empty : DisjointSet := fun _ => none

def set (disjointSet : DisjointSet) (id : Nat) (element : DisjointSetElement) : DisjointSet :=
  Function.update disjointSet id (some element)

/-- `move` of the tree of an element. -/
def moveTree (disjointSet : DisjointSet) (id : Nat) : Option (OperatorPtr × DisjointSet) := do
  let element ← disjointSet id
  return (element.tree, disjointSet.set id { element with tree := .null })

def setTree (disjointSet : DisjointSet) (id : Nat) (tree : OperatorPtr) : Option DisjointSet := do
  let element ← disjointSet id
  return disjointSet.set id { element with tree := tree }

def setRootId (disjointSet : DisjointSet) (id rootId : Nat) : Option DisjointSet := do
  let element ← disjointSet id
  return disjointSet.set id { element with rootId := rootId }

end DisjointSet

/-- `Joiner::addScan` -/
def addScan (relations : List Relation) (disjointSet : DisjointSet) (info : SelectInfo)
    (query : QueryInfo) : Option DisjointSet := do
  let filters := query.filters.filter fun f => decide (f.filterColumn.binding = info.binding)
  let relation ← relations[info.relId]?
  let tree ← if filters = [] then some (OperatorPtr.scan relation info.binding)
    else OperatorPtr.newFilterScan relation filters
  return disjointSet.set info.binding ⟨info.binding, tree⟩

/-- With path compression; the fuel bounds the length of the path. -/
def getRootOfJoinTree : Nat → DisjointSet → Nat → Option (Nat × DisjointSet)
  | 0, _, _ => none
  | fuel + 1, disjointSet, selectedId => do
    let element ← disjointSet selectedId
    if element.rootId = selectedId then
      return (element.rootId, disjointSet)
    else
      let (root, disjointSet) ← getRootOfJoinTree fuel disjointSet element.rootId
      return (root, ← disjointSet.setRootId selectedId root)

def unionTwoJoinTrees (fuel : Nat) (disjointSet : DisjointSet) (pInfo : PredicateInfo)
    (leftId rightId : Nat) : Option (Nat × DisjointSet) := do
  let (leftRoot, disjointSet) ← getRootOfJoinTree fuel disjointSet leftId
  let (rightRoot, disjointSet) ← getRootOfJoinTree fuel disjointSet rightId
  let (leftTree, disjointSet) ← disjointSet.moveTree leftRoot
  let (rightTree, disjointSet) ← disjointSet.moveTree rightRoot
  let disjointSet ← disjointSet.setRootId leftRoot rightRoot
  let disjointSet ← disjointSet.setTree rightRoot (.join leftTree rightTree pInfo)
  return (rightRoot, disjointSet)

inductive QueryGraphProvides where
  | addScanLeft | addScanRight | addScanBoth | needConnect | alreadyConnected
  deriving DecidableEq, Repr

def analyzeInputOfJoin (fuel : Nat) (disjointSet : DisjointSet) (leftInfo rightInfo : SelectInfo) :
    Option (QueryGraphProvides × DisjointSet) :=
  let usedLeft := (disjointSet leftInfo.binding).isSome
  let usedRight := (disjointSet rightInfo.binding).isSome
  if usedLeft ^^ usedRight then
    some (if usedLeft then .addScanRight else .addScanLeft, disjointSet)
  else if !(usedLeft && usedRight) then
    some (.addScanBoth, disjointSet)
  else do
    let (leftRoot, disjointSet) ← getRootOfJoinTree fuel disjointSet leftInfo.binding
    let (rightRoot, disjointSet) ← getRootOfJoinTree fuel disjointSet rightInfo.binding
    return (if leftRoot = rightRoot then .alreadyConnected else .needConnect, disjointSet)

/-- One turn of the loop of `Joiner::join`, with the `root` that it leaves. -/
def addPredicate (fuel : Nat) (relations : List Relation) (query : QueryInfo)
    (disjointSet : DisjointSet) (pInfo : PredicateInfo) : Option (Nat × DisjointSet) := do
  match ← analyzeInputOfJoin fuel disjointSet pInfo.left pInfo.right with
  | (.addScanLeft, disjointSet) =>
    let disjointSet ← addScan relations disjointSet pInfo.left query
    unionTwoJoinTrees fuel disjointSet pInfo pInfo.left.binding pInfo.right.binding
  | (.addScanRight, disjointSet) =>
    let disjointSet ← addScan relations disjointSet pInfo.right query
    unionTwoJoinTrees fuel disjointSet pInfo pInfo.left.binding pInfo.right.binding
  | (.addScanBoth, disjointSet) =>
    let disjointSet ← addScan relations disjointSet pInfo.left query
    let disjointSet ← addScan relations disjointSet pInfo.right query
    unionTwoJoinTrees fuel disjointSet pInfo pInfo.left.binding pInfo.right.binding
  | (.needConnect, disjointSet) =>
    unionTwoJoinTrees fuel disjointSet pInfo pInfo.left.binding pInfo.right.binding
  | (.alreadyConnected, disjointSet) =>
    let (root, disjointSet) ← getRootOfJoinTree fuel disjointSet pInfo.left.binding
    let (temp, disjointSet) ← disjointSet.moveTree root
    return (root, ← disjointSet.setTree root (.selfJoin temp pInfo))

/-- The text of the answer. -/
def printResults (checksum : Checksum) : Option String := do
  let results := checksum.checkSums
  let out ← countAll 32 results.length (fun i out => do
    let result ← results[i]?
    let out := out ++ if checksum.resultSize = 0 then "NULL" else toString result.toNat
    return if i < results.length - 1 then out ++ " " else out) ""
  return out ++ "\n"

/-- `Joiner::join`; without a predicate `root` is never set. A null pointer in the tree has no run. -/
def join (containers : Containers) (fuel : Nat) (relations : List Relation) (query : QueryInfo) :
    Option String := do
  let (root, disjointSet) ← countAll 32 query.predicates.length (fun i state => do
    let pInfo ← query.predicates[i]?
    let (root, disjointSet) ← addPredicate fuel relations query state.2 pInfo
    return (some root, disjointSet)) (none, DisjointSet.empty)
  let (tree, _) ← disjointSet.moveTree (← root)
  printResults (← Checksum.run containers fuel (← tree.operator) query.selections)

end Query
