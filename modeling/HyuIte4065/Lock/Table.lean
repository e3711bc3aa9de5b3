import HyuIte4065.Library.Search
import HyuIte4065.Library.Transition
import Mathlib.Logic.Function.Basic

/-!
# Readers-writer lock table of project 3

`Lock.hpp` and `Lock.cpp` over an explicit heap. A pointer is an address, a null
pointer is `none`, and an access through a null or dangling pointer has no result.
`new` may hand out any address that is not in use, also one that was freed before.
Every function that holds `globalMtx` is one atomic step; its inner loops take fuel.
The two tables are total: an id outside the vectors is never used by a caller.
-/
namespace Lock

abbrev TransactionId := Nat
abbrev RecordId := Nat
abbrev Ptr := Nat

inductive LockMode where
  | read | write
  deriving DecidableEq, Repr

structure LockNode where
  locked : Bool
  lockMode : LockMode
  txnId : TransactionId
  recordId : RecordId
  nextInTxn : Option Ptr
  prev : Option Ptr
  next : Option Ptr
  deriving DecidableEq, Repr

/-- The constructor: every pointer is null and the lock is not waiting. -/
def LockNode.new (lockMode : LockMode) (txnId : TransactionId) (recordId : RecordId) : LockNode :=
  ⟨false, lockMode, txnId, recordId, none, none, none⟩

structure LockList where
  head : Option Ptr
  tail : Option Ptr
  deriving DecidableEq, Repr

structure LockTable where
  heap : Ptr → Option LockNode
  lockPerTxn : TransactionId → List Ptr
  lockPerRecord : RecordId → LockList

namespace LockTable

def empty : LockTable := ⟨fun _ => none, fun _ => [], fun _ => ⟨none, none⟩⟩

/-- A write to fields of `*p`. -/
def modify (t : LockTable) (p : Ptr) (f : LockNode → LockNode) : Option LockTable :=
  (t.heap p).map fun n => { t with heap := Function.update t.heap p (some (f n)) }

def setList (t : LockTable) (recordId : RecordId) (l : LockList) : LockTable :=
  { t with lockPerRecord := Function.update t.lockPerRecord recordId l }

/-- One turn of the breadth-first loop: a null pointer adds nothing, a lock of
`txnId` is a hit, any other lock adds its `prev` and its `nextInTxn`. -/
def visit (t : LockTable) (txnId : TransactionId) : Option Ptr → Option (Bool × List (Option Ptr))
  | none => some (false, [])
  | some p => (t.heap p).map fun n => (decide (n.txnId = txnId), [n.prev, n.nextInTxn])

/-- `LockTable::checkDeadlock` -/
def checkDeadlock (t : LockTable) (fuel : Nat) (txnId : TransactionId) (recordId : RecordId) :
    Option Bool :=
  Search.search (t.visit txnId) fuel [(t.lockPerRecord recordId).tail]

/-- The walk from `tail` along `prev` that looks for a WRITE lock. -/
def findWrite (t : LockTable) : Nat → Option Ptr → Option Bool
  | 0, _ => none
  | _ + 1, none => some false
  | fuel + 1, some iter => do
    let n ← t.heap iter
    if n.lockMode = .write then some true else t.findWrite fuel n.prev

/-- `new LockNode(...)` and the two steps that build the wait-for graph. A lock
that is put behind another one gets `behind` as its `locked` flag: `addWriterLock`
sets it in this branch, `addReaderLock` leaves it to the walk that follows. -/
def connect (t : LockTable) (newLock : Ptr) (lockMode : LockMode) (txnId : TransactionId)
    (recordId : RecordId) (behind : Bool) : Option LockTable := do
  let t : LockTable := { t with
    heap := Function.update t.heap newLock (some (LockNode.new lockMode txnId recordId)) }
  let t ← match (t.lockPerTxn txnId).getLast? with
    | none => some t
    | some back => t.modify back fun n => { n with nextInTxn := some newLock }
  match (t.lockPerRecord recordId).tail with
  | none => some (t.setList recordId ⟨some newLock, some newLock⟩)
  | some tail => do
    let t ← t.modify newLock fun n => { n with prev := some tail }
    let t ← t.modify tail fun n => { n with next := some newLock }
    let t := t.setList recordId { t.lockPerRecord recordId with tail := some newLock }
    t.modify newLock fun n => { n with locked := behind }

def pushBack (t : LockTable) (txnId : TransactionId) (newLock : Ptr) : LockTable :=
  { t with lockPerTxn := Function.update t.lockPerTxn txnId (t.lockPerTxn txnId ++ [newLock]) }

/-- `LockTable::addReaderLock`; `newLock` is the address that `new` would return. -/
def addReaderLock (t : LockTable) (fuel : Nat) (newLock : Ptr) (txnId : TransactionId)
    (recordId : RecordId) : Option (LockTable × Option Ptr) := do
  if ← t.checkDeadlock fuel txnId recordId then
    return (t, none)
  let t ← t.connect newLock .read txnId recordId false
  let t ← if ← t.findWrite fuel (t.lockPerRecord recordId).tail
    then t.modify newLock fun n => { n with locked := true } else some t
  return (t.pushBack txnId newLock, some newLock)

/-- `LockTable::addWriterLock` -/
def addWriterLock (t : LockTable) (fuel : Nat) (newLock : Ptr) (txnId : TransactionId)
    (recordId : RecordId) : Option (LockTable × Option Ptr) := do
  if ← t.checkDeadlock fuel txnId recordId then
    return (t, none)
  let t ← t.connect newLock .write txnId recordId true
  return (t.pushBack txnId newLock, some newLock)

/-- The part of `LockTable::lock` before the spin loop; a null result is the refusal. -/
def addLock (t : LockTable) (fuel : Nat) (newLock : Ptr) (txnId : TransactionId)
    (recordId : RecordId) : LockMode → Option (LockTable × Option Ptr)
  | .read => t.addReaderLock fuel newLock txnId recordId
  | .write => t.addWriterLock fuel newLock txnId recordId

/-- The loop that wakes all consecutive readers from `iter` on. -/
def wakeReaders (t : LockTable) : Nat → Option Ptr → Option LockTable
  | 0, _ => none
  | _ + 1, none => some t
  | fuel + 1, some iter => do
    let n ← t.heap iter
    if n.lockMode = .read then
      (← t.modify iter fun n => { n with locked := false }).wakeReaders fuel n.next
    else some t

/-- `myLock`, whose fields are `n`, leaves its record list; if it was the head, the next
lock or locks are woken. -/
def unlink (t : LockTable) (fuel : Nat) (myLock : Ptr) (n : LockNode) : Option LockTable :=
  let lockList := t.lockPerRecord n.recordId
  if lockList.head = some myLock then
    match n.next with
    | some nextLock => do
      let t := t.setList n.recordId { lockList with head := some nextLock }
      let t ← t.modify nextLock fun m => { m with prev := none }
      let m ← t.heap nextLock
      if m.lockMode = .write then t.modify nextLock fun m => { m with locked := false }
      else t.wakeReaders fuel (some nextLock)
    | none => some (t.setList n.recordId ⟨none, none⟩)
  else do
    let t ← t.modify (← n.prev) fun m => { m with next := n.next }
    match n.next with
    | some nextLock => t.modify nextLock fun m => { m with prev := n.prev }
    | none => some (t.setList n.recordId { t.lockPerRecord n.recordId with tail := n.prev })

/-- The body of the loop of `unlock`: `myLock` leaves its list and is deleted. -/
def release (t : LockTable) (fuel : Nat) (myLock : Ptr) : Option LockTable := do
  let n ← t.heap myLock
  let t ← t.unlink fuel myLock n
  return { t with heap := Function.update t.heap myLock none }

/-- `LockTable::unlock` -/
def unlock (t : LockTable) (fuel : Nat) (txnId : TransactionId) : Option LockTable := do
  let t ← (t.lockPerTxn txnId).foldlM (fun t myLock => t.release fuel myLock) t
  return { t with lockPerTxn := Function.update t.lockPerTxn txnId [] }

/-- The newest lock of the transaction has not been granted: its thread is in the
spin loop of `lock`. -/
def Waiting (t : LockTable) (txnId : TransactionId) : Prop :=
  ∃ p n, (t.lockPerTxn txnId).getLast? = some p ∧ t.heap p = some n ∧ n.locked = true

end LockTable

/-- One call: what was asked for, and for a lock request whether it was accepted. -/
inductive Call where
  | lock (txnId : TransactionId) (recordId : RecordId) (lockMode : LockMode) (accepted : Bool)
  | unlock (txnId : TransactionId)
  deriving DecidableEq, Repr

def Call.txnId : Call → TransactionId
  | .lock txnId _ _ _ => txnId
  | .unlock txnId => txnId

/-- What the transaction threads can do to the lock table. -/
inductive Step : LockTable → Call → LockTable → Prop where
  | refused {t t' : LockTable} {txnId recordId lockMode} (fuel newLock)
      (h : t.addLock fuel newLock txnId recordId lockMode = some (t', none)) :
      Step t (.lock txnId recordId lockMode false) t'
  | accepted {t t' : LockTable} {txnId recordId lockMode} (fuel newLock)
      (fresh : t.heap newLock = none)
      (h : t.addLock fuel newLock txnId recordId lockMode = some (t', some newLock)) :
      Step t (.lock txnId recordId lockMode true) t'
  | unlock {t t' : LockTable} {txnId} (fuel) (h : t.unlock fuel txnId = some t') :
      Step t (.unlock txnId) t'

/-- Any transaction may call at any time. -/
def freeSystem : Transition.System LockTable Call where
  init t := t = .empty
  step := Step

/-- A transaction that waits for its newest lock performs no further operation. -/
def lockSystem : Transition.System LockTable Call :=
  freeSystem.restrict fun t c => ¬ t.Waiting c.txnId

end Lock
