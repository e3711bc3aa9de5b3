import HyuIte4065.Transactions.Program

/-!
# The database of project 3

`Logger.cpp`, `Database.cpp` and the way a thread uses them, cut at the accesses to shared
memory: one operation of the lock table, one granted record access with its `addLog`, one
rollback write, one `getCommitId` and one `flushLog` are a step each. Everything a
transaction id indexes is used by one thread only.
-/
namespace Transactions

open Lock Replay

/-- One line of `thread<txnId>.txt`. -/
structure LogLine where
  commitId : BitVec 64
  recordIds : List RecordId
  afterValues : List Value
  deriving DecidableEq, Repr

structure LogPerThread where
  recordIds : List RecordId
  beforeValues : List Value
  afterValues : List Value
  fout : List LogLine
  deriving DecidableEq, Repr

structure Logger where
  executionOrder : BitVec 64
  logPerTxn : TransactionId → LogPerThread

namespace Logger

def new : Logger := ⟨0, fun _ => ⟨[], [], [], []⟩⟩

def setLog (logger : Logger) (txnId : TransactionId) (log : LogPerThread) : Logger :=
  { logger with logPerTxn := Function.update logger.logPerTxn txnId log }

def addLog (logger : Logger) (txnId : TransactionId) (recordId : RecordId)
    (beforeValue afterValue : Value) : Logger :=
  let myLog := logger.logPerTxn txnId
  logger.setLog txnId { myLog with
    recordIds := myLog.recordIds ++ [recordId]
    beforeValues := myLog.beforeValues ++ [beforeValue]
    afterValues := myLog.afterValues ++ [afterValue] }

def flushLog (logger : Logger) (commitId : BitVec 64) (txnId : TransactionId) : Logger :=
  let myLog := logger.logPerTxn txnId
  logger.setLog txnId
    ⟨[], [], [], myLog.fout ++ [⟨commitId, myLog.recordIds, myLog.afterValues⟩]⟩

def stashLog (logger : Logger) (txnId : TransactionId) : Logger :=
  logger.setLog txnId ⟨[], [], [], (logger.logPerTxn txnId).fout⟩

/-- Increment and fetch. -/
def getCommitId (logger : Logger) : BitVec 64 × Logger :=
  (logger.executionOrder + 1, { logger with executionOrder := logger.executionOrder + 1 })

end Logger

structure Database where
  lockTable : LockTable
  records : Table
  logger : Logger
  maxExecution : BitVec 64

namespace Database

/-- The constructor: every record is 100. -/
def new (maxExecution : BitVec 64) : Database := ⟨.empty, fun _ => 100, .new, maxExecution⟩

/-- `Database::read` once the lock is granted, with the value it returns. -/
def readGranted (db : Database) (txnId : TransactionId) (recordId : RecordId) : Value × Database :=
  let readValue := db.records recordId
  (readValue, { db with logger := db.logger.addLog txnId recordId readValue readValue })

/-- `Database::add` once the lock is granted. -/
def addGranted (db : Database) (txnId : TransactionId) (recordId : RecordId) (operand : Value) :
    Database :=
  let beforeValue := db.records recordId
  let records := Function.update db.records recordId (db.records recordId + operand)
  let afterValue := records recordId
  { db with records := records, logger := db.logger.addLog txnId recordId beforeValue afterValue }

/-- The number of turns of the loop in `abort`: `size()` converted to a 32-bit `int`. -/
def numOperation (db : Database) (txnId : TransactionId) : Int :=
  ((db.logger.logPerTxn txnId).recordIds.length : Int).bmod (2 ^ 32)

/-- Turn `i` of the loop in `abort`. -/
def undo (db : Database) (txnId : TransactionId) (i : Nat) : Option Database := do
  let recordId ← (db.logger.logPerTxn txnId).recordIds[i]?
  let beforeValue ← (db.logger.logPerTxn txnId).beforeValues[i]?
  return { db with records := Function.update db.records recordId beforeValue }

end Database

/-- How the last transaction of a thread ended. -/
inductive Outcome where
  | fresh | committed | aborted | terminated
  deriving DecidableEq, Repr

/-- What a thread does next for its transaction id. -/
inductive Phase where
  | idle (last : Outcome)
  | ready (prog : Program)
  -- in the spin loop of `lock`, or about to leave it
  | locking (myLock : Ptr) (prog : Program)
  | corrupt
  | undoing (i : Nat) (numOperation : Int) (terminated : Bool)
  | flushing (commitId : BitVec 64)
  | unlocking (outcome : Outcome)

/-- A transaction whose log has been flushed. -/
structure Commit where
  commitId : BitVec 64
  txnId : TransactionId
  body : Program
  accesses : History

/-- The database and the threads; for the record, what the current transaction of each thread
is and has accessed, the flushed transactions in the order of their flushes, and how many
commit ids were drawn. -/
structure State where
  db : Database
  phase : TransactionId → Phase
  body : TransactionId → Program
  history : TransactionId → History
  committed : List Commit
  issued : Nat

namespace State

def new (maxExecution : BitVec 64) : State :=
  ⟨.new maxExecution, fun _ => .idle .fresh, fun _ => .commit, fun _ => [], [], 0⟩

def goto (s : State) (T : TransactionId) (ph : Phase) : State :=
  { s with phase := Function.update s.phase T ph }

def setLockTable (s : State) (t : LockTable) : State :=
  { s with db := { s.db with lockTable := t } }

def setHistory (s : State) (T : TransactionId) (as : History) : State :=
  { s with history := Function.update s.history T as }

def begin (s : State) (T : TransactionId) (prog : Program) : State :=
  { s with body := Function.update s.body T prog }.goto T (.ready prog)

/-- The access of `read` or `add`, when the lock is granted. -/
def access (s : State) (T : TransactionId) : Program → Option State
  | .read recordId next =>
    let (value, db) := s.db.readGranted T recordId
    some (({ s with db := db }.setHistory T
      (s.history T ++ [Access.mk recordId false value value])).goto T (.ready (next value)))
  | .add recordId operand next =>
    let value := s.db.records recordId
    some (({ s with db := s.db.addGranted T recordId operand }.setHistory T
      (s.history T ++ [Access.mk recordId true value (value + operand)])).goto T (.ready next))
  | _ => none

/-- `abort` up to its loop. -/
def callAbort (s : State) (T : TransactionId) (terminated : Bool) : State :=
  s.goto T (.undoing 0 (s.db.numOperation T) terminated)

/-- The loop of `abort`, and `stashLog` behind it. -/
def abortLoop (s : State) (T : TransactionId) (i : Nat) (numOperation : Int) (terminated : Bool) :
    Option State :=
  if (i : Int) < numOperation then do
    let db ← s.db.undo T i
    return { s with db := db }.goto T (.undoing (i + 1) numOperation terminated)
  else
    some (({ s with db := { s.db with logger := s.db.logger.stashLog T } }.setHistory T []).goto T
      (.unlocking (if terminated then .terminated else .aborted)))

/-- `commit` up to the test of the commit id. -/
def callCommit (s : State) (T : TransactionId) : State :=
  let (commitId, logger) := s.db.logger.getCommitId
  let s' : State := { s with db := { s.db with logger := logger }, issued := s.issued + 1 }
  if commitId > s.db.maxExecution then s'.callAbort T true else s'.goto T (.flushing commitId)

def flush (s : State) (T : TransactionId) (commitId : BitVec 64) : State :=
  ({ s with
    db := { s.db with logger := s.db.logger.flushLog commitId T }
    committed := s.committed ++ [Commit.mk commitId T (s.body T) (s.history T)] }.setHistory T []).goto T
    (.unlocking .committed)

end State

inductive Action where
  | begin (T : TransactionId)
  | lock (T : TransactionId)
  | access (T : TransactionId)
  | abort (T : TransactionId)
  | abortLoop (T : TransactionId)
  | commit (T : TransactionId)
  | flush (T : TransactionId)
  | unlock (T : TransactionId)

/-- Which transaction a thread starts next: after how the last one ended, and what it was. -/
abbrev Client := TransactionId → Outcome → Program → Program → Prop

inductive Step (client : Client) : State → Action → State → Prop where
  | begin {s : State} {T : TransactionId} {last : Outcome} (prog : Program)
      (idle : s.phase T = .idle last) (starts : client T last (s.body T) prog) :
      Step client s (.begin T) (s.begin T prog)
  | refused {s : State} {T : TransactionId} {prog : Program} {recordId : RecordId}
      {lockMode : LockMode} {t : LockTable} (fuel : Nat) (newLock : Ptr)
      (ready : s.phase T = .ready prog) (request : prog.request = some (recordId, lockMode))
      (h : s.db.lockTable.addLock fuel newLock T recordId lockMode = some (t, none)) :
      Step client s (.lock T) ((s.setLockTable t).goto T .corrupt)
  | accepted {s : State} {T : TransactionId} {prog : Program} {recordId : RecordId}
      {lockMode : LockMode} {t : LockTable} (fuel : Nat) (newLock : Ptr)
      (ready : s.phase T = .ready prog) (request : prog.request = some (recordId, lockMode))
      (fresh : s.db.lockTable.heap newLock = none)
      (h : s.db.lockTable.addLock fuel newLock T recordId lockMode = some (t, some newLock)) :
      Step client s (.lock T) ((s.setLockTable t).goto T (.locking newLock prog))
  | access {s s' : State} {T : TransactionId} {myLock : Ptr} {prog : Program} {n : LockNode}
      (locking : s.phase T = .locking myLock prog) (node : s.db.lockTable.heap myLock = some n)
      (granted : n.locked = false) (h : s.access T prog = some s') :
      Step client s (.access T) s'
  | abort {s : State} {T : TransactionId}
      (fails : s.phase T = .corrupt ∨ s.phase T = .ready .abort) :
      Step client s (.abort T) (s.callAbort T false)
  | abortLoop {s s' : State} {T : TransactionId} {i : Nat} {numOperation : Int} {terminated : Bool}
      (undoing : s.phase T = .undoing i numOperation terminated)
      (h : s.abortLoop T i numOperation terminated = some s') :
      Step client s (.abortLoop T) s'
  | commit {s : State} {T : TransactionId} (ready : s.phase T = .ready .commit) :
      Step client s (.commit T) (s.callCommit T)
  | flush {s : State} {T : TransactionId} {commitId : BitVec 64}
      (flushing : s.phase T = .flushing commitId) :
      Step client s (.flush T) (s.flush T commitId)
  | unlock {s : State} {T : TransactionId} {outcome : Outcome} {t : LockTable} (fuel : Nat)
      (unlocking : s.phase T = .unlocking outcome) (h : s.db.lockTable.unlock fuel T = some t) :
      Step client s (.unlock T) ((s.setLockTable t).goto T (.idle outcome))

def dbSystem (maxExecution : BitVec 64) (client : Client) : Transition.System State Action where
  init s := s = .new maxExecution
  step := Step client

/-- Every client: any transaction at any time. -/
def anyClient : Client := fun _ _ _ _ => True

/-- Every `abort`, also the one in `commit`, finds fewer than `2^31` log entries. -/
def ShortAborts (s : State) : Action → Prop
  | .abort T => (s.db.logger.logPerTxn T).recordIds.length < 2 ^ 31
  | .commit T => s.db.maxExecution < s.db.logger.getCommitId.1 →
      (s.db.logger.logPerTxn T).recordIds.length < 2 ^ 31
  | _ => True

abbrev shortRuns (maxExecution : BitVec 64) (client : Client) : Transition.System State Action :=
  (dbSystem maxExecution client).restrict ShortAborts

end Transactions
