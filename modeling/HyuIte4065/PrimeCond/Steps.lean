import HyuIte4065.Library.Transition
import Mathlib.Logic.Function.Basic
import Mathlib.Data.Nat.Sqrt
import Mathlib.Algebra.Ring.Int.Defs

/-!
# Counting primes in rounds

`prime_cond_step2.cpp` of lab 5, for any number of workers. A step is one access to a variable
that threads share, or one call of the thread library; one turn of the counting loop touches
local variables only. A turn of a waiting loop that goes on waiting changes nothing and is no
step. `pthread_cond_wait` releases its mutex as it starts to wait, and wakes up only when it
is signalled; it returns once it owns the mutex again. Integers are taken without their bounds, so a
border that does not fit an int, such as `range_end + 1` for the largest one, is outside the model.
-/
namespace PrimeCond

inductive Thread where
  | main
  | worker (tid : Nat)
  deriving DecidableEq, Repr

def isPrime (n : Int) : Bool :=
  decide (2 ≤ n) && (List.range' 2 (Nat.sqrt n.toNat - 1)).all fun i => decide (n % (i : Int) ≠ 0)

/-- The shared variables that give the range. -/
inductive Bound where
  | rangeStart
  | rangeEnd
  deriving DecidableEq, Repr

/-- The loads that splitting the range takes. -/
def loads (numThread tid : Nat) : List Bound :=
  [.rangeStart, .rangeEnd, .rangeStart, .rangeStart, .rangeEnd, .rangeStart] ++
    if tid = numThread - 1 then [.rangeEnd] else []

/-- `start` and `end`, from the values in the order in which they have been loaded. -/
def split (numThread tid : Nat) : List Int → Option (Int × Int)
  | [s₁, e₁, s₂, s₃, e₂, s₄] =>
    some (s₁ + (e₁ - s₂ + 1).tdiv numThread * tid, s₃ + (e₂ - s₄ + 1).tdiv numThread * (tid + 1))
  | [s₁, e₁, s₂, _, _, _, e₃] => some (s₁ + (e₁ - s₂ + 1).tdiv numThread * tid, e₃ + 1)
  | _ => none

inductive WorkerPhase where
  | notCreated
  | lockFirst
  | storeReady
  | wait
  | waiting
  | relock
  | unlock
  | checkDone
  | split (loaded : List Int)
  | count (i stop cntPrime : Int)
  | store (cntPrime : Int)
  | lock
  | loadDone
  | storeDone (finishOrder : Nat)
  | checkOrder (finishOrder : Nat)
  | lockMain
  | signal
  | unlockMain
  | finished
  deriving DecidableEq, Repr

inductive MainPhase where
  | create (i : Nat)
  | awaitReady (i : Nat)
  | scanStart
  | checkStart
  | scanEnd
  | reset (i : Nat)
  | zeroDone
  | lock
  | broadcast
  | unlock
  | lockMain
  | testDone
  | wait
  | waiting
  | relockMain
  | unlockMain
  | collect (i : Nat) (cntPrime : Int)
  | print (cntPrime : Int)
  | clearDone
  | setDone
  | lockLast
  | broadcastLast
  | unlockLast
  | join (i : Nat)
  | finished
  deriving DecidableEq, Repr

/-- The shared variables, what is still to be read and what has been printed, where the threads
are, and on the side the ranges that have been given to the workers and the counts that each
worker has stored. -/
structure State where
  threadRet : Nat → Int
  done : Nat
  isDone : Bool
  rangeStart : Int
  rangeEnd : Int
  mtxForWorkers : Option Thread
  mtxForMain : Option Thread
  input : List Int
  printed : List Int
  main : MainPhase
  worker : Nat → WorkerPhase
  rounds : List (Int × Int)
  stored : Nat → List Int

namespace State

/-- Variables with static storage start as zero. -/
def new (input : List Int) : State where
  threadRet _ := 0
  done := 0
  isDone := false
  rangeStart := 0
  rangeEnd := 0
  mtxForWorkers := none
  mtxForMain := none
  input := input
  printed := []
  main := .create 0
  worker _ := .notCreated
  rounds := []
  stored _ := []

def bound (s : State) : Bound → Int
  | .rangeStart => s.rangeStart
  | .rangeEnd => s.rangeEnd

def setMain (s : State) (ph : MainPhase) : State := { s with main := ph }

def setWorker (s : State) (tid : Nat) (ph : WorkerPhase) : State :=
  { s with worker := Function.update s.worker tid ph }

def setRet (s : State) (tid : Nat) (value : Int) : State :=
  { s with threadRet := Function.update s.threadRet tid value }

/-- Every worker that waits on `cv_for_workers` goes on to lock the mutex again. -/
def broadcast (s : State) : State :=
  { s with worker := fun tid => if s.worker tid = .waiting then .relock else s.worker tid }

/-- The main thread goes on if it waits on `cv_for_main`. -/
def signal (s : State) : State :=
  if s.main = .waiting then s.setMain .relockMain else s

/-- One step of `ThreadFunc`. -/
def workerStep (numThread : Nat) (s : State) (tid : Nat) : Option State :=
  match s.worker tid with
  | .notCreated => none
  | .lockFirst =>
    if s.mtxForWorkers = none then
      some { s.setWorker tid .storeReady with mtxForWorkers := some (.worker tid) }
    else none
  | .storeReady => some ((s.setRet tid (-1)).setWorker tid .wait)
  | .wait => some { s.setWorker tid .waiting with mtxForWorkers := none }
  | .waiting => none
  | .relock =>
    if s.mtxForWorkers = none then
      some { s.setWorker tid .unlock with mtxForWorkers := some (.worker tid) }
    else none
  | .unlock => some { s.setWorker tid .checkDone with mtxForWorkers := none }
  | .checkDone => some (s.setWorker tid (if s.isDone then .finished else .split []))
  | .split loaded =>
    match (loads numThread tid)[loaded.length]? with
    | some bound => some (s.setWorker tid (.split (loaded ++ [s.bound bound])))
    | none => (split numThread tid loaded).map fun (start, stop) => s.setWorker tid (.count start stop 0)
  | .count i stop cntPrime =>
    some (s.setWorker tid (if i < stop then .count (i + 1) stop (cntPrime + if isPrime i then 1 else 0)
      else .store cntPrime))
  | .store cntPrime =>
    some { (s.setRet tid cntPrime).setWorker tid .lock with
      stored := Function.update s.stored tid (s.stored tid ++ [cntPrime]) }
  | .lock =>
    if s.mtxForWorkers = none then
      some { s.setWorker tid .loadDone with mtxForWorkers := some (.worker tid) }
    else none
  | .loadDone => some (s.setWorker tid (.storeDone s.done))
  | .storeDone finishOrder =>
    some { s.setWorker tid (.checkOrder finishOrder) with done := finishOrder + 1 }
  | .checkOrder finishOrder =>
    some (s.setWorker tid (if finishOrder = numThread - 1 then .lockMain else .wait))
  | .lockMain =>
    if s.mtxForMain = none then
      some { s.setWorker tid .signal with mtxForMain := some (.worker tid) }
    else none
  | .signal => some (s.signal.setWorker tid .unlockMain)
  | .unlockMain => some { s.setWorker tid .wait with mtxForMain := none }
  | .finished => none

/-- One step of `main`. -/
def mainStep (numThread : Nat) (s : State) : Option State :=
  match s.main with
  | .create i =>
    if i < numThread then some ((s.setWorker i .lockFirst).setMain (.awaitReady i))
    else some (s.setMain .scanStart)
  | .awaitReady i => if s.threadRet i = -1 then some (s.setMain (.create (i + 1))) else none
  -- at the end of the input `scanf` leaves its variable as it is
  | .scanStart =>
    some { s.setMain .checkStart with
      rangeStart := s.input.headD s.rangeStart
      input := s.input.tail }
  | .checkStart => some (s.setMain (if s.rangeStart = -1 then .setDone else .scanEnd))
  | .scanEnd =>
    some { s.setMain (.reset 0) with
      rangeEnd := s.input.headD s.rangeEnd
      input := s.input.tail }
  | .reset i =>
    if i < numThread then some ((s.setRet i (-1)).setMain (.reset (i + 1)))
    else some (s.setMain .zeroDone)
  | .zeroDone => some { s.setMain .lock with done := 0 }
  | .lock =>
    if s.mtxForWorkers = none then
      some { s.setMain .broadcast with mtxForWorkers := some .main }
    else none
  | .broadcast =>
    some { s.broadcast.setMain .unlock with rounds := s.rounds ++ [(s.rangeStart, s.rangeEnd)] }
  | .unlock => some { s.setMain .lockMain with mtxForWorkers := none }
  | .lockMain =>
    if s.mtxForMain = none then some { s.setMain .testDone with mtxForMain := some .main } else none
  | .testDone => some (s.setMain (if s.done < numThread then .wait else .unlockMain))
  | .wait => some { s.setMain .waiting with mtxForMain := none }
  | .waiting => none
  | .relockMain =>
    if s.mtxForMain = none then some { s.setMain .unlockMain with mtxForMain := some .main } else none
  | .unlockMain => some { s.setMain (.collect 0 0) with mtxForMain := none }
  | .collect i cntPrime =>
    if i < numThread then some (s.setMain (.collect (i + 1) (cntPrime + s.threadRet i)))
    else some (s.setMain (.print cntPrime))
  | .print cntPrime => some { s.setMain .clearDone with printed := s.printed ++ [cntPrime] }
  | .clearDone => some { s.setMain .scanStart with done := 0 }
  | .setDone => some { s.setMain .lockLast with isDone := true }
  | .lockLast =>
    if s.mtxForWorkers = none then
      some { s.setMain .broadcastLast with mtxForWorkers := some .main }
    else none
  | .broadcastLast => some (s.broadcast.setMain .unlockLast)
  | .unlockLast => some { s.setMain (.join 0) with mtxForWorkers := none }
  | .join i =>
    if i < numThread then if s.worker i = .finished then some (s.setMain (.join (i + 1))) else none
    else some (s.setMain .finished)
  | .finished => none

end State

def threadStep (numThread : Nat) (s : State) : Thread → Option State
  | .main => s.mainStep numThread
  | .worker tid => s.workerStep numThread tid

/-- The input: the ranges, and `-1` after the last one. -/
def tokens : List (Int × Int) → List Int
  | [] => [-1]
  | (rangeStart, rangeEnd) :: ranges => rangeStart :: rangeEnd :: tokens ranges

def primeSystem (numThread : Nat) (ranges : List (Int × Int)) : Transition.System State Thread where
  init s := s = .new (tokens ranges)
  step s t s' := threadStep numThread s t = some s'

/-- The number of primes from `start` on and before `stop`. -/
def countPrimes (start stop : Int) : Int :=
  ((List.range (stop - start).toNat).countP fun i : Nat => isPrime (start + i) : Nat)

/-- What a worker has to count in a round. -/
def share (numThread tid : Nat) (range : Int × Int) : Int :=
  let piece := (range.2 - range.1 + 1).tdiv numThread
  countPrimes (range.1 + piece * tid)
    (if tid = numThread - 1 then range.2 + 1 else range.1 + piece * (tid + 1))

def total (numThread : Nat) (range : Int × Int) : Int :=
  ((List.range numThread).map fun tid => share numThread tid range).sum

end PrimeCond
