import HyuIte4065.PrimeCond.Rounds

/-!
# Counting primes in rounds, with a main thread that never sleeps

`prime_cond.cpp` of labs 4 and 5, for any number of workers: the main thread reads `thread_ret` in a
loop until no entry is -1. As in the second version, a step is one access to a variable that threads
share or one call of the thread library, and a turn of a waiting loop that goes on waiting where it is
changes nothing and is no step. A waiting thread wakes up only when it is signalled. Integers are
taken without their bounds, as they are there.
-/
namespace PrimeSpin

open PrimeCond

inductive WorkerPhase where
  | notCreated
  | lockFirst
  | storeReady
  | wait
  | waiting
  | relock
  | unlock
  | checkDone
  | split (loaded : List Int)
  | count (i stop cntPrime : Int)
  | lock (cntPrime : Int)
  | store (cntPrime : Int)
  | finished
  deriving DecidableEq, Repr

inductive MainPhase where
  | create (i : Nat)
  | awaitReady (i : Nat)
  | scanStart
  | checkStart
  | scanEnd
  | reset (i : Nat)
  | lock
  | broadcast
  | unlock
  | check (i : Nat)
  | collect (i : Nat) (cntPrime : Int)
  | print (cntPrime : Int)
  | setDone
  | lockLast
  | broadcastLast
  | unlockLast
  | join (i : Nat)
  | finished
  deriving DecidableEq, Repr

/-- The shared variables, what is still to be read, what has been printed, and where the threads are. -/
structure State where
  threadRet : Nat → Int
  isDone : Bool
  rangeStart : Int
  rangeEnd : Int
  mtxForWorkers : Option Thread
  input : List Int
  printed : List Int
  main : MainPhase
  worker : Nat → WorkerPhase

namespace State

/-- Variables with static storage start as zero. -/
def new (input : List Int) : State where
  threadRet _ := 0
  isDone := false
  rangeStart := 0
  rangeEnd := 0
  mtxForWorkers := none
  input := input
  printed := []
  main := .create 0
  worker _ := .notCreated

def range (s : State) : Int × Int := (s.rangeStart, s.rangeEnd)

def setMain (s : State) (ph : MainPhase) : State := { s with main := ph }

def setWorker (s : State) (tid : Nat) (ph : WorkerPhase) : State :=
  { s with worker := Function.update s.worker tid ph }

def setRet (s : State) (tid : Nat) (value : Int) : State :=
  { s with threadRet := Function.update s.threadRet tid value }

/-- Every worker that waits on `cv_for_workers` goes on to lock the mutex again. -/
def broadcast (s : State) : State :=
  { s with worker := fun tid => if s.worker tid = .waiting then .relock else s.worker tid }

/-- One step of `ThreadFunc`. -/
def workerStep (numThread : Nat) (s : State) (tid : Nat) : Option State :=
  match s.worker tid with
  | .notCreated => none
  | .lockFirst =>
    if s.mtxForWorkers = none then
      some { s.setWorker tid .storeReady with mtxForWorkers := some (.worker tid) }
    else none
  | .storeReady => some ((s.setRet tid (-1)).setWorker tid .wait)
  | .wait => some { s.setWorker tid .waiting with mtxForWorkers := none }
  | .waiting => none
  | .relock =>
    if s.mtxForWorkers = none then
      some { s.setWorker tid .unlock with mtxForWorkers := some (.worker tid) }
    else none
  | .unlock => some { s.setWorker tid .checkDone with mtxForWorkers := none }
  | .checkDone => some (s.setWorker tid (if s.isDone then .finished else .split []))
  | .split loaded =>
    match (loads numThread tid)[loaded.length]? with
    | some bound => some (s.setWorker tid (.split (loaded ++ [boundOf s.range bound])))
    | none => (split numThread tid loaded).map fun (start, stop) => s.setWorker tid (.count start stop 0)
  | .count i stop cntPrime =>
    some (s.setWorker tid (if i < stop then .count (i + 1) stop (cntPrime + if isPrime i then 1 else 0)
      else .lock cntPrime))
  | .lock cntPrime =>
    if s.mtxForWorkers = none then
      some { s.setWorker tid (.store cntPrime) with mtxForWorkers := some (.worker tid) }
    else none
  | .store cntPrime => some ((s.setRet tid cntPrime).setWorker tid .wait)
  | .finished => none

/-- One step of `main`. -/
def mainStep (numThread : Nat) (s : State) : Option State :=
  match s.main with
  | .create i =>
    if i < numThread then some ((s.setWorker i .lockFirst).setMain (.awaitReady i))
    else some (s.setMain .scanStart)
  | .awaitReady i => if s.threadRet i = -1 then some (s.setMain (.create (i + 1))) else none
  -- at the end of the input `scanf` leaves its variable as it is
  | .scanStart =>
    some { s.setMain .checkStart with
      rangeStart := s.input.headD s.rangeStart
      input := s.input.tail }
  | .checkStart => some (s.setMain (if s.rangeStart = -1 then .setDone else .scanEnd))
  | .scanEnd =>
    some { s.setMain (.reset 0) with
      rangeEnd := s.input.headD s.rangeEnd
      input := s.input.tail }
  | .reset i =>
    if i < numThread then some ((s.setRet i (-1)).setMain (.reset (i + 1)))
    else some (s.setMain .lock)
  | .lock =>
    if s.mtxForWorkers = none then
      some { s.setMain .broadcast with mtxForWorkers := some .main }
    else none
  | .broadcast => some (s.broadcast.setMain .unlock)
  | .unlock => some { s.setMain (.check 0) with mtxForWorkers := none }
  -- a worker is not done: `break`, and the scan starts again
  | .check i =>
    if i < numThread then
      if s.threadRet i = -1 then if i = 0 then none else some (s.setMain (.check 0))
      else some (s.setMain (.check (i + 1)))
    else some (s.setMain (.collect 0 0))
  | .collect i cntPrime =>
    if i < numThread then some (s.setMain (.collect (i + 1) (cntPrime + s.threadRet i)))
    else some (s.setMain (.print cntPrime))
  | .print cntPrime => some { s.setMain .scanStart with printed := s.printed ++ [cntPrime] }
  | .setDone => some { s.setMain .lockLast with isDone := true }
  | .lockLast =>
    if s.mtxForWorkers = none then
      some { s.setMain .broadcastLast with mtxForWorkers := some .main }
    else none
  | .broadcastLast => some (s.broadcast.setMain .unlockLast)
  | .unlockLast => some { s.setMain (.join 0) with mtxForWorkers := none }
  | .join i =>
    if i < numThread then if s.worker i = .finished then some (s.setMain (.join (i + 1))) else none
    else some (s.setMain .finished)
  | .finished => none

end State

def threadStep (numThread : Nat) (s : State) : Thread → Option State
  | .main => s.mainStep numThread
  | .worker tid => s.workerStep numThread tid

def spinSystem (numThread : Nat) (ranges : List (Int × Int)) : Transition.System State Thread where
  init s := s = .new (tokens ranges)
  step s t s' := threadStep numThread s t = some s'

end PrimeSpin
