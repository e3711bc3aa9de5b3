import HyuIte4065.Library.Transition
import Mathlib.Logic.Function.Basic

/-!
# The thread pools of projects 2 and 3

`ThreadPool.hpp` and `ThreadPool.cpp` of both projects, for any number of threads. A step is one
access to a variable that threads share, one call of the thread library, or the return of
the work function. `pthread_cond_wait` releases its mutex as it starts to wait and returns once it
owns the mutex again; whether it may also wake up without a broadcast is a parameter. A turn of a
waiting loop that goes on waiting changes nothing and is no step.
-/
namespace ThreadPool

inductive Project where
  | two
  | three
  deriving DecidableEq, Repr

inductive Thread where
  | main
  | worker (tid : Nat)
  deriving DecidableEq, Repr

inductive WorkerPhase where
  | notCreated
  | lock
  | setSleeping
  | wait
  | waiting
  | relock
  | unlock
  | testTerminate
  | work
  | countUp
  | deleteArg
  | finished
  deriving DecidableEq, Repr

inductive MainPhase where
  -- the constructor
  | create (tid : Nat)
  | awaitSleeping (tid : Nat)
  | constructed
  -- `runAndChecksum` or `run`
  | lock
  | broadcast
  | unlock
  | setTerminate
  | join (tid : Nat)
  | returned
  -- the destructor
  | testTerminate
  | setTerminateLate
  | broadcastLate
  | joinLate (tid : Nat)
  | destroyed
  -- a deleted `ThreadArg` has been read
  | corrupt
  deriving DecidableEq, Repr

/-- The pool, what its client does with it, and whether a wait may end by itself. -/
structure Config where
  project : Project
  numThread : Nat
  /-- The client runs the pool before it destroys it. -/
  runs : Bool
  spurious : Bool

/-- The fields of the pool, the `sleeping` flag of each thread's `ThreadArg` while there is one,
the local variables `localCount` and `checkSum`, where the threads are, and on the side how many
calls of the work function have returned to each worker. -/
structure State where
  terminateFlag : Bool
  mtxForWorkers : Option Thread
  threadArg : Nat → Option Bool
  localCount : Nat → Int
  checkSum : Int
  main : MainPhase
  worker : Nat → WorkerPhase
  works : Nat → Nat

namespace State

def new : State where
  terminateFlag := false
  mtxForWorkers := none
  threadArg _ := none
  localCount _ := 0
  checkSum := 0
  main := .create 0
  worker _ := .notCreated
  works _ := 0

def setMain (s : State) (ph : MainPhase) : State := { s with main := ph }

def setWorker (s : State) (tid : Nat) (ph : WorkerPhase) : State :=
  { s with worker := Function.update s.worker tid ph }

def setArg (s : State) (tid : Nat) (arg : Option Bool) : State :=
  { s with threadArg := Function.update s.threadArg tid arg }

/-- Every worker that waits on `cvForWorkers` goes on to lock the mutex again. -/
def broadcast (s : State) : State :=
  { s with worker := fun tid => if s.worker tid = .waiting then .relock else s.worker tid }

/-- Where the loop of `threadFunc` goes on when the work function has returned `res`. In project 2
the function returns nothing and the worker counts the call. -/
def afterWork : Project → Bool → WorkerPhase
  | .two, _ => .countUp
  | .three, true => .deleteArg
  | .three, false => .testTerminate

/-- One step of `threadFunc`, apart from the work function. -/
def workerStep (s : State) (tid : Nat) : Option State :=
  match s.worker tid with
  | .lock =>
    if s.mtxForWorkers = none then
      some { s.setWorker tid .setSleeping with mtxForWorkers := some (.worker tid) }
    else none
  | .setSleeping => some ((s.setArg tid (some true)).setWorker tid .wait)
  | .wait => some { s.setWorker tid .waiting with mtxForWorkers := none }
  | .relock =>
    if s.mtxForWorkers = none then
      some { s.setWorker tid .unlock with mtxForWorkers := some (.worker tid) }
    else none
  | .unlock => some { s.setWorker tid .testTerminate with mtxForWorkers := none }
  | .testTerminate => some (s.setWorker tid (if s.terminateFlag then .deleteArg else .work))
  | .countUp =>
    some { s.setWorker tid .testTerminate with
      localCount := Function.update s.localCount tid (s.localCount tid + 1) }
  | .deleteArg => some ((s.setArg tid none).setWorker tid .finished)
  | _ => none

/-- The work function returns. -/
def workReturns (project : Project) (s : State) (tid : Nat) (res : Bool) : Option State :=
  if s.worker tid = .work then
    some { s.setWorker tid (afterWork project res) with
      works := Function.update s.works tid (s.works tid + 1) }
  else none

/-- A wait ends without a broadcast. -/
def wakeUp (spurious : Bool) (s : State) (tid : Nat) : Option State :=
  if spurious = true ∧ s.worker tid = .waiting then some (s.setWorker tid .relock) else none

/-- `pthread_join`, and in project 2 the result it hands over. -/
def joinStep (project : Project) (s : State) (tid : Nat) : Option State :=
  if s.worker tid = .finished then
    match project with
    | .two => some { s.setMain (.join (tid + 1)) with checkSum := s.checkSum + s.localCount tid }
    | .three => some (s.setMain (.join (tid + 1)))
  else none

/-- One step of the client: constructor, `runAndChecksum` or `run`, destructor. -/
def mainStep (c : Config) (s : State) : Option State :=
  match s.main with
  | .create tid =>
    if tid < c.numThread then
      some (((s.setArg tid (some false)).setWorker tid .lock).setMain (.awaitSleeping tid))
    else some (s.setMain .constructed)
  | .awaitSleeping tid =>
    match s.threadArg tid with
    | none => some (s.setMain .corrupt)
    | some false => none
    | some true => some (s.setMain (.create (tid + 1)))
  | .constructed => some (s.setMain (if c.runs then .lock else .testTerminate))
  | .lock =>
    if s.mtxForWorkers = none then some { s.setMain .broadcast with mtxForWorkers := some .main }
    else none
  | .broadcast => some (s.broadcast.setMain .unlock)
  | .unlock =>
    some { s.setMain (match c.project with | .two => .setTerminate | .three => .join 0) with
      mtxForWorkers := none }
  -- project 2 sleeps before it sets the flag, project 3 has joined all workers by then
  | .setTerminate =>
    some { s.setMain (match c.project with | .two => .join 0 | .three => .returned) with
      terminateFlag := true }
  | .join tid =>
    if tid < c.numThread then s.joinStep c.project tid
    else some (s.setMain (match c.project with | .two => .returned | .three => .setTerminate))
  | .returned => some (s.setMain .testTerminate)
  | .testTerminate => some (s.setMain (if s.terminateFlag then .destroyed else .setTerminateLate))
  | .setTerminateLate => some { s.setMain .broadcastLate with terminateFlag := true }
  -- without the mutex
  | .broadcastLate => some (s.broadcast.setMain (.joinLate 0))
  | .joinLate tid =>
    if tid < c.numThread then
      if s.worker tid = .finished then some (s.setMain (.joinLate (tid + 1))) else none
    else some (s.setMain .destroyed)
  | .destroyed => none
  | .corrupt => none

end State

inductive Action where
  | main
  | worker (tid : Nat)
  | workReturns (tid : Nat) (res : Bool)
  | wakeUp (tid : Nat)
  deriving DecidableEq, Repr

def step (c : Config) (s : State) : Action → Option State
  | .main => s.mainStep c
  | .worker tid => s.workerStep tid
  | .workReturns tid res => s.workReturns c.project tid res
  | .wakeUp tid => s.wakeUp c.spurious tid

def poolSystem (c : Config) : Transition.System State Action where
  init s := s = .new
  step s a s' := step c s a = some s'

end ThreadPool
