import HyuIte4065.Library.Transition
import Mathlib.Logic.Function.Basic

/-!
# The thread pool of project 1

`thread_func`, `flush_all_thread` and the second loop of `main` of `main.cpp`, for any number
of threads; the parser and the joiner are functions. A step is one access to a variable that
threads share, or one call of the thread library; a pointer to a query or to a result is
modelled by what it points to, which nobody changes. A turn of a waiting loop that goes on
waiting changes nothing and is no step. `pthread_cond_wait` releases its mutex as it starts to
wait, wakes up only when it is signalled, and returns once it owns the mutex again.
-/
namespace QueryPool

inductive Thread where
  | main
  | worker (tid : Nat)
  deriving DecidableEq, Repr

structure Program (Text Query Result : Type) where
  numThread : Nat
  parseQuery : Text → Query
  join : Query → Result

/-- An input line after the first `Done`. -/
inductive Line (Text : Type) where
  | query (text : Text)
  | flush
  deriving DecidableEq, Repr

/-- A `thread_ret`: the null pointer that it starts as, `-1`, or a pointer to a result. -/
inductive Ret (Result : Type) where
  | null
  | running
  | result (value : Result)
  deriving DecidableEq, Repr

inductive WorkerPhase (Query Result : Type) where
  | notCreated
  | lockFirst
  | storeReady
  | wait
  | waiting
  | relock
  | unlock
  | checkDone
  | loadArg
  | join (arg : Query)
  | lock (value : Result)
  | storeRet (value : Result)
  | finished
  deriving DecidableEq, Repr

/-- While it flushes, the main thread has the query with it that found no free thread, if
that is why it flushes. -/
inductive MainPhase (Query : Type) where
  | create (i : Nat)
  | awaitReady (i : Nat)
  | readLine
  | checkFull (arg : Query)
  | flush (i : Nat) (held : Option Query)
  | awaitRet (i : Nat) (held : Option Query)
  | print (i : Nat) (held : Option Query)
  | clear (i : Nat) (held : Option Query)
  | clearActive (held : Option Query)
  | storeArg (arg : Query)
  | storeRunning
  | lock
  | signal
  | unlock
  | activate
  | setDone
  | wakeLast (i : Nat)
  | lockLast (i : Nat)
  | signalLast (i : Nat)
  | unlockLast (i : Nat)
  | join (i : Nat)
  | finished
  deriving DecidableEq, Repr

variable {Text Query Result : Type}

/-- The variables, the input that is left, the output, where the threads are, and on the side
the queries that the threads of this batch have been given. -/
structure State (Text Query Result : Type) where
  threadRet : Nat → Ret Result
  threadArg : Nat → Option Query
  isDone : Bool
  numActiveThread : Nat
  mtxForWorkers : Nat → Option Thread
  input : List (Line Text)
  cout : List Result
  main : MainPhase Query
  worker : Nat → WorkerPhase Query Result
  batch : List Query

namespace State

def new (input : List (Line Text)) : State Text Query Result where
  threadRet _ := .null
  threadArg _ := none
  isDone := false
  numActiveThread := 0
  mtxForWorkers _ := none
  input := input
  cout := []
  main := .create 0
  worker _ := .notCreated
  batch := []

def setMain (s : State Text Query Result) (ph : MainPhase Query) : State Text Query Result :=
  { s with main := ph }

def setWorker (s : State Text Query Result) (tid : Nat) (ph : WorkerPhase Query Result) :
    State Text Query Result :=
  { s with worker := Function.update s.worker tid ph }

def setRet (s : State Text Query Result) (tid : Nat) (ret : Ret Result) : State Text Query Result :=
  { s with threadRet := Function.update s.threadRet tid ret }

def setMtx (s : State Text Query Result) (tid : Nat) (owner : Option Thread) : State Text Query Result :=
  { s with mtxForWorkers := Function.update s.mtxForWorkers tid owner }

/-- A signal on `cv_for_workers[tid]` wakes up the worker if it waits. -/
def wake (s : State Text Query Result) (tid : Nat) : State Text Query Result :=
  match s.worker tid with
  | .waiting => s.setWorker tid .relock
  | _ => s

/-- One step of `thread_func`. -/
def workerStep (program : Program Text Query Result) (s : State Text Query Result) (tid : Nat) :
    Option (State Text Query Result) :=
  match s.worker tid with
  | .notCreated => none
  | .lockFirst =>
    if s.mtxForWorkers tid = none then some ((s.setMtx tid (some (.worker tid))).setWorker tid .storeReady)
    else none
  | .storeReady => some ((s.setRet tid .running).setWorker tid .wait)
  | .wait => some ((s.setMtx tid none).setWorker tid .waiting)
  | .waiting => none
  | .relock =>
    if s.mtxForWorkers tid = none then some ((s.setMtx tid (some (.worker tid))).setWorker tid .unlock)
    else none
  | .unlock => some ((s.setMtx tid none).setWorker tid .checkDone)
  | .checkDone => some (s.setWorker tid (if s.isDone then .finished else .loadArg))
  | .loadArg => (s.threadArg tid).map fun arg => s.setWorker tid (.join arg)
  | .join arg => some (s.setWorker tid (.lock (program.join arg)))
  | .lock value =>
    if s.mtxForWorkers tid = none then
      some ((s.setMtx tid (some (.worker tid))).setWorker tid (.storeRet value))
    else none
  | .storeRet value => some ((s.setRet tid (.result value)).setWorker tid .wait)
  | .finished => none

/-- One step of `main`, with `flush_all_thread`. -/
def mainStep (program : Program Text Query Result) (s : State Text Query Result) :
    Option (State Text Query Result) :=
  match s.main with
  | .create i =>
    if i < program.numThread then some ((s.setWorker i .lockFirst).setMain (.awaitReady i))
    else some (s.setMain .readLine)
  | .awaitReady i =>
    match s.threadRet i with
    | .running => some (s.setMain (.create (i + 1)))
    | _ => none
  | .readLine =>
    match s.input with
    | [] => some (s.setMain .setDone)
    | .flush :: rest => some { s.setMain (.flush 0 none) with input := rest }
    | .query text :: rest =>
      some { s.setMain (.checkFull (program.parseQuery text)) with input := rest }
  | .checkFull arg =>
    some (s.setMain (if s.numActiveThread = program.numThread then .flush 0 (some arg) else .storeArg arg))
  | .flush i held =>
    some (s.setMain (if i < s.numActiveThread then .awaitRet i held else .clearActive held))
  | .awaitRet i held =>
    match s.threadRet i with
    | .running => none
    | _ => some (s.setMain (.print i held))
  | .print i held =>
    match s.threadRet i with
    | .result value => some { s.setMain (.clear i held) with cout := s.cout ++ [value] }
    | _ => none
  | .clear i held => some ((s.setRet i .running).setMain (.flush (i + 1) held))
  | .clearActive held =>
    some { s.setMain (held.elim .readLine .storeArg) with numActiveThread := 0, batch := [] }
  | .storeArg arg =>
    some { s.setMain .storeRunning with
      threadArg := Function.update s.threadArg s.numActiveThread (some arg)
      batch := s.batch ++ [arg] }
  | .storeRunning => some ((s.setRet s.numActiveThread .running).setMain .lock)
  | .lock =>
    if s.mtxForWorkers s.numActiveThread = none then
      some ((s.setMtx s.numActiveThread (some .main)).setMain .signal)
    else none
  | .signal => some ((s.wake s.numActiveThread).setMain .unlock)
  | .unlock => some ((s.setMtx s.numActiveThread none).setMain .activate)
  | .activate => some { s.setMain .readLine with numActiveThread := s.numActiveThread + 1 }
  | .setDone => some { s.setMain (.wakeLast 0) with isDone := true }
  | .wakeLast i =>
    some (s.setMain (if i < program.numThread then .lockLast i else .finished))
  | .lockLast i =>
    if s.mtxForWorkers i = none then some ((s.setMtx i (some .main)).setMain (.signalLast i)) else none
  | .signalLast i => some ((s.wake i).setMain (.unlockLast i))
  | .unlockLast i => some ((s.setMtx i none).setMain (.join i))
  | .join i =>
    match s.worker i with
    | .finished => some (s.setMain (.wakeLast (i + 1)))
    | _ => none
  | .finished => none

end State

def threadStep (program : Program Text Query Result) (s : State Text Query Result) :
    Thread → Option (State Text Query Result)
  | .main => s.mainStep program
  | .worker tid => s.workerStep program tid

def poolSystem (program : Program Text Query Result) (lines : List (Line Text)) :
    Transition.System (State Text Query Result) Thread where
  init s := s = .new lines
  step s t s' := threadStep program s t = some s'

/-- The results of the queries among the lines, in the order of the lines. -/
def results (program : Program Text Query Result) : List (Line Text) → List Result
  | [] => []
  | .flush :: lines => results program lines
  | .query text :: lines => program.join (program.parseQuery text) :: results program lines

end QueryPool
