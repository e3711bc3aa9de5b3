import HyuIte4065.Library.Transition
import Mathlib.Data.BitVec
import Mathlib.Logic.Function.Basic

/-!
# Spin locks of lab 11

`prac_taslock.cpp` and `prac_ttaslock.cpp`, for any number of threads and of turns. One access to
the lock object or to `cnt_global` is a step, and so is the creation or the join of a thread. A turn
of a waiting loop that goes on waiting changes nothing and is no step.
-/
namespace SpinLock

inductive Kind where
  | tas
  | ttas
  deriving DecidableEq, Repr

structure Program where
  kind : Kind
  numThread : Nat
  numWork : Nat

/-- Where a thread is, in turn `i` of its loop. -/
inductive Phase where
  | notCreated
  | next (i : Nat)
  -- in the inner loop of the second program
  | test (i : Nat)
  | exchange (i : Nat)
  | loadCnt (i : Nat)
  | storeCnt (i : Nat) (cnt : BitVec 32)
  | release (i : Nat)
  | finished
  deriving DecidableEq, Repr

inductive MainPhase where
  | create (i : Nat)
  | join (i : Nat)
  | print
  | finished
  deriving DecidableEq, Repr

structure State where
  object : Int
  cntGlobal : BitVec 32
  printed : Option (BitVec 32)
  main : MainPhase
  worker : Nat → Phase

inductive Thread where
  | main
  | worker (tid : Nat)
  deriving DecidableEq, Repr

namespace State

/-- Variables with static storage start as zero. -/
def new : State where
  object := 0
  cntGlobal := 0
  printed := none
  main := .create 0
  worker _ := .notCreated

def goto (s : State) (tid : Nat) (ph : Phase) : State :=
  { s with worker := Function.update s.worker tid ph }

/-- The first step of `lock`. -/
def lock (kind : Kind) (i : Nat) : Phase :=
  match kind with
  | .tas => .exchange i
  | .ttas => .test i

/-- `__sync_lock_test_and_set(lock_object, 1)` and what `lock` does with the old value. -/
def exchange (kind : Kind) (s : State) (tid i : Nat) : Option State :=
  match kind with
  | .tas => if s.object = 1 then none else some ({ s with object := 1 }.goto tid (.loadCnt i))
  | .ttas => some ({ s with object := 1 }.goto tid (if s.object = 0 then .loadCnt i else .test i))

/-- One step of `thread_work`. -/
def workerStep (program : Program) (s : State) (tid : Nat) : Option State :=
  match s.worker tid with
  | .notCreated => none
  | .next i => some (s.goto tid (if i < program.numWork then lock program.kind i else .finished))
  | .test i => if s.object = 1 then none else some (s.goto tid (.exchange i))
  | .exchange i => s.exchange program.kind tid i
  | .loadCnt i => some (s.goto tid (.storeCnt i s.cntGlobal))
  | .storeCnt i cnt => some ({ s with cntGlobal := cnt + 1 }.goto tid (.release i))
  | .release i => some ({ s with object := 0 }.goto tid (.next (i + 1)))
  | .finished => none

def mainStep (program : Program) (s : State) : Option State :=
  match s.main with
  | .create i =>
    if i < program.numThread then some { s.goto i (.next 0) with main := .create (i + 1) }
    else some { s with main := .join 0 }
  | .join i =>
    if i < program.numThread then
      if s.worker i = .finished then some { s with main := .join (i + 1) } else none
    else some { s with main := .print }
  | .print => some { s with printed := some s.cntGlobal, main := .finished }
  | .finished => none

end State

def threadStep (program : Program) (s : State) : Thread → Option State
  | .main => s.mainStep program
  | .worker tid => s.workerStep program tid

def spinSystem (program : Program) : Transition.System State Thread where
  init s := s = .new
  step s t s' := threadStep program s t = some s'

end SpinLock
