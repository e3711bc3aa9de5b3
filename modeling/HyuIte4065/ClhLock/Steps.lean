import HyuIte4065.Library.Transition
import Mathlib.Data.BitVec
import Mathlib.Logic.Function.Basic

/-!
# CLH lock of lab 11

`prac_clhlock.cpp`, one access to shared memory a step; the increment of `cnt_global` is a
load and a store. Every node is an `int` on the heap, `myNode` belongs to its thread, and a
phase holds the `pred` that `lock` returned.
-/
namespace ClhLock

abbrev Ptr := Nat
abbrev ThreadId := Nat

inductive Phase where
  | unborn
  /-- Before `lock`: the store to `*myNode` is next. -/
  | outside
  | exchange
  | spin (pred : Ptr)
  | loadCnt (pred : Ptr)
  | storeCnt (pred : Ptr) (cnt : BitVec 32)
  /-- In `unlock`: the store to `*myNode` is next. -/
  | release (pred : Ptr)
  | takeOver (pred : Ptr)
  deriving DecidableEq, Repr

/-- The memory and the threads, and what has happened so far: the threads in the order of
their exchanges on `tail`, those whose `lock` has returned, and the number of increments. -/
structure State where
  heap : Ptr → Option Int
  tail : Ptr
  cntGlobal : BitVec 32
  myNode : ThreadId → Ptr
  phase : ThreadId → Phase
  exchanged : List ThreadId
  entered : List ThreadId
  increments : Nat

namespace State

/-- The constructor `CLHLock`: `tail` is a new node that holds 0. -/
def new (tail : Ptr) : State where
  heap := Function.update (fun _ => none) tail (some 0)
  tail := tail
  cntGlobal := 0
  myNode := fun _ => tail
  phase := fun _ => .unborn
  exchanged := []
  entered := []
  increments := 0

def goto (s : State) (tid : ThreadId) (ph : Phase) : State :=
  { s with phase := Function.update s.phase tid ph }

def store (s : State) (p : Ptr) (value : Int) : State :=
  { s with heap := Function.update s.heap p (some value) }

def setMyNode (s : State) (tid : ThreadId) (p : Ptr) : State :=
  { s with myNode := Function.update s.myNode tid p }

/-- The next access of a thread; an access to a node that is not there has no result. -/
def act (s : State) (tid : ThreadId) : Option State :=
  match s.phase tid with
  | .unborn => none
  | .outside => some ((s.store (s.myNode tid) 1).goto tid .exchange)
  | .exchange =>
    some ({ s with tail := s.myNode tid, exchanged := s.exchanged ++ [tid] }.goto tid (.spin s.tail))
  | .spin pred => do
    let value ← s.heap pred
    if value ≠ 0 then some s
    else some ({ s with entered := s.entered ++ [tid] }.goto tid (.loadCnt pred))
  | .loadCnt pred => some (s.goto tid (.storeCnt pred s.cntGlobal))
  | .storeCnt pred cnt =>
    some ({ s with cntGlobal := cnt + 1, increments := s.increments + 1 }.goto tid (.release pred))
  | .release pred => some ((s.store (s.myNode tid) 0).goto tid (.takeOver pred))
  | .takeOver pred => some ((s.setMyNode tid pred).goto tid .outside)

end State

/-- A thread starts with `new int(1)`; then it may lock, increment and unlock any number of times. -/
inductive Step : State → ThreadId → State → Prop where
  | start {s : State} {tid : ThreadId} (node : Ptr) (unborn : s.phase tid = .unborn)
      (fresh : s.heap node = none) :
      Step s tid (((s.store node 1).setMyNode tid node).goto tid .outside)
  | act {s s' : State} {tid : ThreadId} (h : s.act tid = some s') : Step s tid s'

def clhSystem : Transition.System State ThreadId where
  init s := ∃ tail, s = .new tail
  step := Step

end ClhLock
