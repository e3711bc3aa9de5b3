import HyuIte4065.Library.Transition
import Mathlib.Data.BitVec
import Mathlib.Logic.Function.Basic

/-!
# Bounded lock-free queue of lab 13

`queue_bounded.cpp`, one access to shared memory a step; `flag++` is a load and a store.
A phase names the access that a thread makes next and holds its local variables. The value
of `seq` is the ticket, and `pthread_yield` leads back to the load of the flag.
-/
namespace BoundedQueue

abbrev ThreadId := Nat
abbrev Ticket := BitVec 64

def queueSize : Nat := 1024

structure QueueNode where
  key : Int
  flag : BitVec 64
  deriving DecidableEq, Repr

def slotIdx (seq : Ticket) : Nat := (seq % BitVec.ofNat 64 queueSize).toNat
def round (seq : Ticket) : BitVec 64 := seq / BitVec.ofNat 64 queueSize

inductive Phase where
  | idle
  -- enqueue
  | addRear (key : Int)
  | testEven (key : Int) (seq : Ticket)
  | storeKey (key : Int) (seq : Ticket)
  | loadEven (key : Int) (seq : Ticket)
  | storeOdd (key : Int) (seq : Ticket) (flag : BitVec 64)
  -- dequeue
  | addFront
  | testOdd (seq : Ticket)
  | loadKey (seq : Ticket)
  | loadOdd (seq : Ticket) (retKey : Int)
  | storeEven (seq : Ticket) (retKey : Int) (flag : BitVec 64)
  deriving DecidableEq, Repr

/-- The memory, the threads, and what has happened so far: the keys in the order in which
their enqueues drew tickets, the number of tickets that dequeues drew, the tickets of the
enqueues that are complete, and those of the complete dequeues with the keys they returned. -/
structure State where
  queue : Nat → QueueNode
  front : BitVec 64
  rear : BitVec 64
  phase : ThreadId → Phase
  keys : List Int
  drawn : Nat
  enqueued : List Nat
  returned : List (Nat × Int)

namespace State

def initQueue : State where
  queue := fun _ => ⟨0, 0⟩
  front := 0
  rear := 0
  phase := fun _ => .idle
  keys := []
  drawn := 0
  enqueued := []
  returned := []

def goto (s : State) (tid : ThreadId) (ph : Phase) : State :=
  { s with phase := Function.update s.phase tid ph }

def setNode (s : State) (i : Nat) (node : QueueNode) : State :=
  { s with queue := Function.update s.queue i node }

/-- The fetch-and-add on `rear`. -/
def drawRear (s : State) (key : Int) : State :=
  { s with rear := s.rear + 1, keys := s.keys ++ [key] }

/-- The fetch-and-add on `front`. -/
def drawFront (s : State) : State :=
  { s with front := s.front + 1, drawn := s.drawn + 1 }

/-- The store of `flag++`. -/
def setFlag (s : State) (i : Nat) (flag : BitVec 64) : State :=
  s.setNode i { s.queue i with flag := flag }

/-- The next access of a thread. -/
def act (s : State) (tid : ThreadId) : Option State :=
  match s.phase tid with
  | .idle => none
  | .addRear key => some ((s.drawRear key).goto tid (.testEven key s.rear))
  | .testEven key seq =>
    let flag := (s.queue (slotIdx seq)).flag
    if flag % 2 = 1 then some s -- queue full
    else if flag / 2 = round seq then some (s.goto tid (.storeKey key seq)) else some s
  | .storeKey key seq =>
    some ((s.setNode (slotIdx seq) { s.queue (slotIdx seq) with key := key }).goto tid (.loadEven key seq))
  | .loadEven key seq => some (s.goto tid (.storeOdd key seq (s.queue (slotIdx seq)).flag))
  | .storeOdd _ seq flag =>
    some ({ s.setFlag (slotIdx seq) (flag + 1) with
      enqueued := s.enqueued ++ [seq.toNat] }.goto tid .idle)
  | .addFront => some (s.drawFront.goto tid (.testOdd s.front))
  | .testOdd seq =>
    let flag := (s.queue (slotIdx seq)).flag
    if flag % 2 = 0 then some s -- queue empty
    else if flag / 2 = round seq then some (s.goto tid (.loadKey seq)) else some s
  | .loadKey seq => some (s.goto tid (.loadOdd seq (s.queue (slotIdx seq)).key))
  | .loadOdd seq retKey => some (s.goto tid (.storeEven seq retKey (s.queue (slotIdx seq)).flag))
  | .storeEven seq retKey flag =>
    some ({ s.setFlag (slotIdx seq) (flag + 1) with
      returned := s.returned ++ [(seq.toNat, retKey)] }.goto tid .idle)

end State

inductive Step : State → ThreadId → State → Prop where
  | enqueue {s : State} {tid : ThreadId} (key : Int) (idle : s.phase tid = .idle) :
      Step s tid (s.goto tid (.addRear key))
  | dequeue {s : State} {tid : ThreadId} (idle : s.phase tid = .idle) :
      Step s tid (s.goto tid .addFront)
  | act {s s' : State} {tid : ThreadId} (h : s.act tid = some s') : Step s tid s'

def boundedQueueSystem : Transition.System State ThreadId where
  init s := s = .initQueue
  step := Step

end BoundedQueue
