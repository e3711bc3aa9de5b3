import HyuIte4065.Library.Transition
import Mathlib.Logic.Function.Basic

/-!
# Unbounded lock-free queue of lab 14

`queue_unbounded.cpp`, one atomic load or compare-and-swap a step. A phase names the
access that a thread makes next and holds the local variables it still needs.
`malloc` returns any address that was never handed out, as nothing is freed.
-/
namespace Queue

abbrev Ptr := Nat
abbrev ThreadId := Nat

structure QueueNode where
  key : Int
  next : Option Ptr
  deriving DecidableEq, Repr

inductive Phase where
  | idle
  -- enqueue: `new_node` is `node`, `tail_copied` is `tailCopied`
  | loadTail (key : Int) (node : Ptr)
  | casNext (key : Int) (node : Ptr) (tailCopied : Option Ptr)
  | helpTail (key : Int) (node : Ptr) (tailCopied : Option Ptr) (retNode : Ptr)
  | swingTail (node : Ptr) (tailCopied : Option Ptr)
  -- dequeue: `sentinel_node->next` is loaded once for the test, once for the swap and
  -- once more for the key
  | loadHead
  | loadNext (sentinelNode : Option Ptr)
  | loadNextAgain (sentinelNode : Option Ptr)
  | casHead (sentinelNode : Option Ptr) (next : Option Ptr)
  | loadNextOfTaken (sentinelNode : Option Ptr)
  | loadKey (node : Option Ptr)
  deriving DecidableEq, Repr

/-- The memory, the threads, and what has happened so far: the first node ever, the nodes
and keys in the order of the successful swaps of `next`, the nodes that became head with
the thread that moved it, and the keys each thread got back. -/
structure State where
  heap : Ptr → Option QueueNode
  head : Option Ptr
  tail : Option Ptr
  phase : ThreadId → Phase
  sentinel : Ptr
  linked : List Ptr
  enqueued : List Int
  taken : List (ThreadId × Option Ptr)
  returned : ThreadId → List Int

namespace State

/-- `init_queue`; the key of the sentinel is whatever the memory held. -/
def initQueue (sentinel : Ptr) (key : Int) : State where
  heap := Function.update (fun _ => none) sentinel (some ⟨key, none⟩)
  head := some sentinel
  tail := some sentinel
  phase := fun _ => .idle
  sentinel := sentinel
  linked := []
  enqueued := []
  taken := []
  returned := fun _ => []

def goto (s : State) (tid : ThreadId) (ph : Phase) : State :=
  { s with phase := Function.update s.phase tid ph }

/-- The successful compare-and-swap on `next`. -/
def link (s : State) (b : Ptr) (n : QueueNode) (key : Int) (node : Ptr) : State :=
  { s with
    heap := Function.update s.heap b (some { n with next := some node })
    linked := s.linked ++ [node]
    enqueued := s.enqueued ++ [key] }

/-- A compare-and-swap on `tail`. -/
def casTail (s : State) (old : Option Ptr) (new : Ptr) : State :=
  { s with tail := if s.tail = old then some new else s.tail }

/-- The successful compare-and-swap on `head`. -/
def take (s : State) (tid : ThreadId) (next : Option Ptr) : State :=
  { s with head := next, taken := s.taken ++ [(tid, next)] }

def answer (s : State) (tid : ThreadId) (key : Int) : State :=
  { s with returned := Function.update s.returned tid (s.returned tid ++ [key]) }

/-- The next atomic access of a thread; an access through a null pointer has no result. -/
def act (s : State) (tid : ThreadId) : Option State :=
  match s.phase tid with
  | .idle => none
  | .loadTail key node => some (s.goto tid (.casNext key node s.tail))
  | .casNext key node tailCopied => do
    let b ← tailCopied
    let n ← s.heap b
    match n.next with
    | none => some ((s.link b n key node).goto tid (.swingTail node tailCopied))
    | some retNode => some (s.goto tid (.helpTail key node tailCopied retNode))
  | .helpTail key node tailCopied retNode =>
    some ((s.casTail tailCopied retNode).goto tid (.loadTail key node))
  | .swingTail node tailCopied => some ((s.casTail tailCopied node).goto tid .idle)
  | .loadHead => some (s.goto tid (.loadNext s.head))
  | .loadNext sentinelNode => do
    let n ← s.heap (← sentinelNode)
    some (s.goto tid (if n.next = none then .loadHead else .loadNextAgain sentinelNode))
  | .loadNextAgain sentinelNode => do
    let n ← s.heap (← sentinelNode)
    some (s.goto tid (.casHead sentinelNode n.next))
  | .casHead sentinelNode next =>
    if s.head = sentinelNode then
      some ((s.take tid next).goto tid (.loadNextOfTaken sentinelNode))
    else some (s.goto tid .loadHead)
  | .loadNextOfTaken sentinelNode => do
    let n ← s.heap (← sentinelNode)
    some (s.goto tid (.loadKey n.next))
  | .loadKey node => do
    let n ← s.heap (← node)
    some ((s.answer tid n.key).goto tid .idle)

/-- `malloc` and the two stores to the new node, which no other thread can see yet. -/
def alloc (s : State) (node : Ptr) (key : Int) : State :=
  { s with heap := Function.update s.heap node (some ⟨key, none⟩) }

end State

inductive Step : State → ThreadId → State → Prop where
  | enqueue {s : State} {tid : ThreadId} (key : Int) (node : Ptr) (idle : s.phase tid = .idle)
      (fresh : s.heap node = none) :
      Step s tid ((s.alloc node key).goto tid (.loadTail key node))
  | dequeue {s : State} {tid : ThreadId} (idle : s.phase tid = .idle) :
      Step s tid (s.goto tid .loadHead)
  | act {s s' : State} {tid : ThreadId} (h : s.act tid = some s') : Step s tid s'

def queueSystem : Transition.System State ThreadId where
  init s := ∃ sentinel key, s = .initQueue sentinel key
  step := Step

end Queue
