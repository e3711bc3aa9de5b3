import HyuIte4065.BufferPool.UtList
import HyuIte4065.Library.Transition

/-!
# Initialisation of a buffer chunk

`buf_pool_t::chunk_t::create` of the patch: the serial loop, and the threads that replace it, one
store to a list or a page a step. A block pointer is counted in blocks; a frame is an address.
The chunk lies in memory, so neither wraps around.
-/
namespace BufferPool

abbrev ThreadId := Nat
abbrev Frame := Nat

structure Chunk where
  size : Nat
  numThread : Nat
  srvPageSize : Nat
  blocks : Page
  frame : Frame

/-- The memory, the list `buf_pool.free`, and the calls of `buf_block_init` so far. -/
structure Serial where
  mem : Memory
  free : UtList
  inits : List (Page × Frame)

/-- The loop on `i` from `size` down. -/
def Chunk.serialLoop (c : Chunk) : Nat → Page → Frame → Serial → Serial
  | 0, _, _, s => s
  | i + 1, block, frame, s =>
    let r := utListAppend block (s.mem, s.free)
    c.serialLoop i (block + 1) (frame + c.srvPageSize) ⟨r.1, r.2, s.inits ++ [(block, frame)]⟩

def Chunk.serialInit (c : Chunk) (mem : Memory) (free : UtList) : Serial :=
  c.serialLoop c.size c.blocks c.frame ⟨mem, free, []⟩

/-- The local variables of `threadwise_buf_block_init`. -/
structure Loop where
  i : Nat
  localBlock : Page
  localFrame : Frame
  deriving DecidableEq, Repr

def Chunk.start (c : Chunk) (tid : ThreadId) : Loop :=
  ⟨tid, c.blocks + tid, c.frame + c.srvPageSize * tid⟩

def Chunk.next (c : Chunk) (it : Loop) : Loop :=
  ⟨it.i + c.numThread, it.localBlock + c.numThread, it.localFrame + c.srvPageSize * c.numThread⟩

inductive Worker where
  | unborn
  | test (it : Loop)
  | init (it : Loop)
  | append (it : Loop) (todo : List AppendStore)
  | done
  deriving DecidableEq, Repr

inductive Main where
  -- the loop that creates the threads
  | initList (i : Nat)
  | create (i : Nat)
  -- the loop that joins them
  | join (i : Nat)
  | testCount (i : Nat)
  | concat (i : Nat) (todo : List ConcatStore)
  | returned
  deriving DecidableEq, Repr

structure State where
  mem : Memory
  free : UtList
  localFreeLists : ThreadId → UtList
  worker : ThreadId → Worker
  main : Main
  inits : List (Page × Frame)

inductive Actor where
  | main
  | worker (tid : ThreadId)
  deriving DecidableEq, Repr

namespace State

def start (mem : Memory) (free : UtList) (localFreeLists : ThreadId → UtList) : State where
  mem := mem
  free := free
  localFreeLists := localFreeLists
  worker := fun _ => .unborn
  main := .initList 0
  inits := []

def goto (s : State) (tid : ThreadId) (w : Worker) : State :=
  { s with worker := Function.update s.worker tid w }

def setLocal (s : State) (tid : ThreadId) (list : UtList) : State :=
  { s with localFreeLists := Function.update s.localFreeLists tid list }

def actWorker (c : Chunk) (s : State) (tid : ThreadId) : Option State :=
  match s.worker tid with
  | .unborn => none
  | .test it => some (s.goto tid (if it.i < c.size then .init it else .done))
  | .init it =>
    some ({ s with inits := s.inits ++ [(it.localBlock, it.localFrame)] }.goto tid
      (.append it appendStores))
  | .append it [] => some (s.goto tid (.test (c.next it)))
  | .append it (x :: todo) =>
    let r := x.run it.localBlock (s.mem, s.localFreeLists tid)
    some (({ s with mem := r.1 }.setLocal tid r.2).goto tid (.append it todo))
  | .done => none

def actMain (c : Chunk) (s : State) : Option State :=
  match s.main with
  | .initList i =>
    if i < c.numThread then some { s.setLocal i utListInit with main := .create i }
    else some { s with main := .join 0 }
  | .create i => some { s.goto i (.test (c.start i)) with main := .initList (i + 1) }
  | .join i =>
    if i < c.numThread then
      if s.worker i = .done then some { s with main := .testCount i } else none
    else some { s with main := .returned }
  | .testCount i => some { s with main := .concat i (concatStores s.free (s.localFreeLists i)) }
  | .concat i [] => some { s with main := .join (i + 1) }
  | .concat i (x :: todo) =>
    (x.run (s.localFreeLists i) (s.mem, s.free)).map fun r =>
      { s with mem := r.1, free := r.2, main := .concat i todo }
  | .returned => none

def act (c : Chunk) (s : State) : Actor → Option State
  | .main => s.actMain c
  | .worker tid => s.actWorker c tid

end State

/-- `create` on a buffer pool with this memory and free list; the elements of the new vector
`local_free_lists` are not initialised. -/
def createSystem (c : Chunk) (mem : Memory) (free : UtList) : Transition.System State Actor where
  init s := ∃ localFreeLists, s = .start mem free localFreeLists
  step s a s' := s.act c a = some s'

end BufferPool
