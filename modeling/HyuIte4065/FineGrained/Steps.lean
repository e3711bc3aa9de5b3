import HyuIte4065.SortedList.Nodes

/-!
# The hand-over-hand locked list

`list_add`, `list_remove` and `list_contains` of `fine_grained.cpp`. A step is one access to a
field of a node, or one call of `malloc`, `free` or the mutex functions. A thread that waits for a
mutex has no step.
-/
namespace FineGrained

open SortedList

/-- Where a thread is, with its local variables. `gone` says that `curr` has been unlinked and is
going to be freed. -/
inductive Phase where
  | idle
  | malloc (key : Int)
  | lockHead (job : Job)
  | loadFirst (job : Job)
  | lockCurr (job : Job) (prev curr : Addr)
  | testKey (job : Job) (prev curr : Addr)
  | passPrev (job : Job) (prev curr : Addr)
  | loadNext (job : Job) (curr : Addr)
  | compareKey (job : Job) (prev curr : Addr)
  | link (key : Int) (node prev curr : Addr)
  | storeNext (node prev curr : Addr)
  | loadSucc (key : Int) (prev curr : Addr)
  | unlink (key : Int) (prev curr : Addr) (succ : Option Addr)
  | unlockPrev (prev curr : Addr) (gone res : Bool)
  | unlockCurr (curr : Addr) (gone res : Bool)
  | free (curr : Addr)
  | ret (res : Bool)
  deriving DecidableEq, Repr

def start : Op → Phase
  | .add key => .malloc key
  | .remove key => .lockHead (.remove key)
  | .contains key => .lockHead (.contains key)

/-- What comes after the search, where `key` is the key of `curr`. -/
def found (prev curr : Addr) (currKey : Int) : Job → Phase
  | .add key node => if currKey = key then .unlockPrev prev curr false false else .link key node prev curr
  | .remove key => if currKey ≠ key then .unlockPrev prev curr false false else .loadSucc key prev curr
  | .contains key => .unlockPrev prev curr false (currKey = key)

/-- One step inside an operation, `malloc` apart. -/
def act (s : State Phase) (t : ThreadId) : Option (State Phase) :=
  match s.phase t with
  | .idle | .malloc _ | .ret _ => none
  | .lockHead job =>
    if s.mutex head = none then some ((s.lock t head).goto t (.loadFirst job)) else none
  | .loadFirst job => (s.next head).map fun curr => s.goto t (.lockCurr job head curr)
  | .lockCurr job prev curr =>
    if s.mutex curr = none then some ((s.lock t curr).goto t (.testKey job prev curr)) else none
  | .testKey job prev curr =>
    some (s.goto t (if s.key curr < job.key then .passPrev job prev curr else .compareKey job prev curr))
  | .passPrev job prev curr => some ((s.unlock prev).goto t (.loadNext job curr))
  | .loadNext job curr => (s.next curr).map fun next => s.goto t (.lockCurr job curr next)
  | .compareKey job prev curr => some (s.goto t (found prev curr (s.key curr) job))
  | .link _ node prev curr => some ((s.store prev node).goto t (.storeNext node prev curr))
  | .storeNext node prev curr => some ((s.store node curr).goto t (.unlockPrev prev curr false true))
  | .loadSucc key prev curr => some (s.goto t (.unlink key prev curr (s.next curr)))
  | .unlink _ prev curr succ => some ((s.storeLink prev succ).goto t (.unlockPrev prev curr true true))
  | .unlockPrev prev curr gone res => some ((s.unlock prev).goto t (.unlockCurr curr gone res))
  | .unlockCurr curr gone res => some ((s.unlock curr).goto t (if gone then .free curr else .ret res))
  | .free curr => some ((s.free curr).goto t (.ret true))

/-- `malloc` returns any address that is not allocated, freed ones included. -/
inductive Step (s : State Phase) : Atomic.Event ThreadId Op Bool → State Phase → Prop where
  | call {t : ThreadId} {op : Op} (here : s.phase t = .idle) (lower : intMin < op.key)
    (upper : op.key < intMax) : Step s (.call t op) (s.goto t (start op))
  | malloc {t : ThreadId} {key : Int} {node : Addr} (here : s.phase t = .malloc key)
    (fresh : s.allocated node = false) :
    Step s (.inner t) ((s.malloc node key).goto t (.lockHead (.add key node)))
  | act {t : ThreadId} {s' : State Phase} (acts : act s t = some s') : Step s (.inner t) s'
  | ret {t : ThreadId} {res : Bool} (here : s.phase t = .ret res) :
    Step s (.ret t res) (s.goto t .idle)

def fineSystem : Transition.System (State Phase) (Atomic.Event ThreadId Op Bool) where
  init s := s = .listInit .idle
  step := Step

/-- The addresses that the next step reads, writes, locks, unlocks or frees. -/
def Phase.touches : Phase → List Addr
  | .idle | .malloc _ | .ret _ => []
  | .lockHead _ | .loadFirst _ => [head]
  | .lockCurr _ _ curr | .testKey _ _ curr | .loadNext _ curr | .compareKey _ _ curr
  | .loadSucc _ _ curr | .unlockCurr curr _ _ | .free curr => [curr]
  | .passPrev _ prev _ | .link _ _ prev _ | .unlink _ prev _ _ | .unlockPrev prev _ _ _ => [prev]
  | .storeNext node _ _ => [node]

/-- The addresses in the local variables that are still used. -/
def Phase.refs : Phase → List Addr
  | .idle | .malloc _ | .ret _ => []
  | .lockHead job | .loadFirst job => job.node.toList
  | .lockCurr job prev curr | .testKey job prev curr | .passPrev job prev curr
  | .compareKey job prev curr => prev :: curr :: job.node.toList
  | .loadNext job curr => curr :: job.node.toList
  | .link _ node prev curr | .storeNext node prev curr => [node, prev, curr]
  | .loadSucc _ prev curr | .unlockPrev prev curr _ _ => [prev, curr]
  | .unlink _ prev curr succ => prev :: curr :: succ.toList
  | .unlockCurr curr _ _ | .free curr => [curr]

def Phase.locked : Phase → List Addr
  | .idle | .malloc _ | .ret _ | .lockHead _ | .free _ => []
  | .loadFirst _ => [head]
  | .lockCurr _ prev _ => [prev]
  | .loadNext _ curr | .unlockCurr curr _ _ => [curr]
  | .testKey _ prev curr | .passPrev _ prev curr | .compareKey _ prev curr | .link _ _ prev curr
  | .storeNext _ prev curr | .loadSucc _ prev curr | .unlink _ prev curr _
  | .unlockPrev prev curr _ _ => [prev, curr]

/-- The mutex that the thread waits for if it is not free. -/
def Phase.awaits : Phase → Option Addr
  | .lockHead _ => some head
  | .lockCurr _ _ curr => some curr
  | _ => none

/-- The node that has been linked and whose own `next` is still to be stored, and what to. -/
def Phase.Pending : Phase → Addr → Addr → Prop
  | .storeNext node _ curr, a, b => a = node ∧ b = curr
  | _, _, _ => False

/-- The successor of a node; for a node that is being linked, the one that it is going to have. -/
def Edge (s : State Phase) (a b : Addr) : Prop := s.next a = some b ∨ ∃ t, (s.phase t).Pending a b

def Waits (s : State Phase) (t u : ThreadId) : Prop :=
  ∃ a, (s.phase t).awaits = some a ∧ s.mutex a = some u

/-- An operation takes effect when the key is compared, or else with the store to `prev->next`. -/
def Phase.status : Phase → Atomic.Status Op Bool
  | .idle => .idle
  | .malloc key | .link key _ _ _ => .called (.add key)
  | .lockHead job | .loadFirst job | .lockCurr job _ _ | .testKey job _ _ | .passPrev job _ _
  | .loadNext job _ | .compareKey job _ _ => .called job.op
  | .loadSucc key _ _ | .unlink key _ _ _ => .called (.remove key)
  | .storeNext _ _ _ | .free _ => .done true
  | .unlockPrev _ _ _ res | .unlockCurr _ _ res | .ret res => .done res

end FineGrained
