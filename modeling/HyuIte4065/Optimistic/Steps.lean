import HyuIte4065.SortedList.Nodes

/-!
# The optimistic list

`list_validate`, `list_add`, `list_remove` and `list_contains` of `optimistic.cpp`. A step is one
access to a field of a node that threads share, or one call of `malloc` or of the mutex functions. A
thread that waits for a mutex has no step. Removed nodes are not freed.
-/
namespace Optimistic

open SortedList

/-- Where a thread is, with its local variables; `it` is the one of `list_validate`. -/
inductive Phase where
  | idle
  | malloc (key : Int)
  | loadFirst (job : Job)
  | testKey (job : Job) (prev curr : Addr)
  | loadNext (job : Job) (curr : Addr)
  | lockPrev (job : Job) (prev curr : Addr)
  | lockCurr (job : Job) (prev curr : Addr)
  | testIt (job : Job) (prev curr it : Addr)
  | loadIt (job : Job) (prev curr it : Addr)
  | checkNext (job : Job) (prev curr : Addr)
  | failPrev (job : Job) (prev curr : Addr)
  | failCurr (job : Job) (curr : Addr)
  | compareKey (job : Job) (prev curr : Addr)
  | storeNext (key : Int) (node prev curr : Addr)
  | link (key : Int) (node prev curr : Addr)
  | loadSucc (key : Int) (prev curr : Addr)
  | unlink (key : Int) (prev curr : Addr) (succ : Option Addr)
  | unlockPrev (prev curr : Addr) (res : Bool)
  | unlockCurr (curr : Addr) (res : Bool)
  | ret (res : Bool)
  deriving DecidableEq, Repr

def start : Op → Phase
  | .add key => .malloc key
  | .remove key => .loadFirst (.remove key)
  | .contains key => .loadFirst (.contains key)

/-- What comes after a validation that succeeds, where `currKey` is the key of `curr`. -/
def found (prev curr : Addr) (currKey : Int) : Job → Phase
  | .add key node => if currKey = key then .unlockPrev prev curr false else .storeNext key node prev curr
  | .remove key => if currKey ≠ key then .unlockPrev prev curr false else .loadSucc key prev curr
  | .contains key => .unlockPrev prev curr (currKey = key)

/-- One step inside an operation, `malloc` apart. -/
def act (s : State Phase) (t : ThreadId) : Option (State Phase) :=
  match s.phase t with
  | .idle | .malloc _ | .ret _ => none
  | .loadFirst job => (s.next head).map fun curr => s.goto t (.testKey job head curr)
  | .testKey job prev curr =>
    some (s.goto t (if s.key curr < job.key then .loadNext job curr else .lockPrev job prev curr))
  | .loadNext job curr => (s.next curr).map fun next => s.goto t (.testKey job curr next)
  | .lockPrev job prev curr =>
    if s.mutex prev = none then some ((s.lock t prev).goto t (.lockCurr job prev curr)) else none
  | .lockCurr job prev curr =>
    if s.mutex curr = none then some ((s.lock t curr).goto t (.testIt job prev curr head)) else none
  | .testIt job prev curr it =>
    some (s.goto t
      (if s.key it ≤ s.key prev then
        if it = prev then .checkNext job prev curr else .loadIt job prev curr it
      else .failPrev job prev curr))
  | .loadIt job prev curr it => (s.next it).map fun next => s.goto t (.testIt job prev curr next)
  | .checkNext job prev curr =>
    some (s.goto t (if s.next prev = some curr then .compareKey job prev curr else .failPrev job prev curr))
  | .failPrev job prev curr => some ((s.unlock prev).goto t (.failCurr job curr))
  | .failCurr job curr => some ((s.unlock curr).goto t (.loadFirst job))
  | .compareKey job prev curr => some (s.goto t (found prev curr (s.key curr) job))
  | .storeNext key node prev curr => some ((s.store node curr).goto t (.link key node prev curr))
  | .link _ node prev curr => some ((s.store prev node).goto t (.unlockPrev prev curr true))
  | .loadSucc key prev curr => some (s.goto t (.unlink key prev curr (s.next curr)))
  | .unlink _ prev curr succ => some ((s.storeLink prev succ).goto t (.unlockPrev prev curr true))
  | .unlockPrev prev curr res => some ((s.unlock prev).goto t (.unlockCurr curr res))
  | .unlockCurr curr res => some ((s.unlock curr).goto t (.ret res))

inductive Step (s : State Phase) : Atomic.Event ThreadId Op Bool → State Phase → Prop where
  | call {t : ThreadId} {op : Op} (here : s.phase t = .idle) (lower : intMin < op.key)
    (upper : op.key < intMax) : Step s (.call t op) (s.goto t (start op))
  | malloc {t : ThreadId} {key : Int} {node : Addr} (here : s.phase t = .malloc key)
    (fresh : s.allocated node = false) :
    Step s (.inner t) ((s.malloc node key).goto t (.loadFirst (.add key node)))
  | act {t : ThreadId} {s' : State Phase} (acts : act s t = some s') : Step s (.inner t) s'
  | ret {t : ThreadId} {res : Bool} (here : s.phase t = .ret res) :
    Step s (.ret t res) (s.goto t .idle)

def optimisticSystem : Transition.System (State Phase) (Atomic.Event ThreadId Op Bool) where
  init s := s = .listInit .idle
  step := Step

def Phase.locked : Phase → List Addr
  | .idle | .malloc _ | .ret _ | .loadFirst _ | .testKey _ _ _ | .loadNext _ _ | .lockPrev _ _ _ => []
  | .lockCurr _ prev _ => [prev]
  | .failCurr _ curr | .unlockCurr curr _ => [curr]
  | .testIt _ prev curr _ | .loadIt _ prev curr _ | .checkNext _ prev curr | .failPrev _ prev curr
  | .compareKey _ prev curr | .storeNext _ _ prev curr | .link _ _ prev curr | .loadSucc _ prev curr
  | .unlink _ prev curr _ | .unlockPrev prev curr _ => [prev, curr]

/-- The addresses of linked nodes in the local variables. -/
def Phase.refs : Phase → List Addr
  | .idle | .malloc _ | .ret _ | .loadFirst _ => []
  | .loadNext _ curr | .failCurr _ curr | .unlockCurr curr _ => [curr]
  | .testKey _ prev curr | .lockPrev _ prev curr | .lockCurr _ prev curr | .checkNext _ prev curr
  | .failPrev _ prev curr | .compareKey _ prev curr | .storeNext _ _ prev curr | .link _ _ prev curr
  | .loadSucc _ prev curr | .unlockPrev prev curr _ => [prev, curr]
  | .testIt _ prev curr it | .loadIt _ prev curr it => [prev, curr, it]
  | .unlink _ prev curr succ => prev :: curr :: succ.toList

/-- The node of `list_add` until it is linked. -/
def Phase.own : Phase → Option Addr
  | .loadFirst job | .testKey job _ _ | .loadNext job _ | .lockPrev job _ _ | .lockCurr job _ _
  | .testIt job _ _ _ | .loadIt job _ _ _ | .checkNext job _ _ | .failPrev job _ _ | .failCurr job _
  | .compareKey job _ _ => job.node
  | .storeNext _ node _ _ | .link _ node _ _ => some node
  | _ => none

/-- An operation takes effect when the key is compared, or else with the store to `prev->next`. -/
def Phase.status : Phase → Atomic.Status Op Bool
  | .idle => .idle
  | .malloc key | .storeNext key _ _ _ | .link key _ _ _ => .called (.add key)
  | .loadFirst job | .testKey job _ _ | .loadNext job _ | .lockPrev job _ _ | .lockCurr job _ _
  | .testIt job _ _ _ | .loadIt job _ _ _ | .checkNext job _ _ | .failPrev job _ _ | .failCurr job _
  | .compareKey job _ _ => .called job.op
  | .loadSucc key _ _ | .unlink key _ _ _ => .called (.remove key)
  | .unlockPrev _ _ res | .unlockCurr _ res | .ret res => .done res

/-- The mutex that the thread waits for if it is not free. -/
def Phase.awaits : Phase → Option Addr
  | .lockPrev _ prev _ => some prev
  | .lockCurr _ _ curr => some curr
  | _ => none

end Optimistic
