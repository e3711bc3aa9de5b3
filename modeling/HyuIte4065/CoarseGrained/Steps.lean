import HyuIte4065.SortedList.Nodes

/-!
# The list under one mutex

`list_add`, `list_remove` and `list_contains` of `coarse_grained.cpp`. A step is one access to a
field of a node, or one call of `malloc`, `free` or the mutex functions. A thread that waits for
the mutex has no step. The result of `list_contains` and the `free` of `list_remove` come after the
mutex has been released.
-/
namespace CoarseGrained

open SortedList

/-- Where a thread is, with its local variables. -/
inductive Phase where
  | idle
  | malloc (key : Int)
  | lock (job : Job)
  | loadFirst (job : Job)
  | testKey (job : Job) (prev curr : Addr)
  | loadNext (job : Job) (curr : Addr)
  | compareAdd (key : Int) (node prev curr : Addr)
  | link (key : Int) (node prev curr : Addr)
  | storeNext (node curr : Addr)
  | compareRemove (key : Int) (prev curr : Addr)
  | loadSucc (key : Int) (prev curr : Addr)
  | unlink (key : Int) (prev curr : Addr) (succ : Option Addr)
  | unlock (res : Bool)
  | unlockRemoved (curr : Addr)
  | unlockContains (key : Int) (curr : Addr)
  | free (curr : Addr)
  | compareContains (key : Int) (curr : Addr)
  | ret (res : Bool)
  deriving DecidableEq, Repr

/-- The nodes have no mutexes of their own. -/
structure State where
  allocated : Addr → Bool
  key : Addr → Int
  next : Addr → Option Addr
  mutex : Option ThreadId
  phase : ThreadId → Phase

namespace State

def listInit : State where
  allocated a := a = head || a = tail
  key a := if a = head then intMin else intMax
  next a := if a = head then some tail else none
  mutex := none
  phase _ := .idle

def goto (s : State) (t : ThreadId) (ph : Phase) : State :=
  { s with phase := Function.update s.phase t ph }

/-- `a->next = b`, where `b` may be null. -/
def store (s : State) (a : Addr) (b : Option Addr) : State :=
  { s with next := Function.update s.next a b }

/-- `malloc` with the initialisation of the key. -/
def malloc (s : State) (node : Addr) (key : Int) : State :=
  { s with
    allocated := Function.update s.allocated node true
    key := Function.update s.key node key
    next := Function.update s.next node none }

def free (s : State) (a : Addr) : State :=
  { s with allocated := Function.update s.allocated a false }

end State

def start : Op → Phase
  | .add key => .malloc key
  | .remove key => .lock (.remove key)
  | .contains key => .lock (.contains key)

/-- What comes after the search. -/
def searched (prev curr : Addr) : Job → Phase
  | .add key node => .compareAdd key node prev curr
  | .remove key => .compareRemove key prev curr
  | .contains key => .unlockContains key curr

/-- One step inside an operation, `malloc` apart. -/
def act (s : State) (t : ThreadId) : Option State :=
  match s.phase t with
  | .idle | .malloc _ | .ret _ => none
  | .lock job =>
    if s.mutex = none then some ({ s with mutex := some t }.goto t (.loadFirst job)) else none
  | .loadFirst job => (s.next head).map fun curr => s.goto t (.testKey job head curr)
  | .testKey job prev curr =>
    some (s.goto t (if s.key curr < job.key then .loadNext job curr else searched prev curr job))
  | .loadNext job curr => (s.next curr).map fun next => s.goto t (.testKey job curr next)
  | .compareAdd key node prev curr =>
    some (s.goto t (if s.key curr = key then .unlock false else .link key node prev curr))
  | .link _ node prev curr => some ((s.store prev node).goto t (.storeNext node curr))
  | .storeNext node curr => some ((s.store node curr).goto t (.unlock true))
  | .compareRemove key prev curr =>
    some (s.goto t (if s.key curr ≠ key then .unlock false else .loadSucc key prev curr))
  | .loadSucc key prev curr => some (s.goto t (.unlink key prev curr (s.next curr)))
  | .unlink _ prev curr succ => some ((s.store prev succ).goto t (.unlockRemoved curr))
  | .unlock res => some ({ s with mutex := none }.goto t (.ret res))
  | .unlockRemoved curr => some ({ s with mutex := none }.goto t (.free curr))
  | .unlockContains key curr => some ({ s with mutex := none }.goto t (.compareContains key curr))
  | .free curr => some ((s.free curr).goto t (.ret true))
  | .compareContains key curr => some (s.goto t (.ret (s.key curr = key)))

/-- `malloc` returns any address that is not allocated, freed ones included. -/
inductive Step (s : State) : Atomic.Event ThreadId Op Bool → State → Prop where
  | call {t : ThreadId} {op : Op} (here : s.phase t = .idle) : Step s (.call t op) (s.goto t (start op))
  | malloc {t : ThreadId} {key : Int} {node : Addr} (here : s.phase t = .malloc key)
    (fresh : s.allocated node = false) :
    Step s (.inner t) ((s.malloc node key).goto t (.lock (.add key node)))
  | act {t : ThreadId} {s' : State} (acts : act s t = some s') : Step s (.inner t) s'
  | ret {t : ThreadId} {res : Bool} (here : s.phase t = .ret res) :
    Step s (.ret t res) (s.goto t .idle)

def coarseSystem : Transition.System State (Atomic.Event ThreadId Op Bool) where
  init s := s = .listInit
  step := Step

/-- The addresses of nodes that the next step reads, writes or frees. -/
def Phase.touches : Phase → List Addr
  | .idle | .malloc _ | .lock _ | .unlock _ | .unlockRemoved _ | .unlockContains _ _ | .ret _ => []
  | .loadFirst _ => [head]
  | .testKey _ _ curr | .loadNext _ curr | .compareAdd _ _ _ curr | .compareRemove _ _ curr
  | .loadSucc _ _ curr | .free curr | .compareContains _ curr => [curr]
  | .link _ _ prev _ | .unlink _ prev _ _ => [prev]
  | .storeNext node _ => [node]

end CoarseGrained
