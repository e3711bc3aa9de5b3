import HyuIte4065.Library.Atomic
import HyuIte4065.Library.Transition
import HyuIte4065.Library.Buffers
import Mathlib.Data.BitVec

/-!
# Bounded queue of lab 13 with one lock

`queue_giantlock.cpp`, one access to shared memory a step; `rear++` and `front++` are a load and a
store. A phase names the access that a thread makes next and holds its local variables. A
thread that finds the queue full or empty unlocks the mutex, yields and locks it again.
-/
namespace GiantLockQueue

open Transition

abbrev ThreadId := Nat

def queueSize : Nat := 1024

structure QueueNode where
  key : Int
  deriving DecidableEq, Repr

inductive Op where
  | enqueue (key : Int)
  | dequeue
  deriving DecidableEq, Repr

inductive Phase where
  | idle
  -- enqueue
  | lockProducer (key : Int)
  | testFullRear (key : Int)
  | testFullFront (key : Int) (rear : BitVec 64)
  | unlockFull (key : Int)
  | loadSlot (key : Int)
  | storeKey (key : Int) (rear : BitVec 64)
  | loadRear (key : Int)
  | storeRear (key : Int) (rear : BitVec 64)
  | unlockProducer
  -- dequeue
  | lockConsumer
  | testEmptyRear
  | testEmptyFront (rear : BitVec 64)
  | unlockEmpty
  | loadSlotTaken
  | loadKey (front : BitVec 64)
  | loadFront (retKey : Int)
  | storeFront (retKey : Int) (front : BitVec 64)
  | unlockConsumer (retKey : Int)
  -- before the call returns
  | done (retKey : Option Int)
  deriving DecidableEq, Repr

def start : Op → Phase
  | .enqueue key => .lockProducer key
  | .dequeue => .lockConsumer

structure State where
  queue : Nat → QueueNode
  front : BitVec 64
  rear : BitVec 64
  mutexForQueue : Option ThreadId
  phase : ThreadId → Phase

namespace State

/-- The slots are static storage. -/
def initQueue : State where
  queue _ := ⟨0⟩
  front := 0
  rear := 0
  mutexForQueue := none
  phase _ := .idle

def goto (s : State) (tid : ThreadId) (ph : Phase) : State :=
  { s with phase := Function.update s.phase tid ph }

def lock (s : State) (tid : ThreadId) (ph : Phase) : Option State :=
  if s.mutexForQueue = none then some { s.goto tid ph with mutexForQueue := some tid } else none

def unlock (s : State) (tid : ThreadId) (ph : Phase) : State :=
  { s.goto tid ph with mutexForQueue := none }

def slot (i : BitVec 64) : Nat := (i % BitVec.ofNat 64 queueSize).toNat

/-- The next access of a thread. -/
def act (s : State) (tid : ThreadId) : Option State :=
  match s.phase tid with
  | .idle => none
  | .lockProducer key => s.lock tid (.testFullRear key)
  | .testFullRear key => some (s.goto tid (.testFullFront key s.rear))
  | .testFullFront key rear =>
    if s.front + BitVec.ofNat 64 queueSize ≤ rear then some (s.goto tid (.unlockFull key)) -- queue full!
    else some (s.goto tid (.loadSlot key))
  | .unlockFull key => some (s.unlock tid (.lockProducer key))
  | .loadSlot key => some (s.goto tid (.storeKey key s.rear))
  | .storeKey key rear =>
    some { s.goto tid (.loadRear key) with
      queue := Function.update s.queue (slot rear) { s.queue (slot rear) with key := key } }
  | .loadRear key => some (s.goto tid (.storeRear key s.rear))
  | .storeRear _ rear => some { s.goto tid .unlockProducer with rear := rear + 1 }
  | .unlockProducer => some (s.unlock tid (.done none))
  | .lockConsumer => s.lock tid .testEmptyRear
  | .testEmptyRear => some (s.goto tid (.testEmptyFront s.rear))
  | .testEmptyFront rear =>
    if rear = s.front then some (s.goto tid .unlockEmpty) -- queue empty!
    else some (s.goto tid .loadSlotTaken)
  | .unlockEmpty => some (s.unlock tid .lockConsumer)
  | .loadSlotTaken => some (s.goto tid (.loadKey s.front))
  | .loadKey front => some (s.goto tid (.loadFront (s.queue (slot front)).key))
  | .loadFront retKey => some (s.goto tid (.storeFront retKey s.front))
  | .storeFront retKey front => some { s.goto tid (.unlockConsumer retKey) with front := front + 1 }
  | .unlockConsumer retKey => some (s.unlock tid (.done (some retKey)))
  | .done _ => none

end State

inductive Step (s : State) : Atomic.Event ThreadId Op (Option Int) → State → Prop where
  | call {tid : ThreadId} {op : Op} (idle : s.phase tid = .idle) :
    Step s (.call tid op) (s.goto tid (start op))
  | act {s' : State} {tid : ThreadId} (h : s.act tid = some s') : Step s (.inner tid) s'
  | ret {tid : ThreadId} {retKey : Option Int} (done : s.phase tid = .done retKey) :
    Step s (.ret tid retKey) (s.goto tid .idle)

def giantLockSystem : System State (Atomic.Event ThreadId Op (Option Int)) where
  init s := s = .initQueue
  step := Step

/-- What the queue is for: a first-in first-out buffer of bounded size, in which an operation that is not
possible yet waits. -/
def fifo : Guarded.Object Op (Option Int) (List Int) where
  start := []
  apply
    | .enqueue key, keys => if keys.length < queueSize then some (none, keys ++ [key]) else none
    | .dequeue, [] => none
    | .dequeue, key :: keys => some (some key, keys)

namespace Phase

/-- The thread is in the section of its code that the mutex guards. -/
def holds : Phase → Bool
  | .idle | .lockProducer _ | .lockConsumer | .done _ => false
  | _ => true

/-- An enqueue takes effect when it stores `rear`, a dequeue when it stores `front`. -/
def status : Phase → Atomic.Status Op (Option Int)
  | .idle => .idle
  | .lockProducer key | .testFullRear key | .testFullFront key _ | .unlockFull key | .loadSlot key
  | .storeKey key _ | .loadRear key | .storeRear key _ => .called (.enqueue key)
  | .unlockProducer => .done none
  | .lockConsumer | .testEmptyRear | .testEmptyFront _ | .unlockEmpty | .loadSlotTaken | .loadKey _
  | .loadFront _ | .storeFront _ _ => .called .dequeue
  | .unlockConsumer retKey => .done (some retKey)
  | .done retKey => .done retKey

end Phase

namespace State

def keys (s : State) : List Int :=
  RingBuffer.contents queueSize (fun i => (s.queue i).key) s.front.toNat s.rear.toNat

def view (s : State) : Atomic.State ThreadId Op (Option Int) (List Int) :=
  ⟨s.keys, fun tid => (s.phase tid).status⟩

def Holds (s : State) (tid : ThreadId) : Prop := (s.phase tid).holds = true

/-- So few keys have been enqueued that `front + queueSize` does not overflow. -/
def Few (s : State) : Prop := s.rear.toNat + queueSize < 2 ^ 64

end State

open State Mutex

/-- What a thread that holds the mutex knows. -/
def LocalOk (queue : Nat → QueueNode) (front rear : BitVec 64) : Phase → Prop
  | .testFullFront _ r => r = rear
  | .loadSlot _ => rear.toNat < front.toNat + queueSize
  | .storeKey _ r => r = rear ∧ rear.toNat < front.toNat + queueSize
  | .loadRear key => (queue (slot rear)).key = key ∧ rear.toNat < front.toNat + queueSize
  | .storeRear key r =>
    r = rear ∧ (queue (slot rear)).key = key ∧ rear.toNat < front.toNat + queueSize
  | .testEmptyFront r => r = rear
  | .loadSlotTaken => front.toNat < rear.toNat
  | .loadKey f => f = front ∧ front.toNat < rear.toNat
  | .loadFront retKey => (queue (slot front)).key = retKey ∧ front.toNat < rear.toNat
  | .storeFront retKey f => f = front ∧ (queue (slot front)).key = retKey ∧ front.toNat < rear.toNat
  | _ => True

structure Inv (s : State) : Prop where
  guards : Guards s.mutexForQueue s.Holds
  front_le : s.front.toNat ≤ s.rear.toNat
  rear_le : s.rear.toNat ≤ s.front.toNat + queueSize
  here : ∀ tid, LocalOk s.queue s.front s.rear (s.phase tid)

variable {s s' : State} {tid : ThreadId} {ph : Phase} {ev : Atomic.Event ThreadId Op (Option Int)}
  {queue : Nat → QueueNode} {front rear : BitVec 64}

theorem slot_eq (i : BitVec 64) : slot i = i.toNat % queueSize := by
  simp [slot, queueSize]

/-- A thread that does not hold the mutex knows nothing. -/
theorem localOk_of_free (h : ph.holds = false) : LocalOk queue front rear ph := by
  cases ph <;> first | exact True.intro | exact absurd h Bool.noConfusion

theorem Inv.others_free (hi : Inv s) (hold : (s.phase tid).holds = true) {u : ThreadId} (hu : u ≠ tid) :
    (s.phase u).holds = false := by
  by_contra hh
  exact hu (hi.guards.unique (by simpa [Holds] using hh) hold)

theorem guards_goto (hg : Guards s.mutexForQueue s.Holds) {owner : Option ThreadId}
    (use : Use s.mutexForQueue owner tid ((s.phase tid).holds = true) (ph.holds = true)) :
    Guards owner fun u => (Function.update s.phase tid ph u).holds = true := by
  refine hg.step (t := tid) (fun u hu => ?_) ?_
  · simp only [Holds, Function.update_of_ne hu]
  · simpa only [Holds, Function.update_self] using use

/-- A thread goes on to a phase with what it has to know there; it may lock or unlock the mutex. -/
theorem Inv.goto (hi : Inv s) {owner : Option ThreadId}
    (use : Use s.mutexForQueue owner tid ((s.phase tid).holds = true) (ph.holds = true))
    (hlocal : LocalOk s.queue s.front s.rear ph) : Inv { s.goto tid ph with mutexForQueue := owner } where
  guards := guards_goto hi.guards use
  front_le := hi.front_le
  rear_le := hi.rear_le
  here u := by
    by_cases hu : u = tid
    · subst hu
      simpa only [State.goto, Function.update_self] using hlocal
    · simpa only [State.goto, Function.update_of_ne hu] using hi.here u

/-- A thread that holds the mutex and goes on without letting go of it. -/
theorem Inv.stay (hi : Inv s) (hold : (s.phase tid).holds = true) (hold' : ph.holds = true)
    (hlocal : LocalOk s.queue s.front s.rear ph) : Inv (s.goto tid ph) :=
  hi.goto (.keep rfl ⟨fun _ => hold, fun _ => hold'⟩) hlocal

theorem Inv.outside (hi : Inv s) (hfree : (s.phase tid).holds = false) (hfree' : ph.holds = false) :
    Inv (s.goto tid ph) :=
  hi.goto (.keep rfl (by rw [hfree, hfree'])) (localOk_of_free hfree')

/-- The owner of the mutex changes the queue. -/
theorem Inv.change (hi : Inv s) (hold : (s.phase tid).holds = true) (hold' : ph.holds = true)
    (hle : front.toNat ≤ rear.toNat) (hle' : rear.toNat ≤ front.toNat + queueSize)
    (hlocal : LocalOk queue front rear ph) :
    Inv ⟨queue, front, rear, s.mutexForQueue, Function.update s.phase tid ph⟩ where
  guards := guards_goto hi.guards (.keep rfl ⟨fun _ => hold, fun _ => hold'⟩)
  front_le := hle
  rear_le := hle'
  here u := by
    by_cases hu : u = tid
    · subst hu
      simpa only [Function.update_self] using hlocal
    · simp only [Function.update_of_ne hu]
      exact localOk_of_free (hi.others_free hold hu)

/-- A step that neither changes the queue nor the status of its thread is not seen. -/
theorem view_goto {owner : Option ThreadId} (h : ph.status = (s.phase tid).status) :
    State.view { s.goto tid ph with mutexForQueue := owner } = s.view := by
  refine Atomic.State.mk.injEq .. ▸ ⟨rfl, funext fun u => ?_⟩
  by_cases hu : u = tid
  · subst hu
    simp only [State.goto, Function.update_self, h]
  · simp only [State.goto, Function.update_of_ne hu]

theorem view_update {owner : Option ThreadId} :
    State.view ⟨queue, front, rear, owner, Function.update s.phase tid ph⟩ =
      ⟨RingBuffer.contents queueSize (fun i => (queue i).key) front.toNat rear.toNat,
        Function.update s.view.status tid ph.status⟩ := by
  refine Atomic.State.mk.injEq .. ▸ ⟨rfl, funext fun u => ?_⟩
  by_cases hu : u = tid
  · subst hu
    simp only [Function.update_self]
  · simp only [Function.update_of_ne hu, State.view]

/-- What a step of a call does to the queue and to the status of the call. -/
inductive Effect (s : State) (tid : ThreadId) (s' : State) : Prop where
  | quiet (view : s'.view = s.view) (rear : s'.rear = s.rear)
  | enqueue (key : Int) (called : s.view.status tid = .called (.enqueue key))
    (room : s.keys.length < queueSize)
    (view : s'.view = ⟨s.keys ++ [key], Function.update s.view.status tid (.done none)⟩)
    (rear : s'.rear.toNat = s.rear.toNat + 1)
  | dequeue (key : Int) (keys : List Int) (called : s.view.status tid = .called .dequeue)
    (first : s.keys = key :: keys)
    (view : s'.view = ⟨keys, Function.update s.view.status tid (.done (some key))⟩)
    (rear : s'.rear = s.rear)

theorem Effect.step (h : Effect s tid s') : Guarded.Step fifo s.view (.inner tid) s'.view := by
  cases h with
  | quiet view =>
    rw [view]
    exact .skip
  | enqueue key called room view =>
    rw [view]
    exact .act called (if_pos room)
  | dequeue key keys called first view =>
    rw [view]
    refine .act called ?_
    show fifo.apply .dequeue s.keys = _
    rw [first]
    rfl

/-- The step keeps the invariant and has an effect of the atomic queue. -/
def Matches (s : State) (tid : ThreadId) (s' : State) : Prop := Inv s' ∧ Effect s tid s'

theorem Inv.quiet (hi : Inv s') (hview : s'.view = s.view) (hrear : s'.rear = s.rear) : Matches s tid s' :=
  ⟨hi, .quiet hview hrear⟩

theorem Inv.lock (hi : Inv s) (h : s.lock tid ph = some s') (hold : ph.holds = true)
    (hlocal : LocalOk s.queue s.front s.rear ph) (hstatus : ph.status = (s.phase tid).status) :
    Matches s tid s' := by
  obtain ⟨free, ⟨⟩⟩ := Option.ite_none_right_eq_some.mp h
  exact (hi.goto (.lock free rfl hold) hlocal).quiet (view_goto hstatus) rfl

theorem Inv.unlock (hi : Inv s) (hold : (s.phase tid).holds = true) (hfree : ph.holds = false)
    (hstatus : ph.status = (s.phase tid).status) : Matches s tid (s.unlock tid ph) :=
  (hi.goto (.unlock hold rfl (by rw [hfree]; exact Bool.false_ne_true)) (localOk_of_free hfree)).quiet
    (view_goto hstatus) rfl

theorem Inv.walk (hi : Inv s) (hold : (s.phase tid).holds = true) (hold' : ph.holds = true)
    (hlocal : LocalOk s.queue s.front s.rear ph) (hstatus : ph.status = (s.phase tid).status) :
    Matches s tid (s.goto tid ph) :=
  (hi.stay hold hold' hlocal).quiet (view_goto hstatus) rfl

theorem Inv.not_full (hi : Inv s) (few : s.Few) :
    s.front + BitVec.ofNat 64 queueSize ≤ s.rear ↔ ¬ s.rear.toNat < s.front.toNat + queueSize := by
  have hle := hi.front_le
  rw [State.Few] at few
  rw [BitVec.le_def, BitVec.toNat_add, BitVec.toNat_ofNat, Nat.add_mod_mod, Nat.mod_eq_of_lt (by omega)]
  omega

theorem Inv.not_empty (hi : Inv s) (h : s.rear ≠ s.front) : s.front.toNat < s.rear.toNat :=
  Nat.lt_of_le_of_ne hi.front_le fun he => h (BitVec.eq_of_toNat_eq he.symm)

theorem key_update {i : Nat} {node : QueueNode} : (fun j => (Function.update queue i node j).key) =
    Function.update (fun j => (queue j).key) i node.key := by
  funext j
  by_cases hj : j = i
  · subst hj
    simp only [Function.update_self]
  · simp only [Function.update_of_ne hj]

theorem toNat_succ (h : rear.toNat + 1 < 2 ^ 64) : (rear + 1).toNat = rear.toNat + 1 := by
  change (rear.toNat + 1) % 2 ^ 64 = rear.toNat + 1
  exact Nat.mod_eq_of_lt h

theorem Inv.storeKey (hi : Inv s) {key : Int} {r : BitVec 64} (hph : s.phase tid = .storeKey key r) :
    Matches s tid { s.goto tid (.loadRear key) with
      queue := Function.update s.queue (slot r) { s.queue (slot r) with key := key } } := by
  have hlocal := hi.here tid
  rw [hph] at hlocal
  obtain ⟨rfl, hlt⟩ := hlocal
  have hinv : Inv { s.goto tid (.loadRear key) with
      queue := Function.update s.queue (slot s.rear) { s.queue (slot s.rear) with key := key } } := by
    have hkey : (Function.update s.queue (slot s.rear) ⟨key⟩ (slot s.rear)).key = key := by
      rw [Function.update_self]
    exact hi.change (by rw [hph]; rfl) rfl hi.front_le hi.rear_le ⟨hkey, hlt⟩
  have hkeys : RingBuffer.contents queueSize
      (Function.update (fun j => (s.queue j).key) (s.rear.toNat % queueSize) key)
      s.front.toNat s.rear.toNat = s.keys := RingBuffer.contents_update hlt
  have hstatus : Phase.status (.loadRear key) = s.view.status tid := by
    show _ = (s.phase tid).status
    rw [hph]
    rfl
  have hview : State.view { s.goto tid (.loadRear key) with
      queue := Function.update s.queue (slot s.rear) { s.queue (slot s.rear) with key := key } } =
      ⟨RingBuffer.contents queueSize (fun i => (Function.update s.queue (slot s.rear) ⟨key⟩ i).key)
        s.front.toNat s.rear.toNat, Function.update s.view.status tid (Phase.status (.loadRear key))⟩ :=
    view_update
  rw [key_update, slot_eq, hkeys, hstatus, Function.update_eq_self] at hview
  exact hinv.quiet hview rfl

theorem Inv.storeRear (hi : Inv s) (few : s.Few) {key : Int} {r : BitVec 64}
    (hph : s.phase tid = .storeRear key r) :
    Matches s tid { s.goto tid .unlockProducer with rear := r + 1 } := by
  have hlocal := hi.here tid
  rw [hph] at hlocal
  obtain ⟨rfl, hkey, hlt⟩ := hlocal
  have hle := hi.front_le
  have hsize : 0 < queueSize := by decide
  rw [State.Few] at few
  have hsucc : (s.rear + 1).toNat = s.rear.toNat + 1 := toNat_succ (by omega)
  have hfront : s.front.toNat ≤ (s.rear + 1).toNat := by omega
  have hrear : (s.rear + 1).toNat ≤ s.front.toNat + queueSize := by omega
  have hinv : Inv { s.goto tid .unlockProducer with rear := s.rear + 1 } :=
    hi.change (by rw [hph]; rfl) rfl hfront hrear True.intro
  refine ⟨hinv, ?_⟩
  have hcalled : s.view.status tid = .called (.enqueue key) := by
    show (s.phase tid).status = _
    rw [hph]
    rfl
  have hroom : s.keys.length < queueSize := by
    rw [State.keys, RingBuffer.contents_length]
    omega
  have hkeys : s.keys ++ [key] =
      RingBuffer.contents queueSize (fun j => (s.queue j).key) s.front.toNat (s.rear + 1).toNat := by
    rw [hsucc, RingBuffer.contents_succ hle, ← slot_eq, hkey]
    rfl
  refine .enqueue key hcalled hroom ?_ hsucc
  rw [hkeys]
  exact view_update

theorem Inv.storeFront (hi : Inv s) (few : s.Few) {retKey : Int} {f : BitVec 64}
    (hph : s.phase tid = .storeFront retKey f) :
    Matches s tid { s.goto tid (.unlockConsumer retKey) with front := f + 1 } := by
  have hlocal := hi.here tid
  rw [hph] at hlocal
  obtain ⟨rfl, hkey, hlt⟩ := hlocal
  have hle := hi.rear_le
  rw [State.Few] at few
  have hsucc : (s.front + 1).toNat = s.front.toNat + 1 := toNat_succ (by omega)
  have hfront : (s.front + 1).toNat ≤ s.rear.toNat := by omega
  have hrear : s.rear.toNat ≤ (s.front + 1).toNat + queueSize := by omega
  have hinv : Inv { s.goto tid (.unlockConsumer retKey) with front := s.front + 1 } :=
    hi.change (by rw [hph]; rfl) rfl hfront hrear True.intro
  refine ⟨hinv, ?_⟩
  have hcalled : s.view.status tid = .called .dequeue := by
    show (s.phase tid).status = _
    rw [hph]
    rfl
  have hkeys : s.keys = retKey ::
      RingBuffer.contents queueSize (fun j => (s.queue j).key) (s.front + 1).toNat s.rear.toNat := by
    rw [hsucc, State.keys, RingBuffer.contents_cons hlt, ← slot_eq, hkey]
  exact .dequeue retKey _ hcalled hkeys view_update rfl

/-- A step changes the phase of no other thread. -/
theorem act_phase (h : s.act tid = some s') {u : ThreadId} (hu : u ≠ tid) : s'.phase u = s.phase u := by
  have hlock : ∀ {ph}, s.lock tid ph = some s' → s'.phase u = s.phase u := by
    intro ph h
    obtain ⟨-, ⟨⟩⟩ := Option.ite_none_right_eq_some.mp h
    exact Function.update_of_ne hu _ _
  unfold State.act at h
  split at h
  case h_1 => cases h
  case h_2 => exact hlock h
  case h_4 => split at h <;> cases h <;> exact Function.update_of_ne hu _ _
  case h_11 => exact hlock h
  case h_13 => split at h <;> cases h <;> exact Function.update_of_ne hu _ _
  case h_20 => cases h
  all_goals
    cases h
    exact Function.update_of_ne hu _ _

theorem Inv.act (hi : Inv s) (few : s.Few) (h : s.act tid = some s') : Matches s tid s' := by
  have hlocal := hi.here tid
  unfold State.act at h
  split at h <;> rename_i hph
  case h_1 => cases h
  case h_2 => exact hi.lock h rfl True.intro (by rw [hph]; rfl)
  case h_3 => cases h; exact hi.walk (by rw [hph]; rfl) rfl rfl (by rw [hph]; rfl)
  case h_4 =>
    rw [hph] at hlocal
    obtain rfl := hlocal
    split at h <;> cases h
    case isTrue => exact hi.walk (by rw [hph]; rfl) rfl True.intro (by rw [hph]; rfl)
    case isFalse hnot =>
      exact hi.walk (by rw [hph]; rfl) rfl (not_not.mp (mt (hi.not_full few).mpr hnot)) (by rw [hph]; rfl)
  case h_5 => cases h; exact hi.unlock (by rw [hph]; rfl) rfl (by rw [hph]; rfl)
  case h_6 =>
    rw [hph] at hlocal
    cases h
    exact hi.walk (by rw [hph]; rfl) rfl ⟨rfl, hlocal⟩ (by rw [hph]; rfl)
  case h_7 => cases h; exact hi.storeKey hph
  case h_8 =>
    rw [hph] at hlocal
    cases h
    exact hi.walk (by rw [hph]; rfl) rfl ⟨rfl, hlocal⟩ (by rw [hph]; rfl)
  case h_9 => cases h; exact hi.storeRear few hph
  case h_10 => cases h; exact hi.unlock (by rw [hph]; rfl) rfl (by rw [hph]; rfl)
  case h_11 => exact hi.lock h rfl True.intro (by rw [hph]; rfl)
  case h_12 => cases h; exact hi.walk (by rw [hph]; rfl) rfl rfl (by rw [hph]; rfl)
  case h_13 =>
    rw [hph] at hlocal
    obtain rfl := hlocal
    split at h <;> cases h
    case isTrue => exact hi.walk (by rw [hph]; rfl) rfl True.intro (by rw [hph]; rfl)
    case isFalse hne => exact hi.walk (by rw [hph]; rfl) rfl (hi.not_empty hne) (by rw [hph]; rfl)
  case h_14 => cases h; exact hi.unlock (by rw [hph]; rfl) rfl (by rw [hph]; rfl)
  case h_15 =>
    rw [hph] at hlocal
    cases h
    exact hi.walk (by rw [hph]; rfl) rfl ⟨rfl, hlocal⟩ (by rw [hph]; rfl)
  case h_16 =>
    rw [hph] at hlocal
    obtain ⟨rfl, hlt⟩ := hlocal
    cases h
    exact hi.walk (by rw [hph]; rfl) rfl ⟨rfl, hlt⟩ (by rw [hph]; rfl)
  case h_17 =>
    rw [hph] at hlocal
    cases h
    exact hi.walk (by rw [hph]; rfl) rfl ⟨rfl, hlocal⟩ (by rw [hph]; rfl)
  case h_18 => cases h; exact hi.storeFront few hph
  case h_19 => cases h; exact hi.unlock (by rw [hph]; rfl) rfl (by rw [hph]; rfl)
  case h_20 => cases h

theorem Inv.step (hi : Inv s) (few : s.Few) (h : Step s ev s') :
    Inv s' ∧ Guarded.Step fifo s.view ev s'.view := by
  cases h with
  | act h =>
    obtain ⟨hi', heffect⟩ := hi.act few h
    exact ⟨hi', heffect.step⟩
  | @call tid op idle =>
    have hfree : (start op).holds = false := by cases op <;> rfl
    refine ⟨hi.outside (by rw [idle]; rfl) hfree, ?_⟩
    have hstep : Guarded.Step fifo s.view (.call tid op) _ := .call (by show (s.phase tid).status = _; rw [idle]; rfl)
    have hstatus : (start op).status = .called op := by cases op <;> rfl
    have hview : State.view (s.goto tid (start op)) = _ := view_update
    rw [hview, hstatus]
    exact hstep
  | @ret tid retKey done =>
    refine ⟨hi.outside (by rw [done]; rfl) rfl, ?_⟩
    have hstep : Guarded.Step fifo s.view (.ret tid retKey) _ := .ret
        (by show (s.phase tid).status = _; rw [done]; rfl)
    have hview : State.view (s.goto tid .idle) = _ := view_update
    rw [hview]
    exact hstep

theorem Inv.new : Inv .initQueue where
  guards _ := ⟨nofun, nofun⟩
  front_le := Nat.le_refl _
  rear_le := Nat.zero_le _
  here _ := True.intro

def fewSystem : System State (Atomic.Event ThreadId Op (Option Int)) :=
  giantLockSystem.restrict fun s _ => s.Few

theorem inv_of_reachable (hs : Reachable fewSystem s) : Inv s := by
  refine hs.invariant ?_ fun s ev s' _ hi h => (hi.step h.2 h.1).1
  rintro s rfl
  exact .new

/-- As long as `rear` has not come near to its last value, the queue is a bounded first-in first-out
queue, and one thread at a time works on it. -/
theorem giantLock_linearizable :
    (∀ s, Reachable fewSystem s → (∀ t u, s.Holds t → s.Holds u → t = u) ∧
      s.front.toNat ≤ s.rear.toNat ∧ s.rear.toNat ≤ s.front.toNat + queueSize) ∧
    Guarded.Linearizable fifo fewSystem fun s keys => s.keys = keys := by
  refine ⟨fun s hs => ?_, ?_⟩
  · have hi := inv_of_reachable hs
    exact ⟨fun t u ht hu => hi.guards.unique ht hu, hi.front_le, hi.rear_le⟩
  · refine Refines.of_simulation (fun s a => Inv s ∧ a = s.view) ?_ ?_ ?_
    · rintro s rfl
      exact ⟨_, rfl, .new, rfl⟩
    · rintro s a ev s' ⟨hi, rfl⟩ h
      obtain ⟨hi', hstep⟩ := hi.step h.2 h.1
      exact ⟨_, hstep, hi', rfl⟩
    · rintro s a ⟨-, rfl⟩
      rfl

end GiantLockQueue
