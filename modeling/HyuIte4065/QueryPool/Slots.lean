import HyuIte4065.QueryPool.Moves

/-!
# The slots of the thread pool

One slot for each worker: where the main thread is and what it has given to this batch say
what the worker is doing and what its `thread_ret` holds.
-/
namespace QueryPool

open Mutex State

variable {Text Query Result : Type}

inductive Status (Query : Type) where
  | fresh
  | created
  | idle
  /-- The query is there, the worker has not been woken up for it. -/
  | given (arg : Query)
  | busy (arg : Query)
  /-- The main thread has seen that the result is there. -/
  | done (arg : Query)
  | ending
  | finished

/-- A slot that the main thread has not flushed yet. -/
def active (batch : List Query) (i : Nat) : Status Query :=
  match batch[i]? with
  | some arg => .busy arg
  | none => .idle

/-- The slot that is next is not woken up yet. -/
def giving (batch : List Query) (n i : Nat) : Status Query :=
  match batch[i]? with
  | some arg => if i = n then .given arg else .busy arg
  | none => .idle

def printing (batch : List Query) (n i : Nat) : Status Query :=
  if i < n then .idle
  else match batch[i]? with
    | some arg => if i = n then .done arg else .busy arg
    | none => .idle

def State.status (s : State Text Query Result) (i : Nat) : Status Query :=
  match s.main with
  | .create n => if i < n then .idle else .fresh
  | .awaitReady n => if i < n then .idle else if i = n then .created else .fresh
  | .readLine | .checkFull _ | .storeArg _ | .unlock | .activate => active s.batch i
  | .flush n _ | .awaitRet n _ => if i < n then .idle else active s.batch i
  | .print n _ | .clear n _ => printing s.batch n i
  | .storeRunning | .lock | .signal => giving s.batch s.numActiveThread i
  | .clearActive _ | .setDone => .idle
  | .wakeLast n | .lockLast n | .signalLast n => if i < n then .finished else .idle
  | .unlockLast n | .join n => if i < n then .finished else if i = n then .ending else .idle
  | .finished => .finished

def Parked (ph : WorkerPhase Query Result) : Prop := ph = .wait ∨ ph = .waiting

section
variable (program : Program Text Query Result)

/-- A worker that has been woken up for the query. -/
def Busy (query : Query) (ph : WorkerPhase Query Result) (ret : Ret Result) (threadArg : Option Query) : Prop :=
  match ph with
  | .relock | .unlock | .checkDone | .loadArg => ret = .running ∧ threadArg = some query
  | .join arg => ret = .running ∧ arg = query
  | .lock value | .storeRet value => ret = .running ∧ value = program.join query
  | .wait | .waiting => ret = .result (program.join query)
  | _ => False

def SlotOk (ph : WorkerPhase Query Result) (ret : Ret Result) (threadArg : Option Query) :
    Status Query → Prop
  | .fresh => ph = .notCreated ∧ ret = .null
  | .created => (ph = .lockFirst ∨ ph = .storeReady) ∧ ret = .null ∨ Parked ph ∧ ret = .running
  | .idle => Parked ph ∧ ret = .running
  | .given arg => Parked ph ∧ ret = .running ∧ threadArg = some arg
  | .busy arg => Busy program arg ph ret threadArg
  | .done arg => Parked ph ∧ ret = .result (program.join arg)
  | .ending => ph = .relock ∨ ph = .unlock ∨ ph = .checkDone ∨ ph = .finished
  | .finished => ph = .finished

def State.SlotOk (s : State Text Query Result) (i : Nat) : Prop :=
  QueryPool.SlotOk program (s.worker i) (s.threadRet i) (s.threadArg i) (s.status i)

end

variable {program : Program Text Query Result} {tid : Nat} {s s' : State Text Query Result}
  {ph : WorkerPhase Query Result} {ret : Ret Result} {arg : Query} {threadArg : Option Query}

theorem WorkerFrame.status (h : WorkerFrame s s' tid) (i : Nat) : s'.status i = s.status i := by
  rw [State.status, State.status, h.main, h.batch, h.numActiveThread]

theorem WorkerMove.parked (h : WorkerMove program s tid s') (hp : Parked (s.worker tid)) :
    Parked (s'.worker tid) ∧ s'.threadRet tid = s.threadRet tid := by
  rcases hp with hw | hw <;> cases h
  case inl.wait => exact ⟨.inr (Function.update_self ..), rfl⟩
  all_goals simp_all only [reduceCtorEq]

/-- One step of a worker on its query. -/
theorem WorkerMove.busy (h : WorkerMove program s tid s') (goes : s.isDone = false)
    (hok : Busy program arg (s.worker tid) (s.threadRet tid) (s.threadArg tid)) :
    Busy program arg (s'.worker tid) (s'.threadRet tid) (s'.threadArg tid) := by
  cases h <;> simp only [setWorker, setRet, setMtx, Function.update_self]
  case relock here _ => rwa [here] at hok
  case unlock here => rwa [here] at hok
  case enter here _ => rwa [here] at hok
  case loadArg here given =>
    rw [here] at hok
    exact ⟨hok.1, Option.some.inj (given.symm.trans hok.2)⟩
  case join here =>
    rw [here] at hok
    exact ⟨hok.1, by rw [hok.2]⟩
  case lock here _ => rwa [here] at hok
  case storeRet here =>
    rw [here] at hok
    exact congrArg Ret.result hok.2
  case wait here => rwa [here] at hok
  case leave _ ended => rw [goes] at ended; cases ended
  case lockFirst here _ => rw [here] at hok; exact hok.elim
  case storeReady here => rw [here] at hok; exact hok.elim

theorem WorkerMove.created (h : WorkerMove program s tid s') : s.worker tid ≠ .notCreated := by
  intro hw
  cases h <;> simp_all only [reduceCtorEq]

theorem WorkerMove.unfinished (h : WorkerMove program s tid s') : s.worker tid ≠ .finished := by
  intro hw
  cases h <;> simp_all only [reduceCtorEq]

theorem WorkerMove.first (h : WorkerMove program s tid s')
    (hph : s.worker tid = .lockFirst ∨ s.worker tid = .storeReady) (hret : s.threadRet tid = .null) :
    (s'.worker tid = .lockFirst ∨ s'.worker tid = .storeReady) ∧ s'.threadRet tid = .null ∨
      Parked (s'.worker tid) ∧ s'.threadRet tid = .running := by
  cases h
  case lockFirst => exact .inl ⟨.inr (Function.update_self ..), hret⟩
  case storeReady => exact .inr ⟨.inl (Function.update_self ..), Function.update_self ..⟩
  all_goals simp_all only [reduceCtorEq, or_self]

theorem WorkerMove.ending (h : WorkerMove program s tid s') (ended : s.isDone = true)
    (hph : s.worker tid = .relock ∨ s.worker tid = .unlock ∨ s.worker tid = .checkDone ∨
      s.worker tid = .finished) :
    s'.worker tid = .relock ∨ s'.worker tid = .unlock ∨ s'.worker tid = .checkDone ∨
      s'.worker tid = .finished := by
  cases h
  case relock => exact .inr (.inl (Function.update_self ..))
  case unlock => exact .inr (.inr (.inl (Function.update_self ..)))
  case leave => exact .inr (.inr (.inr (Function.update_self ..)))
  case enter _ goes => rw [ended] at goes; cases goes
  all_goals simp_all only [reduceCtorEq, or_self]

/-- A step of a worker keeps to the status of its slot. -/
theorem WorkerMove.slotOk (h : WorkerMove program s tid s') (hok : s.SlotOk program tid)
    (goes : ∀ arg, s.status tid = .busy arg → s.isDone = false)
    (ended : s.status tid = .ending → s.isDone = true) : s'.SlotOk program tid := by
  have hframe := h.frame
  rw [State.SlotOk] at hok ⊢
  rw [hframe.status, hframe.threadArg]
  cases hstatus : s.status tid <;> rw [hstatus] at hok
  case fresh => exact absurd hok.1 h.created
  case created =>
    rcases hok with ⟨hph, hret⟩ | ⟨hp, hret⟩
    · exact h.first hph hret
    · obtain ⟨hp', hret'⟩ := h.parked hp
      exact .inr ⟨hp', hret'.trans hret⟩
  case idle =>
    obtain ⟨hp', hret'⟩ := h.parked hok.1
    exact ⟨hp', hret'.trans hok.2⟩
  case given =>
    obtain ⟨hp', hret'⟩ := h.parked hok.1
    exact ⟨hp', hret'.trans hok.2.1, hok.2.2⟩
  case busy arg =>
    have hbusy := h.busy (goes arg hstatus) hok
    rwa [hframe.threadArg] at hbusy
  case done =>
    obtain ⟨hp', hret'⟩ := h.parked hok.1
    exact ⟨hp', hret'.trans hok.2⟩
  case ending => exact h.ending (ended hstatus) hok
  case finished => exact absurd hok h.unfinished

end QueryPool
