import HyuIte4065.QueryPool.Steps
import HyuIte4065.Library.Transition

/-!
# The moves of the thread pool

Each step of a worker and of the main thread by name, and who holds which mutex.
-/
namespace QueryPool

open Mutex State

variable {Text Query Result : Type}

section
variable (program : Program Text Query Result) (s : State Text Query Result)

inductive WorkerMove (tid : Nat) : State Text Query Result → Prop where
  | lockFirst (here : s.worker tid = .lockFirst) (free : s.mtxForWorkers tid = none) :
    WorkerMove tid ((s.setMtx tid (some (.worker tid))).setWorker tid .storeReady)
  | storeReady (here : s.worker tid = .storeReady) :
    WorkerMove tid ((s.setRet tid .running).setWorker tid .wait)
  | wait (here : s.worker tid = .wait) : WorkerMove tid ((s.setMtx tid none).setWorker tid .waiting)
  | relock (here : s.worker tid = .relock) (free : s.mtxForWorkers tid = none) :
    WorkerMove tid ((s.setMtx tid (some (.worker tid))).setWorker tid .unlock)
  | unlock (here : s.worker tid = .unlock) :
    WorkerMove tid ((s.setMtx tid none).setWorker tid .checkDone)
  | leave (here : s.worker tid = .checkDone) (ended : s.isDone = true) :
    WorkerMove tid (s.setWorker tid .finished)
  | enter (here : s.worker tid = .checkDone) (goes : s.isDone = false) :
    WorkerMove tid (s.setWorker tid .loadArg)
  | loadArg {arg : Query} (here : s.worker tid = .loadArg) (given : s.threadArg tid = some arg) :
    WorkerMove tid (s.setWorker tid (.join arg))
  | join {arg : Query} (here : s.worker tid = .join arg) :
    WorkerMove tid (s.setWorker tid (.lock (program.join arg)))
  | lock {value : Result} (here : s.worker tid = .lock value) (free : s.mtxForWorkers tid = none) :
    WorkerMove tid ((s.setMtx tid (some (.worker tid))).setWorker tid (.storeRet value))
  | storeRet {value : Result} (here : s.worker tid = .storeRet value) :
    WorkerMove tid ((s.setRet tid (.result value)).setWorker tid .wait)

inductive MainMove : State Text Query Result → Prop where
  | create {i : Nat} (here : s.main = .create i) (more : i < program.numThread) :
    MainMove ((s.setWorker i .lockFirst).setMain (.awaitReady i))
  | created {i : Nat} (here : s.main = .create i) (all : ¬ i < program.numThread) :
    MainMove (s.setMain .readLine)
  | awaitReady {i : Nat} (here : s.main = .awaitReady i) (ready : s.threadRet i = .running) :
    MainMove (s.setMain (.create (i + 1)))
  | endOfInput (here : s.main = .readLine) (line : s.input = []) : MainMove (s.setMain .setDone)
  | readFlush {rest : List (Line Text)} (here : s.main = .readLine) (line : s.input = .flush :: rest) :
    MainMove { s.setMain (.flush 0 none) with input := rest }
  | readQuery {text : Text} {rest : List (Line Text)} (here : s.main = .readLine)
    (line : s.input = .query text :: rest) :
    MainMove { s.setMain (.checkFull (program.parseQuery text)) with input := rest }
  | full {arg : Query} (here : s.main = .checkFull arg) (full : s.numActiveThread = program.numThread) :
    MainMove (s.setMain (.flush 0 (some arg)))
  | notFull {arg : Query} (here : s.main = .checkFull arg) (free : s.numActiveThread ≠ program.numThread) :
    MainMove (s.setMain (.storeArg arg))
  | flush {i : Nat} {held : Option Query} (here : s.main = .flush i held) (more : i < s.numActiveThread) :
    MainMove (s.setMain (.awaitRet i held))
  | flushed {i : Nat} {held : Option Query} (here : s.main = .flush i held)
    (all : ¬ i < s.numActiveThread) : MainMove (s.setMain (.clearActive held))
  | awaitRet {i : Nat} {held : Option Query} (here : s.main = .awaitRet i held)
    (done : s.threadRet i ≠ .running) : MainMove (s.setMain (.print i held))
  | print {i : Nat} {held : Option Query} {value : Result} (here : s.main = .print i held)
    (ret : s.threadRet i = .result value) :
    MainMove { s.setMain (.clear i held) with cout := s.cout ++ [value] }
  | clear {i : Nat} {held : Option Query} (here : s.main = .clear i held) :
    MainMove ((s.setRet i .running).setMain (.flush (i + 1) held))
  | clearActive (here : s.main = .clearActive none) :
    MainMove { s.setMain .readLine with numActiveThread := 0, batch := [] }
  | clearActiveHeld {arg : Query} (here : s.main = .clearActive (some arg)) :
    MainMove { s.setMain (.storeArg arg) with numActiveThread := 0, batch := [] }
  | storeArg {arg : Query} (here : s.main = .storeArg arg) :
    MainMove { s.setMain .storeRunning with
      threadArg := Function.update s.threadArg s.numActiveThread (some arg)
      batch := s.batch ++ [arg] }
  | storeRunning (here : s.main = .storeRunning) :
    MainMove ((s.setRet s.numActiveThread .running).setMain .lock)
  | lock (here : s.main = .lock) (free : s.mtxForWorkers s.numActiveThread = none) :
    MainMove ((s.setMtx s.numActiveThread (some .main)).setMain .signal)
  | signal (here : s.main = .signal) : MainMove ((s.wake s.numActiveThread).setMain .unlock)
  | unlock (here : s.main = .unlock) : MainMove ((s.setMtx s.numActiveThread none).setMain .activate)
  | activate (here : s.main = .activate) :
    MainMove { s.setMain .readLine with numActiveThread := s.numActiveThread + 1 }
  | setDone (here : s.main = .setDone) : MainMove { s.setMain (.wakeLast 0) with isDone := true }
  | wakeLast {i : Nat} (here : s.main = .wakeLast i) (more : i < program.numThread) :
    MainMove (s.setMain (.lockLast i))
  | wokenAll {i : Nat} (here : s.main = .wakeLast i) (all : ¬ i < program.numThread) :
    MainMove (s.setMain .finished)
  | lockLast {i : Nat} (here : s.main = .lockLast i) (free : s.mtxForWorkers i = none) :
    MainMove ((s.setMtx i (some .main)).setMain (.signalLast i))
  | signalLast {i : Nat} (here : s.main = .signalLast i) : MainMove ((s.wake i).setMain (.unlockLast i))
  | unlockLast {i : Nat} (here : s.main = .unlockLast i) : MainMove ((s.setMtx i none).setMain (.join i))
  | join {i : Nat} (here : s.main = .join i) (ended : s.worker i = .finished) :
    MainMove (s.setMain (.wakeLast (i + 1)))

end

variable {program : Program Text Query Result} {tid : Nat} {s s' : State Text Query Result}

theorem workerMove (h : s.workerStep program tid = some s') : WorkerMove program s tid s' := by
  unfold workerStep at h
  split at h
  case h_1 => cases h
  case h_2 here =>
    obtain ⟨free, ⟨⟩⟩ := Option.ite_none_right_eq_some.mp h
    exact .lockFirst here free
  case h_3 here => cases h; exact .storeReady here
  case h_4 here => cases h; exact .wait here
  case h_5 => cases h
  case h_6 here =>
    obtain ⟨free, ⟨⟩⟩ := Option.ite_none_right_eq_some.mp h
    exact .relock here free
  case h_7 here => cases h; exact .unlock here
  case h_8 here =>
    cases h
    cases hd : s.isDone with
    | true => exact .leave here hd
    | false => exact .enter here hd
  case h_9 here =>
    obtain ⟨arg, given, ⟨⟩⟩ := Option.map_eq_some_iff.mp h
    exact .loadArg here given
  case h_10 arg here => cases h; exact .join here
  case h_11 value here =>
    obtain ⟨free, ⟨⟩⟩ := Option.ite_none_right_eq_some.mp h
    exact .lock here free
  case h_12 value here => cases h; exact .storeRet here
  case h_13 => cases h

theorem mainMove (h : s.mainStep program = some s') : MainMove program s s' := by
  unfold mainStep at h
  split at h
  case h_1 i here =>
    split at h
    case isTrue more => cases h; exact .create here more
    case isFalse all => cases h; exact .created here all
  case h_2 i here =>
    split at h
    case h_1 ready => cases h; exact .awaitReady here ready
    case h_2 => cases h
  case h_3 here =>
    split at h
    case h_1 line => cases h; exact .endOfInput here line
    case h_2 rest line => cases h; exact .readFlush here line
    case h_3 text rest line => cases h; exact .readQuery here line
  case h_4 arg here =>
    cases h
    split
    case isTrue full => exact .full here full
    case isFalse free => exact .notFull here free
  case h_5 i held here =>
    cases h
    split
    case isTrue more => exact .flush here more
    case isFalse all => exact .flushed here all
  case h_6 i held here =>
    split at h
    case h_1 => cases h
    case h_2 done => cases h; exact .awaitRet here done
  case h_7 i held here =>
    split at h
    case h_1 value ret => cases h; exact .print here ret
    case h_2 => cases h
  case h_8 i held here => cases h; exact .clear here
  case h_9 held here =>
    cases h
    cases held with
    | none => exact .clearActive here
    | some arg => exact .clearActiveHeld here
  case h_10 arg here => cases h; exact .storeArg here
  case h_11 here => cases h; exact .storeRunning here
  case h_12 here =>
    obtain ⟨free, ⟨⟩⟩ := Option.ite_none_right_eq_some.mp h
    exact .lock here free
  case h_13 here => cases h; exact .signal here
  case h_14 here => cases h; exact .unlock here
  case h_15 here => cases h; exact .activate here
  case h_16 here => cases h; exact .setDone here
  case h_17 i here =>
    cases h
    split
    case isTrue more => exact .wakeLast here more
    case isFalse all => exact .wokenAll here all
  case h_18 i here =>
    obtain ⟨free, ⟨⟩⟩ := Option.ite_none_right_eq_some.mp h
    exact .lockLast here free
  case h_19 i here => cases h; exact .signalLast here
  case h_20 i here => cases h; exact .unlockLast here
  case h_21 i here =>
    split at h
    case h_1 ended => cases h; exact .join here ended
    case h_2 => cases h
  case h_22 => cases h

def WorkerPhase.holds : WorkerPhase Query Result → Bool
  | .storeReady | .wait | .unlock | .storeRet _ => true
  | _ => false

/-- The worker whose mutex the main thread holds. -/
def State.held (s : State Text Query Result) : Option Nat :=
  match s.main with
  | .signal | .unlock => some s.numActiveThread
  | .signalLast i | .unlockLast i => some i
  | _ => none

/-- The thread is in a section of its code that `mtx_for_workers[tid]` guards. -/
def State.Holds (s : State Text Query Result) (tid : Nat) : Thread → Prop
  | .main => s.held = some tid
  | .worker u => u = tid ∧ (s.worker u).holds = true

def Locks (s : State Text Query Result) : Prop := ∀ tid, Guards (s.mtxForWorkers tid) (s.Holds tid)

/-- The parts of the state that a step of a worker leaves unchanged. -/
structure WorkerFrame (s s' : State Text Query Result) (tid : Nat) : Prop where
  worker : ∀ u, u ≠ tid → s'.worker u = s.worker u
  threadRet : ∀ u, u ≠ tid → s'.threadRet u = s.threadRet u
  mtxForWorkers : ∀ u, u ≠ tid → s'.mtxForWorkers u = s.mtxForWorkers u
  threadArg : s'.threadArg = s.threadArg
  isDone : s'.isDone = s.isDone
  numActiveThread : s'.numActiveThread = s.numActiveThread
  input : s'.input = s.input
  cout : s'.cout = s.cout
  main : s'.main = s.main
  batch : s'.batch = s.batch

theorem WorkerMove.frame (h : WorkerMove program s tid s') : WorkerFrame s s' tid := by
  cases h <;> constructor <;>
    first
    | rfl
    | exact fun u hu => Function.update_of_ne hu _ _
    | exact fun _ _ => rfl

theorem Locks.new {input : List (Line Text)} : Locks (.new input : State Text Query Result) := by
  intro tid t
  cases t with
  | main => exact ⟨nofun, nofun⟩
  | worker u => exact ⟨nofun, fun h => nomatch h.2⟩

theorem WorkerMove.use (h : WorkerMove program s tid s') :
    Use (s.mtxForWorkers tid) (s'.mtxForWorkers tid) (.worker tid) (s.Holds tid (.worker tid))
      (s'.Holds tid (.worker tid)) := by
  cases h <;> simp only [Holds, *, WorkerPhase.holds, setWorker, setRet, setMtx, Function.update_self, true_and]
  case lockFirst => exact .lock rfl rfl trivial
  case relock => exact .lock rfl rfl trivial
  case lock => exact .lock rfl rfl trivial
  case wait => exact .unlock trivial rfl nofun
  case unlock => exact .unlock trivial rfl nofun
  all_goals exact .keep rfl Iff.rfl

theorem Locks.step_worker (hs : Locks s) (h : WorkerMove program s tid s') : Locks s' := by
  intro i
  have hframe := h.frame
  by_cases hi : i = tid
  · subst hi
    refine (hs i).step (fun u hu => ?_) h.use
    cases u with
    | main => rw [Holds, Holds, held, held, hframe.main, hframe.numActiveThread]
    | worker u => rw [Holds, Holds, hframe.worker u fun he => hu (he ▸ rfl)]
  · rw [hframe.mtxForWorkers i hi]
    refine (hs i).congr fun u => ?_
    cases u with
    | main => rw [Holds, Holds, held, held, hframe.main, hframe.numActiveThread]
    | worker u =>
      by_cases hu : u = tid
      · rw [hu]
        exact ⟨fun hh => absurd hh.1.symm hi, fun hh => absurd hh.1.symm hi⟩
      · rw [Holds, Holds, hframe.worker u hu]

theorem wake_of_waiting (h : s.worker tid = .waiting) : s.wake tid = s.setWorker tid .relock := by
  rw [State.wake, h]

theorem wake_of_ne (h : s.worker tid ≠ .waiting) : s.wake tid = s := by
  unfold State.wake
  split
  case h_1 hw => exact absurd hw h
  case h_2 => rfl

/-- A signal moves at most one worker, and no other part of the state. -/
theorem wake_cases (s : State Text Query Result) (tid : Nat) :
    s.worker tid = .waiting ∧ s.wake tid = s.setWorker tid .relock ∨ s.worker tid ≠ .waiting ∧ s.wake tid = s := by
  by_cases h : s.worker tid = .waiting
  · exact .inl ⟨h, wake_of_waiting h⟩
  · exact .inr ⟨h, wake_of_ne h⟩

theorem wake_worker (s : State Text Query Result) (tid u : Nat) :
    (s.wake tid).worker u = s.worker u ∨ s.worker u = .waiting ∧ (s.wake tid).worker u = .relock := by
  rcases wake_cases s tid with ⟨hw, he⟩ | ⟨-, he⟩
  · rw [he]
    by_cases hu : u = tid
    · exact .inr ⟨hu ▸ hw, hu ▸ Function.update_self ..⟩
    · exact .inl (Function.update_of_ne hu _ _)
  · exact .inl (by rw [he])

/-- A step of the main thread creates a worker, wakes up one that waits, or moves none. -/
theorem MainMove.worker (h : MainMove program s s') (u : Nat) :
    s'.worker u = s.worker u ∨ (s.worker u = .waiting ∧ s'.worker u = .relock) ∨
      (s.main = .create u ∧ u < program.numThread ∧ s'.worker u = .lockFirst) := by
  cases h
  case create i here more =>
    by_cases hu : u = i
    · subst hu
      exact .inr (.inr ⟨here, more, Function.update_self ..⟩)
    · exact .inl (Function.update_of_ne hu _ _)
  case signal => exact (wake_worker s _ u).imp id .inl
  case signalLast i _ => exact (wake_worker s i u).imp id .inl
  all_goals exact .inl rfl

theorem use_lock {n i : Nat} (free : s.mtxForWorkers n = none) (before : s.held = none)
    (after : s'.held = some n) (hmtx : s'.mtxForWorkers = Function.update s.mtxForWorkers n (some .main)) :
    Use (s.mtxForWorkers i) (s'.mtxForWorkers i) .main (s.Holds i .main) (s'.Holds i .main) := by
  rw [Holds, Holds, before, after, hmtx]
  by_cases hi : i = n
  · subst hi
    exact .lock free (Function.update_self ..) rfl
  · exact .keep (Function.update_of_ne hi _ _) ⟨fun he => absurd (Option.some.inj he).symm hi, nofun⟩

theorem use_unlock {n i : Nat} (before : s.held = some n) (after : s'.held = none)
    (hmtx : s'.mtxForWorkers = Function.update s.mtxForWorkers n none) :
    Use (s.mtxForWorkers i) (s'.mtxForWorkers i) .main (s.Holds i .main) (s'.Holds i .main) := by
  rw [Holds, Holds, before, after, hmtx]
  by_cases hi : i = n
  · subst hi
    exact .unlock rfl (Function.update_self ..) nofun
  · exact .keep (Function.update_of_ne hi _ _) ⟨nofun, fun he => absurd (Option.some.inj he).symm hi⟩

theorem use_keep {i : Nat} (hheld : s'.held = s.held) (hmtx : s'.mtxForWorkers = s.mtxForWorkers) :
    Use (s.mtxForWorkers i) (s'.mtxForWorkers i) .main (s.Holds i .main) (s'.Holds i .main) := by
  rw [Holds, Holds, hheld, hmtx]
  exact .keep rfl Iff.rfl

theorem wake_mtx (s : State Text Query Result) (n : Nat) : (s.wake n).mtxForWorkers = s.mtxForWorkers ∧
    (s.wake n).numActiveThread = s.numActiveThread := by
  rcases wake_cases s n with ⟨-, he⟩ | ⟨-, he⟩ <;> rw [he] <;> exact ⟨rfl, rfl⟩

theorem MainMove.use (h : MainMove program s s') (i : Nat) :
    Use (s.mtxForWorkers i) (s'.mtxForWorkers i) .main (s.Holds i .main) (s'.Holds i .main) := by
  cases h
  case lock here free => exact use_lock free (by rw [held, here]) rfl rfl
  case lockLast here free => exact use_lock free (by rw [held, here]) rfl rfl
  case unlock here => exact use_unlock (by rw [held, here]) rfl rfl
  case unlockLast here => exact use_unlock (by rw [held, here]) rfl rfl
  case signal here =>
    refine use_keep ?_ (wake_mtx s _).1
    rw [held, held, here]
    exact congrArg some (wake_mtx s _).2
  case signalLast here => exact use_keep (by rw [held, held, here]; rfl) (wake_mtx s _).1
  case clearActive here => exact use_keep (by rw [held, held, here]; rfl) rfl
  case activate here => exact use_keep (by rw [held, held, here]; rfl) rfl
  all_goals exact use_keep (by rw [held, held, ‹s.main = _›]; rfl) rfl

theorem Locks.step_main (hs : Locks s) (h : MainMove program s s')
    (fresh : ∀ i, s.main = .create i → s.worker i = .notCreated) : Locks s' := by
  intro i
  refine (hs i).step (fun u hu => ?_) (h.use i)
  cases u with
  | main => exact absurd rfl hu
  | worker u =>
    rw [Holds, Holds]
    refine and_congr_right fun _ => ?_
    rcases h.worker u with hw | ⟨hw, hw'⟩ | ⟨hc, -, hw'⟩
    · rw [hw]
    · rw [hw, hw']
      exact Iff.rfl
    · rw [fresh u hc, hw']
      exact Iff.rfl

end QueryPool
