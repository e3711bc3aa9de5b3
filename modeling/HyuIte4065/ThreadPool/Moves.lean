import HyuIte4065.ThreadPool.Steps
import HyuIte4065.Library.Transition

/-!
# The moves of the pool

Each step of a worker and of the client by name, what a step of a worker leaves unchanged, and
who holds the mutex.
-/
namespace ThreadPool

open Mutex State

section
variable (c : Config) (s : State)

inductive WorkerMove (tid : Nat) : State → Prop where
  | lock (here : s.worker tid = .lock) (free : s.mtxForWorkers = none) :
    WorkerMove tid { s.setWorker tid .setSleeping with mtxForWorkers := some (.worker tid) }
  | setSleeping (here : s.worker tid = .setSleeping) :
    WorkerMove tid ((s.setArg tid (some true)).setWorker tid .wait)
  | wait (here : s.worker tid = .wait) :
    WorkerMove tid { s.setWorker tid .waiting with mtxForWorkers := none }
  | wakeUp (here : s.worker tid = .waiting) (spurious : c.spurious = true) :
    WorkerMove tid (s.setWorker tid .relock)
  | relock (here : s.worker tid = .relock) (free : s.mtxForWorkers = none) :
    WorkerMove tid { s.setWorker tid .unlock with mtxForWorkers := some (.worker tid) }
  | unlock (here : s.worker tid = .unlock) :
    WorkerMove tid { s.setWorker tid .testTerminate with mtxForWorkers := none }
  | leave (here : s.worker tid = .testTerminate) (flag : s.terminateFlag = true) :
    WorkerMove tid (s.setWorker tid .deleteArg)
  | enter (here : s.worker tid = .testTerminate) (flag : s.terminateFlag = false) :
    WorkerMove tid (s.setWorker tid .work)
  | workReturns (res : Bool) (here : s.worker tid = .work) :
    WorkerMove tid { s.setWorker tid (afterWork c.project res) with
      works := Function.update s.works tid (s.works tid + 1) }
  | countUp (here : s.worker tid = .countUp) :
    WorkerMove tid { s.setWorker tid .testTerminate with
      localCount := Function.update s.localCount tid (s.localCount tid + 1) }
  | deleteArg (here : s.worker tid = .deleteArg) :
    WorkerMove tid ((s.setArg tid none).setWorker tid .finished)

inductive MainMove : State → Prop where
  | create {tid : Nat} (here : s.main = .create tid) (more : tid < c.numThread) :
    MainMove (((s.setArg tid (some false)).setWorker tid .lock).setMain (.awaitSleeping tid))
  | created {tid : Nat} (here : s.main = .create tid) (all : ¬ tid < c.numThread) :
    MainMove (s.setMain .constructed)
  | readDeleted {tid : Nat} (here : s.main = .awaitSleeping tid) (deleted : s.threadArg tid = none) :
    MainMove (s.setMain .corrupt)
  | sleeping {tid : Nat} (here : s.main = .awaitSleeping tid) (sleeps : s.threadArg tid = some true) :
    MainMove (s.setMain (.create (tid + 1)))
  | run (here : s.main = .constructed) (runs : c.runs = true) : MainMove (s.setMain .lock)
  | skip (here : s.main = .constructed) (runs : c.runs = false) : MainMove (s.setMain .testTerminate)
  | lock (here : s.main = .lock) (free : s.mtxForWorkers = none) :
    MainMove { s.setMain .broadcast with mtxForWorkers := some .main }
  | broadcast (here : s.main = .broadcast) : MainMove (s.broadcast.setMain .unlock)
  | unlock (here : s.main = .unlock) :
    MainMove { s.setMain (match c.project with | .two => .setTerminate | .three => .join 0) with
      mtxForWorkers := none }
  | setTerminate (here : s.main = .setTerminate) :
    MainMove { s.setMain (match c.project with | .two => .join 0 | .three => .returned) with
      terminateFlag := true }
  | join {tid : Nat} (here : s.main = .join tid) (more : tid < c.numThread)
    (ended : s.worker tid = .finished) (two : c.project = .two) :
    MainMove { s.setMain (.join (tid + 1)) with checkSum := s.checkSum + s.localCount tid }
  | joinOnly {tid : Nat} (here : s.main = .join tid) (more : tid < c.numThread)
    (ended : s.worker tid = .finished) (three : c.project = .three) :
    MainMove (s.setMain (.join (tid + 1)))
  | joined {tid : Nat} (here : s.main = .join tid) (all : ¬ tid < c.numThread) :
    MainMove (s.setMain (match c.project with | .two => .returned | .three => .setTerminate))
  | returned (here : s.main = .returned) : MainMove (s.setMain .testTerminate)
  | terminated (here : s.main = .testTerminate) (flag : s.terminateFlag = true) :
    MainMove (s.setMain .destroyed)
  | neverRun (here : s.main = .testTerminate) (flag : s.terminateFlag = false) :
    MainMove (s.setMain .setTerminateLate)
  | setTerminateLate (here : s.main = .setTerminateLate) :
    MainMove { s.setMain .broadcastLate with terminateFlag := true }
  | broadcastLate (here : s.main = .broadcastLate) : MainMove (s.broadcast.setMain (.joinLate 0))
  | joinLate {tid : Nat} (here : s.main = .joinLate tid) (more : tid < c.numThread)
    (ended : s.worker tid = .finished) : MainMove (s.setMain (.joinLate (tid + 1)))
  | joinedLate {tid : Nat} (here : s.main = .joinLate tid) (all : ¬ tid < c.numThread) :
    MainMove (s.setMain .destroyed)

end

variable {c : Config} {s s' : State} {tid : Nat}

theorem workerMove (h : s.workerStep tid = some s') : WorkerMove c s tid s' := by
  unfold workerStep at h
  split at h
  case h_1 here =>
    obtain ⟨free, ⟨⟩⟩ := Option.ite_none_right_eq_some.mp h
    exact .lock here free
  case h_2 here => cases h; exact .setSleeping here
  case h_3 here => cases h; exact .wait here
  case h_4 here =>
    obtain ⟨free, ⟨⟩⟩ := Option.ite_none_right_eq_some.mp h
    exact .relock here free
  case h_5 here => cases h; exact .unlock here
  case h_6 here =>
    cases h
    cases hflag : s.terminateFlag with
    | true => exact .leave here hflag
    | false => exact .enter here hflag
  case h_7 here => cases h; exact .countUp here
  case h_8 here => cases h; exact .deleteArg here
  case h_9 => cases h

theorem workReturns_move {res : Bool} (h : s.workReturns c.project tid res = some s') :
    WorkerMove c s tid s' := by
  obtain ⟨here, ⟨⟩⟩ := Option.ite_none_right_eq_some.mp h
  exact .workReturns res here

theorem wakeUp_move (h : s.wakeUp c.spurious tid = some s') : WorkerMove c s tid s' := by
  obtain ⟨⟨spurious, here⟩, ⟨⟩⟩ := Option.ite_none_right_eq_some.mp h
  exact .wakeUp here spurious

theorem mainMove (h : s.mainStep c = some s') : MainMove c s s' := by
  unfold mainStep at h
  split at h
  case h_1 tid here =>
    split at h
    case isTrue more => cases h; exact .create here more
    case isFalse all => cases h; exact .created here all
  case h_2 tid here =>
    split at h
    case h_1 deleted => cases h; exact .readDeleted here deleted
    case h_2 => cases h
    case h_3 sleeps => cases h; exact .sleeping here sleeps
  case h_3 here =>
    cases h
    cases hruns : c.runs with
    | true => exact .run here hruns
    | false => exact .skip here hruns
  case h_4 here =>
    obtain ⟨free, ⟨⟩⟩ := Option.ite_none_right_eq_some.mp h
    exact .lock here free
  case h_5 here => cases h; exact .broadcast here
  case h_6 here => cases h; exact .unlock here
  case h_7 here => cases h; exact .setTerminate here
  case h_8 tid here =>
    split at h
    case isTrue more =>
      obtain ⟨ended, h⟩ := Option.ite_none_right_eq_some.mp h
      cases hp : c.project with
      | two => rw [hp] at h; cases h; exact .join here more ended hp
      | three => rw [hp] at h; cases h; exact .joinOnly here more ended hp
    case isFalse all => cases h; exact .joined here all
  case h_9 here => cases h; exact .returned here
  case h_10 here =>
    cases h
    cases hflag : s.terminateFlag with
    | true => exact .terminated here hflag
    | false => exact .neverRun here hflag
  case h_11 here => cases h; exact .setTerminateLate here
  case h_12 here => cases h; exact .broadcastLate here
  case h_13 tid here =>
    split at h
    case isTrue more =>
      obtain ⟨ended, ⟨⟩⟩ := Option.ite_none_right_eq_some.mp h
      exact .joinLate here more ended
    case isFalse all => cases h; exact .joinedLate here all
  case h_14 => cases h
  case h_15 => cases h

/-- A step is one of the client or one of a worker. -/
theorem step_cases {a : Action} (h : step c s a = some s') :
    MainMove c s s' ∨ ∃ tid, WorkerMove c s tid s' := by
  cases a with
  | main => exact .inl (mainMove h)
  | worker tid => exact .inr ⟨tid, workerMove h⟩
  | workReturns tid res => exact .inr ⟨tid, workReturns_move h⟩
  | wakeUp tid => exact .inr ⟨tid, wakeUp_move h⟩

/-- The parts of the state that a step of a worker leaves unchanged. -/
structure WorkerFrame (s s' : State) (tid : Nat) : Prop where
  worker : ∀ u, u ≠ tid → s'.worker u = s.worker u
  threadArg : ∀ u, u ≠ tid → s'.threadArg u = s.threadArg u
  localCount : ∀ u, u ≠ tid → s'.localCount u = s.localCount u
  works : ∀ u, u ≠ tid → s'.works u = s.works u
  main : s'.main = s.main
  terminateFlag : s'.terminateFlag = s.terminateFlag
  checkSum : s'.checkSum = s.checkSum

theorem WorkerMove.frame (h : WorkerMove c s tid s') : WorkerFrame s s' tid := by
  cases h <;> constructor <;> intros <;>
    first
    | rfl
    | exact Function.update_of_ne ‹_› _ _

def WorkerPhase.holds : WorkerPhase → Bool
  | .setSleeping | .wait | .unlock => true
  | _ => false

def MainPhase.holds : MainPhase → Bool
  | .broadcast | .unlock => true
  | _ => false

/-- The thread is in a section of its code that `mtxForWorkers` guards. -/
def State.Holds (s : State) : Thread → Prop
  | .main => s.main.holds = true
  | .worker tid => (s.worker tid).holds = true

theorem WorkerMove.use (h : WorkerMove c s tid s') : Use s.mtxForWorkers s'.mtxForWorkers
    (.worker tid) (s.Holds (.worker tid)) (s'.Holds (.worker tid)) := by
  cases h <;> simp only [Holds, *, WorkerPhase.holds, setWorker, setArg, Function.update_self]
  case lock => exact .lock rfl rfl trivial
  case relock => exact .lock rfl rfl trivial
  case wait => exact .unlock trivial rfl nofun
  case unlock => exact .unlock trivial rfl nofun
  case workReturns res _ => exact .keep rfl (by cases c.project <;> cases res <;> exact Iff.rfl)
  all_goals exact .keep rfl Iff.rfl

theorem MainMove.use (h : MainMove c s s') :
    Use s.mtxForWorkers s'.mtxForWorkers .main (s.Holds .main) (s'.Holds .main) := by
  cases h <;> simp only [Holds, *, MainPhase.holds, setWorker, setArg, setMain, State.broadcast]
  case lock => exact .lock rfl rfl trivial
  case unlock => exact .unlock trivial rfl (by cases c.project <;> exact Bool.false_ne_true)
  case setTerminate => exact .keep rfl (by cases c.project <;> rfl)
  case joined => exact .keep rfl (by cases c.project <;> rfl)
  all_goals exact .keep rfl Iff.rfl

/-- A step of the client creates a worker, wakes up those that wait, or moves none. -/
theorem MainMove.worker (h : MainMove c s s') (u : Nat) :
    s'.worker u = s.worker u ∨ (s.worker u = .waiting ∧ s'.worker u = .relock) ∨
      (s.main = .create u ∧ u < c.numThread ∧ s'.worker u = .lock) := by
  cases h
  case create tid here more =>
    by_cases hu : u = tid
    · subst hu
      exact .inr (.inr ⟨here, more, Function.update_self ..⟩)
    · exact .inl (Function.update_of_ne hu _ _)
  case broadcast =>
    by_cases hu : s.worker u = .waiting
    · exact .inr (.inl ⟨hu, if_pos hu⟩)
    · exact .inl (if_neg hu)
  case broadcastLate =>
    by_cases hu : s.worker u = .waiting
    · exact .inr (.inl ⟨hu, if_pos hu⟩)
    · exact .inl (if_neg hu)
  all_goals exact .inl rfl

theorem Guards.step_main (hs : Guards s.mtxForWorkers s.Holds) (h : MainMove c s s')
    (fresh : ∀ u, s.main = .create u → s.worker u = .notCreated) :
    Guards s'.mtxForWorkers s'.Holds := by
  refine hs.step (fun u hu => ?_) h.use
  cases u with
  | main => exact absurd rfl hu
  | worker u =>
    rw [Holds, Holds]
    rcases h.worker u with hw | ⟨hw, hw'⟩ | ⟨hc, -, hw'⟩
    · rw [hw]
    · rw [hw, hw']
      rfl
    · rw [hw', fresh u hc]
      rfl

theorem Guards.step_worker (hs : Guards s.mtxForWorkers s.Holds) (h : WorkerMove c s tid s') :
    Guards s'.mtxForWorkers s'.Holds := by
  refine hs.step (fun u hu => ?_) h.use
  cases u with
  | main => rw [Holds, Holds, h.frame.main]
  | worker u => rw [Holds, Holds, h.frame.worker u fun he => hu (he ▸ rfl)]

end ThreadPool
