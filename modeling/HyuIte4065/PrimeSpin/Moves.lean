import HyuIte4065.Library.Transition
import HyuIte4065.PrimeSpin.Steps

/-!
# The moves of the threads

Each step of a worker and of the main thread by name, what a step leaves unchanged, and who
holds the mutex.
-/
namespace PrimeSpin

open Mutex State
open PrimeCond

section
variable (numThread : Nat) (s : State)

inductive WorkerMove (tid : Nat) : State → Prop where
  | lockFirst (here : s.worker tid = .lockFirst) (free : s.mtxForWorkers = none) :
    WorkerMove tid { s.setWorker tid .storeReady with mtxForWorkers := some (.worker tid) }
  | storeReady (here : s.worker tid = .storeReady) :
    WorkerMove tid ((s.setRet tid (-1)).setWorker tid .wait)
  | wait (here : s.worker tid = .wait) :
    WorkerMove tid { s.setWorker tid .waiting with mtxForWorkers := none }
  | relock (here : s.worker tid = .relock) (free : s.mtxForWorkers = none) :
    WorkerMove tid { s.setWorker tid .unlock with mtxForWorkers := some (.worker tid) }
  | unlock (here : s.worker tid = .unlock) :
    WorkerMove tid { s.setWorker tid .checkDone with mtxForWorkers := none }
  | leave (here : s.worker tid = .checkDone) (ended : s.isDone = true) :
    WorkerMove tid (s.setWorker tid .finished)
  | enter (here : s.worker tid = .checkDone) (goes : s.isDone = false) :
    WorkerMove tid (s.setWorker tid (.split []))
  | load {loaded : List Int} {bound : Bound} (here : s.worker tid = .split loaded)
    (next : (loads numThread tid)[loaded.length]? = some bound) :
    WorkerMove tid (s.setWorker tid (.split (loaded ++ [boundOf s.range bound])))
  | split {loaded : List Int} {start stop : Int} (here : s.worker tid = .split loaded)
    (all : (loads numThread tid)[loaded.length]? = none)
    (piece : PrimeCond.split numThread tid loaded = some (start, stop)) :
    WorkerMove tid (s.setWorker tid (.count start stop 0))
  | count {i stop cntPrime : Int} (here : s.worker tid = .count i stop cntPrime) (more : i < stop) :
    WorkerMove tid (s.setWorker tid (.count (i + 1) stop (cntPrime + if isPrime i then 1 else 0)))
  | counted {i stop cntPrime : Int} (here : s.worker tid = .count i stop cntPrime) (all : ¬ i < stop) :
    WorkerMove tid (s.setWorker tid (.lock cntPrime))
  | lock {cntPrime : Int} (here : s.worker tid = .lock cntPrime) (free : s.mtxForWorkers = none) :
    WorkerMove tid { s.setWorker tid (.store cntPrime) with mtxForWorkers := some (.worker tid) }
  | store {cntPrime : Int} (here : s.worker tid = .store cntPrime) :
    WorkerMove tid ((s.setRet tid cntPrime).setWorker tid .wait)

inductive MainMove : State → Prop where
  | create {i : Nat} (here : s.main = .create i) (more : i < numThread) :
    MainMove ((s.setWorker i .lockFirst).setMain (.awaitReady i))
  | created {i : Nat} (here : s.main = .create i) (all : ¬ i < numThread) : MainMove (s.setMain .scanStart)
  | awaitReady {i : Nat} (here : s.main = .awaitReady i) (ready : s.threadRet i = -1) :
    MainMove (s.setMain (.create (i + 1)))
  | scanStart (here : s.main = .scanStart) :
    MainMove { s.setMain .checkStart with
      rangeStart := s.input.headD s.rangeStart
      input := s.input.tail }
  | noMore (here : s.main = .checkStart) (last : s.rangeStart = -1) : MainMove (s.setMain .setDone)
  | more (here : s.main = .checkStart) (more : s.rangeStart ≠ -1) : MainMove (s.setMain .scanEnd)
  | scanEnd (here : s.main = .scanEnd) :
    MainMove { s.setMain (.reset 0) with
      rangeEnd := s.input.headD s.rangeEnd
      input := s.input.tail }
  | reset {i : Nat} (here : s.main = .reset i) (more : i < numThread) :
    MainMove ((s.setRet i (-1)).setMain (.reset (i + 1)))
  | resetAll {i : Nat} (here : s.main = .reset i) (all : ¬ i < numThread) : MainMove (s.setMain .lock)
  | lock (here : s.main = .lock) (free : s.mtxForWorkers = none) :
    MainMove { s.setMain .broadcast with mtxForWorkers := some .main }
  | broadcast (here : s.main = .broadcast) : MainMove (s.broadcast.setMain .unlock)
  | unlock (here : s.main = .unlock) : MainMove { s.setMain (.check 0) with mtxForWorkers := none }
  | again {i : Nat} (here : s.main = .check i) (more : i < numThread) (missing : s.threadRet i = -1)
    (later : i ≠ 0) : MainMove (s.setMain (.check 0))
  | check {i : Nat} (here : s.main = .check i) (more : i < numThread) (stored : s.threadRet i ≠ -1) :
    MainMove (s.setMain (.check (i + 1)))
  | allDone {i : Nat} (here : s.main = .check i) (all : ¬ i < numThread) : MainMove (s.setMain (.collect 0 0))
  | collect {i : Nat} {cntPrime : Int} (here : s.main = .collect i cntPrime) (more : i < numThread) :
    MainMove (s.setMain (.collect (i + 1) (cntPrime + s.threadRet i)))
  | collected {i : Nat} {cntPrime : Int} (here : s.main = .collect i cntPrime) (all : ¬ i < numThread) :
    MainMove (s.setMain (.print cntPrime))
  | print {cntPrime : Int} (here : s.main = .print cntPrime) :
    MainMove { s.setMain .scanStart with printed := s.printed ++ [cntPrime] }
  | setDone (here : s.main = .setDone) : MainMove { s.setMain .lockLast with isDone := true }
  | lockLast (here : s.main = .lockLast) (free : s.mtxForWorkers = none) :
    MainMove { s.setMain .broadcastLast with mtxForWorkers := some .main }
  | broadcastLast (here : s.main = .broadcastLast) : MainMove (s.broadcast.setMain .unlockLast)
  | unlockLast (here : s.main = .unlockLast) :
    MainMove { s.setMain (.join 0) with mtxForWorkers := none }
  | join {i : Nat} (here : s.main = .join i) (more : i < numThread) (ended : s.worker i = .finished) :
    MainMove (s.setMain (.join (i + 1)))
  | joined {i : Nat} (here : s.main = .join i) (all : ¬ i < numThread) : MainMove (s.setMain .finished)

end

variable {numThread tid : Nat} {s s' : State}

theorem workerMove (h : s.workerStep numThread tid = some s') : WorkerMove numThread s tid s' := by
  unfold workerStep at h
  split at h
  case h_1 => cases h
  case h_2 here =>
    obtain ⟨free, ⟨⟩⟩ := Option.ite_none_right_eq_some.mp h
    exact .lockFirst here free
  case h_3 here => cases h; exact .storeReady here
  case h_4 here => cases h; exact .wait here
  case h_5 => cases h
  case h_6 here =>
    obtain ⟨free, ⟨⟩⟩ := Option.ite_none_right_eq_some.mp h
    exact .relock here free
  case h_7 here => cases h; exact .unlock here
  case h_8 here =>
    cases h
    cases hd : s.isDone with
    | true => exact .leave here hd
    | false => exact .enter here hd
  case h_9 loaded here =>
    split at h
    case h_1 bound next => cases h; exact .load here next
    case h_2 all =>
      obtain ⟨⟨start, stop⟩, piece, ⟨⟩⟩ := Option.map_eq_some_iff.mp h
      exact .split here all piece
  case h_10 i stop cntPrime here =>
    cases h
    split
    case isTrue more => exact .count here more
    case isFalse all => exact .counted here all
  case h_11 here =>
    obtain ⟨free, ⟨⟩⟩ := Option.ite_none_right_eq_some.mp h
    exact .lock here free
  case h_12 here => cases h; exact .store here
  case h_13 => cases h

theorem mainMove (h : s.mainStep numThread = some s') : MainMove numThread s s' := by
  unfold mainStep at h
  split at h
  case h_1 i here =>
    split at h
    case isTrue more => cases h; exact .create here more
    case isFalse all => cases h; exact .created here all
  case h_2 i here =>
    obtain ⟨ready, ⟨⟩⟩ := Option.ite_none_right_eq_some.mp h
    exact .awaitReady here ready
  case h_3 here => cases h; exact .scanStart here
  case h_4 here =>
    cases h
    split
    case isTrue last => exact .noMore here last
    case isFalse more => exact .more here more
  case h_5 here => cases h; exact .scanEnd here
  case h_6 i here =>
    split at h
    case isTrue more => cases h; exact .reset here more
    case isFalse all => cases h; exact .resetAll here all
  case h_7 here =>
    obtain ⟨free, ⟨⟩⟩ := Option.ite_none_right_eq_some.mp h
    exact .lock here free
  case h_8 here => cases h; exact .broadcast here
  case h_9 here => cases h; exact .unlock here
  case h_10 i here =>
    split at h
    case isTrue more =>
      split at h
      case isTrue missing =>
        obtain ⟨later, ⟨⟩⟩ := Option.ite_none_left_eq_some.mp h
        exact .again here more missing later
      case isFalse stored => cases h; exact .check here more stored
    case isFalse all => cases h; exact .allDone here all
  case h_11 i cntPrime here =>
    split at h
    case isTrue more => cases h; exact .collect here more
    case isFalse all => cases h; exact .collected here all
  case h_12 here => cases h; exact .print here
  case h_13 here => cases h; exact .setDone here
  case h_14 here =>
    obtain ⟨free, ⟨⟩⟩ := Option.ite_none_right_eq_some.mp h
    exact .lockLast here free
  case h_15 here => cases h; exact .broadcastLast here
  case h_16 here => cases h; exact .unlockLast here
  case h_17 i here =>
    split at h
    case isTrue more =>
      obtain ⟨ended, ⟨⟩⟩ := Option.ite_none_right_eq_some.mp h
      exact .join here more ended
    case isFalse all => cases h; exact .joined here all
  case h_18 => cases h

def WorkerPhase.holds : WorkerPhase → Bool
  | .storeReady | .wait | .unlock | .store _ => true
  | _ => false

def MainPhase.holds : MainPhase → Bool
  | .broadcast | .unlock | .broadcastLast | .unlockLast => true
  | _ => false

/-- The thread is in a section of its code that `mtx_for_workers` guards. -/
def State.Holds (s : State) : Thread → Prop
  | .main => s.main.holds = true
  | .worker tid => (s.worker tid).holds = true

/-- The parts of the state that a step of a worker leaves unchanged. -/
structure WorkerFrame (s s' : State) (tid : Nat) : Prop where
  worker : ∀ u, u ≠ tid → s'.worker u = s.worker u
  threadRet : ∀ u, u ≠ tid → s'.threadRet u = s.threadRet u
  range : s'.range = s.range
  isDone : s'.isDone = s.isDone
  input : s'.input = s.input
  printed : s'.printed = s.printed
  main : s'.main = s.main

theorem WorkerMove.frame (h : WorkerMove numThread s tid s') : WorkerFrame s s' tid := by
  cases h
  case storeReady =>
    exact ⟨fun u hu => Function.update_of_ne hu _ _, fun u hu => Function.update_of_ne hu _ _, rfl, rfl,
      rfl, rfl, rfl⟩
  case store =>
    exact ⟨fun u hu => Function.update_of_ne hu _ _, fun u hu => Function.update_of_ne hu _ _, rfl, rfl,
      rfl, rfl, rfl⟩
  all_goals exact ⟨fun u hu => Function.update_of_ne hu _ _, fun _ _ => rfl, rfl, rfl, rfl, rfl, rfl⟩

theorem WorkerMove.moving (h : WorkerMove numThread s tid s') :
    s.worker tid ≠ .notCreated ∧ s.worker tid ≠ .waiting ∧ s.worker tid ≠ .finished := by
  cases h <;> rw [‹s.worker tid = _›] <;>
    exact ⟨WorkerPhase.noConfusion, WorkerPhase.noConfusion, WorkerPhase.noConfusion⟩

theorem WorkerMove.use (h : WorkerMove numThread s tid s') : Use s.mtxForWorkers s'.mtxForWorkers
    (.worker tid) (s.Holds (.worker tid)) (s'.Holds (.worker tid)) := by
  cases h <;> simp only [Holds, *, WorkerPhase.holds, setWorker, setRet, Function.update_self]
  case lockFirst _ free => exact .lock rfl rfl trivial
  case relock _ free => exact .lock rfl rfl trivial
  case lock _ _ free => exact .lock rfl rfl trivial
  case wait => exact .unlock trivial rfl Bool.false_ne_true
  case unlock => exact .unlock trivial rfl Bool.false_ne_true
  all_goals exact .keep rfl Iff.rfl

theorem MainMove.use (h : MainMove numThread s s') :
    Use s.mtxForWorkers s'.mtxForWorkers .main (s.Holds .main) (s'.Holds .main) := by
  cases h <;> simp only [Holds, *, MainPhase.holds, setWorker, setRet, setMain, State.broadcast]
  case lock => exact .lock rfl rfl trivial
  case lockLast => exact .lock rfl rfl trivial
  case unlock => exact .unlock trivial rfl Bool.false_ne_true
  case unlockLast => exact .unlock trivial rfl Bool.false_ne_true
  all_goals exact .keep rfl Iff.rfl

/-- A step of the main thread creates a worker, wakes up those that wait, or moves none. -/
theorem MainMove.worker (h : MainMove numThread s s') (u : Nat) :
    s'.worker u = s.worker u ∨ (s.worker u = .waiting ∧ s'.worker u = .relock) ∨
      (s.main = .create u ∧ u < numThread ∧ s'.worker u = .lockFirst) := by
  cases h
  case create i here more =>
    by_cases hu : u = i
    · subst hu
      exact .inr (.inr ⟨here, more, Function.update_self ..⟩)
    · exact .inl (Function.update_of_ne hu _ _)
  case broadcast =>
    by_cases hu : s.worker u = .waiting
    · exact .inr (.inl ⟨hu, if_pos hu⟩)
    · exact .inl (if_neg hu)
  case broadcastLast =>
    by_cases hu : s.worker u = .waiting
    · exact .inr (.inl ⟨hu, if_pos hu⟩)
    · exact .inl (if_neg hu)
  all_goals exact .inl rfl

abbrev Guarded (s : State) : Prop := Guards s.mtxForWorkers s.Holds

theorem Guarded.new {input : List Int} : Guarded (.new input) := by
  intro t
  cases t <;> exact iff_of_false (Option.some_ne_none _).symm Bool.false_ne_true

theorem Guarded.step_main (hs : Guarded s) (h : MainMove numThread s s')
    (fresh : ∀ i, s.main = .create i → s.worker i = .notCreated) : Guarded s' := by
  refine Guards.step hs (fun u hu => ?_) h.use
  cases u with
  | main => exact absurd rfl hu
  | worker u =>
    rw [Holds, Holds]
    rcases h.worker u with hw | ⟨hw, hw'⟩ | ⟨hc, -, hw'⟩
    · rw [hw]
    · rw [hw, hw']
      rfl
    · rw [hw', fresh u hc]
      rfl

theorem Guarded.step_worker (hs : Guarded s) (h : WorkerMove numThread s tid s') : Guarded s' := by
  refine Guards.step hs (fun u hu => ?_) h.use
  cases u with
  | main => rw [Holds, Holds, h.frame.main]
  | worker u => rw [Holds, Holds, h.frame.worker u fun he => hu (he ▸ rfl)]

end PrimeSpin
