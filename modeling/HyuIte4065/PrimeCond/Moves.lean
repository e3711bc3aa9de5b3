import HyuIte4065.PrimeCond.Steps
import HyuIte4065.Library.Transition

/-!
# The moves of the threads

Each step of a worker and of the main thread by name, what a step leaves unchanged, and who
holds the two mutexes.
-/
namespace PrimeCond

open Mutex State

section
variable (numThread : Nat) (s : State)

inductive WorkerMove (tid : Nat) : State → Prop where
  | lockFirst (here : s.worker tid = .lockFirst) (free : s.mtxForWorkers = none) :
    WorkerMove tid { s.setWorker tid .storeReady with mtxForWorkers := some (.worker tid) }
  | storeReady (here : s.worker tid = .storeReady) :
    WorkerMove tid ((s.setRet tid (-1)).setWorker tid .wait)
  | wait (here : s.worker tid = .wait) :
    WorkerMove tid { s.setWorker tid .waiting with mtxForWorkers := none }
  | relock (here : s.worker tid = .relock) (free : s.mtxForWorkers = none) :
    WorkerMove tid { s.setWorker tid .unlock with mtxForWorkers := some (.worker tid) }
  | unlock (here : s.worker tid = .unlock) :
    WorkerMove tid { s.setWorker tid .checkDone with mtxForWorkers := none }
  | leave (here : s.worker tid = .checkDone) (ended : s.isDone = true) :
    WorkerMove tid (s.setWorker tid .finished)
  | enter (here : s.worker tid = .checkDone) (goes : s.isDone = false) :
    WorkerMove tid (s.setWorker tid (.split []))
  | load {loaded : List Int} {bound : Bound} (here : s.worker tid = .split loaded)
    (next : (loads numThread tid)[loaded.length]? = some bound) :
    WorkerMove tid (s.setWorker tid (.split (loaded ++ [s.bound bound])))
  | split {loaded : List Int} {start stop : Int} (here : s.worker tid = .split loaded)
    (all : (loads numThread tid)[loaded.length]? = none)
    (piece : PrimeCond.split numThread tid loaded = some (start, stop)) :
    WorkerMove tid (s.setWorker tid (.count start stop 0))
  | count {i stop cntPrime : Int} (here : s.worker tid = .count i stop cntPrime) (more : i < stop) :
    WorkerMove tid (s.setWorker tid (.count (i + 1) stop (cntPrime + if isPrime i then 1 else 0)))
  | counted {i stop cntPrime : Int} (here : s.worker tid = .count i stop cntPrime) (all : ¬ i < stop) :
    WorkerMove tid (s.setWorker tid (.store cntPrime))
  | store {cntPrime : Int} (here : s.worker tid = .store cntPrime) :
    WorkerMove tid { (s.setRet tid cntPrime).setWorker tid .lock with
      stored := Function.update s.stored tid (s.stored tid ++ [cntPrime]) }
  | lock (here : s.worker tid = .lock) (free : s.mtxForWorkers = none) :
    WorkerMove tid { s.setWorker tid .loadDone with mtxForWorkers := some (.worker tid) }
  | loadDone (here : s.worker tid = .loadDone) :
    WorkerMove tid (s.setWorker tid (.storeDone s.done))
  | storeDone {finishOrder : Nat} (here : s.worker tid = .storeDone finishOrder) :
    WorkerMove tid { s.setWorker tid (.checkOrder finishOrder) with done := finishOrder + 1 }
  | last {finishOrder : Nat} (here : s.worker tid = .checkOrder finishOrder)
    (order : finishOrder = numThread - 1) : WorkerMove tid (s.setWorker tid .lockMain)
  | notLast {finishOrder : Nat} (here : s.worker tid = .checkOrder finishOrder)
    (order : finishOrder ≠ numThread - 1) : WorkerMove tid (s.setWorker tid .wait)
  | lockMain (here : s.worker tid = .lockMain) (free : s.mtxForMain = none) :
    WorkerMove tid { s.setWorker tid .signal with mtxForMain := some (.worker tid) }
  | signal (here : s.worker tid = .signal) (waits : s.main = .waiting) :
    WorkerMove tid ((s.setMain .relockMain).setWorker tid .unlockMain)
  | signalNobody (here : s.worker tid = .signal) (waits : s.main ≠ .waiting) :
    WorkerMove tid (s.setWorker tid .unlockMain)
  | unlockMain (here : s.worker tid = .unlockMain) :
    WorkerMove tid { s.setWorker tid .wait with mtxForMain := none }

inductive MainMove : State → Prop where
  | create {i : Nat} (here : s.main = .create i) (more : i < numThread) :
    MainMove ((s.setWorker i .lockFirst).setMain (.awaitReady i))
  | created {i : Nat} (here : s.main = .create i) (all : ¬ i < numThread) : MainMove (s.setMain .scanStart)
  | awaitReady {i : Nat} (here : s.main = .awaitReady i) (ready : s.threadRet i = -1) :
    MainMove (s.setMain (.create (i + 1)))
  | scanStart (here : s.main = .scanStart) :
    MainMove { s.setMain .checkStart with
      rangeStart := s.input.headD s.rangeStart
      input := s.input.tail }
  | noMore (here : s.main = .checkStart) (last : s.rangeStart = -1) : MainMove (s.setMain .setDone)
  | more (here : s.main = .checkStart) (more : s.rangeStart ≠ -1) : MainMove (s.setMain .scanEnd)
  | scanEnd (here : s.main = .scanEnd) :
    MainMove { s.setMain (.reset 0) with
      rangeEnd := s.input.headD s.rangeEnd
      input := s.input.tail }
  | reset {i : Nat} (here : s.main = .reset i) (more : i < numThread) :
    MainMove ((s.setRet i (-1)).setMain (.reset (i + 1)))
  | resetAll {i : Nat} (here : s.main = .reset i) (all : ¬ i < numThread) : MainMove (s.setMain .zeroDone)
  | zeroDone (here : s.main = .zeroDone) : MainMove { s.setMain .lock with done := 0 }
  | lock (here : s.main = .lock) (free : s.mtxForWorkers = none) :
    MainMove { s.setMain .broadcast with mtxForWorkers := some .main }
  | broadcast (here : s.main = .broadcast) :
    MainMove { s.broadcast.setMain .unlock with rounds := s.rounds ++ [(s.rangeStart, s.rangeEnd)] }
  | unlock (here : s.main = .unlock) : MainMove { s.setMain .lockMain with mtxForWorkers := none }
  | lockMain (here : s.main = .lockMain) (free : s.mtxForMain = none) :
    MainMove { s.setMain .testDone with mtxForMain := some .main }
  | unfinished (here : s.main = .testDone) (some : s.done < numThread) : MainMove (s.setMain .wait)
  | allDone (here : s.main = .testDone) (all : ¬ s.done < numThread) : MainMove (s.setMain .unlockMain)
  | wait (here : s.main = .wait) : MainMove { s.setMain .waiting with mtxForMain := none }
  | relockMain (here : s.main = .relockMain) (free : s.mtxForMain = none) :
    MainMove { s.setMain .unlockMain with mtxForMain := some .main }
  | unlockMain (here : s.main = .unlockMain) :
    MainMove { s.setMain (.collect 0 0) with mtxForMain := none }
  | collect {i : Nat} {cntPrime : Int} (here : s.main = .collect i cntPrime) (more : i < numThread) :
    MainMove (s.setMain (.collect (i + 1) (cntPrime + s.threadRet i)))
  | collected {i : Nat} {cntPrime : Int} (here : s.main = .collect i cntPrime) (all : ¬ i < numThread) :
    MainMove (s.setMain (.print cntPrime))
  | print {cntPrime : Int} (here : s.main = .print cntPrime) :
    MainMove { s.setMain .clearDone with printed := s.printed ++ [cntPrime] }
  | clearDone (here : s.main = .clearDone) : MainMove { s.setMain .scanStart with done := 0 }
  | setDone (here : s.main = .setDone) : MainMove { s.setMain .lockLast with isDone := true }
  | lockLast (here : s.main = .lockLast) (free : s.mtxForWorkers = none) :
    MainMove { s.setMain .broadcastLast with mtxForWorkers := some .main }
  | broadcastLast (here : s.main = .broadcastLast) : MainMove (s.broadcast.setMain .unlockLast)
  | unlockLast (here : s.main = .unlockLast) :
    MainMove { s.setMain (.join 0) with mtxForWorkers := none }
  | join {i : Nat} (here : s.main = .join i) (more : i < numThread) (ended : s.worker i = .finished) :
    MainMove (s.setMain (.join (i + 1)))
  | joined {i : Nat} (here : s.main = .join i) (all : ¬ i < numThread) : MainMove (s.setMain .finished)

end

variable {numThread tid : Nat} {s s' : State}

theorem workerMove (h : s.workerStep numThread tid = some s') : WorkerMove numThread s tid s' := by
  unfold workerStep at h
  split at h
  case h_1 => cases h
  case h_2 here =>
    obtain ⟨free, ⟨⟩⟩ := Option.ite_none_right_eq_some.mp h
    exact .lockFirst here free
  case h_3 here => cases h; exact .storeReady here
  case h_4 here => cases h; exact .wait here
  case h_5 => cases h
  case h_6 here =>
    obtain ⟨free, ⟨⟩⟩ := Option.ite_none_right_eq_some.mp h
    exact .relock here free
  case h_7 here => cases h; exact .unlock here
  case h_8 here =>
    cases h
    cases hd : s.isDone with
    | true => exact .leave here hd
    | false => exact .enter here hd
  case h_9 loaded here =>
    split at h
    case h_1 bound next => cases h; exact .load here next
    case h_2 all =>
      obtain ⟨⟨start, stop⟩, piece, ⟨⟩⟩ := Option.map_eq_some_iff.mp h
      exact .split here all piece
  case h_10 i stop cntPrime here =>
    cases h
    split
    case isTrue more => exact .count here more
    case isFalse all => exact .counted here all
  case h_11 here => cases h; exact .store here
  case h_12 here =>
    obtain ⟨free, ⟨⟩⟩ := Option.ite_none_right_eq_some.mp h
    exact .lock here free
  case h_13 here => cases h; exact .loadDone here
  case h_14 here => cases h; exact .storeDone here
  case h_15 finishOrder here =>
    cases h
    split
    case isTrue order => exact .last here order
    case isFalse order => exact .notLast here order
  case h_16 here =>
    obtain ⟨free, ⟨⟩⟩ := Option.ite_none_right_eq_some.mp h
    exact .lockMain here free
  case h_17 here =>
    cases h
    unfold State.signal
    split
    case isTrue waits => exact .signal here waits
    case isFalse waits => exact .signalNobody here waits
  case h_18 here => cases h; exact .unlockMain here
  case h_19 => cases h

theorem mainMove (h : s.mainStep numThread = some s') : MainMove numThread s s' := by
  unfold mainStep at h
  split at h
  case h_1 i here =>
    split at h
    case isTrue more => cases h; exact .create here more
    case isFalse all => cases h; exact .created here all
  case h_2 i here =>
    obtain ⟨ready, ⟨⟩⟩ := Option.ite_none_right_eq_some.mp h
    exact .awaitReady here ready
  case h_3 here => cases h; exact .scanStart here
  case h_4 here =>
    cases h
    split
    case isTrue last => exact .noMore here last
    case isFalse more => exact .more here more
  case h_5 here => cases h; exact .scanEnd here
  case h_6 i here =>
    split at h
    case isTrue more => cases h; exact .reset here more
    case isFalse all => cases h; exact .resetAll here all
  case h_7 here => cases h; exact .zeroDone here
  case h_8 here =>
    obtain ⟨free, ⟨⟩⟩ := Option.ite_none_right_eq_some.mp h
    exact .lock here free
  case h_9 here => cases h; exact .broadcast here
  case h_10 here => cases h; exact .unlock here
  case h_11 here =>
    obtain ⟨free, ⟨⟩⟩ := Option.ite_none_right_eq_some.mp h
    exact .lockMain here free
  case h_12 here =>
    cases h
    split
    case isTrue some => exact .unfinished here some
    case isFalse all => exact .allDone here all
  case h_13 here => cases h; exact .wait here
  case h_14 => cases h
  case h_15 here =>
    obtain ⟨free, ⟨⟩⟩ := Option.ite_none_right_eq_some.mp h
    exact .relockMain here free
  case h_16 here => cases h; exact .unlockMain here
  case h_17 i cntPrime here =>
    split at h
    case isTrue more => cases h; exact .collect here more
    case isFalse all => cases h; exact .collected here all
  case h_18 here => cases h; exact .print here
  case h_19 here => cases h; exact .clearDone here
  case h_20 here => cases h; exact .setDone here
  case h_21 here =>
    obtain ⟨free, ⟨⟩⟩ := Option.ite_none_right_eq_some.mp h
    exact .lockLast here free
  case h_22 here => cases h; exact .broadcastLast here
  case h_23 here => cases h; exact .unlockLast here
  case h_24 i here =>
    split at h
    case isTrue more =>
      obtain ⟨ended, ⟨⟩⟩ := Option.ite_none_right_eq_some.mp h
      exact .join here more ended
    case isFalse all => cases h; exact .joined here all
  case h_25 => cases h

def WorkerPhase.holdsWorkers : WorkerPhase → Bool
  | .storeReady | .wait | .unlock | .loadDone | .storeDone _ | .checkOrder _ | .lockMain | .signal
  | .unlockMain => true
  | _ => false

def WorkerPhase.holdsMain : WorkerPhase → Bool
  | .signal | .unlockMain => true
  | _ => false

def MainPhase.holdsWorkers : MainPhase → Bool
  | .broadcast | .unlock | .broadcastLast | .unlockLast => true
  | _ => false

def MainPhase.holdsMain : MainPhase → Bool
  | .testDone | .wait | .unlockMain => true
  | _ => false

/-- The thread is in a section of its code that `mtx_for_workers` guards. -/
def State.HoldsWorkers (s : State) : Thread → Prop
  | .main => s.main.holdsWorkers = true
  | .worker tid => (s.worker tid).holdsWorkers = true

def State.HoldsMain (s : State) : Thread → Prop
  | .main => s.main.holdsMain = true
  | .worker tid => (s.worker tid).holdsMain = true

/-- The parts of the state that a step of a worker leaves unchanged. -/
structure WorkerFrame (s s' : State) (tid : Nat) : Prop where
  worker : ∀ u, u ≠ tid → s'.worker u = s.worker u
  threadRet : ∀ u, u ≠ tid → s'.threadRet u = s.threadRet u
  stored : ∀ u, u ≠ tid → s'.stored u = s.stored u
  rangeStart : s'.rangeStart = s.rangeStart
  rangeEnd : s'.rangeEnd = s.rangeEnd
  isDone : s'.isDone = s.isDone
  rounds : s'.rounds = s.rounds
  input : s'.input = s.input
  printed : s'.printed = s.printed
  main : s'.main = s.main ∨ s.worker tid = .signal ∧ s.main = .waiting ∧ s'.main = .relockMain

theorem WorkerMove.frame (h : WorkerMove numThread s tid s') : WorkerFrame s s' tid := by
  cases h
  case signal here waits =>
    exact ⟨fun u hu => Function.update_of_ne hu _ _, fun _ _ => rfl, fun _ _ => rfl, rfl, rfl, rfl, rfl, rfl,
      rfl, .inr ⟨here, waits, rfl⟩⟩
  case storeReady => 
    exact ⟨fun u hu => Function.update_of_ne hu _ _, fun u hu => Function.update_of_ne hu _ _, fun _ _ => rfl,
      rfl, rfl, rfl, rfl, rfl, rfl, .inl rfl⟩
  case store =>
    exact ⟨fun u hu => Function.update_of_ne hu _ _, fun u hu => Function.update_of_ne hu _ _,
      fun u hu => Function.update_of_ne hu _ _, rfl, rfl, rfl, rfl, rfl, rfl, .inl rfl⟩
  all_goals exact ⟨fun u hu => Function.update_of_ne hu _ _, fun _ _ => rfl, fun _ _ => rfl, rfl, rfl, rfl,
    rfl, rfl, rfl, .inl rfl⟩

theorem WorkerMove.useWorkers (h : WorkerMove numThread s tid s') : Use s.mtxForWorkers s'.mtxForWorkers
    (.worker tid) (s.HoldsWorkers (.worker tid)) (s'.HoldsWorkers (.worker tid)) := by
  cases h <;> simp only [HoldsWorkers, *, WorkerPhase.holdsWorkers, setWorker, setRet, setMain, Function.update_self]
  case lockFirst _ free => exact .lock rfl rfl trivial
  case relock _ free => exact .lock rfl rfl trivial
  case lock _ free => exact .lock rfl rfl trivial
  case wait => exact .unlock trivial rfl nofun
  case unlock => exact .unlock trivial rfl nofun
  all_goals exact .keep rfl Iff.rfl

theorem WorkerMove.useMain (h : WorkerMove numThread s tid s') : Use s.mtxForMain s'.mtxForMain
    (.worker tid) (s.HoldsMain (.worker tid)) (s'.HoldsMain (.worker tid)) := by
  cases h <;> simp only [HoldsMain, *, WorkerPhase.holdsMain, setWorker, setRet, setMain, Function.update_self]
  case lockMain _ free => exact .lock rfl rfl trivial
  case unlockMain => exact .unlock trivial rfl nofun
  all_goals exact .keep rfl Iff.rfl

theorem MainMove.useWorkers (h : MainMove numThread s s') :
    Use s.mtxForWorkers s'.mtxForWorkers .main (s.HoldsWorkers .main) (s'.HoldsWorkers .main) := by
  cases h <;> simp only [HoldsWorkers, *, MainPhase.holdsWorkers, setWorker, setRet, setMain, State.broadcast]
  case lock => exact .lock rfl rfl trivial
  case lockLast => exact .lock rfl rfl trivial
  case unlock => exact .unlock trivial rfl nofun
  case unlockLast => exact .unlock trivial rfl nofun
  all_goals exact .keep rfl Iff.rfl

theorem MainMove.useMain (h : MainMove numThread s s') :
    Use s.mtxForMain s'.mtxForMain .main (s.HoldsMain .main) (s'.HoldsMain .main) := by
  cases h <;> simp only [HoldsMain, *, MainPhase.holdsMain, setWorker, setRet, setMain, State.broadcast]
  case lockMain => exact .lock rfl rfl trivial
  case relockMain => exact .lock rfl rfl trivial
  case wait => exact .unlock trivial rfl nofun
  case unlockMain => exact .unlock trivial rfl nofun
  all_goals exact .keep rfl Iff.rfl

/-- A step of the main thread creates a worker, wakes up those that wait, or moves none. -/
theorem MainMove.worker (h : MainMove numThread s s') (u : Nat) :
    s'.worker u = s.worker u ∨ (s.worker u = .waiting ∧ s'.worker u = .relock) ∨
      (s.main = .create u ∧ u < numThread ∧ s'.worker u = .lockFirst) := by
  cases h
  case create i here more =>
    by_cases hu : u = i
    · subst hu
      exact .inr (.inr ⟨here, more, Function.update_self ..⟩)
    · exact .inl (Function.update_of_ne hu _ _)
  case broadcast =>
    by_cases hu : s.worker u = .waiting
    · exact .inr (.inl ⟨hu, if_pos hu⟩)
    · exact .inl (if_neg hu)
  case broadcastLast =>
    by_cases hu : s.worker u = .waiting
    · exact .inr (.inl ⟨hu, if_pos hu⟩)
    · exact .inl (if_neg hu)
  all_goals exact .inl rfl

/-- A property of phases that neither waking up nor being created changes. -/
theorem MainMove.flag (h : MainMove numThread s s') (flag : WorkerPhase → Bool)
    (fresh : ∀ i, s.main = .create i → s.worker i = .notCreated)
    (woken : flag .relock = flag .waiting) (created : flag .lockFirst = flag .notCreated) (u : Nat) :
    flag (s'.worker u) = flag (s.worker u) := by
  rcases h.worker u with hw | ⟨hw, hw'⟩ | ⟨hc, -, hw'⟩
  · rw [hw]
  · rw [hw, hw', woken]
  · rw [hw', fresh u hc, created]

/-- A property of phases of the main thread that being signalled does not change. -/
theorem WorkerFrame.flag (h : WorkerFrame s s' tid) (flag : MainPhase → Bool)
    (signalled : flag .relockMain = flag .waiting) : flag s'.main = flag s.main := by
  rcases h.main with hm | ⟨-, hm, hm'⟩
  · rw [hm]
  · rw [hm, hm', signalled]

/-- The mutexes belong to the threads that are in the sections they guard. -/
structure Locks (s : State) : Prop where
  workers : Guards s.mtxForWorkers s.HoldsWorkers
  main : Guards s.mtxForMain s.HoldsMain

theorem Locks.new {input : List Int} : Locks (.new input) := by
  constructor <;>
  · intro t
    cases t <;> exact ⟨nofun, nofun⟩

theorem Locks.step_main (hs : Locks s) (h : MainMove numThread s s')
    (fresh : ∀ i, s.main = .create i → s.worker i = .notCreated) : Locks s' := by
  constructor
  · refine hs.workers.step (fun u hu => ?_) h.useWorkers
    cases u with
    | main => exact absurd rfl hu
    | worker u => rw [HoldsWorkers, HoldsWorkers, h.flag WorkerPhase.holdsWorkers fresh rfl rfl]
  · refine hs.main.step (fun u hu => ?_) h.useMain
    cases u with
    | main => exact absurd rfl hu
    | worker u => rw [HoldsMain, HoldsMain, h.flag WorkerPhase.holdsMain fresh rfl rfl]

theorem Locks.step_worker (hs : Locks s) (h : WorkerMove numThread s tid s') : Locks s' := by
  constructor
  · refine hs.workers.step (fun u hu => ?_) h.useWorkers
    cases u with
    | main => rw [HoldsWorkers, HoldsWorkers, h.frame.flag MainPhase.holdsWorkers rfl]
    | worker u => rw [HoldsWorkers, HoldsWorkers, h.frame.worker u fun he => hu (he ▸ rfl)]
  · refine hs.main.step (fun u hu => ?_) h.useMain
    cases u with
    | main => rw [HoldsMain, HoldsMain, h.frame.flag MainPhase.holdsMain rfl]
    | worker u => rw [HoldsMain, HoldsMain, h.frame.worker u fun he => hu (he ▸ rfl)]

end PrimeCond
