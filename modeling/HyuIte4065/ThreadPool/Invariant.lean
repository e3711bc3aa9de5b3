import HyuIte4065.ThreadPool.Moves
import Mathlib.Algebra.BigOperators.Group.Finset.Basic

/-!
# What holds in every state of the pool

A worker only ever goes forward, apart from the turns of its loop. How far each worker has
come follows from where the client is: the client does not go on before the new worker
holds the mutex or waits, and it owns the mutex when it broadcasts.
-/
namespace ThreadPool

open Mutex State Transition

/-- How far the worker is in `threadFunc`. -/
def WorkerPhase.rank : WorkerPhase → Nat
  | .notCreated => 0
  | .lock => 1
  | .setSleeping => 2
  | .wait => 3
  | .waiting => 4
  | .relock => 5
  | .unlock => 6
  | .testTerminate | .work | .countUp => 7
  | .deleteArg => 8
  | .finished => 9

/-- The `sleeping` flag in the argument of the worker. -/
def WorkerPhase.arg : WorkerPhase → Option Bool
  | .notCreated | .finished => none
  | .lock | .setSleeping => some false
  | _ => some true

namespace MainPhase

/-- The workers before this one have been created. -/
def created (numThread : Nat) : MainPhase → Nat
  | .create tid => tid
  | .awaitSleeping tid => tid + 1
  | _ => numThread

/-- The workers before this one have been seen asleep. -/
def awaited (numThread : Nat) : MainPhase → Nat
  | .create tid | .awaitSleeping tid => tid
  | _ => numThread

/-- The workers before this one have been joined. -/
def joined (c : Config) : MainPhase → Nat
  | .join tid | .joinLate tid => tid
  | .returned | .destroyed => c.numThread
  | .setTerminate => match c.project with | .two => 0 | .three => c.numThread
  | .testTerminate => if c.runs then c.numThread else 0
  | _ => 0

/-- The counts of the workers before this one have been added up. -/
def summed (c : Config) : MainPhase → Nat
  | .join tid => match c.project with | .two => tid | .three => 0
  | .returned => match c.project with | .two => c.numThread | .three => 0
  | .testTerminate | .destroyed =>
    match c.project with | .two => if c.runs then c.numThread else 0 | .three => 0
  | _ => 0

/-- The client has locked the mutex, broadcast and unlocked it. -/
def released (c : Config) : MainPhase → Bool
  | .unlock | .setTerminate | .join _ | .returned => true
  | .testTerminate | .destroyed => c.runs
  | _ => false

def terminated (c : Config) : MainPhase → Bool
  | .join _ => match c.project with | .two => true | .three => false
  | .returned | .broadcastLate | .joinLate _ | .destroyed => true
  | .testTerminate => c.runs
  | _ => false

/-- Some broadcast has happened. -/
def woken (c : Config) : MainPhase → Bool
  | .joinLate _ | .destroyed => true
  | ph => ph.released c

/-- The phases that need the client to run the pool, and those that need that it does not. -/
def fits (runs : Bool) : MainPhase → Prop
  | .lock | .broadcast | .unlock | .setTerminate | .join _ | .returned => runs = true
  | .setTerminateLate | .broadcastLate | .joinLate _ => runs = false
  | .corrupt => False
  | _ => True

end MainPhase

/-- No worker can delete its argument before the client has seen it asleep. -/
def Config.Safe (c : Config) : Prop := c.project = .two ∨ c.spurious = false

structure Inv (c : Config) (s : State) : Prop where
  guards : Guards s.mtxForWorkers s.Holds
  fits : s.main.fits c.runs
  created_le : s.main.created c.numThread ≤ c.numThread
  joined_le : s.main.joined c ≤ c.numThread
  terminateFlag : s.terminateFlag = s.main.terminated c
  threadArg : ∀ w, s.threadArg w = (s.worker w).arg
  created : ∀ w, s.worker w = .notCreated ↔ s.main.created c.numThread ≤ w
  awaited : ∀ w < s.main.awaited c.numThread, 3 ≤ (s.worker w).rank
  released : s.main.released c = true → ∀ w < c.numThread, 5 ≤ (s.worker w).rank
  joined : ∀ w < s.main.joined c, s.worker w = .finished
  goesOn : c.project = .two → s.terminateFlag = false → ∀ w, (s.worker w).rank ≤ 7
  calm : c.spurious = false → s.main.woken c = false → ∀ w, (s.worker w).rank ≤ 4
  count : c.project = .two → ∀ w,
    s.localCount w + (if s.worker w = .countUp then 1 else 0) = s.works w
  checkSum : s.checkSum = ∑ w ∈ Finset.range (s.main.summed c), s.localCount w

variable {c : Config} {s s' : State} {tid : Nat}

theorem finished_of_rank {ph : WorkerPhase} (h : 9 ≤ ph.rank) : ph = .finished := by
  cases ph <;> first | rfl | exact absurd h (by decide)

theorem rank_afterWork (p : Project) (res : Bool) : 7 ≤ (afterWork p res).rank := by
  cases p <;> cases res <;> decide

theorem arg_afterWork (p : Project) (res : Bool) : (afterWork p res).arg = some true := by
  cases p <;> cases res <;> rfl

/-- A worker goes forward, and it is neither new nor at its end. -/
theorem WorkerMove.rank (h : WorkerMove c s tid s') : 1 ≤ (s.worker tid).rank ∧
    (s.worker tid).rank ≤ 8 ∧ (s.worker tid).rank ≤ (s'.worker tid).rank := by
  cases h <;> simp only [*, setWorker, setArg, Function.update_self] <;>
    first
    | exact ⟨by decide, by decide, by decide⟩
    | exact ⟨by decide, by decide, rank_afterWork _ _⟩

theorem WorkerMove.rank_le (h : WorkerMove c s tid s') (w : Nat) :
    (s.worker w).rank ≤ (s'.worker w).rank := by
  by_cases hw : w = tid
  · rw [hw]
    exact h.rank.2.2
  · rw [h.frame.worker w hw]

theorem WorkerMove.notCreated_iff (h : WorkerMove c s tid s') (w : Nat) :
    s'.worker w = .notCreated ↔ s.worker w = .notCreated := by
  by_cases hw : w = tid
  · subst hw
    have hrank := h.rank
    constructor
    · intro hn
      rw [hn] at hrank
      have h0 : WorkerPhase.notCreated.rank = 0 := rfl
      omega
    · intro hn
      rw [hn] at hrank
      exact absurd hrank.1 (by decide)
  · rw [h.frame.worker w hw]

theorem WorkerMove.finished (h : WorkerMove c s tid s') {w : Nat} (hw : s.worker w = .finished) :
    s'.worker w = .finished := by
  have hrank := h.rank_le w
  rw [hw] at hrank
  exact finished_of_rank hrank

theorem WorkerMove.ne_of_finished (h : WorkerMove c s tid s') {w : Nat} (hw : s.worker w = .finished) :
    w ≠ tid := by
  rintro rfl
  have hrank := h.rank.2.1
  rw [hw] at hrank
  exact absurd hrank (by decide)

theorem WorkerMove.arg (h : WorkerMove c s tid s') (hs : s.threadArg tid = (s.worker tid).arg) :
    s'.threadArg tid = (s'.worker tid).arg := by
  cases h <;> simp_all [setWorker, setArg, WorkerPhase.arg]
  case workReturns res _ => exact (arg_afterWork c.project res).symm

/-- Past the wait of a calm pool nobody goes before a broadcast. -/
theorem WorkerMove.calm (h : WorkerMove c s tid s') (hc : c.spurious = false)
    (hrank : (s.worker tid).rank ≤ 4) : (s'.worker tid).rank ≤ 4 := by
  cases h
  case wakeUp _ hspurious => rw [hc] at hspurious; cases hspurious
  all_goals
    rw [‹s.worker tid = _›] at hrank
    first
    | exact absurd hrank (by decide)
    | simp [setWorker, setArg, WorkerPhase.rank]

/-- In project 2 a worker leaves its loop only when the flag is set. -/
theorem WorkerMove.goesOn (h : WorkerMove c s tid s') (hp : c.project = .two)
    (hflag : s.terminateFlag = false) (hrank : (s.worker tid).rank ≤ 7) : (s'.worker tid).rank ≤ 7 := by
  cases h
  case leave _ hset => rw [hflag] at hset; cases hset
  all_goals
    rw [‹s.worker tid = _›] at hrank
    first
    | exact absurd hrank (by decide)
    | simp [setWorker, setArg, WorkerPhase.rank, hp, afterWork]

theorem WorkerMove.count (h : WorkerMove c s tid s') (hp : c.project = .two)
    (hs : s.localCount tid + (if s.worker tid = .countUp then 1 else 0) = s.works tid) :
    s'.localCount tid + (if s'.worker tid = .countUp then 1 else 0) = s'.works tid := by
  cases h <;> simp_all [setWorker, setArg, afterWork]

theorem Inv.step_worker (hi : Inv c s) (h : WorkerMove c s tid s') : Inv c s' := by
  have hframe := h.frame
  refine ⟨Guards.step_worker hi.guards h, ?_, ?_, ?_, ?_, fun w => ?_, fun w => ?_, fun w hw => ?_,
    fun hr w hw => ?_, fun w hw => ?_, fun hp hf w => ?_, fun hc hw w => ?_, fun hp w => ?_, ?_⟩
  · rw [hframe.main]
    exact hi.fits
  · rw [hframe.main]
    exact hi.created_le
  · rw [hframe.main]
    exact hi.joined_le
  · rw [hframe.main, hframe.terminateFlag]
    exact hi.terminateFlag
  · by_cases hw : w = tid
    · subst hw
      exact h.arg (hi.threadArg w)
    · rw [hframe.worker w hw, hframe.threadArg w hw]
      exact hi.threadArg w
  · rw [hframe.main, h.notCreated_iff]
    exact hi.created w
  · rw [hframe.main] at hw
    exact (hi.awaited w hw).trans (h.rank_le w)
  · rw [hframe.main] at hr
    exact (hi.released hr w hw).trans (h.rank_le w)
  · rw [hframe.main] at hw
    exact h.finished (hi.joined w hw)
  · rw [hframe.terminateFlag] at hf
    by_cases hwt : w = tid
    · rw [hwt]
      exact h.goesOn hp hf (hi.goesOn hp hf tid)
    · rw [hframe.worker w hwt]
      exact hi.goesOn hp hf w
  · rw [hframe.main] at hw
    by_cases hwt : w = tid
    · rw [hwt]
      exact h.calm hc (hi.calm hc hw tid)
    · rw [hframe.worker w hwt]
      exact hi.calm hc hw w
  · by_cases hwt : w = tid
    · rw [hwt]
      exact h.count hp (hi.count hp tid)
    · rw [hframe.worker w hwt, hframe.localCount w hwt, hframe.works w hwt]
      exact hi.count hp w
  · rw [hframe.main, hframe.checkSum, hi.checkSum]
    refine Finset.sum_congr rfl fun w hw => (hframe.localCount w (h.ne_of_finished ?_)).symm
    -- only workers that have been joined are summed up
    have hle : s.main.summed c ≤ s.main.joined c := by
      unfold MainPhase.summed MainPhase.joined
      cases s.main <;> cases c.project <;> cases c.runs <;> simp
    exact hi.joined w (Nat.lt_of_lt_of_le (Finset.mem_range.mp hw) hle)

theorem Inv.fresh (hi : Inv c s) (u : Nat) (hu : s.main = .create u) : s.worker u = .notCreated := by
  refine (hi.created u).mpr ?_
  rw [hu]
  exact Nat.le_refl u

theorem MainMove.rank_le (h : MainMove c s s') (fresh : ∀ u, s.main = .create u → s.worker u = .notCreated)
    (w : Nat) : (s.worker w).rank ≤ (s'.worker w).rank := by
  rcases h.worker w with hw | ⟨hw, hw'⟩ | ⟨hc, -, hw'⟩
  · rw [hw]
  · rw [hw, hw']
    decide
  · rw [hw', fresh w hc]
    decide

/-- When the client broadcasts with the mutex in hand, every worker waits or has woken up. -/
theorem Inv.woken_of_holds (hi : Inv c s) (hh : s.main.holds = true) {w : Nat} (hw : w < c.numThread) :
    s.worker w = .waiting ∨ 5 ≤ (s.worker w).rank := by
  have hawaited : 3 ≤ (s.worker w).rank := by
    refine hi.awaited w ?_
    cases hm : s.main <;> rw [hm] at hh <;> first | exact hw | cases hh
  have hnot : (s.worker w).holds = false := by
    by_contra hholds
    have hthread : Thread.worker w = .main :=
      hi.guards.unique (by simpa [Holds] using hholds) (by rw [Holds, hh])
    cases hthread
  cases hph : s.worker w <;> rw [hph] at hawaited hnot <;>
    first
    | exact .inl rfl
    | exact .inr (by decide)
    | exact absurd hawaited (by decide)
    | cases hnot

theorem Inv.arg_finished (hi : Inv c s) (hsafe : c.Safe) (hm : s.main = .awaitSleeping tid) :
    s.threadArg tid ≠ none := by
  have hcreated : s.worker tid ≠ .notCreated := by
    rw [Ne, hi.created, hm]
    exact Nat.not_succ_le_self tid
  have hrank : (s.worker tid).rank ≤ 7 := by
    rcases hsafe with hp | hs
    · exact hi.goesOn hp (by rw [hi.terminateFlag, hm]; rfl) tid
    · exact (hi.calm hs (by rw [hm]; rfl) tid).trans (by decide)
  rw [hi.threadArg]
  intro harg
  cases hph : s.worker tid <;> rw [hph] at harg hrank hcreated <;>
    first
    | exact absurd rfl hcreated
    | exact absurd hrank (by decide)
    | cases harg

theorem MainMove.fits (hi : Inv c s) (hsafe : c.Safe) (h : MainMove c s s') : s'.main.fits c.runs := by
  have hfits := hi.fits
  have hflag := hi.terminateFlag
  cases h
  case readDeleted here deleted => exact absurd deleted (hi.arg_finished hsafe here)
  case run hruns => exact hruns
  case neverRun here flag =>
    rw [here, flag] at hflag
    exact hflag.symm
  case unlock here =>
    rw [here] at hfits
    cases hp : c.project <;> exact hfits
  case setTerminate here =>
    rw [here] at hfits
    cases hp : c.project <;> exact hfits
  case joined here _ =>
    rw [here] at hfits
    cases hp : c.project <;> exact hfits
  all_goals
    rw [‹s.main = _›] at hfits
    first
    | exact hfits
    | trivial

theorem MainMove.numbers (hi : Inv c s) (h : MainMove c s s') :
    s'.main.created c.numThread ≤ c.numThread ∧ s'.main.joined c ≤ c.numThread := by
  have hcreated := hi.created_le
  have hjoined := hi.joined_le
  cases h <;> rw [‹s.main = _›] at hcreated hjoined
  case create more => exact ⟨more, hjoined⟩
  case join more _ _ => exact ⟨hcreated, more⟩
  case joinOnly more _ _ => exact ⟨hcreated, more⟩
  case joinLate more _ => exact ⟨hcreated, more⟩
  all_goals
    cases hp : c.project <;> cases hr : c.runs <;>
      simp_all [setMain, MainPhase.created, MainPhase.joined]

theorem MainMove.terminateFlag (hi : Inv c s) (h : MainMove c s s') :
    s'.terminateFlag = s'.main.terminated c := by
  have hflag := hi.terminateFlag
  have hfits := hi.fits
  cases h <;> rw [‹s.main = _›] at hflag hfits
  all_goals
    cases hp : c.project <;> cases hr : c.runs <;>
      simp_all [setMain, State.broadcast, setArg, setWorker, MainPhase.terminated, MainPhase.fits]

theorem MainMove.threadArg (hi : Inv c s) (h : MainMove c s s') (w : Nat) :
    s'.threadArg w = (s'.worker w).arg := by
  have harg := hi.threadArg w
  cases h
  case create tid _ _ =>
    by_cases hw : w = tid
    · subst hw
      simp [setMain, setArg, setWorker, WorkerPhase.arg]
    · simpa [setMain, setArg, setWorker, hw] using harg
  case broadcast =>
    by_cases hw : s.worker w = .waiting <;> simpa [setMain, State.broadcast, hw, WorkerPhase.arg] using harg
  case broadcastLate =>
    by_cases hw : s.worker w = .waiting <;> simpa [setMain, State.broadcast, hw, WorkerPhase.arg] using harg
  all_goals exact harg

theorem MainMove.notCreated_iff (hi : Inv c s) (h : MainMove c s s') (hmain : s'.main ≠ .corrupt) (w : Nat) :
    s'.worker w = .notCreated ↔ s'.main.created c.numThread ≤ w := by
  have hcreated := hi.created w
  cases h
  case create tid here more =>
    rw [here] at hcreated
    by_cases hw : w = tid
    · subst hw
      simp [setMain, setArg, setWorker, MainPhase.created]
    · have hlt : tid ≤ w ↔ tid + 1 ≤ w := by omega
      simpa [setMain, setArg, setWorker, hw, MainPhase.created, hlt] using hcreated
  case created tid here all =>
    have hle := hi.created_le
    rw [here] at hcreated hle
    have he : tid = c.numThread := Nat.le_antisymm hle (Nat.not_lt.mp all)
    simpa [setMain, MainPhase.created, he] using hcreated
  case broadcast here =>
    rw [here] at hcreated
    by_cases hw : s.worker w = .waiting <;>
      simpa [setMain, State.broadcast, hw, MainPhase.created] using hcreated
  case broadcastLate here =>
    rw [here] at hcreated
    by_cases hw : s.worker w = .waiting <;>
      simpa [setMain, State.broadcast, hw, MainPhase.created] using hcreated
  case readDeleted => exact absurd rfl hmain
  all_goals
    rw [‹s.main = _›] at hcreated
    cases c.project <;> exact hcreated

theorem MainMove.awaited (hi : Inv c s) (h : MainMove c s s') (hmain : s'.main ≠ .corrupt) (w : Nat)
    (hw : w < s'.main.awaited c.numThread) : 3 ≤ (s'.worker w).rank := by
  refine Nat.le_trans ?_ (h.rank_le hi.fresh w)
  cases h
  case sleeping tid here sleeps =>
    by_cases hwt : w = tid
    · subst hwt
      rw [hi.threadArg] at sleeps
      cases hph : s.worker w <;> rw [hph] at sleeps <;> first | decide | cases sleeps
    · refine hi.awaited w ?_
      rw [here]
      simp only [setMain, MainPhase.awaited] at hw ⊢
      omega
  case created tid here all =>
    have hle := hi.created_le
    refine hi.awaited w ?_
    rw [here] at hle ⊢
    simp only [setMain, MainPhase.awaited, MainPhase.created] at hw hle ⊢
    omega
  case readDeleted => exact absurd rfl hmain
  all_goals
    refine hi.awaited w ?_
    rw [‹s.main = _›]
    revert hw
    cases c.project <;> exact id

theorem MainMove.released (hi : Inv c s) (h : MainMove c s s') (hr : s'.main.released c = true)
    (w : Nat) (hw : w < c.numThread) : 5 ≤ (s'.worker w).rank := by
  have hfits := hi.fits
  have hle := h.rank_le hi.fresh w
  cases h
  case broadcast here =>
    rcases hi.woken_of_holds (by rw [here]; rfl) hw with hwait | hrank
    · simp [setMain, State.broadcast, hwait, WorkerPhase.rank]
    · exact hrank.trans hle
  case skip hruns =>
    exact absurd (hruns.symm.trans hr) Bool.false_ne_true
  case joinedLate here _ =>
    rw [here] at hfits
    exact absurd (Eq.trans (Eq.symm hfits) hr) Bool.false_ne_true
  all_goals
    refine (hi.released ?_ w hw).trans hle
    rw [‹s.main = _›] at hfits ⊢
    first
    | rfl
    | exact hr
    | exact absurd hr Bool.false_ne_true

theorem MainMove.finished (hi : Inv c s) (h : MainMove c s s') {w : Nat} (hw : s.worker w = .finished) :
    s'.worker w = .finished := by
  have hrank := h.rank_le hi.fresh w
  rw [hw] at hrank
  exact finished_of_rank hrank

theorem MainMove.joined_finished (hi : Inv c s) (h : MainMove c s s') (w : Nat)
    (hw : w < s'.main.joined c) : s'.worker w = .finished := by
  have hold : ∀ w < s.main.joined c, s'.worker w = .finished := fun w hw => h.finished hi (hi.joined w hw)
  have hflag := hi.terminateFlag
  have hfits := hi.fits
  have hle := hi.joined_le
  cases h
  case join tid here more ended two =>
    rw [here] at hold
    rcases Nat.lt_succ_iff_lt_or_eq.mp hw with hlt | rfl
    · exact hold w hlt
    · exact ended
  case joinOnly tid here more ended three =>
    rw [here] at hold
    rcases Nat.lt_succ_iff_lt_or_eq.mp hw with hlt | rfl
    · exact hold w hlt
    · exact ended
  case joinLate tid here more ended =>
    rw [here] at hold
    rcases Nat.lt_succ_iff_lt_or_eq.mp hw with hlt | rfl
    · exact hold w hlt
    · exact ended
  case joined tid here all =>
    rw [here] at hold hle
    refine hold w (Nat.lt_of_lt_of_le ?_ (Nat.not_lt.mp all))
    revert hw
    cases hp : c.project <;> simp [setMain, MainPhase.joined, hp]
  case joinedLate tid here all =>
    rw [here] at hold
    exact hold w (Nat.lt_of_lt_of_le hw (Nat.not_lt.mp all))
  case terminated here flag =>
    rw [here, flag] at hflag
    rw [here] at hold
    refine hold w ?_
    rw [MainPhase.joined, if_pos (show c.runs = true from hflag.symm)]
    exact hw
  case returned here =>
    rw [here] at hold hfits
    refine hold w ?_
    revert hw
    simp [setMain, MainPhase.joined, show c.runs = true from hfits]
  case skip here runs =>
    revert hw
    simp [setMain, MainPhase.joined, runs]
  all_goals
    rw [‹s.main = _›] at hold
    refine hold w ?_
    revert hw
    cases hp : c.project <;> simp [setMain, MainPhase.joined, hp]

theorem MainMove.rank_bound (h : MainMove c s s') (w : Nat) :
    s'.worker w = s.worker w ∨ s'.worker w = .lock ∨ s'.worker w = .relock := by
  rcases h.worker w with hw | ⟨-, hw⟩ | ⟨-, -, hw⟩
  · exact .inl hw
  · exact .inr (.inr hw)
  · exact .inr (.inl hw)

theorem MainMove.calm (hi : Inv c s) (h : MainMove c s s') (hc : c.spurious = false)
    (hw : s'.main.woken c = false) (w : Nat) : (s'.worker w).rank ≤ 4 := by
  have hwoken : s.main.woken c = false := by
    have hfits := hi.fits
    have hflag := hi.terminateFlag
    cases h <;> rw [‹s.main = _›] at hfits hflag ⊢
    case neverRun flag => exact hflag.symm.trans flag
    case joined => revert hw; cases hp : c.project <;> exact id
    case returned => rw [← hw]; simp [setMain, MainPhase.woken, MainPhase.released, show c.runs = true from hfits]
    all_goals first | rfl | exact absurd hw Bool.noConfusion | (revert hw; cases c.project <;> exact id)
  have hold := hi.calm hc hwoken w
  cases h
  case broadcast => cases hw
  case broadcastLate => cases hw
  case create tid here more =>
    by_cases hwt : w = tid
    · subst hwt
      simp [setMain, setArg, setWorker, WorkerPhase.rank]
    · simpa [setMain, setArg, setWorker, hwt] using hold
  all_goals exact hold

theorem MainMove.goesOn (hi : Inv c s) (h : MainMove c s s') (hp : c.project = .two)
    (hf : s'.terminateFlag = false) (w : Nat) : (s'.worker w).rank ≤ 7 := by
  have hflag : s.terminateFlag = false := by
    cases h <;> first | exact hf | cases hf
  rcases h.rank_bound w with hw | hw | hw <;> rw [hw]
  · exact hi.goesOn hp hflag w
  · decide
  · decide

theorem MainMove.counts_eq (h : MainMove c s s') : s'.localCount = s.localCount ∧ s'.works = s.works := by
  cases h <;> exact ⟨rfl, rfl⟩

theorem MainMove.count (hi : Inv c s) (h : MainMove c s s') (hp : c.project = .two) (w : Nat) :
    s'.localCount w + (if s'.worker w = .countUp then 1 else 0) = s'.works w := by
  have hcount := hi.count hp w
  have hsame : (s'.worker w = .countUp) = (s.worker w = .countUp) := by
    rcases h.worker w with hw | ⟨hw, hw'⟩ | ⟨hc, -, hw'⟩
    · rw [hw]
    · rw [hw, hw']
      simp
    · rw [hw', hi.fresh w hc]
      simp
  rwa [h.counts_eq.1, h.counts_eq.2, if_congr (Iff.of_eq hsame) rfl rfl]

theorem MainMove.checkSum (hi : Inv c s) (h : MainMove c s s') :
    s'.checkSum = ∑ w ∈ Finset.range (s'.main.summed c), s'.localCount w := by
  have hsum := hi.checkSum
  have hfits := hi.fits
  have hflag := hi.terminateFlag
  have hle := hi.joined_le
  cases h
  case join tid here more ended two =>
    rw [here] at hsum
    simp only [MainPhase.summed, two, setMain] at hsum ⊢
    rw [Finset.sum_range_succ, hsum]
  case joinOnly here _ ended three =>
    rw [here] at hsum
    simpa [MainPhase.summed, three, setMain] using hsum
  case joined tid here all =>
    rw [here] at hsum hle
    have he : tid = c.numThread := Nat.le_antisymm hle (Nat.not_lt.mp all)
    cases hp : c.project <;> simpa [MainPhase.summed, hp, setMain, he] using hsum
  case returned here =>
    rw [here] at hsum hfits
    cases hp : c.project <;> simpa [MainPhase.summed, hp, setMain, show c.runs = true from hfits] using hsum
  case skip here runs =>
    rw [here] at hsum
    cases hp : c.project <;> simpa [MainPhase.summed, hp, setMain, runs] using hsum
  case joinedLate here _ =>
    rw [here] at hsum hfits
    cases hp : c.project <;> simpa [MainPhase.summed, hp, setMain, show c.runs = false from hfits] using hsum
  case neverRun here flag =>
    rw [here] at hsum hflag
    have hruns : c.runs = false := hflag.symm.trans flag
    cases hp : c.project <;> simpa [MainPhase.summed, hp, setMain, hruns] using hsum
  all_goals
    rw [‹s.main = _›] at hsum
    cases hp : c.project <;>
      simpa [MainPhase.summed, hp, setMain, setArg, setWorker, State.broadcast] using hsum

theorem Inv.step_main (hsafe : c.Safe) (hi : Inv c s) (h : MainMove c s s') : Inv c s' := by
  have hfits := h.fits hi hsafe
  have hmain : s'.main ≠ .corrupt := by
    intro hm
    rw [hm] at hfits
    exact hfits
  exact ⟨Guards.step_main hi.guards h hi.fresh, hfits, (h.numbers hi).1, (h.numbers hi).2, h.terminateFlag hi,
    h.threadArg hi, h.notCreated_iff hi hmain, h.awaited hi hmain, h.released hi, h.joined_finished hi,
    h.goesOn hi, h.calm hi, h.count hi, h.checkSum hi⟩

theorem Inv.new : Inv c .new where
  guards t := by cases t <;> exact ⟨nofun, nofun⟩
  fits := trivial
  created_le := Nat.zero_le _
  joined_le := Nat.zero_le _
  terminateFlag := rfl
  threadArg _ := rfl
  created w := ⟨fun _ => Nat.zero_le w, fun _ => rfl⟩
  awaited w hw := absurd hw (Nat.not_lt_zero w)
  released h := absurd h Bool.false_ne_true
  joined w hw := absurd hw (Nat.not_lt_zero w)
  goesOn _ _ _ := Nat.zero_le _
  calm _ _ _ := Nat.zero_le _
  count _ _ := rfl
  checkSum := rfl

theorem inv_of_reachable (hsafe : c.Safe) (hs : Reachable (poolSystem c) s) : Inv c s := by
  refine hs.invariant ?_ fun s a s' _ hi h => ?_
  · rintro s rfl
    exact .new
  · rcases step_cases h with h | ⟨tid, h⟩
    · exact hi.step_main hsafe h
    · exact hi.step_worker h

end ThreadPool
