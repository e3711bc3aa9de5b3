import HyuIte4065.ThreadPool.Invariant
import HyuIte4065.Library.Total
import Mathlib.Algebra.Order.BigOperators.Group.Finset

/-!
# A pool that is run comes to its end

The owner of the mutex never waits, so somebody can always go on. Once the flag is set and every
worker has been woken up, each step brings the pool nearer to its end.
-/
namespace ThreadPool

open Mutex State Transition Total

/-- Some thread can make a step. -/
def Moves (c : Config) (s s' : State) : Prop := ∃ a, step c s a = some s'

/-- What a worker still has to do once the flag is set. -/
def WorkerPhase.weight : WorkerPhase → Nat
  | .finished => 0
  | .deleteArg => 1
  | .testTerminate => 2
  | .countUp => 3
  | .work => 4
  | .unlock => 5
  | .relock => 6
  | _ => 7

/-- What the client still has to do once the flag is set. -/
def MainPhase.weight (c : Config) : MainPhase → Nat
  | .join tid => c.numThread - tid + 4
  | .setTerminate => 3
  | .returned => 2
  | .testTerminate => 1
  | .joinLate tid => c.numThread - tid + 1
  | .broadcastLate => c.numThread + 2
  | _ => 0

def State.weight (c : Config) (s : State) : Nat :=
  s.main.weight c + ∑ w ∈ Finset.range c.numThread, (s.worker w).weight

/-- The flag is set and nobody waits. -/
structure Ending (c : Config) (s : State) : Prop where
  inv : Inv c s
  flag : s.terminateFlag = true
  woken : ∀ w < c.numThread, 5 ≤ (s.worker w).rank

variable {c : Config} {s s' : State} {tid : Nat}

theorem Inv.created_of_moved (hi : Inv c s) (h : WorkerMove c s tid s') : tid < c.numThread := by
  by_contra hge
  have hnot : s.worker tid = .notCreated := (hi.created tid).mpr (hi.created_le.trans (Nat.not_lt.mp hge))
  have hrank := h.rank.1
  rw [hnot] at hrank
  exact absurd hrank (by decide)

theorem WorkerMove.weight_lt (h : WorkerMove c s tid s') (hflag : s.terminateFlag = true)
    (hrank : 5 ≤ (s.worker tid).rank) : (s'.worker tid).weight < (s.worker tid).weight := by
  cases h
  case enter _ flag => rw [hflag] at flag; cases flag
  case workReturns res here =>
    cases hp : c.project <;> cases res <;>
      simp [here, setWorker, afterWork, WorkerPhase.weight]
  all_goals
    rw [‹s.worker tid = _›] at hrank ⊢
    first
    | exact absurd hrank (by decide)
    | simp [setWorker, setArg, WorkerPhase.weight]

theorem Ending.worker (h : Ending c s) (hmove : WorkerMove c s tid s') :
    Ending c s' ∧ s'.weight c < s.weight c := by
  have hframe := hmove.frame
  have htid := h.inv.created_of_moved hmove
  refine ⟨⟨h.inv.step_worker hmove, hframe.terminateFlag.trans h.flag, fun w hw => ?_⟩, ?_⟩
  · exact (h.woken w hw).trans (hmove.rank_le w)
  · rw [State.weight, State.weight, hframe.main]
    refine Nat.add_lt_add_left (Finset.sum_lt_sum (fun w _ => ?_) ⟨tid, Finset.mem_range.mpr htid, ?_⟩) _
    · by_cases hw : w = tid
      · rw [hw]
        exact Nat.le_of_lt (hmove.weight_lt h.flag (h.woken tid htid))
      · rw [hframe.worker w hw]
    · exact hmove.weight_lt h.flag (h.woken tid htid)

/-- With the flag set the client joins, returns and destroys. -/
theorem Ending.main (h : Ending c s) (hsafe : c.Safe) (hmove : MainMove c s s') :
    Ending c s' ∧ s'.weight c < s.weight c := by
  have hi' := h.inv.step_main hsafe hmove
  have hflag := h.inv.terminateFlag
  rw [h.flag] at hflag
  have hflag' : s'.terminateFlag = true := by
    have hf := h.flag
    cases hmove <;> first | exact hf | rfl
  refine ⟨⟨hi', hflag', fun w hw => (h.woken w hw).trans (hmove.rank_le h.inv.fresh w)⟩, ?_⟩
  have hworker : s'.worker = s.worker := by
    funext w
    rcases hmove.worker w with hw | ⟨hw, -⟩ | ⟨hc, -, -⟩
    · exact hw
    · by_cases hlt : w < c.numThread
      · have hrank := h.woken w hlt
        rw [hw] at hrank
        exact absurd hrank (by decide)
      · have hnot := (h.inv.created w).mpr (h.inv.created_le.trans (Nat.not_lt.mp hlt))
        rw [hw] at hnot
        cases hnot
    · rw [hc] at hflag
      cases hflag
  rw [State.weight, State.weight, hworker]
  refine Nat.add_lt_add_right ?_ _
  cases hmove <;> rw [‹s.main = _›] at hflag ⊢
  case join more _ _ =>
    simp only [setMain, MainPhase.weight]
    omega
  case joinOnly more _ _ =>
    simp only [setMain, MainPhase.weight]
    omega
  case joined => cases c.project <;> simp [setMain, MainPhase.weight]
  case joinLate more _ =>
    simp only [setMain, MainPhase.weight]
    omega
  case neverRun flag =>
    rw [h.flag] at flag
    cases flag
  all_goals
    first
    | (simp [setMain, MainPhase.weight]; done)
    | cases hflag

/-- The owner of the mutex can go on. -/
theorem Inv.owner_moves (hi : Inv c s) (h : s.mtxForWorkers ≠ none) : ∃ s', Moves c s s' := by
  obtain ⟨t, howner⟩ := Option.ne_none_iff_exists'.mp h
  have hholds := (hi.guards t).mp howner
  cases t with
  | main =>
    simp only [Holds] at hholds
    cases hm : s.main <;> rw [hm] at hholds <;> cases hholds <;>
      exact ⟨_, .main, by rw [step, mainStep, hm]⟩
  | worker tid =>
    simp only [Holds] at hholds
    cases hw : s.worker tid <;> rw [hw] at hholds <;> cases hholds <;>
      exact ⟨_, .worker tid, by rw [step, workerStep, hw]⟩

/-- A worker that neither waits nor has ended can go on, or the owner of the mutex can. -/
theorem Inv.worker_moves {t : Nat} (hi : Inv c s) (hw : s.worker t ≠ .waiting) (hf : s.worker t ≠ .finished)
    (hn : s.worker t ≠ .notCreated) : ∃ s', Moves c s s' := by
  by_cases hfree : s.mtxForWorkers = none
  · cases hph : s.worker t
    case notCreated => exact absurd hph hn
    case waiting => exact absurd hph hw
    case finished => exact absurd hph hf
    case lock => exact ⟨_, .worker t, by rw [step, workerStep, hph]; exact if_pos hfree⟩
    case relock => exact ⟨_, .worker t, by rw [step, workerStep, hph]; exact if_pos hfree⟩
    case work => exact ⟨_, .workReturns t true, by rw [step, workReturns]; exact if_pos hph⟩
    all_goals exact ⟨_, .worker t, by rw [step, workerStep, hph]⟩
  · exact hi.owner_moves hfree

/-- A client that waits for a worker to end waits for one that can go on. -/
theorem Inv.join_moves (hi : Inv c s) (hrank : 5 ≤ (s.worker tid).rank) (hf : s.worker tid ≠ .finished) :
    ∃ s', Moves c s s' := by
  refine hi.worker_moves (t := tid) (fun hw => ?_) hf fun hn => ?_
  · rw [hw] at hrank
    exact absurd hrank (by decide)
  · rw [hn] at hrank
    exact absurd hrank (by decide)

/-- A client that is not at its end can go on, or a worker can, provided nobody it joins waits. -/
theorem Inv.moves (hi : Inv c s) (hend : s.main ≠ .destroyed)
    (hlate : ∀ tid < c.numThread, s.main = .joinLate tid → 5 ≤ (s.worker tid).rank) :
    ∃ s', Moves c s s' := by
  have hfits := hi.fits
  cases hm : s.main
  case create tid =>
    by_cases hlt : tid < c.numThread
    · exact ⟨_, .main, by rw [step, mainStep, hm]; exact if_pos hlt⟩
    · exact ⟨_, .main, by rw [step, mainStep, hm]; exact if_neg hlt⟩
  case awaitSleeping tid =>
    cases harg : s.threadArg tid with
    | none => exact ⟨_, .main, by rw [step, mainStep, hm]; simp only [harg]; rfl⟩
    | some sleeping =>
      cases sleeping with
      | true => exact ⟨_, .main, by rw [step, mainStep, hm]; simp only [harg]; rfl⟩
      | false =>
        rw [hi.threadArg] at harg
        refine hi.worker_moves (t := tid) ?_ ?_ ?_ <;>
        · intro hph
          rw [hph] at harg
          cases harg
  case lock =>
    by_cases hfree : s.mtxForWorkers = none
    · exact ⟨_, .main, by rw [step, mainStep, hm]; exact if_pos hfree⟩
    · exact hi.owner_moves hfree
  case join tid =>
    by_cases hlt : tid < c.numThread
    · by_cases hf : s.worker tid = .finished
      · cases hp : c.project
        · exact ⟨_, .main, by rw [step, mainStep, hm]; simp only [hlt, joinStep, hf, hp, if_true]; rfl⟩
        · exact ⟨_, .main, by rw [step, mainStep, hm]; simp only [hlt, joinStep, hf, hp, if_true]; rfl⟩
      · exact hi.join_moves (hi.released (by rw [hm]; rfl) tid hlt) hf
    · exact ⟨_, .main, by rw [step, mainStep, hm]; exact if_neg hlt⟩
  case joinLate tid =>
    by_cases hlt : tid < c.numThread
    · by_cases hf : s.worker tid = .finished
      · exact ⟨_, .main, by rw [step, mainStep, hm]; exact (if_pos hlt).trans (if_pos hf)⟩
      · exact hi.join_moves (hlate tid hlt hm) hf
    · exact ⟨_, .main, by rw [step, mainStep, hm]; exact if_neg hlt⟩
  case destroyed => exact absurd hm hend
  case corrupt =>
    rw [hm] at hfits
    exact absurd hfits id
  all_goals exact ⟨_, .main, by rw [step, mainStep, hm]⟩

/-- Whatever happens next, the pool ends up destroyed. -/
theorem Ending.ends (h : Ending c s) (hsafe : c.Safe) :
    Ends (Moves c) (fun s => Ending c s ∧ s.main = .destroyed) s := by
  refine Ends.of_measure (State.weight c) h (fun s h hend => ?_) (fun s s' h hmove => ?_)
    fun s s' h hmove => ?_
  · exact h.inv.moves hend fun tid hlt _ => h.woken tid hlt
  · obtain ⟨a, ha⟩ := hmove
    rcases step_cases ha with ha | ⟨tid, ha⟩
    · exact (h.main hsafe ha).1
    · exact (h.worker ha).1
  · obtain ⟨a, ha⟩ := hmove
    rcases step_cases ha with ha | ⟨tid, ha⟩
    · exact (h.main hsafe ha).2
    · exact (h.worker ha).2

/-- `runAndChecksum` or `run` has returned. -/
def MainPhase.afterRun (c : Config) : MainPhase → Bool
  | .returned => true
  | .testTerminate | .destroyed => c.runs
  | _ => false

theorem joined_of_afterRun {ph : MainPhase} (h : ph.afterRun c = true) : ph.joined c = c.numThread := by
  cases ph <;> simp_all [MainPhase.afterRun, MainPhase.joined]

theorem summed_of_afterRun {ph : MainPhase} (hp : c.project = .two) (h : ph.afterRun c = true) :
    ph.summed c = c.numThread := by
  cases ph <;> simp_all [MainPhase.afterRun, MainPhase.summed]

/-- What the workers report is what they have done. -/
theorem Inv.checkSum_eq (hi : Inv c s) (hp : c.project = .two) (h : s.main.afterRun c = true) :
    s.checkSum = ∑ w ∈ Finset.range c.numThread, (s.works w : Int) := by
  rw [hi.checkSum, summed_of_afterRun hp h]
  refine Finset.sum_congr rfl fun w hw => ?_
  have hcount := hi.count hp w
  have hjoined := hi.joined w (by rw [joined_of_afterRun h]; exact Finset.mem_range.mp hw)
  rw [hjoined] at hcount
  simpa using hcount

/-- In a pool that is run, the flag is set after the broadcast. -/
theorem Inv.ending (hi : Inv c s) (hr : c.runs = true) (hflag : s.terminateFlag = true) : Ending c s := by
  refine ⟨hi, hflag, hi.released ?_⟩
  have hfits := hi.fits
  rw [hi.terminateFlag] at hflag
  cases hm : s.main <;> rw [hm] at hflag hfits <;>
    first
    | rfl
    | exact hr
    | exact absurd (hr.symm.trans hfits) Bool.noConfusion
    | cases hflag

/-- The sum is the number of calls that have returned, each worker takes part, the client reads no
deleted argument, and the run is never blocked; once the flag is set it is over soon, whatever
the threads do. -/
theorem runAndChecksum_exact {numThread : Nat} {spurious : Bool}
    (hs : Reachable (poolSystem ⟨.two, numThread, true, spurious⟩) s) :
    s.main ≠ .corrupt ∧
    (s.main.released ⟨.two, numThread, true, spurious⟩ = true → ∀ w < numThread, s.worker w ≠ .waiting) ∧
    (s.main.afterRun ⟨.two, numThread, true, spurious⟩ = true →
      (∀ w < numThread, s.worker w = .finished) ∧
      s.checkSum = ∑ w ∈ Finset.range numThread, (s.works w : Int)) ∧
    (s.main ≠ .destroyed → ∃ s', Moves ⟨.two, numThread, true, spurious⟩ s s') ∧
    (s.terminateFlag = true → Ends (Moves ⟨.two, numThread, true, spurious⟩) (fun s' => s'.main = .destroyed ∧
      s'.checkSum = ∑ w ∈ Finset.range numThread, (s'.works w : Int)) s) := by
  have hsafe : Config.Safe ⟨.two, numThread, true, spurious⟩ := .inl rfl
  have hi := inv_of_reachable hsafe hs
  refine ⟨fun hm => ?_, fun hr w hw hwait => ?_, fun hafter => ⟨fun w hw => ?_, hi.checkSum_eq rfl hafter⟩,
    fun hend => hi.moves hend fun tid _ hm => ?_, fun hflag => ?_⟩
  · have hfits := hi.fits
    rw [hm] at hfits
    exact hfits
  · have hrank := hi.released hr w hw
    rw [hwait] at hrank
    exact absurd hrank (by decide)
  · exact hi.joined w (by rw [joined_of_afterRun hafter]; exact hw)
  · have hfits := hi.fits
    rw [hm] at hfits
    cases hfits
  · refine ((hi.ending rfl hflag).ends hsafe).mono fun s' ⟨hs', hm⟩ => ⟨hm, ?_⟩
    exact hs'.inv.checkSum_eq rfl (by rw [hm]; rfl)

/-- Two workers: the first does one update and the second none. -/
def oneUpdate : List Action :=
  [.main, .worker 0, .worker 0, .worker 0, .main, .main, .worker 1, .worker 1, .worker 1, .main, .main, .main,
    .main, .main, .main, .worker 0, .worker 0, .worker 0, .workReturns 0 false, .worker 0, .main, .worker 1,
    .worker 1, .worker 1, .worker 1, .worker 0, .worker 0, .main, .main, .main]

theorem runAndChecksum_exact_oneUpdate : ∃ s,
    oneUpdate.foldlM (step ⟨.two, 2, true, false⟩) .new = some s ∧ s.checkSum = 1 := by
  have hrun : (oneUpdate.foldlM (step ⟨.two, 2, true, false⟩) .new).map
      (fun s => (s.main, s.works 0, s.works 1)) = some (.returned, 1, 0) := by decide
  obtain ⟨s, hs, he⟩ := Option.map_eq_some_iff.mp hrun
  have hstart : Reachable (poolSystem ⟨.two, 2, true, false⟩) .new := .init rfl
  have hall := runAndChecksum_exact (hstart.foldlM (fun _ _ _ h => ⟨_, h⟩) hs)
  have hm : s.main = .returned := congrArg Prod.fst he
  have hsum := (hall.2.2.1 (by rw [hm]; rfl)).2
  simp only [Prod.mk.injEq] at he
  refine ⟨s, hs, hsum.trans ?_⟩
  simp [Finset.sum_range_succ, he.2.1, he.2.2]

/-- In project 3 all workers start at the broadcast, the flag is set when they all have ended, so that each
has ended because its work function said so, and the run is never blocked. -/
theorem run_joins_all {numThread : Nat} (hs : Reachable (poolSystem ⟨.three, numThread, true, false⟩) s) :
    s.main ≠ .corrupt ∧
    (s.main = .broadcast → ∀ w < numThread, s.worker w = .waiting) ∧
    (s.main.released ⟨.three, numThread, true, false⟩ = true → ∀ w < numThread, s.worker w ≠ .waiting) ∧
    (s.terminateFlag = true → ∀ w < numThread, s.worker w = .finished) ∧
    (s.main ≠ .destroyed → ∃ s', Moves ⟨.three, numThread, true, false⟩ s s') := by
  have hi := inv_of_reachable (.inr rfl) hs
  refine ⟨fun hm => ?_, fun hm w hw => ?_, fun hr w hw hwait => ?_, fun hflag w hw => ?_,
    fun hend => hi.moves hend fun tid _ hm => ?_⟩
  · have hfits := hi.fits
    rw [hm] at hfits
    exact hfits
  · have hcalm := hi.calm rfl (by rw [hm]; rfl) w
    refine (hi.woken_of_holds (by rw [hm]; rfl) hw).resolve_right fun hrank => ?_
    omega
  · have hrank := hi.released hr w hw
    rw [hwait] at hrank
    exact absurd hrank (by decide)
  · refine hi.joined w ?_
    have hfits := hi.fits
    rw [hi.terminateFlag] at hflag
    cases hm : s.main <;> rw [hm] at hflag hfits <;>
      first
      | exact hw
      | (cases hflag; done)
      | cases hfits
  · have hfits := hi.fits
    rw [hm] at hfits
    cases hfits

/-- Two workers whose work function ends the loop at once. -/
def bothStop : List Action :=
  [.main, .worker 0, .worker 0, .worker 0, .main, .main, .worker 1, .worker 1, .worker 1, .main, .main, .main,
    .main, .main, .main, .worker 0, .worker 0, .worker 0, .workReturns 0 true, .worker 1, .worker 1, .worker 1,
    .worker 0, .workReturns 1 true, .worker 1, .main, .main, .main, .main]

theorem run_joins_all_bothStop : ∃ s, bothStop.foldlM (step ⟨.three, 2, true, false⟩) .new = some s ∧
    s.worker 0 = .finished ∧ s.worker 1 = .finished := by
  have hrun : (bothStop.foldlM (step ⟨.three, 2, true, false⟩) .new).map State.terminateFlag = some true := by
    decide
  obtain ⟨s, hs, hflag⟩ := Option.map_eq_some_iff.mp hrun
  have hstart : Reachable (poolSystem ⟨.three, 2, true, false⟩) .new := .init rfl
  have hall := (run_joins_all (hstart.foldlM (fun _ _ _ h => ⟨_, h⟩) hs)).2.2.2.1 hflag
  exact ⟨s, hs, hall 0 (by decide), hall 1 (by decide)⟩

end ThreadPool
