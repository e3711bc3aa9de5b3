import HyuIte4065.PrimeCond.Protocol

/-!
# Every round is counted exactly, and nobody is blocked for good

Where a thread holds a mutex it can go on; where none is held, a worker that cannot go on
waits for a broadcast, and then the main thread can go on.
-/
namespace PrimeCond

open Mutex State Transition

variable {numThread tid : Nat} {ranges : List (Int × Int)} {s s' : State} {ph : WorkerPhase}

def Enabled (numThread : Nat) (s : State) : Prop := ∃ t s', threadStep numThread s t = some s'

/-- The owner of `mtx_for_main` never waits. -/
theorem enabled_of_locked_main (hlocks : Locks s) (h : s.mtxForMain ≠ none) : Enabled numThread s := by
  obtain ⟨t, howner⟩ := Option.ne_none_iff_exists'.mp h
  have hholds := (hlocks.main t).mp howner
  cases t with
  | main =>
    simp only [HoldsMain] at hholds
    cases hm : s.main <;> rw [hm] at hholds <;> cases hholds <;>
      exact ⟨.main, _, by rw [threadStep, mainStep, hm]⟩
  | worker tid =>
    simp only [HoldsMain] at hholds
    cases hw : s.worker tid <;> rw [hw] at hholds <;> cases hholds <;>
      exact ⟨.worker tid, _, by rw [threadStep, workerStep, hw]⟩

/-- The owner of `mtx_for_workers` waits for `mtx_for_main` at most. -/
theorem enabled_of_locked_workers (hlocks : Locks s) (hfree : s.mtxForMain = none)
    (h : s.mtxForWorkers ≠ none) : Enabled numThread s := by
  obtain ⟨t, howner⟩ := Option.ne_none_iff_exists'.mp h
  have hholds := (hlocks.workers t).mp howner
  cases t with
  | main =>
    simp only [HoldsWorkers] at hholds
    cases hm : s.main <;> rw [hm] at hholds <;> cases hholds <;>
      exact ⟨.main, _, by rw [threadStep, mainStep, hm]⟩
  | worker tid =>
    simp only [HoldsWorkers] at hholds
    cases hw : s.worker tid <;> rw [hw] at hholds <;> cases hholds
    case worker.lockMain.refl =>
      exact ⟨.worker tid, _, by rw [threadStep, workerStep, hw]; exact if_pos hfree⟩
    all_goals exact ⟨.worker tid, _, by rw [threadStep, workerStep, hw]⟩

/-- While both mutexes are free, a worker that cannot step waits, has ended or does not exist. -/
theorem resting_or_enabled (hw : s.WorkerOk numThread tid) (hfree : s.mtxForWorkers = none)
    (hfree' : s.mtxForMain = none) : Enabled numThread s ∨
      s.worker tid = .waiting ∨ s.worker tid = .finished ∨ s.worker tid = .notCreated := by
  cases hph : s.worker tid
  case waiting => exact .inr (.inl rfl)
  case finished => exact .inr (.inr (.inl rfl))
  case notCreated => exact .inr (.inr (.inr rfl))
  case split loaded =>
    left
    have hworking : Working numThread s.range s.rounds tid (.split loaded) (s.threadRet tid) (s.stored tid) := by
      rw [State.WorkerOk, hph] at hw
      cases hstage : s.main.stage <;> rw [hstage] at hw
      case released => exact hw
      all_goals simp only [PrimeCond.WorkerOk, Ready, WorkerPhase.parked, reduceCtorEq, or_self, false_and,
        imp_false, Bool.false_eq_true] at hw
      all_goals omega
    cases hnext : (loads numThread tid)[loaded.length]? with
    | none =>
      obtain ⟨start, stop, hpiece, -⟩ := split_share hworking.2 hnext
      exact ⟨.worker tid, _, by rw [threadStep, workerStep, hph]; simp only [hnext, hpiece, Option.map_some]; rfl⟩
    | some bound => exact ⟨.worker tid, _, by rw [threadStep, workerStep, hph]; simp only [hnext]; rfl⟩
  case lockFirst => exact .inl ⟨.worker tid, _, by rw [threadStep, workerStep, hph]; exact if_pos hfree⟩
  case relock => exact .inl ⟨.worker tid, _, by rw [threadStep, workerStep, hph]; exact if_pos hfree⟩
  case lock => exact .inl ⟨.worker tid, _, by rw [threadStep, workerStep, hph]; exact if_pos hfree⟩
  case lockMain => exact .inl ⟨.worker tid, _, by rw [threadStep, workerStep, hph]; exact if_pos hfree'⟩
  all_goals exact .inl ⟨.worker tid, _, by rw [threadStep, workerStep, hph]⟩

/-- The main thread and the workers are never all blocked. -/
theorem Inv.enabled (hi : Inv numThread ranges s) :
    s.main = .finished ∧ (∀ w < numThread, s.worker w = .finished) ∨ Enabled numThread s := by
  by_cases hfree' : s.mtxForMain = none
  case neg => exact .inr (enabled_of_locked_main hi.locks hfree')
  by_cases hfree : s.mtxForWorkers = none
  case neg => exact .inr (enabled_of_locked_workers hi.locks hfree' hfree)
  by_cases hresting : ∀ w < numThread,
    s.worker w = .waiting ∨ s.worker w = .finished ∨ s.worker w = .notCreated
  case neg =>
    simp only [not_forall] at hresting
    obtain ⟨w, hw, hnot⟩ := hresting
    exact .inr ((resting_or_enabled (hi.workers w hw) hfree hfree').resolve_right hnot)
  cases hm : s.main
  case create i =>
    right
    by_cases hlt : i < numThread
    · exact ⟨.main, _, by rw [threadStep, mainStep, hm]; exact if_pos hlt⟩
    · exact ⟨.main, _, by rw [threadStep, mainStep, hm]; exact if_neg hlt⟩
  case awaitReady i =>
    right
    have hmain := hi.main
    rw [hm] at hmain
    have hok := hi.workers i hmain.1
    rw [State.WorkerOk, hm] at hok
    rcases hok.2.2.1 rfl with ⟨hph, -⟩ | hready
    · rcases hph with hph | hph <;> have hrest := hresting i hmain.1 <;> simp [hph] at hrest
    · exact ⟨.main, _, by rw [threadStep, mainStep, hm]; exact if_pos hready.2⟩
  case reset i =>
    right
    by_cases hlt : i < numThread
    · exact ⟨.main, _, by rw [threadStep, mainStep, hm]; exact if_pos hlt⟩
    · exact ⟨.main, _, by rw [threadStep, mainStep, hm]; exact if_neg hlt⟩
  case collect i cntPrime =>
    right
    by_cases hlt : i < numThread
    · exact ⟨.main, _, by rw [threadStep, mainStep, hm]; exact if_pos hlt⟩
    · exact ⟨.main, _, by rw [threadStep, mainStep, hm]; exact if_neg hlt⟩
  case join i =>
    right
    by_cases hlt : i < numThread
    · have hok := hi.workers i hlt
      rw [State.WorkerOk, hm] at hok
      have hended : s.worker i = .finished := by
        rcases hresting i hlt with hw | hw | hw
        · rw [hw] at hok
          simp [PrimeCond.WorkerOk, MainPhase.stage] at hok
        · exact hw
        · rw [hw] at hok
          simp [PrimeCond.WorkerOk, MainPhase.stage] at hok
      exact ⟨.main, _, by rw [threadStep, mainStep, hm]; exact (if_pos hlt).trans (if_pos hended)⟩
    · exact ⟨.main, _, by rw [threadStep, mainStep, hm]; exact if_neg hlt⟩
  case lock => exact .inr ⟨.main, _, by rw [threadStep, mainStep, hm]; exact if_pos hfree⟩
  case lockLast => exact .inr ⟨.main, _, by rw [threadStep, mainStep, hm]; exact if_pos hfree⟩
  case lockMain => exact .inr ⟨.main, _, by rw [threadStep, mainStep, hm]; exact if_pos hfree'⟩
  case relockMain => exact .inr ⟨.main, _, by rw [threadStep, mainStep, hm]; exact if_pos hfree'⟩
  case waiting =>
    -- the worker that is going to signal cannot be at rest
    right
    have hstage : s.main.stage = .released := by rw [hm]; rfl
    have hparked : ∀ w < numThread, s.worker w = .waiting := by
      intro w hw
      have hok := hi.workers w hw
      rw [State.WorkerOk, hstage] at hok
      rcases hresting w hw with hph | hph | hph
      · exact hph
      · rw [hph] at hok
        exact absurd hok id
      · rw [hph] at hok
        exact absurd hok id
    rcases hi.awaited (.inr hm) with ⟨w, hw, hnot⟩ | ⟨w, hw, hl⟩
    · rw [hparked w hw] at hnot
      cases hnot
    · rw [hparked w hw] at hl
      rcases hl with hl | hl | hl <;> cases hl
  case finished => exact .inl ⟨rfl, fun w hw => (hi.joined w hw).2 hm⟩
  all_goals exact .inr ⟨.main, _, by rw [threadStep, mainStep, hm]⟩

/-- The worker has entered the round and has not stored its count yet. -/
def WorkerPhase.computing : WorkerPhase → Bool
  | .split _ | .count .. | .store _ => true
  | _ => false

/-- The main thread adds up what the workers have stored. -/
def MainPhase.sums : MainPhase → Bool
  | .collect .. => true
  | _ => false

theorem not_parked_of_computing (h : ph.computing = true) : ph.parked = false := by
  cases ph <;> first | rfl | cases h

/-- The range does not change under a worker that computes. -/
theorem Inv.range_stable (hi : Inv numThread ranges s) {t : Thread}
    (h : threadStep numThread s t = some s') (hw : tid < numThread)
    (hc : (s.worker tid).computing = true) : s'.range = s.range := by
  cases t with
  | worker u => exact (workerMove h).frame.range
  | main =>
    have hok := hi.workers tid hw
    rw [State.WorkerOk] at hok
    cases mainMove h
    case scanStart here =>
      rw [here] at hok
      exact absurd hok.1 (by rw [not_parked_of_computing hc]; exact Bool.false_ne_true)
    case scanEnd here =>
      rw [here] at hok
      exact absurd hok.1 (by rw [not_parked_of_computing hc]; exact Bool.false_ne_true)
    all_goals rfl

/-- What a worker has stored: all rounds so far, or all but the one that it works on. -/
theorem Inv.stored_eq (hi : Inv numThread ranges s) (hw : tid < numThread) :
    s.stored tid = s.rounds.map (share numThread tid) ∨
      s.main.stage = .released ∧
        s.stored tid ++ [share numThread tid s.range] = s.rounds.map (share numThread tid) := by
  have hok := hi.workers tid hw
  rw [State.WorkerOk] at hok
  cases hstage : s.main.stage <;> rw [hstage] at hok
  case starting => exact .inl hok.1
  case started => exact .inl hok.1
  case gathered => exact .inl hok.2
  case collected => exact .inl hok.2.2
  case ending => exact .inl hok.2
  case released =>
    cases hph : s.worker tid <;> rw [hph] at hok <;>
      first
      | exact .inl hok.2
      | exact .inr ⟨rfl, hok⟩
      | exact .inr ⟨rfl, hok.1⟩
      | exact absurd hok id

theorem Between.rounds_initial {rounds : List (Int × Int)} {input printed : List Int}
    (h : Between numThread ranges rounds input printed) : rounds <+: ranges := by
  obtain ⟨⟨rest, hrest, -⟩, -⟩ := h
  exact ⟨rest, hrest⟩

theorem InRound.rounds_initial {range : Int × Int} {rounds : List (Int × Int)} {input printed : List Int}
    (h : InRound numThread ranges range rounds input printed) : rounds <+: ranges := by
  obtain ⟨-, rest, -, hrest, -⟩ := h
  exact ⟨rest, hrest⟩

/-- The rounds are the first of the ranges. -/
theorem Inv.rounds_initial (hi : Inv numThread ranges s) : s.rounds <+: ranges := by
  have hm := hi.main
  cases hmain : s.main <;> rw [hmain] at hm
  case create => exact hm.2.2.rounds_initial
  case awaitReady => exact hm.2.2.rounds_initial
  case scanEnd => exact hm.2.rounds_initial
  case collect => exact hm.1.rounds_initial
  case print => exact hm.1.rounds_initial
  all_goals first
    | exact hm.1 ▸ List.prefix_refl _
    | exact Between.rounds_initial hm
    | exact InRound.rounds_initial hm
    | obtain ⟨⟨rest, hrest, -⟩, -⟩ := hm
      exact ⟨_, hrest⟩

/-- When the main thread sums up a round, each worker has stored its count for this very range.
Every worker takes part in every round once, the range does not change meanwhile, and the
threads are never all blocked before all of them have ended. -/
theorem rounds_exact (hranges : ∀ range ∈ ranges, range.1 ≠ -1)
    (hs : Reachable (primeSystem numThread ranges) s) :
    (s.main.sums = true → s.rounds.getLast? = some s.range ∧ ∀ w < numThread,
      s.threadRet w = share numThread w s.range ∧ s.stored w = s.rounds.map (share numThread w)) ∧
    (s.rounds <+: ranges ∧ ∀ w < numThread, s.stored w = s.rounds.map (share numThread w) ∨
      s.main.stage = .released ∧
        s.stored w ++ [share numThread w s.range] = s.rounds.map (share numThread w)) ∧
    (∀ t s', threadStep numThread s t = some s' →
      (∃ w < numThread, (s.worker w).computing = true) → s'.range = s.range) ∧
    ((s.main = .finished ∧ s.printed = ranges.map (total numThread) ∧
      ∀ w < numThread, s.worker w = .finished ∧ s.stored w = ranges.map (share numThread w)) ∨
      Enabled numThread s) := by
  have hi := inv_of_reachable hranges hs
  refine ⟨fun hsums => ?_, ⟨hi.rounds_initial, fun w hw => hi.stored_eq hw⟩,
    fun t s' h ⟨w, hw, hc⟩ => hi.range_stable h hw hc, ?_⟩
  · have hstage : s.main.stage = .collected := by cases hm : s.main <;> rw [hm] at hsums <;> first | rfl | cases hsums
    refine ⟨?_, fun w hw => ?_⟩
    · have hm := hi.main
      cases hmain : s.main <;> rw [hmain] at hm hsums
      case collect =>
        obtain ⟨⟨earlier, -, hrounds, -⟩, -⟩ := hm
        rw [hrounds, List.getLast?_concat]
      all_goals cases hsums
    · have hok := hi.workers w hw
      rw [State.WorkerOk, hstage] at hok
      exact hok.2
  · rcases hi.enabled with ⟨hm, hw⟩ | henabled
    · left
      have hmain := hi.main
      rw [hm] at hmain
      obtain ⟨hrounds, hprinted⟩ := hmain
      refine ⟨hm, by rw [hprinted, hrounds], fun w hlt => ⟨hw w hlt, ?_⟩⟩
      rcases hi.stored_eq hlt with hstored | ⟨hstage, -⟩
      · rw [hstored, hrounds]
      · rw [hm] at hstage
        cases hstage
    · exact .inr henabled

/-- Two workers, one range. The first worker is always the faster one. -/
def oneRound : List Thread :=
  [.main] ++ List.replicate 3 (.worker 0) ++ List.replicate 2 .main ++ List.replicate 3 (.worker 1) ++
    List.replicate 12 .main ++ List.replicate 19 (.worker 0) ++ List.replicate 23 (.worker 1) ++
    List.replicate 3 .main

theorem rounds_exact_oneRound : ∃ s, oneRound.foldlM (threadStep 2) (.new (tokens [(1, 4)])) = some s ∧
    s.threadRet 0 = 1 ∧ s.threadRet 1 = 1 := by
  have hranges : ∀ range ∈ [((1 : Int), (4 : Int))], range.1 ≠ -1 := by decide
  have hrun : (oneRound.foldlM (threadStep 2) (.new (tokens [(1, 4)]))).map
      (fun s => (s.main, s.range)) = some (.collect 0 0, (1, 4)) := by decide +kernel
  obtain ⟨s, hs, he⟩ := Option.map_eq_some_iff.mp hrun
  obtain ⟨hmain, hrange⟩ := Prod.mk.inj he
  have hstart : Reachable (primeSystem 2 [(1, 4)]) (.new (tokens [(1, 4)])) := .init rfl
  have hall := (rounds_exact hranges (hstart.foldlM (fun _ _ _ h => ⟨_, h⟩) hs)).1 (by rw [hmain]; rfl)
  have hshare : share 2 0 (1, 4) = 1 ∧ share 2 1 (1, 4) = 1 := by decide +kernel
  exact ⟨s, hs, by rw [(hall.2 0 (by decide)).1, hrange, hshare.1], by rw [(hall.2 1 (by decide)).1, hrange, hshare.2]⟩

end PrimeCond
