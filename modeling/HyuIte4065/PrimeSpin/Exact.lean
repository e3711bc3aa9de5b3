import HyuIte4065.Library.Total
import HyuIte4065.PrimeCond.Primes
import HyuIte4065.PrimeSpin.Rounds
import Mathlib.Algebra.Order.BigOperators.Group.Finset

/-!
# The scanning main thread counts exactly, too

The scan may start again any number of times. All other steps bring the program nearer to its end:
either the main thread gets on, or it stays where it is and a worker gets on.
-/
namespace PrimeSpin

open Mutex State Total Transition
open PrimeCond (Thread boundOf counts loads map_total share split_share tokens total)

/-- The main thread has found an entry that is still -1. -/
def State.Missing (numThread : Nat) (s : State) : Prop :=
  ∃ i < numThread, s.main = .check i ∧ s.threadRet i = -1

/-- A step that does not only start the scan again. -/
def Useful (numThread : Nat) (s s' : State) : Prop :=
  ∃ t, threadStep numThread s t = some s' ∧ (t = .main → ¬ s.Missing numThread)

section
variable (numThread : Nat)

/-- The numbers that a worker has to look at. -/
def pieceLength (tid : Nat) (range : Int × Int) : Nat :=
  match PrimeCond.split numThread tid ((loads numThread tid).map (boundOf range)) with
  | some (start, stop) => (stop - start).toNat
  | none => 0

/-- How many steps a worker can take before it waits. -/
def WorkerPhase.weight (tid : Nat) (range : Int × Int) : WorkerPhase → Nat
  | .notCreated | .waiting | .finished => 0
  | .wait => 1
  | .store _ | .storeReady => 2
  | .lock _ | .lockFirst => 3
  | .count i stop _ => (stop - i).toNat + 4
  | .split loaded => pieceLength numThread tid range + (8 - loaded.length) + 5
  | .checkDone => pieceLength numThread tid range + 14
  | .unlock => pieceLength numThread tid range + 15
  | .relock => pieceLength numThread tid range + 16

/-- What the main thread does when it has read the end, or for each number that it is still to read. -/
def roundsLeft (tokens : Nat) : Nat := tokens * (3 * numThread + 10) + numThread + 6

def MainPhase.weight (tokens : Nat) : MainPhase → Nat
  | .create i => roundsLeft numThread tokens + 2 * (numThread - i) + 1
  | .awaitReady i => roundsLeft numThread tokens + 2 * (numThread - i)
  | .scanStart => roundsLeft numThread tokens
  | .checkStart => roundsLeft numThread tokens + (3 * numThread + 9)
  | .scanEnd => roundsLeft numThread tokens + (3 * numThread + 8)
  | .reset i => roundsLeft numThread tokens + (numThread - i) + (2 * numThread + 8)
  | .lock => roundsLeft numThread tokens + (2 * numThread + 7)
  | .broadcast => roundsLeft numThread tokens + (2 * numThread + 6)
  | .unlock => roundsLeft numThread tokens + (2 * numThread + 5)
  | .check i => roundsLeft numThread tokens + (numThread - i) + (numThread + 4)
  | .collect i _ => roundsLeft numThread tokens + (numThread - i) + 2
  | .print _ => roundsLeft numThread tokens + 1
  | .setDone => numThread + 5
  | .lockLast => numThread + 4
  | .broadcastLast => numThread + 3
  | .unlockLast => numThread + 2
  | .join i => numThread - i + 1
  | .finished => 0

def State.workersLeft (s : State) : Nat :=
  ∑ w ∈ Finset.range numThread, (s.worker w).weight numThread w s.range

end

variable {numThread tid : Nat} {ranges : List (Int × Int)} {s s' : State} {range : Int × Int}

/-! ### Getting on -/

theorem length_loads (numThread tid : Nat) : (loads numThread tid).length ≤ 7 := by
  rw [loads, List.length_append]
  split <;> simp

theorem Inv.loaded (hi : Inv numThread ranges s) (hw : tid < numThread) {loaded : List Int}
    (hph : s.worker tid = .split loaded) :
    loaded = ((loads numThread tid).map (boundOf s.range)).take loaded.length := by
  have hok := hi.workers tid hw
  rw [hph] at hok
  cases hstage : s.main.stage numThread <;> rw [hstage] at hok
  case released => exact hok.2
  all_goals simp [WorkerOk, Ready, WorkerPhase.Parked] at hok
  all_goals omega

theorem WorkerMove.weight_lt (hi : Inv numThread ranges s) (h : WorkerMove numThread s tid s') :
    (s'.worker tid).weight numThread tid s'.range < (s.worker tid).weight numThread tid s.range := by
  have hrange := h.frame.range
  have hw := hi.lt_of_moves h
  rw [hrange]
  cases h
  case load loaded bound here next =>
    have hlt : loaded.length < (loads numThread tid).length := (List.getElem?_eq_some_iff.mp next).1
    have hle := length_loads numThread tid
    simp only [here, setWorker, Function.update_self, WorkerPhase.weight, List.length_append,
      List.length_singleton]
    omega
  case split loaded start stop here all piece =>
    have hall := List.getElem?_eq_none_iff.mp all
    have hloaded := hi.loaded hw here
    rw [List.take_of_length_le (by rw [List.length_map]; exact hall)] at hloaded
    have hpiece : pieceLength numThread tid s.range = (stop - start).toNat := by
      rw [pieceLength, ← hloaded, piece]
    simp only [here, setWorker, Function.update_self, WorkerPhase.weight, hpiece]
    omega
  case count here more =>
    simp only [here, setWorker, Function.update_self, WorkerPhase.weight]
    omega
  case counted here _ =>
    simp only [here, setWorker, Function.update_self, WorkerPhase.weight]
    omega
  case enter here _ => simp [here, setWorker, WorkerPhase.weight]
  case leave here _ => simp [here, setWorker, WorkerPhase.weight]
  all_goals simp [*, setWorker, setRet, WorkerPhase.weight]

theorem roundsLeft_succ (numThread tokens : Nat) :
    roundsLeft numThread (tokens + 1) = roundsLeft numThread tokens + (3 * numThread + 10) := by
  rw [roundsLeft, roundsLeft, Nat.succ_mul]
  omega

theorem length_tokens_pos (rest : List (Int × Int)) : ∃ n, (tokens rest).length = n + 1 := by
  cases rest <;> exact ⟨_, rfl⟩

theorem MainMove.weight_lt (hi : Inv numThread ranges s) (h : MainMove numThread s s')
    (useful : ¬ s.Missing numThread) :
    s'.main.weight numThread s'.input.length < s.main.weight numThread s.input.length := by
  have hm := hi.main
  cases h
  case scanStart here =>
    rw [here] at hm ⊢
    obtain ⟨earlier, rest, -, hinput, -⟩ := hm
    obtain ⟨n, hn⟩ := length_tokens_pos rest
    simp only [setMain, MainPhase.weight, List.length_tail, hinput, hn, roundsLeft_succ,
      Nat.add_sub_cancel]
    omega
  case scanEnd here =>
    rw [here] at hm ⊢
    obtain ⟨hne, earlier, rest, -, hinput, -⟩ := hm
    cases rest with
    | nil => exact absurd (List.cons.inj hinput).1 hne
    | cons range rest =>
      have hsecond : s.input = range.2 :: tokens rest := (List.cons.inj hinput).2
      simp only [setMain, MainPhase.weight, hsecond, List.tail_cons, List.length_cons, roundsLeft_succ]
      omega
  case awaitReady here _ =>
    rw [here] at hm ⊢
    have hlt := hm.1
    simp only [setMain, MainPhase.weight]
    omega
  case again i here more missing _ => exact absurd ⟨i, more, here, missing⟩ useful
  case noMore here _ =>
    rw [here]
    simp only [setMain, MainPhase.weight, roundsLeft]
    omega
  all_goals
    rw [‹s.main = _›]
    simp only [setMain, setWorker, setRet, State.broadcast, MainPhase.weight]
    omega

theorem Useful.inv (hranges : ∀ range ∈ ranges, range.1 ≠ -1) (hi : Inv numThread ranges s)
    (h : Useful numThread s s') : Inv numThread ranges s' := by
  obtain ⟨t, ht, -⟩ := h
  cases t with
  | main => exact hi.step_main hranges (mainMove ht)
  | worker tid => exact hi.step_worker (workerMove ht)

theorem Useful.decreases (hi : Inv numThread ranges s) (h : Useful numThread s s') :
    s'.main.weight numThread s'.input.length < s.main.weight numThread s.input.length ∨
      s'.main.weight numThread s'.input.length = s.main.weight numThread s.input.length ∧
        s'.workersLeft numThread < s.workersLeft numThread := by
  obtain ⟨t, ht, huseful⟩ := h
  cases t with
  | main => exact .inl ((mainMove ht).weight_lt hi (huseful rfl))
  | worker tid =>
    have hmove := workerMove ht
    have hframe := hmove.frame
    have hlt := hmove.weight_lt hi
    refine .inr ⟨by rw [hframe.main, hframe.input], ?_⟩
    refine Finset.sum_lt_sum (fun w _ => ?_) ⟨tid, Finset.mem_range.mpr (hi.lt_of_moves hmove), hlt⟩
    by_cases hw : w = tid
    · rw [hw]
      exact Nat.le_of_lt hlt
    · rw [hframe.worker w hw, hframe.range]

/-! ### Nobody is stuck -/

theorem useful_worker {s' : State} (h : s.workerStep numThread tid = some s') :
    ∃ s', Useful numThread s s' := ⟨s', .worker tid, h, fun hmain => Thread.noConfusion hmain⟩

theorem useful_main {s' : State} (h : s.mainStep numThread = some s') (hmissing : ¬ s.Missing numThread) :
    ∃ s', Useful numThread s s' := ⟨s', .main, h, fun _ => hmissing⟩

/-- The owner of the mutex can go on. -/
theorem Inv.owner_moves (hi : Inv numThread ranges s) (h : s.mtxForWorkers ≠ none) :
    ∃ s', Useful numThread s s' := by
  obtain ⟨t, howner⟩ := Option.ne_none_iff_exists'.mp h
  have hholds := (hi.guards t).mp howner
  cases t with
  | main =>
    have hmissing : ¬ s.Missing numThread := by
      rintro ⟨i, -, hm, -⟩
      rw [Holds, hm] at hholds
      cases hholds
    simp only [Holds] at hholds
    cases hm : s.main <;> rw [hm] at hholds <;> cases hholds <;>
      exact useful_main (by rw [mainStep, hm]) hmissing
  | worker tid =>
    simp only [Holds] at hholds
    cases hw : s.worker tid <;> rw [hw] at hholds <;> cases hholds <;>
      exact useful_worker (by rw [workerStep, hw])

/-- While the mutex is free, a worker that cannot go on waits, has ended or does not exist. -/
theorem Inv.worker_moves (hi : Inv numThread ranges s) (hfree : s.mtxForWorkers = none)
    (hw : tid < numThread) : (∃ s', Useful numThread s s') ∨
      s.worker tid = .waiting ∨ s.worker tid = .finished ∨ s.worker tid = .notCreated := by
  cases hph : s.worker tid
  case waiting => exact .inr (.inl rfl)
  case finished => exact .inr (.inr (.inl rfl))
  case notCreated => exact .inr (.inr (.inr rfl))
  case split loaded =>
    left
    cases hnext : (loads numThread tid)[loaded.length]? with
    | none =>
      obtain ⟨start, stop, hpiece, -⟩ := split_share (hi.loaded hw hph) hnext
      exact useful_worker (by rw [workerStep, hph]; simp only [hnext, hpiece, Option.map_some]; rfl)
    | some bound => exact useful_worker (by rw [workerStep, hph]; simp only [hnext]; rfl)
  case lockFirst => exact .inl (useful_worker (by rw [workerStep, hph]; exact if_pos hfree))
  case relock => exact .inl (useful_worker (by rw [workerStep, hph]; exact if_pos hfree))
  case lock => exact .inl (useful_worker (by rw [workerStep, hph]; exact if_pos hfree))
  all_goals exact .inl (useful_worker (by rw [workerStep, hph]))

theorem Inv.moves (hi : Inv numThread ranges s) (hend : s.main ≠ .finished) : ∃ s', Useful numThread s s' := by
  by_cases hfree : s.mtxForWorkers = none
  case neg => exact hi.owner_moves hfree
  by_cases hresting : ∀ w < numThread,
    s.worker w = .waiting ∨ s.worker w = .finished ∨ s.worker w = .notCreated
  case neg =>
    simp only [not_forall] at hresting
    obtain ⟨w, hw, hnot⟩ := hresting
    exact (hi.worker_moves hfree hw).resolve_right hnot
  have hmain : ∀ {s'}, s.mainStep numThread = some s' → (∀ i, s.main ≠ .check i) →
      ∃ s', Useful numThread s s' := fun h hcheck =>
    useful_main h fun ⟨i, _, hm, _⟩ => hcheck i hm
  cases hm : s.main
  case finished => exact absurd hm hend
  case check i =>
    by_cases hlt : i < numThread
    · have hok := hi.workers i hlt
      rw [hm] at hok
      have hret : s.threadRet i ≠ -1 := by
        rcases hresting i hlt with hw | hw | hw <;> rw [hw] at hok
        · rw [show s.threadRet i = share numThread i s.range from hok]
          exact share_ne numThread i s.range
        · exact absurd hok id
        · exact absurd hok id
      refine useful_main (by rw [mainStep, hm]; exact (if_pos hlt).trans (if_neg hret)) ?_
      rintro ⟨j, -, hj, hmissing⟩
      obtain rfl : i = j := MainPhase.check.inj (hm.symm.trans hj)
      exact hret hmissing
    · refine useful_main (by rw [mainStep, hm]; exact if_neg hlt) ?_
      rintro ⟨j, hj, hmj, -⟩
      obtain rfl : i = j := MainPhase.check.inj (hm.symm.trans hmj)
      exact hlt hj
  all_goals
    have hcheck : ∀ i, s.main ≠ .check i := by
      intro i he
      rw [hm] at he
      cases he
  case create i =>
    by_cases hlt : i < numThread
    · exact hmain (by rw [mainStep, hm]; exact if_pos hlt) hcheck
    · exact hmain (by rw [mainStep, hm]; exact if_neg hlt) hcheck
  case awaitReady i =>
    have hmain' := hi.main
    rw [hm] at hmain'
    have hok := hi.workers i hmain'.1
    rw [hm] at hok
    rcases hok.2.1 rfl with ⟨hph, -⟩ | hready
    · rcases hph with hph | hph <;> have hrest := hresting i hmain'.1 <;> simp [hph] at hrest
    · exact hmain (by rw [mainStep, hm]; exact if_pos hready.2) hcheck
  case reset i =>
    by_cases hlt : i < numThread
    · exact hmain (by rw [mainStep, hm]; exact if_pos hlt) hcheck
    · exact hmain (by rw [mainStep, hm]; exact if_neg hlt) hcheck
  case collect i cntPrime =>
    by_cases hlt : i < numThread
    · exact hmain (by rw [mainStep, hm]; exact if_pos hlt) hcheck
    · exact hmain (by rw [mainStep, hm]; exact if_neg hlt) hcheck
  case join i =>
    by_cases hlt : i < numThread
    · have hok := hi.workers i hlt
      rw [hm] at hok
      have hended : s.worker i = .finished := by
        rcases hresting i hlt with hw | hw | hw
        · simp [hw, WorkerOk, MainPhase.stage] at hok
        · exact hw
        · simp [hw, WorkerOk, MainPhase.stage] at hok
      exact hmain (by rw [mainStep, hm]; exact (if_pos hlt).trans (if_pos hended)) hcheck
    · exact hmain (by rw [mainStep, hm]; exact if_neg hlt) hcheck
  case lock => exact hmain (by rw [mainStep, hm]; exact if_pos hfree) hcheck
  case lockLast => exact hmain (by rw [mainStep, hm]; exact if_pos hfree) hcheck
  all_goals exact hmain (by rw [mainStep, hm]) hcheck

/-! ### What is printed -/

/-- What has been printed are the counts of the first ranges. -/
theorem prefix_of_between {input printed : List Int} (h : Between numThread ranges input printed) :
    printed <+: ranges.map (total numThread) := by
  obtain ⟨earlier, rest, rfl, -, rfl⟩ := h
  rw [List.map_append]
  exact List.prefix_append ..

theorem prefix_of_inRound {input printed : List Int} (h : InRound numThread ranges range input printed) :
    printed <+: ranges.map (total numThread) := by
  obtain ⟨earlier, rest, hrest, -, hprinted⟩ := h
  exact prefix_of_between ⟨earlier, range :: rest, hrest, rfl, hprinted⟩

theorem Inv.printed_initial (hi : Inv numThread ranges s) : s.printed <+: ranges.map (total numThread) := by
  have hm := hi.main
  cases hmain : s.main <;> rw [hmain] at hm
  case create => exact prefix_of_between hm.2
  case awaitReady => exact prefix_of_between hm.2
  case scanStart => exact prefix_of_between hm
  case checkStart => exact prefix_of_between hm
  case scanEnd => exact prefix_of_between hm.2
  case reset => exact prefix_of_inRound hm.2
  case check => exact prefix_of_inRound hm.2
  case lock => exact prefix_of_inRound hm
  case broadcast => exact prefix_of_inRound hm
  case unlock => exact prefix_of_inRound hm
  case collect => exact prefix_of_inRound hm.1
  case print => exact prefix_of_inRound hm.1
  all_goals exact hm ▸ List.prefix_refl _

/-- The worker has entered the round and has not stored its count yet. -/
def WorkerPhase.computing : WorkerPhase → Bool
  | .split _ | .count .. | .lock _ | .store _ => true
  | _ => false

/-- The range does not change under a worker that computes. -/
theorem Inv.range_stable (hi : Inv numThread ranges s) {t : Thread} (h : threadStep numThread s t = some s')
    (hw : tid < numThread) (hc : (s.worker tid).computing = true) : s'.range = s.range := by
  have hparked : ¬ (s.worker tid).Parked := by
    rintro (hph | hph) <;> rw [hph] at hc <;> cases hc
  cases t with
  | worker u => exact (workerMove h).frame.range
  | main =>
    have hok := hi.workers tid hw
    cases mainMove h
    case scanStart here =>
      rw [here] at hok
      exact absurd hok.1 hparked
    case scanEnd here =>
      rw [here] at hok
      exact absurd hok.1 hparked
    all_goals rfl

/-- The main thread adds up the counts of this round, no worker computes with two ranges, and the
counts of the ranges are printed in order. If the scan does not start again for ever, all of them
are, and then all threads have ended. -/
theorem scan_rounds_exact (hn : 0 < numThread) (hranges : ∀ range ∈ ranges, range.1 ≠ -1)
    (hs : Reachable (spinSystem numThread ranges) s) :
    s.printed <+: counts ranges ∧
    (∀ i cntPrime, s.main = .collect i cntPrime →
      ∀ w < numThread, s.threadRet w = share numThread w s.range) ∧
    (∀ t s', threadStep numThread s t = some s' →
      (∃ w < numThread, (s.worker w).computing = true) → s'.range = s.range) ∧
    Ends (Useful numThread) (fun t => t.main = .finished ∧ t.printed = counts ranges ∧
      ∀ w < numThread, t.worker w = .finished) s := by
  have hi := inv_of_reachable hranges hs
  rw [← map_total hn]
  refine ⟨hi.printed_initial, fun i cntPrime hm w hw => ?_, fun t s' h hcomputing => ?_, ?_⟩
  · have hok := hi.workers w hw
    rw [hm] at hok
    exact hok.2
  · obtain ⟨w, hw, hc⟩ := hcomputing
    exact hi.range_stable h hw hc
  · refine (Ends.of_lex (P := fun s => s.main = .finished)
      (fun s => s.main.weight numThread s.input.length) (State.workersLeft numThread) hi
      (fun s hi hend => hi.moves hend) (fun s s' hi h => h.inv hranges hi)
      fun s s' hi h => h.decreases hi).mono fun t ⟨hit, hm⟩ => ⟨hm, ?_, fun w hw => (hit.joined w hw).2 hm⟩
    have hprinted := hit.main
    rw [hm] at hprinted
    exact hprinted

theorem scan_rounds_exact_twoRounds : Ends (Useful 10) (fun t => t.main = .finished ∧ t.printed = [25, 0] ∧
    ∀ w < 10, t.worker w = .finished) (.new (tokens [(1, 100), (10, 9)])) := by
  have hcounts : counts [(1, 100), (10, 9)] = [25, 0] := by
    rw [← map_total (by decide : 0 < 10)]
    decide +kernel
  rw [← hcounts]
  exact (scan_rounds_exact (by decide) (by decide) (.init rfl)).2.2.2

/-- Whatever the threads of the two versions do, one has printed what the other has or will. -/
theorem versions_agree (hn : 0 < numThread) (hranges : ∀ range ∈ ranges, range.1 ≠ -1)
    (hs : Reachable (spinSystem numThread ranges) s) {t : PrimeCond.State}
    (ht : Reachable (PrimeCond.primeSystem numThread ranges) t) :
    (s.printed <+: t.printed ∨ t.printed <+: s.printed) ∧
    (s.main = .finished → t.main = .finished → s.printed = counts ranges ∧ t.printed = counts ranges) := by
  have hi := inv_of_reachable hranges hs
  have hit := PrimeCond.inv_of_reachable hranges ht
  rw [← map_total hn]
  refine ⟨List.prefix_or_prefix_of_prefix hi.printed_initial hit.printed_initial, fun hm hm' => ⟨?_, ?_⟩⟩
  · have hprinted := hi.main
    rw [hm] at hprinted
    exact hprinted
  · have hprinted := hit.main
    rw [hm'] at hprinted
    rw [hprinted.2, hprinted.1]

/-- One worker, one range, and each thread goes as far as it can. -/
def inTurn (numbers : List (Nat × Nat)) : List Thread :=
  numbers.flatMap fun (main, worker) => List.replicate main .main ++ List.replicate worker (.worker 0)

theorem versions_agree_twoPrimes : ∃ s t,
    (inTurn [(1, 3), (10, 17), (11, 3), (2, 0)]).foldlM (threadStep 1) (.new (tokens [(2, 3)])) = some s ∧
    (inTurn [(1, 3), (11, 23), (13, 3), (2, 0)]).foldlM (PrimeCond.threadStep 1) (.new (tokens [(2, 3)])) = some t ∧
    s.printed = [2] ∧ t.printed = [2] := by
  have hrun : ((inTurn [(1, 3), (10, 17), (11, 3), (2, 0)]).foldlM (threadStep 1) (.new (tokens [(2, 3)]))).map
      State.main = some .finished := by decide +kernel
  have hrun' : ((inTurn [(1, 3), (11, 23), (13, 3), (2, 0)]).foldlM (PrimeCond.threadStep 1)
      (.new (tokens [(2, 3)]))).map PrimeCond.State.main = some .finished := by decide +kernel
  obtain ⟨s, hs, hm⟩ := Option.map_eq_some_iff.mp hrun
  obtain ⟨t, ht, hm'⟩ := Option.map_eq_some_iff.mp hrun'
  have hstart : Reachable (spinSystem 1 [(2, 3)]) (.new (tokens [(2, 3)])) := .init rfl
  have hstart' : Reachable (PrimeCond.primeSystem 1 [(2, 3)]) (.new (tokens [(2, 3)])) := .init rfl
  have hboth := (versions_agree (by decide) (by decide) (hstart.foldlM (fun _ _ _ h => ⟨_, h⟩) hs)
    (hstart'.foldlM (fun _ _ _ h => ⟨_, h⟩) ht)).2 hm hm'
  have hcounts : counts [(2, 3)] = [2] := by
    rw [← map_total (by decide : 0 < 1)]
    decide +kernel
  exact ⟨s, t, hs, ht, by rw [hboth.1, hcounts], by rw [hboth.2, hcounts]⟩

end PrimeSpin
