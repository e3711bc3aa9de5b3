import HyuIte4065.PrimeCond.Tally

/-!
# The round protocol

In every reachable state the main thread and the workers are in step. The last worker of a
round does not let go of `mtx_for_workers` before it has signalled, and the main thread needs
that mutex for its next broadcast; so no signal is lost or reaches it in a later round, and
all workers wait when it broadcasts.
-/
namespace PrimeCond

open Mutex State Transition

def MainPhase.ended : MainPhase → Bool
  | .lockLast | .broadcastLast | .unlockLast | .join _ | .finished => true
  | _ => false

section
variable (numThread : Nat) (ranges : List (Int × Int))

/-- All ranges that have been read have been counted and printed. -/
def Between (rounds : List (Int × Int)) (input printed : List Int) : Prop :=
  (∃ rest, rounds ++ rest = ranges ∧ input = tokens rest) ∧ printed = rounds.map (total numThread)

/-- The workers have been given the range. -/
def InRound (range : Int × Int) (rounds : List (Int × Int)) (input printed : List Int) : Prop :=
  ∃ earlier rest, rounds = earlier ++ [range] ∧ rounds ++ rest = ranges ∧ input = tokens rest ∧
    printed = earlier.map (total numThread)

/-- What the main thread has read and printed, and the rounds it has started. -/
def MainOk (range : Int × Int) (rounds : List (Int × Int)) (input printed : List Int) : MainPhase → Prop
  | .create i => i ≤ numThread ∧ rounds = [] ∧ Between numThread ranges rounds input printed
  | .awaitReady i => i < numThread ∧ rounds = [] ∧ Between numThread ranges rounds input printed
  | .scanStart | .clearDone => Between numThread ranges rounds input printed
  | .checkStart => Between numThread ranges rounds (range.1 :: input) printed
  | .scanEnd => range.1 ≠ -1 ∧ Between numThread ranges rounds (range.1 :: input) printed
  | .reset _ | .zeroDone | .lock | .broadcast =>
    (∃ rest, rounds ++ range :: rest = ranges ∧ input = tokens rest) ∧ printed = rounds.map (total numThread)
  | .unlock | .lockMain | .testDone | .wait | .waiting | .relockMain | .unlockMain =>
    InRound numThread ranges range rounds input printed
  | .collect i cntPrime => InRound numThread ranges range rounds input printed ∧ i ≤ numThread ∧
    cntPrime = ((List.range i).map fun tid => share numThread tid range).sum
  | .print cntPrime => InRound numThread ranges range rounds input printed ∧ cntPrime = total numThread range
  | .setDone | .lockLast | .broadcastLast | .unlockLast | .join _ | .finished =>
    rounds = ranges ∧ printed = rounds.map (total numThread)

structure Inv (s : State) : Prop where
  locks : Locks s
  workers : ∀ w < numThread, s.WorkerOk numThread w
  beyond : ∀ w, numThread ≤ w → s.worker w = .notCreated
  isDone : s.isDone = s.main.ended
  tally : s.main.stage = .released → Tally numThread s
  zeroed : s.main = .lock ∨ s.main = .broadcast → s.done = 0
  awaited : s.main = .wait ∨ s.main = .waiting → Awaited numThread s
  main : MainOk numThread ranges s.range s.rounds s.input s.printed s.main
  joined : ∀ w < numThread, (∀ i, s.main = .join i → w < i → s.worker w = .finished) ∧
    (s.main = .finished → s.worker w = .finished)

end

variable {numThread tid : Nat} {ranges : List (Int × Int)} {s s' : State} {ph : WorkerPhase}

theorem ended_of_released {main : MainPhase} (h : main.stage = .released) : main.ended = false := by
  cases main <;> first | rfl | cases h

theorem ended_of_ending {main : MainPhase} (h : main.stage = .ending) : main.ended = true := by
  cases main <;> first | rfl | cases h

/-- A worker that is done and does not hold the mutex waits. -/
theorem waiting_of_parked (hp : ph.parked = true) (hh : ph.holdsWorkers ≠ true) : ph = .waiting := by
  cases ph <;> first | rfl | exact absurd rfl hh | cases hp

theorem WorkerMove.unfinished (h : WorkerMove numThread s tid s') : s.worker tid ≠ .finished := by
  intro hw
  cases h <;> simp_all only [reduceCtorEq]

theorem WorkerFrame.range (h : WorkerFrame s s' tid) : s'.range = s.range := by
  rw [State.range, State.range, h.rangeStart, h.rangeEnd]

/-- A step of a worker that leaves the main thread where it is. -/
theorem Inv.step_worker (hi : Inv numThread ranges s) (h : WorkerMove numThread s tid s')
    (hmain : s'.main = s.main) : Inv numThread ranges s' := by
  have hframe := h.frame
  have htid : tid < numThread := by
    by_contra hge
    exact h.created (hi.beyond tid (Nat.not_lt.mp hge))
  have hready : s.main.stage = .released → s.worker tid ≠ .storeReady := by
    intro hstage hw
    have hok := hi.workers tid htid
    rw [State.WorkerOk, hstage, hw] at hok
    exact hok
  refine ⟨hi.locks.step_worker h, fun w hw => ?_, fun w hw => ?_, ?_, fun hstage => ?_, fun hz => ?_,
    fun ha => ?_, ?_, fun w hw => ?_⟩
  · by_cases hwt : w = tid
    · subst hwt
      exact h.ok (hi.workers w hw) (fun hs => by rw [hi.isDone, ended_of_released hs])
        (fun hs => by rw [hi.isDone, ended_of_ending hs]) hmain
    · have hok := hi.workers w hw
      rw [State.WorkerOk] at hok ⊢
      rwa [hframe.range, hframe.rounds, hmain, hframe.worker w hwt, hframe.threadRet w hwt,
        hframe.stored w hwt]
  · rw [hframe.worker w (by omega)]
    exact hi.beyond w hw
  · rw [hframe.isDone, hmain, hi.isDone]
  · rw [hmain] at hstage
    exact (hi.tally hstage).step hi.locks h htid (hready hstage)
  · rw [hmain] at hz
    have hok := hi.workers tid htid
    have hstage : s.main.stage = .gathered := by rcases hz with hz | hz <;> rw [hz] <;> rfl
    rw [State.WorkerOk, hstage] at hok
    rw [(h.parked hok.1).2.2.2, hi.zeroed hz]
  · rw [hmain] at ha
    have hstage : s.main.stage = .released := by rcases ha with ha | ha <;> rw [ha] <;> rfl
    exact (hi.awaited ha).step (hi.tally hstage) hi.locks h htid (hready hstage) ha hmain
  · rw [hframe.range, hframe.rounds, hframe.input, hframe.printed, hmain]
    exact hi.main
  · rw [hmain]
    by_cases hwt : w = tid
    · subst hwt
      refine ⟨fun i hm hlt => ?_, fun hm => ?_⟩
      · exact absurd ((hi.joined w hw).1 i hm hlt) h.unfinished
      · exact absurd ((hi.joined w hw).2 hm) h.unfinished
    · rw [hframe.worker w hwt]
      exact hi.joined w hw

/-- The last worker of a round wakes up the main thread. -/
theorem Inv.step_signal (hi : Inv numThread ranges s) (h : WorkerMove numThread s tid s')
    (here : s.worker tid = .signal) (waits : s.main = .waiting) (hmain : s'.main = .relockMain) :
    Inv numThread ranges s' := by
  have hframe := h.frame
  have htid : tid < numThread := by
    by_contra hge
    exact h.created (hi.beyond tid (Nat.not_lt.mp hge))
  have hstage : s.main.stage = .released := by rw [waits]; rfl
  have hparked := (hi.tally hstage).last tid htid (here ▸ .inr (.inr rfl))
  refine ⟨hi.locks.step_worker h, fun w hw => ?_, fun w hw => ?_, ?_, fun hs => ?_, fun hz => ?_,
    fun ha => ?_, ?_, fun w hw => ?_⟩
  · have hok := hi.workers w hw
    rw [State.WorkerOk, hstage] at hok
    obtain ⟨hret, hstored⟩ := hok.parked (hparked w hw)
    rw [State.WorkerOk, hframe.range, hframe.rounds, hmain]
    by_cases hwt : w = tid
    · subst hwt
      obtain ⟨hp', hret', hstored', -⟩ := h.parked (hparked w hw)
      exact ⟨hp', by rw [hret', hret], by rw [hstored']; exact hstored⟩
    · rw [hframe.worker w hwt, hframe.threadRet w hwt, hframe.stored w hwt]
      exact ⟨hparked w hw, hret, hstored⟩
  · rw [hframe.worker w (by omega)]
    exact hi.beyond w hw
  · rw [hframe.isDone, hmain, hi.isDone, waits]
    rfl
  · rw [hmain] at hs
    cases hs
  · rw [hmain] at hz
    rcases hz with hz | hz <;> cases hz
  · rw [hmain] at ha
    rcases ha with ha | ha <;> cases ha
  · have hm := hi.main
    rw [waits] at hm
    rw [hframe.range, hframe.rounds, hframe.input, hframe.printed, hmain]
    exact hm
  · rw [hmain]
    exact ⟨nofun, nofun⟩

/-- When the main thread holds the mutex and all workers are done, all of them wait. -/
theorem Inv.all_wait (hi : Inv numThread ranges s) (hstage : s.main.stage = .gathered)
    (hh : s.main.holdsWorkers = true) {w : Nat} (hw : w < numThread) : s.worker w = .waiting := by
  have hok := hi.workers w hw
  rw [State.WorkerOk, hstage] at hok
  refine waiting_of_parked hok.1 fun hworker => ?_
  have hthread : Thread.worker w = .main :=
    hi.locks.workers.unique (by rw [HoldsWorkers, hworker]) (by rw [HoldsWorkers, hh])
  cases hthread

theorem Inv.fresh (hi : Inv numThread ranges s) (i : Nat) (hc : s.main = .create i) :
    s.worker i = .notCreated := by
  by_cases hlt : i < numThread
  · have hok := hi.workers i hlt
    rw [State.WorkerOk, hc] at hok
    exact (hok.2.2 (Nat.le_refl i)).1
  · exact hi.beyond i (Nat.not_lt.mp hlt)

theorem MainMove.workers_ok (hi : Inv numThread ranges s) (h : MainMove numThread s s') {w : Nat}
    (hw : w < numThread) : s'.WorkerOk numThread w := by
  have hok := hi.workers w hw
  unfold State.WorkerOk at hok ⊢
  cases h
  case create i here more =>
    rw [here] at hok
    obtain ⟨hup, hready, hfresh⟩ := hok
    by_cases hwi : w = i
    · subst hwi
      refine ⟨hup, fun hlt => by omega, fun _ => .inl ⟨.inl (Function.update_self ..), ?_⟩, fun hlt => by omega⟩
      exact (hfresh (Nat.le_refl w)).2
    · have hworker : Function.update s.worker i .lockFirst w = s.worker w := Function.update_of_ne hwi _ _
      simp only [setMain, setWorker, hworker]
      exact ⟨hup, hready, fun he => absurd he hwi, fun hlt => hfresh (by omega)⟩
  case created i here all =>
    rw [here] at hok
    exact ⟨(hok.2.1 (by omega)).parked, hok.1⟩
  case awaitReady i here ready =>
    rw [here] at hok
    obtain ⟨hup, hready, hnew, hfresh⟩ := hok
    refine ⟨hup, fun hlt => ?_, fun hle => hfresh (by omega)⟩
    by_cases hwi : w = i
    · rcases hnew hwi with ⟨-, hret⟩ | hr
      · rw [hwi, ready] at hret
        cases hret
      · exact hr
    · exact hready (by omega)
  case broadcast here =>
    have hwait := hi.all_wait (by rw [here]; rfl) (by rw [here]; rfl) hw
    rw [here] at hok
    simp only [setMain, State.broadcast, hwait, if_true]
    show s.stored w ++ _ = List.map _ (s.rounds ++ [s.range])
    rw [hok.2, List.map_append]
    rfl
  case broadcastLast here =>
    have hwait := hi.all_wait (by rw [here]; rfl) (by rw [here]; rfl) hw
    rw [here] at hok
    simp only [setMain, State.broadcast, hwait, if_true]
    exact ⟨.inl rfl, hok.2⟩
  case allDone here all =>
    have hstage : s.main.stage = .released := by rw [here]; rfl
    have htally := hi.tally hstage
    have hparked : (s.worker w).parked = true := by
      refine card_parked_eq.mp (Nat.le_antisymm card_parked_le ?_) w hw
      rw [← htally.done]
      exact Nat.not_lt.mp all
    rw [hstage] at hok
    obtain ⟨hret, hstored⟩ := hok.parked hparked
    exact ⟨hparked, hret, hstored⟩
  case clearDone here =>
    rw [here] at hok
    exact ⟨hok.1, hok.2.2⟩
  all_goals
    rw [‹s.main = _›] at hok
    exact hok

theorem tokens_cons (rest : List (Int × Int)) (default : Int) :
    (tokens rest).headD default :: (tokens rest).tail = tokens rest := by
  cases rest <;> rfl

theorem MainMove.main_ok (hranges : ∀ range ∈ ranges, range.1 ≠ -1) (hi : Inv numThread ranges s)
    (h : MainMove numThread s s') :
    MainOk numThread ranges s'.range s'.rounds s'.input s'.printed s'.main := by
  have hm := hi.main
  cases h
  case create here more =>
    rw [here] at hm
    exact ⟨more, hm.2⟩
  case created here _ =>
    rw [here] at hm
    exact hm.2.2
  case awaitReady here _ =>
    rw [here] at hm
    exact ⟨hm.1, hm.2⟩
  case scanStart here =>
    rw [here] at hm
    obtain ⟨⟨rest, hrest, hinput⟩, hprinted⟩ := hm
    refine ⟨⟨rest, hrest, ?_⟩, hprinted⟩
    simp only [State.range, setMain, hinput, tokens_cons]
  case noMore here last =>
    rw [here] at hm
    obtain ⟨⟨rest, hrest, hinput⟩, hprinted⟩ := hm
    cases rest with
    | nil => exact ⟨by rw [← hrest, List.append_nil]; rfl, hprinted⟩
    | cons range rest =>
      have hfirst : s.rangeStart = range.1 := (List.cons.inj hinput).1
      exact absurd (hfirst.symm.trans last) (hranges range (by rw [← hrest]; simp))
  case more here more =>
    rw [here] at hm
    exact ⟨more, hm⟩
  case scanEnd here =>
    rw [here] at hm
    obtain ⟨hne, ⟨rest, hrest, hinput⟩, hprinted⟩ := hm
    cases rest with
    | nil => exact absurd (List.cons.inj hinput).1 hne
    | cons range rest =>
      have hfirst : s.rangeStart = range.1 := (List.cons.inj hinput).1
      have hsecond : s.input = range.2 :: tokens rest := (List.cons.inj hinput).2
      refine ⟨⟨rest, ?_, by simp only [hsecond, List.tail_cons]⟩, hprinted⟩
      simp only [State.range, setMain, hsecond, List.headD_cons, hfirst]
      exact hrest
  case broadcast here =>
    rw [here] at hm
    obtain ⟨⟨rest, hrest, hinput⟩, hprinted⟩ := hm
    exact ⟨s.rounds, rest, rfl, by rw [← hrest, List.append_assoc]; rfl, hinput, hprinted⟩
  case unlockMain here =>
    rw [here] at hm
    exact ⟨hm, Nat.zero_le _, rfl⟩
  case collect i cntPrime here more =>
    rw [here] at hm
    obtain ⟨hround, -, hcnt⟩ := hm
    have hok := hi.workers i more
    rw [State.WorkerOk, here] at hok
    refine ⟨hround, more, ?_⟩
    rw [hok.2.1, hcnt, List.range_succ, List.map_append, List.sum_append]
    simp [State.range, setMain]
  case collected i cntPrime here all =>
    rw [here] at hm
    obtain ⟨hround, hle, hcnt⟩ := hm
    obtain rfl : i = numThread := by omega
    exact ⟨hround, hcnt⟩
  case print here =>
    rw [here] at hm
    obtain ⟨⟨earlier, rest, hrounds, hrest, hinput, hprinted⟩, hcnt⟩ := hm
    refine ⟨⟨rest, hrest, hinput⟩, ?_⟩
    simp only [setMain]
    rw [hrounds, hprinted, hcnt, List.map_append]
    rfl
  all_goals
    rw [‹s.main = _›] at hm
    exact hm

theorem Inv.tally_of_same (hi : Inv numThread ranges s) (hstage : s.main.stage = .released)
    (hdone : s'.done = s.done) (hworker : s'.worker = s.worker) : Tally numThread s' := by
  have htally := hi.tally hstage
  refine ⟨?_, ?_, ?_⟩
  · rw [hdone, htally.done, parkedWorkers, parkedWorkers, hworker]
  · rw [hdone, hworker]
    exact htally.order
  · rw [hworker]
    exact htally.last

/-- At the start of a round nobody has finished it. -/
theorem Inv.tally_broadcast (hi : Inv numThread ranges s) (here : s.main = .broadcast) :
    Tally numThread { s.broadcast.setMain .unlock with rounds := s.rounds ++ [(s.rangeStart, s.rangeEnd)] } := by
  have hrelock : ∀ w < numThread, s.broadcast.worker w = .relock := fun w hw =>
    if_pos (hi.all_wait (by rw [here]; rfl) (by rw [here]; rfl) hw)
  refine ⟨?_, fun w hw d hd => ?_, fun w hw hl => ?_⟩
  · refine (hi.zeroed (.inr here)).trans (Finset.card_eq_zero.mpr ?_).symm
    refine Finset.filter_eq_empty_iff.mpr fun w hw => ?_
    simp only [setMain, hrelock w (Finset.mem_range.mp hw), WorkerPhase.parked, Bool.false_eq_true,
      not_false_eq_true]
  · simp only [setMain, hrelock w hw, reduceCtorEq] at hd
  · simp only [setMain, hrelock w hw] at hl
    exact absurd (Last.parked hl) Bool.false_ne_true

/-- A step of the main thread. -/
theorem Inv.step_main (hranges : ∀ range ∈ ranges, range.1 ≠ -1) (hi : Inv numThread ranges s)
    (h : MainMove numThread s s') : Inv numThread ranges s' := by
  refine ⟨hi.locks.step_main h hi.fresh, fun w hw => h.workers_ok hi hw, fun w hw => ?_, ?_, fun hs => ?_,
    fun hz => ?_, fun ha => ?_, h.main_ok hranges hi, fun w hw => ?_⟩
  · rcases h.worker w with hsame | ⟨hwait, -⟩ | ⟨-, hlt, -⟩
    · rw [hsame]
      exact hi.beyond w hw
    · rw [hi.beyond w hw] at hwait
      cases hwait
    · omega
  · have hdone := hi.isDone
    cases h
    case setDone => rfl
    all_goals
      rw [‹s.main = _›] at hdone
      exact hdone
  · cases h
    case broadcast here => exact hi.tally_broadcast here
    case unlock here => exact hi.tally_of_same (by rw [here]; rfl) rfl rfl
    case lockMain here _ => exact hi.tally_of_same (by rw [here]; rfl) rfl rfl
    case unfinished here _ => exact hi.tally_of_same (by rw [here]; rfl) rfl rfl
    case wait here => exact hi.tally_of_same (by rw [here]; rfl) rfl rfl
    all_goals cases hs
  · cases h
    case zeroDone => rfl
    case lock here _ => exact hi.zeroed (.inl here)
    all_goals rcases hz with hz | hz <;> cases hz
  · cases h
    case unfinished here unfinished =>
      have htally := hi.tally (by rw [here]; rfl)
      left
      by_contra hall
      simp only [not_exists, not_and, Bool.not_eq_false] at hall
      have hfull : (parkedWorkers numThread s).card = numThread := card_parked_eq.mpr hall
      rw [htally.done, hfull] at unfinished
      omega
    case wait here => exact hi.awaited (.inl here)
    all_goals rcases ha with ha | ha <;> cases ha
  · cases h
    case unlockLast => exact ⟨fun i hm hlt => by cases hm; omega, nofun⟩
    case join i here more ended =>
      refine ⟨fun j hm hlt => ?_, nofun⟩
      cases hm
      by_cases hwi : w = i
      · rwa [hwi]
      · exact (hi.joined w hw).1 i here (by omega)
    case joined i here all => exact ⟨nofun, fun _ => (hi.joined w hw).1 i here (by omega)⟩
    all_goals exact ⟨nofun, nofun⟩

theorem Inv.new : Inv numThread ranges (.new (tokens ranges)) := by
  refine ⟨.new, fun w _ => ?_, fun _ _ => rfl, rfl, nofun, fun hz => ?_, fun ha => ?_, ?_, fun w _ => ⟨nofun, nofun⟩⟩
  · exact ⟨rfl, fun hlt => by omega, fun _ => ⟨rfl, rfl⟩⟩
  · rcases hz with hz | hz <;> cases hz
  · rcases ha with ha | ha <;> cases ha
  · exact ⟨Nat.zero_le _, rfl, ⟨ranges, rfl, rfl⟩, rfl⟩

theorem inv_of_reachable (hranges : ∀ range ∈ ranges, range.1 ≠ -1)
    (hs : Reachable (primeSystem numThread ranges) s) : Inv numThread ranges s := by
  refine hs.invariant ?_ fun s t s' _ hi h => ?_
  · rintro s rfl
    exact .new
  · cases t with
    | main => exact hi.step_main hranges (mainMove h)
    | worker tid =>
      have hmove := workerMove h
      rcases hmove.frame.main with hmain | ⟨here, waits, hmain⟩
      · exact hi.step_worker hmove hmain
      · exact hi.step_signal hmove here waits hmain

end PrimeCond
