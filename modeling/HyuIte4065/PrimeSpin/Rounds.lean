import HyuIte4065.PrimeCond.Protocol
import HyuIte4065.PrimeSpin.Moves

/-!
# The workers keep to the rounds

Where the main thread is decides where the workers can be and what is in their entries of
`thread_ret`. An entry is -1 from the reset until its worker has counted, so a scan that finds no -1
finds the counts of this round.
-/
namespace PrimeSpin

open Mutex State Transition
open PrimeCond

/-- What the position of the main thread says about the workers. -/
inductive Stage where
  | starting (i : Nat)
  | started (i : Nat)
  -- all wait or will, and the first entries are -1
  | gathered (cleared : Nat)
  | released
  | collected
  | ending

def MainPhase.stage (numThread : Nat) : MainPhase → Stage
  | .create i => .starting i
  | .awaitReady i => .started i
  | .scanStart | .checkStart | .scanEnd | .setDone | .lockLast | .broadcastLast => .gathered 0
  | .reset i => .gathered i
  | .lock | .broadcast => .gathered numThread
  | .unlock | .check _ => .released
  | .collect .. | .print _ => .collected
  | .unlockLast | .join _ | .finished => .ending

def MainPhase.ended : MainPhase → Bool
  | .lockLast | .broadcastLast | .unlockLast | .join _ | .finished => true
  | _ => false

/-- The worker has stored and is going to wait. -/
def WorkerPhase.Parked (ph : WorkerPhase) : Prop := ph = .wait ∨ ph = .waiting

section
variable (numThread : Nat) (range : Int × Int) (tid : Nat)

/-- A worker while the range is the same for all. -/
def Working (ph : WorkerPhase) (ret : Int) : Prop :=
  match ph with
  | .relock | .unlock | .checkDone => ret = -1
  | .split loaded => ret = -1 ∧ loaded = ((loads numThread tid).map (boundOf range)).take loaded.length
  | .count i stop cntPrime => ret = -1 ∧ cntPrime + countPrimes i stop = share numThread tid range
  | .lock cntPrime | .store cntPrime => ret = -1 ∧ cntPrime = share numThread tid range
  | .wait | .waiting => ret = share numThread tid range
  | _ => False

def Ready (ph : WorkerPhase) (ret : Int) : Prop := ph.Parked ∧ ret = -1

def WorkerOk (stage : Stage) (ph : WorkerPhase) (ret : Int) : Prop :=
  match stage with
  | .starting i => (tid < i → Ready ph ret) ∧ (i ≤ tid → ph = .notCreated ∧ ret = 0)
  | .started i => (tid < i → Ready ph ret) ∧
    (tid = i → (ph = .lockFirst ∨ ph = .storeReady) ∧ ret = 0 ∨ Ready ph ret) ∧
    (i < tid → ph = .notCreated ∧ ret = 0)
  | .gathered cleared => ph.Parked ∧ (tid < cleared → ret = -1)
  | .released => Working numThread range tid ph ret
  | .collected => ph.Parked ∧ ret = share numThread tid range
  | .ending => ph = .relock ∨ ph = .unlock ∨ ph = .checkDone ∨ ph = .finished

end

section
variable (numThread : Nat) (ranges : List (Int × Int))

/-- All ranges that have been read have been counted and printed. -/
def Between (input printed : List Int) : Prop :=
  ∃ earlier rest, earlier ++ rest = ranges ∧ input = tokens rest ∧ printed = earlier.map (total numThread)

/-- All but the last of them. -/
def InRound (range : Int × Int) (input printed : List Int) : Prop :=
  ∃ earlier rest, earlier ++ range :: rest = ranges ∧ input = tokens rest ∧
    printed = earlier.map (total numThread)

def MainOk (range : Int × Int) (input printed : List Int) : MainPhase → Prop
  | .create i => i ≤ numThread ∧ Between numThread ranges input printed
  | .awaitReady i => i < numThread ∧ Between numThread ranges input printed
  | .scanStart => Between numThread ranges input printed
  | .checkStart => Between numThread ranges (range.1 :: input) printed
  | .scanEnd => range.1 ≠ -1 ∧ Between numThread ranges (range.1 :: input) printed
  | .reset i | .check i => i ≤ numThread ∧ InRound numThread ranges range input printed
  | .lock | .broadcast | .unlock => InRound numThread ranges range input printed
  | .collect i cntPrime => InRound numThread ranges range input printed ∧ i ≤ numThread ∧
    cntPrime = ((List.range i).map fun tid => share numThread tid range).sum
  | .print cntPrime => InRound numThread ranges range input printed ∧ cntPrime = total numThread range
  | .setDone | .lockLast | .broadcastLast | .unlockLast | .join _ | .finished =>
    printed = ranges.map (total numThread)

structure Inv (s : State) : Prop where
  guards : Guarded s
  workers : ∀ w < numThread,
    WorkerOk numThread s.range w (s.main.stage numThread) (s.worker w) (s.threadRet w)
  beyond : ∀ w, numThread ≤ w → s.worker w = .notCreated
  isDone : s.isDone = s.main.ended
  checked : ∀ i, s.main = .check i → ∀ w < i, s.threadRet w ≠ -1
  main : MainOk numThread ranges s.range s.input s.printed s.main
  joined : ∀ w < numThread, (∀ i, s.main = .join i → w < i → s.worker w = .finished) ∧
    (s.main = .finished → s.worker w = .finished)

end

variable {numThread tid : Nat} {ranges : List (Int × Int)} {s s' : State} {range : Int × Int} {ret : Int}
  {ph : WorkerPhase} {stage : Stage}

theorem share_nonneg (numThread tid : Nat) (range : Int × Int) : 0 ≤ share numThread tid range :=
  Int.natCast_nonneg _

theorem share_ne (numThread tid : Nat) (range : Int × Int) : share numThread tid range ≠ -1 := by
  have hnonneg := share_nonneg numThread tid range
  omega

/-! ### Steps of the workers -/

theorem WorkerMove.parked (h : WorkerMove numThread s tid s') (hp : (s.worker tid).Parked) :
    (s'.worker tid).Parked ∧ s'.threadRet tid = s.threadRet tid := by
  rcases hp with hp | hp
  · cases h
    case wait => exact ⟨.inr (Function.update_self ..), rfl⟩
    all_goals simp_all only [reduceCtorEq]
  · exact absurd hp h.moving.2.1

theorem WorkerMove.ready (h : WorkerMove numThread s tid s') (hr : Ready (s.worker tid) (s.threadRet tid)) :
    Ready (s'.worker tid) (s'.threadRet tid) := by
  obtain ⟨hp', hret'⟩ := h.parked hr.1
  exact ⟨hp', hret'.trans hr.2⟩

theorem WorkerMove.first (h : WorkerMove numThread s tid s')
    (hph : s.worker tid = .lockFirst ∨ s.worker tid = .storeReady) (hret : s.threadRet tid = 0) :
    (s'.worker tid = .lockFirst ∨ s'.worker tid = .storeReady) ∧ s'.threadRet tid = 0 ∨
      Ready (s'.worker tid) (s'.threadRet tid) := by
  cases h
  case lockFirst => exact .inl ⟨.inr (Function.update_self ..), hret⟩
  case storeReady => exact .inr ⟨.inl (Function.update_self ..), Function.update_self ..⟩
  all_goals simp_all only [reduceCtorEq, or_self]

/-- One step of the worker within a round. -/
theorem WorkerMove.working (h : WorkerMove numThread s tid s') (goes : s.isDone = false)
    (hok : Working numThread s.range tid (s.worker tid) (s.threadRet tid)) :
    Working numThread s.range tid (s'.worker tid) (s'.threadRet tid) := by
  cases h <;> simp only [setWorker, setRet, Function.update_self]
  case wait here => rwa [here] at hok
  case relock here _ => rwa [here] at hok
  case unlock here => rwa [here] at hok
  case leave _ ended => rw [goes] at ended; cases ended
  case enter here _ =>
    rw [here] at hok
    exact ⟨hok, rfl⟩
  case load here next =>
    rw [here] at hok
    exact ⟨hok.1, take_load hok.2 next⟩
  case split here all piece =>
    rw [here] at hok
    obtain ⟨start, stop, hpiece, hshare⟩ := split_share hok.2 all
    obtain ⟨rfl, rfl⟩ := Prod.mk.inj (Option.some.inj (piece.symm.trans hpiece))
    exact ⟨hok.1, by rw [hshare, Int.zero_add]⟩
  case count here more =>
    rw [here] at hok
    exact ⟨hok.1, by rw [Int.add_assoc, ← countPrimes_cons more]; exact hok.2⟩
  case counted here all =>
    rw [here] at hok
    have hcnt := hok.2
    rw [countPrimes_nil all, Int.add_zero] at hcnt
    exact ⟨hok.1, hcnt⟩
  case lock here _ => rwa [here] at hok
  case store here =>
    rw [here] at hok
    exact hok.2
  case lockFirst here _ =>
    rw [here] at hok
    exact absurd hok id
  case storeReady here =>
    rw [here] at hok
    exact absurd hok id

theorem WorkerMove.ending (h : WorkerMove numThread s tid s') (ended : s.isDone = true)
    (hph : s.worker tid = .relock ∨ s.worker tid = .unlock ∨ s.worker tid = .checkDone ∨
      s.worker tid = .finished) :
    s'.worker tid = .relock ∨ s'.worker tid = .unlock ∨ s'.worker tid = .checkDone ∨
      s'.worker tid = .finished := by
  cases h
  case relock => exact .inr (.inl (Function.update_self ..))
  case unlock => exact .inr (.inr (.inl (Function.update_self ..)))
  case leave => exact .inr (.inr (.inr (Function.update_self ..)))
  case enter _ goes => rw [ended] at goes; cases goes
  all_goals simp_all only [reduceCtorEq, or_self]

theorem WorkerMove.ok (h : WorkerMove numThread s tid s')
    (hok : WorkerOk numThread s.range tid stage (s.worker tid) (s.threadRet tid))
    (goes : stage = .released → s.isDone = false) (ended : stage = .ending → s.isDone = true) :
    WorkerOk numThread s.range tid stage (s'.worker tid) (s'.threadRet tid) := by
  cases stage with
  | starting i =>
    obtain ⟨hready, hfresh⟩ := hok
    refine ⟨fun hlt => h.ready (hready hlt), fun hle => ?_⟩
    exact absurd (hfresh hle).1 h.moving.1
  | started i =>
    obtain ⟨hready, hnew, hfresh⟩ := hok
    refine ⟨fun hlt => h.ready (hready hlt), fun heq => ?_, fun hgt => ?_⟩
    · rcases hnew heq with ⟨hph, hret⟩ | hr
      · exact h.first hph hret
      · exact .inr (h.ready hr)
    · exact absurd (hfresh hgt).1 h.moving.1
  | gathered cleared =>
    obtain ⟨hp', hret'⟩ := h.parked hok.1
    exact ⟨hp', fun hlt => hret'.trans (hok.2 hlt)⟩
  | released => exact h.working (goes rfl) hok
  | collected =>
    obtain ⟨hp', hret'⟩ := h.parked hok.1
    exact ⟨hp', hret'.trans hok.2⟩
  | ending => exact h.ending (ended rfl) hok

theorem ended_of_released {main : MainPhase} (h : main.stage numThread = .released) : main.ended = false := by
  cases main <;> first | rfl | cases h

theorem ended_of_ending {main : MainPhase} (h : main.stage numThread = .ending) : main.ended = true := by
  cases main <;> first | rfl | cases h

/-- An entry that is not -1 any more stays so during the round. -/
theorem WorkerMove.stays (h : WorkerMove numThread s tid s')
    (hok : Working numThread s.range tid (s.worker tid) (s.threadRet tid)) (hret : s.threadRet tid ≠ -1) :
    s'.threadRet tid ≠ -1 := by
  cases h
  case storeReady here =>
    rw [here] at hok
    exact absurd hok id
  case store here =>
    rw [here] at hok
    exact absurd hok.1 hret
  all_goals exact hret

theorem Inv.lt_of_moves (hi : Inv numThread ranges s) (h : WorkerMove numThread s tid s') : tid < numThread := by
  by_contra hge
  exact h.moving.1 (hi.beyond tid (Nat.not_lt.mp hge))

theorem Inv.step_worker (hi : Inv numThread ranges s) (h : WorkerMove numThread s tid s') :
    Inv numThread ranges s' := by
  have hframe := h.frame
  have htid := hi.lt_of_moves h
  refine ⟨hi.guards.step_worker h, fun w hw => ?_, fun w hw => ?_, ?_, fun i hm w hw => ?_, ?_, fun w hw => ?_⟩
  · rw [hframe.range, hframe.main]
    by_cases hwt : w = tid
    · subst hwt
      exact h.ok (hi.workers w hw) (fun hs => by rw [hi.isDone, ended_of_released hs])
        fun hs => by rw [hi.isDone, ended_of_ending hs]
    · rw [hframe.worker w hwt, hframe.threadRet w hwt]
      exact hi.workers w hw
  · rw [hframe.worker w (by omega)]
    exact hi.beyond w hw
  · rw [hframe.isDone, hframe.main, hi.isDone]
  · rw [hframe.main] at hm
    by_cases hwt : w = tid
    · subst hwt
      have hok := hi.workers w htid
      rw [hm] at hok
      exact h.stays hok (hi.checked i hm w hw)
    · rw [hframe.threadRet w hwt]
      exact hi.checked i hm w hw
  · rw [hframe.range, hframe.input, hframe.printed, hframe.main]
    exact hi.main
  · rw [hframe.main]
    by_cases hwt : w = tid
    · subst hwt
      refine ⟨fun i hm hlt => ?_, fun hm => ?_⟩
      · exact absurd ((hi.joined w hw).1 i hm hlt) h.moving.2.2
      · exact absurd ((hi.joined w hw).2 hm) h.moving.2.2
    · rw [hframe.worker w hwt]
      exact hi.joined w hw

/-! ### Steps of the main thread -/

theorem waiting_of_parked (hp : ph.Parked) (hh : ph.holds ≠ true) : ph = .waiting := by
  rcases hp with rfl | rfl
  · exact absurd rfl hh
  · rfl

/-- When the main thread holds the mutex and all workers have stored, all of them wait. -/
theorem Inv.all_wait (hi : Inv numThread ranges s) (hh : s.main.holds = true) {w : Nat}
    (hp : (s.worker w).Parked) : s.worker w = .waiting := by
  refine waiting_of_parked hp fun hworker => ?_
  have hthread : Thread.worker w = .main := hi.guards.unique (by rw [Holds, hworker]) (by rw [Holds, hh])
  cases hthread

theorem Inv.fresh (hi : Inv numThread ranges s) (i : Nat) (hc : s.main = .create i) :
    s.worker i = .notCreated := by
  by_cases hlt : i < numThread
  · have hok := hi.workers i hlt
    rw [hc] at hok
    exact (hok.2 (Nat.le_refl i)).1
  · exact hi.beyond i (Nat.not_lt.mp hlt)

/-- A worker whose entry is not -1 has stored its count. -/
theorem Working.stored {range : Int × Int} (h : Working numThread range tid ph ret) (hret : ret ≠ -1) :
    ph.Parked ∧ ret = share numThread tid range := by
  cases ph
  case wait => exact ⟨.inl rfl, h⟩
  case waiting => exact ⟨.inr rfl, h⟩
  case split => exact absurd h.1 hret
  case count => exact absurd h.1 hret
  case lock => exact absurd h.1 hret
  case store => exact absurd h.1 hret
  all_goals exact absurd h (by first | exact hret | exact id)

theorem MainMove.workers_ok (hi : Inv numThread ranges s) (h : MainMove numThread s s') {w : Nat}
    (hw : w < numThread) :
    WorkerOk numThread s'.range w (s'.main.stage numThread) (s'.worker w) (s'.threadRet w) := by
  have hok := hi.workers w hw
  cases h
  case create i here more =>
    rw [here] at hok
    obtain ⟨hready, hfresh⟩ := hok
    by_cases hwi : w = i
    · subst hwi
      refine ⟨fun hlt => by omega, fun _ => .inl ⟨.inl (Function.update_self ..), ?_⟩, fun hlt => by omega⟩
      exact (hfresh (Nat.le_refl w)).2
    · have hworker : Function.update s.worker i .lockFirst w = s.worker w := Function.update_of_ne hwi _ _
      simp only [setMain, setWorker, hworker]
      exact ⟨hready, fun he => absurd he hwi, fun hlt => hfresh (by omega)⟩
  case created i here all =>
    rw [here] at hok
    exact ⟨(hok.1 (by omega)).1, fun hlt => absurd hlt (Nat.not_lt_zero w)⟩
  case awaitReady i here ready =>
    rw [here] at hok
    obtain ⟨hready, hnew, hfresh⟩ := hok
    refine ⟨fun hlt => ?_, fun hle => hfresh (by omega)⟩
    by_cases hwi : w = i
    · rcases hnew hwi with ⟨-, hret⟩ | hr
      · rw [hwi, ready] at hret
        cases hret
      · exact hr
    · exact hready (by omega)
  case reset i here more =>
    rw [here] at hok
    refine ⟨hok.1, fun hlt => ?_⟩
    by_cases hwi : w = i
    · rw [hwi]
      exact Function.update_self ..
    · exact (Function.update_of_ne hwi _ _).trans (hok.2 (by omega))
  case resetAll i here all =>
    rw [here] at hok
    exact ⟨hok.1, fun _ => hok.2 (by omega)⟩
  case broadcast here =>
    rw [here] at hok
    have hwait := hi.all_wait (by rw [here]; rfl) hok.1
    simp only [setMain, State.broadcast, hwait, if_true]
    exact hok.2 hw
  case broadcastLast here =>
    rw [here] at hok
    have hwait := hi.all_wait (by rw [here]; rfl) hok.1
    simp only [setMain, State.broadcast, hwait, if_true]
    exact .inl rfl
  case allDone i here all =>
    rw [here] at hok
    exact hok.stored (hi.checked i here w (by omega))
  case print here =>
    rw [here] at hok
    exact ⟨hok.1, fun hlt => absurd hlt (Nat.not_lt_zero w)⟩
  all_goals
    rw [‹s.main = _›] at hok
    exact hok

theorem MainMove.main_ok (hranges : ∀ range ∈ ranges, range.1 ≠ -1) (hi : Inv numThread ranges s)
    (h : MainMove numThread s s') : MainOk numThread ranges s'.range s'.input s'.printed s'.main := by
  have hm := hi.main
  cases h
  case create here more =>
    rw [here] at hm
    exact ⟨more, hm.2⟩
  case created here _ =>
    rw [here] at hm
    exact hm.2
  case awaitReady here _ =>
    rw [here] at hm
    exact ⟨hm.1, hm.2⟩
  case scanStart here =>
    rw [here] at hm
    obtain ⟨earlier, rest, hrest, hinput, hprinted⟩ := hm
    refine ⟨earlier, rest, hrest, ?_, hprinted⟩
    simp only [State.range, setMain, hinput, tokens_cons]
  case noMore here last =>
    rw [here] at hm
    obtain ⟨earlier, rest, hrest, hinput, hprinted⟩ := hm
    cases rest with
    | nil =>
      rw [List.append_nil] at hrest
      exact hprinted.trans (by rw [hrest])
    | cons range rest =>
      have hfirst : s.rangeStart = range.1 := (List.cons.inj hinput).1
      exact absurd (hfirst.symm.trans last) (hranges range (by rw [← hrest]; simp))
  case more here more =>
    rw [here] at hm
    exact ⟨more, hm⟩
  case scanEnd here =>
    rw [here] at hm
    obtain ⟨hne, earlier, rest, hrest, hinput, hprinted⟩ := hm
    cases rest with
    | nil => exact absurd (List.cons.inj hinput).1 hne
    | cons range rest =>
      have hfirst : s.rangeStart = range.1 := (List.cons.inj hinput).1
      have hsecond : s.input = range.2 :: tokens rest := (List.cons.inj hinput).2
      refine ⟨Nat.zero_le _, earlier, rest, ?_, by simp only [hsecond, List.tail_cons], hprinted⟩
      simp only [State.range, setMain, hsecond, List.headD_cons, hfirst]
      exact hrest
  case reset here more =>
    rw [here] at hm
    exact ⟨more, hm.2⟩
  case resetAll here _ =>
    rw [here] at hm
    exact hm.2
  case unlock here =>
    rw [here] at hm
    exact ⟨Nat.zero_le _, hm⟩
  case again here _ _ _ =>
    rw [here] at hm
    exact ⟨Nat.zero_le _, hm.2⟩
  case check here more _ =>
    rw [here] at hm
    exact ⟨more, hm.2⟩
  case allDone here _ =>
    rw [here] at hm
    exact ⟨hm.2, Nat.zero_le _, rfl⟩
  case collect i cntPrime here more =>
    rw [here] at hm
    obtain ⟨hround, -, hcnt⟩ := hm
    have hok := hi.workers i more
    rw [here] at hok
    refine ⟨hround, more, ?_⟩
    rw [hok.2, hcnt, List.range_succ, List.map_append, List.sum_append]
    simp [State.range, setMain]
  case collected i cntPrime here all =>
    rw [here] at hm
    obtain ⟨hround, hle, hcnt⟩ := hm
    obtain rfl : i = numThread := by omega
    exact ⟨hround, hcnt⟩
  case print here =>
    rw [here] at hm
    obtain ⟨⟨earlier, rest, hrest, hinput, hprinted⟩, hcnt⟩ := hm
    refine ⟨earlier ++ [s.range], rest, by rw [← hrest, List.append_assoc]; rfl, hinput, ?_⟩
    rw [hprinted, hcnt, List.map_append]
    rfl
  all_goals
    rw [‹s.main = _›] at hm
    exact hm

theorem Inv.step_main (hranges : ∀ range ∈ ranges, range.1 ≠ -1) (hi : Inv numThread ranges s)
    (h : MainMove numThread s s') : Inv numThread ranges s' := by
  refine ⟨hi.guards.step_main h hi.fresh, fun w hw => h.workers_ok hi hw, fun w hw => ?_, ?_,
    fun i hm w hw => ?_, h.main_ok hranges hi, fun w hw => ?_⟩
  · rcases h.worker w with hsame | ⟨hwait, -⟩ | ⟨-, hlt, -⟩
    · rw [hsame]
      exact hi.beyond w hw
    · rw [hi.beyond w hw] at hwait
      cases hwait
    · omega
  · have hdone := hi.isDone
    cases h
    case setDone => rfl
    all_goals
      rw [‹s.main = _›] at hdone
      exact hdone
  · cases h
    case unlock => cases hm; exact absurd hw (Nat.not_lt_zero w)
    case again => cases hm; exact absurd hw (Nat.not_lt_zero w)
    case check i here more stored =>
      cases hm
      rcases Nat.lt_succ_iff_lt_or_eq.mp hw with hlt | rfl
      · exact hi.checked i here w hlt
      · exact stored
    all_goals cases hm
  · cases h
    case unlockLast => exact ⟨fun i hm hlt => by cases hm; omega, fun hm => MainPhase.noConfusion hm⟩
    case join i here more ended =>
      refine ⟨fun j hm hlt => ?_, fun hm => MainPhase.noConfusion hm⟩
      cases hm
      by_cases hwi : w = i
      · rwa [hwi]
      · exact (hi.joined w hw).1 i here (by omega)
    case joined i here all =>
      exact ⟨fun j hm => MainPhase.noConfusion hm, fun _ => (hi.joined w hw).1 i here (by omega)⟩
    all_goals exact ⟨fun j hm => MainPhase.noConfusion hm, fun hm => MainPhase.noConfusion hm⟩

theorem inv_new : Inv numThread ranges (.new (tokens ranges)) := by
  refine ⟨.new, fun w _ => ?_, fun _ _ => rfl, rfl, fun i hm => MainPhase.noConfusion hm, ?_,
    fun w _ => ⟨fun j hm => MainPhase.noConfusion hm, fun hm => MainPhase.noConfusion hm⟩⟩
  · exact ⟨fun hlt => absurd hlt (Nat.not_lt_zero w), fun _ => ⟨rfl, rfl⟩⟩
  · exact ⟨Nat.zero_le _, [], ranges, rfl, rfl, rfl⟩

theorem inv_of_reachable (hranges : ∀ range ∈ ranges, range.1 ≠ -1)
    (hs : Reachable (spinSystem numThread ranges) s) : Inv numThread ranges s := by
  refine hs.invariant ?_ fun s t s' _ hi h => ?_
  · rintro s rfl
    exact inv_new
  · cases t with
    | main => exact hi.step_main hranges (mainMove h)
    | worker tid => exact hi.step_worker (workerMove h)

end PrimeSpin
