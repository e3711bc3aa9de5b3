import HyuIte4065.PrimeCond.Rounds
import Mathlib.Data.Finset.Card

/-!
# How many workers are done

During a round `done` is the number of the workers that have finished it, and while the main
thread waits there is always somebody who is still going to signal.
-/
namespace PrimeCond

open Mutex State

variable {numThread tid : Nat} {s s' : State} {ph : WorkerPhase}

def parkedWorkers (numThread : Nat) (s : State) : Finset Nat :=
  (Finset.range numThread).filter fun w => (s.worker w).parked = true

/-- The last worker to finish, while it has not signalled yet. -/
def WorkerPhase.Last (numThread : Nat) (ph : WorkerPhase) : Prop :=
  ph = .checkOrder (numThread - 1) ∨ ph = .lockMain ∨ ph = .signal

/-- During a round `done` is the number of workers that have finished. -/
structure Tally (numThread : Nat) (s : State) : Prop where
  done : s.done = (parkedWorkers numThread s).card
  order : ∀ w < numThread, ∀ finishOrder, s.worker w = .storeDone finishOrder → finishOrder = s.done
  last : ∀ w < numThread, (s.worker w).Last numThread → ∀ u < numThread, (s.worker u).parked = true

/-- While the main thread waits, somebody is still going to signal. -/
def Awaited (numThread : Nat) (s : State) : Prop :=
  (∃ w < numThread, (s.worker w).parked = false) ∨ ∃ w < numThread, (s.worker w).Last numThread

theorem Last.parked (h : ph.Last numThread) : ph.parked = true := by
  rcases h with rfl | rfl | rfl <;> rfl

theorem card_parked_eq : (parkedWorkers numThread s).card = numThread ↔
    ∀ w < numThread, (s.worker w).parked = true := by
  rw [parkedWorkers]
  conv_lhs => rhs; rw [← Finset.card_range numThread]
  rw [Finset.card_filter_eq_iff]
  simp only [Finset.mem_range]

theorem card_parked_le : (parkedWorkers numThread s).card ≤ numThread := by
  conv_rhs => rw [← Finset.card_range numThread]
  exact Finset.card_filter_le _ _

/-- What a step does to a worker that has not finished the round. -/
theorem WorkerMove.park (h : WorkerMove numThread s tid s') (hp : (s.worker tid).parked = false)
    (hready : s.worker tid ≠ .storeReady) :
    (s'.worker tid).parked = false ∧ s'.done = s.done ∧
        (∀ finishOrder, s'.worker tid = .storeDone finishOrder → finishOrder = s.done) ∨
      ∃ finishOrder, s.worker tid = .storeDone finishOrder ∧ s'.worker tid = .checkOrder finishOrder ∧
        s'.done = finishOrder + 1 := by
  cases h <;> simp only [setWorker, setRet, setMain, Function.update_self]
  case storeDone here => exact .inr ⟨_, here, rfl, rfl⟩
  case loadDone => exact .inl ⟨rfl, trivial, fun d hd => (WorkerPhase.storeDone.inj hd).symm⟩
  case storeReady here => exact absurd here hready
  all_goals first
    | exact .inl ⟨rfl, trivial, fun _ hd => by cases hd⟩
    | simp_all [WorkerPhase.parked]

theorem WorkerMove.last_of (h : WorkerMove numThread s tid s') (hp : (s.worker tid).parked = true)
    (hl : (s'.worker tid).Last numThread) : (s.worker tid).Last numThread := by
  cases h <;> simp only [setWorker, setRet, setMain, Function.update_self] at hl
  case last here order => exact .inl (by rw [here, order])
  case lockMain here _ => exact .inr (.inl here)
  all_goals simp_all [WorkerPhase.parked, WorkerPhase.Last]

theorem WorkerMove.last_next (h : WorkerMove numThread s tid s') (hl : (s.worker tid).Last numThread) :
    (s'.worker tid).Last numThread ∨ s.worker tid = .signal := by
  cases h
  case last => exact .inl (.inr (.inl (Function.update_self ..)))
  case lockMain => exact .inl (.inr (.inr (Function.update_self ..)))
  case signal here _ => exact .inr here
  case signalNobody here _ => exact .inr here
  all_goals simp_all [WorkerPhase.Last]

theorem WorkerMove.signal_main (h : WorkerMove numThread s tid s') (here : s.worker tid = .signal)
    (waits : s.main = .waiting) : s'.main = .relockMain := by
  cases h
  case signal => rfl
  case signalNobody _ hnot => exact absurd waits hnot
  all_goals simp_all

theorem WorkerFrame.parkedWorkers (h : WorkerFrame s s' tid)
    (hp : (s'.worker tid).parked = (s.worker tid).parked) :
    parkedWorkers numThread s' = parkedWorkers numThread s := by
  refine Finset.filter_congr fun w _ => ?_
  by_cases hw : w = tid
  · rw [hw, hp]
  · rw [h.worker w hw]

theorem WorkerFrame.parkedWorkers_insert (h : WorkerFrame s s' tid) (htid : tid < numThread)
    (hp : (s.worker tid).parked = false) (hp' : (s'.worker tid).parked = true) :
    (PrimeCond.parkedWorkers numThread s').card = (PrimeCond.parkedWorkers numThread s).card + 1 := by
  have hinsert : PrimeCond.parkedWorkers numThread s' = insert tid (PrimeCond.parkedWorkers numThread s) := by
    ext w
    rw [Finset.mem_insert, PrimeCond.parkedWorkers, PrimeCond.parkedWorkers, Finset.mem_filter,
      Finset.mem_filter, Finset.mem_range]
    by_cases hw : w = tid
    · subst hw
      simp only [htid, hp', and_self, true_or]
    · rw [h.worker w hw]
      simp only [hw, false_or]
  rw [hinsert, Finset.card_insert_of_notMem]
  simp [PrimeCond.parkedWorkers, hp]

/-- A step of a worker in the course of a round. -/
theorem Tally.step (ht : Tally numThread s) (hlocks : Locks s) (h : WorkerMove numThread s tid s')
    (htid : tid < numThread) (hready : s.worker tid ≠ .storeReady) : Tally numThread s' := by
  have hframe := h.frame
  by_cases hp : (s.worker tid).parked = true
  · obtain ⟨hp', -, -, hdone⟩ := h.parked hp
    have hsame : ∀ u, (s'.worker u).parked = (s.worker u).parked := by
      intro u
      by_cases hu : u = tid
      · rw [hu, hp, hp']
      · rw [hframe.worker u hu]
    refine ⟨?_, fun w hw d hd => ?_, fun w hw hl u hu => ?_⟩
    · rw [hdone, ht.done, hframe.parkedWorkers (hsame tid)]
    · rw [hdone]
      by_cases hwt : w = tid
      · subst hwt
        rw [hd] at hp'
        cases hp'
      · exact ht.order w hw d (hframe.worker w hwt ▸ hd)
    · rw [hsame]
      by_cases hwt : w = tid
      · subst hwt
        exact ht.last w hw (h.last_of hp hl) u hu
      · exact ht.last w hw (hframe.worker w hwt ▸ hl) u hu
  rw [Bool.not_eq_true] at hp
  have hnotlast : ∀ w < numThread, ¬ (s.worker w).Last numThread := by
    intro w hw hl
    rw [ht.last w hw hl tid htid] at hp
    cases hp
  rcases h.park hp hready with ⟨hp', hdone, horder⟩ | ⟨finishOrder, here, here', hdone⟩
  · refine ⟨?_, fun w hw d hd => ?_, fun w hw hl u hu => ?_⟩
    · rw [hdone, ht.done, hframe.parkedWorkers (hp'.trans hp.symm)]
    · rw [hdone]
      by_cases hwt : w = tid
      · exact horder d (hwt ▸ hd)
      · exact ht.order w hw d (hframe.worker w hwt ▸ hd)
    · by_cases hwt : w = tid
      · rw [hwt] at hl
        rw [Last.parked hl] at hp'
        cases hp'
      · exact absurd (hframe.worker w hwt ▸ hl) (hnotlast w hw)
  · have hcard := hframe.parkedWorkers_insert htid hp (by rw [here']; rfl)
    have horder := ht.order tid htid finishOrder here
    refine ⟨by rw [hdone, hcard, horder, ht.done], fun w hw d hd => ?_, fun w hw hl u hu => ?_⟩
    · by_cases hwt : w = tid
      · rw [hwt, here'] at hd
        cases hd
      · -- both would hold the mutex
        rw [hframe.worker w hwt] at hd
        have hthread : Thread.worker w = .worker tid := hlocks.workers.unique
          (by rw [HoldsWorkers, hd]; rfl) (by rw [HoldsWorkers, here]; rfl)
        exact absurd (Thread.worker.inj hthread) hwt
    · by_cases hwt : w = tid
      · rw [hwt, here'] at hl
        have hfull : finishOrder = numThread - 1 := by
          rcases hl with hl | hl | hl
          · exact WorkerPhase.checkOrder.inj hl
          · cases hl
          · cases hl
        refine card_parked_eq.mp ?_ u hu
        rw [hcard, ← ht.done, ← horder, hfull]
        omega
      · exact absurd (hframe.worker w hwt ▸ hl) (hnotlast w hw)

/-- Somebody is going to signal until it happens. -/
theorem Awaited.step (ha : Awaited numThread s) (ht : Tally numThread s) (hlocks : Locks s)
    (h : WorkerMove numThread s tid s') (htid : tid < numThread) (hready : s.worker tid ≠ .storeReady)
    (hwait : s.main = .wait ∨ s.main = .waiting) (hmain : s'.main = s.main) : Awaited numThread s' := by
  have hframe := h.frame
  by_cases hall : ∀ w < numThread, (s'.worker w).parked = true
  · right
    by_cases hp : (s.worker tid).parked = true
    · have hbefore : ∀ w < numThread, (s.worker w).parked = true := by
        intro w hw
        by_cases hwt : w = tid
        · rwa [hwt]
        · exact hframe.worker w hwt ▸ hall w hw
      obtain ⟨w, hw, hnot⟩ | ⟨w, hw, hl⟩ := ha
      · rw [hbefore w hw] at hnot
        cases hnot
      by_cases hwt : w = tid
      · subst hwt
        rcases h.last_next hl with hl' | here
        · exact ⟨w, hw, hl'⟩
        · rcases hwait with hw' | hw'
          · have hthread : Thread.worker w = .main := hlocks.main.unique
              (by rw [HoldsMain, here]; rfl) (by rw [HoldsMain, hw']; rfl)
            cases hthread
          · rw [h.signal_main here hw', hw'] at hmain
            cases hmain
      · exact ⟨w, hw, (hframe.worker w hwt).symm ▸ hl⟩
    · rw [Bool.not_eq_true] at hp
      rcases h.park hp hready with ⟨hp', -, -⟩ | ⟨finishOrder, here, here', hdone⟩
      · rw [hall tid htid] at hp'
        cases hp'
      · have hcard := hframe.parkedWorkers_insert htid hp (hall tid htid)
        have horder := ht.order tid htid finishOrder here
        have hfull := card_parked_eq.mpr hall
        rw [hcard, ← ht.done, ← horder] at hfull
        exact ⟨tid, htid, .inl (by rw [here', ← hfull, Nat.add_sub_cancel])⟩
  · left
    simp only [not_forall, Bool.not_eq_true] at hall
    obtain ⟨w, hw, hnot⟩ := hall
    exact ⟨w, hw, hnot⟩

end PrimeCond
