import HyuIte4065.QueryPool.Pool
import Mathlib.Algebra.GroupWithZero.Nat

/-!
# The thread pool comes to its end

In every reachable state some thread can go on until all of them have ended, and every step
decreases a measure, so every run ends.
-/
namespace QueryPool

open Mutex State Transition

variable {Text Query Result : Type}

def Enabled (program : Program Text Query Result) (s : State Text Query Result) : Prop :=
  ∃ t s', threadStep program s t = some s'

/-- The steps of a worker until it waits or has ended. -/
def WorkerPhase.rank : WorkerPhase Query Result → Nat
  | .notCreated => 4
  | .lockFirst => 3
  | .storeReady => 2
  | .wait => 1
  | .waiting => 0
  | .relock => 8
  | .unlock => 7
  | .checkDone => 6
  | .loadArg => 5
  | .join _ => 4
  | .lock _ => 3
  | .storeRet _ => 2
  | .finished => 0

/-- What the query that is held costs after the flush. -/
def heldRank : Option Query → Nat
  | none => 2
  | some _ => 20

/-- The steps of the main thread, where a step that wakes up a worker counts the steps of the
worker: at most 22 for a line, 4 for the flush of a slot and 14 for the end of a worker. -/
def MainPhase.rank (numThread numActiveThread lines : Nat) : MainPhase Query → Nat
  | .create i => 2 * (numThread - i) + 1 + (22 * lines + 14 * numThread + 10)
  | .awaitReady i => 2 * (numThread - i) + (22 * lines + 14 * numThread + 10)
  | .readLine => 4 * numActiveThread + (22 * lines + 14 * numThread + 10)
  | .checkFull _ => 21 + 4 * numActiveThread + (22 * lines + 14 * numThread + 10)
  | .flush i held => heldRank held + 4 * (numActiveThread - i) + (22 * lines + 14 * numThread + 10)
  | .awaitRet i held => heldRank held + 4 * (numActiveThread - i) + (22 * lines + 14 * numThread + 9)
  | .print i held => heldRank held + 4 * (numActiveThread - i) + (22 * lines + 14 * numThread + 8)
  | .clear i held => heldRank held + 4 * (numActiveThread - i) + (22 * lines + 14 * numThread + 7)
  | .clearActive held => heldRank held + (22 * lines + 14 * numThread + 9)
  | .storeArg _ => 18 + 4 * numActiveThread + (22 * lines + 14 * numThread + 10)
  | .storeRunning => 17 + 4 * numActiveThread + (22 * lines + 14 * numThread + 10)
  | .lock => 16 + 4 * numActiveThread + (22 * lines + 14 * numThread + 10)
  | .signal => 15 + 4 * numActiveThread + (22 * lines + 14 * numThread + 10)
  | .unlock => 6 + 4 * numActiveThread + (22 * lines + 14 * numThread + 10)
  | .activate => 5 + 4 * numActiveThread + (22 * lines + 14 * numThread + 10)
  | .setDone => 14 * numThread + 5
  | .wakeLast i => 14 * (numThread - i) + 4
  | .lockLast i => 14 * (numThread - i) + 3
  | .signalLast i => 14 * (numThread - i) + 2
  | .unlockLast i => 14 * (numThread - i - 1) + 7
  | .join i => 14 * (numThread - i - 1) + 6
  | .finished => 0

/-- What the workers have still to do. -/
def work (numThread : Nat) (s : State Text Query Result) : Nat :=
  ((List.range numThread).map fun i => (s.worker i).rank).sum

def left (program : Program Text Query Result) (s : State Text Query Result) : Nat :=
  s.main.rank program.numThread s.numActiveThread s.input.length + work program.numThread s

variable {program : Program Text Query Result} {lines : List (Line Text)} {tid : Nat}
  {s s' : State Text Query Result}

theorem work_step {numThread : Nat} (hsame : ∀ u, u ≠ tid → s'.worker u = s.worker u) (htid : tid < numThread) :
    work numThread s' + (s.worker tid).rank = work numThread s + (s'.worker tid).rank := by
  induction numThread with
  | zero => omega
  | succ n ih =>
    simp only [work, List.range_succ, List.map_append, List.sum_append, List.map_cons, List.map_nil,
      List.sum_cons, List.sum_nil, Nat.add_zero] at ih ⊢
    by_cases hn : tid = n
    · subst hn
      have hbelow : (List.range tid).map (fun i => (s'.worker i).rank) =
          (List.range tid).map fun i => (s.worker i).rank :=
        List.map_congr_left fun i hi => by rw [hsame i (Nat.ne_of_lt (List.mem_range.mp hi))]
      rw [hbelow]
      omega
    · have hlt := ih (by omega)
      rw [hsame n (Ne.symm hn)]
      omega

theorem WorkerMove.rank (h : WorkerMove program s tid s') : (s'.worker tid).rank < (s.worker tid).rank := by
  cases h <;> simp only [setWorker, setRet, setMtx, Function.update_self, *] <;>
    (simp only [WorkerPhase.rank]; omega)

theorem left_worker (hi : Inv program lines s) (h : WorkerMove program s tid s') :
    left program s' < left program s := by
  have hframe := h.frame
  have htid : tid < program.numThread := by
    by_contra hge
    exact h.created (hi.beyond tid (Nat.not_lt.mp hge))
  have hwork := work_step hframe.worker htid
  have hrank := h.rank
  rw [left, left, hframe.main, hframe.numActiveThread, hframe.input]
  omega

/-- A signal gives a worker at most eight steps to do. -/
theorem work_wake {numThread : Nat} (htid : tid < numThread) :
    work numThread (s.wake tid) ≤ work numThread s + 8 := by
  rcases wake_cases s tid with ⟨hw, he⟩ | ⟨-, he⟩
  · have hsame : ∀ u, u ≠ tid → (s.setWorker tid .relock).worker u = s.worker u :=
      fun u hu => Function.update_of_ne hu _ _
    have hwork := work_step hsame htid
    have hself : (s.setWorker tid .relock).worker tid = .relock := Function.update_self ..
    rw [hself, hw] at hwork
    simp only [WorkerPhase.rank] at hwork
    rw [he]
    omega
  · rw [he]
    omega

theorem left_wake (htid : tid < program.numThread) (ph : MainPhase Query) :
    left program ((s.wake tid).setMain ph) ≤
      ph.rank program.numThread s.numActiveThread s.input.length + work program.numThread s + 8 := by
  have hwork := work_wake (s := s) htid
  have hsame : work program.numThread ((s.wake tid).setMain ph) = work program.numThread (s.wake tid) := rfl
  have hinput : (s.wake tid).input = s.input := by
    rcases wake_cases s tid with ⟨-, he⟩ | ⟨-, he⟩
    · rw [he]
      rfl
    · rw [he]
  rw [left, hsame]
  show ph.rank _ (s.wake tid).numActiveThread (s.wake tid).input.length + _ ≤ _
  rw [(wake_mtx s tid).2, hinput]
  omega

theorem left_main (hi : Inv program lines s) (h : MainMove program s s') :
    left program s' < left program s := by
  have hrange := hi.main.inRange
  cases h
  case create i here more =>
    have hsame : ∀ u, u ≠ i → ((s.setWorker i .lockFirst).setMain (.awaitReady i)).worker u = s.worker u :=
      fun u hu => Function.update_of_ne hu _ _
    have hwork := work_step hsame more
    have hself : ((s.setWorker i .lockFirst).setMain (.awaitReady i)).worker i = .lockFirst :=
      Function.update_self ..
    rw [hself, hi.fresh i here] at hwork
    simp only [WorkerPhase.rank] at hwork
    simp only [left, here, MainPhase.rank, setMain, setWorker] at hwork ⊢
    omega
  case signal here =>
    rw [here] at hrange
    refine Nat.lt_of_le_of_lt (left_wake hrange .unlock) ?_
    rw [left, here, MainPhase.rank, MainPhase.rank]
    omega
  case signalLast i here =>
    rw [here] at hrange
    have hlt : i < program.numThread := hrange
    refine Nat.lt_of_le_of_lt (left_wake hlt (.unlockLast i)) ?_
    rw [left, here, MainPhase.rank, MainPhase.rank]
    omega
  all_goals
    rw [‹s.main = _›] at hrange
    simp only [left, MainPhase.rank, MainPhase.InRange, heldRank, work, setMain, setRet, setMtx,
      List.length_cons, *] at hrange ⊢
    omega

theorem left_step {t : Thread} (hi : Inv program lines s) (h : threadStep program s t = some s') :
    left program s' < left program s := by
  cases t with
  | main => exact left_main hi (mainMove h)
  | worker tid => exact left_worker hi (workerMove h)

/-- The owner of a mutex never waits. -/
theorem enabled_of_owned (hlocks : Locks s) (h : s.mtxForWorkers tid ≠ none) : Enabled program s := by
  obtain ⟨t, howner⟩ := Option.ne_none_iff_exists'.mp h
  have hholds := (hlocks tid t).mp howner
  cases t with
  | main =>
    rw [Holds, held] at hholds
    cases hm : s.main <;> rw [hm] at hholds <;> cases hholds <;>
      exact ⟨.main, _, by rw [threadStep, mainStep, hm]⟩
  | worker u =>
    obtain ⟨-, hholds⟩ := hholds
    cases hw : s.worker u <;> rw [hw] at hholds <;> cases hholds <;>
      exact ⟨.worker u, _, by rw [threadStep, workerStep, hw]⟩

/-- A worker that is going to load its query has been given one. -/
theorem Inv.loadArg (hi : Inv program lines s) (hlt : tid < program.numThread) (hw : s.worker tid = .loadArg) :
    ∃ arg, s.threadArg tid = some arg := by
  have hok := hi.slots tid hlt
  rw [State.SlotOk, hw] at hok
  cases hstatus : s.status tid <;> rw [hstatus] at hok
  case busy arg => exact ⟨arg, hok.2⟩
  all_goals simp [SlotOk, Parked] at hok

/-- While all mutexes are free, a worker that cannot step waits, has ended or does not exist. -/
theorem Inv.resting_or_enabled (hi : Inv program lines s) (hfree : ∀ i, s.mtxForWorkers i = none)
    (hlt : tid < program.numThread) : Enabled program s ∨
      s.worker tid = .waiting ∨ s.worker tid = .finished ∨ s.worker tid = .notCreated := by
  cases hw : s.worker tid
  case waiting => exact .inr (.inl rfl)
  case finished => exact .inr (.inr (.inl rfl))
  case notCreated => exact .inr (.inr (.inr rfl))
  case loadArg =>
    obtain ⟨arg, harg⟩ := hi.loadArg hlt hw
    exact .inl ⟨.worker tid, s.setWorker tid (.join arg), by rw [threadStep, workerStep, hw]; simp only [harg]; rfl⟩
  case lockFirst => exact .inl ⟨.worker tid, _, by rw [threadStep, workerStep, hw]; exact if_pos (hfree tid)⟩
  case relock => exact .inl ⟨.worker tid, _, by rw [threadStep, workerStep, hw]; exact if_pos (hfree tid)⟩
  case lock => exact .inl ⟨.worker tid, _, by rw [threadStep, workerStep, hw]; exact if_pos (hfree tid)⟩
  all_goals exact .inl ⟨.worker tid, _, by rw [threadStep, workerStep, hw]⟩

/-- A worker at rest that has a query has stored its result. -/
theorem Inv.ret_of_resting (hi : Inv program lines s) {arg : Query} (hlt : tid < program.numThread)
    (hstatus : s.status tid = .busy arg)
    (hrest : s.worker tid = .waiting ∨ s.worker tid = .finished ∨ s.worker tid = .notCreated) :
    s.threadRet tid = .result (program.join arg) := by
  have hok := hi.slots tid hlt
  rw [State.SlotOk, hstatus] at hok
  rcases hrest with hw | hw | hw <;> rw [hw] at hok
  · exact hok
  · exact hok.elim
  · exact hok.elim

/-- The main thread and the workers are never all blocked. -/
theorem Inv.enabled (hi : Inv program lines s) :
    s.main = .finished ∨ Enabled program s := by
  by_cases hfree : ∀ i, s.mtxForWorkers i = none
  case neg =>
    obtain ⟨i, hi'⟩ := not_forall.mp hfree
    exact .inr (enabled_of_owned hi.locks hi')
  by_cases hresting : ∀ w < program.numThread,
    s.worker w = .waiting ∨ s.worker w = .finished ∨ s.worker w = .notCreated
  case neg =>
    simp only [not_forall] at hresting
    obtain ⟨w, hw, hnot⟩ := hresting
    exact .inr ((hi.resting_or_enabled hfree hw).resolve_right hnot)
  have hrange := hi.main.inRange
  have hcounted := hi.main.counted
  cases hm : s.main <;> rw [hm] at hrange hcounted
  case create i =>
    right
    by_cases hlt : i < program.numThread
    · exact ⟨.main, _, by rw [threadStep, mainStep, hm]; exact if_pos hlt⟩
    · exact ⟨.main, _, by rw [threadStep, mainStep, hm]; exact if_neg hlt⟩
  case awaitReady i =>
    right
    have hok := hi.slots i hrange.1
    have hst : s.status i = .created := by simp only [State.status, hm, Nat.lt_irrefl, if_false, if_true]
    rw [State.SlotOk, hst] at hok
    rcases hok with ⟨hph, -⟩ | ⟨-, hready⟩
    · have hrest := hresting i hrange.1
      rcases hph with hph | hph <;> simp [hph] at hrest
    · exact ⟨.main, _, by rw [threadStep, mainStep, hm]; simp only [hready]; rfl⟩
  case readLine =>
    right
    cases hinput : s.input with
    | nil => exact ⟨.main, _, by rw [threadStep, mainStep, hm]; simp only [hinput]; rfl⟩
    | cons line rest =>
      cases line with
      | flush => exact ⟨.main, _, by rw [threadStep, mainStep, hm]; simp only [hinput]; rfl⟩
      | query text => exact ⟨.main, _, by rw [threadStep, mainStep, hm]; simp only [hinput]; rfl⟩
  case awaitRet i held =>
    right
    have hlt : i < s.batch.length := by rw [hcounted]; exact hrange.1
    have hst : s.status i = .busy s.batch[i] := by
      simp only [State.status, hm, Nat.lt_irrefl, if_false, active_of_getElem? (List.getElem?_eq_getElem hlt)]
    have hret := hi.ret_of_resting (Nat.lt_of_lt_of_le hrange.1 hrange.2) hst
      (hresting i (Nat.lt_of_lt_of_le hrange.1 hrange.2))
    exact ⟨.main, _, by rw [threadStep, mainStep, hm]; simp only [hret]; rfl⟩
  case print i held =>
    right
    have hlt : i < s.batch.length := by rw [hcounted]; exact hrange.1
    have hok := hi.slots i (Nat.lt_of_lt_of_le hrange.1 hrange.2)
    have hst : s.status i = .done s.batch[i] := by
      simp only [State.status, hm, printing_self (List.getElem?_eq_getElem hlt)]
    rw [State.SlotOk, hst] at hok
    exact ⟨.main, _, by rw [threadStep, mainStep, hm]; simp only [hok.2]; rfl⟩
  case lock => exact .inr ⟨.main, _, by rw [threadStep, mainStep, hm]; exact if_pos (hfree _)⟩
  case lockLast i => exact .inr ⟨.main, _, by rw [threadStep, mainStep, hm]; exact if_pos (hfree i)⟩
  case join i =>
    right
    have hok := hi.slots i hrange
    have hst : s.status i = .ending := by simp only [State.status, hm, Nat.lt_irrefl, if_false, if_true]
    rw [State.SlotOk, hst] at hok
    have hended : s.worker i = .finished := by
      rcases hresting i hrange with hw | hw | hw
      · simp [hw, SlotOk] at hok
      · exact hw
      · simp [hw, SlotOk] at hok
    exact ⟨.main, _, by rw [threadStep, mainStep, hm]; simp only [hended]; rfl⟩
  case finished => exact .inl rfl
  all_goals exact .inr ⟨.main, _, by rw [threadStep, mainStep, hm]⟩

theorem Inv.finished (hi : Inv program lines s) (hm : s.main = .finished) :
    s.cout = results program lines ∧ ∀ w < program.numThread, s.worker w = .finished := by
  obtain ⟨-, -, owed, closed⟩ := hi.main
  rw [hm] at owed closed
  obtain ⟨hinput, hbatch⟩ := closed
  refine ⟨?_, fun w hw => ?_⟩
  · have howed : s.cout ++ s.batch.map program.join ++ results program s.input = results program lines := owed
    rw [hinput, hbatch] at howed
    simpa [results] using howed
  · have hok := hi.slots w hw
    have hst : s.status w = .finished := by simp only [State.status, hm]
    rwa [State.SlotOk, hst] at hok

theorem left_new : left program (.new lines : State Text Query Result) =
    20 * program.numThread + 22 * lines.length + 11 := by
  have hwork : work program.numThread (.new lines : State Text Query Result) = program.numThread * 4 := by
    simp only [work, State.new, WorkerPhase.rank, List.map_const', List.length_range, List.sum_replicate_nat]
  rw [left, hwork]
  simp only [State.new, MainPhase.rank]
  omega

/-- The output is at every moment an initial part of the results of the queries, in the order of
the lines. No thread is blocked for good, no run goes on for ever, and when the main thread has
ended, all results have been printed and all workers have ended. -/
theorem pool_in_order (hk : 0 < program.numThread) (hlines : lines.getLast? = some .flush) :
    (∀ s, Reachable (poolSystem program lines) s →
      s.cout <+: results program lines ∧
      (s.main = .finished → s.cout = results program lines ∧ ∀ w < program.numThread, s.worker w = .finished) ∧
      (s.main = .finished ∨ Enabled program s)) ∧
    ∀ e : Execution (poolSystem program lines), e.length ≤ 20 * program.numThread + 22 * lines.length + 11 := by
  refine ⟨fun s hs => ?_, fun e => ?_⟩
  · have hi := inv_of_reachable hk hlines hs
    refine ⟨⟨_, (List.append_assoc ..).symm.trans hi.main.owed⟩, hi.finished, hi.enabled⟩
  · have hbound := e.length_add_le (left program)
      (fun _ _ _ hs h => left_step (inv_of_reachable hk hlines hs) h) (Nat.le_refl _)
    rw [e.starts, left_new] at hbound
    omega

/-- One thread and two queries in a batch, so that the second query forces a flush. -/
def forcedFlush : List Thread :=
  [.main] ++ List.replicate 3 (.worker 0) ++ List.replicate 9 .main ++ List.replicate 8 (.worker 0) ++
    List.replicate 14 .main ++ List.replicate 8 (.worker 0) ++ List.replicate 14 .main ++
    List.replicate 3 (.worker 0) ++ List.replicate 2 .main

theorem pool_in_order_forcedFlush :
    ∃ s, forcedFlush.foldlM (threadStep ⟨1, id, Nat.succ⟩) (.new [.query 1, .query 2, .flush]) = some s ∧
      s.cout = [2, 3] ∧ s.worker 0 = .finished := by
  have hrun : (forcedFlush.foldlM (threadStep ⟨1, id, Nat.succ⟩) (.new [.query 1, .query 2, .flush])).map State.main =
      some .finished := by decide +kernel
  obtain ⟨s, hs, hmain⟩ := Option.map_eq_some_iff.mp hrun
  have hstart : Reachable (poolSystem ⟨1, id, Nat.succ⟩ [.query 1, .query 2, .flush])
      (.new [.query 1, .query 2, .flush]) :=
    .init rfl
  have hall := (pool_in_order (by decide) rfl).1 s (hstart.foldlM (fun _ _ _ h => ⟨_, h⟩) hs)
  obtain ⟨hcout, hworkers⟩ := hall.2.1 hmain
  exact ⟨s, hs, hcout, hworkers 0 (by decide)⟩

end QueryPool
