import HyuIte4065.Transactions.Alone
import Mathlib.Tactic.IntervalCases

/-!
# Rollback

Steps of others leave the data of a transaction alone, and the records it has locked as
well. So an abort gives back what the first accesses found, whatever runs beside it.
-/
namespace Transactions

open Lock Replay Transition UndoLog

variable {s s' : State} {T U : TransactionId} {prog : Program} {client : Client}
  {maxExecution : BitVec 64} {action : Action} {r : RecordId} {m : LockMode} {x : Access RecordId Value}

def Action.txnId : Action → TransactionId
  | .begin T | .lock T | .access T | .abort T | .abortLoop T | .commit T | .flush T | .unlock T => T

/-- Nothing of `T` is different, and its granted locks are still granted. -/
structure Untouched (T : TransactionId) (s s' : State) : Prop where
  phase : s'.phase T = s.phase T
  body : s'.body T = s.body T
  history : s'.history T = s.history T
  log : s'.db.logger.logPerTxn T = s.db.logger.logPerTxn T
  locks : Undisturbed s.db.lockTable s'.db.lockTable T

theorem Local.untouched (h : Local U s s') (hT : T ≠ U) : Untouched T s s' :=
  ⟨h.phase T hT, h.body T hT, h.history T hT, h.log T hT, h.lockTable ▸ .refl _ T⟩

/-- The steps of others. -/
theorem Inv.untouched (h : Inv s) (hs : Step client s action s') (hT : T ≠ action.txnId) :
    Untouched T s s' := by
  obtain ⟨q, hq⟩ := h.orderly
  cases hs with
  | begin prog idle starts => exact (local_begin _ _ _).untouched hT
  | refused fuel newLock ready request ha =>
    obtain ⟨-, rfl⟩ := addLock_refused ha
    exact (local_goto _ _ _).untouched hT
  | accepted fuel newLock ready request fresh ha =>
    rcases hq.shape.addLock_some fresh ha with ⟨-, hne, -⟩ | ⟨hr, -, rfl⟩
    · simp at hne
    · exact ⟨goto_other _ _ T hT, rfl, rfl, rfl, undisturbed_appended fresh hT⟩
  | access locking node granted ha =>
    obtain ⟨a, rest, -, rfl⟩ := h.access_granted locking node granted ha
    exact (local_accessed _ _ _ _).untouched hT
  | abort fails => exact (local_goto _ _ _).untouched hT
  | abortLoop undoing ha => exact (local_abortLoop (h.logged _) ha).untouched hT
  | commit ready => exact (commitCalled _ _).here.untouched hT
  | flush flushing => exact (local_flush _ _ _).untouched hT
  | unlock fuel unlocking hu =>
    exact ⟨goto_other _ _ T hT, rfl, rfl, rfl, hq.toThreaded.undisturbed_unlock hu hT⟩

/-- Two granted locks of different transactions on one record: no value changes under them. -/
theorem Inv.read_of_shared (h : Inv s) (hT : Holds s.db.lockTable T r m) (hU : T ≠ U)
    (hx : Holds s.db.lockTable U x.key (lockMode x)) (he : x.key = r) : x.wrote = false := by
  obtain ⟨q, hq⟩ := h.orderly
  obtain ⟨-, hm⟩ := hq.exclusive hT (he ▸ hx) hU
  simpa [lockMode] using hm

/-- A record that `T` has locked is not changed by others. -/
theorem Inv.kept (h : Inv s) (hs : Step client s action s') (hT : T ≠ action.txnId)
    (hold : Holds s.db.lockTable T r m) : s'.db.records r = s.db.records r := by
  cases hs with
  | @access _ U p prog n locking node granted ha =>
    obtain ⟨a, rest, hg, rfl⟩ := h.access_granted locking node granted ha
    by_cases he : a.key = r
    · have hw := h.read_of_shared hold hT hg.holds he
      have hsame : apply s.db.records a r = s.db.records r := by
        rw [apply, ← he, Function.update_self, hg.sound hw, hg.found]
      exact hsame
    · exact Function.update_of_ne (Ne.symm he) _ _
  | @abortLoop _ U i k b undoing ha =>
    rcases abortLoop_cases (h.logged U) ha with ⟨-, a, hget, rfl⟩ | ⟨-, rfl⟩
    · by_cases he : a.key = r
      · have hmem := List.mem_of_getElem? hget
        have hw := h.read_of_shared hold hT (h.backed U a hmem) he
        have hcur := h.values.current U i a hget
        rw [h.values.sound U a hmem hw, ite_self] at hcur
        subst he
        exact (Function.update_self _ _ _).trans hcur.symm
      · exact Function.update_of_ne (Ne.symm he) _ _
    · rfl
  | @commit U ready => rw [(commitCalled _ _).records]
  | _ => rfl

/-- The log of a transaction grows by what an access has found, or is thrown away. -/
theorem Inv.history_cases (h : Inv s) (hs : Step client s action s') (T : TransactionId) :
    s'.history T = s.history T ∨ s'.history T = [] ∨
    ∃ a, action = .access T ∧ s'.history T = s.history T ++ [a] ∧
      a.key ∉ (s.history T).map (·.key) ∧ a.before = s.db.records a.key := by
  by_cases hT : T = action.txnId
  · cases hs with
    | access locking node granted ha =>
      subst hT
      obtain ⟨a, rest, hg, rfl⟩ := h.access_granted locking node granted ha
      exact .inr (.inr ⟨a, rfl, setHistory_history _ _ _, hg.first, hg.found⟩)
    | @abortLoop _ U i k b undoing ha =>
      subst hT
      rcases abortLoop_cases (h.logged _) ha with ⟨-, a, -, rfl⟩ | ⟨-, rfl⟩
      · exact .inl rfl
      · exact .inr (.inl (setHistory_history _ _ _))
    | flush flushing =>
      subst hT
      exact .inr (.inl (setHistory_history _ _ _))
    | commit ready => exact .inl (by rw [(commitCalled _ _).history])
    | _ => exact .inl rfl
  · exact .inl (h.untouched hs hT).history

/-! ### Aborting -/

/-- `T` is rolling back the accesses `as`, or has rolled them back and still has its locks. -/
def Aborting (s : State) (T : TransactionId) (as : History) : Prop :=
  ((∃ i k b, s.phase T = .undoing i k b) ∧ s.history T = as) ∨
  ((∃ outcome, s.phase T = .unlocking outcome) ∧
    ∀ x ∈ as, s.db.records x.key = x.before ∧ Holds s.db.lockTable T x.key (lockMode x))

variable {as : History}

/-- The end of the loop: every record has its value back. -/
theorem Inv.restored (h : Inv s) {i : Nat} {k : Int} {b : Bool} (hph : s.phase T = .undoing i k b)
    (hend : k ≤ i) : ∀ x ∈ s.history T, s.db.records x.key = x.before := by
  intro x hx
  have hp := h.phases T
  rw [hph] at hp
  obtain ⟨j, hj, he⟩ := List.getElem_of_mem hx
  have hcur := h.values.current T j x (by rw [List.getElem?_eq_getElem hj, he])
  have hlt : j < (s.phase T).undone := by
    have hk := hp.2.1
    rw [hph]
    show j < i
    omega
  rwa [if_pos hlt] at hcur

def Phase.InAbort : Phase → Prop
  | .undoing _ _ _ => True
  | .unlocking _ => True
  | _ => False

theorem Aborting.elsewhere (ha : Aborting s T as) {ph : Phase} (hT : T = U) (hph : s.phase U = ph)
    (hn : ¬ ph.InAbort) : False := by
  subst hT hph
  rcases ha with ⟨⟨i, k, b, hph⟩, -⟩ | ⟨⟨outcome, hph⟩, -⟩ <;> rw [hph] at hn <;> exact hn trivial

/-- What `T` itself does in an abort. -/
theorem Aborting.cases (ha : Aborting s T as) (hs : Step client s action s') (hT : T = action.txnId) :
    (∃ i k b, s.phase T = .undoing i k b ∧ s.history T = as ∧ s.abortLoop T i k b = some s') ∨
    (action = .unlock T ∧ s'.db.records = s.db.records) := by
  cases hs with
  | begin prog hph starts => exact (ha.elsewhere hT hph id).elim
  | refused fuel newLock hph request h => exact (ha.elsewhere hT hph id).elim
  | accepted fuel newLock hph request fresh h => exact (ha.elsewhere hT hph id).elim
  | access hph node granted h => exact (ha.elsewhere hT hph id).elim
  | abort fails => rcases fails with hph | hph <;> exact (ha.elsewhere hT hph id).elim
  | @abortLoop _ U i k b undoing h =>
    subst hT
    rcases ha with ⟨-, hlog⟩ | ⟨⟨outcome, hph⟩, -⟩
    · exact .inl ⟨i, k, b, undoing, hlog, h⟩
    · exact absurd (undoing.symm.trans hph) (by simp)
  | commit hph => exact (ha.elsewhere hT hph id).elim
  | flush hph => exact (ha.elsewhere hT hph id).elim
  | unlock fuel unlocking h => exact .inr ⟨congrArg Action.unlock hT.symm, rfl⟩

theorem Aborting.step (h : Inv s) (ha : Aborting s T as) (hs : Step client s action s')
    (hne : action ≠ .unlock T) : Aborting s' T as := by
  by_cases hT : T = action.txnId
  · rcases ha.cases hs hT with ⟨i, k, b, hph, hlog, hl⟩ | ⟨hu, -⟩
    · rcases abortLoop_cases (h.logged T) hl with ⟨-, a, -, rfl⟩ | ⟨hend, rfl⟩
      · exact .inl ⟨⟨_, _, _, goto_phase _ _ _⟩, hlog⟩
      · refine .inr ⟨⟨_, goto_phase _ _ _⟩, fun x hx => ?_⟩
        rw [← hlog] at hx
        exact ⟨h.restored hph hend x hx, h.backed T x hx⟩
    · exact absurd hu hne
  · have hu := h.untouched hs hT
    rcases ha with ⟨hph, hlog⟩ | ⟨hph, hx⟩
    · exact .inl ⟨by rwa [hu.phase], by rwa [hu.history]⟩
    · refine .inr ⟨by rwa [hu.phase], fun x hm => ?_⟩
      obtain ⟨hv, hh⟩ := hx x hm
      exact ⟨(h.kept hs hT hh).trans hv, hu.locks.locks.holds hh⟩

/-- The steps of an abort write only to records in the log. -/
theorem Aborting.frame (h : Inv s) (ha : Aborting s T as) (hs : Step client s action s')
    (hT : T = action.txnId) (hr : r ∉ as.map (·.key)) : s'.db.records r = s.db.records r := by
  rcases ha.cases hs hT with ⟨i, k, b, -, hlog, hl⟩ | ⟨-, hsame⟩
  · rcases abortLoop_cases (h.logged T) hl with ⟨-, a, hget, rfl⟩ | ⟨-, rfl⟩
    · refine Function.update_of_ne ?_ _ _
      rintro rfl
      exact hr (hlog ▸ List.mem_map_of_mem (List.mem_of_getElem? hget))
    · rfl
  · rw [hsame]

/-! ### The whole abort -/

/-- In a run, `T` enters `abort` with step `a` and leaves it with step `b`. -/
structure AbortRuns (e : Execution (shortRuns maxExecution client))
    (T : TransactionId) (a b : Nat) : Prop where
  order : a < b
  inside : b < e.length
  caller : e.label a = .abort T ∨ e.label a = .commit T
  starts : ∃ k terminated, (e.state (a + 1)).phase T = .undoing 0 k terminated
  ends : e.label b = .unlock T
  within : ∀ k, a < k → k < b → e.label k ≠ .unlock T

variable {e : Execution (shortRuns maxExecution client)} {a b j k : Nat}

theorem run_inv (hk : k ≤ e.length) : Inv (e.state k) := reachable_inv (e.reachable hk)

/-- Where a running transaction has found what is in its log. -/
theorem first_access (hk : k ≤ e.length) (hx : x ∈ (e.state k).history T) :
    ∃ j < k, e.label j = .access T ∧ x.key ∉ ((e.state j).history T).map (·.key) ∧
      (∀ i, j < i → i ≤ k → x ∈ (e.state i).history T) ∧
      x.before = (e.state j).db.records x.key := by
  induction k with
  | zero =>
    have hstart : e.state 0 = .new maxExecution := e.starts
    simp [hstart, State.new] at hx
  | succ k ih =>
    have later : x ∈ (e.state k).history T → ∃ j < k + 1, e.label j = .access T ∧
        x.key ∉ ((e.state j).history T).map (·.key) ∧
        (∀ i, j < i → i ≤ k + 1 → x ∈ (e.state i).history T) ∧
        x.before = (e.state j).db.records x.key := by
      intro hx'
      obtain ⟨j, hj, hl, hfirst, hmem, hb⟩ := ih (by omega) hx'
      refine ⟨j, by omega, hl, hfirst, fun i h₁ h₂ => ?_, hb⟩
      rcases Nat.lt_or_ge k i with hi | hi
      · obtain rfl : i = k + 1 := by omega
        exact hx
      · exact hmem i h₁ hi
    rcases (run_inv (by omega)).history_cases (e.steps k (by omega)).1 T with
      he | he | ⟨y, hl, he, hfirst, hb⟩
    · exact later (he ▸ hx)
    · simp [he] at hx
    · rcases List.mem_append.mp (he ▸ hx) with hx' | hx'
      · exact later hx'
      · obtain rfl : x = y := by simpa using hx'
        refine ⟨k, by omega, hl, hfirst, fun i h₁ h₂ => ?_, hb⟩
        obtain rfl : i = k + 1 := by omega
        exact hx

/-- The step that calls `abort`. -/
theorem Step.caller (hs : Step client s action s') (h : action = .abort T ∨ action = .commit T) :
    s'.db.records = s.db.records ∧ s'.history = s.history := by
  rcases h with rfl | rfl
  · cases hs
    exact ⟨rfl, rfl⟩
  · cases hs
    exact ⟨(commitCalled s T).records, (commitCalled s T).history⟩

theorem AbortRuns.aborting (h : AbortRuns e T a b) (h₁ : a < k) (h₂ : k ≤ b) :
    Aborting (e.state k) T ((e.state a).history T) := by
  have hb := h.inside
  refine Execution.interval (I := fun k => k ≤ b → Aborting (e.state k) T ((e.state a).history T))
    (show a + 1 ≤ k from h₁) (fun _ => .inl ⟨?_, ?_⟩) ?_ h₂
  · obtain ⟨n, terminated, hph⟩ := h.starts
    exact ⟨_, _, _, hph⟩
  · rw [((e.steps a (by have := h.order; omega)).1.caller h.caller).2]
  · intro i hi hik ih hib
    exact (ih (by omega)).step (run_inv (by omega)) (e.steps i (by omega)).1
      (h.within i (by omega) (by omega))

theorem AbortRuns.log (h : AbortRuns e T a b) :
    ((e.state a).db.logger.logPerTxn T).recordIds = ((e.state a).history T).map (·.key) :=
  ((run_inv (by have := h.order; have := h.inside; omega)).logged T).recordIds

/-- Every record in the log has the value back that it had before the first access. -/
theorem AbortRuns.restored (h : AbortRuns e T a b)
    (hr : r ∈ ((e.state a).db.logger.logPerTxn T).recordIds) :
    ∃ j < a, e.label j = .access T ∧ r ∉ ((e.state j).db.logger.logPerTxn T).recordIds ∧
      (∀ i, j < i → i ≤ a → r ∈ ((e.state i).db.logger.logPerTxn T).recordIds) ∧
      (e.state (b + 1)).db.records r = (e.state j).db.records r := by
  have hb := h.inside
  have hab := h.order
  rw [h.log] at hr
  obtain ⟨x, hx, rfl⟩ := List.mem_map.mp hr
  obtain ⟨j, hj, hl, hfirst, hmem, hbefore⟩ := first_access (by omega) hx
  refine ⟨j, hj, hl, ?_, fun i h₁ h₂ => ?_, ?_⟩
  · rw [((run_inv (by omega)).logged T).recordIds]
    exact hfirst
  · rw [((run_inv (by omega)).logged T).recordIds]
    exact List.mem_map_of_mem (hmem i h₁ h₂)
  · have hs := (e.steps b hb).1
    have hab := h.aborting h.order le_rfl
    rw [h.ends] at hs
    generalize e.state (b + 1) = s' at hs ⊢
    cases hs with
    | unlock fuel unlocking hu =>
      rcases hab with ⟨⟨i, k, t, hph⟩, -⟩ | ⟨-, hback⟩
      · exact absurd (hph.symm.trans unlocking) (by simp)
      · exact ((hback x hx).1).trans hbefore

/-- The steps of an abort change no other record and no other log. -/
theorem AbortRuns.frame (h : AbortRuns e T a b) (h₁ : a ≤ k) (h₂ : k ≤ b)
    (hT : (e.label k).txnId = T) :
    (∀ r ∉ ((e.state a).db.logger.logPerTxn T).recordIds,
      (e.state (k + 1)).db.records r = (e.state k).db.records r) ∧
    ∀ U ≠ T, (e.state (k + 1)).db.logger.logPerTxn U = (e.state k).db.logger.logPerTxn U := by
  have hb := h.inside
  have hinv : Inv (e.state k) := run_inv (by omega)
  have hs := (e.steps k (by omega)).1
  refine ⟨fun r hr => ?_, fun U hU => (hinv.untouched hs (by rwa [hT])).log⟩
  rcases Nat.eq_or_lt_of_le h₁ with rfl | hlt
  · rw [(hs.caller h.caller).1]
  · exact (h.aborting hlt h₂).frame hinv hs hT.symm (h.log ▸ hr)

/-! ### Committed values -/

/-- What the last committed transaction that wrote the record has left. -/
def State.lastCommitted (s : State) (r : RecordId) : Value :=
  ((((s.committed.flatMap (·.accesses)).filter fun a => a.wrote && decide (a.key = r)).getLast?).map
    (·.after)).getD 100

/-- An unfinished transaction has the WRITE lock on the record and has added to it. -/
structure State.HasAdded (s : State) (T : TransactionId) (r : RecordId) : Prop where
  unfinished : s.Unfinished T
  holds : Holds s.db.lockTable T r .write
  added : ∃ a ∈ s.history T, a.key = r ∧ a.wrote = true

/-- What the log entries for the record say it was before. -/
def LogPerThread.beforeValuesOf (log : LogPerThread) (r : RecordId) : List Value :=
  ((log.recordIds.zip log.beforeValues).filter fun entry => decide (entry.1 = r)).map (·.2)

/-- Every record is as the committed transactions left it, or the log of the one transaction
that has added to it says how they left it. -/
structure Recoverable (s : State) : Prop where
  clean : ∀ r, (∀ T, ¬ s.HasAdded T r) → s.db.records r = s.lastCommitted r
  single : ∀ r T U, s.HasAdded T r → s.HasAdded U r → T = U
  logged : ∀ r T, s.HasAdded T r → (s.db.logger.logPerTxn T).beforeValuesOf r = [s.lastCommitted r]

/-- A read returns what the last committed transaction has left. -/
def ReadsCommitted (client : Client) (s : State) : Prop :=
  ∀ T s' myLock recordId next, Step client s (.access T) s' →
    s.phase T = .locking myLock (.read recordId next) →
    s'.phase T = .ready (next (s.lastCommitted recordId))

theorem Inv.lastCommitted (h : Inv s) (r : RecordId) : s.lastCommitted r = s.committedTable r := by
  have hsound : Sound (s.committed.flatMap (·.accesses)) := by
    intro a ha
    obtain ⟨c, hc, ha⟩ := List.mem_flatMap.mp ha
    exact (h.commits c hc).1 a ha
  exact (result_eq_lastWrite hsound h.serial r).symm

theorem filter_key {as : History} (hnd : (as.map (·.key)).Nodup) (hx : x ∈ as) :
    as.filter (fun a => decide (a.key = x.key)) = [x] := by
  induction as with
  | nil => simp at hx
  | cons a as ih =>
    obtain ⟨ha, hnd⟩ := List.nodup_cons.mp hnd
    rcases List.mem_cons.mp hx with rfl | hx
    · rw [List.filter_cons_of_pos (by simp), List.filter_eq_nil_iff.mpr]
      intro b hb hk
      exact ha (by simpa using ⟨b, hb, by simpa using hk⟩)
    · rw [List.filter_cons_of_neg, ih hnd hx]
      intro hk
      exact ha (List.mem_map.mpr ⟨x, hx, (of_decide_eq_true hk).symm⟩)

theorem Logged.beforeValuesOf {log : LogPerThread} (h : Logged log as) (r : RecordId) :
    log.beforeValuesOf r = (as.filter fun a => decide (a.key = r)).map (·.before) := by
  rw [LogPerThread.beforeValuesOf, h.recordIds, h.beforeValues, List.zip_map', List.filter_map,
    List.map_map]
  rfl

theorem Inv.recoverable (h : Inv s) : Recoverable s := by
  obtain ⟨q, hq⟩ := h.orderly
  refine ⟨fun r hr => ?_, fun r T U hT hU => ?_, fun r T hT => ?_⟩
  · rw [h.lastCommitted]
    refine h.values.clean r fun T a ha he => ?_
    by_contra hw
    refine hr T ⟨fun last hph => ?_, ?_, a, ha, he, by simpa using hw⟩
    · have hp := h.phases T
      rw [hph] at hp
      simp [hp.2] at ha
    · have hb := h.backed T a ha
      rwa [he, lockMode, if_pos (by simpa using hw)] at hb
  · by_contra hne
    have hx := (hq.exclusive hT.holds hU.holds hne).1
    contradiction
  · obtain ⟨a, ha, rfl, -⟩ := hT.added
    rw [(h.logged T).beforeValuesOf, filter_key (h.values.distinct T) ha, h.lastCommitted,
      h.values.before T a ha]
    rfl

theorem Inv.readsCommitted (h : Inv s) : ReadsCommitted client s := by
  intro T s' myLock recordId next hs hph
  cases hs with
  | access locking node granted ha =>
    obtain ⟨a, rest, hg, rfl⟩ := h.access_granted locking node granted ha
    obtain ⟨rfl, rfl⟩ := Phase.locking.inj (locking.symm.trans hph)
    obtain ⟨ha', hrest⟩ := Prod.mk.inj (Option.some.inj hg.value)
    have hkey : recordId = a.key := congrArg Access.key ha'
    rw [← hrest, h.lastCommitted, hkey, ← h.found hg]
    exact goto_phase _ _ _

/-- No access of an unfinished or aborted transaction is seen by others or stays. -/
theorem abort_leaves_nothing (maxExecution : BitVec 64) (client : Client) :
    (∀ s, Reachable (shortRuns maxExecution client) s →
      Recoverable s ∧ ReadsCommitted client s) ∧
    ∀ (e : Execution (shortRuns maxExecution client)) (T : TransactionId)
      (a b : Nat), AbortRuns e T a b →
      (∀ r ∈ ((e.state a).db.logger.logPerTxn T).recordIds,
        ∃ j < a, e.label j = .access T ∧ r ∉ ((e.state j).db.logger.logPerTxn T).recordIds ∧
          (∀ i, j < i → i ≤ a → r ∈ ((e.state i).db.logger.logPerTxn T).recordIds) ∧
          (e.state (b + 1)).db.records r = (e.state j).db.records r) ∧
      ∀ k, a ≤ k → k ≤ b → (e.label k).txnId = T →
        (∀ r ∉ ((e.state a).db.logger.logPerTxn T).recordIds,
          (e.state (k + 1)).db.records r = (e.state k).db.records r) ∧
        ∀ U ≠ T, (e.state (k + 1)).db.logger.logPerTxn U = (e.state k).db.logger.logPerTxn U := by
  refine ⟨fun s hs => ?_, fun e T a b h => ⟨fun r hr => h.restored hr, fun k h₁ h₂ hT => ?_⟩⟩
  · have hinv := reachable_inv hs
    exact ⟨hinv.recoverable, hinv.readsCommitted⟩
  · exact h.frame h₁ h₂ hT

/-- Without the condition on the length of the logs. -/
theorem unrecoverable : ¬ ∀ s, Reachable (dbSystem 1 anyClient) s → Recoverable s := by
  intro h
  obtain ⟨s, hs, hidle, hcommitted, hone⟩ := rollback_lost 1
  have hclean : s.db.records 1 = s.lastCommitted 1 := by
    refine (h s hs).clean 1 fun T hT => ?_
    obtain ⟨last, hl⟩ := hidle T
    exact hT.unfinished last hl
  rw [hone, State.lastCommitted, hcommitted] at hclean
  exact absurd hclean (by decide)

/-! A transaction adds to a record and aborts. -/

def addThenAbortStep (s : State) : Nat → State
  | 0 => s.begin 1 (.add 1 1 .abort)
  | 1 => (s.setLockTable lockedOnce).goto 1 (.locking 0 (.add 1 1 .abort))
  | 2 => s.accessed 1 ⟨1, true, 100, 101⟩ .abort
  | 3 => s.goto 1 (.undoing 0 1 false)
  | 4 => (s.abortLoop 1 0 1 false).getD s
  | 5 => (s.abortLoop 1 1 1 false).getD s
  | _ => (s.setLockTable ((lockedOnce.unlock 2 1).getD lockedOnce)).goto 1 (.idle .aborted)

def addThenAbort : Nat → State
  | 0 => .new 1
  | k + 1 => addThenAbortStep (addThenAbort k) k

def addThenAbortLabel : Nat → Action
  | 0 => .begin 1
  | 1 => .lock 1
  | 2 => .access 1
  | 3 => .abort 1
  | 4 => .abortLoop 1
  | 5 => .abortLoop 1
  | _ => .unlock 1

theorem addThenAbort_call : (addThenAbort 3).callAbort 1 false = addThenAbort 4 := by
  have hnum : (addThenAbort 3).db.numOperation 1 = 1 := by
    show ((1 : Nat) : Int).bmod (2 ^ 32) = 1
    decide
  rw [State.callAbort, hnum]
  rfl

def addThenAbortRun : Execution (shortRuns 1 anyClient) where
  length := 7
  state := addThenAbort
  label := addThenAbortLabel
  starts := rfl
  steps := by
    intro k hk
    interval_cases k
    · exact ⟨.begin _ rfl trivial, trivial⟩
    · exact ⟨.accepted 2 0 rfl rfl rfl rfl, trivial⟩
    · exact ⟨.access rfl rfl rfl rfl, trivial⟩
    · refine ⟨?_, show 1 < 2 ^ 31 by decide⟩
      show Step anyClient (addThenAbort 3) (.abort 1) (addThenAbort 4)
      rw [← addThenAbort_call]
      exact .abort (.inr rfl)
    · exact ⟨.abortLoop rfl rfl, trivial⟩
    · exact ⟨.abortLoop rfl rfl, trivial⟩
    · exact ⟨.unlock 2 rfl rfl, trivial⟩

theorem abort_leaves_nothing_addThenAbort :
    Recoverable (addThenAbort 3) ∧ ∃ j < 3, (addThenAbort 7).db.records 1 = (addThenAbort j).db.records 1 := by
  obtain ⟨hstates, hruns⟩ := abort_leaves_nothing 1 anyClient
  refine ⟨(hstates _ (addThenAbortRun.reachable (k := 3) (by decide))).1, ?_⟩
  have hrun : AbortRuns addThenAbortRun 1 3 6 := by
    refine ⟨by decide, by decide, .inl rfl, ⟨_, _, rfl⟩, rfl, fun k h₁ h₂ => ?_⟩
    interval_cases k <;> exact Action.noConfusion
  obtain ⟨j, hj, -, -, -, hback⟩ := (hruns addThenAbortRun 1 3 6 hrun).1 1 List.mem_cons_self
  exact ⟨j, hj, hback⟩

end Transactions
