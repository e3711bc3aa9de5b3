import HyuIte4065.Transactions.Frame
import HyuIte4065.Lock.Frame
import HyuIte4065.Library.UndoLog

/-!
# The invariant of the database

Every access of a running transaction is backed by a granted lock, so accesses of
different transactions meet only where both read, and the undo logs stay consistent with
the records and with what the flushed transactions have written.
-/
namespace Transactions

open Lock Replay Transition UndoLog

variable {s s' : State} {T U : TransactionId} {t t' : LockTable} {q : RecordId → List Ptr}
  {ph : Phase} {prog body : Program} {as : History} {client : Client} {maxExecution : BitVec 64}
  {action : Action} {p : Ptr} {n : LockNode} {r : RecordId} {m : LockMode}

/-- How many entries of its log a transaction has undone. -/
def Phase.undone : Phase → Nat
  | .undoing i _ _ => i
  | _ => 0

def lockMode (a : Access RecordId Value) : LockMode := if a.wrote then .write else .read

/-- The records as the flushed transactions have left them. -/
def State.committedTable (s : State) : Table :=
  result (fun _ => 100) (s.committed.flatMap (·.accesses))

/-- The lock table, the program and the history of a transaction agree with where it is. -/
def PhaseOk (t : LockTable) (T : TransactionId) (body : Program) (as : History) : Phase → Prop
  | .idle _ => ¬ t.Waiting T ∧ as = []
  | .ready prog => ¬ t.Waiting T ∧ body.Follows as prog
  | .locking myLock prog => body.Follows as prog ∧ (t.lockPerTxn T).getLast? = some myLock ∧
      ∃ n, t.heap myLock = some n ∧ prog.request = some (n.recordId, n.lockMode) ∧
        n.recordId ∉ as.map (·.key)
  | .corrupt => ¬ t.Waiting T ∧ ∃ prog, body.Follows as prog
  | .undoing i numOperation _ => ¬ t.Waiting T ∧ numOperation = as.length ∧ i ≤ as.length
  | .flushing _ => ¬ t.Waiting T ∧ body.Follows as .commit
  | .unlocking _ => ¬ t.Waiting T ∧ as = []

structure Inv (s : State) : Prop where
  orderly : ∃ q, Orderly s.db.lockTable q
  values : Consistent s.db.records s.committedTable s.history fun T => (s.phase T).undone
  logged : ∀ T, Logged (s.db.logger.logPerTxn T) (s.history T)
  backed : ∀ T, ∀ a ∈ s.history T, Holds s.db.lockTable T a.key (lockMode a)
  phases : ∀ T, PhaseOk s.db.lockTable T (s.body T) (s.history T) (s.phase T)
  serial : Fits (fun _ => 100) (s.committed.flatMap (·.accesses))
  commits : ∀ c ∈ s.committed, Sound c.accesses ∧ c.body.Follows c.accesses .commit
  fout : ∀ T, (s.db.logger.logPerTxn T).fout =
    (s.committed.filter fun c => decide (c.txnId = T)).map (·.line)

theorem PhaseOk.undisturbed (h : PhaseOk t T body as ph) (ht : Threaded t q)
    (hu : Undisturbed t t' T) : PhaseOk t' T body as ph := by
  cases ph with
  | locking myLock prog =>
    obtain ⟨hf, hlast, n, hn, hr, hk⟩ := h
    obtain ⟨k, hk', hT⟩ := (ht.shape.owned T myLock).mp (List.mem_of_getLast? hlast)
    obtain rfl := Option.some.inj (hn.symm.trans hk')
    obtain ⟨n', hn', -, hr', hm', -⟩ := hu.locks myLock n hn hT
    exact ⟨hf, hu.deque ▸ hlast, n', hn', by rw [hr', hm', hr], by rwa [hr']⟩
  | _ => exact h.imp_left (hu.not_waiting ht)

theorem inv_new (maxExecution : BitVec 64) : Inv (.new maxExecution) := by
  refine ⟨reachable_orderly (.init rfl), consistent_empty _ _, ?_, ?_, ?_, trivial, ?_, ?_⟩
  · exact fun T => ⟨rfl, rfl, rfl⟩
  · intro T a ha
    simp [State.new] at ha
  · exact fun T => ⟨not_waiting_of_deque rfl, rfl⟩
  · intro c hc
    simp [State.new] at hc
  · exact fun T => rfl

theorem undone_of_ne {f g : TransactionId → Phase} (h : ∀ U ≠ T, g U = f U) :
    (fun U => (g U).undone) = Function.update (fun U => (f U).undone) T (g T).undone := by
  funext U
  by_cases hU : U = T
  · subst hU
    simp
  · rw [h U hU, Function.update_of_ne hU]

theorem undone_same {f g : TransactionId → Phase} (h : ∀ U ≠ T, g U = f U)
    (hT : (g T).undone = (f T).undone) : (fun U => (g U).undone) = fun U => (f U).undone := by
  rw [undone_of_ne h, hT]
  exact Function.update_eq_self T _

/-- A step in which only the lock table and the place of `T` change. -/
theorem Inv.relock (h : Inv s) (ho : ∃ q, Orderly t q)
    (hothers : ∀ U ≠ T, Undisturbed s.db.lockTable t U)
    (hbacked : ∀ a ∈ s.history T, Holds t T a.key (lockMode a))
    (hp : PhaseOk t T (s.body T) (s.history T) ph) (hu : ph.undone = (s.phase T).undone) :
    Inv ((s.setLockTable t).goto T ph) := by
  obtain ⟨q, hq⟩ := h.orderly
  refine ⟨ho, ?_, h.logged, ?_, ?_, h.serial, h.commits, h.fout⟩
  · rw [undone_same (goto_other (s.setLockTable t) ph) ((congrArg _ (goto_phase _ T ph)).trans hu)]
    exact h.values
  · intro U a ha
    by_cases hU : U = T
    · subst hU
      exact hbacked a ha
    · exact (hothers U hU).locks.holds (h.backed U a ha)
  · intro U
    by_cases hU : U = T
    · subst hU
      simpa [State.goto, State.setLockTable] using hp
    · simpa [State.goto, State.setLockTable, hU] using (h.phases U).undisturbed hq.toThreaded (hothers U hU)

/-- A lock request of `T`. -/
theorem Inv.refused (h : Inv s) (hph : s.phase T = .ready prog) {fuel : Nat}
    (ha : s.db.lockTable.addLock fuel p T r m = some (t, none)) :
    Inv ((s.setLockTable t).goto T .corrupt) := by
  obtain ⟨-, rfl⟩ := addLock_refused ha
  have hp := h.phases T
  rw [hph] at hp
  exact h.relock h.orderly (fun U _ => .refl _ U) (h.backed T) ⟨hp.1, prog, hp.2⟩ (by rw [hph]; rfl)

theorem Inv.accepted (h : Inv s) (hph : s.phase T = .ready prog)
    (hreq : prog.request = some (r, m)) (fresh : s.db.lockTable.heap p = none) {fuel : Nat}
    (ha : s.db.lockTable.addLock fuel p T r m = some (t, some p)) :
    Inv ((s.setLockTable t).goto T (.locking p prog)) := by
  obtain ⟨q, hq⟩ := h.orderly
  have hp := h.phases T
  rw [hph] at hp
  rcases hq.shape.addLock_some fresh ha with ⟨-, hne, -⟩ | ⟨hr, -, rfl⟩
  · simp at hne
  · have survive : Survive s.db.lockTable
        (s.db.lockTable.appended p m T r (s.db.lockTable.mustWait (q r) m)) T := survive_appended fresh
    refine h.relock ⟨_, hq.appended fresh hr hp.1⟩ (fun U hU => undisturbed_appended fresh hU) ?_ ?_
      (by rw [hph]; rfl)
    · intro a ha
      exact survive.holds (h.backed T a ha)
    · refine ⟨hp.2, by simp [LockTable.appended], _, LockTable.appended_new, hreq, ?_⟩
      intro hm
      obtain ⟨a, ha, he⟩ := List.mem_map.mp hm
      obtain ⟨x, n, hn, hT, hr', -⟩ := h.backed T a ha
      exact hq.shape.free_of_not_reaches hr x n hn hT (hr'.trans he)

theorem Inv.unlock (h : Inv s) {outcome : Outcome} (hph : s.phase T = .unlocking outcome) {fuel : Nat}
    (hu : s.db.lockTable.unlock fuel T = some t) :
    Inv ((s.setLockTable t).goto T (.idle outcome)) := by
  obtain ⟨q, hq⟩ := h.orderly
  have hp := h.phases T
  rw [hph] at hp
  refine h.relock ⟨_, hq.unlock hp.1 hu⟩ (fun U hU => hq.toThreaded.undisturbed_unlock hu hU) ?_ ?_
    (by rw [hph]; rfl)
  · rw [hp.2]
    simp
  · refine ⟨not_waiting_of_deque ?_, hp.2⟩
    rw [(hq.toThreaded.unlock hu).2.2, Function.update_self]

theorem Inv.local_step (h : Inv s) (hl : Local T s s')
    (values : Consistent s'.db.records s'.committedTable s'.history fun U => (s'.phase U).undone)
    (logged : Logged (s'.db.logger.logPerTxn T) (s'.history T))
    (backed : ∀ a ∈ s'.history T, Holds s.db.lockTable T a.key (lockMode a))
    (phase : PhaseOk s.db.lockTable T (s'.body T) (s'.history T) (s'.phase T))
    (serial : Fits (fun _ => 100) (s'.committed.flatMap (·.accesses)))
    (commits : ∀ c ∈ s'.committed, Sound c.accesses ∧ c.body.Follows c.accesses .commit)
    (fout : ∀ U, (s'.db.logger.logPerTxn U).fout =
      (s'.committed.filter fun c => decide (c.txnId = U)).map (·.line)) : Inv s' := by
  refine ⟨hl.lockTable ▸ h.orderly, values, ?_, ?_, ?_, serial, commits, fout⟩
  · intro U
    by_cases hU : U = T
    · subst hU
      exact logged
    · rw [hl.log U hU, hl.history U hU]
      exact h.logged U
  · intro U a ha
    rw [hl.lockTable]
    by_cases hU : U = T
    · subst hU
      exact backed a ha
    · rw [hl.history U hU] at ha
      exact h.backed U a ha
  · intro U
    rw [hl.lockTable]
    by_cases hU : U = T
    · subst hU
      exact phase
    · rw [hl.phase U hU, hl.body U hU, hl.history U hU]
      exact h.phases U

theorem lockMode_eq {a : Access RecordId Value} (h : a.wrote = true ↔ m = .write) :
    lockMode a = m := by
  cases m <;> cases hw : a.wrote <;> simp_all [lockMode]

/-- What a lock allows excludes the accesses of others. -/
theorem Inv.exclusive (h : Inv s) {a : Access RecordId Value}
    (ha : Holds s.db.lockTable T a.key (lockMode a)) (hU : U ≠ T) : Compatible (s.history U) [a] := by
  obtain ⟨q, hq⟩ := h.orderly
  intro b hb c hc he
  obtain rfl : c = a := by simpa using hc
  obtain ⟨hm₁, hm₂⟩ := hq.exclusive (he ▸ h.backed U b hb) ha hU
  exact ⟨by simpa [lockMode] using hm₁, by simpa [lockMode] using hm₂⟩

/-- A transaction that leaves the spin loop has the lock that it asked for. -/
theorem Inv.granted (h : Inv s) (hph : s.phase T = .locking p prog)
    (hn : s.db.lockTable.heap p = some n) (hg : n.locked = false) :
    Holds s.db.lockTable T n.recordId n.lockMode ∧ ¬ s.db.lockTable.Waiting T ∧
    (s.body T).Follows (s.history T) prog ∧ prog.request = some (n.recordId, n.lockMode) ∧
    n.recordId ∉ (s.history T).map (·.key) := by
  obtain ⟨q, hq⟩ := h.orderly
  have hp := h.phases T
  rw [hph] at hp
  obtain ⟨hf, hlast, k, hk, hreq, hfree⟩ := hp
  obtain rfl := Option.some.inj (hn.symm.trans hk)
  obtain ⟨k, hk, hT⟩ := (hq.shape.owned T p).mp (List.mem_of_getLast? hlast)
  obtain rfl := Option.some.inj (hn.symm.trans hk)
  refine ⟨⟨p, n, hn, hT, rfl, rfl, hg⟩, ?_, hf, hreq, hfree⟩
  rintro ⟨x, k, hx, hk, hw⟩
  obtain rfl := Option.some.inj (hlast.symm.trans hx)
  obtain rfl := Option.some.inj (hn.symm.trans hk)
  rw [hg] at hw
  contradiction

/-- A granted access: its lock, and what it finds and leaves. -/
structure Granted (s : State) (T : TransactionId) (prog rest : Program)
    (a : Access RecordId Value) : Prop where
  value : prog.onValue (s.db.records a.key) = some (a, rest)
  found : a.before = s.db.records a.key
  sound : a.wrote = false → a.after = a.before
  holds : Holds s.db.lockTable T a.key (lockMode a)
  first : a.key ∉ (s.history T).map (·.key)

theorem Inv.access_granted (h : Inv s) (hph : s.phase T = .locking p prog)
    (hn : s.db.lockTable.heap p = some n) (hg : n.locked = false) (ha : s.access T prog = some s') :
    ∃ a rest, Granted s T prog rest a ∧ s' = s.accessed T a rest := by
  obtain ⟨hold, -, -, hreq, hfree⟩ := h.granted hph hn hg
  obtain ⟨a, rest, hval, hkey, hbefore, hmode, hsound⟩ :=
    Program.onValue_of_request hreq (s.db.records n.recordId)
  refine ⟨a, rest, ⟨hkey ▸ hval, hkey ▸ hbefore, hsound, ?_, hkey ▸ hfree⟩, ?_⟩
  · rw [hkey, lockMode_eq hmode]
    exact hold
  · exact Option.some.inj (ha.symm.trans (access_eq hreq hval))

/-- What a granted access finds is the committed value. -/
theorem Inv.found (h : Inv s) {rest : Program} {a : Access RecordId Value}
    (hg : Granted s T prog rest a) : s.db.records a.key = s.committedTable a.key :=
  h.values.found hg.first fun U hU b hb he => (h.exclusive hg.holds hU b hb a (by simp) he).1

theorem Inv.access (h : Inv s) (hph : s.phase T = .locking p prog)
    (hn : s.db.lockTable.heap p = some n) (hg : n.locked = false) (ha : s.access T prog = some s') :
    Inv s' := by
  obtain ⟨-, hwait, hf, -, -⟩ := h.granted hph hn hg
  obtain ⟨a, rest, hga, rfl⟩ := h.access_granted hph hn hg ha
  have hzero : (s.phase T).undone = 0 := by rw [hph]; rfl
  have hvalues := h.values.access hga.first hzero hga.found hga.sound
    fun U hU => h.exclusive hga.holds hU
  have hlog : (s.accessed T a rest).history T = s.history T ++ [a] := setHistory_history _ _ _
  have hphase : (s.accessed T a rest).phase T = .ready rest := goto_phase _ _ _
  have hl := local_accessed s T a rest
  refine h.local_step hl ?_ ?_ ?_ ?_ h.serial h.commits ?_
  · rw [undone_same hl.phase (by rw [hphase, hzero]; rfl)]
    exact hvalues
  · rw [hlog]
    exact (h.logged T).addLog
  · intro b hb
    rw [hlog] at hb
    rcases List.mem_append.mp hb with hb | hb
    · exact h.backed T b hb
    · obtain rfl : b = a := by simpa using hb
      exact hga.holds
  · rw [hlog, hphase]
    exact ⟨hwait, hf.snoc hga.value⟩
  · intro U
    exact (fout_addLog _ T U _ _ _).trans (h.fout U)

/-- A step of `T` that touches neither the tables nor what has been flushed. -/
theorem Inv.move (h : Inv s) (hl : Local T s s') (records : s'.db.records = s.db.records)
    (committed : s'.committed = s.committed) (history : s'.history = s.history)
    (log : s'.db.logger.logPerTxn = s.db.logger.logPerTxn)
    (hu : (s'.phase T).undone = (s.phase T).undone)
    (hp : PhaseOk s.db.lockTable T (s'.body T) (s.history T) (s'.phase T)) : Inv s' := by
  refine h.local_step hl ?_ ?_ ?_ ?_ ?_ ?_ ?_
  · rw [undone_same hl.phase hu, records, history, State.committedTable, committed]
    exact h.values
  · rw [log, history]
    exact h.logged T
  · rw [history]
    exact h.backed T
  · rwa [history]
  · rw [committed]
    exact h.serial
  · rw [committed]
    exact h.commits
  · rw [log, committed]
    exact h.fout

theorem Inv.begin (h : Inv s) {last : Outcome} (hph : s.phase T = .idle last) (prog : Program) :
    Inv (s.begin T prog) := by
  have hp := h.phases T
  rw [hph] at hp
  have hphase : (s.begin T prog).phase T = .ready prog := goto_phase _ _ _
  have hbody : (s.begin T prog).body T = prog := Function.update_self T _ _
  refine h.move (local_begin s T prog) rfl rfl rfl rfl (by rw [hphase, hph]; rfl) ?_
  rw [hphase, hbody, hp.2]
  exact ⟨hp.1, .nil⟩

theorem Inv.callAbort (h : Inv s) (hwait : ¬ s.db.lockTable.Waiting T)
    (hzero : (s.phase T).undone = 0)
    (hshort : (s.db.logger.logPerTxn T).recordIds.length < 2 ^ 31) (terminated : Bool) :
    Inv (s.callAbort T terminated) := by
  refine h.move (local_goto _ _ _) rfl rfl rfl rfl ?_ ?_
  · rw [State.callAbort, goto_phase, hzero]
    rfl
  · rw [State.callAbort, goto_phase]
    exact ⟨hwait, (h.logged T).numOperation ((h.logged T).length ▸ hshort), Nat.zero_le _⟩

theorem Inv.callCommit (h : Inv s) (hph : s.phase T = .ready .commit)
    (hshort : s.db.maxExecution < s.db.logger.getCommitId.1 →
      (s.db.logger.logPerTxn T).recordIds.length < 2 ^ 31) : Inv (s.callCommit T) := by
  have hp := h.phases T
  rw [hph] at hp
  have hdrawn : Inv { s with
      db := { s.db with logger := s.db.logger.getCommitId.2 }, issued := s.issued + 1 } :=
    ⟨h.orderly, h.values, h.logged, h.backed, h.phases, h.serial, h.commits, h.fout⟩
  unfold State.callCommit
  dsimp only
  split
  case isTrue hlt => exact hdrawn.callAbort hp.1 (by rw [hph]; rfl) (hshort hlt) true
  case isFalse =>
    refine hdrawn.move (local_goto _ _ _) rfl rfl rfl rfl ?_ ?_
    · rw [goto_phase, hph]
      rfl
    · rw [goto_phase]
      exact hp

theorem Inv.abortLoop (h : Inv s) {i : Nat} {k : Int} {b : Bool} (hph : s.phase T = .undoing i k b)
    (ha : s.abortLoop T i k b = some s') : Inv s' := by
  have hp := h.phases T
  rw [hph] at hp
  obtain ⟨hwait, hk, hi⟩ := hp
  have hundone : (s.phase T).undone = i := by rw [hph]; rfl
  have hl := local_abortLoop (h.logged T) ha
  rcases abortLoop_cases (h.logged T) ha with ⟨hlt, a, hget, rfl⟩ | ⟨hle, rfl⟩
  · have hv := h.values.undo (hundone ▸ hget)
    refine h.local_step hl ?_ (h.logged T) (h.backed T) ?_ h.serial h.commits h.fout
    · rw [undone_of_ne (goto_other _ _), goto_phase]
      rwa [hundone] at hv
    · rw [goto_phase]
      exact ⟨hwait, hk, (List.getElem?_eq_some_iff.mp hget).1⟩
  · have hv := h.values.discard (hundone ▸ (by omega) : (s.history T).length ≤ _) 0
    refine h.local_step hl ?_ ?_ ?_ ?_ h.serial h.commits ?_
    · rw [undone_of_ne (goto_other _ _), goto_phase]
      exact hv
    · simp [State.goto, State.setHistory, Logger.stashLog, Logger.setLog, logged_nil]
    · simp [State.goto]
    · rw [goto_phase]
      exact ⟨hwait, setHistory_history _ _ _⟩
    · intro U
      exact (fout_stashLog _ T U).trans (h.fout U)

theorem Inv.flush (h : Inv s) {commitId : BitVec 64} (hph : s.phase T = .flushing commitId) :
    Inv (s.flush T commitId) := by
  have hp := h.phases T
  rw [hph] at hp
  have hzero : (s.phase T).undone = 0 := by rw [hph]; rfl
  obtain ⟨hv, hfits⟩ := h.values.commit hzero
  have hphase : (s.flush T commitId).phase T = .unlocking .committed := goto_phase _ _ _
  have hhist : (s.flush T commitId).history T = [] := setHistory_history _ _ _
  have hl := local_flush s T commitId
  have hall : (s.flush T commitId).committed.flatMap (·.accesses) =
      s.committed.flatMap (·.accesses) ++ s.history T := by
    simp [State.flush, State.goto, State.setHistory]
  refine h.local_step hl ?_ ?_ ?_ ?_ ?_ ?_ ?_
  · rw [undone_same hl.phase (by rw [hphase, hzero]; rfl), State.committedTable, hall, result_append]
    exact hv
  · simp [State.flush, State.goto, State.setHistory, Logger.flushLog, Logger.setLog, logged_nil]
  · rw [hhist]
    simp
  · rw [hphase, hhist]
    exact ⟨hp.1, rfl⟩
  · rw [hall]
    exact fits_append.mpr ⟨h.serial, hfits⟩
  · intro c hc
    rcases List.mem_append.mp hc with hc | hc
    · exact h.commits c hc
    · obtain rfl : c = _ := List.mem_singleton.mp hc
      exact ⟨h.values.sound T, hp.2⟩
  · intro U
    have hnew : (s.flush T commitId).committed = s.committed ++ [⟨commitId, T, s.body T, s.history T⟩] :=
      rfl
    rw [hnew, List.filter_append, List.map_append, ← h.fout U]
    by_cases hU : U = T
    · subst hU
      simp [State.flush, State.goto, State.setHistory, Logger.flushLog, Logger.setLog, Commit.line,
        (h.logged U).recordIds, (h.logged U).afterValues]
    · rw [hl.log U hU]
      simp [Ne.symm hU]

theorem Inv.step (h : Inv s) (hs : Step client s action s') (hshort : ShortAborts s action) :
    Inv s' := by
  cases hs with
  | begin prog idle starts => exact h.begin idle prog
  | refused fuel newLock ready request ha => exact h.refused ready ha
  | accepted fuel newLock ready request fresh ha => exact h.accepted ready request fresh ha
  | access locking node granted ha => exact h.access locking node granted ha
  | @abort T fails =>
    have hp := h.phases T
    rcases fails with hph | hph <;> rw [hph] at hp <;>
      exact h.callAbort hp.1 (by rw [hph]; rfl) hshort false
  | abortLoop undoing ha => exact h.abortLoop undoing ha
  | commit ready => exact h.callCommit ready hshort
  | flush flushing => exact h.flush flushing
  | unlock fuel unlocking hu => exact h.unlock unlocking hu

theorem reachable_inv (h : Reachable (shortRuns maxExecution client) s) :
    Inv s := by
  refine h.invariant ?_ ?_
  · rintro s rfl
    exact inv_new maxExecution
  · intro s a s' _ hi hs
    exact hi.step hs.1 hs.2

end Transactions
