import HyuIte4065.Transactions.Steps

/-!
# What an operation changes

Every operation of the database changes what belongs to one transaction, and each of them
in a way that one lemma says.
-/
namespace Transactions

open Lock Replay

variable {s s' : State} {T U : TransactionId} {prog rest : Program} {as : History}
  {r : RecordId} {m : LockMode} {a : Access RecordId Value}

def State.Unfinished (s : State) (T : TransactionId) : Prop := ∀ last, s.phase T ≠ .idle last

def Commit.line (c : Commit) : LogLine :=
  ⟨c.commitId, c.accesses.map (·.key), c.accesses.map (·.after)⟩

/-- The log of a thread is the history of its transaction. -/
structure Logged (log : LogPerThread) (as : History) : Prop where
  recordIds : log.recordIds = as.map (·.key)
  beforeValues : log.beforeValues = as.map (·.before)
  afterValues : log.afterValues = as.map (·.after)

variable {logger : Logger} {log : LogPerThread}

@[simp] theorem goto_phase (s : State) (T : TransactionId) (ph : Phase) :
    (s.goto T ph).phase T = ph := by simp [State.goto]

theorem goto_other (s : State) (ph : Phase) : ∀ U ≠ T, (s.goto T ph).phase U = s.phase U :=
  fun _ hU => Function.update_of_ne hU _ _

@[simp] theorem setHistory_history (s : State) (T : TransactionId) (as : History) :
    (s.setHistory T as).history T = as := by simp [State.setHistory]

/-- Only what belongs to `T` is different, and the lock table is not. -/
structure Local (T : TransactionId) (s s' : State) : Prop where
  lockTable : s'.db.lockTable = s.db.lockTable
  phase : ∀ U ≠ T, s'.phase U = s.phase U
  body : ∀ U ≠ T, s'.body U = s.body U
  history : ∀ U ≠ T, s'.history U = s.history U
  log : ∀ U ≠ T, s'.db.logger.logPerTxn U = s.db.logger.logPerTxn U

theorem local_goto (s : State) (T : TransactionId) (ph : Phase) : Local T s (s.goto T ph) :=
  ⟨rfl, goto_other _ _, fun _ _ => rfl, fun _ _ => rfl, fun _ _ => rfl⟩

/-- What `commit` does before it flushes or aborts. -/
structure CommitCalled (T : TransactionId) (s s' : State) : Prop where
  here : Local T s s'
  records : s'.db.records = s.db.records
  limit : s'.db.maxExecution = s.db.maxExecution
  body : s'.body = s.body
  history : s'.history = s.history
  committed : s'.committed = s.committed
  issued : s'.issued = s.issued + 1
  phase : s'.phase T = if s.db.maxExecution < s.db.logger.executionOrder + 1
    then .undoing 0 (s.db.numOperation T) true else .flushing (s.db.logger.executionOrder + 1)

theorem commitCalled (s : State) (T : TransactionId) : CommitCalled T s (s.callCommit T) := by
  unfold State.callCommit
  dsimp only
  split
  case isTrue h =>
    exact ⟨⟨rfl, goto_other _ _, fun _ _ => rfl, fun _ _ => rfl, fun _ _ => rfl⟩, rfl, rfl, rfl, rfl, rfl,
      rfl, (goto_phase _ _ _).trans (if_pos h).symm⟩
  case isFalse h =>
    exact ⟨⟨rfl, goto_other _ _, fun _ _ => rfl, fun _ _ => rfl, fun _ _ => rfl⟩, rfl, rfl, rfl, rfl, rfl,
      rfl, (goto_phase _ _ _).trans (if_neg h).symm⟩

theorem local_begin (s : State) (T : TransactionId) (prog : Program) : Local T s (s.begin T prog) :=
  ⟨rfl, goto_other _ _, fun _ hU => Function.update_of_ne hU _ _, fun _ _ => rfl, fun _ _ => rfl⟩

theorem local_flush (s : State) (T : TransactionId) (commitId : BitVec 64) :
    Local T s (s.flush T commitId) :=
  ⟨rfl, goto_other _ _, fun _ _ => rfl, fun _ hU => Function.update_of_ne hU _ _,
    fun _ hU => Function.update_of_ne hU _ _⟩

/-- The state after `T` has made the access `a`, and has the program `prog` left. -/
def State.accessed (s : State) (T : TransactionId) (a : Access RecordId Value) (prog : Program) :
    State :=
  ({ s with db := { s.db with
      records := apply s.db.records a
      logger := s.db.logger.addLog T a.key a.before a.after } }.setHistory T
    (s.history T ++ [a])).goto T (.ready prog)

theorem access_eq (hreq : prog.request = some (r, m))
    (hval : prog.onValue (s.db.records r) = some (a, rest)) :
    s.access T prog = some (s.accessed T a rest) := by
  cases prog with
  | commit => simp [Program.request] at hreq
  | abort => simp [Program.request] at hreq
  | read recordId next =>
    obtain ⟨rfl, rfl⟩ : recordId = r ∧ LockMode.read = m := by simpa [Program.request] using hreq
    obtain ⟨rfl, rfl⟩ := Prod.mk.inj (Option.some.inj hval)
    have hsame : apply s.db.records ⟨recordId, false, s.db.records recordId, s.db.records recordId⟩ =
        s.db.records := Function.update_eq_self _ _
    simp only [State.access, State.accessed, hsame, Database.readGranted]
  | add recordId operand next =>
    obtain ⟨rfl, rfl⟩ : recordId = r ∧ LockMode.write = m := by simpa [Program.request] using hreq
    obtain ⟨rfl, rfl⟩ := Prod.mk.inj (Option.some.inj hval)
    simp only [State.access, State.accessed, Database.addGranted, Function.update_self, apply]

theorem local_accessed (s : State) (T : TransactionId) (a : Access RecordId Value) (prog : Program) :
    Local T s (s.accessed T a prog) :=
  ⟨rfl, goto_other _ _, fun _ _ => rfl, fun _ hU => Function.update_of_ne hU _ _,
    fun _ hU => Function.update_of_ne hU _ _⟩

theorem Logged.addLog (h : Logged (logger.logPerTxn T) as) :
    Logged ((logger.addLog T a.key a.before a.after).logPerTxn T) (as ++ [a]) := by
  constructor <;>
    simp [Logger.addLog, Logger.setLog, h.recordIds, h.beforeValues, h.afterValues]

theorem fout_addLog (logger : Logger) (T U : TransactionId) (r : RecordId) (v w : Value) :
    ((logger.addLog T r v w).logPerTxn U).fout = (logger.logPerTxn U).fout := by
  by_cases hU : U = T
  · subst hU
    simp [Logger.addLog, Logger.setLog]
  · simp [Logger.addLog, Logger.setLog, hU]

theorem fout_stashLog (logger : Logger) (T U : TransactionId) :
    ((logger.stashLog T).logPerTxn U).fout = (logger.logPerTxn U).fout := by
  by_cases hU : U = T
  · subst hU
    simp [Logger.stashLog, Logger.setLog]
  · simp [Logger.stashLog, Logger.setLog, hU]

theorem logged_nil (fout : List LogLine) : Logged ⟨[], [], [], fout⟩ [] := ⟨rfl, rfl, rfl⟩

theorem Logged.length (h : Logged (s.db.logger.logPerTxn T) as) :
    (s.db.logger.logPerTxn T).recordIds.length = as.length := by
  rw [h.recordIds, List.length_map]

theorem Logged.numOperation (h : Logged (s.db.logger.logPerTxn T) as) (hshort : as.length < 2 ^ 31) :
    s.db.numOperation T = as.length := by
  have hlow : -(((2 ^ 32 : Nat) : Int) / 2) ≤ (as.length : Int) := by omega
  have hhigh : (as.length : Int) < (((2 ^ 32 : Nat) : Int) + 1) / 2 := by omega
  unfold Database.numOperation
  simp only [h.length, Int.bmod_eq_of_le hlow hhigh]

/-- One turn of the loop of `abort` gives one record the value that its first access found. -/
theorem abortLoop_undo {i : Nat} {k : Int} {b : Bool}
    (hlog : Logged (s.db.logger.logPerTxn T) (s.history T)) (hlt : (i : Int) < k)
    (ha : (s.history T)[i]? = some a) :
    s.abortLoop T i k b = some (({ s with db := { s.db with
      records := Function.update s.db.records a.key a.before } }).goto T (.undoing (i + 1) k b)) := by
  rw [State.abortLoop, if_pos hlt, Database.undo, hlog.recordIds, hlog.beforeValues,
    List.getElem?_map, List.getElem?_map, ha]
  rfl

theorem abortLoop_end {i : Nat} {k : Int} {b : Bool} (hle : k ≤ i) :
    s.abortLoop T i k b = some ((({ s with
      db := { s.db with logger := s.db.logger.stashLog T } }).setHistory T []).goto T
      (.unlocking (if b then .terminated else .aborted))) := if_neg (by omega)

theorem abortLoop_cases {i : Nat} {k : Int} {b : Bool}
    (hlog : Logged (s.db.logger.logPerTxn T) (s.history T)) (h : s.abortLoop T i k b = some s') :
    ((i : Int) < k ∧ ∃ a, (s.history T)[i]? = some a ∧
      s' = ({ s with db := { s.db with
        records := Function.update s.db.records a.key a.before } }).goto T (.undoing (i + 1) k b)) ∨
    (k ≤ i ∧ s' = (({ s with db := { s.db with logger := s.db.logger.stashLog T } }).setHistory T []).goto T
      (.unlocking (if b then .terminated else .aborted))) := by
  by_cases hlt : (i : Int) < k
  · cases ha : (s.history T)[i]? with
    | none =>
      rw [State.abortLoop, if_pos hlt, Database.undo, hlog.recordIds, List.getElem?_map, ha] at h
      cases h
    | some a => exact .inl ⟨hlt, a, rfl, Option.some.inj (h.symm.trans (abortLoop_undo hlog hlt ha))⟩
  · have hle : k ≤ i := by omega
    exact .inr ⟨hle, Option.some.inj (h.symm.trans (abortLoop_end hle))⟩

theorem local_abortLoop {i : Nat} {k : Int} {b : Bool}
    (hlog : Logged (s.db.logger.logPerTxn T) (s.history T)) (h : s.abortLoop T i k b = some s') :
    Local T s s' := by
  rcases abortLoop_cases hlog h with ⟨-, a, -, rfl⟩ | ⟨-, rfl⟩
  · exact ⟨rfl, goto_other _ _, fun _ _ => rfl, fun _ _ => rfl, fun _ _ => rfl⟩
  · exact ⟨rfl, goto_other _ _, fun _ _ => rfl, fun _ hU => Function.update_of_ne hU _ _,
      fun _ hU => Function.update_of_ne hU _ _⟩

end Transactions
