import HyuIte4065.Transactions.Invariant

/-!
# A transaction alone

Runs in which one thread works and all others rest: every request for a record that the
transaction has not accessed yet is granted at once.
-/
namespace Transactions

open Lock Replay Transition

variable {s : State} {T : TransactionId} {prog rest : Program} {client : Client}
  {maxExecution : BitVec 64}  {r : RecordId} {m : LockMode} {a : Access RecordId Value}

/-- All others rest, and every lock is one of `T`. -/
structure Alone (client : Client) (maxExecution : BitVec 64) (T : TransactionId) (s : State) : Prop where
  reachable : Reachable (shortRuns maxExecution client) s
  others : ∀ U ≠ T, ∃ last, s.phase U = .idle last
  owned : ∀ p n, s.db.lockTable.heap p = some n → n.txnId = T

/-- Every lock is one on a record that `T` has accessed. -/
def State.Covered (s : State) (T : TransactionId) : Prop :=
  ∀ p n, s.db.lockTable.heap p = some n → n.recordId ∈ (s.history T).map (·.key)

theorem alone_new (client : Client) (maxExecution : BitVec 64) (T : TransactionId) :
    Alone client maxExecution T (.new maxExecution) ∧ (State.new maxExecution).Covered T := by
  refine ⟨⟨.init rfl, fun U _ => ⟨_, rfl⟩, fun p n hn => ?_⟩, fun p n hn => ?_⟩ <;>
    simp [State.new, Database.new, LockTable.empty] at hn

theorem Alone.begin (h : Alone client maxExecution T s) {last : Outcome} (hph : s.phase T = .idle last)
    (hc : client T last (s.body T) prog) : Alone client maxExecution T (s.begin T prog) := by
  refine ⟨.step (.begin T) h.reachable ⟨.begin prog hph hc, trivial⟩, fun U hU => ?_, h.owned⟩
  obtain ⟨last, hl⟩ := h.others U hU
  exact ⟨last, (goto_other _ _ U hU).trans hl⟩

/-- The state after an access whose request has been granted at once. -/
def State.granted (s : State) (T : TransactionId) (t : LockTable) (p : Ptr) (prog rest : Program)
    (a : Access RecordId Value) : State :=
  ((s.setLockTable t).goto T (.locking p prog)).accessed T a rest

@[simp] theorem granted_history {t : LockTable} {p : Ptr} :
    (s.granted T t p prog rest a).history T = s.history T ++ [a] := setHistory_history _ _ _

@[simp] theorem granted_phase {t : LockTable} {p : Ptr} :
    (s.granted T t p prog rest a).phase T = .ready rest := goto_phase _ _ _

@[simp] theorem granted_records {t : LockTable} {p : Ptr} :
    (s.granted T t p prog rest a).db.records = apply s.db.records a := rfl

theorem Alone.access (h : Alone client maxExecution T s) (hc : s.Covered T) (hph : s.phase T = .ready prog)
    (hreq : prog.request = some (r, m)) (hfree : r ∉ (s.history T).map (·.key))
    (hval : prog.onValue (s.db.records r) = some (a, rest)) :
    ∃ t p, Alone client maxExecution T (s.granted T t p prog rest a) ∧
      (s.granted T t p prog rest a).Covered T := by
  have hinv := reachable_inv h.reachable
  obtain ⟨q, hq⟩ := hinv.orderly
  have hempty : q r = [] := by
    refine List.eq_nil_iff_forall_not_mem.mpr fun x hx => ?_
    obtain ⟨n, hn, rfl⟩ := (hq.shape.queued r x).mp hx
    exact hfree (hc x n hn)
  have hr : ¬ Reaches s.db.lockTable T r := by
    rintro ⟨y, x, n, ht, -⟩
    rw [hq.shape.tail, hempty] at ht
    simp at ht
  obtain ⟨p, hp⟩ := hq.finite.exists_notMem
  have fresh : s.db.lockTable.heap p = none := by
    cases hn : s.db.lockTable.heap p with
    | none => rfl
    | some n => exact absurd ⟨n, hn⟩ hp
  have hwait : s.db.lockTable.mustWait (q r) m = false := by cases m <;> simp [LockTable.mustWait, hempty]
  obtain ⟨fuel, t, res, ha⟩ := hq.shape.addLock_returns hq.acyclic hq.finite fresh T r m
  rcases hq.shape.addLock_some fresh ha with ⟨hr', -⟩ | ⟨-, rfl, rfl⟩
  · exact absurd hr' hr
  rw [hwait] at ha
  have hkey : a.key = r := by
    obtain ⟨a', rest', hval', hk, -⟩ := Program.onValue_of_request hreq (s.db.records r)
    obtain ⟨rfl, -⟩ := Prod.mk.inj (Option.some.inj (hval.symm.trans hval'))
    exact hk
  refine ⟨_, p, ⟨.step (.access T) (.step (.lock T) h.reachable ⟨.accepted fuel p hph hreq fresh ha, trivial⟩)
    ⟨.access (goto_phase _ _ _) LockTable.appended_new rfl (access_eq hreq hval), trivial⟩, ?_, ?_⟩, ?_⟩
  · intro U hU
    obtain ⟨last, hl⟩ := h.others U hU
    exact ⟨last, (goto_other _ _ U hU).trans ((goto_other _ _ U hU).trans hl)⟩
  · intro x n hn
    rcases LockTable.appended_cases hn with ⟨-, hT, -⟩ | ⟨-, k, hk, hT, -⟩
    · exact hT
    · exact hT.trans (h.owned x k hk)
  · intro x n hn
    rw [granted_history]
    rcases LockTable.appended_cases hn with ⟨-, -, hr', -⟩ | ⟨-, k, hk, -, hr', -⟩
    · simp [hr', hkey]
    · have hm := hc x k hk
      simp [hr', hm]

theorem Alone.unlock (h : Alone client maxExecution T s) {outcome : Outcome}
    (hph : s.phase T = .unlocking outcome) :
    ∃ t, Alone client maxExecution T ((s.setLockTable t).goto T (.idle outcome)) ∧
      ((s.setLockTable t).goto T (.idle outcome)).Covered T := by
  obtain ⟨q, hq⟩ := (reachable_inv h.reachable).orderly
  obtain ⟨fuel, t, hu⟩ := hq.shape.unlock_returns T
  have hnone : ∀ x n, t.heap x ≠ some n := by
    intro x n hn
    obtain ⟨ht, hk, -⟩ := hq.toThreaded.unlock hu
    obtain ⟨k, hk, -⟩ := hk x n hn
    have hmem := (ht.shape.queued n.recordId x).mpr ⟨n, hn, rfl⟩
    have hnot : x ∉ s.db.lockTable.lockPerTxn T := of_decide_eq_true (List.mem_filter.mp hmem).2
    exact hnot ((hq.shape.owned T x).mpr ⟨k, hk, h.owned x k hk⟩)
  refine ⟨t, ⟨.step (.unlock T) h.reachable ⟨.unlock fuel hph hu, trivial⟩, fun U hU => ?_,
    fun x n hn => absurd hn (hnone x n)⟩, fun x n hn => absurd hn (hnone x n)⟩
  obtain ⟨last, hl⟩ := h.others U hU
  exact ⟨last, (goto_other _ _ U hU).trans hl⟩

/-- The state after a commit that is not beyond the limit. -/
def State.finished (s : State) (T : TransactionId) (t : LockTable) : State :=
  (((s.callCommit T).flush T s.db.logger.getCommitId.1).setLockTable t).goto T (.idle .committed)

theorem callCommit_of_le (hle : ¬ s.db.logger.getCommitId.1 > s.db.maxExecution) :
    s.callCommit T = ({ s with
      db := { s.db with logger := s.db.logger.getCommitId.2 }, issued := s.issued + 1 }).goto T
      (.flushing s.db.logger.getCommitId.1) := if_neg hle

theorem Alone.callCommit (h : Alone client maxExecution T s) (hph : s.phase T = .ready .commit)
    (hshort : ShortAborts s (.commit T)) : Alone client maxExecution T (s.callCommit T) := by
  have hl := (commitCalled s T).here
  refine ⟨.step (.commit T) h.reachable ⟨.commit hph, hshort⟩, fun U hU => ?_,
    fun p n hn => h.owned p n (hl.lockTable ▸ hn)⟩
  obtain ⟨last, he⟩ := h.others U hU
  exact ⟨last, (hl.phase U hU).trans he⟩

theorem Alone.commit (h : Alone client maxExecution T s) (hph : s.phase T = .ready .commit)
    (hle : ¬ s.db.logger.getCommitId.1 > s.db.maxExecution) :
    ∃ t, Alone client maxExecution T (s.finished T t) ∧ (s.finished T t).Covered T := by
  have hcall := h.callCommit hph fun hgt => absurd hgt hle
  have hphase : (s.callCommit T).phase T = .flushing s.db.logger.getCommitId.1 := by
    rw [callCommit_of_le hle, goto_phase]
  have hl := local_flush (s.callCommit T) T s.db.logger.getCommitId.1
  have hflushed : Alone client maxExecution T ((s.callCommit T).flush T s.db.logger.getCommitId.1) := by
    refine ⟨.step (.flush T) hcall.reachable ⟨.flush hphase, trivial⟩, fun U hU => ?_, hcall.owned⟩
    obtain ⟨last, he⟩ := hcall.others U hU
    exact ⟨last, (hl.phase U hU).trans he⟩
  exact hflushed.unlock (goto_phase _ _ _)

theorem Alone.abortLoop {s' : State} {i : Nat} {k : Int} {b : Bool} (h : Alone client maxExecution T s)
    (hph : s.phase T = .undoing i k b) (ha : s.abortLoop T i k b = some s') :
    Alone client maxExecution T s' := by
  have hl := local_abortLoop ((reachable_inv h.reachable).logged T) ha
  refine ⟨.step (.abortLoop T) h.reachable ⟨.abortLoop hph ha, trivial⟩, fun U hU => ?_,
    fun p n hn => h.owned p n (hl.lockTable ▸ hn)⟩
  obtain ⟨last, he⟩ := h.others U hU
  exact ⟨last, (hl.phase U hU).trans he⟩

/-- An abort that has `n` entries left to undo comes to its end. -/
theorem Alone.undoes {i n : Nat} {b : Bool} (h : Alone client maxExecution T s)
    (hph : s.phase T = .undoing i (i + n : Nat) b) :
    ∃ s', Alone client maxExecution T s' ∧
      s'.phase T = .unlocking (if b then .terminated else .aborted) := by
  induction n generalizing i s with
  | zero => exact ⟨_, h.abortLoop hph (abortLoop_end (by omega)), goto_phase _ _ _⟩
  | succ n ih =>
    have hinv := reachable_inv h.reachable
    have hp := hinv.phases T
    rw [hph] at hp
    have hlt : i < (s.history T).length := by
      have hk := hp.2.1
      omega
    have hstep := h.abortLoop hph
      (abortLoop_undo (hinv.logged T) (by omega) (List.getElem?_eq_getElem hlt))
    refine ih (i := i + 1) hstep ?_
    rw [goto_phase, Nat.add_assoc, Nat.add_comm 1 n]

/-- Transaction 1 has locked record 1. -/
def lockedOnce : LockTable := ((LockTable.empty.addLock 2 0 1 1 .write).getD (.empty, none)).1

/-! ### A long transaction -/

/-- Add 1 to each of the `n` records from `r` on, then go on. -/
def addEach : Nat → Nat → Program → Program
  | _, 0, rest => rest
  | r, n + 1, rest => .add r 1 (addEach (r + 1) n rest)

/-- What adding to `n` records from `r` on does. -/
structure Added (T : TransactionId) (r n : Nat) (rest : Program) (s s' : State) : Prop where
  phase : s'.phase T = .ready rest
  keys : (s'.history T).map (·.key) = (s.history T).map (·.key) ++ List.range' r n
  records : ∀ k : Nat, s'.db.records k = if r ≤ k ∧ k < r + n then s.db.records k + 1 else s.db.records k
  committed : s'.committed = s.committed

theorem Alone.addEach {r n : Nat} (h : Alone client maxExecution T s) (hc : s.Covered T)
    (hph : s.phase T = .ready (addEach r n rest)) (hkeys : ∀ k : Nat, k ∈ (s.history T).map (·.key) → k < r) :
    ∃ s', Alone client maxExecution T s' ∧ s'.Covered T ∧ Added T r n rest s s' := by
  induction n generalizing r s with
  | zero =>
    refine ⟨s, h, hc, hph, by simp, fun k => ?_, rfl⟩
    exact (if_neg fun hk => absurd (Nat.lt_of_le_of_lt hk.1 hk.2) (Nat.lt_irrefl r)).symm
  | succ n ih =>
    have hfree : r ∉ (s.history T).map (·.key) := fun hm => absurd (hkeys r hm) (Nat.lt_irrefl r)
    obtain ⟨t, p, h', hc'⟩ := h.access hc hph rfl hfree rfl
    obtain ⟨s', hs', hcs', ha⟩ := ih h' hc' granted_phase (by
      intro k hk
      rw [granted_history, List.map_append, List.mem_append] at hk
      rcases hk with hk | hk
      · exact Nat.lt_succ_of_lt (hkeys k hk)
      · obtain rfl : k = r := by simpa using hk
        exact Nat.lt_succ_self k)
    refine ⟨s', hs', hcs', ha.phase, ?_, fun k => ?_, ha.committed⟩
    · rw [ha.keys, granted_history, List.range'_succ]
      simp
    · rw [ha.records, granted_records, apply]
      by_cases hk : k = r
      · subst hk
        rw [if_neg (by omega), if_pos (by omega), Function.update_self]
      · rw [Function.update_of_ne hk]
        by_cases hr : r + 1 ≤ k ∧ k < r + 1 + n
        · rw [if_pos hr, if_pos (by omega)]
        · rw [if_neg hr, if_neg (by omega)]

/-- A transaction that asks again for a record it has locked is refused. -/
theorem Alone.refused (h : Alone client maxExecution T s) (hph : s.phase T = .ready prog)
    (hreq : prog.request = some (r, m)) (hr : r ∈ (s.history T).map (·.key)) :
    Alone client maxExecution T (s.goto T .corrupt) := by
  have hinv := reachable_inv h.reachable
  obtain ⟨q, hq⟩ := hinv.orderly
  obtain ⟨a, ha, rfl⟩ := List.mem_map.mp hr
  obtain ⟨x, n, hn, hT, hx, -⟩ := hinv.backed T a ha
  obtain ⟨p, hp⟩ := hq.finite.exists_notMem
  have fresh : s.db.lockTable.heap p = none := by
    cases hn : s.db.lockTable.heap p with
    | none => rfl
    | some n => exact absurd ⟨n, hn⟩ hp
  obtain ⟨fuel, t, res, ha⟩ := hq.shape.addLock_returns hq.acyclic hq.finite fresh T a.key m
  rcases hq.shape.addLock_some fresh ha with ⟨-, rfl, rfl⟩ | ⟨hnot, -⟩
  · refine ⟨.step (.lock T) h.reachable ⟨.refused fuel p hph hreq ha, trivial⟩, fun U hU => ?_, h.owned⟩
    obtain ⟨last, hl⟩ := h.others U hU
    exact ⟨last, (goto_other _ _ U hU).trans hl⟩
  · exact absurd hx (hq.shape.free_of_not_reaches hnot x n hn hT)

/-- A log whose length is negative as an `int` is thrown away without being undone. -/
theorem Alone.abort_skipped (h : Alone client maxExecution T s) (hph : s.phase T = .corrupt)
    (hneg : s.db.numOperation T < 0) :
    ∃ s', Reachable (dbSystem maxExecution client) s' ∧ (∀ U, ∃ last, s'.phase U = .idle last) ∧
      s'.committed = s.committed ∧ s'.db.records = s.db.records := by
  obtain ⟨q, hq⟩ := (reachable_inv h.reachable).orderly
  obtain ⟨fuel, t, hu⟩ := hq.shape.unlock_returns T
  have hloop : (s.callAbort T false).abortLoop T 0 (s.db.numOperation T) false = some _ :=
    if_neg (by omega)
  refine ⟨_, .step (.unlock T) (.step (.abortLoop T) (.step (.abort T) h.reachable.of_restrict
    (.abort (.inl hph))) (.abortLoop (goto_phase _ _ _) hloop)) (.unlock fuel (goto_phase _ _ _) hu),
    fun U => ?_, rfl, rfl⟩
  by_cases hU : U = T
  · subst hU
    exact ⟨_, goto_phase _ _ _⟩
  · obtain ⟨last, hl⟩ := h.others U hU
    exact ⟨last, by simp [State.goto, State.setLockTable, State.setHistory, State.callAbort, hU, hl]⟩

/-- A transaction adds to `2^31` records, asks for the first one again, and is aborted: what it
has written stays. -/
theorem rollback_lost (maxExecution : BitVec 64) :
    ∃ s, Reachable (dbSystem maxExecution anyClient) s ∧ (∀ U, ∃ last, s.phase U = .idle last) ∧
      s.committed = [] ∧ s.db.records 1 = 101 := by
  obtain ⟨h₀, hc₀⟩ := alone_new anyClient maxExecution 1
  have h₁ : Alone anyClient maxExecution 1 ((State.new maxExecution).begin 1
      (addEach 1 (2 ^ 31) (.add 1 1 .commit))) := h₀.begin rfl trivial
  obtain ⟨s, h, -, ha⟩ := h₁.addEach hc₀ (goto_phase _ _ _) (fun k hk => absurd hk List.not_mem_nil)
  have hkeys : (s.history 1).map (·.key) = List.range' 1 (2 ^ 31) := ha.keys
  have hmem : 1 ∈ (s.history 1).map (·.key) := by
    rw [hkeys, List.mem_range'_1]
    omega
  have hlen : (s.db.logger.logPerTxn 1).recordIds.length = 2 ^ 31 := by
    rw [((reachable_inv h.reachable).logged 1).recordIds, hkeys, List.length_range']
  have hneg : s.db.numOperation 1 < 0 := by
    unfold Database.numOperation
    rw [hlen]
    decide
  obtain ⟨s', hs', hidle, hcommitted, hrecords⟩ :=
    (h.refused ha.phase rfl hmem).abort_skipped (goto_phase _ _ _) hneg
  refine ⟨s', hs', hidle, hcommitted.trans ha.committed, ?_⟩
  have hone : s.db.records 1 = (100 : Value) + 1 := by
    rw [ha.records 1, if_pos (by omega)]
    rfl
  rw [hrecords]
  exact hone

/-! ### Many transactions -/

/-- What a commit that is not beyond the limit changes. -/
structure Finished (T : TransactionId) (s s' : State) : Prop where
  idle : s'.phase T = .idle .committed
  history : s'.history T = []
  records : s'.db.records = s.db.records
  counter : s'.db.logger.executionOrder = s.db.logger.executionOrder + 1
  limit : s'.db.maxExecution = s.db.maxExecution
  committed : s'.committed =
    s.committed ++ [⟨s.db.logger.executionOrder + 1, T, s.body T, s.history T⟩]

theorem finished_of_le {t : LockTable} (hle : ¬ s.db.logger.getCommitId.1 > s.db.maxExecution) :
    Finished T s (s.finished T t) := by
  rw [State.finished, callCommit_of_le hle]
  exact ⟨goto_phase _ _ _, Function.update_self _ _ _, rfl, rfl, rfl, rfl⟩

/-- After `n` transactions of thread 1 that have each added 1 to record 1. -/
structure Counted (n : Nat) (s : State) : Prop where
  idle : ∃ last, s.phase 1 = .idle last
  history : s.history 1 = []
  records : s.db.records 1 = 100 + BitVec.ofNat 64 n
  counter : s.db.logger.executionOrder = BitVec.ofNat 64 n
  limit : s.db.maxExecution = BitVec.allOnes 64
  ids : ∀ c ∈ s.committed, c.commitId ≠ 0

/-- A transaction alone that makes one access to record 1 and commits. -/
theorem Alone.runs {n : Nat} (h : Alone anyClient (BitVec.allOnes 64) 1 s) (hc : s.Covered 1) (hn : Counted n s)
    (hreq : prog.request = some (1, m))
    (hval : prog.onValue (s.db.records 1) = some (a, .commit)) :
    ∃ s' s'', Alone anyClient (BitVec.allOnes 64) 1 s'' ∧ s''.Covered 1 ∧ Finished 1 s' s'' ∧
      s'.db.records = apply s.db.records a ∧ s'.db.logger.executionOrder = BitVec.ofNat 64 n ∧
      s'.db.maxExecution = BitVec.allOnes 64 ∧ s'.committed = s.committed ∧ s'.body 1 = prog ∧
      s'.history 1 = [a] := by
  obtain ⟨last, hidle⟩ := hn.idle
  obtain ⟨t, p, h', hc'⟩ := (h.begin hidle trivial).access hc (goto_phase _ _ _) hreq
    (by simp [State.begin, State.goto, hn.history]) hval
  have hle : ¬ ((s.begin 1 prog).granted 1 t p prog .commit a).db.logger.getCommitId.1 >
      ((s.begin 1 prog).granted 1 t p prog .commit a).db.maxExecution := by
    have hlimit : ((s.begin 1 prog).granted 1 t p prog .commit a).db.maxExecution =
      BitVec.allOnes 64 := hn.limit
    rw [hlimit]
    exact BitVec.not_allOnes_lt
  obtain ⟨t', h'', hc''⟩ := h'.commit granted_phase hle
  have hbody : (s.begin 1 prog).body 1 = prog := by simp [State.begin, State.goto]
  have hhistory : (s.begin 1 prog).history 1 = [] := hn.history
  refine ⟨_, _, h'', hc'', finished_of_le hle, rfl, hn.counter, hn.limit, rfl, hbody, ?_⟩
  rw [granted_history, hhistory]
  rfl

theorem counted (n : Nat) (hn : n < 2 ^ 64) :
    ∃ s, Alone anyClient (BitVec.allOnes 64) 1 s ∧ s.Covered 1 ∧ Counted n s := by
  induction n with
  | zero =>
    obtain ⟨h, hc⟩ := alone_new anyClient (BitVec.allOnes 64) 1
    exact ⟨_, h, hc, ⟨_, rfl⟩, rfl, rfl, rfl, rfl, fun c hc => absurd hc List.not_mem_nil⟩
  | succ n ih =>
    obtain ⟨s, h, hc, hs⟩ := ih (by omega)
    obtain ⟨s', s'', h'', hc'', hf, hrecords, hcounter, hlimit, hcommitted, -, -⟩ :=
      h.runs hc hs (rfl : Program.request (.add 1 1 .commit) = _) rfl
    refine ⟨s'', h'', hc'', ⟨_, hf.idle⟩, hf.history, ?_, ?_, hf.limit.trans hlimit, ?_⟩
    · rw [hf.records, hrecords, apply, Function.update_self, hs.records, BitVec.ofNat_add,
        BitVec.add_assoc]
      rfl
    · rw [hf.counter, hcounter, BitVec.ofNat_add]
      rfl
    · intro c hc
      rw [hf.committed, hcommitted] at hc
      rcases List.mem_append.mp hc with hc | hc
      · exact hs.ids c hc
      · obtain rfl := List.mem_singleton.mp hc
        intro hzero
        have hnat := congrArg BitVec.toNat hzero
        rw [hcounter] at hnat
        simp at hnat
        omega

/-- The counter wraps around: commit id 0 goes to a transaction that has read what all the
others had written. -/
theorem counter_wraps :
    ∃ s, Reachable (shortRuns (BitVec.allOnes 64) anyClient) s ∧ ∃ cs, (∀ c ∈ cs, c.commitId ≠ 0) ∧
      s.committed = cs ++ [⟨0, 1, .read 1 fun _ => .commit, [⟨1, false, 99, 99⟩]⟩] := by
  obtain ⟨s, h, hc, hs⟩ := counted (2 ^ 64 - 1) (by decide)
  have hvalue : s.db.records 1 = 99 := hs.records.trans (by decide)
  obtain ⟨s', s'', h'', -, hf, -, hcounter, -, hcommitted, hbody, hhistory⟩ :=
    h.runs hc hs (rfl : Program.request (.read 1 fun _ => .commit) = _) rfl
  refine ⟨s'', h''.reachable, s.committed, hs.ids, ?_⟩
  have hzero : s'.db.logger.executionOrder + 1 = 0 := by
    rw [hcounter]
    decide
  rw [hf.committed, hcommitted, hbody, hhistory, hzero, hvalue]

end Transactions
