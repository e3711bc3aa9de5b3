import HyuIte4065.Transactions.Serial
import Mathlib.Algebra.BigOperators.Group.Finset.Piecewise
import Mathlib.Order.Interval.Finset.Nat
import Mathlib.Tactic.Ring

/-!
# The workload of project 3

`transaction` in `main.cpp` and the loop of `threadFunc` around it. Every commit id up to
the limit is drawn by exactly one transaction, which commits; who draws a larger one rolls
back and stops. Each committed transaction raises the sum of the records by one.
-/
namespace Transactions

open Lock Replay Transition UndoLog

/-- The arguments as `main` passes them on: `int64_t` values that have passed its tests. -/
structure Args where
  numThread : Nat
  numRecord : Nat
  maxExecution : Nat
  someThread : 0 < numThread
  threeRecords : 3 ≤ numRecord
  someExecution : 0 < maxExecution
  threads_lt : numThread < 2 ^ 63
  executions_lt : maxExecution < 2 ^ 63

/-- One turn of the loop in `transaction`. -/
def transactionBody (i j k : RecordId) : Program :=
  .read i fun record => .add j (record + 1) (.add k (-record) .commit)

/-- Three different records, as `transaction` draws them. -/
structure Picks (args : Args) (i j k : RecordId) : Prop where
  read : i ∈ Finset.Icc 1 args.numRecord
  raise : j ∈ Finset.Icc 1 args.numRecord
  lower : k ∈ Finset.Icc 1 args.numRecord
  distinct : j ≠ i ∧ k ≠ j ∧ k ≠ i

def IsBody (args : Args) (prog : Program) : Prop :=
  ∃ i j k, Picks args i j k ∧ prog = transactionBody i j k

/-- What the threads start: a new transaction after a commit, the same one again after an
abort, and nothing more after `TERMINATED`. -/
def threadClient (args : Args) : Client := fun T last previous next =>
  (0 < T ∧ T ≤ args.numThread) ∧
  match last with
  | .fresh => IsBody args next
  | .committed => IsBody args next
  | .aborted => next = previous
  | .terminated => False

abbrev workload (args : Args) : System State Action :=
  dbSystem (BitVec.ofNat 64 args.maxExecution) (threadClient args)

variable {args : Args} {s s' : State} {T U : TransactionId} {ph : Phase} {prog : Program}
  {as : History} {action : Action} {c : Commit} {cs : List Commit} {t : Table} {i j k : RecordId}

/-! ### One transaction -/

theorem follows_body (h : (transactionBody i j k).Follows as prog) :
    as.length ≤ 3 ∧ (prog = .commit → ∃ v w u : Value,
      as = [⟨i, false, v, v⟩, ⟨j, true, w, w + (v + 1)⟩, ⟨k, true, u, u + -v⟩]) := by
  unfold transactionBody at h
  cases h with
  | nil => exact ⟨by simp, nofun⟩
  | @read _ _ v as _ h =>
    cases h with
    | nil => exact ⟨by simp, nofun⟩
    | @add _ _ w _ as _ h =>
      cases h with
      | nil => exact ⟨by simp, nofun⟩
      | @add _ _ u _ as _ h =>
        cases h with
        | nil => exact ⟨by simp, fun _ => ⟨v, w, u, rfl⟩⟩

theorem sum_update_add {S : Finset RecordId} (hj : j ∈ S) (t : Table) (d : Value) :
    ∑ r ∈ S, Function.update t j (t j + d) r = ∑ r ∈ S, t r + d := by
  rw [Finset.sum_update_of_mem hj, Finset.sum_eq_add_sum_sdiff_singleton_of_mem hj t]
  ring

/-- A committed transaction raises the sum by one. -/
theorem sum_body (hp : Picks args i j k) (h : (transactionBody i j k).Follows as .commit)
    (hf : Fits t as) :
    ∑ r ∈ Finset.Icc 1 args.numRecord, result t as r = ∑ r ∈ Finset.Icc 1 args.numRecord, t r + 1 := by
  obtain ⟨v, w, u, rfl⟩ := (follows_body h).2 rfl
  obtain ⟨hji, hkj, hki⟩ := hp.distinct
  obtain ⟨hv, hw, hu, -⟩ := hf
  obtain rfl : t i = v := hv
  have hsame : apply t ⟨i, false, t i, t i⟩ = t := Function.update_eq_self _ _
  rw [hsame] at hw hu
  obtain rfl : t j = w := hw
  have hu : Function.update t j (t j + (t i + 1)) k = u := hu
  rw [Function.update_of_ne hkj] at hu
  subst hu
  have hk : Function.update t j (t j + (t i + 1)) k = t k := Function.update_of_ne hkj _ _
  simp only [result_cons, result_nil, apply, Function.update_eq_self]
  rw [← hk, sum_update_add hp.lower, sum_update_add hp.raise]
  ring

theorem sum_commits (hc : ∀ c ∈ cs, IsBody args c.body ∧ c.body.Follows c.accesses .commit)
    (hf : Fits t (cs.flatMap (·.accesses))) :
    ∑ r ∈ Finset.Icc 1 args.numRecord, result t (cs.flatMap (·.accesses)) r =
      ∑ r ∈ Finset.Icc 1 args.numRecord, t r + (cs.length : Value) := by
  induction cs generalizing t with
  | nil => simp
  | cons c cs ih =>
    obtain ⟨h₁, h₂⟩ := fits_append.mp (List.flatMap_cons ▸ hf)
    obtain ⟨⟨i, j, k, hp, hbody⟩, hfollows⟩ := hc c (by simp)
    rw [List.flatMap_cons, result_append, ih (fun d hd => hc d (by simp [hd])) h₂,
      sum_body hp (hbody ▸ hfollows) h₁, List.length_cons]
    push_cast
    ring

/-! ### Accounting -/

/-- The transaction has drawn a commit id beyond the limit. -/
def Phase.terminating : Phase → Bool
  | .undoing _ _ terminated => terminated
  | .unlocking outcome => decide (outcome = .terminated)
  | .idle outcome => decide (outcome = .terminated)
  | _ => false

def State.terminating (s : State) (args : Args) : Finset TransactionId :=
  (Finset.Icc 1 args.numThread).filter fun T => (s.phase T).terminating = true

/-- Where every commit id is. -/
structure Accounts (args : Args) (s : State) : Prop where
  limit : s.db.maxExecution = BitVec.ofNat 64 args.maxExecution
  threads : ∀ T, s.phase T ≠ .idle .fresh → T ∈ Finset.Icc 1 args.numThread ∧ IsBody args (s.body T)
  issued : s.issued ≤ args.maxExecution + (s.terminating args).card
  beyond : ∀ T, (s.phase T).terminating = true → args.maxExecution < s.issued
  drawn : ∀ T x, s.phase T = .flushing x → x.toNat ≤ args.maxExecution
  flushed : ∀ c ∈ s.committed, c.commitId.toNat ≤ args.maxExecution ∧
    c.txnId ∈ Finset.Icc 1 args.numThread ∧ IsBody args c.body
  present : ∀ x, 0 < x → x ≤ s.issued → x ≤ args.maxExecution →
    (∃ c ∈ s.committed, c.commitId.toNat = x) ∨ ∃ T y, s.phase T = .flushing y ∧ y.toNat = x

theorem accounts_new (args : Args) : Accounts args (.new (BitVec.ofNat 64 args.maxExecution)) := by
  refine ⟨rfl, ?_, Nat.zero_le _, ?_, ?_, ?_, ?_⟩
  · intro T h
    exact absurd rfl h
  · intro T h
    cases h
  · intro T x h
    cases h
  · intro c hc
    cases hc
  · intro x h₁ h₂
    exact absurd h₁ (Nat.not_lt.mpr h₂)

/-- Fewer than `2^64` commit ids are drawn. -/
theorem Accounts.issued_lt (h : Accounts args s) : s.issued + 1 < 2 ^ 64 := by
  have hcard : (s.terminating args).card ≤ args.numThread := by
    refine (Finset.card_filter_le _ _).trans ?_
    rw [Nat.card_Icc, Nat.add_sub_cancel]
  have h₁ := h.issued
  have h₂ := args.threads_lt
  have h₃ := args.executions_lt
  omega

/-- No log is longer than the three accesses of a transaction. -/
theorem Accounts.short (h : Accounts args s) (hinv : Inv s)
    (hs : Step (threadClient args) s action s') : ShortAborts s action := by
  have few : ∀ T prog, s.phase T ≠ .idle .fresh → (s.body T).Follows (s.history T) prog →
      (s.db.logger.logPerTxn T).recordIds.length < 2 ^ 31 := by
    intro T prog hne hf
    obtain ⟨-, i, j, k, -, hbody⟩ := h.threads T hne
    have h₃ := (follows_body (hbody ▸ hf)).1
    rw [(hinv.logged T).length]
    omega
  cases hs with
  | @abort T fails =>
    have hp := hinv.phases T
    rcases fails with hph | hph
    · rw [hph] at hp
      obtain ⟨prog, hf⟩ := hp.2
      exact few T prog (by simp [hph]) hf
    · rw [hph] at hp
      exact few T _ (by simp [hph]) hp.2
  | @commit T ready =>
    have hp := hinv.phases T
    rw [ready] at hp
    exact fun _ => few T _ (by simp [ready]) hp.2
  | _ => trivial

theorem terminating_congr (hT : (s'.phase T).terminating = (s.phase T).terminating)
    (hother : ∀ U ≠ T, s'.phase U = s.phase U) (U : TransactionId) :
    (s'.phase U).terminating = (s.phase U).terminating := by
  by_cases hU : U = T
  · rw [hU, hT]
  · rw [hother U hU]

/-- One more thread stops. -/
theorem card_terminating (hT : T ∈ Finset.Icc 1 args.numThread)
    (hbefore : (s.phase T).terminating = false) (hafter : (s'.phase T).terminating = true)
    (hother : ∀ U ≠ T, s'.phase U = s.phase U) :
    (s.terminating args).card + 1 ≤ (s'.terminating args).card := by
  have hnot : T ∉ s.terminating args := by simp [State.terminating, hbefore]
  have hsub : insert T (s.terminating args) ⊆ s'.terminating args := by
    intro U hU
    rcases Finset.mem_insert.mp hU with rfl | hU
    · exact Finset.mem_filter.mpr ⟨hT, hafter⟩
    · obtain ⟨hU, ht⟩ := Finset.mem_filter.mp hU
      have hUT : U ≠ T := by
        rintro rfl
        rw [hbefore] at ht
        cases ht
      exact Finset.mem_filter.mpr ⟨hU, by rw [hother U hUT, ht]⟩
  have hcard := Finset.card_le_card hsub
  rwa [Finset.card_insert_of_notMem hnot] at hcard

/-- A step of `T` that draws no commit id and flushes nothing. -/
theorem Accounts.quiet (h : Accounts args s) (limit : s'.db.maxExecution = s.db.maxExecution)
    (committed : s'.committed = s.committed) (issued : s'.issued = s.issued)
    (hp : ∀ U ≠ T, s'.phase U = s.phase U) (hb : ∀ U ≠ T, s'.body U = s.body U)
    (hT : T ∈ Finset.Icc 1 args.numThread ∧ IsBody args (s'.body T))
    (old : ∀ x, s.phase T ≠ .flushing x) (hph : s'.phase T = ph) (new : ∀ x, ph ≠ .flushing x)
    (ht : ph.terminating = (s.phase T).terminating) : Accounts args s' := by
  have hterm := terminating_congr (by rw [hph, ht]) hp
  have hflush : ∀ U x, s'.phase U = .flushing x ↔ s.phase U = .flushing x := by
    intro U x
    by_cases hU : U = T
    · subst hU
      rw [hph]
      exact ⟨fun hx => absurd hx (new x), fun hx => absurd hx (old x)⟩
    · rw [hp U hU]
  refine ⟨limit.trans h.limit, ?_, ?_, ?_, ?_, committed ▸ h.flushed, ?_⟩
  · intro U hU
    by_cases hUT : U = T
    · exact hUT ▸ hT
    · rw [hb U hUT]
      exact h.threads U (hp U hUT ▸ hU)
  · rw [issued, State.terminating]
    simp only [hterm]
    exact h.issued
  · intro U hU
    rw [issued]
    exact h.beyond U (hterm U ▸ hU)
  · intro U x hx
    exact h.drawn U x ((hflush U x).mp hx)
  · intro x h₁ h₂ h₃
    rw [committed]
    refine (h.present x h₁ (issued ▸ h₂) h₃).imp_right ?_
    rintro ⟨U, y, hy, he⟩
    exact ⟨U, y, (hflush U y).mpr hy, he⟩

theorem Accounts.flush (h : Accounts args s) {x : BitVec 64} (hph : s.phase T = .flushing x) :
    Accounts args (s.flush T x) := by
  have hthread := h.threads T (by simp [hph])
  have hphase : (s.flush T x).phase T = .unlocking .committed := goto_phase _ _ _
  have hl := local_flush s T x
  have hterm := terminating_congr (by rw [hphase, hph]; rfl) hl.phase
  have hnew : (s.flush T x).committed = s.committed ++ [⟨x, T, s.body T, s.history T⟩] := rfl
  refine ⟨h.limit, ?_, ?_, ?_, ?_, ?_, ?_⟩
  · intro U hU
    by_cases hUT : U = T
    · exact hUT ▸ hthread
    · exact h.threads U (hl.phase U hUT ▸ hU)
  · rw [State.terminating]
    simp only [hterm]
    exact h.issued
  · intro U hU
    exact h.beyond U (hterm U ▸ hU)
  · intro U y hy
    by_cases hU : U = T
    · rw [hU, hphase] at hy
      cases hy
    · exact h.drawn U y (hl.phase U hU ▸ hy)
  · intro c hc
    rcases List.mem_append.mp (hnew ▸ hc) with hc | hc
    · exact h.flushed c hc
    · obtain rfl := List.mem_singleton.mp hc
      exact ⟨h.drawn T x hph, hthread⟩
  · intro y h₁ h₂ h₃
    rw [hnew]
    rcases h.present y h₁ h₂ h₃ with ⟨c, hc, he⟩ | ⟨U, z, hz, he⟩
    · exact .inl ⟨c, by simp [hc], he⟩
    · by_cases hU : U = T
      · subst hU
        obtain rfl := Phase.flushing.inj (hph.symm.trans hz)
        exact .inl ⟨_, List.mem_append_right _ List.mem_cons_self, he⟩
      · exact .inr ⟨U, z, (hl.phase U hU).trans hz, he⟩

/-- The ids that were drawn before `commit` is called. -/
theorem Accounts.present_old (h : Accounts args s) (hph : s.phase T = .ready .commit) {x : Nat}
    (h₁ : 0 < x) (h₂ : x ≤ s.issued) (h₃ : x ≤ args.maxExecution) :
    (∃ c ∈ (s.callCommit T).committed, c.commitId.toNat = x) ∨
      ∃ U y, (s.callCommit T).phase U = .flushing y ∧ y.toNat = x := by
  have hcall := commitCalled s T
  rw [hcall.committed]
  refine (h.present x h₁ h₂ h₃).imp_right ?_
  rintro ⟨U, y, hy, he⟩
  have hU : U ≠ T := by
    rintro rfl
    rw [hph] at hy
    cases hy
  exact ⟨U, y, (hcall.here.phase U hU).trans hy, he⟩

/-- A commit id is drawn: up to the limit it is flushed next, beyond it the thread stops. -/
theorem Accounts.callCommit (h : Accounts args s) (ho : Ordered s) (hph : s.phase T = .ready .commit) :
    Accounts args (s.callCommit T) := by
  have hthread := h.threads T (by simp [hph])
  have hcall := commitCalled s T
  have hnum : (s.db.logger.executionOrder + 1).toNat = s.issued + 1 := ho.next_toNat h.issued_lt
  have hmax : s.db.maxExecution.toNat = args.maxExecution := by
    have := args.executions_lt
    rw [h.limit, BitVec.toNat_ofNat, Nat.mod_eq_of_lt (by omega)]
  have hbefore : (s.phase T).terminating = false := by rw [hph]; rfl
  have hthreads : ∀ U, (s.callCommit T).phase U ≠ .idle .fresh →
      U ∈ Finset.Icc 1 args.numThread ∧ IsBody args ((s.callCommit T).body U) := by
    intro U hU
    rw [hcall.body]
    by_cases hUT : U = T
    · exact hUT ▸ hthread
    · exact h.threads U (hcall.here.phase U hUT ▸ hU)
  have hphase := hcall.phase
  split at hphase
  case isTrue hgt =>
    have hbeyond : args.maxExecution < s.issued + 1 := by
      rw [← hmax, ← hnum]
      exact hgt
    refine ⟨hcall.limit.trans h.limit, hthreads, ?_, ?_, ?_, hcall.committed ▸ h.flushed, ?_⟩
    · have hcard := card_terminating hthread.1 hbefore (by rw [hphase]; rfl) hcall.here.phase
      have hle := h.issued
      rw [hcall.issued]
      omega
    · intro U _
      rw [hcall.issued]
      exact hbeyond
    · intro U x hx
      by_cases hU : U = T
      · rw [hU, hphase] at hx
        cases hx
      · exact h.drawn U x (hcall.here.phase U hU ▸ hx)
    · intro x h₁ h₂ h₃
      exact h.present_old hph h₁ (by omega) h₃
  case isFalse hle =>
    have hwithin : s.issued + 1 ≤ args.maxExecution := by
      rw [← hmax, ← hnum]
      exact Nat.not_lt.mp hle
    have hterm := terminating_congr (by rw [hphase, hbefore]; rfl) hcall.here.phase
    refine ⟨hcall.limit.trans h.limit, hthreads, ?_, ?_, ?_, hcall.committed ▸ h.flushed, ?_⟩
    · rw [hcall.issued]
      exact hwithin.trans (Nat.le_add_right _ _)
    · intro U hU
      have hlt := h.beyond U (hterm U ▸ hU)
      rw [hcall.issued]
      omega
    · intro U x hx
      by_cases hU : U = T
      · rw [hU, hphase] at hx
        rw [← Phase.flushing.inj hx, hnum]
        exact hwithin
      · exact h.drawn U x (hcall.here.phase U hU ▸ hx)
    · intro x h₁ h₂ h₃
      rw [hcall.issued] at h₂
      rcases Nat.lt_or_ge s.issued x with hx | hx
      · exact .inr ⟨T, _, hphase, by rw [hnum]; omega⟩
      · exact h.present_old hph h₁ hx h₃

theorem Accounts.step (h : Accounts args s) (hinv : Inv s) (ho : Ordered s)
    (hs : Step (threadClient args) s action s') : Accounts args s' := by
  cases hs with
  | @begin T last prog idle starts =>
    have hbody : (s.begin T prog).body T = prog := Function.update_self _ _ _
    have hnew : IsBody args prog := by
      cases last with
      | fresh => exact starts.2
      | committed => exact starts.2
      | aborted => exact starts.2 ▸ (h.threads T (by simp [idle])).2
      | terminated => exact starts.2.elim
    refine h.quiet rfl rfl rfl (goto_other _ _) (fun _ hU => Function.update_of_ne hU _ _)
      ⟨Finset.mem_Icc.mpr starts.1, by rw [hbody]; exact hnew⟩ (by simp [idle]) (goto_phase _ _ _) nofun ?_
    rw [idle]
    cases last with
    | terminated => exact starts.2.elim
    | _ => rfl
  | refused fuel newLock ready request ha =>
    exact h.quiet rfl rfl rfl (goto_other _ _) (fun _ _ => rfl) (h.threads _ (by simp [ready]))
      (by simp [ready]) (goto_phase _ _ _) nofun (by rw [ready]; rfl)
  | accepted fuel newLock ready request fresh ha =>
    exact h.quiet rfl rfl rfl (goto_other _ _) (fun _ _ => rfl) (h.threads _ (by simp [ready]))
      (by simp [ready]) (goto_phase _ _ _) nofun (by rw [ready]; rfl)
  | access locking node granted ha =>
    obtain ⟨a, rest, -, rfl⟩ := hinv.access_granted locking node granted ha
    exact h.quiet rfl rfl rfl (goto_other _ _) (fun _ _ => rfl) (h.threads _ (by simp [locking]))
      (by simp [locking]) (goto_phase _ _ _) nofun (by rw [locking]; rfl)
  | abort fails =>
    rcases fails with hph | hph <;>
      exact h.quiet rfl rfl rfl (goto_other _ _) (fun _ _ => rfl) (h.threads _ (by simp [hph]))
        (by simp [hph]) (goto_phase _ _ _) nofun (by rw [hph]; rfl)
  | @abortLoop _ T i k b undoing ha =>
    have hthread := h.threads T (by simp [undoing])
    rcases abortLoop_cases (hinv.logged T) ha with ⟨-, a, -, rfl⟩ | ⟨-, rfl⟩
    · exact h.quiet rfl rfl rfl (goto_other _ _) (fun _ _ => rfl) hthread (by simp [undoing])
        (goto_phase _ _ _) nofun (by rw [undoing]; rfl)
    · refine h.quiet rfl rfl rfl (goto_other _ _) (fun _ _ => rfl) hthread (by simp [undoing])
        (goto_phase _ _ _) nofun ?_
      rw [undoing]
      cases b <;> rfl
  | commit ready => exact h.callCommit ho ready
  | flush flushing => exact h.flush flushing
  | unlock fuel unlocking hu =>
    exact h.quiet rfl rfl rfl (goto_other _ _) (fun _ _ => rfl) (h.threads _ (by simp [unlocking]))
      (by simp [unlocking]) (goto_phase _ _ _) nofun (by rw [unlocking]; rfl)

theorem reachable_accounts (h : Reachable (workload args) s) :
    Reachable (shortRuns (BitVec.ofNat 64 args.maxExecution) (threadClient args)) s ∧
      Accounts args s := by
  induction h with
  | init hs =>
    obtain rfl := hs
    exact ⟨.init rfl, accounts_new args⟩
  | step l _ hs ih =>
    obtain ⟨hr, ha⟩ := ih
    have hinv := reachable_inv hr
    have ho := reachable_ordered hr (Nat.lt_of_succ_lt ha.issued_lt)
    exact ⟨.step l hr ⟨hs, ha.short hinv hs⟩, ha.step hinv ho hs⟩

/-! ### The logs -/

/-- The commit ids in all the logs, file by file. -/
def State.commitIds (s : State) (args : Args) : List (BitVec 64) :=
  (List.range' 1 args.numThread).flatMap fun T => (s.db.logger.logPerTxn T).fout.map (·.commitId)

theorem commitIds_of_thread (hinv : Inv s) (T : TransactionId) :
    (s.db.logger.logPerTxn T).fout.map (·.commitId) =
      (s.committed.filter fun c => decide (c.txnId = T)).map (·.commitId) := by
  rw [hinv.fout, List.map_map]
  rfl

theorem Accounts.mem_commitIds (h : Accounts args s) (hinv : Inv s) {x : BitVec 64} :
    x ∈ s.commitIds args ↔ ∃ c ∈ s.committed, c.commitId = x := by
  simp only [State.commitIds, List.mem_flatMap, commitIds_of_thread hinv, List.mem_map,
    List.mem_filter, decide_eq_true_eq]
  constructor
  · rintro ⟨T, -, c, ⟨hc, -⟩, rfl⟩
    exact ⟨c, hc, rfl⟩
  · rintro ⟨c, hc, rfl⟩
    have hT := Finset.mem_Icc.mp (h.flushed c hc).2.1
    exact ⟨c.txnId, List.mem_range'_1.mpr ⟨hT.1, Nat.lt_one_add_iff.mpr hT.2⟩, c, ⟨hc, rfl⟩, rfl⟩

theorem Ordered.nodup_commitIds (ho : Ordered s) (hinv : Inv s) (args : Args) :
    (s.commitIds args).Nodup := by
  have hinj := List.inj_on_of_nodup_map ho.distinct
  refine List.nodup_flatMap.mpr ⟨fun T _ => ?_, ?_⟩
  · rw [commitIds_of_thread hinv]
    exact ho.distinct.sublist (List.filter_sublist.map _)
  · refine List.Pairwise.imp ?_ (List.nodup_range' : (List.range' 1 args.numThread).Nodup)
    intro T U hTU
    simp only [commitIds_of_thread hinv, List.disjoint_left, List.mem_map,
      List.mem_filter, decide_eq_true_eq]
    rintro x ⟨c, ⟨hc, rfl⟩, rfl⟩ ⟨d, ⟨hd, rfl⟩, he⟩
    exact hTU (congrArg Commit.txnId (hinj hc hd he.symm))

/-- Every thread has seen `TERMINATED`. -/
def State.Over (s : State) (args : Args) : Prop :=
  ∀ T ∈ Finset.Icc 1 args.numThread, s.phase T = .idle .terminated

structure Accounted (args : Args) (s : State) : Prop where
  distinct : (s.commitIds args).Nodup
  bounded : ∀ x ∈ s.commitIds args, x.toNat ≤ args.maxExecution
  complete : s.Over args →
    ((s.commitIds args).map (·.toNat)).Perm (List.range' 1 args.maxExecution)
  total : s.Over args → ∑ r ∈ Finset.Icc 1 args.numRecord, s.db.records r =
    BitVec.ofNat 64 (100 * args.numRecord + args.maxExecution)

/-- In the end every commit id up to the limit has been flushed. -/
theorem Accounts.flushed_iff (h : Accounts args s) (ho : Ordered s) (hover : s.Over args) {x : Nat} :
    (∃ c ∈ s.committed, c.commitId.toNat = x) ↔ 1 ≤ x ∧ x ≤ args.maxExecution := by
  constructor
  · rintro ⟨c, hc, rfl⟩
    exact ⟨(ho.flushed c hc).1, (h.flushed c hc).1⟩
  · rintro ⟨h₁, h₂⟩
    have hone : 1 ∈ Finset.Icc 1 args.numThread := Finset.mem_Icc.mpr ⟨le_rfl, args.someThread⟩
    have hbeyond := h.beyond 1 (by rw [hover 1 hone]; rfl)
    refine (h.present x h₁ (by omega) h₂).resolve_right ?_
    rintro ⟨T, y, hy, -⟩
    have hT := (h.threads T (by simp [hy])).1
    rw [hover T hT] at hy
    cases hy

theorem Accounts.idle (h : Accounts args s) (hover : s.Over args) (T : TransactionId) :
    ¬ s.Unfinished T := by
  intro hu
  by_cases hT : s.phase T = .idle .fresh
  · exact hu _ hT
  · exact hu _ (hover T (h.threads T hT).1)

theorem perm_range' {l : List Nat} {n : Nat} (hnd : l.Nodup) (h : ∀ x, x ∈ l ↔ 1 ≤ x ∧ x ≤ n) :
    l.Perm (List.range' 1 n) := by
  refine (List.perm_ext_iff_of_nodup hnd List.nodup_range').mpr fun x => ?_
  rw [h, List.mem_range'_1]
  omega

theorem Accounts.accounted (h : Accounts args s) (ho : Ordered s) (hinv : Inv s) :
    Accounted args s := by
  have hinj : Function.Injective (BitVec.toNat : BitVec 64 → Nat) := BitVec.toNat_injective
  refine ⟨ho.nodup_commitIds hinv args, fun x hx => ?_, fun hover => ?_, fun hover => ?_⟩
  · obtain ⟨c, hc, rfl⟩ := (h.mem_commitIds hinv).mp hx
    exact (h.flushed c hc).1
  · refine perm_range' ((ho.nodup_commitIds hinv args).map hinj) fun x => ?_
    rw [← h.flushed_iff ho hover, List.mem_map]
    constructor
    · rintro ⟨y, hy, rfl⟩
      obtain ⟨c, hc, rfl⟩ := (h.mem_commitIds hinv).mp hy
      exact ⟨c, hc, rfl⟩
    · rintro ⟨c, hc, rfl⟩
      exact ⟨_, (h.mem_commitIds hinv).mpr ⟨c, hc, rfl⟩, rfl⟩
  · have hperm : (s.committed.map (·.commitId.toNat)).Perm (List.range' 1 args.maxExecution) := by
      refine perm_range' ?_ fun x => by rw [← h.flushed_iff ho hover, List.mem_map]
      have hnd := ho.distinct.map hinj
      rwa [List.map_map] at hnd
    have hlen : s.committed.length = args.maxExecution := by
      have hl := hperm.length_eq
      rwa [List.length_map, List.length_range'] at hl
    rw [hinv.quiescent (h.idle hover), State.committedTable,
      sum_commits (fun c hc => ⟨(h.flushed c hc).2.2, (hinv.commits c hc).2⟩) hinv.serial, hlen,
      Finset.sum_const, Nat.card_Icc, Nat.add_sub_cancel, ← BitVec.natCast_eq_ofNat, nsmul_eq_mul]
    push_cast
    ring

/-- Every commit id up to the limit is used once, and each of them has raised the sum by one. -/
theorem workload_accounted (args : Args) (s : State) (h : Reachable (workload args) s) :
    Accounted args s := by
  obtain ⟨hr, ha⟩ := reachable_accounts h
  exact ha.accounted (reachable_ordered hr (Nat.lt_of_succ_lt ha.issued_lt)) (reachable_inv hr)

/-- The accesses of a transaction that starts from a table. -/
def bodyAccesses (t : Table) (i j k : RecordId) : History :=
  [⟨i, false, t i, t i⟩, ⟨j, true, t j, t j + (t i + 1)⟩, ⟨k, true, t k, t k + -t i⟩]

/-- A transaction has made its accesses and is about to commit. -/
structure BodyDone (T : TransactionId) (i j k : RecordId) (s s' : State) : Prop where
  ready : s'.phase T = .ready .commit
  body : s'.body T = transactionBody i j k
  history : s'.history T = bodyAccesses s.db.records i j k
  records : s'.db.records = result s.db.records (bodyAccesses s.db.records i j k)
  counter : s'.db.logger.executionOrder = s.db.logger.executionOrder
  limit : s'.db.maxExecution = s.db.maxExecution

theorem Alone.body {client : Client} {maxExecution : BitVec 64} {last : Outcome}
    (h : Alone client maxExecution T s) (hc : s.Covered T) (hidle : s.phase T = .idle last)
    (hempty : s.history T = []) (hstart : client T last (s.body T) (transactionBody i j k))
    (hd : j ≠ i ∧ k ≠ j ∧ k ≠ i) :
    ∃ s', Alone client maxExecution T s' ∧ s'.Covered T ∧ BodyDone T i j k s s' := by
  obtain ⟨hji, hkj, hki⟩ := hd
  have hlog : (s.begin T (transactionBody i j k)).history T = [] := hempty
  obtain ⟨t₁, p₁, h₁, hc₁⟩ := (h.begin hidle hstart).access hc (goto_phase _ _ _) rfl
    (by rw [hlog]; exact List.not_mem_nil) rfl
  obtain ⟨t₂, p₂, h₂, hc₂⟩ := h₁.access hc₁ granted_phase rfl (by simp [hlog, hji]) rfl
  obtain ⟨t₃, p₃, h₃, hc₃⟩ := h₂.access hc₂ granted_phase rfl (by simp [hlog, hkj, hki]) rfl
  have hj : Function.update s.db.records i (s.db.records i) j = s.db.records j :=
    Function.update_of_ne hji _ _
  have hk : Function.update (Function.update s.db.records i (s.db.records i)) j
      (s.db.records j + (s.db.records i + 1)) k = s.db.records k := by
    rw [Function.update_of_ne hkj, Function.update_of_ne hki]
  refine ⟨_, h₃, hc₃, granted_phase, Function.update_self _ _ _, ?_, ?_, rfl, rfl⟩
  · simp only [granted_history, granted_records, hempty, apply, State.begin, State.goto, bodyAccesses,
      List.nil_append, List.cons_append, hj, hk]
  · simp only [granted_records, apply, State.begin, State.goto, bodyAccesses, result_cons, result_nil, hj, hk]

/-- Two threads, three records and two executions. -/
def twoExecutions : Args := ⟨2, 3, 2, by decide, by decide, by decide, by decide, by decide⟩

theorem isBody_twoThreads (h : twoThreads T = some prog) :
    (0 < T ∧ T ≤ twoExecutions.numThread) ∧ IsBody twoExecutions prog := by
  unfold twoThreads at h
  split at h
  · cases h
    exact ⟨by decide, 1, 2, 3, ⟨by decide, by decide, by decide, by decide⟩, rfl⟩
  · cases h
    exact ⟨by decide, 1, 3, 2, ⟨by decide, by decide, by decide, by decide⟩, rfl⟩
  · cases h

theorem starts_twoThreads {last : Outcome} {previous : Program}
    (h : nextProgram twoThreads T previous last = some prog) : threadClient twoExecutions T last previous prog := by
  cases last with
  | fresh | committed => exact isBody_twoThreads h
  | aborted =>
    obtain ⟨p, hp, rfl⟩ := Option.map_eq_some_iff.mp h
    exact ⟨(isBody_twoThreads hp).1, rfl⟩
  | terminated => cases h

theorem workload_accounted_takingTurns : ∃ s, takingTurns.foldlM (advance twoThreads) (.new 2) = some s ∧
    ((s.commitIds twoExecutions).map (·.toNat)).Perm [1, 2] ∧ ∑ r ∈ Finset.Icc 1 3, s.db.records r = 302 := by
  have hrun : (takingTurns.foldlM (advance twoThreads) (.new 2)).map (fun s =>
      ((s.phase 1).outcome, (s.phase 2).outcome)) = some (some .terminated, some .terminated) := by decide +kernel
  obtain ⟨s, hs, he⟩ := Option.map_eq_some_iff.mp hrun
  obtain ⟨h₁, h₂⟩ := Prod.mk.inj he
  have hreach : Reachable (shortRuns 2 (threadClient twoExecutions)) s :=
    Reachable.foldlM (fun _ _ _ h => step_advance (fun _ _ => starts_twoThreads) h) (.init rfl) hs
  have hover : s.Over twoExecutions := by
    intro T hT
    have hT := Finset.mem_Icc.mp hT
    rcases (show T = 1 ∨ T = 2 by have := hT.2; change T ≤ 2 at this; omega) with rfl | rfl
    · exact outcome_eq.mp h₁
    · exact outcome_eq.mp h₂
  have h := workload_accounted twoExecutions s hreach.of_restrict
  exact ⟨s, hs, h.complete hover, h.total hover⟩

end Transactions
