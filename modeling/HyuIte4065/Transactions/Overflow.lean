import HyuIte4065.Transactions.Growth

/-!
# Signed overflow

The arithmetic of `transaction` and `Database::add` on record values. The committed values are
those of a run of transactions one after the other, and a transaction that has not committed works
on them. So the exact results of all operations are small up to a number of executions, and
beyond it one thread alone gets past the range.
-/
namespace Transactions

open Lock Replay Transition UndoLog

/-- The range of `int64_t`. -/
def InRange (x : Int) : Prop := -2 ^ 63 ≤ x ∧ x < 2 ^ 63

/-- The exact results of the signed operations on record values that a transaction has evaluated
when it has made these accesses: `record + 1` follows the read and `-record` the first `add`. -/
def operations : History → List Int
  | [] => []
  | [read] => [read.before.toInt + 1]
  | [read, raise] =>
    [read.before.toInt + 1, raise.before.toInt + (read.before + 1).toInt, -read.before.toInt]
  | read :: raise :: lower :: _ =>
    [read.before.toInt + 1, raise.before.toInt + (read.before + 1).toInt, -read.before.toInt,
      lower.before.toInt + (-read.before).toInt]

/-- No operation of any thread has left the range. -/
def State.Arithmetic (s : State) : Prop := ∀ T, ∀ x ∈ operations (s.history T), InRange x

/-- The table has these values. -/
def Exact (t : Table) (e : RecordId → Int) : Prop := ∀ r, (t r).toInt = e r

variable {args : Args} {s s' : State} {T U : TransactionId} {prog : Program} {as : History}
  {action : Action} {cs : List Commit} {t : Table} {e : RecordId → Int} {i j k r : RecordId} {x y : Value}
  {p : Pick} {ps : List Pick}

theorem bmod_of_inRange {n : Int} (h : InRange n) : n.bmod (2 ^ 64) = n := by
  obtain ⟨hlow, hhigh⟩ := h
  exact Int.bmod_eq_of_le (by omega) (by omega)

theorem toInt_add_of_inRange (h : InRange (x.toInt + y.toInt)) : (x + y).toInt = x.toInt + y.toInt := by
  rw [BitVec.toInt_add, bmod_of_inRange h]

theorem toInt_neg_of_inRange (h : InRange (-x.toInt)) : (-x).toInt = -x.toInt := by
  rw [BitVec.toInt_neg, bmod_of_inRange h]

theorem toInt_succ_of_inRange (h : InRange (x.toInt + 1)) : (x + 1).toInt = x.toInt + 1 :=
  toInt_add_of_inRange h

theorem inRange_of_abs_lt {n : Int} (h : |n| < 2 ^ 63 - 1) : InRange n ∧ InRange (n + 1) ∧ InRange (-n) := by
  rw [abs_lt] at h
  refine ⟨⟨?_, ?_⟩, ⟨?_, ?_⟩, ⟨?_, ?_⟩⟩ <;> omega

/-! ### One transaction -/

/-- What the operations of a transaction come to on a table with these values. -/
structure SmallBody (e : RecordId → Int) (p : Pick) : Prop where
  read : |e p.i| < 2 ^ 63 - 1
  raise : |p.exact e p.j| < 2 ^ 63 - 1
  lower : |p.exact e p.k| < 2 ^ 63 - 1

theorem Pick.exact_j : p.exact e p.j = e p.j + (e p.i + 1) := by
  rw [Pick.exact, Function.update_of_ne p.distinct.2.1.symm, Function.update_self]

theorem Pick.exact_k : p.exact e p.k = e p.k + -e p.i := Function.update_self _ _ _

/-- The operations in the range so far give the exact results. -/
theorem operations_inRange (h : SmallBody e p) (ht : Exact t e)
    (hf : (transactionBody p.i p.j p.k).Follows as prog) (hbefore : ∀ a ∈ as, t a.key = a.before) :
    ∀ x ∈ operations as, InRange x := by
  obtain ⟨-, hplus, hneg⟩ := inRange_of_abs_lt h.read
  have hi := ht p.i
  have hadd : InRange ((t p.i).toInt + 1) := hi ▸ hplus
  have hsub : InRange (-(t p.i).toInt) := hi ▸ hneg
  have hraise : InRange ((t p.j).toInt + (t p.i + 1).toInt) := by
    rw [toInt_succ_of_inRange hadd, ht p.j, hi, ← Pick.exact_j]
    exact (inRange_of_abs_lt h.raise).1
  have hlower : InRange ((t p.k).toInt + (-t p.i).toInt) := by
    rw [toInt_neg_of_inRange hsub, ht p.k, hi, ← Pick.exact_k]
    exact (inRange_of_abs_lt h.lower).1
  have hall : ∀ x ∈ operations (bodyAccesses t p.i p.j p.k), InRange x := by
    simp only [bodyAccesses, operations, List.forall_mem_cons]
    exact ⟨hadd, hraise, hsub, hlower, List.forall_mem_nil _⟩
  unfold transactionBody at hf
  cases hf with
  | nil => exact List.forall_mem_nil _
  | @read _ _ v as _ hf =>
    obtain rfl : t p.i = v := hbefore _ List.mem_cons_self
    cases hf with
    | nil => exact List.forall_mem_singleton.mpr hadd
    | @add _ _ w _ as _ hf =>
      obtain rfl : t p.j = w := hbefore _ (.tail _ (.head _))
      cases hf with
      | nil => exact fun x hx => hall x (List.mem_append_left [_] hx)
      | @add _ _ u _ as _ hf =>
        obtain rfl : t p.k = u := hbefore _ (.tail _ (.tail _ (.head _)))
        exact hall

/-- The three accesses of a transaction that fits the table. -/
theorem accesses_eq (hd : j ≠ i ∧ k ≠ j ∧ k ≠ i) (h : (transactionBody i j k).Follows as .commit)
    (hf : Fits t as) : as = bodyAccesses t i j k := by
  obtain ⟨v, w, u, rfl⟩ := (follows_body h).2 rfl
  obtain ⟨hv, hw, hu, -⟩ := hf
  obtain rfl : t i = v := hv
  have hw : Function.update t i (t i) j = w := hw
  rw [Function.update_of_ne hd.1] at hw
  subst hw
  have hu : Function.update (Function.update t i (t i)) j (t j + (t i + 1)) k = u := hu
  rw [Function.update_of_ne hd.2.1, Function.update_of_ne hd.2.2] at hu
  subst hu
  rfl

/-- A transaction without overflow leaves the exact values. -/
theorem Exact.body (ht : Exact t e) (h : ∀ x ∈ operations (bodyAccesses t p.i p.j p.k), InRange x) :
    Exact (result t (bodyAccesses t p.i p.j p.k)) (p.exact e) := by
  simp only [bodyAccesses, operations, List.forall_mem_cons] at h
  obtain ⟨hadd, hraise, hsub, hlower, -⟩ := h
  have hj := toInt_add_of_inRange hraise
  have hk := toInt_add_of_inRange hlower
  rw [toInt_succ_of_inRange hadd, ht, ht] at hj
  rw [toInt_neg_of_inRange hsub, ht, ht] at hk
  intro r
  simp only [bodyAccesses, result_cons, result_nil, apply, Function.update_eq_self, Pick.exact]
  by_cases hrk : r = p.k
  · rw [hrk, Function.update_self, Function.update_self, hk]
  · rw [Function.update_of_ne hrk, Function.update_of_ne hrk]
    by_cases hrj : r = p.j
    · rw [hrj, Function.update_self, Function.update_self, hj]
    · rw [Function.update_of_ne hrj, Function.update_of_ne hrj, ht]

/-! ### The committed transactions -/

theorem IsBody.pick (h : IsBody args prog) :
    ∃ p : Pick, p.In (Finset.Icc 1 args.numRecord) ∧ prog = transactionBody p.i p.j p.k := by
  obtain ⟨i, j, k, ⟨hi, hj, hk, hd⟩, rfl⟩ := h
  exact ⟨⟨i, j, k, hd⟩, ⟨hi, hj, hk⟩, rfl⟩

/-- No run with one transaction more than the limit gets large. -/
theorem exactRun_small_of_limit (args : Args) (hps : ∀ p ∈ ps, p.In (Finset.Icc 1 args.numRecord))
    (hlen : ps.length ≤ exactLimit args.numRecord + 1) (hr : r ∈ Finset.Icc 1 args.numRecord) :
    |exactRun ps r| < 2 ^ 63 - 1 := by
  rw [exactLimit] at hlen
  split at hlen
  · next hthree =>
    rw [hthree] at hps hr
    exact exactRun_small_three hps hlen hr
  · exact exactRun_small hps hlen hr

theorem smallBody_of_limit (hps : ∀ p ∈ ps, p.In (Finset.Icc 1 args.numRecord))
    (hlen : ps.length ≤ exactLimit args.numRecord) (hp : p.In (Finset.Icc 1 args.numRecord)) :
    SmallBody (exactRun ps) p := by
  have hps' : ∀ q ∈ ps ++ [p], q.In (Finset.Icc 1 args.numRecord) := by
    intro q hq
    rcases List.mem_append.mp hq with hq | hq
    · exact hps q hq
    · exact List.mem_singleton.mp hq ▸ hp
  have hlen' : (ps ++ [p]).length ≤ exactLimit args.numRecord + 1 := by
    rw [List.length_append, List.length_singleton]
    omega
  refine ⟨exactRun_small_of_limit args hps (Nat.le_succ_of_le hlen) hp.read, ?_, ?_⟩
  · exact exactRun_concat ▸ exactRun_small_of_limit args hps' hlen' hp.raise
  · exact exactRun_concat ▸ exactRun_small_of_limit args hps' hlen' hp.lower

/-- What has been committed is the result of a run on the exact values. -/
theorem commits_exact (hc : ∀ c ∈ cs, IsBody args c.body ∧ c.body.Follows c.accesses .commit)
    (hf : Fits (fun _ => 100) (cs.flatMap (·.accesses))) (hlen : cs.length ≤ exactLimit args.numRecord) :
    ∃ ps : List Pick, ps.length = cs.length ∧ (∀ p ∈ ps, p.In (Finset.Icc 1 args.numRecord)) ∧
      Exact (result (fun _ => 100) (cs.flatMap (·.accesses))) (exactRun ps) := by
  induction cs using List.reverseRecOn with
  | nil => exact ⟨[], rfl, by simp, fun _ => (by decide : (100 : Value).toInt = 100)⟩
  | append_singleton cs c ih =>
    rw [List.flatMap_append, List.flatMap_singleton] at hf ⊢
    rw [List.length_append, List.length_singleton] at hlen
    obtain ⟨hf, hfc⟩ := fits_append.mp hf
    obtain ⟨ps, hps, hin, hexact⟩ := ih (fun d hd => hc d (by simp [hd])) hf (by omega)
    obtain ⟨hbody, hfollows⟩ := hc c (by simp)
    obtain ⟨p, hp, hbody⟩ := hbody.pick
    rw [hbody] at hfollows
    have heq := accesses_eq p.distinct hfollows hfc
    have hsmall := smallBody_of_limit hin (by omega) hp
    refine ⟨ps ++ [p], by simp [hps], ?_, ?_⟩
    · intro q hq
      rcases List.mem_append.mp hq with hq | hq
      · exact hin q hq
      · exact List.mem_singleton.mp hq ▸ hp
    · rw [result_append, exactRun_concat, heq]
      refine hexact.body (operations_inRange hsmall hexact (heq ▸ hfollows) fun a ha => ?_)
      simp only [bodyAccesses, List.mem_cons, List.not_mem_nil, or_false] at ha
      rcases ha with rfl | rfl | rfl <;> rfl

/-- At most as many transactions commit as there are executions. -/
theorem Accounts.length_committed (h : Accounts args s) (ho : Ordered s) :
    s.committed.length ≤ args.maxExecution := by
  have hnd := ho.distinct.map BitVec.toNat_injective
  have hsub : (s.committed.map (·.commitId)).map (·.toNat) ⊆ List.range' 1 args.maxExecution := by
    intro x hx
    obtain ⟨y, hy, rfl⟩ := List.mem_map.mp hx
    obtain ⟨c, hc, rfl⟩ := List.mem_map.mp hy
    have hpos := (ho.flushed c hc).1
    have hle := (h.flushed c hc).1
    exact List.mem_range'_1.mpr ⟨hpos, by omega⟩
  have hlen := (hnd.subperm hsub).length_le
  rwa [List.length_map, List.length_map, List.length_range'] at hlen

/-- What a transaction has accessed is what its program asked for, also while it is undone. -/
def State.Following (s : State) : Prop := ∀ T, ∃ prog, (s.body T).Follows (s.history T) prog

theorem follows_of_nil (body : Program) (h : as = []) : ∃ prog, body.Follows as prog := by
  subst h
  exact ⟨body, .nil⟩

theorem State.Following.other (h : s.Following) (hl : Local T s s')
    (hT : ∃ prog, (s'.body T).Follows (s'.history T) prog) : s'.Following := by
  intro U
  by_cases hU : U = T
  · exact hU ▸ hT
  · rw [hl.body U hU, hl.history U hU]
    exact h U

theorem State.Following.step (h : s.Following) (hinv : Inv s) {client : Client}
    (hs : Step client s action s') : s'.Following := by
  cases hs with
  | @begin T last prog idle starts =>
    have hp := hinv.phases T
    rw [idle] at hp
    exact h.other (local_begin s T prog) (follows_of_nil _ hp.2)
  | @access _ T myLock prog n locking node granted ha =>
    obtain ⟨a, rest, hg, rfl⟩ := hinv.access_granted locking node granted ha
    obtain ⟨-, -, hf, -, -⟩ := hinv.granted locking node granted
    refine h.other (local_accessed s T a rest) ⟨rest, ?_⟩
    rw [show (s.accessed T a rest).history T = s.history T ++ [a] from setHistory_history _ _ _]
    exact hf.snoc hg.value
  | @abortLoop _ T i k b undoing ha =>
    have hl := local_abortLoop (hinv.logged T) ha
    rcases abortLoop_cases (hinv.logged T) ha with ⟨-, a, -, rfl⟩ | ⟨-, rfl⟩
    · exact h
    · exact h.other hl (follows_of_nil _ (setHistory_history _ T _))
  | @commit T ready =>
    have hcall := commitCalled s T
    intro U
    rw [hcall.body, hcall.history]
    exact h U
  | @flush T commitId flushing =>
    exact h.other (local_flush s T commitId) (follows_of_nil _ (setHistory_history _ T _))
  | _ => exact h

theorem reachable_following {client : Client} {maxExecution : BitVec 64}
    (h : Reachable (shortRuns maxExecution client) s) : s.Following := by
  induction h with
  | init hs =>
    obtain rfl := hs
    exact fun T => ⟨_, .nil⟩
  | step l hr hs ih => exact ih.step (reachable_inv hr) hs.1

/-- Up to the limit nothing overflows. -/
theorem arithmetic_of_le (hle : args.maxExecution ≤ exactLimit args.numRecord)
    (h : Reachable (workload args) s) : s.Arithmetic := by
  obtain ⟨hr, ha⟩ := reachable_accounts h
  have hinv := reachable_inv hr
  have ho := reachable_ordered hr (Nat.lt_of_succ_lt ha.issued_lt)
  intro T
  by_cases hfresh : s.phase T = .idle .fresh
  · have hp := hinv.phases T
    rw [hfresh] at hp
    rw [hp.2]
    exact nofun
  · obtain ⟨prog, hf⟩ := reachable_following hr T
    obtain ⟨p, hp, hbody⟩ := (ha.threads T hfresh).2.pick
    have hlen := ha.length_committed ho
    obtain ⟨ps, hps, hin, hexact⟩ := commits_exact
      (fun c hc => ⟨(ha.flushed c hc).2.2, (hinv.commits c hc).2⟩) hinv.serial (hlen.trans hle)
    rw [hbody] at hf
    exact operations_inRange (smallBody_of_limit hin (by omega) hp) hexact hf (hinv.values.before T)

/-! ### One thread alone -/

/-- Thread 1 is between two transactions, and the records have the values of the run. -/
structure Ran (args : Args) (ps : List Pick) (s : State) : Prop where
  alone : Alone (threadClient args) (BitVec.ofNat 64 args.maxExecution) 1 s
  covered : s.Covered 1
  idle : s.phase 1 = .idle .fresh ∨ s.phase 1 = .idle .committed
  history : s.history 1 = []
  records : Exact s.db.records (exactRun ps)
  counter : s.db.logger.executionOrder = BitVec.ofNat 64 ps.length
  limit : s.db.maxExecution = BitVec.ofNat 64 args.maxExecution

theorem ran_new (args : Args) : Ran args [] (.new (BitVec.ofNat 64 args.maxExecution)) := by
  obtain ⟨h, hc⟩ := alone_new (threadClient args) (BitVec.ofNat 64 args.maxExecution) 1
  exact ⟨h, hc, .inl rfl, rfl, fun _ => (by decide : (100 : Value).toInt = 100), rfl, rfl⟩

/-- The next transaction up to its commit. -/
theorem Ran.body (h : Ran args ps s) (hp : p.In (Finset.Icc 1 args.numRecord)) :
    ∃ s', Alone (threadClient args) (BitVec.ofNat 64 args.maxExecution) 1 s' ∧ s'.Covered 1 ∧
      BodyDone 1 p.i p.j p.k s s' := by
  have hbody : IsBody args (transactionBody p.i p.j p.k) :=
    ⟨p.i, p.j, p.k, ⟨hp.read, hp.raise, hp.lower, p.distinct⟩, rfl⟩
  have hthread : 0 < 1 ∧ 1 ≤ args.numThread := ⟨by decide, args.someThread⟩
  rcases h.idle with hidle | hidle
  · exact h.alone.body h.covered hidle h.history ⟨hthread, hbody⟩ p.distinct
  · exact h.alone.body h.covered hidle h.history ⟨hthread, hbody⟩ p.distinct

theorem Ran.commit (h : Ran args ps s) (hp : p.In (Finset.Icc 1 args.numRecord))
    (hlt : ps.length < args.maxExecution) (hok : ∀ s, Reachable (workload args) s → s.Arithmetic) :
    ∃ s', Ran args (ps ++ [p]) s' := by
  obtain ⟨s₁, h₁, hc₁, hdone⟩ := h.body hp
  have hmax := args.executions_lt
  have hle : ¬ s₁.db.logger.getCommitId.1 > s₁.db.maxExecution := by
    simp only [Logger.getCommitId, hdone.counter, hdone.limit, h.counter, h.limit]
    have hone : (1 : BitVec 64).toNat = 1 := rfl
    rw [gt_iff_lt, BitVec.lt_def, BitVec.toNat_add, BitVec.toNat_ofNat, BitVec.toNat_ofNat, hone]
    omega
  obtain ⟨t, h₂, hc₂⟩ := h₁.commit hdone.ready hle
  have hf := finished_of_le (T := 1) (t := t) hle
  have hops := hok s₁ h₁.reachable.of_restrict 1
  rw [hdone.history] at hops
  refine ⟨_, h₂, hc₂, .inr hf.idle, hf.history, ?_, ?_, ?_⟩
  · rw [hf.records, hdone.records, exactRun_concat]
    exact h.records.body hops
  · rw [hf.counter, hdone.counter, h.counter, List.length_append, List.length_singleton, BitVec.ofNat_add]
    rfl
  · rw [hf.limit, hdone.limit, h.limit]

/-- Where nothing overflows, thread 1 can commit as many transactions as there are executions. -/
theorem exists_ran (hps : ∀ p ∈ ps, p.In (Finset.Icc 1 args.numRecord)) (hlen : ps.length ≤ args.maxExecution)
    (hok : ∀ s, Reachable (workload args) s → s.Arithmetic) : ∃ s, Ran args ps s := by
  induction ps using List.reverseRecOn with
  | nil => exact ⟨_, ran_new args⟩
  | append_singleton ps p ih =>
    rw [List.length_append, List.length_singleton] at hlen
    obtain ⟨s, hs⟩ := ih (fun q hq => hps q (by simp [hq])) (by omega)
    exact hs.commit (hps p (by simp)) (by omega) hok

/-- One transaction more works on its values before its commit id turns out to be too large. -/
theorem exactRun_inRange (hps : ∀ p ∈ ps, p.In (Finset.Icc 1 args.numRecord))
    (hlen : ps.length ≤ args.maxExecution + 1) (hok : ∀ s, Reachable (workload args) s → s.Arithmetic) :
    InRange (exactRun ps r) := by
  rcases List.eq_nil_or_concat' ps with rfl | ⟨ps, p, rfl⟩
  · exact (by decide : -2 ^ 63 ≤ (100 : Int) ∧ (100 : Int) < 2 ^ 63)
  · rw [List.length_append, List.length_singleton] at hlen
    have hbefore : ∀ q ∈ ps, q.In (Finset.Icc 1 args.numRecord) := fun q hq => hps q (List.mem_append_left _ hq)
    obtain ⟨s, hs⟩ := exists_ran hbefore (by omega) hok
    obtain ⟨s', hs', -, hdone⟩ := hs.body (hps p (by simp))
    have hops := hok s' hs'.reachable.of_restrict 1
    rw [hdone.history] at hops
    rw [exactRun_concat, ← hs.records.body hops r]
    exact ⟨BitVec.le_toInt _, BitVec.toInt_lt⟩

theorem Pick.In.mono {m n : Nat} (h : p.In (Finset.Icc 1 m)) (hle : m ≤ n) : p.In (Finset.Icc 1 n) :=
  have hsub := Finset.Icc_subset_Icc_right hle
  ⟨hsub h.read, hsub h.raise, hsub h.lower⟩

theorem turns_in : ∀ p ∈ turns, p.In (Finset.Icc 1 3) := by
  simp only [turns, List.forall_mem_cons]
  exact ⟨⟨by decide, by decide, by decide⟩, ⟨by decide, by decide, by decide⟩, nofun⟩

theorem fourTurns_in : ∀ p ∈ fourTurns, p.In (Finset.Icc 1 4) := by
  simp only [fourTurns, List.forall_mem_cons]
  exact ⟨⟨by decide, by decide, by decide⟩, ⟨by decide, by decide, by decide⟩,
    ⟨by decide, by decide, by decide⟩, ⟨by decide, by decide, by decide⟩, nofun⟩

theorem fastest_in {n : Nat} (hn : 3 ≤ n) : ∀ p ∈ fastest n, p.In (Finset.Icc 1 n) := by
  intro p hp
  rw [fastest] at hp
  split at hp
  · obtain ⟨l, hl, hp⟩ := List.mem_flatten.mp hp
    exact (turns_in p (List.eq_of_mem_replicate hl ▸ hp)).mono hn
  · next hne =>
    rcases List.mem_append.mp hp with hp | hp
    · exact (turns_in p hp).mono hn
    · obtain ⟨l, hl, hp⟩ := List.mem_flatten.mp hp
      exact (fourTurns_in p (List.eq_of_mem_replicate hl ▸ hp)).mono (by omega)

theorem length_fastest (n : Nat) : (fastest n).length = exactLimit n + 2 := by
  rw [fastest, exactLimit]
  split <;> rfl

theorem fastest_large (n : Nat) : ∃ r, ¬InRange (exactRun (fastest n) r) := by
  rw [fastest]
  split
  · refine ⟨3, fun h => absurd h.1 ?_⟩
    decide +kernel
  · refine ⟨1, fun h => absurd h.2 ?_⟩
    decide +kernel

/-- Beyond the limit some run overflows. -/
theorem overflow_of_lt (hlt : exactLimit args.numRecord < args.maxExecution) :
    ∃ s, Reachable (workload args) s ∧ ¬s.Arithmetic := by
  by_contra hok
  simp only [not_exists, not_and, not_not] at hok
  obtain ⟨r, hr⟩ := fastest_large args.numRecord
  refine hr (exactRun_inRange (fastest_in args.threeRecords) ?_ hok)
  rw [length_fastest]
  omega

/-- Nothing overflows in any run exactly up to 78 executions on three records, and up to 68 on more. -/
theorem workload_arithmetic_iff (args : Args) :
    (∀ s, Reachable (workload args) s → s.Arithmetic) ↔ args.maxExecution ≤ exactLimit args.numRecord := by
  constructor
  · intro hok
    by_contra hlt
    obtain ⟨s, hs, hbad⟩ := overflow_of_lt (Nat.lt_of_not_le hlt)
    exact hbad (hok s hs)
  · exact fun hle _ => arithmetic_of_le hle

/-- One thread, four records and 69 executions. -/
def tooMany : Args := ⟨1, 4, 69, by decide, by decide, by decide, by decide, by decide⟩

theorem tooMany_overflows : ∃ s, Reachable (workload tooMany) s ∧ ¬s.Arithmetic :=
  overflow_of_lt (by decide)

end Transactions
