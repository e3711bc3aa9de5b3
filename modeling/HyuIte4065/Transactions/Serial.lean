import HyuIte4065.Transactions.Alone

/-!
# Serializability in commit-id order

A transaction draws its commit id while it still has all its locks. So where two
transactions flush in the other order than they drew their ids, both still held their
locks at one moment, and their accesses do not conflict. As long as the counter has not
wrapped around, the flushed transactions can be sorted by commit id.
-/
namespace Transactions

open Lock Replay Transition UndoLog

variable {s s' : State} {T U : TransactionId} {ph : Phase} {client : Client}
  {maxExecution x : BitVec 64} {action : Action} {c : Commit} {cs : List Commit} {t : Table}

/-- Commit ids are fresh, and who flushes late does not conflict with who overtook it. -/
structure Ordered (s : State) : Prop where
  counter : s.db.logger.executionOrder = BitVec.ofNat 64 s.issued
  drawn : ∀ T x, s.phase T = .flushing x → 0 < x.toNat ∧ x.toNat ≤ s.issued
  flushed : ∀ c ∈ s.committed, 0 < c.commitId.toNat ∧ c.commitId.toNat ≤ s.issued
  distinct : (s.committed.map (·.commitId)).Nodup
  apart : ∀ T U x, s.phase T = .flushing x → s.phase U = .flushing x → T = U
  fresh : ∀ T x, s.phase T = .flushing x → ∀ c ∈ s.committed, c.commitId ≠ x
  overtaken : ∀ T x, s.phase T = .flushing x → ∀ c ∈ s.committed, x.toNat < c.commitId.toNat →
    Compatible (s.history T) c.accesses
  inversions : Inversions (fun c : Commit => c.commitId.toNat) (·.accesses) s.committed

theorem ordered_new (maxExecution : BitVec 64) : Ordered (.new maxExecution) := by
  refine ⟨rfl, ?_, ?_, List.nodup_nil, ?_, ?_, ?_, List.Pairwise.nil⟩
  · intro T x h
    cases h
  · intro c hc
    cases hc
  · intro T U x h
    cases h
  · intro T x h
    cases h
  · intro T x h
    cases h

/-- `T` moves, and draws no commit id and flushes nothing. -/
theorem Ordered.quiet (h : Ordered s) (committed : s'.committed = s.committed)
    (issued : s'.issued = s.issued)
    (counter : s'.db.logger.executionOrder = s.db.logger.executionOrder)
    (hp : ∀ U ≠ T, s'.phase U = s.phase U) (hh : ∀ U ≠ T, s'.history U = s.history U)
    (hph : s'.phase T = ph) (hne : ∀ x, ph ≠ .flushing x) : Ordered s' := by
  have hf : ∀ U x, s'.phase U = .flushing x →
      s.phase U = .flushing x ∧ s'.history U = s.history U := by
    intro U x hx
    have hU : U ≠ T := by
      rintro rfl
      exact hne x (hph.symm.trans hx)
    exact ⟨(hp U hU).symm.trans hx, hh U hU⟩
  refine ⟨by rw [counter, issued, h.counter], ?_, committed ▸ issued ▸ h.flushed,
    committed ▸ h.distinct, ?_, ?_, ?_, committed ▸ h.inversions⟩
  · intro U x hx
    rw [issued]
    exact h.drawn U x (hf U x hx).1
  · intro U V x hU hV
    exact h.apart U V x (hf U x hU).1 (hf V x hV).1
  · intro U x hx
    rw [committed]
    exact h.fresh U x (hf U x hx).1
  · intro U x hx
    rw [committed, (hf U x hx).2]
    exact h.overtaken U x (hf U x hx).1

theorem Ordered.next_toNat (h : Ordered s) (hlt : s.issued + 1 < 2 ^ 64) :
    (s.db.logger.executionOrder + 1).toNat = s.issued + 1 := by
  have hcounter : s.db.logger.executionOrder + 1 = BitVec.ofNat 64 (s.issued + 1) := by
    rw [h.counter, BitVec.ofNat_add]
    rfl
  rw [hcounter, BitVec.toNat_ofNat, Nat.mod_eq_of_lt hlt]

/-- A transaction draws a commit id: none was as large. -/
theorem Ordered.callCommit (h : Ordered s) (T : TransactionId) (hlt : s.issued + 1 < 2 ^ 64) :
    Ordered (s.callCommit T) := by
  have hcounter : s.db.logger.executionOrder + 1 = BitVec.ofNat 64 (s.issued + 1) := by
    rw [h.counter, BitVec.ofNat_add]
    rfl
  have hnum := h.next_toNat hlt
  have hdrawn : Ordered { s with
      db := { s.db with logger := s.db.logger.getCommitId.2 }, issued := s.issued + 1 } := by
    refine ⟨hcounter, ?_, ?_, h.distinct, h.apart, h.fresh, h.overtaken, h.inversions⟩
    · intro T x hx
      obtain ⟨h₁, h₂⟩ := h.drawn T x hx
      exact ⟨h₁, Nat.le_succ_of_le h₂⟩
    · intro c hc
      obtain ⟨h₁, h₂⟩ := h.flushed c hc
      exact ⟨h₁, Nat.le_succ_of_le h₂⟩
  unfold State.callCommit
  dsimp only
  split
  case isTrue =>
    exact hdrawn.quiet rfl rfl rfl (goto_other _ _) (fun _ _ => rfl) (goto_phase _ T _) nofun
  case isFalse =>
    have cases : ∀ {U x}, (({ s with
        db := { s.db with logger := s.db.logger.getCommitId.2 }, issued := s.issued + 1 }).goto T
        (.flushing (s.db.logger.executionOrder + 1))).phase U = .flushing x →
        (U = T ∧ x.toNat = s.issued + 1) ∨ (U ≠ T ∧ s.phase U = .flushing x) := by
      intro U x hx
      by_cases hU : U = T
      · subst hU
        rw [goto_phase] at hx
        exact .inl ⟨rfl, by rw [← Phase.flushing.inj hx, hnum]⟩
      · exact .inr ⟨hU, (goto_other _ _ U hU).symm.trans hx⟩
    refine ⟨hcounter, ?_, hdrawn.flushed, h.distinct, ?_, ?_, ?_, h.inversions⟩
    · intro U x hx
      rcases cases hx with ⟨-, he⟩ | ⟨-, hx⟩
      · exact ⟨by omega, he.le⟩
      · exact hdrawn.drawn U x hx
    · intro U V x hU hV
      rcases cases hU with ⟨hU, he⟩ | ⟨-, hU⟩ <;> rcases cases hV with ⟨hV, he'⟩ | ⟨-, hV⟩
      · rw [hU, hV]
      · have := (h.drawn V x hV).2
        omega
      · have := (h.drawn U x hU).2
        omega
      · exact h.apart U V x hU hV
    · intro U x hx c hc
      rcases cases hx with ⟨-, he⟩ | ⟨-, hx⟩
      · rintro rfl
        have := (h.flushed c hc).2
        omega
      · exact h.fresh U x hx c hc
    · intro U x hx c hc hlt
      rcases cases hx with ⟨-, he⟩ | ⟨-, hx⟩
      · have := (h.flushed c hc).2
        omega
      · exact h.overtaken U x hx c hc hlt

/-- A transaction flushes: whoever holds a smaller id still has all its locks. -/
theorem Ordered.flush (h : Ordered s) (hinv : Inv s) (hph : s.phase T = .flushing x) :
    Ordered (s.flush T x) := by
  have hnew : (s.flush T x).committed = s.committed ++ [⟨x, T, s.body T, s.history T⟩] := rfl
  have rest : ∀ {U y}, (s.flush T x).phase U = .flushing y →
      U ≠ T ∧ s.phase U = .flushing y ∧ (s.flush T x).history U = s.history U := by
    intro U y hy
    have hU : U ≠ T := by
      rintro rfl
      rw [State.flush, goto_phase] at hy
      cases hy
    exact ⟨hU, (goto_other _ _ U hU).symm.trans hy, Function.update_of_ne hU _ _⟩
  refine ⟨h.counter, ?_, ?_, ?_, ?_, ?_, ?_, ?_⟩
  · intro U y hy
    exact h.drawn U y (rest hy).2.1
  · intro c hc
    rcases List.mem_append.mp (hnew ▸ hc) with hc | hc
    · exact h.flushed c hc
    · obtain rfl := List.mem_singleton.mp hc
      exact h.drawn T x hph
  · rw [hnew, List.map_append]
    refine List.nodup_append.mpr ⟨h.distinct, by simp, ?_⟩
    intro y hy z hz
    obtain ⟨c, hc, rfl⟩ := List.mem_map.mp hy
    obtain rfl : z = x := by simpa using hz
    exact h.fresh T z hph c hc
  · intro U V y hU hV
    exact h.apart U V y (rest hU).2.1 (rest hV).2.1
  · intro U y hy c hc
    rcases List.mem_append.mp (hnew ▸ hc) with hc | hc
    · exact h.fresh U y (rest hy).2.1 c hc
    · obtain rfl := List.mem_singleton.mp hc
      rintro rfl
      exact (rest hy).1 (h.apart U T x (rest hy).2.1 hph)
  · intro U y hy c hc hlt
    obtain ⟨hU, hy, hlog⟩ := rest hy
    rw [hlog]
    rcases List.mem_append.mp (hnew ▸ hc) with hc | hc
    · exact h.overtaken U y hy c hc hlt
    · obtain rfl := List.mem_singleton.mp hc
      exact hinv.values.exclusive U T hU
  · rw [Inversions, hnew]
    refine List.pairwise_append.mpr ⟨h.inversions, List.pairwise_singleton _ _, ?_⟩
    intro c hc d hd hlt
    obtain rfl := List.mem_singleton.mp hd
    exact (h.overtaken T x hph c hc hlt).symm

theorem Ordered.step (h : Ordered s) (hinv : Inv s) (hs : Step client s action s')
    (hlt : s'.issued < 2 ^ 64) : Ordered s' := by
  cases hs with
  | begin prog idle starts =>
    exact h.quiet rfl rfl rfl (goto_other _ _) (fun _ _ => rfl) (goto_phase _ _ _) nofun
  | refused fuel newLock ready request ha =>
    exact h.quiet rfl rfl rfl (goto_other _ _) (fun _ _ => rfl) (goto_phase _ _ _) nofun
  | accepted fuel newLock ready request fresh ha =>
    exact h.quiet rfl rfl rfl (goto_other _ _) (fun _ _ => rfl) (goto_phase _ _ _) nofun
  | access locking node granted ha =>
    obtain ⟨a, rest, -, rfl⟩ := hinv.access_granted locking node granted ha
    exact h.quiet rfl rfl rfl (goto_other _ _) (fun _ hU => Function.update_of_ne hU _ _)
      (goto_phase _ _ _) nofun
  | abort fails =>
    exact h.quiet rfl rfl rfl (goto_other _ _) (fun _ _ => rfl) (goto_phase _ _ _) nofun
  | @abortLoop _ T i k b undoing ha =>
    rcases abortLoop_cases (hinv.logged T) ha with ⟨-, a, -, rfl⟩ | ⟨-, rfl⟩
    · exact h.quiet rfl rfl rfl (goto_other _ _) (fun _ _ => rfl) (goto_phase _ _ _) nofun
    · exact h.quiet rfl rfl rfl (goto_other _ _) (fun _ hU => Function.update_of_ne hU _ _)
        (goto_phase _ _ _) nofun
  | @commit T ready =>
    rw [(commitCalled _ _).issued] at hlt
    exact h.callCommit T hlt
  | flush flushing => exact h.flush hinv flushing
  | unlock fuel unlocking hu =>
    exact h.quiet rfl rfl rfl (goto_other _ _) (fun _ _ => rfl) (goto_phase _ _ _) nofun

theorem Inv.issued_le (h : Inv s) (hs : Step client s action s') : s.issued ≤ s'.issued := by
  cases hs with
  | access locking node granted ha =>
    obtain ⟨a, rest, -, rfl⟩ := h.access_granted locking node granted ha
    exact le_rfl
  | @abortLoop _ T i k b undoing ha =>
    rcases abortLoop_cases (h.logged T) ha with ⟨-, a, -, rfl⟩ | ⟨-, rfl⟩ <;> exact le_rfl
  | commit ready =>
    rw [(commitCalled _ _).issued]
    exact Nat.le_succ _
  | _ => exact le_rfl

theorem reachable_ordered (h : Reachable (shortRuns maxExecution client) s)
    (hlt : s.issued < 2 ^ 64) : Ordered s := by
  refine h.invariant (I := fun s => s.issued < 2 ^ 64 → Ordered s) ?_ ?_ hlt
  · rintro s rfl -
    exact ordered_new maxExecution
  · intro s a s' hr ih hs hlt
    have hinv := reachable_inv hr
    exact (ih (Nat.lt_of_le_of_lt (hinv.issued_le hs.1) hlt)).step hinv hs.1 hlt

/-! ### The replay -/

/-- The transactions one after the other: their accesses, and the table at the end. -/
def replayAll : List Commit → Table → List History × Table
  | [], t => ([], t)
  | c :: cs, t =>
    let (as, t') := c.body.replay t
    let (ass, t'') := replayAll cs t'
    (as :: ass, t'')

def State.inCommitOrder (s : State) : List Commit :=
  s.committed.mergeSort fun c d => decide (c.commitId ≤ d.commitId)

/-- The flushed transactions have run as if one after the other in the order of their ids. -/
structure Serial (s : State) : Prop where
  distinct : (s.committed.map (·.commitId)).Nodup
  fout : ∀ T, (s.db.logger.logPerTxn T).fout =
    (s.committed.filter fun c => decide (c.txnId = T)).map (·.line)
  replayed : (replayAll s.inCommitOrder fun _ => 100).1 = s.inCommitOrder.map (·.accesses)
  final : (∀ T, ¬ s.Unfinished T) → s.db.records = (replayAll s.inCommitOrder fun _ => 100).2

theorem replayAll_eq (hc : ∀ c ∈ cs, c.body.Follows c.accesses .commit)
    (hf : Fits t (cs.flatMap (·.accesses))) :
    replayAll cs t = (cs.map (·.accesses), result t (cs.flatMap (·.accesses))) := by
  induction cs generalizing t with
  | nil => rfl
  | cons c cs ih =>
    obtain ⟨h₁, h₂⟩ := fits_append.mp (List.flatMap_cons ▸ hf)
    have hbody : c.body.replay t = (c.accesses, result t c.accesses) :=
      (hc c (by simp)).replay h₁
    have hrest := ih (fun d hd => hc d (by simp [hd])) h₂
    simp only [replayAll, hbody, hrest, List.map_cons, List.flatMap_cons, result_append]

theorem inCommitOrder_sorted (s : State) :
    s.inCommitOrder.Pairwise fun c d => c.commitId.toNat ≤ d.commitId.toNat := by
  have hle : s.inCommitOrder.Pairwise fun c d => decide (c.commitId ≤ d.commitId) = true :=
    List.pairwise_mergeSort (by
      intro c d e h₁ h₂
      simp only [decide_eq_true_eq, BitVec.le_def] at h₁ h₂ ⊢
      omega) (by
      intro c d
      simp only [Bool.or_eq_true, decide_eq_true_eq, BitVec.le_def]
      omega) _
  exact hle.imp fun h => BitVec.le_def.mp (of_decide_eq_true h)

theorem inCommitOrder_perm (s : State) : s.inCommitOrder.Perm s.committed := List.mergeSort_perm _ _

theorem Ordered.sorted (h : Ordered s) :
    s.inCommitOrder.Pairwise fun c d => c.commitId.toNat < d.commitId.toNat := by
  have hnd : (s.inCommitOrder.map (·.commitId)).Nodup :=
    ((inCommitOrder_perm s).map _).nodup_iff.mpr h.distinct
  refine ((inCommitOrder_sorted s).and (List.pairwise_map.mp hnd)).imp ?_
  rintro c d ⟨h₁, h₂⟩
  exact Nat.lt_of_le_of_ne h₁ fun he => h₂ (BitVec.eq_of_toNat_eq he)

/-- When nobody is in a transaction, the records are as the flushed transactions left them. -/
theorem Inv.quiescent (h : Inv s) (hidle : ∀ T, ¬ s.Unfinished T) : s.db.records = s.committedTable := by
  funext r
  refine h.values.clean r fun T a ha => ?_
  obtain ⟨last, hl⟩ : ∃ last, s.phase T = .idle last := by
    simpa [State.Unfinished] using hidle T
  have hp := h.phases T
  rw [hl] at hp
  simp [hp.2] at ha

theorem Ordered.serial (h : Ordered s) (hinv : Inv s) : Serial s := by
  have hperm := inCommitOrder_perm s
  obtain ⟨hfits, hres⟩ := fits_sorted (fun c : Commit => c.commitId.toNat)
    (fun c hc => (hinv.commits c hc).1) h.inversions hperm h.sorted hinv.serial
  have hall := replayAll_eq (fun c hc => (hinv.commits c (hperm.subset hc)).2) hfits
  refine ⟨h.distinct, hinv.fout, by rw [hall], fun hidle => ?_⟩
  rw [hall, hres]
  exact hinv.quiescent hidle

/-- The commit ids order the committed transactions: run alone in this order they read what they have
read, and leave the records as they are once nobody is inside. -/
theorem serializable (maxExecution : BitVec 64) (client : Client) (s : State)
    (h : Reachable (shortRuns maxExecution client) s)
    (hlt : s.issued < 2 ^ 64) : Serial s :=
  (reachable_ordered h hlt).serial (reachable_inv h)

/-- Commit id 0 comes first. -/
theorem inCommitOrder_head {d : Commit} (hs : s.committed = cs ++ [d])
    (hcs : ∀ c ∈ cs, c.commitId ≠ 0) (hd : d.commitId = 0) : ∃ ds, s.inCommitOrder = d :: ds := by
  have hperm : s.inCommitOrder.Perm (cs ++ [d]) := hs ▸ inCommitOrder_perm s
  have hsorted := inCommitOrder_sorted s
  have hmem : d ∈ s.inCommitOrder := hperm.symm.subset (by simp)
  cases hl : s.inCommitOrder with
  | nil => simp [hl] at hmem
  | cons c ds =>
    rw [hl] at hperm hsorted hmem
    have hzero : c.commitId = 0 := by
      rcases List.mem_cons.mp hmem with rfl | hm
      · exact hd
      · have hle := (List.pairwise_cons.mp hsorted).1 d hm
        rw [hd] at hle
        exact BitVec.eq_of_toNat_eq (Nat.le_zero.mp hle)
    rcases List.mem_append.mp (hperm.subset List.mem_cons_self) with hc | hc
    · exact absurd hzero (hcs c hc)
    · obtain rfl := List.mem_singleton.mp hc
      exact ⟨ds, rfl⟩

/-- Without the condition on the length of the logs, and without the one on the counter. -/
theorem not_serial : (¬ ∀ s, Reachable (dbSystem 1 anyClient) s → Serial s) ∧
    ¬ ∀ s, Reachable (shortRuns (BitVec.allOnes 64) anyClient) s → Serial s := by
  constructor
  · intro h
    obtain ⟨s, hs, hidle, hcommitted, hone⟩ := rollback_lost 1
    have hfinal := (h s hs).final fun T hT => by
      obtain ⟨last, hl⟩ := hidle T
      exact hT last hl
    have horder : s.inCommitOrder = [] := by
      rw [State.inCommitOrder, hcommitted, List.mergeSort_nil]
    rw [horder] at hfinal
    have hvalue : s.db.records 1 = 100 := congrFun hfinal 1
    rw [hone] at hvalue
    exact absurd hvalue (by decide)
  · intro h
    obtain ⟨s, hs, cs, hcs, hcommitted⟩ := counter_wraps
    obtain ⟨ds, hds⟩ := inCommitOrder_head hcommitted hcs rfl
    have hreplay := (h s hs).replayed
    rw [hds] at hreplay
    have hfirst : ([⟨1, false, 100, 100⟩] : History) = [⟨1, false, 99, 99⟩] :=
      (List.cons.inj hreplay).1
    exact absurd hfirst (by decide)

/-! ### Runs of several threads -/

/-- What a thread starts next: its program, or after an abort the same one again. -/
def nextProgram (starts : TransactionId → Option Program) (T : TransactionId) (previous : Program) :
    Outcome → Option Program
  | .fresh | .committed => starts T
  | .aborted => (starts T).map fun _ => previous
  | .terminated => none

/-- The next step of a thread; `new` returns the first address that is not in use. -/
def advance (starts : TransactionId → Option Program) (s : State) (T : TransactionId) : Option State :=
  match s.phase T with
  | .idle last => (nextProgram starts T (s.body T) last).map fun prog => s.begin T prog
  | .ready .commit => if (s.db.logger.logPerTxn T).recordIds.length < 2 ^ 31 then some (s.callCommit T) else none
  | .ready .abort | .corrupt =>
    if (s.db.logger.logPerTxn T).recordIds.length < 2 ^ 31 then some (s.callAbort T false) else none
  | .ready prog => do
    let (recordId, lockMode) ← prog.request
    let newLock ← (List.range 16).find? fun p => (s.db.lockTable.heap p).isNone
    match ← s.db.lockTable.addLock 64 newLock T recordId lockMode with
    | (t, none) => some ((s.setLockTable t).goto T .corrupt)
    | (t, some p) => if p = newLock then some ((s.setLockTable t).goto T (.locking newLock prog)) else none
  | .locking myLock prog => do
    let n ← s.db.lockTable.heap myLock
    if n.locked = false then s.access T prog else none
  | .undoing i numOperation terminated => s.abortLoop T i numOperation terminated
  | .flushing commitId => some (s.flush T commitId)
  | .unlocking outcome => (s.db.lockTable.unlock 64 T).map fun t => (s.setLockTable t).goto T (.idle outcome)

theorem step_advance {client : Client} {maxExecution : BitVec 64} {starts : TransactionId → Option Program}
    (hstart : ∀ last prog, nextProgram starts T (s.body T) last = some prog → client T last (s.body T) prog)
    (h : advance starts s T = some s') : ∃ a, (shortRuns maxExecution client).step s a s' := by
  unfold advance at h
  split at h
  case h_1 last idle =>
    obtain ⟨prog, hnext, rfl⟩ := Option.map_eq_some_iff.mp h
    exact ⟨.begin T, .begin prog idle (hstart last prog hnext), trivial⟩
  case h_2 ready =>
    obtain ⟨hshort, ⟨⟩⟩ := Option.ite_none_right_eq_some.mp h
    exact ⟨.commit T, .commit ready, fun _ => hshort⟩
  case h_3 ready =>
    obtain ⟨hshort, ⟨⟩⟩ := Option.ite_none_right_eq_some.mp h
    exact ⟨.abort T, .abort (.inr ready), hshort⟩
  case h_4 corrupt =>
    obtain ⟨hshort, ⟨⟩⟩ := Option.ite_none_right_eq_some.mp h
    exact ⟨.abort T, .abort (.inl corrupt), hshort⟩
  case h_5 prog _ _ ready =>
    obtain ⟨⟨recordId, lockMode⟩, request, h⟩ := Option.bind_eq_some_iff.mp h
    obtain ⟨newLock, hfind, h⟩ := Option.bind_eq_some_iff.mp h
    obtain ⟨⟨t, answer⟩, hadd, h⟩ := Option.bind_eq_some_iff.mp h
    have fresh : s.db.lockTable.heap newLock = none := by simpa using List.find?_some hfind
    cases answer with
    | none =>
      cases h
      exact ⟨.lock T, .refused 64 newLock ready request hadd, trivial⟩
    | some p =>
      obtain ⟨rfl, ⟨⟩⟩ := Option.ite_none_right_eq_some.mp h
      exact ⟨.lock T, .accepted 64 p ready request fresh hadd, trivial⟩
  case h_6 myLock prog locking =>
    obtain ⟨n, node, h⟩ := Option.bind_eq_some_iff.mp h
    obtain ⟨granted, haccess⟩ := Option.ite_none_right_eq_some.mp h
    exact ⟨.access T, .access locking node granted haccess, trivial⟩
  case h_7 i numOperation terminated undoing => exact ⟨.abortLoop T, .abortLoop undoing h, trivial⟩
  case h_8 commitId flushing =>
    cases h
    exact ⟨.flush T, .flush flushing, trivial⟩
  case h_9 outcome unlocking =>
    obtain ⟨t, hunlock, rfl⟩ := Option.map_eq_some_iff.mp h
    exact ⟨.unlock T, .unlock 64 unlocking hunlock, trivial⟩

theorem advance_other {starts : TransactionId → Option Program} (h : advance starts s T = some s') (hU : U ≠ T) :
    s'.phase U = s.phase U := by
  unfold advance at h
  split at h
  case h_1 =>
    obtain ⟨prog, -, rfl⟩ := Option.map_eq_some_iff.mp h
    exact goto_other _ _ U hU
  case h_2 =>
    obtain ⟨-, ⟨⟩⟩ := Option.ite_none_right_eq_some.mp h
    exact (commitCalled s T).here.phase U hU
  case h_3 | h_4 =>
    obtain ⟨-, ⟨⟩⟩ := Option.ite_none_right_eq_some.mp h
    exact goto_other _ _ U hU
  case h_5 =>
    obtain ⟨request, -, h⟩ := Option.bind_eq_some_iff.mp h
    obtain ⟨newLock, -, h⟩ := Option.bind_eq_some_iff.mp h
    obtain ⟨⟨t, answer⟩, -, h⟩ := Option.bind_eq_some_iff.mp h
    cases answer with
    | none =>
      cases h
      exact goto_other _ _ U hU
    | some p =>
      obtain ⟨-, ⟨⟩⟩ := Option.ite_none_right_eq_some.mp h
      exact goto_other _ _ U hU
  case h_6 =>
    obtain ⟨n, -, h⟩ := Option.bind_eq_some_iff.mp h
    obtain ⟨-, h⟩ := Option.ite_none_right_eq_some.mp h
    unfold State.access at h
    split at h <;> cases h <;> exact goto_other _ _ U hU
  case h_7 =>
    unfold State.abortLoop at h
    split at h
    · obtain ⟨db, -, ⟨⟩⟩ := Option.bind_eq_some_iff.mp h
      exact goto_other _ _ U hU
    · cases h
      exact goto_other _ _ U hU
  case h_8 =>
    cases h
    exact goto_other _ _ U hU
  case h_9 =>
    obtain ⟨t, -, rfl⟩ := Option.map_eq_some_iff.mp h
    exact goto_other _ _ U hU

theorem advances_other {starts : TransactionId → Option Program} {Ts : List TransactionId}
    (h : Ts.foldlM (advance starts) s = some s') (hU : ∀ T ∈ Ts, U ≠ T) : s'.phase U = s.phase U := by
  induction Ts generalizing s with
  | nil => rw [Option.some.inj h]
  | cons T Ts ih =>
    obtain ⟨s₁, hT, h⟩ := Option.bind_eq_some_iff.mp h
    rw [ih h fun T hmem => hU T (List.mem_cons_of_mem _ hmem), advance_other hT (hU T List.mem_cons_self)]

/-- Each thread reads record 1 and writes the records 2 and 3, the second thread in the other order. -/
def twoThreads : TransactionId → Option Program
  | 1 => some (.read 1 fun record => .add 2 (record + 1) (.add 3 (-record) .commit))
  | 2 => some (.read 1 fun record => .add 3 (record + 1) (.add 2 (-record) .commit))
  | _ => none

/-- The threads take turns where they can. The first time the second one is refused and rolls back; then
both commit; then both draw an id beyond the limit and stop. -/
def takingTurns : List TransactionId :=
  let turns (n : Nat) : List TransactionId := (List.replicate n [1, 2]).flatten
  turns 6 ++ List.replicate 6 2 ++ turns 8 ++ List.replicate 2 2 ++ turns 3 ++ List.replicate 6 1 ++ List.replicate 9 2

def Phase.outcome : Phase → Option Outcome
  | .idle last => some last
  | _ => none

theorem outcome_eq {ph : Phase} {last : Outcome} : ph.outcome = some last ↔ ph = .idle last := by
  cases ph <;> simp [Phase.outcome]

theorem takingTurns_idle (hs : takingTurns.foldlM (advance twoThreads) (.new 2) = some s)
    (h₁ : (s.phase 1).outcome = some .terminated) (h₂ : (s.phase 2).outcome = some .terminated) (T : TransactionId) :
    ∃ last, s.phase T = .idle last := by
  by_cases hT₁ : T = 1
  · exact ⟨_, hT₁ ▸ outcome_eq.mp h₁⟩
  · by_cases hT₂ : T = 2
    · exact ⟨_, hT₂ ▸ outcome_eq.mp h₂⟩
    · refine ⟨.fresh, advances_other hs fun U hU => ?_⟩
      rcases (show ∀ U ∈ takingTurns, U = 1 ∨ U = 2 by decide) U hU with rfl | rfl
      · exact hT₁
      · exact hT₂

theorem serializable_takingTurns : ∃ s, takingTurns.foldlM (advance twoThreads) (.new 2) = some s ∧
    s.committed.map (fun c => (c.commitId, c.txnId)) = [(1, 1), (2, 2)] ∧
    s.db.records = (replayAll s.inCommitOrder fun _ => 100).2 := by
  have hrun : (takingTurns.foldlM (advance twoThreads) (.new 2)).map (fun s => ((s.phase 1).outcome,
      (s.phase 2).outcome, s.issued, s.committed.map fun c => (c.commitId, c.txnId))) =
      some (some .terminated, some .terminated, 4, [(1, 1), (2, 2)]) := by decide +kernel
  obtain ⟨s, hs, he⟩ := Option.map_eq_some_iff.mp hrun
  simp only [Prod.mk.injEq] at he
  obtain ⟨h₁, h₂, hissued, hcommitted⟩ := he
  have hreach : Reachable (shortRuns 2 anyClient) s :=
    Reachable.foldlM (fun _ _ _ h => step_advance (fun _ _ _ => trivial) h) (.init rfl) hs
  refine ⟨s, hs, hcommitted, (serializable 2 anyClient s hreach (by rw [hissued]; decide)).final fun T hT => ?_⟩
  obtain ⟨last, hlast⟩ := takingTurns_idle hs h₁ h₂ T
  exact hT last hlast

end Transactions
