import HyuIte4065.Lock.Unlock

/-!
# The lock table as plain queues

In every reachable state the pointers thread one list per record and one deque per
transaction, the wait-for graph is acyclic and finite, and every call returns. Read as
per-record queues of (transaction, mode), a request appends, a refusal changes nothing,
and `unlock` filters.
-/
namespace Lock

open LinkedList Transition
open Relation (ReflTransGen TransGen)

variable {t t' : LockTable} {q : RecordId → List Ptr} {p x : Ptr} {n : LockNode}
  {T : TransactionId} {r : RecordId} {m : LockMode} {c : Call}

/-- A table whose pointers are threaded and whose wait-for graph a search exhausts. -/
structure Threaded (t : LockTable) (q : RecordId → List Ptr) : Prop where
  shape : Shape t q t.lockPerTxn
  acyclic : Graph.Acyclic (Edge t)
  finite : {x | ∃ n, t.heap x = some n}.Finite

theorem edge_live {a b : Ptr} (h : Edge t a b) : ∃ n, t.heap a = some n := by
  cases hn : t.heap a with
  | none => simp [Edge, LockTable.prev, LockTable.nextInTxn, hn] at h
  | some n => exact ⟨n, rfl⟩

theorem Shape.edge_target (h : Shape t q t.lockPerTxn) {a b : Ptr} (hab : Edge t a b) :
    ∃ n, t.heap b = some n :=
  h.live_path (edge_live hab) (.single hab)

theorem threaded_empty : Threaded .empty fun _ => [] := by
  constructor
  · constructor <;> simp [LockTable.empty, linked_nil]
  · intro a ha
    obtain ⟨b, hab, -⟩ := TransGen.head'_iff.mp ha
    obtain ⟨n, hn⟩ := edge_live hab
    simp [LockTable.empty] at hn
  · simp [LockTable.empty]

theorem appended_live {wait : Bool} {k : LockNode} (hx : x ≠ p)
    (h : (t.appended p m T r wait).heap x = some k) : ∃ n, t.heap x = some n := by
  rcases LockTable.appended_cases h with ⟨he, -⟩ | ⟨-, k, hk, -⟩
  · exact absurd he hx
  · exact ⟨k, hk⟩

/-- An accepted request adds one node between the newest lock of `T` and the tail. -/
theorem Threaded.appended (h : Threaded t q) (fresh : t.heap p = none) (hr : ¬ Reaches t T r)
    (wait : Bool) :
    Threaded (t.appended p m T r wait) (Function.update q r (q r ++ [p])) := by
  have hs := h.shape
  refine ⟨hs.appended fresh (hs.free_of_not_reaches hr) wait, ?_, ?_⟩
  · have live_ne : ∀ {x}, (∃ n, t.heap x = some n) → x ≠ p := by
      rintro x ⟨n, hn⟩ rfl
      simp [fresh] at hn
    have grow : ∀ a b, Edge (t.appended p m T r wait) a b →
        (Edge t a b ∧ a ≠ p ∧ b ≠ p) ∨ (a = p ∧ (t.lockPerRecord r).tail = some b) ∨
        ((t.lockPerTxn T).getLast? = some a ∧ b = p) := by
      intro a b hab
      obtain ⟨k, hk⟩ := edge_live hab
      by_cases hap : a = p
      · subst hap
        rw [Edge, LockTable.prev_of LockTable.appended_new,
          LockTable.nextInTxn_of LockTable.appended_new] at hab
        right; left
        simpa [LockNode.new] using hab
      · obtain ⟨n, hn⟩ := appended_live hap hk
        rw [Edge, LockTable.prev_of (LockTable.appended_old hap hn),
          LockTable.nextInTxn_of (LockTable.appended_old hap hn)] at hab
        rcases hab with hab | hab
        · have he : Edge t a b := .inl (by rw [LockTable.prev_of hn, hab])
          exact .inl ⟨he, hap, live_ne (hs.edge_target he)⟩
        · by_cases hb : (t.lockPerTxn T).getLast? = some a
          · rw [if_pos hb] at hab
            exact .inr (.inr ⟨hb, (Option.some.inj hab).symm⟩)
          · rw [if_neg hb] at hab
            have he : Edge t a b := .inr (by rw [LockTable.nextInTxn_of hn, hab])
            exact .inl ⟨he, hap, live_ne (hs.edge_target he)⟩
    refine h.acyclic.insert grow ?_ ?_ ?_
    · intro hb
      obtain ⟨n, hn, -⟩ := (hs.owned T p).mp (List.mem_of_getLast? hb)
      exact live_ne ⟨n, hn⟩ rfl
    · intro hp
      rw [hs.tail] at hp
      exact live_ne (hs.live (List.mem_of_getLast? hp)) rfl
    · intro s y hback htail hys
      obtain ⟨n, hn, hT⟩ := (hs.owned T s).mp (List.mem_of_getLast? hback)
      exact hr ⟨y, s, n, htail, hys, hn, hT⟩
  · refine (h.finite.insert p).subset ?_
    rintro x ⟨k, hk⟩
    by_cases hx : x = p
    · exact .inl hx
    · exact .inr (appended_live hx hk)

/-- What `unlock` leaves of a node: everything but the links, and the flag may be cleared. -/
def Kept (t t' : LockTable) : Prop :=
  ∀ x k, t'.heap x = some k → ∃ k₀, t.heap x = some k₀ ∧ k.txnId = k₀.txnId ∧
    k.recordId = k₀.recordId ∧ k.lockMode = k₀.lockMode ∧ (k.locked = true → k₀.locked = true)

theorem Kept.released {t₁ : LockTable} {w : List Ptr} {l : LockList} (h : Kept t t₁) :
    Kept t (t₁.released p n w l) := by
  intro x k hx
  obtain ⟨-, k₁, hk₁, hT₁, hr₁, hm₁, -, hl₁⟩ := LockTable.released_cases hx
  obtain ⟨k₀, hk₀, hT, hr, hm, hl⟩ := h x k₁ hk₁
  refine ⟨k₀, hk₀, hT₁.trans hT, hr₁.trans hr, hm₁.trans hm, fun hk => hl ?_⟩
  rw [hl₁] at hk
  exact (Bool.and_eq_true_iff.mp hk).1

theorem Threaded.unlock (h : Threaded t q) {fuel : Nat} (hu : t.unlock fuel T = some t') :
    Threaded t' (fun r => (q r).filter fun x => decide (x ∉ t.lockPerTxn T)) ∧ Kept t t' ∧
    t'.lockPerTxn = Function.update t.lockPerTxn T [] := by
  have start : Graph.Acyclic (Edge t) ∧ Kept t t :=
    ⟨h.acyclic, fun x k hk => ⟨k, hk, rfl, rfl, rfl, id⟩⟩
  obtain ⟨hs, ⟨hE, hk⟩, hd⟩ := h.shape.unlock
    (P := fun t₁ _ _ => Graph.Acyclic (Edge t₁) ∧ Kept t t₁) (by
      rintro t₁ q₁ d₁ p n xs ys rest hs ⟨hE, hk⟩ - hn hq
      exact ⟨hE.of_paths fun a b hab => hs.released_edge hn hq _ _ hab, hk.released⟩)
    (fun _ hP => hP) start hu
  refine ⟨⟨hs, hE, h.finite.subset ?_⟩, hk, hd⟩
  rintro x ⟨k, hx⟩
  obtain ⟨k₀, hk₀, -⟩ := hk x k hx
  exact ⟨k₀, hk₀⟩

/-- Everything a step can do to a threaded table. -/
theorem Threaded.step_cases (h : Threaded t q) (hs : Step t c t') :
    (∃ T r m, c = .lock T r m false ∧ Reaches t T r ∧ t' = t) ∨
    (∃ T r m p, c = .lock T r m true ∧ ¬ Reaches t T r ∧ t.heap p = none ∧
      t' = t.appended p m T r (t.mustWait (q r) m)) ∨
    (∃ T fuel, c = .unlock T ∧ t.unlock fuel T = some t') := by
  cases hs with
  | @refused _ T r m fuel p ha =>
    obtain ⟨hr, rfl⟩ := addLock_refused ha
    exact .inl ⟨T, r, m, rfl, hr, rfl⟩
  | @accepted _ T r m fuel p fresh ha =>
    rcases h.shape.addLock_some fresh ha with ⟨-, hne, -⟩ | ⟨hr, -, he⟩
    · simp at hne
    · exact .inr (.inl ⟨T, r, m, p, rfl, hr, fresh, he⟩)
  | @unlock _ T fuel hu => exact .inr (.inr ⟨T, fuel, rfl, hu⟩)

/-- The record lists after a call, in terms of those before it. -/
theorem Threaded.step (h : Threaded t q) (hs : Step t c t') : ∃ q', Threaded t' q' := by
  rcases h.step_cases hs with ⟨T, r, m, -, -, rfl⟩ | ⟨T, r, m, p, -, hr, fresh, rfl⟩ |
    ⟨T, fuel, -, hu⟩
  · exact ⟨q, h⟩
  · exact ⟨_, h.appended fresh hr _⟩
  · exact ⟨_, (h.unlock hu).1⟩

theorem reachable_threaded (h : Reachable freeSystem t) : ∃ q, Threaded t q := by
  refine h.invariant (I := fun t => ∃ q, Threaded t q) ?_ ?_
  · rintro s rfl
    exact ⟨_, threaded_empty⟩
  · rintro s l s' - ⟨q, hq⟩ hs
    exact hq.step hs

/-! ### Every call returns -/

theorem Threaded.lock_returns (h : Threaded t q) (T : TransactionId) (r : RecordId) (m : LockMode) :
    ∃ accepted t', Step t (.lock T r m accepted) t' := by
  obtain ⟨p, hp⟩ := h.finite.exists_notMem
  have fresh : t.heap p = none := by
    cases hn : t.heap p with
    | none => rfl
    | some n => exact absurd ⟨n, hn⟩ hp
  obtain ⟨fuel, t', res, ha⟩ := h.shape.addLock_returns h.acyclic h.finite fresh T r m
  rcases h.shape.addLock_some fresh ha with ⟨-, rfl, -⟩ | ⟨-, rfl, -⟩
  · exact ⟨false, t', .refused fuel p ha⟩
  · exact ⟨true, t', .accepted fuel p fresh ha⟩

theorem Threaded.unlock_returns (h : Threaded t q) (T : TransactionId) :
    ∃ t', Step t (.unlock T) t' := by
  obtain ⟨fuel, t', hu⟩ := h.shape.unlock_returns T
  exact ⟨t', .unlock fuel hu⟩

/-! ### The abstraction -/

def LockTable.txn (t : LockTable) (p : Ptr) : TransactionId := ((t.heap p).map (·.txnId)).getD 0

theorem LockTable.txn_of (h : t.heap p = some n) : t.txn p = n.txnId := by simp [txn, h]

/-- Per-record queues of (transaction, mode). -/
abbrev Queues := RecordId → List (TransactionId × LockMode)

/-- The queues that one reads off by following `next` from every head. -/
def Abstracts (t : LockTable) (a : Queues) : Prop :=
  ∀ r, ∃ l, Walk t.next (t.lockPerRecord r).head l ∧ a r = l.map fun p => (t.txn p, t.mode p)

/-- What a call means for the queues. -/
def Queues.call (a : Queues) : Call → Queues
  | .lock T r m true => Function.update a r (a r ++ [(T, m)])
  | .lock _ _ _ false => a
  | .unlock T => fun r => (a r).filter fun e => decide (e.1 ≠ T)

theorem Shape.walk {d : TransactionId → List Ptr} (h : Shape t q d) (r : RecordId) :
    Walk t.next (t.lockPerRecord r).head (q r) := by
  rw [h.head]
  exact (h.linked r).walks.1

theorem Shape.abstracts_iff {d : TransactionId → List Ptr} (h : Shape t q d) {a : Queues} :
    Abstracts t a ↔ ∀ r, a r = (q r).map fun p => (t.txn p, t.mode p) := by
  constructor
  · intro ha r
    obtain ⟨l, hl, he⟩ := ha r
    rw [he, hl.unique (h.walk r)]
  · intro ha r
    exact ⟨q r, h.walk r, ha r⟩

/-- The lock table simulates the queues. -/
theorem Threaded.simulates (h : Threaded t q) (hs : Step t c t') {a : Queues} (ha : Abstracts t a) :
    Abstracts t' (a.call c) := by
  have ha := h.shape.abstracts_iff.mp ha
  rcases h.step_cases hs with ⟨T, r, m, rfl, -, rfl⟩ | ⟨T, r, m, p, rfl, hr, fresh, rfl⟩ |
    ⟨T, fuel, rfl, hu⟩
  · exact h.shape.abstracts_iff.mpr ha
  · refine (h.appended fresh hr _).shape.abstracts_iff.mpr fun r' => ?_
    have old : ∀ r', (q r').map (fun x => ((t.appended p m T r (t.mustWait (q r) m)).txn x,
        (t.appended p m T r (t.mustWait (q r) m)).mode x)) =
        (q r').map fun x => (t.txn x, t.mode x) := by
      intro r'
      refine List.map_congr_left fun x hx => ?_
      obtain ⟨n, hn⟩ := h.shape.live hx
      have hne : x ≠ p := by
        rintro rfl
        simp [fresh] at hn
      rw [LockTable.txn_of (LockTable.appended_old hne hn), LockTable.txn_of hn,
        LockTable.appended_mode hne]
    by_cases hrr : r' = r
    · subst hrr
      simp only [Queues.call, Function.update_self, List.map_append, old, ha]
      simp [LockTable.txn_of LockTable.appended_new, LockTable.mode_of LockTable.appended_new,
        LockNode.new]
    · simp only [Queues.call, Function.update_of_ne hrr, old, ha]
  · obtain ⟨h', hk, -⟩ := h.unlock hu
    refine h'.shape.abstracts_iff.mpr fun r => ?_
    simp only [Queues.call, ha, List.filter_map]
    have same : (q r).filter ((fun e : TransactionId × LockMode => decide (e.1 ≠ T)) ∘
        fun x => (t.txn x, t.mode x)) = (q r).filter fun x => decide (x ∉ t.lockPerTxn T) := by
      refine List.filter_congr fun x hx => ?_
      obtain ⟨n, hn⟩ := h.shape.live hx
      have : x ∈ t.lockPerTxn T ↔ n.txnId = T := by
        rw [h.shape.owned T x]
        simp [hn]
      simp [LockTable.txn_of hn, this]
    rw [same]
    refine List.map_congr_left fun x hx => ?_
    obtain ⟨k, hk'⟩ := h'.shape.live hx
    obtain ⟨k₀, hk₀, hT, -, hm, -⟩ := hk x k hk'
    rw [LockTable.txn_of hk', LockTable.txn_of hk₀, LockTable.mode_of hk', LockTable.mode_of hk₀,
      hT, hm]

/-- The two linked structures, pointer by pointer. -/
structure WellLinked (t : LockTable) (q : RecordId → List Ptr) : Prop where
  forward : ∀ r, Walk t.next (t.lockPerRecord r).head (q r)
  backward : ∀ r, Walk t.prev (t.lockPerRecord r).tail (q r).reverse
  oneRecord : ∀ p n, t.heap p = some n → ∀ r, p ∈ q r ↔ r = n.recordId
  oneDeque : ∀ p n, t.heap p = some n → ∀ T, p ∈ t.lockPerTxn T ↔ T = n.txnId
  once : ∀ r, (q r).Nodup
  onceInDeque : ∀ T, (t.lockPerTxn T).Nodup
  single : ∀ p p' n n', t.heap p = some n → t.heap p' = some n' →
    n.txnId = n'.txnId → n.recordId = n'.recordId → p = p'
  inTxn : ∀ T xs p ys, t.lockPerTxn T = xs ++ p :: ys → t.nextInTxn p = ys.head?
  queuedLive : ∀ r, ∀ p ∈ q r, ∃ n, t.heap p = some n ∧ n.recordId = r
  dequeLive : ∀ T, ∀ p ∈ t.lockPerTxn T, ∃ n, t.heap p = some n ∧ n.txnId = T
  pointersLive : ∀ p n, t.heap p = some n → ∀ x,
    n.next = some x ∨ n.prev = some x ∨ n.nextInTxn = some x → ∃ k, t.heap x = some k
  endsLive : ∀ r x, (t.lockPerRecord r).head = some x ∨ (t.lockPerRecord r).tail = some x →
    ∃ k, t.heap x = some k

theorem Shape.wellLinked (h : Shape t q t.lockPerTxn) : WellLinked t q where
  forward := h.walk
  backward r := by
    rw [h.tail]
    exact (h.linked r).walks.2
  oneRecord p n hn r := by
    rw [h.queued]
    simp [hn, eq_comm]
  oneDeque p n hn T := by
    rw [h.owned]
    simp [hn, eq_comm]
  once := h.nodupQueue
  onceInDeque := h.nodupDeque
  single := h.single
  inTxn := h.inTxn
  queuedLive r p hp := (h.queued r p).mp hp
  dequeLive T p hp := (h.owned T p).mp hp
  pointersLive p n hn x hx := by
    rcases hx with hx | hx
    · obtain ⟨us, vs, he⟩ := List.append_of_mem ((h.queued n.recordId p).mpr ⟨n, hn, rfl⟩)
      have hnext := (h.linked n.recordId us p vs he).1
      rw [LockTable.next_of hn, hx] at hnext
      have hm := List.mem_of_head? hnext.symm
      exact h.live (r := n.recordId) (by simp [he, hm])
    · refine h.edge_target (a := p) ?_
      rwa [Edge, LockTable.prev_of hn, LockTable.nextInTxn_of hn]
  endsLive r x hx := by
    rcases hx with hx | hx
    · exact h.live (List.mem_of_head? ((h.head r).symm.trans hx))
    · exact h.live (List.mem_of_getLast? ((h.tail r).symm.trans hx))

/-- In every reachable state the pointers of the table are plain queues, every call
returns, and it does to the queues what it says. -/
theorem lockTable_refines_queues (h : Reachable freeSystem t) :
    (∃ q, WellLinked t q) ∧ (∃ a, Abstracts t a) ∧
    (∀ T r m, ∃ accepted t', Step t (.lock T r m accepted) t') ∧
    (∀ T, ∃ t', Step t (.unlock T) t') ∧
    (∀ T r m t', Step t (.lock T r m false) t' → t' = t) ∧
    ∀ c t' a, Step t c t' → Abstracts t a → Abstracts t' (a.call c) := by
  obtain ⟨q, hq⟩ := reachable_threaded h
  refine ⟨⟨q, hq.shape.wellLinked⟩, ⟨_, hq.shape.abstracts_iff.mpr fun r => rfl⟩,
    hq.lock_returns, hq.unlock_returns, ?_, fun c t' a hs ha => hq.simulates hs ha⟩
  intro T r m t' hs
  cases hs with
  | refused fuel p ha => exact (addLock_refused ha).2

/-- A writer of transaction 2 behind a reader of transaction 1. -/
def writerBehindReader : LockTable :=
  let t := ((LockTable.empty.addLock 2 0 1 5 .read).map (·.1)).getD .empty
  ((t.addLock 6 1 2 5 .write).map (·.1)).getD t

theorem writerBehindReader_reachable : Reachable freeSystem writerBehindReader :=
  .step (.lock 2 5 .write true)
    (.step (.lock 1 5 .read true) (.init rfl) (.accepted 2 0 rfl rfl)) (.accepted 6 1 rfl rfl)

theorem lockTable_refines_queues_writerBehindReader :
    (∃ q, WellLinked writerBehindReader q) ∧
    ∀ t' a, Step writerBehindReader (.unlock 1) t' → Abstracts writerBehindReader a →
      Abstracts t' fun r => (a r).filter fun e => decide (e.1 ≠ 1) := by
  obtain ⟨hq, -, -, -, -, hs⟩ := lockTable_refines_queues writerBehindReader_reachable
  exact ⟨hq, fun t' a => hs (.unlock 1) t' a⟩

/-- The search keeps no record of what it has seen, and still it returns after finitely many
turns: in every reachable state the graph that it walks has no cycle. -/
theorem checkDeadlock_decides (h : Reachable freeSystem t) :
    Graph.Acyclic (Edge t) ∧ ∀ T r, ∃ b n,
      (∀ fuel, n ≤ fuel → t.checkDeadlock fuel T r = some b) ∧ (b = true ↔ Reaches t T r) := by
  obtain ⟨q, hq⟩ := reachable_threaded h
  refine ⟨hq.acyclic, fun T r => ?_⟩
  obtain ⟨n, b, hb⟩ := hq.shape.checkDeadlock_returns hq.acyclic hq.finite T r
  exact ⟨b, n, fun fuel hle => Search.search_mono hle hb, checkDeadlock_iff hb⟩

theorem checkDeadlock_decides_writerBehindReader :
    Graph.Acyclic (Edge writerBehindReader) ∧
    (∃ n, ∀ fuel, n ≤ fuel → writerBehindReader.checkDeadlock fuel 1 5 = some true) ∧
    Reaches writerBehindReader 1 5 := by
  obtain ⟨hacyclic, hsearch⟩ := checkDeadlock_decides writerBehindReader_reachable
  obtain ⟨b, n, hreturns, hiff⟩ := hsearch 1 5
  have hfound : writerBehindReader.checkDeadlock 3 1 5 = some true := rfl
  obtain rfl : b = true := by
    have hmore := Search.search_mono (Nat.le_max_right n 3) hfound
    rw [← LockTable.checkDeadlock, hreturns _ (Nat.le_max_left n 3)] at hmore
    exact Option.some.inj hmore
  exact ⟨hacyclic, ⟨n, hreturns⟩, hiff.mp rfl⟩

end Lock
