import HyuIte4065.Lock.Deadlock

/-!
# What a refusal means

The search follows every `prev` edge, also the one between two granted readers, and
counts the requester's own lock as a hit. So not every refused request would have
closed a cycle of waiting transactions; which requests are refused is said exactly.
-/
namespace Lock

open LinkedList Transition
open Relation (ReflTransGen TransGen)

variable {t t' : LockTable} {q : RecordId → List Ptr} {p x y z : Ptr} {n : LockNode}
  {T : TransactionId} {r : RecordId} {m : LockMode} {xs ys l : List Ptr}

/-- What stands between a lock of mode `m` and the lock `y` right ahead of it. -/
inductive Between (t : LockTable) (m : LockMode) (wait : Bool) (y : Ptr) : Prop where
  | conflict : m = .write ∨ t.mode y = .write → Between t m wait y
  | waits : t.locked y = true → Between t m wait y
  | readers : m = .read → t.mode y = .read → wait = false → t.locked y = false → Between t m wait y

/-- The owner of `y` has a lock, requested no earlier than `y`, right behind `z`. -/
def Link (t : LockTable) (y z : Ptr) : Prop :=
  ∃ x, ReflTransGen (fun a b => t.nextInTxn a = some b) y x ∧ t.txn x = t.txn y ∧
    t.prev x = some z ∧ Between t (t.mode x) (t.locked x) z

/-- From the lock `y` that the request of `T` would be put behind, links lead to a lock of `T`.
With `T₁, …, Tₙ` the owners of `y :: ys`, each transaction has a lock right behind one of
the next, and `T = Tₙ`. -/
def Circle (t : LockTable) (T : TransactionId) (r : RecordId) (m : LockMode) : Prop :=
  ∃ l y ys z n, Walk t.next (t.lockPerRecord r).head l ∧ l.getLast? = some y ∧
    Between t m (t.mustWait l m) y ∧ List.IsChain (Link t) (y :: ys) ∧
    (y :: ys).getLast? = some z ∧ t.heap z = some n ∧ n.txnId = T

theorem between_of (hm : m = .read → t.mode y = .read → t.locked y = false → b = false) :
    Between t m b y := by
  cases hl : t.locked y with
  | true => exact .waits hl
  | false =>
    by_cases hc : m = .write ∨ t.mode y = .write
    · exact .conflict hc
    · rw [not_or, ← not_read, ← not_read, not_not, not_not] at hc
      exact .readers hc.1 hc.2 (hm hc.1 hc.2 hl) hl

/-- Behind a granted reader only readers are granted, and all of them are. -/
theorem Orderly.granted_behind (h : Orderly t q) (he : q r = (xs ++ [y]) ++ ys)
    (hy : t.mode y = .read) (hl : t.locked y = false) : ∀ a ∈ xs ++ [y], t.mode a = .read := by
  have hg := (h.exact.flag r xs y ys (by simpa using he)).mp hl
  intro a ha
  rcases List.mem_append.mp ha with ha | ha
  · rcases hg with rfl | ⟨-, hxs⟩
    · simp at ha
    · exact hxs a ha
  · obtain rfl : a = y := by simpa using ha
    exact hy

theorem Orderly.between_prev (h : Orderly t q) (hz : t.prev x = some z) :
    Between t (t.mode x) (t.locked x) z := by
  obtain ⟨n, hn⟩ := edge_live (.inl hz)
  obtain ⟨us, ys, he⟩ := List.append_of_mem ((h.shape.queued n.recordId x).mpr ⟨n, hn, rfl⟩)
  rw [(h.shape.linked n.recordId us x ys he).2] at hz
  obtain ⟨xs, rfl⟩ := List.getLast?_eq_some_iff.mp hz
  refine between_of fun hx hy hl => ?_
  exact (h.exact.flag n.recordId _ x ys he).mpr (.inr ⟨hx, h.granted_behind he hy hl⟩)

theorem Orderly.between_tail (h : Orderly t q) (hy : (q r).getLast? = some y) :
    Between t m (t.mustWait (q r) m) y := by
  obtain ⟨xs, he⟩ := List.getLast?_eq_some_iff.mp hy
  refine between_of fun hm hr hl => ?_
  rw [mustWait_iff, he]
  exact .inr ⟨hm, h.granted_behind (by simpa using he) hr hl⟩

theorem Shape.txn_nextInTxn (h : Shape t q t.lockPerTxn) {a b : Ptr}
    (hab : t.nextInTxn a = some b) : t.txn b = t.txn a := by
  obtain ⟨n, hn⟩ := edge_live (.inr hab)
  obtain ⟨us, vs, he⟩ := List.append_of_mem ((h.owned n.txnId a).mpr ⟨n, hn, rfl⟩)
  rw [h.inTxn n.txnId us a vs he] at hab
  have hb : b ∈ t.lockPerTxn n.txnId := by
    rw [he]
    simp [List.mem_of_head? hab]
  obtain ⟨k, hk, hT⟩ := (h.owned n.txnId b).mp hb
  rw [LockTable.txn_of hn, LockTable.txn_of hk, hT]

theorem Shape.txn_later (h : Shape t q t.lockPerTxn)
    (hyx : ReflTransGen (fun a b => t.nextInTxn a = some b) y x) : t.txn x = t.txn y := by
  induction hyx with
  | refl => rfl
  | tail _ hab ih => exact (h.txn_nextInTxn hab).trans ih

/-- A path of the search is a chain of links followed by a walk along one deque. -/
theorem Orderly.links_of_path (h : Orderly t q) (hyx : ReflTransGen (Edge t) y x) :
    ∃ z, ReflTransGen (Link t) y z ∧ ReflTransGen (fun a b => t.nextInTxn a = some b) z x := by
  induction hyx with
  | refl => exact ⟨y, .refl, .refl⟩
  | @tail a b _ hab ih =>
    obtain ⟨z, hyz, hza⟩ := ih
    rcases hab with hab | hab
    · exact ⟨b, hyz.tail ⟨a, hza, h.shape.txn_later hza, hab, h.between_prev hab⟩, .refl⟩
    · exact ⟨z, hyz, hza.tail hab⟩

theorem path_later (h : ReflTransGen (fun a b => t.nextInTxn a = some b) y x) :
    ReflTransGen (Edge t) y x := by
  induction h with
  | refl => exact .refl
  | tail _ hab ih => exact ih.tail (.inr hab)

theorem path_of_link (h : Link t y z) : ReflTransGen (Edge t) y z := by
  obtain ⟨x, hyx, -, hxz, -⟩ := h
  exact (path_later hyx).tail (.inl hxz)

theorem path_of_links (h : ReflTransGen (Link t) y z) : ReflTransGen (Edge t) y z := by
  induction h with
  | refl => exact .refl
  | tail _ hab ih => exact ih.trans (path_of_link hab)

theorem Orderly.reaches_iff_circle (h : Orderly t q) : Reaches t T r ↔ Circle t T r m := by
  constructor
  · rintro ⟨y, x, n, hy, hyx, hn, hT⟩
    obtain ⟨z, hyz, hzx⟩ := h.links_of_path hyx
    obtain ⟨ys, hc, hz⟩ := List.exists_isChain_cons_of_relationReflTransGen hyz
    rw [h.shape.tail] at hy
    obtain ⟨k, hk⟩ := h.shape.live_path (h.shape.live (List.mem_of_getLast? hy))
      (path_of_links hyz)
    refine ⟨q r, y, ys, z, k, h.shape.walk r, hy, h.between_tail hy, hc, ?_, hk, ?_⟩
    · rw [List.getLast?_eq_some_getLast (by simp), hz]
    · rw [← LockTable.txn_of hk, ← h.shape.txn_later hzx, LockTable.txn_of hn, hT]
  · rintro ⟨l, y, ys, z, n, hl, hy, -, hc, hz, hn, hT⟩
    rw [← (h.shape.walk r).unique hl, ← h.shape.tail] at hy
    have hyz : ReflTransGen (Link t) y z := by
      rw [List.getLast?_eq_some_getLast (by simp)] at hz
      obtain rfl := Option.some.inj hz
      exact List.relationReflTransGen_of_exists_isChain_cons ys hc rfl
    exact ⟨y, z, n, hy, path_of_links hyz, hn, hT⟩

/-- A request is refused exactly when links lead from the lock it would be put behind to a
lock of its own transaction. A transaction that runs alone is refused exactly the records
it already has a lock on. -/
theorem refused_iff_circle (h : Reachable lockSystem t) :
    (∀ T r m, (∃ t', Step t (.lock T r m false) t') ↔ Circle t T r m) ∧
    (∀ T, (∀ x n, t.heap x = some n → n.txnId = T) → ∀ r m,
      (∃ t', Step t (.lock T r m false) t') ↔ ∃ x n, t.heap x = some n ∧ n.recordId = r) := by
  obtain ⟨q, hq⟩ := reachable_orderly h
  have refused : ∀ T r m, (∃ t', Step t (.lock T r m false) t') ↔ Reaches t T r := by
    intro T r m
    simp [hq.toThreaded.refused_iff]
  refine ⟨fun T r m => (refused T r m).trans hq.reaches_iff_circle, fun T alone r m => ?_⟩
  rw [refused]
  constructor
  · rintro ⟨y, -, -, hy, -⟩
    rw [hq.shape.tail] at hy
    obtain ⟨n, hn, hr⟩ := (hq.shape.queued r y).mp (List.mem_of_getLast? hy)
    exact ⟨y, n, hn, hr⟩
  · rintro ⟨x, n, hn, hr⟩
    obtain ⟨z, hz, hzx⟩ := hq.shape.path_tail ((hq.shape.queued r x).mpr ⟨n, hn, hr⟩)
    exact ⟨z, x, n, hz, hzx, hn, alone x n hn⟩

end Lock
