import HyuIte4065.Lock.Grant
import Mathlib.Data.List.Chain

/-!
# Deadlock freedom, and what a refusal means

No order of requests and releases builds a cycle of waiting transactions, because the
search of `checkDeadlock` follows every edge that could be part of one. It follows more
than that: the last part says exactly which requests are refused.
-/
namespace Lock

open LinkedList Transition
open Relation (ReflTransGen TransGen)

variable {t t' : LockTable} {q : RecordId → List Ptr} {p x y z : Ptr} {n : LockNode}
  {T U : TransactionId} {r : RecordId} {m : LockMode} {xs ys : List Ptr}

/-- `T` has a waiting lock and `U` has a lock ahead of it in the same record list. -/
def WaitsFor (t : LockTable) (T U : TransactionId) : Prop :=
  ∃ r xs x ys y, Walk t.next (t.lockPerRecord r).head (xs ++ x :: ys) ∧ y ∈ xs ∧
    t.locked x = true ∧ t.txn x = T ∧ t.txn y = U

/-- Waiting behind the locks of `r` would make `T` wait for itself. -/
def CompletesCycle (t : LockTable) (T : TransactionId) (r : RecordId) : Prop :=
  ∃ l y, Walk t.next (t.lockPerRecord r).head l ∧ y ∈ l ∧ ReflTransGen (WaitsFor t) (t.txn y) T

/-- From any of its locks the search reaches the newest lock of a transaction. -/
theorem Shape.path_newest (h : Shape t q t.lockPerTxn) (hz : (t.lockPerTxn T).getLast? = some z)
    (hx : x ∈ t.lockPerTxn T) : ReflTransGen (Edge t) x z := by
  obtain ⟨us, vs, he⟩ := List.append_of_mem hx
  clear hx
  induction vs generalizing us x with
  | nil =>
    rw [he, List.getLast?_concat] at hz
    obtain rfl := Option.some.inj hz
    exact .refl
  | cons v vs ih =>
    have hv : Edge t x v := by
      right
      rw [h.inTxn T us x (v :: vs) he]
      rfl
    exact .head hv (ih (us ++ [x]) (by simp [he]))

theorem Shape.newest_of_live (h : Shape t q t.lockPerTxn) (hx : t.heap x = some n) :
    ∃ z, (t.lockPerTxn n.txnId).getLast? = some z ∧ ReflTransGen (Edge t) x z := by
  have hm := (h.owned n.txnId x).mpr ⟨n, hx, rfl⟩
  have hne : t.lockPerTxn n.txnId ≠ [] := fun he => by simp [he] at hm
  have hz := List.getLast?_eq_some_getLast hne
  exact ⟨_, hz, h.path_newest hz hm⟩

/-- Waiting is a path between newest locks. -/
theorem Orderly.waitsFor_path (h : Orderly t q) (hw : WaitsFor t T U) :
    ∃ x y, (t.lockPerTxn T).getLast? = some x ∧ (t.lockPerTxn U).getLast? = some y ∧
      TransGen (Edge t) x y := by
  obtain ⟨r, xs, x, ys, y, hl, hy, hx, rfl, rfl⟩ := hw
  have he := (h.shape.walk r).unique hl
  obtain ⟨n, hn⟩ := h.shape.live (r := r) (p := x) (by simp [he])
  obtain ⟨k, hk⟩ := h.shape.live (r := r) (p := y) (by simp [he, hy])
  have hnewest := h.exact.newest x n hn (by rwa [LockTable.locked_of hn] at hx)
  obtain ⟨z, hz, hyz⟩ := h.shape.newest_of_live hk
  rw [LockTable.txn_of hn, LockTable.txn_of hk]
  exact ⟨x, z, hnewest, hz, (h.shape.path_ahead he hy).trans_left hyz⟩

theorem Orderly.waitsFor_paths (h : Orderly t q) (hw : TransGen (WaitsFor t) T U) :
    ∃ x y, (t.lockPerTxn T).getLast? = some x ∧ (t.lockPerTxn U).getLast? = some y ∧
      TransGen (Edge t) x y := by
  induction hw with
  | single hw => exact h.waitsFor_path hw
  | tail _ hw ih =>
    obtain ⟨x, y, hx, hy, hxy⟩ := ih
    obtain ⟨y', z, hy', hz, hyz⟩ := h.waitsFor_path hw
    obtain rfl := Option.some.inj (hy.symm.trans hy')
    exact ⟨x, z, hx, hz, hxy.trans hyz⟩

theorem Orderly.waitsFor_acyclic (h : Orderly t q) : Graph.Acyclic (WaitsFor t) := by
  intro T hT
  obtain ⟨x, y, hx, hy, hxy⟩ := h.waitsFor_paths hT
  obtain rfl := Option.some.inj (hx.symm.trans hy)
  exact h.acyclic x hxy

/-- Behind every waiting transaction stands one that holds a granted lock and runs. -/
theorem Orderly.runner (h : Orderly t q) (hw : t.Waiting T) :
    ∃ y k, t.heap y = some k ∧ k.locked = false ∧ ¬ t.Waiting k.txnId := by
  have wf := h.acyclic.wellFounded h.finite fun a b => edge_live
  obtain ⟨x, n, hx, hn, hl⟩ := hw
  induction x using wf.transGen.induction generalizing T n with
  | _ x ih =>
  obtain ⟨xs, ys, he⟩ := List.append_of_mem ((h.shape.queued n.recordId x).mpr ⟨n, hn, rfl⟩)
  cases xs with
  | nil =>
    have hg := (h.exact.flag n.recordId [] x ys he).mpr (.inl rfl)
    rw [LockTable.locked_of hn, hl] at hg
    contradiction
  | cons a xs =>
    -- the head of the list is granted; its owner runs or waits further ahead
    obtain ⟨k, hk⟩ := h.shape.live (r := n.recordId) (p := a) (by simp [he])
    have hg := (h.exact.flag n.recordId [] a (xs ++ x :: ys) (by simp [he])).mpr (.inl rfl)
    rw [LockTable.locked_of hk] at hg
    by_cases hw : t.Waiting k.txnId
    · obtain ⟨z, j, hz, hj, hjl⟩ := hw
      have haz := h.shape.path_newest hz ((h.shape.owned _ a).mpr ⟨k, hk, rfl⟩)
      have hxz := (h.shape.path_ahead he (by simp : a ∈ a :: xs)).trans_left haz
      exact ih z (Relation.transGen_swap.mpr hxz) j hz hj hjl
    · exact ⟨a, k, hk, hg, hw⟩

/-- From the tail the search reaches every lock of the list. -/
theorem Shape.path_tail (h : Shape t q t.lockPerTxn) (hy : y ∈ q r) :
    ∃ z, (t.lockPerRecord r).tail = some z ∧ ReflTransGen (Edge t) z y := by
  rcases List.eq_nil_or_concat' (q r) with he | ⟨us, z, he⟩
  · simp [he] at hy
  · refine ⟨z, by rw [h.tail, he, List.getLast?_concat], ?_⟩
    rw [he] at hy
    rcases List.mem_append.mp hy with hy | hy
    · exact (h.path_ahead he hy).to_reflTransGen
    · obtain rfl : y = z := by simpa using hy
      exact .refl

theorem Orderly.reaches_of_cycle (h : Orderly t q) (hc : CompletesCycle t T r) : Reaches t T r := by
  obtain ⟨l, y, hl, hy, hyT⟩ := hc
  rw [← (h.shape.walk r).unique hl] at hy
  obtain ⟨k, hk⟩ := h.shape.live hy
  obtain ⟨z, hz, hzy⟩ := h.shape.path_tail hy
  rw [LockTable.txn_of hk] at hyT
  rcases Relation.reflTransGen_iff_eq_or_transGen.mp hyT with he | hyT
  · exact ⟨z, y, k, hz, hzy, hk, he.symm⟩
  · obtain ⟨a, b, ha, hb, hab⟩ := h.waitsFor_paths hyT
    have hya := h.shape.path_newest ha ((h.shape.owned _ y).mpr ⟨k, hk, rfl⟩)
    obtain ⟨j, hj, hT⟩ := (h.shape.owned T b).mp (List.mem_of_getLast? hb)
    exact ⟨z, b, j, hz, (hzy.trans hya).trans hab.to_reflTransGen, hj, hT⟩

/-! ### Requests and the search -/

/-- The two answers of a request, decided by the search alone. -/
theorem Threaded.refused_iff (h : Threaded t q) :
    Step t (.lock T r m false) t' ↔ Reaches t T r ∧ t' = t := by
  constructor
  · intro hs
    cases hs with
    | refused fuel p ha => exact addLock_refused ha
  · rintro ⟨hr, rfl⟩
    obtain ⟨accepted, t₁, hs⟩ := h.lock_returns T r m
    cases accepted with
    | false =>
      cases hs with
      | refused fuel p ha =>
        obtain ⟨-, rfl⟩ := addLock_refused ha
        exact .refused fuel p ha
    | true =>
      cases hs with
      | accepted fuel p fresh ha =>
        rcases h.shape.addLock_some fresh ha with ⟨-, hne, -⟩ | ⟨hr', -⟩
        · simp at hne
        · exact absurd hr hr'

theorem Threaded.accepted (h : Threaded t q) (fresh : t.heap p = none) (hr : ¬ Reaches t T r)
    (m : LockMode) :
    Step t (.lock T r m true) (t.appended p m T r (t.mustWait (q r) m)) := by
  obtain ⟨fuel, t₁, res, ha⟩ := h.shape.addLock_returns h.acyclic h.finite fresh T r m
  rcases h.shape.addLock_some fresh ha with ⟨hr', -⟩ | ⟨-, rfl, rfl⟩
  · exact absurd hr' hr
  · exact .accepted fuel p fresh ha

theorem Threaded.not_accepted (h : Threaded t q) (hr : Reaches t T r) :
    ¬ Step t (.lock T r m true) t' := by
  intro hs
  cases hs with
  | accepted fuel p fresh ha =>
    rcases h.shape.addLock_some fresh ha with ⟨-, hne, -⟩ | ⟨hr', -⟩
    · simp at hne
    · exact hr' hr

/-- No cycle of waiting transactions is reachable, some holder of a granted lock always runs,
and a request that would complete a cycle is refused. -/
theorem deadlock_free (h : Reachable lockSystem t) :
    Graph.Acyclic (WaitsFor t) ∧
    (∀ T, t.Waiting T → ∃ y k, t.heap y = some k ∧ k.locked = false ∧ ¬ t.Waiting k.txnId) ∧
    (∀ T r, CompletesCycle t T r → (∃ fuel, t.checkDeadlock fuel T r = some true) ∧
      ∀ m t', ¬ Step t (.lock T r m true) t') := by
  obtain ⟨q, hq⟩ := reachable_orderly h
  refine ⟨hq.waitsFor_acyclic, fun T => hq.runner, fun T r hc => ?_⟩
  have hr := hq.reaches_of_cycle hc
  obtain ⟨fuel, b, hb⟩ := hq.shape.checkDeadlock_returns hq.acyclic hq.finite T r
  refine ⟨⟨fuel, ?_⟩, fun m t' => hq.toThreaded.not_accepted hr⟩
  rw [hb, (checkDeadlock_iff hb).mpr hr]

theorem deadlock_free_writerBehindReader :
    Graph.Acyclic (WaitsFor writerBehindReader) ∧
    (∃ y k, writerBehindReader.heap y = some k ∧ k.locked = false ∧
      ¬ writerBehindReader.Waiting k.txnId) ∧
    ∀ m t', ¬ Step writerBehindReader (.lock 1 5 m true) t' := by
  obtain ⟨hA, hR, hC⟩ := deadlock_free writerBehindReader_orderly
  have hl : Walk writerBehindReader.next (some 0) [0, 1] := .cons (.cons .nil)
  have hw : WaitsFor writerBehindReader 2 1 := ⟨5, [0], 1, [], 0, hl, by simp, rfl, rfl, rfl⟩
  exact ⟨hA, hR 2 ⟨1, _, rfl, rfl, rfl⟩, (hC 1 5 ⟨[0, 1], 1, hl, by simp, .single hw⟩).2⟩

end Lock
