import HyuIte4065.Lock.Append

/-!
# The deadlock search

`checkDeadlock` follows `prev` and `nextInTxn`. It answers whether a lock of the given
transaction can be reached from the tail, and it returns when this graph is acyclic.
-/
namespace Lock

open LinkedList

variable {t t' : LockTable} {q : RecordId → List Ptr} {p : Ptr} {n : LockNode}
  {T : TransactionId} {r : RecordId} {m : LockMode}

/-- The wait-for graph that `checkDeadlock` follows. -/
def Edge (t : LockTable) (p x : Ptr) : Prop := t.prev p = some x ∨ t.nextInTxn p = some x

open Relation (ReflTransGen TransGen)

/-- A lock of `T` can be reached from the tail of the list of `r`. -/
def Reaches (t : LockTable) (T : TransactionId) (r : RecordId) : Prop :=
  ∃ y x n, (t.lockPerRecord r).tail = some y ∧ ReflTransGen (Edge t) y x ∧
    t.heap x = some n ∧ n.txnId = T

theorem visit_edge {x : Ptr} {a : Option Ptr} :
    Search.Edge (t.visit T) (some x) a ↔ ∃ n, t.heap x = some n ∧ (a = n.prev ∨ a = n.nextInTxn) := by
  simp only [Search.Edge, LockTable.visit, Option.map_eq_some_iff, Prod.mk.injEq]
  constructor
  · rintro ⟨hit, next, ⟨n, hn, -, rfl⟩, ha⟩
    exact ⟨n, hn, by simpa using ha⟩
  · rintro ⟨n, hn, ha⟩
    exact ⟨_, _, ⟨n, hn, rfl, rfl⟩, by simpa using ha⟩

theorem not_visit_edge_none {a : Option Ptr} : ¬ Search.Edge (t.visit T) none a := by
  rintro ⟨hit, next, h, ha⟩
  obtain ⟨-, rfl⟩ : false = hit ∧ [] = next := by simpa [LockTable.visit] using h
  simp at ha

theorem visit_hit {x : Ptr} : Search.Hit (t.visit T) (some x) ↔ ∃ n, t.heap x = some n ∧ n.txnId = T := by
  simp only [Search.Hit, LockTable.visit, Option.map_eq_some_iff, Prod.mk.injEq, decide_eq_true_eq]
  constructor
  · rintro ⟨next, n, hn, hT, -⟩
    exact ⟨n, hn, hT⟩
  · rintro ⟨n, hn, hT⟩
    exact ⟨_, n, hn, hT, rfl⟩

theorem edge_visit {x y : Ptr} (h : Edge t x y) : Search.Edge (t.visit T) (some x) (some y) := by
  cases hn : t.heap x with
  | none => simp [Edge, LockTable.prev, LockTable.nextInTxn, hn] at h
  | some n =>
    rw [Edge, LockTable.prev_of hn, LockTable.nextInTxn_of hn] at h
    refine visit_edge.mpr ⟨n, hn, ?_⟩
    rcases h with h | h
    · exact .inl h.symm
    · exact .inr h.symm

/-- The paths of the search that end at a lock are the paths of the wait-for graph. -/
theorem visit_path {x y : Ptr} (h : ReflTransGen (Search.Edge (t.visit T)) (some x) (some y)) :
    ReflTransGen (Edge t) x y := by
  suffices ∀ a b, ReflTransGen (Search.Edge (t.visit T)) a b → ∀ x y, a = some x → b = some y →
      ReflTransGen (Edge t) x y from this _ _ h x y rfl rfl
  intro a b hab
  induction hab with
  | refl =>
    intro x y hx hy
    obtain rfl := Option.some.inj (hx.symm.trans hy)
    exact .refl
  | @tail b c _ hbc ih =>
    intro x y hx hy
    cases b with
    | none => exact absurd hbc not_visit_edge_none
    | some b =>
      subst hy
      obtain ⟨n, hn, he⟩ := visit_edge.mp hbc
      refine (ih x b hx rfl).tail ?_
      rcases he with he | he
      · exact .inl (by rw [LockTable.prev_of hn, he])
      · exact .inr (by rw [LockTable.nextInTxn_of hn, he])

theorem path_visit {x y : Ptr} (h : ReflTransGen (Edge t) x y) :
    ReflTransGen (Search.Edge (t.visit T)) (some x) (some y) := by
  induction h with
  | refl => exact .refl
  | tail _ h ih => exact ih.tail (edge_visit h)

/-- The answer of the search, whenever it returns. -/
theorem checkDeadlock_iff {fuel : Nat} {b : Bool} (h : t.checkDeadlock fuel T r = some b) :
    b = true ↔ Reaches t T r := by
  rw [Search.search_iff h]
  constructor
  · rintro ⟨a, ha, c, hac, hc⟩
    obtain rfl : a = (t.lockPerRecord r).tail := by simpa using ha
    cases c with
    | none =>
      obtain ⟨next, hn⟩ := hc
      simp [LockTable.visit] at hn
    | some x =>
      obtain ⟨n, hn, hT⟩ := visit_hit.mp hc
      cases ht : (t.lockPerRecord r).tail with
      | none =>
        rw [ht] at hac
        rcases hac.cases_head with he | ⟨d, hd, -⟩
        · simp at he
        · exact absurd hd not_visit_edge_none
      | some y => exact ⟨y, x, n, ht, visit_path (ht ▸ hac), hn, hT⟩
  · rintro ⟨y, x, n, ht, hyx, hn, hT⟩
    exact ⟨some y, by simp [ht], some x, path_visit hyx, visit_hit.mpr ⟨n, hn, hT⟩⟩

theorem Shape.live_path (h : Shape t q t.lockPerTxn) {x y : Ptr} (hx : ∃ n, t.heap x = some n)
    (hxy : ReflTransGen (Edge t) x y) : ∃ n, t.heap y = some n := by
  induction hxy with
  | refl => exact hx
  | @tail a b _ hab ih =>
    obtain ⟨n, hn⟩ := ih
    rcases hab with hab | hab
    · obtain ⟨us, vs, he⟩ := List.append_of_mem ((h.queued n.recordId a).mpr ⟨n, hn, rfl⟩)
      rw [(h.linked n.recordId us a vs he).2] at hab
      have hm := List.mem_of_getLast? hab
      exact h.live (r := n.recordId) (by simp [he, hm])
    · obtain ⟨us, vs, he⟩ := List.append_of_mem ((h.owned n.txnId a).mpr ⟨n, hn, rfl⟩)
      rw [h.inTxn n.txnId us a vs he] at hab
      have hm := List.mem_of_head? hab
      obtain ⟨k, hk, -⟩ := (h.owned n.txnId b).mp (by simp [he, hm])
      exact ⟨k, hk⟩

/-- On an acyclic wait-for graph the search returns. -/
theorem Shape.checkDeadlock_returns (h : Shape t q t.lockPerTxn) (hE : Graph.Acyclic (Edge t))
    (fin : {x | ∃ n, t.heap x = some n}.Finite) (T : TransactionId) (r : RecordId) :
    ∃ fuel b, t.checkDeadlock fuel T r = some b := by
  have source : ∀ a b, Edge t a b → a ∈ {x | ∃ n, t.heap x = some n} := by
    intro a b hab
    cases hn : t.heap a with
    | none => simp [Edge, LockTable.prev, LockTable.nextInTxn, hn] at hab
    | some n => exact ⟨n, hn⟩
  have wf := hE.wellFounded fin source
  have wf' : WellFounded fun b a => Search.Edge (t.visit T) a b := by
    have accNone : Acc (fun b a => Search.Edge (t.visit T) a b) none :=
      ⟨none, fun b hb => absurd hb not_visit_edge_none⟩
    have acc : ∀ x, Acc (fun b a => Search.Edge (t.visit T) a b) (some x) := by
      intro x
      induction x using wf.induction with
      | _ x ih =>
      refine ⟨some x, fun b hb => ?_⟩
      cases b with
      | none => exact accNone
      | some y =>
        obtain ⟨n, hn, he⟩ := visit_edge.mp hb
        refine ih y ?_
        rcases he with he | he
        · exact .inl (by rw [LockTable.prev_of hn, he])
        · exact .inr (by rw [LockTable.nextInTxn_of hn, he])
    refine ⟨fun a => ?_⟩
    cases a with
    | none => exact accNone
    | some x => exact acc x
  refine Search.search_terminates wf' ?_
  intro a ha b hab
  cases b with
  | none => rfl
  | some y =>
    obtain rfl : a = (t.lockPerRecord r).tail := by simpa using ha
    cases ht : (t.lockPerRecord r).tail with
    | none =>
      rw [ht] at hab
      rcases hab.cases_head with he | ⟨d, hd, -⟩
      · simp at he
      · exact absurd hd not_visit_edge_none
    | some x =>
      have hx : x ∈ q r := List.mem_of_getLast? (by rw [← h.tail, ht])
      obtain ⟨n, hn⟩ := h.live_path (h.live hx) (visit_path (ht ▸ hab))
      simp [LockTable.visit, hn]

/-- From a lock the search reaches every lock ahead of it in its list. -/
theorem Shape.path_ahead (h : Shape t q t.lockPerTxn) {x y : Ptr} {xs ys : List Ptr}
    (hq : q r = xs ++ y :: ys) (hx : x ∈ xs) : TransGen (Edge t) y x := by
  induction xs using List.reverseRecOn generalizing y ys with
  | nil => simp at hx
  | append_singleton xs a ih =>
    have hya : Edge t y a := by
      left
      rw [(h.linked r _ y ys hq).2, List.getLast?_concat]
    rcases List.mem_append.mp hx with hx | hx
    · exact .head hya (ih (by simpa using hq) hx)
    · obtain rfl : x = a := by simpa using hx
      exact .single hya

/-- A request that is not refused is for a record the transaction has no lock on. -/
theorem Shape.free_of_not_reaches (h : Shape t q t.lockPerTxn) (hr : ¬ Reaches t T r) :
    ∀ x n, t.heap x = some n → n.txnId = T → n.recordId ≠ r := by
  intro x n hn hT hx
  have hm : x ∈ q r := (h.queued r x).mpr ⟨n, hn, hx⟩
  rcases List.eq_nil_or_concat' (q r) with he | ⟨zs, z, he⟩
  · simp [he] at hm
  · have ht : (t.lockPerRecord r).tail = some z := by rw [h.tail, he, List.getLast?_concat]
    refine hr ⟨z, x, n, ht, ?_, hn, hT⟩
    rw [he] at hm
    rcases List.mem_append.mp hm with hm | hm
    · exact (h.path_ahead he hm).to_reflTransGen
    · obtain rfl : x = z := by simpa using hm
      exact .refl

/-- The walk of `addReaderLock` over the list with the new READ lock at its tail. -/
theorem Shape.findWrite_connected (h : Shape t q t.lockPerTxn) (fresh : t.heap p = none)
    (free : ∀ x n, t.heap x = some n → n.txnId = T → n.recordId ≠ r) {fuel : Nat}
    (hfuel : (q r).length + 1 < fuel) :
    (t.connected p .read T r false).findWrite fuel (some p) = some (t.mustWait (q r) .read) := by
  have hs := h.appended (m := .read) fresh free false
  have hlinked : Linked (t.connected p .read T r false).next (t.connected p .read T r false).prev
      (q r ++ [p]) := by
    have := hs.linked r
    rwa [Function.update_self] at this
  have hwalk : Walk (t.connected p .read T r false).prev (some p) (p :: (q r).reverse) := by
    simpa using hlinked.walks.2
  have live : ∀ x ∈ p :: (q r).reverse, ∃ n, (t.connected p .read T r false).heap x = some n := by
    intro x hx
    have hx' : x ∈ Function.update q r (q r ++ [p]) r := by
      rw [Function.update_self]
      simpa [or_comm] using hx
    exact hs.live hx'
  rw [LockTable.findWrite_eq hwalk live (by simpa using hfuel)]
  have hmode : ∀ x ∈ (q r).reverse, (t.connected p .read T r false).mode x = t.mode x := by
    intro x hx
    refine LockTable.appended_mode ?_
    rintro rfl
    obtain ⟨n, hn⟩ := h.live (List.mem_reverse.mp hx)
    simp [fresh] at hn
  have hp : (t.connected p .read T r false).mode p = .read := by
    simp [LockTable.mode, LockTable.connected, LockNode.new]
  simp only [List.any_cons, hp, LockTable.mustWait, reduceCtorEq, decide_false, Bool.false_or,
    List.any_reverse]
  rw [Option.some.injEq, Bool.eq_iff_iff, List.any_eq_true, List.any_eq_true]
  refine exists_congr fun x => and_congr_right fun hx => ?_
  rw [hmode x (by simpa using hx)]

/-- What an accepted request leaves behind, once its walk has set the flag. -/
theorem connected_pushBack (wait : Bool) (t : LockTable) (p : Ptr) (m : LockMode) (T : TransactionId)
    (r : RecordId) (behind : Bool) (hb : (behind && (t.lockPerRecord r).tail.isSome) = wait) :
    (t.connected p m T r behind).pushBack T p = t.appended p m T r wait := by
  subst hb
  rfl

theorem Shape.back_live (h : Shape t q t.lockPerTxn) (T : TransactionId) :
    ∀ x, (t.lockPerTxn T).getLast? = some x → ∃ n, t.heap x = some n := by
  intro x hx
  obtain ⟨n, hn, -⟩ := (h.owned T x).mp (List.mem_of_getLast? hx)
  exact ⟨n, hn⟩

theorem Shape.tail_live (h : Shape t q d) (r : RecordId) :
    ∀ x, (t.lockPerRecord r).tail = some x → ∃ n, t.heap x = some n := by
  intro x hx
  exact h.live (List.mem_of_getLast? ((h.tail r).symm.trans hx))

theorem Shape.addReaderLock_some (h : Shape t q t.lockPerTxn) (fresh : t.heap p = none) {fuel : Nat}
    {res : Option Ptr} (ha : t.addReaderLock fuel p T r = some (t', res)) :
    (Reaches t T r ∧ res = none ∧ t' = t) ∨
    (¬ Reaches t T r ∧ res = some p ∧ t' = t.appended p .read T r (t.mustWait (q r) .read)) := by
  simp only [LockTable.addReaderLock, Option.bind_eq_bind, Option.bind_eq_some_iff,
    Option.pure_def] at ha
  obtain ⟨b, hb, ha⟩ := ha
  have hiff := checkDeadlock_iff hb
  cases b with
  | true =>
    obtain ⟨rfl, rfl⟩ : t = t' ∧ none = res := by simpa using ha
    exact .inl ⟨hiff.mp rfl, rfl, rfl⟩
  | false =>
    have hr : ¬ Reaches t T r := by simpa using hiff
    have free := h.free_of_not_reaches hr
    simp only [Bool.false_eq_true, if_false,
      LockTable.connect_eq false fresh (h.back_live T) (h.tail_live r), Option.bind_some] at ha
    obtain ⟨w, hw, ha⟩ := Option.bind_eq_some_iff.mp ha
    have htl : ((t.connected p .read T r false).lockPerRecord r).tail = some p := by
      simp [LockTable.connected]
    rw [htl] at hw
    have hfw := h.findWrite_connected (T := T) fresh free (Nat.le_max_right fuel ((q r).length + 2))
    obtain rfl : w = t.mustWait (q r) .read := by
      rw [LockTable.findWrite_mono (Nat.le_max_left fuel ((q r).length + 2)) hw] at hfw
      exact Option.some.inj hfw
    refine .inr ⟨hr, ?_⟩
    cases hm : t.mustWait (q r) .read with
    | false =>
      obtain ⟨rfl, rfl⟩ : _ = t' ∧ some p = res := by simpa [hm] using ha
      exact ⟨rfl, connected_pushBack false t p .read T r false rfl⟩
    | true =>
      have hp : (t.connected p .read T r false).heap p = some { LockNode.new .read T r with
          prev := (t.lockPerRecord r).tail, locked := false } := by simp [LockTable.connected]
      obtain ⟨rfl, rfl⟩ : _ = t' ∧ some p = res := by
        simpa [hm, LockTable.modify_eq hp] using ha
      refine ⟨rfl, ?_⟩
      simp only [LockTable.connected, LockTable.appended, LockTable.pushBack]
      congr 1
      funext x
      by_cases hx : x = p <;> simp [hx]

theorem Shape.addWriterLock_some (h : Shape t q t.lockPerTxn) (fresh : t.heap p = none) {fuel : Nat}
    {res : Option Ptr} (ha : t.addWriterLock fuel p T r = some (t', res)) :
    (Reaches t T r ∧ res = none ∧ t' = t) ∨
    (¬ Reaches t T r ∧ res = some p ∧ t' = t.appended p .write T r (t.mustWait (q r) .write)) := by
  simp only [LockTable.addWriterLock, Option.bind_eq_bind, Option.bind_eq_some_iff,
    Option.pure_def] at ha
  obtain ⟨b, hb, ha⟩ := ha
  have hiff := checkDeadlock_iff hb
  cases b with
  | true =>
    obtain ⟨rfl, rfl⟩ : t = t' ∧ none = res := by simpa using ha
    exact .inl ⟨hiff.mp rfl, rfl, rfl⟩
  | false =>
    have hr : ¬ Reaches t T r := by simpa using hiff
    simp only [Bool.false_eq_true, if_false,
      LockTable.connect_eq true fresh (h.back_live T) (h.tail_live r)] at ha
    obtain ⟨rfl, rfl⟩ : _ = t' ∧ some p = res := by simpa using ha
    refine .inr ⟨hr, rfl, connected_pushBack _ t p .write T r true ?_⟩
    rw [h.tail]
    cases q r <;> simp [LockTable.mustWait]

/-- A request that returns a lock was not refused, and leaves the closed form. -/
theorem Shape.addLock_some (h : Shape t q t.lockPerTxn) (fresh : t.heap p = none) {fuel : Nat}
    {res : Option Ptr} (ha : t.addLock fuel p T r m = some (t', res)) :
    (Reaches t T r ∧ res = none ∧ t' = t) ∨
    (¬ Reaches t T r ∧ res = some p ∧ t' = t.appended p m T r (t.mustWait (q r) m)) := by
  cases m with
  | read => exact h.addReaderLock_some fresh ha
  | write => exact h.addWriterLock_some fresh ha

/-- A refusal comes from the search alone and changes nothing. -/
theorem addLock_refused {fuel : Nat} (ha : t.addLock fuel p T r m = some (t', none)) :
    Reaches t T r ∧ t' = t := by
  cases m <;>
    simp only [LockTable.addLock, LockTable.addReaderLock, LockTable.addWriterLock,
      Option.bind_eq_bind, Option.bind_eq_some_iff, Option.pure_def] at ha <;>
    obtain ⟨b, hb, ha⟩ := ha <;>
    have hiff := checkDeadlock_iff hb <;>
    cases b
  case read.false =>
    simp only [Bool.false_eq_true, if_false, Option.bind_eq_some_iff] at ha
    obtain ⟨t₁, -, w, -, ha⟩ := ha
    cases w <;> simp [Option.bind_eq_some_iff] at ha
  case write.false => simp [Option.bind_eq_some_iff] at ha
  case read.true => exact ⟨hiff.mp rfl, by simpa using ha.symm⟩
  case write.true => exact ⟨hiff.mp rfl, by simpa using ha.symm⟩

/-- A request is answered: the search returns, and so does the walk that follows it. -/
theorem Shape.addLock_returns (h : Shape t q t.lockPerTxn) (hE : Graph.Acyclic (Edge t))
    (fin : {x | ∃ n, t.heap x = some n}.Finite) (fresh : t.heap p = none) (T : TransactionId)
    (r : RecordId) (m : LockMode) : ∃ fuel t' res, t.addLock fuel p T r m = some (t', res) := by
  obtain ⟨fuel, b, hb⟩ := h.checkDeadlock_returns hE fin T r
  let more := max fuel ((q r).length + 2)
  have hb' : t.checkDeadlock more T r = some b := Search.search_mono (Nat.le_max_left _ _) hb
  refine ⟨more, ?_⟩
  cases b with
  | true => cases m <;> simp [LockTable.addLock, LockTable.addReaderLock, LockTable.addWriterLock, hb']
  | false =>
    have hr : ¬ Reaches t T r := by simpa using checkDeadlock_iff hb
    cases m with
    | read =>
      have htl : ((t.connected p .read T r false).lockPerRecord r).tail = some p := by
        simp [LockTable.connected]
      have hfw := h.findWrite_connected (T := T) fresh (h.free_of_not_reaches hr)
        (Nat.le_max_right fuel ((q r).length + 2))
      have hp : (t.connected p .read T r false).heap p = some { LockNode.new .read T r with
          prev := (t.lockPerRecord r).tail, locked := false } := by simp [LockTable.connected]
      simp only [LockTable.addLock, LockTable.addReaderLock, hb', Option.bind_eq_bind,
        Option.bind_some, LockTable.connect_eq false fresh (h.back_live T) (h.tail_live r), htl, more, hfw,
        Bool.false_eq_true, if_false]
      split
      · simp [LockTable.modify_eq hp]
      · simp
    | write =>
      simp [LockTable.addLock, LockTable.addWriterLock, hb',
        LockTable.connect_eq true fresh (h.back_live T) (h.tail_live r)]

end Lock
