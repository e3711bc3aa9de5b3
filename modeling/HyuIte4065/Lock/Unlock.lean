import HyuIte4065.Lock.Detect
import Mathlib.Algebra.Order.BigOperators.Group.List
import Mathlib.Algebra.Order.Group.Nat

/-!
# Unlocking

The table after one lock has been taken out, and by induction over the deque of the
transaction the table after the whole loop of `unlock`.
-/
namespace Lock

open LinkedList Filing
open Relation (ReflTransGen TransGen)

namespace LockTable

variable {t : LockTable} {p x : Ptr} {n k : LockNode} {w : List Ptr} {l : LockList}

theorem released_old (hne : x ≠ p) (h : t.heap x = some k) :
    (t.released p n w l).heap x = some { k with
      prev := if n.next = some x then n.prev else k.prev
      next := if n.prev = some x then n.next else k.next
      locked := k.locked && !decide (x ∈ w) } := by
  simp [released, hne, h]

/-- Every node of the new table is an old one; only `prev`, `next` and the flag may differ. -/
theorem released_cases (h : (t.released p n w l).heap x = some k) :
    x ≠ p ∧ ∃ k₀, t.heap x = some k₀ ∧ k.txnId = k₀.txnId ∧ k.recordId = k₀.recordId ∧
      k.lockMode = k₀.lockMode ∧ k.nextInTxn = k₀.nextInTxn ∧
      k.locked = (k₀.locked && !decide (x ∈ w)) := by
  by_cases hx : x = p
  · simp [released, hx] at h
  · cases hk : t.heap x with
    | none => simp [released, hx, hk] at h
    | some k₀ =>
      rw [released_old hx hk] at h
      obtain rfl := Option.some.inj h
      exact ⟨hx, k₀, rfl, rfl, rfl, rfl, rfl, rfl⟩

theorem released_mode (hne : x ≠ p) : (t.released p n w l).mode x = t.mode x := by
  cases h : t.heap x <;> simp [mode, released, hne, h]

theorem released_locked (hne : x ≠ p) :
    (t.released p n w l).locked x = (t.locked x && !decide (x ∈ w)) := by
  cases h : t.heap x <;> simp [locked, released, hne, h]

theorem released_nextInTxn (hne : x ≠ p) : (t.released p n w l).nextInTxn x = t.nextInTxn x := by
  cases h : t.heap x <;> simp [nextInTxn, released, hne, h]

end LockTable

variable {t t' : LockTable} {q : RecordId → List Ptr} {d : TransactionId → List Ptr}
  {p : Ptr} {n : LockNode} {xs ys : List Ptr} {T : TransactionId} {rest : List Ptr}

theorem filter_ne_of_split (hnd : (xs ++ p :: ys).Nodup) :
    (xs ++ p :: ys).filter (fun x => decide (x ≠ p)) = xs ++ ys := by
  have hx : ∀ x ∈ xs, x ≠ p := fun x hx => (List.nodup_append.mp hnd).2.2 x hx p (by simp)
  have hy : ∀ x ∈ ys, x ≠ p := by
    intro x hx he
    exact (List.nodup_cons.mp (List.nodup_append.mp hnd).2.1).1 (he ▸ hx)
  rw [List.filter_append, List.filter_cons_of_neg (by simp)]
  rw [List.filter_eq_self.mpr (by simpa using hx), List.filter_eq_self.mpr (by simpa using hy)]

theorem filter_ne_of_not_mem {l : List Ptr} (h : p ∉ l) :
    l.filter (fun x => decide (x ≠ p)) = l := by
  refine List.filter_eq_self.mpr ?_
  intro x hx
  have : x ≠ p := fun he => h (he ▸ hx)
  simpa using this

/-- The remaining nodes keep what they are filed under. -/
theorem LockTable.released_key {κ : Type} {key : LockNode → κ} {w : List Ptr} {l : LockList} {x : Ptr}
    (hkey : ∀ n a b c, key { n with prev := a, next := b, locked := c } = key n) (hne : x ≠ p) :
    ((t.released p n w l).heap x).map key = (t.heap x).map key := by
  cases hk : t.heap x with
  | none => simp [released, hne, hk]
  | some k => rw [released_old hne hk, Option.map_some, hkey, Option.map_some]

/-- The record lists after a lock has been taken out of its list. -/
theorem Shape.filter_queue (h : Shape t q d) (hn : t.heap p = some n) (hq : q n.recordId = xs ++ p :: ys)
    (r : RecordId) :
    (q r).filter (fun x => decide (x ≠ p)) = if r = n.recordId then xs ++ ys else q r := by
  by_cases hr : r = n.recordId
  · rw [if_pos hr, hr, hq, filter_ne_of_split (hq ▸ h.nodupQueue n.recordId)]
  · rw [if_neg hr]
    exact filter_ne_of_not_mem fun hp => hr (h.record_eq hn hp).symm

theorem Shape.released_linked (h : Shape t q d) (hn : t.heap p = some n)
    (hq : q n.recordId = xs ++ p :: ys) (w : List Ptr) (l : LockList) (r : RecordId) :
    Linked (t.released p n w l).next (t.released p n w l).prev
      ((q r).filter fun x => decide (x ≠ p)) := by
  have hl : Linked t.next t.prev (xs ++ p :: ys) := hq ▸ h.linked n.recordId
  have hnd : (xs ++ p :: ys).Nodup := hq ▸ h.nodupQueue n.recordId
  have hnext : n.next = ys.head? := by rw [← LockTable.next_of hn, hl.next_eq]
  have hprev : n.prev = xs.getLast? := by rw [← LockTable.prev_of hn, hl.prev_eq]
  -- the two links that `release` rewrites, seen from a remaining node
  have hnext' : ∀ x, x ≠ p → (∃ k, t.heap x = some k) → (t.released p n w l).next x =
      if xs.getLast? = some x then ys.head? else t.next x := by
    rintro x hx ⟨k, hk⟩
    rw [LockTable.next_of (LockTable.released_old hx hk), LockTable.next_of hk, hprev, hnext]
  have hprev' : ∀ x, x ≠ p → (∃ k, t.heap x = some k) → (t.released p n w l).prev x =
      if ys.head? = some x then xs.getLast? else t.prev x := by
    rintro x hx ⟨k, hk⟩
    rw [LockTable.prev_of (LockTable.released_old hx hk), LockTable.prev_of hk, hprev, hnext]
  rw [h.filter_queue hn hq]
  by_cases hr : r = n.recordId
  · rw [if_pos hr]
    have hmem : ∀ {x}, x ∈ xs ++ ys → x ≠ p ∧ x ∈ q n.recordId := by
      intro x hx
      rw [← filter_ne_of_split hnd, ← hq] at hx
      simpa [and_comm] using List.mem_filter.mp hx
    refine hl.erase hnd ?_ ?_
    · intro x hx
      obtain ⟨hne, hm⟩ := hmem hx
      exact hnext' x hne (h.live hm)
    · intro x hx
      obtain ⟨hne, hm⟩ := hmem hx
      exact hprev' x hne (h.live hm)
  · rw [if_neg hr]
    have out : ∀ {x}, x ∈ q r → x ∉ xs ++ p :: ys := by
      intro x hx hx'
      exact hr (h.byRecord.unique hx (by rwa [hq]))
    refine (h.linked r).congr ?_ ?_
    · intro x hx
      rw [hnext' x (fun he => out hx (by simp [he])) (h.live hx), if_neg]
      intro hl
      exact out hx (List.mem_append.mpr (.inl (List.mem_of_getLast? hl)))
    · intro x hx
      rw [hprev' x (fun he => out hx (by simp [he])) (h.live hx), if_neg]
      intro hl
      have := List.mem_of_head? hl
      exact out hx (by simp [this])

/-- The deques after the oldest lock of `T` has been taken out. -/
theorem Shape.mem_released_deque (h : Shape t q d) (hd : d T = p :: rest) {U : TransactionId} {x : Ptr} :
    x ∈ Function.update d T rest U ↔ x ≠ p ∧ x ∈ d U := by
  by_cases hU : U = T
  · subst hU
    have hp : p ∉ rest := (List.nodup_cons.mp (hd ▸ h.nodupDeque U)).1
    rw [Function.update_self, hd, List.mem_cons]
    constructor
    · intro hx
      exact ⟨fun he => hp (he ▸ hx), .inr hx⟩
    · rintro ⟨hne, hx⟩
      exact hx.resolve_left hne
  · rw [Function.update_of_ne hU]
    refine ⟨fun hx => ⟨?_, hx⟩, fun hx => hx.2⟩
    rintro rfl
    exact hU (h.byOwner.unique hx (by simp [hd]))

theorem Shape.released_inTxn (h : Shape t q d) (hd : d T = p :: rest) {w : List Ptr} {l : LockList}
    {U : TransactionId} {us : List Ptr} {x : Ptr} {vs : List Ptr}
    (he : Function.update d T rest U = us ++ x :: vs) :
    (t.released p n w l).nextInTxn x = vs.head? := by
  have hne : x ≠ p := (h.mem_released_deque hd (U := U)).mp (by simp [he]) |>.1
  rw [LockTable.released_nextInTxn hne]
  by_cases hU : U = T
  · subst hU
    rw [Function.update_self] at he
    exact h.inTxn U (p :: us) x vs (by simp [hd, he])
  · rw [Function.update_of_ne hU] at he
    exact h.inTxn U us x vs he

/-- The lists threaded after the oldest remaining lock of `T` has been taken out. -/
theorem Shape.released (h : Shape t q d) (hd : d T = p :: rest) (hn : t.heap p = some n)
    (hq : q n.recordId = xs ++ p :: ys) (w : List Ptr) :
    Shape (t.released p n w ⟨(xs ++ ys).head?, (xs ++ ys).getLast?⟩)
      (fun r => (q r).filter fun x => decide (x ≠ p)) (Function.update d T rest) := by
  have hnone : ∀ {κ : Type} (key : LockNode → κ),
      ((t.released p n w ⟨(xs ++ ys).head?, (xs ++ ys).getLast?⟩).heap p).map key = none := fun key => by
    simp [LockTable.released]
  constructor
  case head =>
    intro r
    rw [h.filter_queue hn hq]
    by_cases hr : r = n.recordId
    · subst hr; simp only [LockTable.released, Function.update_self, if_true]
    · simp only [LockTable.released, Function.update_of_ne hr, if_neg hr, h.head]
  case tail =>
    intro r
    rw [h.filter_queue hn hq]
    by_cases hr : r = n.recordId
    · subst hr; simp only [LockTable.released, Function.update_self, if_true]
    · simp only [LockTable.released, Function.update_of_ne hr, if_neg hr, h.tail]
  case linked => exact h.released_linked hn hq w _
  case queued =>
    intro r x
    rw [← Option.map_eq_some_iff]
    have hmem : ∀ r y, y ∈ (q r).filter (fun x => decide (x ≠ p)) ↔ y ≠ p ∧ y ∈ q r := fun r y => by
      rw [List.mem_filter, decide_eq_true_eq, and_comm]
    exact h.byRecord.remove (hnone _) (fun y => LockTable.released_key fun _ _ _ _ => rfl) hmem r x
  case owned =>
    intro U x
    rw [← Option.map_eq_some_iff]
    exact h.byOwner.remove (hnone _) (fun y => LockTable.released_key fun _ _ _ _ => rfl)
      (fun U y => h.mem_released_deque hd) U x
  case nodupQueue =>
    intro r
    exact (h.nodupQueue r).filter _
  case nodupDeque =>
    intro U
    by_cases hU : U = T
    · subst hU
      rw [Function.update_self]
      exact (List.nodup_cons.mp (hd ▸ h.nodupDeque U)).2
    · rw [Function.update_of_ne hU]
      exact h.nodupDeque U
  case inTxn => exact fun _ _ _ _ he => h.released_inTxn hd he
  case single =>
    intro x x' k k' hk hk' hkT hkr
    obtain ⟨-, k₀, hk₀, h₁, h₂, -⟩ := LockTable.released_cases hk
    obtain ⟨-, k₀', hk₀', h₁', h₂', -⟩ := LockTable.released_cases hk'
    exact h.single x x' k₀ k₀' hk₀ hk₀' (by rw [← h₁, ← h₁', hkT]) (by rw [← h₂, ← h₂', hkr])

/-- Every edge after the lock is gone is a path through the lock before. -/
theorem Shape.released_edge (h : Shape t q d) (hn : t.heap p = some n)
    (hq : q n.recordId = xs ++ p :: ys) (w : List Ptr) (l : LockList) {a b : Ptr}
    (hab : Edge (t.released p n w l) a b) : TransGen (Edge t) a b := by
  have hl : Linked t.next t.prev (xs ++ p :: ys) := hq ▸ h.linked n.recordId
  have hnext : n.next = ys.head? := by rw [← LockTable.next_of hn, hl.next_eq]
  cases hk : (t.released p n w l).heap a with
  | none => simp [Edge, LockTable.prev, LockTable.nextInTxn, hk] at hab
  | some k =>
    obtain ⟨hne, k₀, hk₀, -⟩ := LockTable.released_cases hk
    rcases hab with hab | hab
    · rw [LockTable.prev_of (LockTable.released_old hne hk₀)] at hab
      split at hab
      · next ha =>
        have hap : Edge t a p := by
          left
          obtain ⟨zs, rfl⟩ := List.head?_eq_some_iff.mp (hnext.symm.trans ha)
          have hl' : Linked t.next t.prev ((xs ++ [p]) ++ a :: zs) := by simpa using hl
          rw [hl'.prev_eq, List.getLast?_concat]
        have hpb : Edge t p b := .inl (by rw [LockTable.prev_of hn, hab])
        exact .head hap (.single hpb)
      · exact .single (.inl (by rw [LockTable.prev_of hk₀, hab]))
    · rw [LockTable.released_nextInTxn hne] at hab
      exact .single (.inr hab)

/-! ### The loop -/

/-- The table after one turn of the loop: `p` stood between `xs` and `ys`. -/
def LockTable.turn (t : LockTable) (p : Ptr) (n : LockNode) (xs ys : List Ptr) : LockTable :=
  t.released p n (if xs = [] then grantPrefix t.mode ys else [])
    ⟨(xs ++ ys).head?, (xs ++ ys).getLast?⟩

/-- What every turn keeps holds after the loop, when the lists have lost the locks of `T`. -/
theorem Shape.loop
    {P : LockTable → (RecordId → List Ptr) → (TransactionId → List Ptr) → Prop}
    (keep : ∀ {t q d p n xs ys rest}, Shape t q d → P t q d → d T = p :: rest →
      t.heap p = some n → q n.recordId = xs ++ p :: ys →
      P (t.turn p n xs ys) (fun r => (q r).filter fun x => decide (x ≠ p))
        (Function.update d T rest))
    (h : Shape t q d) (hP : P t q d) {l : List Ptr} (hd : d T = l) {fuel : Nat}
    (hl : l.foldlM (fun t p => t.release fuel p) t = some t') :
    Shape t' (fun r => (q r).filter fun x => decide (x ∉ l)) (Function.update d T []) ∧
    P t' (fun r => (q r).filter fun x => decide (x ∉ l)) (Function.update d T []) ∧
    t'.lockPerTxn = t.lockPerTxn := by
  induction l generalizing t q d with
  | nil =>
    obtain rfl : t = t' := by simpa using hl
    have hq : (fun r => (q r).filter fun x => decide (x ∉ ([] : List Ptr))) = q := by
      funext r
      simp
    have hd' : Function.update d T [] = d := by rw [← hd, Function.update_eq_self]
    rw [hq, hd']
    exact ⟨h, hP, rfl⟩
  | cons p rest ih =>
    rw [List.foldlM_cons] at hl
    obtain ⟨t₁, ht₁, hl⟩ := Option.bind_eq_some_iff.mp hl
    obtain ⟨n, hn, -⟩ := (h.owned T p).mp (by simp [hd])
    obtain ⟨xs, ys, hq⟩ := List.append_of_mem ((h.queued n.recordId p).mpr ⟨n, hn, rfl⟩)
    obtain rfl : t₁ = t.turn p n xs ys := h.release_some hn hq ht₁
    obtain ⟨h', hP', ht'⟩ := ih (h.released hd hn hq _) (keep h hP hd hn hq)
      (Function.update_self ..) hl
    have hfilter : (fun r => ((q r).filter fun x => decide (x ≠ p)).filter
        fun x => decide (x ∉ rest)) = fun r => (q r).filter fun x => decide (x ∉ p :: rest) := by
      funext r
      rw [List.filter_filter]
      refine List.filter_congr fun x _ => ?_
      simp [Bool.and_comm]
    rw [hfilter, Function.update_idem] at h' hP'
    exact ⟨h', hP', ht'⟩

/-- The loop returns: no turn walks further than its record list is long. -/
theorem Shape.loop_returns (h : Shape t q d) {l : List Ptr} (hd : d T = l) {fuel : Nat}
    (hfuel : ∀ p ∈ l, ∀ n, t.heap p = some n → (q n.recordId).length ≤ fuel) :
    ∃ t', l.foldlM (fun t p => t.release fuel p) t = some t' := by
  induction l generalizing t q d with
  | nil => exact ⟨t, rfl⟩
  | cons p rest ih =>
    obtain ⟨n, hn, -⟩ := (h.owned T p).mp (by simp [hd])
    obtain ⟨xs, ys, hq⟩ := List.append_of_mem ((h.queued n.recordId p).mpr ⟨n, hn, rfl⟩)
    have hlen : ys.length < fuel := by
      have := hfuel p (by simp) n hn
      simp [hq] at this
      omega
    obtain ⟨t', ht'⟩ := ih (h.released hd hn hq (if xs = [] then grantPrefix t.mode ys else []))
      (Function.update_self ..) (by
        intro x hx k hk
        obtain ⟨-, k₀, hk₀, -, hr, -⟩ := LockTable.released_cases hk
        rw [hr]
        exact (List.length_filter_le _ _).trans (hfuel x (by simp [hx]) k₀ hk₀))
    exact ⟨t', by rw [List.foldlM_cons, h.release_eq hn hq hlen]; exact ht'⟩

/-- The pointers of a table are threaded whatever its deques are. -/
theorem Shape.withDeques (h : Shape t q d) (l : TransactionId → List Ptr) :
    Shape { t with lockPerTxn := l } q d :=
  ⟨h.head, h.tail, h.linked, h.queued, h.owned, h.nodupQueue, h.nodupDeque, h.inTxn, h.single⟩

/-- `unlock` as a whole: the rule of the loop, and the deque cleared at the end. -/
theorem Shape.unlock
    {P : LockTable → (RecordId → List Ptr) → (TransactionId → List Ptr) → Prop}
    (keep : ∀ {t q d p n xs ys rest}, Shape t q d → P t q d → d T = p :: rest →
      t.heap p = some n → q n.recordId = xs ++ p :: ys →
      P (t.turn p n xs ys) (fun r => (q r).filter fun x => decide (x ≠ p))
        (Function.update d T rest))
    (deques : ∀ {t q d} l, P t q d → P { t with lockPerTxn := l } q d)
    (h : Shape t q t.lockPerTxn) (hP : P t q t.lockPerTxn) {fuel : Nat}
    (hu : t.unlock fuel T = some t') :
    Shape t' (fun r => (q r).filter fun x => decide (x ∉ t.lockPerTxn T)) t'.lockPerTxn ∧
    P t' (fun r => (q r).filter fun x => decide (x ∉ t.lockPerTxn T)) t'.lockPerTxn ∧
    t'.lockPerTxn = Function.update t.lockPerTxn T [] := by
  obtain ⟨t₁, hl, he⟩ := Option.bind_eq_some_iff.mp hu
  obtain ⟨h₁, hP₁, ht₁⟩ := Shape.loop keep h hP rfl hl
  obtain rfl : _ = t' := Option.some.inj he
  rw [ht₁]
  exact ⟨h₁.withDeques _, deques _ hP₁, rfl⟩

theorem Shape.unlock_returns (h : Shape t q t.lockPerTxn) (T : TransactionId) :
    ∃ fuel t', t.unlock fuel T = some t' := by
  let len : Ptr → Nat := fun p => ((t.heap p).map fun n => (q n.recordId).length).getD 0
  obtain ⟨t', ht'⟩ := h.loop_returns rfl (by
    intro p hp n hn
    have hle : len p ≤ ((t.lockPerTxn T).map len).sum :=
      List.single_le_sum (fun _ _ => Nat.zero_le _) _ (List.mem_map.mpr ⟨p, hp, rfl⟩)
    simpa [len, hn] using hle)
  exact ⟨_, _, by rw [LockTable.unlock, ht']; rfl⟩

end Lock
