import HyuIte4065.Lock.Shape

/-!
# A lock request

The table after an accepted request in closed form, and the lists it threads.
-/
namespace Lock

open LinkedList Filing

namespace LockTable

variable {t t' : LockTable} {p x : Ptr} {n : LockNode} {m : LockMode} {T : TransactionId}
  {r : RecordId} {wait : Bool}

/-- The table with a new lock at the tail of the list of `r`. -/
def appended (t : LockTable) (p : Ptr) (m : LockMode) (T : TransactionId) (r : RecordId)
    (wait : Bool) : LockTable where
  heap x := if x = p then some { LockNode.new m T r with
      prev := (t.lockPerRecord r).tail, locked := wait }
    else (t.heap x).map fun n => { n with
      nextInTxn := if (t.lockPerTxn T).getLast? = some x then some p else n.nextInTxn
      next := if (t.lockPerRecord r).tail = some x then some p else n.next }
  lockPerTxn := Function.update t.lockPerTxn T (t.lockPerTxn T ++ [p])
  lockPerRecord := Function.update t.lockPerRecord r
    ⟨if (t.lockPerRecord r).tail = none then some p else (t.lockPerRecord r).head, some p⟩

theorem appended_new : (t.appended p m T r wait).heap p = some { LockNode.new m T r with
    prev := (t.lockPerRecord r).tail, locked := wait } := by simp [appended]

theorem appended_old (hne : x ≠ p) (h : t.heap x = some n) :
    (t.appended p m T r wait).heap x = some { n with
      nextInTxn := if (t.lockPerTxn T).getLast? = some x then some p else n.nextInTxn
      next := if (t.lockPerRecord r).tail = some x then some p else n.next } := by
  simp [appended, hne, h]

/-- Every node of the new table is the new lock or an old node with its owner, record, mode
and flag unchanged. -/
theorem appended_cases (h : (t.appended p m T r wait).heap x = some n) :
    (x = p ∧ n.txnId = T ∧ n.recordId = r ∧ n.lockMode = m ∧ n.locked = wait) ∨
    (x ≠ p ∧ ∃ k, t.heap x = some k ∧ n.txnId = k.txnId ∧ n.recordId = k.recordId ∧
      n.lockMode = k.lockMode ∧ n.locked = k.locked) := by
  by_cases hx : x = p
  · subst hx
    rw [appended_new] at h
    obtain rfl := Option.some.inj h
    exact .inl ⟨rfl, rfl, rfl, rfl, rfl⟩
  · cases hk : t.heap x with
    | none => simp [appended, hx, hk] at h
    | some k =>
      rw [appended_old hx hk] at h
      obtain rfl := Option.some.inj h
      exact .inr ⟨hx, k, rfl, rfl, rfl, rfl, rfl⟩

theorem appended_mode (hne : x ≠ p) : (t.appended p m T r wait).mode x = t.mode x := by
  cases h : t.heap x <;> simp [mode, appended, hne, h]

theorem appended_locked (hne : x ≠ p) : (t.appended p m T r wait).locked x = t.locked x := by
  cases h : t.heap x <;> simp [locked, appended, hne, h]

/-- Whether a request behind the locks `l` has to wait. -/
def mustWait (t : LockTable) (l : List Ptr) : LockMode → Bool
  | .read => l.any fun x => decide (t.mode x = .write)
  | .write => !l.isEmpty

end LockTable

variable {t t' : LockTable} {q : RecordId → List Ptr} {p : Ptr} {n : LockNode}
  {T : TransactionId} {r : RecordId} {m : LockMode}

/-- The old nodes keep what they are filed under. -/
theorem LockTable.appended_key {κ : Type} {key : LockNode → κ} {wait : Bool} {x : Ptr}
    (hkey : ∀ n o l, key { n with nextInTxn := o, next := l } = key n) (hne : x ≠ p) :
    ((t.appended p m T r wait).heap x).map key = (t.heap x).map key := by
  cases hk : t.heap x with
  | none => simp [appended, hne, hk]
  | some n => rw [appended_old hne hk, Option.map_some, hkey, Option.map_some]

theorem Shape.appended_linked (h : Shape t q t.lockPerTxn) (fresh : t.heap p = none) (wait : Bool)
    (r' : RecordId) : Linked (t.appended p m T r wait).next (t.appended p m T r wait).prev
      (Function.update q r (q r ++ [p]) r') := by
  have hne : ∀ {r' x}, x ∈ q r' → x ≠ p := fun {r' x} hx he => by
    obtain ⟨n, hn⟩ := h.live hx
    rw [he, fresh] at hn
    cases hn
  have hprev : ∀ x, x ≠ p → (t.appended p m T r wait).prev x = t.prev x := by
    intro x hx
    cases hk : t.heap x <;> simp [LockTable.prev, LockTable.appended, hx, hk]
  have hnext : ∀ r', ∀ x ∈ q r', (t.appended p m T r wait).next x =
      if (t.lockPerRecord r).tail = some x then some p else t.next x := by
    intro r' x hx
    obtain ⟨n, hn⟩ := h.live hx
    rw [LockTable.next_of (LockTable.appended_old (hne hx) hn), LockTable.next_of hn]
  by_cases hr : r' = r
  · subst hr
    rw [Function.update_self]
    refine (h.linked r').concat (h.nodupQueue r') ?_ ?_ ?_ ?_
    · intro x hx
      rw [hnext r' x hx, h.tail]
    · simp [LockTable.next_of LockTable.appended_new, LockNode.new]
    · intro x hx
      exact hprev x (hne hx)
    · simp [LockTable.prev_of LockTable.appended_new, h.tail]
  · rw [Function.update_of_ne hr]
    refine (h.linked r').congr ?_ ?_
    · intro x hx
      rw [hnext r' x hx, if_neg]
      intro ht
      exact hr (h.byRecord.unique hx (List.mem_of_getLast? (by rw [← h.tail, ht])))
    · intro x hx
      exact hprev x (hne hx)

theorem Shape.appended_inTxn (h : Shape t q t.lockPerTxn) (fresh : t.heap p = none) {wait : Bool}
    {T' : TransactionId} {xs : List Ptr} {x : Ptr} {ys : List Ptr}
    (he : (t.appended p m T r wait).lockPerTxn T' = xs ++ x :: ys) :
    (t.appended p m T r wait).nextInTxn x = ys.head? := by
  have hold : ∀ {x}, x ∈ t.lockPerTxn T' → (t.appended p m T r wait).nextInTxn x =
      if (t.lockPerTxn T).getLast? = some x then some p else t.nextInTxn x := by
    intro x hx
    obtain ⟨n, hn, -⟩ := (h.owned T' x).mp hx
    have hne : x ≠ p := by
      rintro rfl
      simp [fresh] at hn
    rw [LockTable.nextInTxn_of (LockTable.appended_old hne hn), LockTable.nextInTxn_of hn]
  by_cases hT : T' = T
  · subst hT
    simp only [LockTable.appended, Function.update_self] at he
    rcases List.eq_nil_or_concat' ys with rfl | ⟨zs, z, rfl⟩
    · -- the new lock itself
      obtain ⟨-, hx⟩ := List.append_inj' he rfl
      obtain rfl : p = x := by simpa using hx
      simp [LockTable.nextInTxn_of LockTable.appended_new, LockNode.new]
    · have he' : t.lockPerTxn T' ++ [p] = (xs ++ x :: zs) ++ [z] := by simpa using he
      obtain ⟨hd, hz⟩ := List.append_inj' he' rfl
      obtain rfl : p = z := by simpa using hz
      rw [hold (by simp [hd]), h.inTxn T' xs x zs hd]
      cases zs with
      | nil => simp [hd]
      | cons a zs =>
        rw [hd, if_neg (last_ne_of_nodup (hd ▸ h.nodupDeque T') (by simp))]
        simp
  · simp only [LockTable.appended, Function.update_of_ne hT] at he
    have hx : x ∈ t.lockPerTxn T' := by simp [he]
    rw [hold hx, if_neg, h.inTxn T' xs x ys he]
    intro hb
    exact hT (h.byOwner.unique hx (List.mem_of_getLast? hb))

theorem Shape.appended_single (h : Shape t q t.lockPerTxn)
    (free : ∀ x n, t.heap x = some n → n.txnId = T → n.recordId ≠ r) {wait : Bool} {x x' : Ptr}
    {n n' : LockNode} (hn : (t.appended p m T r wait).heap x = some n)
    (hn' : (t.appended p m T r wait).heap x' = some n') (hT : n.txnId = n'.txnId)
    (hr : n.recordId = n'.recordId) : x = x' := by
  rcases LockTable.appended_cases hn with ⟨rfl, h₁, h₂, -⟩ | ⟨-, k, hk, h₁, h₂, -⟩
  · rcases LockTable.appended_cases hn' with ⟨rfl, -⟩ | ⟨-, k', hk', h₃, h₄, -⟩
    · rfl
    · exact absurd (by rw [← h₄, ← hr, h₂]) (free x' k' hk' (by rw [← h₃, ← hT, h₁]))
  · rcases LockTable.appended_cases hn' with ⟨rfl, h₃, h₄, -⟩ | ⟨-, k', hk', h₃, h₄, -⟩
    · exact absurd (by rw [← h₂, hr, h₄]) (free x k hk (by rw [← h₁, hT, h₃]))
    · exact h.single x x' k k' hk hk' (by rw [← h₁, ← h₃, hT]) (by rw [← h₂, ← h₄, hr])

/-- The lists threaded after an accepted request. -/
theorem Shape.appended (h : Shape t q t.lockPerTxn) (fresh : t.heap p = none)
    (free : ∀ x n, t.heap x = some n → n.txnId = T → n.recordId ≠ r) (wait : Bool) :
    Shape (t.appended p m T r wait) (Function.update q r (q r ++ [p]))
      (t.appended p m T r wait).lockPerTxn := by
  have hnone : ∀ {κ : Type} (key : LockNode → κ), (t.heap p).map key = none := fun key => by
    rw [fresh, Option.map_none]
  have hnew : ∀ {κ : Type} (key : LockNode → κ), ((t.appended p m T r wait).heap p).map key =
      some (key { LockNode.new m T r with prev := (t.lockPerRecord r).tail, locked := wait }) :=
    fun key => by rw [LockTable.appended_new, Option.map_some]
  constructor
  case head =>
    intro r'
    by_cases hr : r' = r
    · subst hr
      cases hl : q r' with
      | nil => simp [LockTable.appended, h.tail, hl]
      | cons a l => simp [LockTable.appended, h.tail, h.head, hl]
    · simp [LockTable.appended, hr, h.head]
  case tail =>
    intro r'
    by_cases hr : r' = r
    · subst hr; simp [LockTable.appended]
    · simp [LockTable.appended, hr, h.tail]
  case linked => exact h.appended_linked fresh wait
  case queued =>
    intro r' x
    rw [← Option.map_eq_some_iff]
    exact h.byRecord.append (hnone _) (hnew _) (fun y => LockTable.appended_key fun _ _ _ => rfl) r' x
  case owned =>
    intro T' x
    rw [← Option.map_eq_some_iff]
    exact h.byOwner.append (hnone _) (hnew _) (fun y => LockTable.appended_key fun _ _ _ => rfl) T' x
  case nodupQueue => exact nodup_update h.nodupQueue (h.byRecord.not_mem (hnone _))
  case nodupDeque => exact nodup_update h.nodupDeque (h.byOwner.not_mem (hnone _))
  case inTxn => exact fun _ _ _ _ he => h.appended_inTxn fresh he
  case single => exact fun _ _ _ _ hn hn' hT hr => h.appended_single free hn hn' hT hr

end Lock
