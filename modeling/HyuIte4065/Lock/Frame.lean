import HyuIte4065.Lock.Grant

/-!
# What a transaction keeps

The locks of one transaction while others call, and what holding a granted lock means.
-/
namespace Lock

variable {t t' : LockTable} {q : RecordId → List Ptr} {p x : Ptr} {n : LockNode}
  {T U : TransactionId} {r : RecordId} {m m' : LockMode} {wait : Bool}

/-- `T` has a granted lock of mode `m` on `r`. -/
def Holds (t : LockTable) (T : TransactionId) (r : RecordId) (m : LockMode) : Prop :=
  ∃ p n, t.heap p = some n ∧ n.txnId = T ∧ n.recordId = r ∧ n.lockMode = m ∧ n.locked = false

/-- The locks of `T` are all still there, and none of them has to wait that did not before. -/
def Survive (t t' : LockTable) (T : TransactionId) : Prop :=
  ∀ p n, t.heap p = some n → n.txnId = T → ∃ n', t'.heap p = some n' ∧ n'.txnId = T ∧
    n'.recordId = n.recordId ∧ n'.lockMode = n.lockMode ∧ (n'.locked = true → n.locked = true)

structure Undisturbed (t t' : LockTable) (T : TransactionId) : Prop where
  deque : t'.lockPerTxn T = t.lockPerTxn T
  locks : Survive t t' T

theorem Undisturbed.refl (t : LockTable) (T : TransactionId) : Undisturbed t t T :=
  ⟨rfl, fun _ n hn hT => ⟨n, hn, hT, rfl, rfl, id⟩⟩

theorem Survive.holds (h : Survive t t' T) (hh : Holds t T r m) : Holds t' T r m := by
  obtain ⟨p, n, hn, hT, hr, hm, hl⟩ := hh
  obtain ⟨n', hn', hT', hr', hm', hl'⟩ := h p n hn hT
  refine ⟨p, n', hn', hT', hr'.trans hr, hm'.trans hm, ?_⟩
  cases hc : n'.locked with
  | false => rfl
  | true => rw [hl' hc] at hl; contradiction

theorem Undisturbed.not_waiting (h : Undisturbed t t' T) (ht : Threaded t q) (hw : ¬ t.Waiting T) :
    ¬ t'.Waiting T := by
  rintro ⟨p, n', hp, hn', hl⟩
  rw [h.deque] at hp
  obtain ⟨n, hn, hT⟩ := (ht.shape.owned T p).mp (List.mem_of_getLast? hp)
  obtain ⟨n₁, hn₁, -, -, -, hl₁⟩ := h.locks p n hn hT
  obtain rfl := Option.some.inj (hn'.symm.trans hn₁)
  exact hw ⟨p, n, hp, hn, hl₁ hl⟩

theorem survive_appended (fresh : t.heap p = none) : Survive t (t.appended p m U r wait) T := by
  intro x n hn hT
  have hne : x ≠ p := by
    rintro rfl
    simp [fresh] at hn
  exact ⟨_, LockTable.appended_old hne hn, hT, rfl, rfl, id⟩

theorem undisturbed_appended (fresh : t.heap p = none) (hTU : T ≠ U) :
    Undisturbed t (t.appended p m U r wait) T := by
  refine ⟨?_, survive_appended fresh⟩
  simp [LockTable.appended, hTU]

theorem Threaded.undisturbed_unlock (h : Threaded t q) {fuel : Nat} (hu : t.unlock fuel U = some t')
    (hTU : T ≠ U) : Undisturbed t t' T := by
  obtain ⟨h', hk, hd⟩ := h.unlock hu
  refine ⟨by rw [hd, Function.update_of_ne hTU], fun p n hn hT => ?_⟩
  have hp : p ∉ t.lockPerTxn U := fun hm => hTU (hT.symm.trans (h.shape.owner_eq hn hm))
  have hq : p ∈ q n.recordId := (h.shape.queued n.recordId p).mpr ⟨n, hn, rfl⟩
  obtain ⟨n', hn', -⟩ := (h'.shape.queued n.recordId p).mp
    (List.mem_filter.mpr ⟨hq, by simpa using hp⟩)
  obtain ⟨k, hk₀, hT', hr', hm', hl'⟩ := hk p n' hn'
  obtain rfl := Option.some.inj (hn.symm.trans hk₀)
  exact ⟨n', hn', hT'.trans hT, hr', hm', hl'⟩

theorem not_waiting_of_deque (h : t.lockPerTxn T = []) : ¬ t.Waiting T := by
  rintro ⟨p, n, hp, -⟩
  simp [h] at hp

/-- Granted locks of different transactions on one record are READ locks. -/
theorem Orderly.exclusive (h : Orderly t q) (hT : Holds t T r m) (hU : Holds t U r m') (hTU : T ≠ U) :
    m = .read ∧ m' = .read := by
  obtain ⟨p, n, hn, hT, hr, rfl, hl⟩ := hT
  obtain ⟨x, k, hk, hU, hr', rfl, hl'⟩ := hU
  have hne : p ≠ x := by
    rintro rfl
    obtain rfl := Option.some.inj (hn.symm.trans hk)
    exact hTU (hT.symm.trans hU)
  have hc := h.compatible ((h.shape.queued r p).mpr ⟨n, hn, hr⟩) ((h.shape.queued r x).mpr ⟨k, hk, hr'⟩)
    hne (by rw [LockTable.locked_of hn, hl]) (by rw [LockTable.locked_of hk, hl'])
  rwa [LockTable.mode_of hn, LockTable.mode_of hk] at hc

end Lock
