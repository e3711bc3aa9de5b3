import HyuIte4065.Lock.Refusal

/-!
# Which refusals are deadlocks

A refused request can be harmless: the search takes the step from a granted reader to the
reader ahead of it for a wait. Where a transaction shares a record only with its first
request, and asks for no record twice, each refusal stands for a real cycle of waits.
-/
namespace Lock

open LinkedList Transition
open Relation (ReflTransGen TransGen)

variable {t t' : LockTable} {q : RecordId → List Ptr} {p x y z : Ptr} {n : LockNode}
  {T U V : TransactionId} {r : RecordId} {m : LockMode} {xs ys : List Ptr} {c : Call}

/-- `U` is, or `T` with its request would be, blocked by a lock of `V` ahead in the same list. -/
def BlockedBy (t : LockTable) (T : TransactionId) (r : RecordId) (m : LockMode)
    (U V : TransactionId) : Prop :=
  (∃ s xs x ys y, Walk t.next (t.lockPerRecord s).head (xs ++ x :: ys) ∧ y ∈ xs ∧ t.txn x = U ∧
    t.txn y = V ∧ ((t.mode x = .write ∨ t.mode y = .write) ∨ t.locked y = true)) ∨
  (U = T ∧ ∃ l y, Walk t.next (t.lockPerRecord r).head l ∧ y ∈ l ∧ t.txn y = V ∧
    ((m = .write ∨ t.mode y = .write) ∨ t.locked y = true))

/-! ### Transactions that share a record with their first request only -/

/-- A request for a record that `T` has no lock on; where the list of the record ends in a READ lock,
it is for WRITE, or the first request of `T`. -/
def AsksApart (t : LockTable) : Call → Prop
  | .lock T r m _ => (∀ x n, t.heap x = some n → n.txnId = T → n.recordId ≠ r) ∧
      ∀ y, (t.lockPerRecord r).tail = some y → m = .read → t.mode y = .read → t.lockPerTxn T = []
  | .unlock _ => True

def apartSystem : System LockTable Call :=
  lockSystem.restrict AsksApart

/-- A READ lock right behind a READ lock is the first one of its transaction. -/
def SharesFirst (t : LockTable) (q : RecordId → List Ptr) : Prop :=
  ∀ r xs z x ys n, q r = xs ++ z :: x :: ys → t.mode z = .read → t.mode x = .read →
    t.heap x = some n → (t.lockPerTxn n.txnId).head? = some x

theorem SharesFirst.appended (h : SharesFirst t q) (hs : Shape t q t.lockPerTxn) (fresh : t.heap p = none)
    (ha : AsksApart t (.lock T r m true)) {wait : Bool} :
    SharesFirst (t.appended p m T r wait) (Function.update q r (q r ++ [p])) := by
  have ne_of_mem : ∀ {s x}, x ∈ q s → x ≠ p := by
    rintro s x hx rfl
    obtain ⟨k, hk⟩ := hs.live hx
    simp [fresh] at hk
  have old : ∀ s xs z x ys n, q s = xs ++ z :: x :: ys →
      (t.appended p m T r wait).mode z = .read → (t.appended p m T r wait).mode x = .read →
      (t.appended p m T r wait).heap x = some n →
      ((t.appended p m T r wait).lockPerTxn n.txnId).head? = some x := by
    intro s xs z x ys n he hz hx hn
    have hxp : x ≠ p := ne_of_mem (s := s) (by simp [he])
    rw [LockTable.appended_mode (ne_of_mem (s := s) (by simp [he]))] at hz
    rw [LockTable.appended_mode hxp] at hx
    rcases LockTable.appended_cases hn with ⟨rfl, -⟩ | ⟨-, k, hk, hT, -⟩
    · exact absurd rfl hxp
    · have hfirst := h s xs z x ys k he hz hx hk
      rw [hT, LockTable.appended]
      by_cases hkT : k.txnId = T
      · rw [hkT] at hfirst ⊢
        simp [hfirst]
      · simpa [hkT] using hfirst
  intro s xs z x ys n he hz hx hn
  by_cases hs' : s = r
  · subst hs'
    rw [Function.update_self] at he
    rcases List.eq_nil_or_concat' ys with rfl | ⟨zs, a, rfl⟩
    · -- the new lock itself, behind the old tail
      have he' : q s ++ [p] = (xs ++ [z]) ++ [x] := by simpa using he
      obtain ⟨hq, hp⟩ := List.append_inj' he' rfl
      obtain rfl : p = x := by simpa using hp
      have hz' : z ≠ p := ne_of_mem (s := s) (by simp [hq])
      rw [LockTable.appended_mode hz'] at hz
      have hmode : m = .read := by rwa [LockTable.mode_of LockTable.appended_new] at hx
      have hnil := ha.2 z (by rw [hs.tail, hq, List.getLast?_concat]) hmode hz
      obtain rfl := Option.some.inj (LockTable.appended_new.symm.trans hn)
      simp [LockTable.appended, LockNode.new, hnil]
    · have he' : q s ++ [p] = (xs ++ z :: x :: zs) ++ [a] := by simpa using he
      exact old s xs z x zs n (List.append_inj' he' rfl).1 hz hx hn
  · rw [Function.update_of_ne hs'] at he
    exact old s xs z x ys n he hz hx hn

theorem SharesFirst.unlock (h : SharesFirst t q) (ho : Orderly t q) (hw : ¬ t.Waiting T) {fuel : Nat}
    (hu : t.unlock fuel T = some t') :
    SharesFirst t' fun r => (q r).filter fun x => decide (x ∉ t.lockPerTxn T) := by
  obtain ⟨hs', hk, hd⟩ := ho.toThreaded.unlock hu
  intro r us z x vs n he hz hx hn
  have he' : (q r).filter (fun x => decide (x ∉ t.lockPerTxn T)) = (us ++ [z]) ++ x :: vs := by simpa using he
  obtain ⟨l₁, l₂, hq, h₁, h₂⟩ := List.filter_eq_append_iff.mp he'
  obtain ⟨l₃, l₄, rfl, h₃, hxT, -⟩ := List.filter_eq_cons_iff.mp h₂
  have mode_eq : ∀ a ∈ us ++ z :: x :: vs, t'.mode a = t.mode a := by
    intro a ha
    obtain ⟨k', hk'⟩ := hs'.shape.live (r := r) (p := a) (by simpa only [he] using ha)
    obtain ⟨k, hk₀, -, -, hm, -⟩ := hk a k' hk'
    rw [LockTable.mode_of hk', LockTable.mode_of hk₀, hm]
  rw [mode_eq z (by simp)] at hz
  rw [mode_eq x (by simp)] at hx
  obtain ⟨k, hk₀, hT, -⟩ := hk x n hn
  have hne : k.txnId ≠ T := by
    rintro rfl
    exact absurd ((ho.shape.owned _ x).mpr ⟨k, hk₀, rfl⟩) (by simpa using hxT)
  rw [hd, hT, Function.update_of_ne hne]
  have hzl : z ∈ l₁ ++ l₃ := by
    have hz₁ : z ∈ l₁.filter fun x => decide (x ∉ t.lockPerTxn T) := by
      rw [h₁]
      simp
    exact List.mem_append_left _ (List.mem_filter.mp hz₁).1
  -- what stood right ahead of `x` is `z` itself, or it is taken out and was granted behind `z`
  rcases List.eq_nil_or_concat' (l₁ ++ l₃) with hnil | ⟨w, a, hw'⟩
  · simp [hnil] at hzl
  · have hq' : q r = w ++ a :: x :: l₄ := by rw [hq, ← List.append_assoc, hw']; simp
    refine h r w a x l₄ k hq' ?_ hx hk₀
    by_cases ha : a ∈ t.lockPerTxn T
    · by_cases haz : z = a
      · exact haz ▸ hz
      · have hzw : z ∈ w := by simpa [hw', haz] using hzl
        rcases (ho.exact.flag r w a (x :: l₄) hq').mp (ho.free hw ha) with rfl | ⟨ha, -⟩
        · simp at hzw
        · exact ha
    · have hfilter : (l₁ ++ l₃).filter (fun x => decide (x ∉ t.lockPerTxn T)) = us ++ [z] := by
        rw [List.filter_append, h₁, List.filter_eq_nil_iff.mpr h₃, List.append_nil]
      rw [hw', List.filter_append, List.filter_cons_of_pos (by simpa using ha), List.filter_nil] at hfilter
      obtain rfl : a = z := by simpa using (List.append_inj' hfilter rfl).2
      exact hz

theorem reachable_sharesFirst (h : Reachable apartSystem t) : ∃ q, Orderly t q ∧ SharesFirst t q := by
  refine h.invariant (I := fun t => ∃ q, Orderly t q ∧ SharesFirst t q) ?_ ?_
  · rintro s rfl
    obtain ⟨q, hq⟩ := reachable_orderly (.init rfl)
    refine ⟨q, hq, fun r xs z x ys n he => ?_⟩
    obtain ⟨k, hk⟩ := hq.shape.live (r := r) (p := z) (by simp [he])
    simp [LockTable.empty] at hk
  · rintro s c s' - ⟨q, hq, hf⟩ ⟨⟨hs, hw⟩, ha⟩
    rcases hq.toThreaded.step_cases hs with ⟨T, r, m, -, -, rfl⟩ | ⟨T, r, m, p, rfl, hr, fresh, rfl⟩ |
      ⟨T, fuel, rfl, hu⟩
    · exact ⟨q, hq, hf⟩
    · exact ⟨_, hq.appended fresh hr hw, hf.appended hq.shape fresh ha⟩
    · exact ⟨_, hq.unlock hw hu, hf.unlock hq hw hu⟩

/-! ### From the links of the search to a cycle of waits -/

/-- A lock of mode `m` behind `y` has to wait as long as `y` is there, or as `y` waits. -/
def Stops (t : LockTable) (m : LockMode) (y : Ptr) : Prop :=
  (m = .write ∨ t.mode y = .write) ∨ t.locked y = true

/-- Whoever has to wait behind `y` has to wait behind `z`. -/
def Fronts (t : LockTable) (z y : Ptr) : Prop :=
  z = y ∨ t.mode y = .read ∧ t.locked y = false ∧ TransGen (fun a b => t.prev a = some b) y z

theorem Fronts.stops (h : Fronts t z y) (hy : Stops t m y) : Stops t m z := by
  rcases h with rfl | ⟨hm, hl, -⟩
  · exact hy
  · refine .inl (.inl ?_)
    simpa [Stops, hm, hl] using hy

theorem Fronts.ahead (h : Fronts t z y) (hxy : t.prev x = some y) : TransGen (fun a b => t.prev a = some b) x z := by
  rcases h with rfl | ⟨-, -, hyz⟩
  · exact .single hxy
  · exact .head hxy hyz

/-- A step along `prev` stays in the record list and goes to what is ahead. -/
theorem Shape.mem_ahead (h : Shape t q t.lockPerTxn) (hxz : TransGen (fun a b => t.prev a = some b) x z) :
    ∃ r xs ys, q r = xs ++ x :: ys ∧ z ∈ xs := by
  obtain ⟨y, hxy, -⟩ := TransGen.head'_iff.mp hxz
  obtain ⟨n, hn⟩ := edge_live (.inl hxy)
  obtain ⟨xs, ys, he⟩ := List.append_of_mem ((h.queued n.recordId x).mpr ⟨n, hn, rfl⟩)
  refine ⟨n.recordId, xs, ys, he, ?_⟩
  clear hxy hn
  induction hxz with
  | single hz =>
    rw [(h.linked _ xs x ys he).2] at hz
    exact List.mem_of_getLast? hz
  | tail _ hz ih =>
    obtain ⟨us, vs, rfl⟩ := List.append_of_mem ih
    rw [(h.linked _ us _ (vs ++ x :: ys) (by simpa using he)).2] at hz
    exact List.mem_append_left _ (List.mem_of_getLast? hz)

theorem Orderly.blockedBy (h : Orderly t q) (hxz : TransGen (fun a b => t.prev a = some b) x z)
    (hs : Stops t (t.mode x) z) : BlockedBy t T r m (t.txn x) (t.txn z) := by
  obtain ⟨s, xs, ys, he, hz⟩ := h.shape.mem_ahead hxz
  exact .inl ⟨s, xs, x, ys, z, he ▸ h.shape.walk s, hz, rfl, rfl, hs⟩

/-- Where the step from one lock to the next is no wait, the two are readers and the second one is the
first lock of its transaction, so the search came to it from behind. -/
theorem Orderly.first_of_readers (h : Orderly t q) (hf : SharesFirst t q) (hz : t.prev x = some z)
    (hxm : t.mode x = .read) (hzm : t.mode z = .read)
    (hyx : ReflTransGen (fun a b => t.nextInTxn a = some b) y x) : y = x := by
  rcases ReflTransGen.cases_tail hyx with rfl | ⟨a, -, ha⟩
  · rfl
  · obtain ⟨n, hn⟩ := edge_live (.inl hz)
    obtain ⟨xs, ys, he⟩ := List.append_of_mem ((h.shape.queued n.recordId x).mpr ⟨n, hn, rfl⟩)
    rw [(h.shape.linked _ xs x ys he).2] at hz
    obtain ⟨us, rfl⟩ := List.getLast?_eq_some_iff.mp hz
    have hhead := hf _ us z x ys n (by simpa using he) hzm hxm hn
    obtain ⟨k, hk⟩ := edge_live (.inr ha)
    have htxn := h.shape.txn_nextInTxn ha
    rw [LockTable.txn_of hn, LockTable.txn_of hk] at htxn
    obtain ⟨us, vs, hd⟩ := List.append_of_mem ((h.shape.owned k.txnId a).mpr ⟨k, hk, rfl⟩)
    rw [h.shape.inTxn _ us a vs hd] at ha
    obtain ⟨vs, rfl⟩ := List.head?_eq_some_iff.mp ha
    have hnodup := h.shape.nodupDeque k.txnId
    rw [htxn] at hhead
    rw [hd] at hhead hnodup
    cases us with
    | nil =>
      obtain rfl : a = x := by simpa using hhead
      simp at hnodup
    | cons b us =>
      obtain rfl : b = x := by simpa using hhead
      simp at hnodup

/-- `U` has to wait for another transaction `V`. -/
def Waits (t : LockTable) (T : TransactionId) (r : RecordId) (m : LockMode) (U V : TransactionId) : Prop :=
  U ≠ V ∧ BlockedBy t T r m U V

/-- From a lock that links lead from, a chain of waits leads to the owner of the lock they lead to. -/
theorem Orderly.waits_of_links (h : Orderly t q) (hf : SharesFirst t q) {a : Ptr} (hya : ReflTransGen (Link t) y a) :
    ∃ z, Fronts t z y ∧ ReflTransGen (Waits t T r m) (t.txn z) (t.txn a) := by
  induction hya using ReflTransGen.head_induction_on with
  | refl => exact ⟨a, .inl rfl, .refl⟩
  | @head y b hyb _ ih =>
    obtain ⟨z, hzb, hza⟩ := ih
    obtain ⟨x, hyx, htxn, hxb, hbetween⟩ := hyb
    have wait : Stops t (t.mode x) b → ∃ z, Fronts t z y ∧ ReflTransGen (Waits t T r m) (t.txn z) (t.txn a) := by
      intro hs
      refine ⟨y, .inl rfl, ?_⟩
      have hblocked := h.blockedBy (T := T) (r := r) (m := m) (hzb.ahead hxb) (hzb.stops hs)
      rw [htxn] at hblocked
      by_cases hne : t.txn y = t.txn z
      · exact hne ▸ hza
      · exact .head ⟨hne, hblocked⟩ hza
    cases hbetween with
    | conflict hc => exact wait (.inl hc)
    | waits hl => exact wait (.inr hl)
    | readers hxm hbm hl _ =>
      obtain rfl := h.first_of_readers hf hxb hxm hbm hyx
      exact ⟨z, .inr ⟨hxm, hl, hzb.ahead hxb⟩, hza⟩

theorem Orderly.fronts_mem (h : Orderly t q) (hzy : Fronts t z y) (hy : y ∈ q r) : z ∈ q r := by
  rcases hzy with rfl | ⟨-, -, hyz⟩
  · exact hy
  · obtain ⟨s, xs, ys, he, hz⟩ := h.shape.mem_ahead hyz
    obtain rfl := h.shape.byRecord.unique hy (by rw [he]; simp : y ∈ q s)
    rw [he]
    simp [hz]

/-- Where every transaction shares a record only with its first request and asks for no record
twice, a refused request would complete a cycle of transactions each of which waits for the
next one, and a transaction that runs alone is never refused. -/
theorem refusal_is_deadlock (h : Reachable apartSystem t) :
    (∀ T r m t', Step t (.lock T r m false) t' → AsksApart t (.lock T r m false) →
      ∃ n, 2 ≤ n ∧ ∃ txn : Nat → TransactionId, txn 0 = T ∧ txn n = T ∧
        ∀ k < n, txn k ≠ txn (k + 1) ∧ BlockedBy t T r m (txn k) (txn (k + 1))) ∧
    ∀ T, (∀ x n, t.heap x = some n → n.txnId = T) → ∀ r m, AsksApart t (.lock T r m false) →
      ∀ t', ¬ Step t (.lock T r m false) t' := by
  obtain ⟨q, hq, hf⟩ := reachable_sharesFirst h
  have circle : ∀ T r m t', Step t (.lock T r m false) t' → Circle t T r m := fun T r m t' hs =>
    hq.reaches_iff_circle.mp (hq.toThreaded.refused_iff.mp hs).1
  constructor
  · intro T r m t' hs ha
    obtain ⟨l, y, ys, a, n, hl, hy, hbetween, hc, hlast, hn, rfl⟩ := circle T r m t' hs
    obtain rfl := (hq.shape.walk r).unique hl
    rw [List.getLast?_eq_some_getLast (by simp)] at hlast
    have hlinks : ReflTransGen (Link t) y a :=
      List.relationReflTransGen_of_exists_isChain_cons ys hc (Option.some.inj hlast)
    obtain ⟨z, hzy, hza⟩ := hq.waits_of_links (T := n.txnId) (r := r) (m := m) hf hlinks
    have hstops : Stops t m y := by
      cases hbetween with
      | conflict hc => exact .inl hc
      | waits hl => exact .inr hl
      | readers hm hym =>
        have hnil := ha.2 y (by rw [hq.shape.tail, hy]) hm hym
        have hmem := (hq.shape.owned n.txnId a).mpr ⟨n, hn, rfl⟩
        simp [hnil] at hmem
    have hz : z ∈ q r := hq.fronts_mem hzy (List.mem_of_getLast? hy)
    obtain ⟨k, hk, hkr⟩ := (hq.shape.queued r z).mp hz
    have hne : n.txnId ≠ t.txn z := by
      rw [LockTable.txn_of hk]
      exact fun he => ha.1 z k hk he.symm hkr
    rw [LockTable.txn_of hn] at hza
    have hfirst : Waits t n.txnId r m n.txnId (t.txn z) :=
      ⟨hne, .inr ⟨rfl, q r, z, hl, hz, rfl, hzy.stops hstops⟩⟩
    obtain ⟨len, hlen, txn, h₀, hend, hsteps⟩ := Graph.exists_steps (.head' hfirst hza)
    refine ⟨len, ?_, txn, h₀, hend, hsteps⟩
    by_contra hlt
    obtain rfl : len = 1 := by omega
    exact (hsteps 0 (by omega)).1 (h₀.trans hend.symm)
  · intro T alone r m ha t' hs
    obtain ⟨l, y, ys, a, n, hl, hy, -⟩ := circle T r m t' hs
    obtain rfl := (hq.shape.walk r).unique hl
    obtain ⟨k, hk, hkr⟩ := (hq.shape.queued r y).mp (List.mem_of_getLast? hy)
    exact ha.1 y k hk (alone y k hk) hkr

theorem not_reaches_of_search {fuel : Nat} (h : t.checkDeadlock fuel T r = some false) :
    ¬ Reaches t T r := by
  rw [← checkDeadlock_iff h]
  simp

theorem reaches_of_search {fuel : Nat} (h : t.checkDeadlock fuel T r = some true) :
    Reaches t T r :=
  (checkDeadlock_iff h).mp rfl

/-- Transactions 1 and 2 write records 5 and 6, and 1 waits for record 6. -/
def crossedWriters : LockTable :=
  ((LockTable.empty.appended 0 .write 1 5 false).appended 1 .write 2 6 false).appended 2 .write 1 6 true

theorem crossedWriters_reachable : Reachable apartSystem crossedWriters := by
  have apart : ∀ {t T r b}, (∀ x n, t.heap x = some n → n.txnId = T → n.recordId ≠ r) →
      AsksApart t (.lock T r .write b) := fun h => ⟨h, fun _ _ hm => absurd hm (by decide)⟩
  have free₀ : ¬ Reaches .empty 1 5 := not_reaches_of_search (rfl : LockTable.checkDeadlock _ 2 _ _ = _)
  have h₁ := threaded_empty.appended (p := 0) (m := .write) rfl free₀ false
  have free₁ : ¬ Reaches (LockTable.empty.appended 0 .write 1 5 false) 2 6 :=
    not_reaches_of_search (rfl : LockTable.checkDeadlock _ 2 _ _ = _)
  have h₂ := h₁.appended (p := 1) (m := .write) rfl free₁ false
  have free₂ : ¬ Reaches ((LockTable.empty.appended 0 .write 1 5 false).appended 1 .write 2 6 false) 1 6 :=
    not_reaches_of_search (rfl : LockTable.checkDeadlock _ 4 _ _ = _)
  refine .step (.lock 1 6 .write true) (.step (.lock 2 6 .write true) (.step (.lock 1 5 .write true) (.init rfl)
    ⟨⟨threaded_empty.accepted rfl free₀ .write, ?_⟩, ?_⟩) ⟨⟨h₁.accepted rfl free₁ .write, ?_⟩, ?_⟩)
    ⟨⟨h₂.accepted rfl free₂ .write, ?_⟩, ?_⟩
  · rintro ⟨p, n, hp, -⟩
    cases hp
  · refine apart fun x n hn => ?_
    cases hn
  · rintro ⟨p, n, hp, -⟩
    cases hp
  · exact apart (h₁.shape.free_of_not_reaches free₁)
  · rintro ⟨p, n, hp, hn, hl⟩
    cases hp
    cases hn
    cases hl
  · exact apart (h₂.shape.free_of_not_reaches free₂)

theorem refusal_is_deadlock_crossedWriters :
    ∃ n, 2 ≤ n ∧ ∃ txn : Nat → TransactionId, txn 0 = 2 ∧ txn n = 2 ∧
      ∀ k < n, txn k ≠ txn (k + 1) ∧ BlockedBy crossedWriters 2 5 .write (txn k) (txn (k + 1)) := by
  obtain ⟨q, hq, -⟩ := reachable_sharesFirst crossedWriters_reachable
  refine (refusal_is_deadlock crossedWriters_reachable).1 2 5 .write crossedWriters
    (hq.toThreaded.refused_iff.mpr ⟨reaches_of_search (rfl : LockTable.checkDeadlock _ 6 _ _ = _), rfl⟩)
    ⟨?_, fun _ _ hm => absurd hm (by decide)⟩
  intro x n hn hT
  rcases LockTable.appended_cases hn with ⟨-, hT', -⟩ | ⟨-, k, hk, hT', hr, -⟩
  · exact absurd (hT'.symm.trans hT) (by decide)
  · rw [hr]
    rcases LockTable.appended_cases hk with ⟨-, -, hr', -⟩ | ⟨-, k', hk', hT'', -⟩
    · rw [hr']
      decide
    · rcases LockTable.appended_cases hk' with ⟨-, hT₀, -⟩ | ⟨-, _, hnone, -⟩
      · exact absurd ((hT''.trans hT₀).symm.trans (hT'.symm.trans hT)) (by decide)
      · cases hnone

/-! ### Requests that are refused and would not have waited -/

/-- Transaction 1 alone, with a READ lock on record 5. -/
def oneReader : LockTable := LockTable.empty.appended 0 .read 1 5 false

/-- Transaction 2 reads record 6, then 1 and 2 read record 5: no lock waits. -/
def sharedReaders : LockTable :=
  ((LockTable.empty.appended 0 .read 2 6 false).appended 1 .read 1 5 false).appended 2 .read 2 5 false

theorem oneReader_reachable : Reachable lockSystem oneReader := by
  have free : ¬ Reaches .empty 1 5 := not_reaches_of_search (rfl : LockTable.checkDeadlock _ 2 _ _ = _)
  refine .step (.lock 1 5 .read true) (.init rfl) ⟨threaded_empty.accepted rfl free .read, ?_⟩
  rintro ⟨p, n, hp, -⟩
  cases hp

theorem sharedReaders_reachable : Reachable lockSystem sharedReaders := by
  have free₀ : ¬ Reaches .empty 2 6 := not_reaches_of_search (rfl : LockTable.checkDeadlock _ 2 _ _ = _)
  have h₁ := threaded_empty.appended (p := 0) (m := .read) rfl free₀ false
  have free₁ : ¬ Reaches (LockTable.empty.appended 0 .read 2 6 false) 1 5 :=
    not_reaches_of_search (rfl : LockTable.checkDeadlock _ 2 _ _ = _)
  have h₂ := h₁.appended (p := 1) (m := .read) rfl free₁ false
  have free₂ : ¬ Reaches ((LockTable.empty.appended 0 .read 2 6 false).appended 1 .read 1 5 false) 2 5 :=
    not_reaches_of_search (rfl : LockTable.checkDeadlock _ 4 _ _ = _)
  have s₁ : Reachable lockSystem (LockTable.empty.appended 0 .read 2 6 false) := by
    refine .step (.lock 2 6 .read true) (.init rfl) ⟨threaded_empty.accepted rfl free₀ .read, ?_⟩
    rintro ⟨p, n, hp, -⟩
    cases hp
  have s₂ : Reachable lockSystem
      ((LockTable.empty.appended 0 .read 2 6 false).appended 1 .read 1 5 false) := by
    refine .step (.lock 1 5 .read true) s₁ ⟨h₁.accepted rfl free₁ .read, ?_⟩
    rintro ⟨p, n, hp, -⟩
    cases hp
  refine .step (.lock 2 5 .read true) s₂ ⟨h₂.accepted rfl free₂ .read, ?_⟩
  rintro ⟨p, n, hp, hn, hl⟩
  cases hp
  cases hn
  cases hl

theorem sharedReaders_granted (x : Ptr) :
    sharedReaders.mode x = .read ∧ sharedReaders.locked x = false := by
  by_cases h₂ : x = 2
  · subst h₂
    exact ⟨rfl, rfl⟩
  · rw [sharedReaders, LockTable.appended_mode h₂, LockTable.appended_locked h₂]
    by_cases h₁ : x = 1
    · subst h₁
      exact ⟨rfl, rfl⟩
    · rw [LockTable.appended_mode h₁, LockTable.appended_locked h₁]
      by_cases h₀ : x = 0
      · subst h₀
        exact ⟨rfl, rfl⟩
      · rw [LockTable.appended_mode h₀, LockTable.appended_locked h₀]
        exact ⟨rfl, rfl⟩

/-- A request that no lock would have blocked is refused, and so is a transaction that runs
alone and asks again for what it holds. -/
theorem spurious_refusal :
    ¬ (∀ t, Reachable lockSystem t → ∀ T r m, (∃ t', Step t (.lock T r m false) t') →
      ∃ n, 2 ≤ n ∧ ∃ txn : Nat → TransactionId, txn 0 = T ∧ txn n = T ∧
        ∀ k < n, BlockedBy t T r m (txn k) (txn (k + 1))) ∧
    ¬ (∀ t, Reachable lockSystem t → ∀ T, (∀ x n, t.heap x = some n → n.txnId = T) →
      ∀ r m t', ¬ Step t (.lock T r m false) t') := by
  constructor
  · intro h
    obtain ⟨q, hq⟩ := reachable_orderly sharedReaders_reachable
    have refused : Step sharedReaders (.lock 1 6 .read false) sharedReaders :=
      hq.toThreaded.refused_iff.mpr ⟨reaches_of_search (rfl : LockTable.checkDeadlock _ 6 _ _ = _), rfl⟩
    obtain ⟨n, hn, txn, -, -, hb⟩ := h _ sharedReaders_reachable 1 6 .read ⟨_, refused⟩
    have granted := sharedReaders_granted
    rcases hb 0 (by omega) with ⟨s, xs, x, ys, y, -, -, -, -, hc⟩ | ⟨-, l, y, -, -, -, hc⟩
    · simp [(granted x).1, (granted y).1, (granted y).2] at hc
    · simp [(granted y).1, (granted y).2] at hc
  · intro h
    obtain ⟨q, hq⟩ := reachable_orderly oneReader_reachable
    refine h _ oneReader_reachable 1 ?_ 5 .read oneReader
      (hq.toThreaded.refused_iff.mpr ⟨reaches_of_search (rfl : LockTable.checkDeadlock _ 2 _ _ = _), rfl⟩)
    intro x n hn
    rcases LockTable.appended_cases hn with ⟨-, hT, -⟩ | ⟨-, k, hk, -⟩
    · exact hT
    · cases hk

end Lock
