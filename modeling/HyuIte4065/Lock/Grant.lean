import HyuIte4065.Lock.Queues

/-!
# Exact grants

The `locked` flags of a record list say exactly what readers-writer locking in order
of arrival says, in every state that transactions reach which do nothing while they wait.
-/
namespace Lock

open LinkedList Transition

variable {t t' : LockTable} {q : RecordId → List Ptr} {d : TransactionId → List Ptr}
  {p x : Ptr} {n : LockNode} {xs ys l : List Ptr} {T : TransactionId} {r : RecordId}
  {m : LockMode} {c : Call} {mode : Ptr → LockMode}

/-- A lock behind the locks `xs` may run: it is the head, or it reads and so do all of them. -/
def Granted (mode : Ptr → LockMode) (xs : List Ptr) (x : Ptr) : Prop :=
  xs = [] ∨ (mode x = .read ∧ ∀ y ∈ xs, mode y = .read)

theorem not_read {m : LockMode} : m ≠ .read ↔ m = .write := by cases m <;> simp

/-- The grants of a run of readers, seen from inside the list. -/
theorem mem_takeWhile_read (hx : x ∉ xs) :
    x ∈ (xs ++ x :: ys).takeWhile (fun y => decide (mode y = .read)) ↔
      mode x = .read ∧ ∀ y ∈ xs, mode y = .read := by
  induction xs with
  | nil => by_cases h : mode x = .read <;> simp [h]
  | cons a xs ih =>
    obtain ⟨hxa, hxs⟩ : x ≠ a ∧ x ∉ xs := by simpa using hx
    by_cases h : mode a = .read
    · simp [h, hxa, ih hxs]
    · simp [h]

theorem mem_grantPrefix (hx : x ∉ xs) :
    x ∈ grantPrefix mode (xs ++ x :: ys) ↔ Granted mode xs x := by
  cases xs with
  | nil => by_cases h : mode x = .write <;> simp [grantPrefix, Granted, h]
  | cons a xs =>
    obtain ⟨hxa, hxs⟩ : x ≠ a ∧ x ∉ xs := by simpa using hx
    by_cases h : mode a = .write
    · simp [grantPrefix, Granted, h, hxa]
    · have ha : mode a = .read := by cases hm : mode a <;> simp_all
      simp [grantPrefix, Granted, ha, hxa, mem_takeWhile_read hxs]

theorem grantPrefix_isPrefix (mode : Ptr → LockMode) (l : List Ptr) : grantPrefix mode l <+: l := by
  cases l with
  | nil => exact List.prefix_rfl
  | cons a l =>
    simp only [grantPrefix]
    split
    · exact ⟨l, rfl⟩
    · exact List.cons_prefix_cons.mpr ⟨rfl, l.dropWhile _, List.takeWhile_append_dropWhile⟩

/-- What the flags say split by split, they say for the list as a whole. -/
theorem filter_eq_grantPrefix {locked : Ptr → Bool} (nodup : l.Nodup)
    (h : ∀ xs x ys, l = xs ++ x :: ys → (locked x = false ↔ Granted mode xs x)) :
    l.filter (fun p => !locked p) = grantPrefix mode l := by
  have mem : ∀ x ∈ l, (!locked x) = decide (x ∈ grantPrefix mode l) := by
    intro x hx
    obtain ⟨xs, ys, rfl⟩ := List.append_of_mem hx
    have hxs : x ∉ xs := fun hm => (List.nodup_append.mp nodup).2.2 x hm x (by simp) rfl
    rw [Bool.eq_iff_iff, decide_eq_true_eq, mem_grantPrefix hxs, ← h xs x ys rfl]
    simp
  rw [List.filter_congr mem]
  obtain ⟨zs, hz⟩ := grantPrefix_isPrefix mode l
  generalize grantPrefix mode l = g at hz
  subst hz
  have hzs : ∀ x ∈ zs, x ∉ g := fun x hx hg => (List.nodup_append.mp nodup).2.2 x hg x hx rfl
  rw [List.filter_append, List.filter_eq_self.mpr (by simp), List.filter_eq_nil_iff.mpr (by simpa),
    List.append_nil]

/-- The flags of a table are exact, and only the newest lock of a transaction can wait. -/
structure Exact (t : LockTable) (q : RecordId → List Ptr) (d : TransactionId → List Ptr) : Prop where
  flag : ∀ r xs x ys, q r = xs ++ x :: ys → (t.locked x = false ↔ Granted t.mode xs x)
  newest : ∀ x n, t.heap x = some n → n.locked = true → (d n.txnId).getLast? = some x

theorem granted_congr {mode' : Ptr → LockMode} (hx : mode' x = mode x)
    (hxs : ∀ y ∈ xs, mode' y = mode y) : Granted mode' xs x ↔ Granted mode xs x := by
  refine or_congr_right ?_
  rw [hx]
  refine and_congr_right fun _ => forall₂_congr fun y hy => ?_
  rw [hxs y hy]

theorem mustWait_iff : t.mustWait l m = false ↔ l = [] ∨ (m = .read ∧ ∀ y ∈ l, t.mode y = .read) := by
  cases m with
  | read =>
    simp only [LockTable.mustWait, List.any_eq_false, decide_eq_true_eq, true_and]
    constructor
    · intro h
      exact .inr fun y hy => not_not.mp fun hn => h y hy (not_read.mp hn)
    · rintro (rfl | h) y hy
      · simp at hy
      · simp [h y hy]
  | write => simp [LockTable.mustWait]

/-- A granted request of a transaction that is not waiting. -/
theorem Exact.appended (h : Exact t q t.lockPerTxn) (hs : Threaded t q) (fresh : t.heap p = none)
    (hw : ¬ t.Waiting T) :
    Exact (t.appended p m T r (t.mustWait (q r) m)) (Function.update q r (q r ++ [p]))
      (t.appended p m T r (t.mustWait (q r) m)).lockPerTxn := by
  have ne_of_mem : ∀ r {x}, x ∈ q r → x ≠ p := by
    rintro r x hx rfl
    obtain ⟨n, hn⟩ := hs.shape.live hx
    simp [fresh] at hn
  have old : ∀ r' xs x ys, q r' = xs ++ x :: ys →
      ((t.appended p m T r (t.mustWait (q r) m)).locked x = false ↔
        Granted (t.appended p m T r (t.mustWait (q r) m)).mode xs x) := by
    intro r' xs x ys he
    have hx : x ≠ p := ne_of_mem r' (by simp [he])
    rw [LockTable.appended_locked hx, h.flag r' xs x ys he]
    refine (granted_congr (LockTable.appended_mode hx) fun y hy => ?_).symm
    exact LockTable.appended_mode (ne_of_mem r' (by simp [he, hy]))
  constructor
  · intro r' xs x ys he
    by_cases hr : r' = r
    · subst hr
      rw [Function.update_self] at he
      rcases List.eq_nil_or_concat' ys with rfl | ⟨zs, z, rfl⟩
      · obtain ⟨rfl, hx⟩ := List.append_inj' he rfl
        obtain rfl : p = x := by simpa using hx
        rw [LockTable.locked_of LockTable.appended_new, mustWait_iff, Granted,
          LockTable.mode_of LockTable.appended_new]
        refine or_congr_right (and_congr_right fun _ => forall₂_congr fun y hy => ?_)
        rw [LockTable.appended_mode (ne_of_mem r' hy)]
      · have he' : q r' ++ [p] = (xs ++ x :: zs) ++ [z] := by simpa using he
        exact old r' xs x zs (List.append_inj' he' rfl).1
    · rw [Function.update_of_ne hr] at he
      exact old r' xs x ys he
  · intro x n hn hl
    rcases LockTable.appended_cases hn with ⟨rfl, hT, -⟩ | ⟨hx, k, hk, hT, -, -, hlk⟩
    · simp [LockTable.appended, hT]
    · have hlast := h.newest x k hk (hlk ▸ hl)
      have hne : k.txnId ≠ T := by
        rintro rfl
        exact hw ⟨x, k, hlast, hk, hlk ▸ hl⟩
      rw [hT]
      simpa only [LockTable.appended, Function.update_of_ne hne] using hlast

/-- The flags behind the lock that is taken out of its list. -/
theorem Exact.turn_flag (h : Exact t q d) (hs : Shape t q d) (hq : q n.recordId = xs ++ p :: ys)
    (hp : Granted t.mode xs p) {us vs : List Ptr} {x : Ptr} (he : xs ++ ys = us ++ x :: vs) :
    (t.locked x && !decide (x ∈ if xs = [] then grantPrefix t.mode ys else [])) = false ↔
      Granted t.mode us x := by
  have hnd : (xs ++ p :: ys).Nodup := hq ▸ hs.nodupQueue n.recordId
  by_cases hxs : xs = []
  · -- the head goes: the granted prefix of the rest is woken
    subst hxs
    have hys : ys = us ++ x :: vs := by simpa using he
    have hnx : x ∉ us := by
      have hnd' : (us ++ x :: vs).Nodup := hys ▸ (List.nodup_cons.mp hnd).2
      exact fun hm => (List.nodup_append.mp hnd').2.2 x hm x (by simp) rfl
    rw [if_pos rfl, Bool.and_eq_false_iff, hys]
    simp only [Bool.not_eq_false', decide_eq_true_eq, mem_grantPrefix hnx]
    refine or_iff_right_of_imp fun hl => ?_
    rcases (h.flag n.recordId (p :: us) x vs (by simp [hq, hys])).mp hl with hl | ⟨hm, hl⟩
    · contradiction
    · exact .inr ⟨hm, fun y hy => hl y (by simp [hy])⟩
  · -- a granted lock behind the head reads, as does everything before it
    obtain ⟨hpr, hxr⟩ := hp.resolve_left hxs
    simp only [if_neg hxs, List.not_mem_nil, decide_false, Bool.not_false, Bool.and_true]
    rcases List.append_eq_append_iff.mp he with ⟨ws, rfl, rfl⟩ | ⟨ws, rfl, hv⟩
    · rw [h.flag n.recordId (xs ++ p :: ws) x vs (by simp [hq])]
      simp [Granted, hpr, hxs, or_imp, forall_and]
    · cases ws with
      | nil =>
        obtain rfl : x :: vs = ys := by simpa using hv
        rw [h.flag n.recordId (us ++ [p]) x vs (by simpa using hq)]
        have hne : us ≠ [] := by simpa using hxs
        simp [Granted, hpr, hne, or_imp, forall_and]
      | cons b ws =>
        obtain ⟨rfl, rfl⟩ : x = b ∧ vs = ws ++ ys := by simpa using hv
        exact h.flag n.recordId us x (ws ++ p :: ys) (by simpa using hq)

/-- One turn of the loop of `unlock`, when the lock taken out is granted. -/
theorem Exact.turn (h : Exact t q d) (hs : Shape t q d) {rest : List Ptr} (hd : d T = p :: rest)
    (free : ∀ x ∈ d T, t.locked x = false) (hn : t.heap p = some n)
    (hq : q n.recordId = xs ++ p :: ys) :
    Exact (t.turn p n xs ys) (fun r => (q r).filter fun x => decide (x ≠ p))
      (Function.update d T rest) := by
  have hnd : (xs ++ p :: ys).Nodup := hq ▸ hs.nodupQueue n.recordId
  have hp : Granted t.mode xs p := (h.flag _ xs p ys hq).mp (free p (by simp [hd]))
  have hmode : ∀ {r x}, x ∈ (q r).filter (fun x => decide (x ≠ p)) →
      (t.turn p n xs ys).mode x = t.mode x := by
    intro r x hx
    exact LockTable.released_mode (by simpa using (List.mem_filter.mp hx).2)
  constructor
  · intro r us x vs he
    have hx : x ∈ (q r).filter fun x => decide (x ≠ p) := by
      rw [he]
      simp
    have hxp : x ≠ p := by simpa using (List.mem_filter.mp hx).2
    have hus : ∀ y ∈ us, (t.turn p n xs ys).mode y = t.mode y :=
      fun y hy => hmode (r := r) (by rw [he]; simp [hy])
    rw [granted_congr (hmode hx) hus, LockTable.turn, LockTable.released_locked hxp]
    by_cases hr : r = n.recordId
    · subst hr
      rw [hq, filter_ne_of_split hnd] at he
      exact h.turn_flag hs hq hp he
    · have hxq : x ∈ q r := (List.mem_filter.mp hx).1
      have hw : x ∉ (if xs = [] then grantPrefix t.mode ys else []) := by
        intro hw
        have hxy : x ∈ ys := by
          by_cases hxs : xs = []
          · rw [if_pos hxs] at hw
            exact (grantPrefix_isPrefix t.mode ys).subset hw
          · rw [if_neg hxs] at hw
            exact absurd hw List.not_mem_nil
        exact hr (hs.byRecord.unique hxq (by simp [hq, hxy]))
      rw [hs.filter_queue hn hq, if_neg hr] at he
      simpa [hw] using h.flag r us x vs he
  · intro x k hk hl
    obtain ⟨-, k₀, hk₀, hT, -, -, -, hlk⟩ := LockTable.released_cases hk
    rw [hlk] at hl
    have hl₀ := (Bool.and_eq_true_iff.mp hl).1
    have hne : k.txnId ≠ T := by
      rintro rfl
      have := free x ((hs.owned _ x).mpr ⟨k₀, hk₀, hT.symm⟩)
      rw [LockTable.locked_of hk₀, hl₀] at this
      contradiction
    rw [Function.update_of_ne hne, hT]
    exact h.newest x k₀ hk₀ hl₀

/-! ### Over whole runs -/

/-- The lists of a table in which transactions do nothing while they wait. -/
structure Orderly (t : LockTable) (q : RecordId → List Ptr) : Prop extends Threaded t q where
  exact : Exact t q t.lockPerTxn

/-- A transaction whose newest lock is granted holds granted locks only. -/
theorem Orderly.free (h : Orderly t q) (hw : ¬ t.Waiting T) {x : Ptr} (hx : x ∈ t.lockPerTxn T) :
    t.locked x = false := by
  obtain ⟨n, hn, rfl⟩ := (h.shape.owned T x).mp hx
  rw [LockTable.locked_of hn, Bool.eq_false_iff]
  exact fun hl => hw ⟨x, n, h.exact.newest x n hn hl, hn, hl⟩

theorem Orderly.appended (h : Orderly t q) (fresh : t.heap p = none) (hr : ¬ Reaches t T r)
    (hw : ¬ t.Waiting T) :
    Orderly (t.appended p m T r (t.mustWait (q r) m)) (Function.update q r (q r ++ [p])) :=
  ⟨h.toThreaded.appended fresh hr _, h.exact.appended h.toThreaded fresh hw⟩

theorem Orderly.unlock (h : Orderly t q) (hw : ¬ t.Waiting T) {fuel : Nat}
    (hu : t.unlock fuel T = some t') :
    Orderly t' fun r => (q r).filter fun x => decide (x ∉ t.lockPerTxn T) := by
  refine ⟨(h.toThreaded.unlock hu).1, ?_⟩
  have start : Exact t q t.lockPerTxn ∧ ∀ x ∈ t.lockPerTxn T, t.locked x = false :=
    ⟨h.exact, fun x hx => h.free hw hx⟩
  obtain ⟨-, ⟨hE, -⟩, -⟩ := h.shape.unlock
    (P := fun t q d => Exact t q d ∧ ∀ x ∈ d T, t.locked x = false) (by
      rintro t q d p n xs ys rest hs ⟨hE, free⟩ hd hn hq
      refine ⟨hE.turn hs hd free hn hq, fun x hx => ?_⟩
      rw [Function.update_self] at hx
      have hp : p ∉ rest := (List.nodup_cons.mp (hd ▸ hs.nodupDeque T)).1
      have hne : x ≠ p := fun he => hp (he ▸ hx)
      rw [LockTable.turn, LockTable.released_locked hne, free x (by simp [hd, hx])]
      rfl)
    (fun _ hP => ⟨⟨hP.1.flag, hP.1.newest⟩, hP.2⟩) start hu
  exact hE

theorem Orderly.step (h : Orderly t q) (hs : lockSystem.step t c t') : ∃ q', Orderly t' q' := by
  obtain ⟨hs, hw⟩ := hs
  rcases h.toThreaded.step_cases hs with ⟨T, r, m, -, -, rfl⟩ |
    ⟨T, r, m, p, rfl, hr, fresh, rfl⟩ | ⟨T, fuel, rfl, hu⟩
  · exact ⟨q, h⟩
  · exact ⟨_, h.appended fresh hr hw⟩
  · exact ⟨_, h.unlock hw hu⟩

theorem reachable_orderly (h : Reachable lockSystem t) : ∃ q, Orderly t q := by
  refine h.invariant (I := fun t => ∃ q, Orderly t q) ?_ ?_
  · rintro s rfl
    refine ⟨_, threaded_empty, ?_, ?_⟩
    · intro r xs x ys he
      simp at he
    · intro x n hn
      simp [LockTable.empty] at hn
  · rintro s l s' - ⟨q, hq⟩ hs
    exact hq.step hs

theorem Granted.ahead (h : Granted mode (xs ++ p :: ys) x) : Granted mode xs p ∧ mode p = .read := by
  rcases h with h | ⟨-, h⟩
  · simp at h
  · exact ⟨.inr ⟨h p (by simp), fun y hy => h y (by simp [hy])⟩, h p (by simp)⟩

/-- Two locks of a list that may both run do not conflict. -/
theorem Orderly.compatible (h : Orderly t q) {y : Ptr} (hx : x ∈ q r) (hy : y ∈ q r) (hne : x ≠ y)
    (hlx : t.locked x = false) (hly : t.locked y = false) :
    t.mode x = .read ∧ t.mode y = .read := by
  obtain ⟨xs, ys, he⟩ := List.append_of_mem hx
  rw [he] at hy
  have hy' : y ∈ xs ∨ y ∈ ys := by simpa [Ne.symm hne] using hy
  have hgx := (h.exact.flag r xs x ys he).mp hlx
  rcases hy' with hy | hy
  · rcases hgx with rfl | ⟨hx, hxs⟩
    · simp at hy
    · exact ⟨hx, hxs y hy⟩
  · obtain ⟨us, vs, rfl⟩ := List.append_of_mem hy
    rcases (h.exact.flag r (xs ++ x :: us) y vs (by simp [he])).mp hly with hm | ⟨hy, hm⟩
    · simp at hm
    · exact ⟨hm x (by simp), hy⟩

/-- A lock waits only behind a lock it conflicts with. -/
theorem Orderly.conflict_ahead (h : Orderly t q) (he : q r = xs ++ x :: ys)
    (hl : t.locked x = true) : ∃ y ∈ xs, t.mode x = .write ∨ t.mode y = .write := by
  by_contra hc
  push Not at hc
  have hg : Granted t.mode xs x := by
    cases xs with
    | nil => exact .inl rfl
    | cons a xs =>
      have hx : t.mode x = .read := by
        by_contra hm
        exact (hc a (by simp)).1 (not_read.mp hm)
      refine .inr ⟨hx, fun y hy => ?_⟩
      by_contra hm
      exact (hc y hy).2 (not_read.mp hm)
  rw [(h.exact.flag r xs x ys he).mpr hg] at hl
  contradiction

/-- In every reachable state the granted locks of a record are exactly the maximal compatible
prefix of its list. So two granted locks never conflict, a waiting lock has a conflicting lock
ahead of it, and nothing waits ahead of a granted lock. -/
theorem granted_is_grantPrefix (h : Reachable lockSystem t) (r : RecordId) :
    ∃ l, Walk t.next (t.lockPerRecord r).head l ∧
      (∀ p, p ∈ l ↔ ∃ n, t.heap p = some n ∧ n.recordId = r) ∧
      l.filter (fun p => !t.locked p) = grantPrefix t.mode l ∧
      (∀ x ∈ l, ∀ y ∈ l, x ≠ y → t.locked x = false → t.locked y = false →
        t.mode x = .read ∧ t.mode y = .read) ∧
      (∀ xs x ys, l = xs ++ x :: ys → t.locked x = true →
        ∃ y ∈ xs, t.mode x = .write ∨ t.mode y = .write) ∧
      (∀ xs x ys, l = xs ++ x :: ys → t.locked x = false → ∀ y ∈ xs, t.locked y = false) := by
  obtain ⟨q, hq⟩ := reachable_orderly h
  refine ⟨q r, hq.shape.walk r, hq.shape.queued r,
    filter_eq_grantPrefix (hq.shape.nodupQueue r) (hq.exact.flag r),
    fun x hx y hy => hq.compatible hx hy, fun xs x ys => hq.conflict_ahead, ?_⟩
  intro xs x ys he hl y hy
  obtain ⟨us, vs, rfl⟩ := List.append_of_mem hy
  have hg := (hq.exact.flag r _ x ys he).mp hl
  exact (hq.exact.flag r us y (vs ++ x :: ys) (by simp [he])).mpr hg.ahead.1

theorem writerBehindReader_orderly : Reachable lockSystem writerBehindReader := by
  refine .step (.lock 2 5 .write true) (.step (.lock 1 5 .read true) (.init rfl) ⟨.accepted 2 0 rfl rfl, ?_⟩)
    ⟨.accepted 6 1 rfl rfl, ?_⟩
  · rintro ⟨p, n, hp, -⟩
    cases hp
  · rintro ⟨p, n, hp, -⟩
    cases hp

theorem granted_is_grantPrefix_writerBehindReader :
    ∃ l, Walk writerBehindReader.next (some 0) l ∧
      l.filter (fun p => !writerBehindReader.locked p) = grantPrefix writerBehindReader.mode l := by
  obtain ⟨l, hl, -, hg, -⟩ := granted_is_grantPrefix writerBehindReader_orderly 5
  exact ⟨l, hl, hg⟩

end Lock
