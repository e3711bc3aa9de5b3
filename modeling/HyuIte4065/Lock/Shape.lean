import HyuIte4065.Lock.Table
import HyuIte4065.Library.LinkedList
import HyuIte4065.Library.Filing
import HyuIte4065.Library.Graph

/-!
# What one operation does to the heap

The record lists as plain lists of nodes, and closed forms of the two changes of the
structure: a lock put behind the tail of its list, and a lock taken out of it.
-/
namespace Lock

open LinkedList Filing

namespace LockTable

variable {t t' : LockTable} {p x : Ptr} {n : LockNode}

def next (t : LockTable) (p : Ptr) : Option Ptr := (t.heap p).bind (·.next)
def prev (t : LockTable) (p : Ptr) : Option Ptr := (t.heap p).bind (·.prev)
def nextInTxn (t : LockTable) (p : Ptr) : Option Ptr := (t.heap p).bind (·.nextInTxn)
def mode (t : LockTable) (p : Ptr) : LockMode := ((t.heap p).map (·.lockMode)).getD .read
def locked (t : LockTable) (p : Ptr) : Bool := ((t.heap p).map (·.locked)).getD false

theorem next_of (h : t.heap p = some n) : t.next p = n.next := by simp [next, h]
theorem prev_of (h : t.heap p = some n) : t.prev p = n.prev := by simp [prev, h]
theorem nextInTxn_of (h : t.heap p = some n) : t.nextInTxn p = n.nextInTxn := by simp [nextInTxn, h]
theorem mode_of (h : t.heap p = some n) : t.mode p = n.lockMode := by simp [mode, h]
theorem locked_of (h : t.heap p = some n) : t.locked p = n.locked := by simp [locked, h]

theorem modify_eq (h : t.heap p = some n) (f : LockNode → LockNode) :
    t.modify p f = some { t with heap := Function.update t.heap p (some (f n)) } := by
  simp [modify, h]

/-- The heap after `connect`: the new node, and the two nodes that now point to it. -/
def connected (t : LockTable) (p : Ptr) (lockMode : LockMode) (T : TransactionId) (r : RecordId)
    (behind : Bool) : LockTable where
  heap x := if x = p then some { LockNode.new lockMode T r with
      prev := (t.lockPerRecord r).tail, locked := behind && (t.lockPerRecord r).tail.isSome }
    else (t.heap x).map fun n => { n with
      nextInTxn := if (t.lockPerTxn T).getLast? = some x then some p else n.nextInTxn
      next := if (t.lockPerRecord r).tail = some x then some p else n.next }
  lockPerTxn := t.lockPerTxn
  lockPerRecord := Function.update t.lockPerRecord r
    ⟨if (t.lockPerRecord r).tail = none then some p else (t.lockPerRecord r).head, some p⟩

/-- The second half of `connect`: the new node is put behind the tail. -/
theorem connect_tail {lockMode : LockMode} {T : TransactionId} {r : RecordId} (behind : Bool)
    (hp : t.heap p = some (LockNode.new lockMode T r))
    (htail : ∀ x, (t.lockPerRecord r).tail = some x → x ≠ p ∧ ∃ n, t.heap x = some n) :
    (match (t.lockPerRecord r).tail with
      | none => some (t.setList r ⟨some p, some p⟩)
      | some tail => do
        let t ← t.modify p fun n => { n with prev := some tail }
        let t ← t.modify tail fun n => { n with next := some p }
        let t := t.setList r { t.lockPerRecord r with tail := some p }
        t.modify p fun n => { n with locked := behind }) =
    some { t with
      heap := fun x => if x = p then some { LockNode.new lockMode T r with
          prev := (t.lockPerRecord r).tail, locked := behind && (t.lockPerRecord r).tail.isSome }
        else (t.heap x).map fun n => { n with
          next := if (t.lockPerRecord r).tail = some x then some p else n.next }
      lockPerRecord := Function.update t.lockPerRecord r
        ⟨if (t.lockPerRecord r).tail = none then some p else (t.lockPerRecord r).head, some p⟩ } := by
  cases ht : (t.lockPerRecord r).tail with
  | none =>
    simp only [setList]
    congr 2
    funext x
    by_cases hx : x = p
    · simp [hx, hp, LockNode.new]
    · simp [hx]
  | some tail =>
    obtain ⟨htp, m, hm⟩ := htail tail ht
    simp only [modify, hp, Option.map_some, Option.bind_eq_bind, Option.bind_some, Function.update_self,
      Function.update_of_ne htp, Function.update_of_ne htp.symm, hm, setList]
    congr 2
    funext x
    by_cases hx : x = p
    · simp [hx]
    · by_cases hxt : x = tail
      · simp [hxt, htp, hm]
      · simp [hx, hxt, Ne.symm hxt]

theorem connect_eq {lockMode : LockMode} {T : TransactionId} {r : RecordId} (behind : Bool)
    (fresh : t.heap p = none)
    (hback : ∀ x, (t.lockPerTxn T).getLast? = some x → ∃ n, t.heap x = some n)
    (htail : ∀ x, (t.lockPerRecord r).tail = some x → ∃ n, t.heap x = some n) :
    t.connect p lockMode T r behind = some (t.connected p lockMode T r behind) := by
  have hne : ∀ x, (∃ n, t.heap x = some n) → x ≠ p := by
    rintro x ⟨n, hn⟩ rfl
    simp [fresh] at hn
  let t₁ : LockTable := { t with heap := Function.update t.heap p (some (LockNode.new lockMode T r)) }
  have hp₁ : t₁.heap p = some (LockNode.new lockMode T r) := Function.update_self ..
  cases hb : (t.lockPerTxn T).getLast? with
  | none =>
    simp only [connect, hb, Option.bind_eq_bind, Option.bind_some]
    refine (connect_tail (t := t₁) behind hp₁ fun x hx => ?_).trans ?_
    · have hxp := hne x (htail x hx)
      exact ⟨hxp, by simpa only [t₁, Function.update_of_ne hxp] using htail x hx⟩
    · simp only [connected, hb, t₁]
      congr 2
      funext x
      by_cases hx : x = p <;> simp [hx]
  | some back =>
    obtain ⟨m, hm⟩ := hback back hb
    have hbp := hne back ⟨m, hm⟩
    let t₂ : LockTable := { t with
      heap := Function.update t₁.heap back (some { m with nextInTxn := some p }) }
    have hp₂ : t₂.heap p = some (LockNode.new lockMode T r) :=
      (Function.update_of_ne hbp.symm _ _).trans hp₁
    simp only [connect, hb, modify, Function.update_of_ne hbp, hm, Option.map_some, Option.bind_eq_bind,
      Option.bind_some]
    refine (connect_tail (t := t₂) behind hp₂ fun x hx => ?_).trans ?_
    · have hxp := hne x (htail x hx)
      refine ⟨hxp, ?_⟩
      by_cases hxb : x = back
      · exact ⟨_, by rw [hxb]; exact Function.update_self ..⟩
      · simpa only [t₂, t₁, Function.update_of_ne hxb, Function.update_of_ne hxp] using htail x hx
    · simp only [connected, hb, t₁, t₂]
      congr 2
      funext x
      by_cases hx : x = p
      · simp [hx]
      · by_cases hxb : x = back
        · simp [hxb, hbp, hm]
        · simp [hx, hxb, Ne.symm hxb]

/-! ### The two walks along a record list -/

theorem findWrite_eq {fuel : Nat} {start : Option Ptr} {l : List Ptr} (h : Walk t.prev start l)
    (live : ∀ x ∈ l, ∃ n, t.heap x = some n) (hfuel : l.length < fuel) :
    t.findWrite fuel start = some (l.any fun x => decide (t.mode x = .write)) := by
  induction h generalizing fuel with
  | nil =>
    obtain ⟨fuel, rfl⟩ : ∃ k, fuel = k + 1 := ⟨fuel - 1, by omega⟩
    rfl
  | @cons a l _ ih =>
    obtain ⟨fuel, rfl⟩ : ∃ k, fuel = k + 1 := ⟨fuel - 1, by omega⟩
    obtain ⟨n, hn⟩ := live a (by simp)
    have hl : l.length < fuel := by simpa using hfuel
    have ih := ih (fun x hx => live x (by simp [hx])) hl
    rw [prev_of hn] at ih
    by_cases hm : n.lockMode = .write
    · simp [findWrite, hn, hm, mode_of hn]
    · simp [findWrite, hn, hm, mode_of hn, ih]

theorem findWrite_mono {fuel more : Nat} (hle : fuel ≤ more) {start : Option Ptr} {b : Bool}
    (h : t.findWrite fuel start = some b) : t.findWrite more start = some b := by
  induction fuel generalizing more start with
  | zero => simp [findWrite] at h
  | succ fuel ih =>
    obtain ⟨more, rfl⟩ : ∃ k, more = k + 1 := ⟨more - 1, by omega⟩
    cases start with
    | none => simpa [findWrite] using h
    | some a =>
      cases hn : t.heap a with
      | none => simp [findWrite, hn] at h
      | some n =>
        simp only [findWrite, hn, Option.bind_eq_bind, Option.bind_some] at h ⊢
        split at h
        · next hw => rw [if_pos hw]; exact h
        · next hw => rw [if_neg hw]; exact ih (by omega) h

/-! A node that is written back with its `next` and its mode changes neither walk. -/

theorem next_update (ht : t'.heap = Function.update t.heap p (some m)) (hn : t.heap p = some n)
    (hm : m.next = n.next) : t'.next = t.next := by
  funext x
  by_cases hx : x = p <;> simp [next, ht, hx, hn, hm]

theorem mode_update (ht : t'.heap = Function.update t.heap p (some m)) (hn : t.heap p = some n)
    (hm : m.lockMode = n.lockMode) : t'.mode = t.mode := by
  funext x
  by_cases hx : x = p <;> simp [mode, ht, hx, hn, hm]

theorem live_update {l : List Ptr} (ht : t'.heap = Function.update t.heap p (some m))
    (live : ∀ x ∈ l, ∃ n, t.heap x = some n) : ∀ x ∈ l, ∃ n, t'.heap x = some n := by
  intro x hx
  rw [ht]
  by_cases hxp : x = p
  · exact ⟨m, by rw [hxp, Function.update_self]⟩
  · rw [Function.update_of_ne hxp]
    exact live x hx

/-- The table with the `locked` flags of some nodes cleared. -/
def woken (t : LockTable) (w : List Ptr) : LockTable :=
  { t with heap := fun x => (t.heap x).map fun m => { m with locked := m.locked && !decide (x ∈ w) } }

theorem wakeReaders_eq {fuel : Nat} {start : Option Ptr} {l : List Ptr} (h : Walk t.next start l)
    (live : ∀ x ∈ l, ∃ n, t.heap x = some n) (hfuel : l.length < fuel) :
    t.wakeReaders fuel start = some (t.woken (l.takeWhile fun x => decide (t.mode x = .read))) := by
  induction l generalizing t fuel start with
  | nil =>
    cases h
    obtain ⟨fuel, rfl⟩ : ∃ k, fuel = k + 1 := ⟨fuel - 1, by omega⟩
    simp [wakeReaders, woken]
  | cons a l ih =>
    cases h with
    | cons h =>
    obtain ⟨fuel, rfl⟩ : ∃ k, fuel = k + 1 := ⟨fuel - 1, by omega⟩
    obtain ⟨n, hn⟩ := live a (by simp)
    have hl : l.length < fuel := by simpa using hfuel
    by_cases hm : n.lockMode = .read
    · -- the woken node keeps its mode and its `next`, so the rest of the walk is as before
      let t₁ : LockTable := { t with heap := Function.update t.heap a (some { n with locked := false }) }
      have hnext : t₁.next = t.next := next_update rfl hn rfl
      have hmode : t₁.mode = t.mode := mode_update rfl hn rfl
      have live₁ : ∀ x ∈ l, ∃ n, t₁.heap x = some n :=
        live_update rfl fun x hx => live x (List.mem_cons_of_mem a hx)
      have ih := ih (hnext.symm ▸ h) live₁ hl
      rw [hmode, hnext, next_of hn] at ih
      have hstep : t.wakeReaders (fuel + 1) (some a) = t₁.wakeReaders fuel n.next := by
        simp [wakeReaders, hn, hm, modify_eq hn, t₁]
      rw [hstep, ih]
      simp only [List.takeWhile_cons, mode_of hn, hm, decide_true, if_true, woken, t₁]
      congr 2
      funext x
      by_cases hx : x = a
      · simp [hx, hn, hm]
      · simp [hx]
    · simp [wakeReaders, hn, hm, woken, mode_of hn]

theorem wakeReaders_mono {fuel more : Nat} (hle : fuel ≤ more) {start : Option Ptr}
    (h : t.wakeReaders fuel start = some t') : t.wakeReaders more start = some t' := by
  induction fuel generalizing t more start with
  | zero => simp [wakeReaders] at h
  | succ fuel ih =>
    obtain ⟨more, rfl⟩ : ∃ k, more = k + 1 := ⟨more - 1, by omega⟩
    cases start with
    | none => simpa [wakeReaders] using h
    | some a =>
      cases hn : t.heap a with
      | none => simp [wakeReaders, hn] at h
      | some n =>
        simp only [wakeReaders, hn, modify_eq hn, Option.bind_eq_bind, Option.bind_some] at h ⊢
        split at h
        · next hw => rw [if_pos hw]; exact ih (by omega) h
        · next hw => rw [if_neg hw]; exact h

end LockTable

/-- The locks of a record list that are granted: the head alone if it is a WRITE lock,
otherwise the whole leading run of READ locks. -/
def grantPrefix (mode : Ptr → LockMode) : List Ptr → List Ptr
  | [] => []
  | p :: ps => if mode p = .write then [p] else p :: ps.takeWhile fun x => decide (mode x = .read)

/-- `unlock` looks at the node that has become the head and wakes the granted prefix behind it. -/
theorem LockTable.wakeFront_eq {t : LockTable} {y : Ptr} {ys : List Ptr} {m : LockNode} {fuel : Nat}
    (h : Walk t.next (some y) (y :: ys)) (live : ∀ x ∈ y :: ys, ∃ n, t.heap x = some n)
    (hy : t.heap y = some m) (hfuel : (y :: ys).length < fuel) :
    (if m.lockMode = .write then t.modify y fun m => { m with locked := false }
      else t.wakeReaders fuel (some y)) = some (t.woken (grantPrefix t.mode (y :: ys))) := by
  by_cases hw : m.lockMode = .write
  · rw [if_pos hw, modify_eq hy]
    simp only [grantPrefix, mode_of hy, hw, if_true, woken]
    congr 2
    funext x
    by_cases hx : x = y
    · simp [hx, hy, hw]
    · cases hxm : t.heap x <;> simp [hx, hxm]
  · have hr : m.lockMode = .read := by
      cases hc : m.lockMode with
      | read => rfl
      | write => exact absurd hc hw
    rw [if_neg hw, wakeReaders_eq h live hfuel]
    simp [grantPrefix, mode_of hy, hr]

/-- The record lists `q` and the transactions' deques `d`, as plain lists, that the pointers
of a table thread. Within `unlock` a deque still holds deleted nodes, so `d` is the part of
`lockPerTxn` that is live. -/
structure Shape (t : LockTable) (q : RecordId → List Ptr) (d : TransactionId → List Ptr) : Prop where
  head : ∀ r, (t.lockPerRecord r).head = (q r).head?
  tail : ∀ r, (t.lockPerRecord r).tail = (q r).getLast?
  linked : ∀ r, Linked t.next t.prev (q r)
  queued : ∀ r p, p ∈ q r ↔ ∃ n, t.heap p = some n ∧ n.recordId = r
  owned : ∀ T p, p ∈ d T ↔ ∃ n, t.heap p = some n ∧ n.txnId = T
  nodupQueue : ∀ r, (q r).Nodup
  nodupDeque : ∀ T, (d T).Nodup
  inTxn : ∀ T xs p ys, d T = xs ++ p :: ys → t.nextInTxn p = ys.head?
  single : ∀ p p' n n', t.heap p = some n → t.heap p' = some n' →
    n.txnId = n'.txnId → n.recordId = n'.recordId → p = p'

namespace LockTable

variable {t t' : LockTable} {p x : Ptr} {n : LockNode}

/-- The heap after `release`: the node is gone, its neighbours are linked, some are woken. -/
def released (t : LockTable) (p : Ptr) (n : LockNode) (w : List Ptr) (l : LockList) : LockTable where
  heap x := if x = p then none else (t.heap x).map fun m => { m with
    prev := if n.next = some x then n.prev else m.prev
    next := if n.prev = some x then n.next else m.next
    locked := m.locked && !decide (x ∈ w) }
  lockPerTxn := t.lockPerTxn
  lockPerRecord := Function.update t.lockPerRecord n.recordId l

end LockTable

variable {t t' : LockTable} {q : RecordId → List Ptr} {d : TransactionId → List Ptr}
  {p : Ptr} {n : LockNode} {xs ys : List Ptr}

theorem Shape.live (h : Shape t q d) {r : RecordId} (hp : p ∈ q r) : ∃ n, t.heap p = some n := by
  obtain ⟨n, hn, -⟩ := (h.queued r p).mp hp
  exact ⟨n, hn⟩

theorem Shape.byRecord (h : Shape t q d) : Filed (fun p => (t.heap p).map (·.recordId)) q :=
  fun r p => (h.queued r p).trans Option.map_eq_some_iff.symm

theorem Shape.byOwner (h : Shape t q d) : Filed (fun p => (t.heap p).map (·.txnId)) d :=
  fun T p => (h.owned T p).trans Option.map_eq_some_iff.symm

theorem Shape.record_eq (h : Shape t q d) (hn : t.heap p = some n) {r : RecordId} (hp : p ∈ q r) :
    n.recordId = r :=
  h.byRecord.unique ((h.queued _ p).mpr ⟨n, hn, rfl⟩) hp

theorem Shape.owner_eq (h : Shape t q d) (hn : t.heap p = some n) {T : TransactionId} (hp : p ∈ d T) :
    n.txnId = T :=
  h.byOwner.unique ((h.owned _ p).mpr ⟨n, hn, rfl⟩) hp

/-- Taking out the head of a list wakes the granted prefix of the rest. -/
theorem Shape.release_head (h : Shape t q d) (hn : t.heap p = some n)
    (hq : q n.recordId = p :: ys) {fuel : Nat} (hfuel : ys.length < fuel) :
    t.release fuel p = some (t.released p n (grantPrefix t.mode ys) ⟨ys.head?, ys.getLast?⟩) := by
  have hl : Linked t.next t.prev (([] : List Ptr) ++ p :: ys) := by simpa [hq] using h.linked n.recordId
  have hnext : n.next = ys.head? := by rw [← LockTable.next_of hn, hl.next_eq]
  have hprev : n.prev = none := by simpa [LockTable.prev_of hn] using hl.prev_eq
  have hhead : (t.lockPerRecord n.recordId).head = some p := by simp [h.head, hq]
  have htail : (t.lockPerRecord n.recordId).tail = (p :: ys).getLast? := by rw [h.tail, hq]
  cases ys with
  | nil =>
    simp only [List.head?_nil] at hnext
    simp only [LockTable.release, LockTable.unlink, hn, hhead, hnext, hprev, LockTable.setList,
      LockTable.released,
      grantPrefix, Option.bind_eq_bind, Option.bind_some, if_true, Option.pure_def]
    congr 2
    funext x
    by_cases hx : x = p
    · simp [hx]
    · cases hm : t.heap x <;> simp [hx, hm]
  | cons y ys =>
    obtain ⟨m, hm⟩ := h.live (r := n.recordId) (p := y) (by simp [hq])
    have hyp : y ≠ p := by
      rintro rfl
      have := h.nodupQueue n.recordId
      simp [hq] at this
    have hlast : (p :: y :: ys).getLast? = (y :: ys).getLast? := List.getLast?_cons_cons
    simp only [List.head?_cons] at hnext
    let t₂ : LockTable := { t with
      heap := Function.update t.heap y (some { m with prev := none })
      lockPerRecord := Function.update t.lockPerRecord n.recordId
        { t.lockPerRecord n.recordId with head := some y } }
    have hstep : t.release fuel p =
        (if m.lockMode = .write then t₂.modify y fun m => { m with locked := false }
          else t₂.wakeReaders fuel (some y)).map
          fun t => { t with heap := Function.update t.heap p none } := by
      simp only [LockTable.release, LockTable.unlink, hn, hhead, hnext, LockTable.setList,
        LockTable.modify, hm,
        Option.map_some, Function.update_self, Option.bind_eq_bind, Option.bind_some, if_true,
        Option.pure_def, t₂]
      split <;> simp [Option.map_eq_bind]
    have hheap : t₂.heap = Function.update t.heap y (some { m with prev := none }) := rfl
    have hnext₂ : t₂.next = t.next := LockTable.next_update hheap hm rfl
    have hwalk : Walk t₂.next (some y) (y :: ys) := by
      rw [hnext₂]
      exact Linked.walk_next (by simpa using hl : Linked t.next t.prev ([p] ++ y :: ys))
    have hlive : ∀ x ∈ y :: ys, ∃ k, t₂.heap x = some k :=
      LockTable.live_update hheap fun x hx => h.live (hq ▸ List.mem_cons_of_mem p hx)
    have hy : t₂.heap y = some { m with prev := none } := by rw [hheap, Function.update_self]
    have hmode : t₂.mode = t.mode := LockTable.mode_update hheap hm rfl
    have hwoken := LockTable.wakeFront_eq hwalk hlive hy hfuel
    rw [hmode] at hwoken
    rw [hstep, hwoken, Option.map_some]
    simp only [LockTable.released, LockTable.woken, t₂, hnext, hprev, htail, hlast]
    congr 2
    funext x
    by_cases hx : x = p
    · simp [hx]
    · by_cases hxy : x = y
      · simp [hxy, hyp, hm]
      · cases hxm : t.heap x <;> simp [hx, hxy, hxm, Ne.symm hxy]

/-- Taking out a lock behind the head wakes nobody. -/
theorem Shape.release_middle (h : Shape t q d) (hn : t.heap p = some n)
    (hq : q n.recordId = xs ++ p :: ys) (hxs : xs ≠ []) (fuel : Nat) :
    t.release fuel p = some (t.released p n [] ⟨(xs ++ ys).head?, (xs ++ ys).getLast?⟩) := by
  have hl : Linked t.next t.prev (xs ++ p :: ys) := hq ▸ h.linked n.recordId
  have hnd : (xs ++ p :: ys).Nodup := hq ▸ h.nodupQueue n.recordId
  have hnext : n.next = ys.head? := by rw [← LockTable.next_of hn, hl.next_eq]
  have hprev : n.prev = xs.getLast? := by rw [← LockTable.prev_of hn, hl.prev_eq]
  have hhead : (t.lockPerRecord n.recordId).head ≠ some p := by
    rw [h.head, hq]
    exact head_ne_of_nodup hnd hxs
  have hhead' : (t.lockPerRecord n.recordId).head = (xs ++ ys).head? := by
    rw [h.head, hq]
    cases xs with
    | nil => contradiction
    | cons a xs => simp
  have htail : (t.lockPerRecord n.recordId).tail = (xs ++ p :: ys).getLast? := by rw [h.tail, hq]
  obtain ⟨zs, z, rfl⟩ := (List.eq_nil_or_concat' xs).resolve_left hxs
  obtain ⟨m, hm⟩ := h.live (r := n.recordId) (p := z) (by simp [hq])
  have hzp : z ≠ p := by
    rintro rfl
    simp [List.nodup_append] at hnd
  rw [List.getLast?_concat] at hprev
  cases ys with
  | nil =>
    simp only [List.head?_nil] at hnext
    simp only [LockTable.release, LockTable.unlink, hn, if_neg hhead, hnext, hprev,
      LockTable.modify_eq hm,
      LockTable.setList, LockTable.released, Option.bind_eq_bind, Option.bind_some,
      Option.pure_def]
    simp only [hhead', List.append_nil, List.getLast?_concat]
    congr 2
    funext x
    by_cases hx : x = p
    · simp [hx]
    · by_cases hxz : x = z
      · simp [hxz, hzp, hm]
      · cases hxm : t.heap x <;> simp [hx, hxz, hxm, Ne.symm hxz]
  | cons y ys =>
    obtain ⟨k, hk⟩ := h.live (r := n.recordId) (p := y) (by simp [hq])
    have hyp : y ≠ p := by
      rintro rfl
      simp [List.nodup_append] at hnd
    have hyz : y ≠ z := by
      rintro rfl
      simp [List.nodup_append] at hnd
    have hlast : (zs ++ [z] ++ p :: y :: ys).getLast? = (zs ++ [z] ++ y :: ys).getLast? := by
      simp [List.getLast?_append, List.getLast?_cons_cons]
    have hset : Function.update t.lockPerRecord n.recordId
        ⟨(zs ++ [z] ++ y :: ys).head?, (zs ++ [z] ++ y :: ys).getLast?⟩ = t.lockPerRecord := by
      rw [← hhead', ← hlast, ← htail, Function.update_eq_self_iff]
    simp only [List.head?_cons] at hnext
    simp only [LockTable.release, LockTable.unlink, hn, if_neg hhead, hnext, hprev, LockTable.modify,
      hm, hk,
      LockTable.released, Option.bind_eq_bind, Option.bind_some,
      Option.map_some, Function.update_of_ne hyz, Option.pure_def, hset]
    congr 2
    funext x
    by_cases hx : x = p
    · simp [hx]
    · by_cases hxy : x = y
      · simp [hxy, hyp, hk, Ne.symm hyz]
      · by_cases hxz : x = z
        · simp [hxz, hzp, hm, hyz, Ne.symm hyz]
        · cases hxm : t.heap x <;> simp [hx, hxy, hxz, hxm, Ne.symm hxy, Ne.symm hxz]

/-- One turn of the loop of `unlock`, in whatever place of its list the lock is. -/
theorem Shape.release_eq (h : Shape t q d) (hn : t.heap p = some n)
    (hq : q n.recordId = xs ++ p :: ys) {fuel : Nat} (hfuel : ys.length < fuel) :
    t.release fuel p = some (t.released p n (if xs = [] then grantPrefix t.mode ys else [])
      ⟨(xs ++ ys).head?, (xs ++ ys).getLast?⟩) := by
  by_cases hxs : xs = []
  · subst hxs
    simpa using h.release_head hn hq hfuel
  · rw [if_neg hxs]
    exact h.release_middle hn hq hxs fuel

theorem LockTable.unlink_mono {fuel more : Nat} (hle : fuel ≤ more)
    (h : t.unlink fuel p n = some t') : t.unlink more p n = some t' := by
  simp only [LockTable.unlink] at h ⊢
  split at h
  · next hh =>
    rw [if_pos hh]
    split at h
    · simp only [Option.bind_eq_bind, Option.bind_eq_some_iff] at h ⊢
      obtain ⟨t₂, h₂, m, hm, h₃⟩ := h
      refine ⟨t₂, h₂, m, hm, ?_⟩
      split at h₃
      · next hw => rw [if_pos hw]; exact h₃
      · next hw => rw [if_neg hw]; exact LockTable.wakeReaders_mono hle h₃
    · exact h
  · next hh =>
    rw [if_neg hh]
    exact h

theorem LockTable.release_mono {fuel more : Nat} (hle : fuel ≤ more)
    (h : t.release fuel p = some t') : t.release more p = some t' := by
  simp only [LockTable.release, Option.bind_eq_bind, Option.bind_eq_some_iff] at h ⊢
  obtain ⟨n, hn, t₁, ht₁, ht'⟩ := h
  exact ⟨n, hn, t₁, LockTable.unlink_mono hle ht₁, ht'⟩

/-- Whatever fuel a turn of the loop needed, its result is the closed form. -/
theorem Shape.release_some (h : Shape t q d) (hn : t.heap p = some n)
    (hq : q n.recordId = xs ++ p :: ys) {fuel : Nat} (hr : t.release fuel p = some t') :
    t' = t.released p n (if xs = [] then grantPrefix t.mode ys else [])
      ⟨(xs ++ ys).head?, (xs ++ ys).getLast?⟩ := by
  have hm := LockTable.release_mono (Nat.le_add_right fuel (ys.length + 1)) hr
  rw [h.release_eq hn hq (by omega)] at hm
  exact (Option.some.inj hm).symm

end Lock
