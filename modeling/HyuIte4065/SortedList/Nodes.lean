import HyuIte4065.Library.Atomic
import HyuIte4065.Library.Transition
import Mathlib.Data.Finset.Basic
import Mathlib.Algebra.Ring.Int.Defs

/-!
# The nodes of the sorted lists

What `fine_grained.cpp` and `optimistic.cpp` have in common: the nodes with their mutexes, the
two sentinels, the operations, and the set that the operations are about.
-/
namespace SortedList

open Mutex

abbrev Addr := Nat

abbrev ThreadId := Nat

def intMin : Int := -2 ^ 31

def intMax : Int := 2 ^ 31 - 1

/-- The nodes of `list_init`. -/
def head : Addr := 0

def tail : Addr := 1

inductive Op where
  | add (key : Int)
  | remove (key : Int)
  | contains (key : Int)
  deriving DecidableEq, Repr

def Op.key : Op → Int
  | .add key | .remove key | .contains key => key

/-- A set of keys, and what each operation does to it and answers. -/
def intSet : Atomic.Object Op Bool (Finset Int) where
  start := ∅
  apply
    | .add key, keys => (decide (key ∉ keys), insert key keys)
    | .remove key, keys => (decide (key ∈ keys), keys.erase key)
    | .contains key, keys => (decide (key ∈ keys), keys)

/-- An operation that searches the list; `list_add` has allocated its node. -/
inductive Job where
  | add (key : Int) (node : Addr)
  | remove (key : Int)
  | contains (key : Int)
  deriving DecidableEq, Repr

def Job.op : Job → Op
  | .add key _ => .add key
  | .remove key => .remove key
  | .contains key => .contains key

def Job.key (job : Job) : Int := job.op.key

def Job.node : Job → Option Addr
  | .add _ node => some node
  | .remove _ | .contains _ => none

/-- The fields of the nodes, address by address, and where the threads are. A `next` without
address is null or has not been stored yet. -/
structure State (Phase : Type) where
  allocated : Addr → Bool
  key : Addr → Int
  next : Addr → Option Addr
  mutex : Addr → Option ThreadId
  phase : ThreadId → Phase

namespace State

variable {Phase : Type}

def listInit (idle : Phase) : State Phase where
  allocated a := a = head || a = tail
  key a := if a = head then intMin else intMax
  next a := if a = head then some tail else none
  mutex _ := none
  phase _ := idle

def goto (s : State Phase) (t : ThreadId) (ph : Phase) : State Phase :=
  { s with phase := Function.update s.phase t ph }

def lock (s : State Phase) (t : ThreadId) (a : Addr) : State Phase :=
  { s with mutex := Function.update s.mutex a (some t) }

def unlock (s : State Phase) (a : Addr) : State Phase :=
  { s with mutex := Function.update s.mutex a none }

/-- `a->next = b`. -/
def store (s : State Phase) (a b : Addr) : State Phase :=
  { s with next := Function.update s.next a (some b) }

/-- `a->next = b`, where `b` may be null. -/
def storeLink (s : State Phase) (a : Addr) (b : Option Addr) : State Phase :=
  { s with next := Function.update s.next a b }

/-- `malloc` with the initialisation of the key and of the mutex. -/
def malloc (s : State Phase) (node : Addr) (key : Int) : State Phase :=
  { s with
    allocated := Function.update s.allocated node true
    key := Function.update s.key node key
    next := Function.update s.next node none
    mutex := Function.update s.mutex node none }

def free (s : State Phase) (a : Addr) : State Phase :=
  { s with allocated := Function.update s.allocated a false }

/-- Each mutex is owned by the thread that has locked it by where it is. -/
def Locks (s : State Phase) (locked : Phase → List Addr) : Prop :=
  ∀ a, Guards (s.mutex a) fun t => a ∈ locked (s.phase t)

end State

/-- Two neighbours of the list with the inner nodes `l`, the first of them below the key. -/
def Window {Phase : Type} (s : State Phase) (l : List Addr) (key : Int) (prev curr : Addr) : Prop :=
  prev ∈ head :: l ∧ s.next prev = some curr ∧ s.key prev < key

section
variable {Phase : Type} {s s' : State Phase} {locked : Phase → List Addr} {t u : ThreadId} {a : Addr} {ph : Phase}

theorem phase_self (s : State Phase) (t : ThreadId) (ph : Phase) : (s.goto t ph).phase t = ph :=
  Function.update_self ..

/-- What holds of every thread after a step of one thread. -/
theorem forall_phase {P : ThreadId → Phase → Prop} (hphase : s'.phase = Function.update s.phase t ph)
    (mine : P t ph) (theirs : ∀ u ≠ t, P u (s.phase u)) (u : ThreadId) : P u (s'.phase u) := by
  rw [hphase]
  by_cases hu : u = t
  · rw [hu, Function.update_self]
    exact mine
  · rw [Function.update_of_ne hu]
    exact theirs u hu

/-- No two threads have the same node of their own. -/
theorem own_apart {own : Phase → Option Addr} (hphase : s'.phase = Function.update s.phase t ph)
    (apart : ∀ u v a, own (s.phase u) = some a → own (s.phase v) = some a → u = v)
    (mine : ∀ a, own ph = some a → ∀ u ≠ t, own (s.phase u) ≠ some a) :
    ∀ u v a, own (s'.phase u) = some a → own (s'.phase v) = some a → u = v := by
  refine forall_phase (P := fun u ph' => ∀ v a, own ph' = some a → own (s'.phase v) = some a → u = v) hphase ?_ ?_
  · refine forall_phase (P := fun v ph' => ∀ a, own ph = some a → own ph' = some a → t = v) hphase
      (fun _ _ _ => rfl) fun v hv a ha ho => absurd ho (mine a ha v hv)
  · intro u hu
    refine forall_phase (P := fun v ph' => ∀ a, own (s.phase u) = some a → own ph' = some a → u = v) hphase
      (fun a ho ha => absurd ho (mine a ha u hu)) fun v _ a => apart u v a

theorem locks_listInit (idle : Phase) (h : locked idle = []) : (State.listInit idle).Locks locked := by
  intro a t
  show none = some t ↔ a ∈ locked idle
  rw [h]
  exact ⟨nofun, nofun⟩

theorem State.Locks.use (h : s.Locks locked) (hphase : s'.phase = Function.update s.phase t ph)
    (use : ∀ b, Use (s.mutex b) (s'.mutex b) t (b ∈ locked (s.phase t)) (b ∈ locked ph)) : s'.Locks locked := by
  intro b
  have huse := use b
  have hself : s'.phase t = ph := by rw [hphase, Function.update_self]
  rw [← hself] at huse
  refine (h b).step (fun u hu => ?_) huse
  rw [hphase, Function.update_of_ne hu]

theorem State.Locks.goto (h : s.Locks locked) (same : ∀ b, b ∈ locked ph ↔ b ∈ locked (s.phase t)) :
    (s.goto t ph).Locks locked :=
  h.use rfl fun b => .keep rfl (same b)

theorem State.Locks.lock (h : s.Locks locked) (free : s.mutex a = none)
    (more : ∀ b, b ∈ locked ph ↔ b = a ∨ b ∈ locked (s.phase t)) : ((s.lock t a).goto t ph).Locks locked := by
  refine h.use rfl fun b => ?_
  by_cases hb : b = a
  · subst hb
    exact .lock free (Function.update_self ..) ((more b).mpr (.inl rfl))
  · exact .keep (Function.update_of_ne hb _ _) ((more b).trans (or_iff_right hb))

theorem State.Locks.unlock (h : s.Locks locked) (held : a ∈ locked (s.phase t))
    (less : ∀ b, b ∈ locked ph ↔ b ≠ a ∧ b ∈ locked (s.phase t)) : ((s.unlock a).goto t ph).Locks locked := by
  refine h.use rfl fun b => ?_
  by_cases hb : b = a
  · subst hb
    exact .unlock held (Function.update_self ..) fun hb => ((less b).mp hb).1 rfl
  · exact .keep (Function.update_of_ne hb _ _) ((less b).trans (and_iff_right hb))

theorem State.Locks.free (h : s.Locks locked) (hnot : ∀ u, a ∉ locked (s.phase u)) : s.mutex a = none :=
  Option.eq_none_iff_forall_ne_some.mpr fun u hu => hnot u ((h a u).mp hu)

theorem State.Locks.malloc {key : Int} (h : s.Locks locked) (hnot : ∀ u, a ∉ locked (s.phase u))
    (same : ∀ b, b ∈ locked ph ↔ b ∈ locked (s.phase t)) : ((s.malloc a key).goto t ph).Locks locked := by
  refine h.use rfl fun b => .keep ?_ (same b)
  by_cases hb : b = a
  · subst hb
    exact (Function.update_self ..).trans (h.free hnot).symm
  · exact Function.update_of_ne hb _ _

theorem State.Locks.owner (h : s.Locks locked) (held : a ∈ locked (s.phase t)) : s.mutex a = some t :=
  (h a t).mpr held

/-- No two threads hold the same mutex. -/
theorem State.Locks.unique (h : s.Locks locked) (ht : a ∈ locked (s.phase t)) (hu : a ∈ locked (s.phase u)) : t = u :=
  (h a).unique ht hu

theorem mem_pair_ne {b c : Addr} (h : b ≠ c) : ∀ a, a ∈ [c] ↔ a ≠ b ∧ a ∈ [b, c] := by
  intro a
  simp only [List.mem_cons, List.not_mem_nil, or_false]
  constructor
  · rintro rfl
    exact ⟨h.symm, .inr rfl⟩
  · rintro ⟨hne, ha⟩
    exact ha.resolve_left hne

theorem mem_nil_ne {b : Addr} : ∀ a, a ∈ ([] : List Addr) ↔ a ≠ b ∧ a ∈ [b] := fun _ =>
  ⟨nofun, fun h => absurd (List.mem_singleton.mp h.2) h.1⟩

end

end SortedList
