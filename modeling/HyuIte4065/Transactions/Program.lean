import HyuIte4065.Lock.Table
import HyuIte4065.Library.Replay
import Mathlib.Data.BitVec

/-!
# What a transaction asks for

The calls a client makes to `read` and `add` until it commits or aborts. What it asks for
next may depend on the values it has read.
-/
namespace Transactions

open Lock Replay

abbrev Value := BitVec 64
abbrev Table := RecordId → Value
abbrev History := List (Access RecordId Value)

inductive Program where
  | commit
  | abort
  | read (recordId : RecordId) (next : Value → Program)
  | add (recordId : RecordId) (operand : Value) (next : Program)

namespace Program

/-- The lock that the next call asks for. -/
def request : Program → Option (RecordId × LockMode)
  | .read recordId _ => some (recordId, .read)
  | .add recordId _ _ => some (recordId, .write)
  | _ => none

/-- The access that the next call makes when it finds `v`, and how the client goes on. -/
def onValue (v : Value) : Program → Option (Access RecordId Value × Program)
  | .read recordId next => some (⟨recordId, false, v, v⟩, next v)
  | .add recordId operand next => some (⟨recordId, true, v, v + operand⟩, next)
  | _ => none

/-- The program run alone from a table: its accesses and the table it leaves. -/
def replay : Program → Table → History × Table
  | .commit, t => ([], t)
  | .abort, t => ([], t)
  | .read recordId next, t =>
    let (as, t') := (next (t recordId)).replay t
    (⟨recordId, false, t recordId, t recordId⟩ :: as, t')
  | .add recordId operand next, t =>
    let v := t recordId + operand
    let (as, t') := next.replay (Function.update t recordId v)
    (⟨recordId, true, t recordId, v⟩ :: as, t')

/-- The program asks for these accesses one after the other and goes on as `q`. -/
inductive Follows : Program → History → Program → Prop where
  | nil {p : Program} : Follows p [] p
  | read {recordId : RecordId} {next : Value → Program} {v : Value} {as : History} {q : Program} :
      Follows (next v) as q → Follows (.read recordId next) (⟨recordId, false, v, v⟩ :: as) q
  | add {recordId : RecordId} {operand v : Value} {next : Program} {as : History} {q : Program} :
      Follows next as q → Follows (.add recordId operand next) (⟨recordId, true, v, v + operand⟩ :: as) q

variable {p q q' : Program} {as : History} {a : Access RecordId Value} {v : Value} {t : Table}
  {r : RecordId} {m : LockMode}

theorem Follows.snoc (h : Follows p as q) (hv : q.onValue v = some (a, q')) :
    Follows p (as ++ [a]) q' := by
  induction h with
  | @nil p =>
    cases p with
    | commit => simp [onValue] at hv
    | abort => simp [onValue] at hv
    | read recordId next =>
      obtain ⟨rfl, rfl⟩ : _ = a ∧ next v = q' := by simpa [onValue] using hv
      exact .read .nil
    | add recordId operand next =>
      obtain ⟨rfl, rfl⟩ : _ = a ∧ next = q' := by simpa [onValue] using hv
      exact .add .nil
  | read _ ih => exact .read (ih hv)
  | add _ ih => exact .add (ih hv)

theorem onValue_of_request (h : p.request = some (r, m)) (v : Value) :
    ∃ a q, p.onValue v = some (a, q) ∧ a.key = r ∧ a.before = v ∧ (a.wrote = true ↔ m = .write) ∧
      (a.wrote = false → a.after = a.before) := by
  cases p with
  | commit => simp [request] at h
  | abort => simp [request] at h
  | read recordId next =>
    obtain ⟨rfl, rfl⟩ : recordId = r ∧ LockMode.read = m := by simpa [request] using h
    exact ⟨_, _, rfl, rfl, rfl, by simp, fun _ => rfl⟩
  | add recordId operand next =>
    obtain ⟨rfl, rfl⟩ : recordId = r ∧ LockMode.write = m := by simpa [request] using h
    exact ⟨_, _, rfl, rfl, rfl, by simp, by simp⟩

/-- A history that a program asks for and that fits a table is what it does there. -/
theorem Follows.replay (h : Follows p as .commit) (hf : Fits t as) :
    p.replay t = (as, result t as) := by
  generalize he : Program.commit = e at h
  induction h generalizing t with
  | nil => subst he; rfl
  | @read recordId next v as q _ ih =>
    obtain ⟨hv, hf⟩ := hf
    obtain rfl : t recordId = v := hv
    have hsame : apply t ⟨recordId, false, t recordId, t recordId⟩ = t := by simp [apply]
    rw [hsame] at hf
    simp only [Program.replay, ih hf he, result_cons, hsame]
  | @add recordId operand v next as q _ ih =>
    obtain ⟨hv, hf⟩ := hf
    obtain rfl : t recordId = v := hv
    simp only [apply] at hf
    simp only [Program.replay, ih hf he, result_cons, apply]

end Program

end Transactions
