import HyuIte4065.SortedList.Nodes
import HyuIte4065.Library.SortedChain

/-!
# The set that a list shows

The keys of the list and the status of every thread make up a state of the atomic set. A step of
the list is a step of the set if it leaves both alone, or lets one called operation take effect.
-/
namespace SortedList

open SortedChain

section
variable {keys : Finset Int} {key : Int}

theorem add_present (h : key ∈ keys) : intSet.apply (.add key) keys = (false, keys) := by
  simp only [intSet, h, not_true_eq_false, decide_false, Finset.insert_eq_of_mem]

theorem add_absent (h : key ∉ keys) : intSet.apply (.add key) keys = (true, insert key keys) := by
  simp only [intSet, h, not_false_eq_true, decide_true]

theorem remove_absent (h : key ∉ keys) : intSet.apply (.remove key) keys = (false, keys) := by
  simp only [intSet, h, decide_false, Finset.erase_eq_of_notMem, not_false_eq_true]

theorem remove_present (h : key ∈ keys) : intSet.apply (.remove key) keys = (true, keys.erase key) := by
  simp only [intSet, h, decide_true]

end

variable {Phase : Type} {status : Phase → Atomic.Status Op Bool} {s s' : State Phase} {t : ThreadId} {ph : Phase}
  {l l' : List Addr} {op : Op} {res : Bool}

def view (status : Phase → Atomic.Status Op Bool) (s : State Phase) (l : List Addr) :
    Atomic.State ThreadId Op Bool (Finset Int) :=
  ⟨keys s.key l, fun t => status (s.phase t)⟩

/-- A step of one thread changes the status of this thread only. -/
theorem view_update (hphase : s'.phase = Function.update s.phase t ph) : view status s' l' =
    ⟨keys s'.key l', Function.update (view status s l).status t (status ph)⟩ := by
  have hstatus : (fun u => status (s'.phase u)) = Function.update (view status s l).status t (status ph) := by
    funext u
    rw [hphase]
    by_cases hu : u = t
    · rw [hu, Function.update_self, Function.update_self]
    · rw [Function.update_of_ne hu, Function.update_of_ne hu, view]
  rw [view, hstatus]

theorem view_skip (hphase : s'.phase = Function.update s.phase t ph) (hstatus : status ph = status (s.phase t))
    (hkeys : keys s'.key l' = keys s.key l) :
    Guarded.Step intSet.guarded (view status s l) (.inner t) (view status s' l') := by
  have hsame : (view status s l).status t = status (s.phase t) := rfl
  rw [view_update hphase, hkeys, hstatus, ← hsame, Function.update_eq_self]
  exact .skip

theorem view_act (hphase : s'.phase = Function.update s.phase t ph) (hcalled : status (s.phase t) = .called op)
    (hdone : status ph = .done res) (happly : intSet.apply op (keys s.key l) = (res, keys s'.key l')) :
    Guarded.Step intSet.guarded (view status s l) (.inner t) (view status s' l') := by
  have hpossible : intSet.guarded.apply op (view status s l).value = some (res, keys s'.key l') := congrArg some happly
  rw [view_update hphase, hdone]
  exact .act hcalled hpossible

theorem view_call (hphase : s'.phase = Function.update s.phase t ph) (hidle : status (s.phase t) = .idle)
    (hcalled : status ph = .called op) (hkeys : keys s'.key l' = keys s.key l) :
    Guarded.Step intSet.guarded (view status s l) (.call t op) (view status s' l') := by
  rw [view_update hphase, hkeys, hcalled]
  exact .call hidle

theorem view_ret (hphase : s'.phase = Function.update s.phase t ph) (hdone : status (s.phase t) = .done res)
    (hidle : status ph = .idle) (hkeys : keys s'.key l' = keys s.key l) :
    Guarded.Step intSet.guarded (view status s l) (.ret t res) (view status s' l') := by
  rw [view_update hphase, hkeys, hidle]
  exact .ret hdone

end SortedList
