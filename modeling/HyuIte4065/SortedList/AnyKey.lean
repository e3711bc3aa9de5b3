import HyuIte4065.CoarseGrained.Sequential
import HyuIte4065.FineGrained.Sequential
import HyuIte4065.Optimistic.Sequential

/-!
# The list as a set of ints

For every sequence of calls from a fresh list. The least int is a key like any other, but the
greatest one is the key of the tail.
-/
namespace SortedList

inductive Implementation where
  | coarse
  | fine
  | optimistic
  deriving DecidableEq, Repr

/-- The calls, one after another on a fresh list, do what a set that is empty at first does. -/
def Implementation.Behaves (ops : List Op) : Implementation → Prop
  | .coarse => CoarseGrained.machine.Behaves ops ∅ CoarseGrained.machine.init
  | .fine => FineGrained.threads.machine.Behaves ops ∅ FineGrained.threads.machine.init
  | .optimistic => Optimistic.threads.machine.Behaves ops ∅ Optimistic.threads.machine.init

/-- In each implementation the greatest key alone goes wrong. -/
theorem Implementation.behaves_as_set_iff (i : Implementation) (ops : List Op)
    (hrange : ∀ op ∈ ops, intMin ≤ op.key ∧ op.key ≤ intMax) :
    i.Behaves ops ↔ ∀ op ∈ ops, op.key ≠ intMax := by
  cases i with
  | coarse => exact CoarseGrained.correct.behaves_iff hrange
  | fine => exact FineGrained.correct.behaves_iff hrange
  | optimistic => exact Optimistic.correct.behaves_iff hrange

theorem Implementation.behaves_as_set_least :
    Implementation.fine.Behaves [.add intMin, .add 5, .contains intMin, .remove intMin] :=
  (Implementation.behaves_as_set_iff .fine _ (by decide)).mpr (by decide)

/-- On an empty list `list_remove(intMax)` takes the tail out. -/
theorem Implementation.not_set_greatest :
    ¬ Implementation.coarse.Behaves [.remove intMax] ∧ ¬ Implementation.fine.Behaves [.remove intMax] ∧
      ¬ Implementation.optimistic.Behaves [.remove intMax] := by
  have hrange : ∀ op ∈ [Op.remove intMax], intMin ≤ op.key ∧ op.key ≤ intMax := by decide
  refine ⟨fun h => ?_, fun h => ?_, fun h => ?_⟩
  · exact CoarseGrained.correct.behaves_iff hrange |>.mp h _ List.mem_cons_self rfl
  · exact FineGrained.correct.behaves_iff hrange |>.mp h _ List.mem_cons_self rfl
  · exact Optimistic.correct.behaves_iff hrange |>.mp h _ List.mem_cons_self rfl

end SortedList
