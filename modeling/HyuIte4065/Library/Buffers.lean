import HyuIte4065.Library.Atomic
import Mathlib.Data.List.Basic

/-!
# First-in first-out buffers

Whether a buffer has room for one more element depends on how many it holds. An operation that is
not possible yet waits.
-/
namespace Fifo

universe u

inductive Op (α : Type u) where
  | enqueue (key : α)
  | dequeue

def buffer (α : Type u) (room : Nat → Prop) [DecidablePred room] : Guarded.Object (Op α) (Option α) (List α) where
  start := []
  apply
    | .enqueue key, keys => if room keys.length then some (none, keys ++ [key]) else none
    | .dequeue, [] => none
    | .dequeue, key :: keys => some (some key, keys)

theorem enqueue_possible {α : Type u} {room : Nat → Prop} [DecidablePred room] {key : α} {keys : List α}
    (h : room keys.length) : (buffer α room).apply (.enqueue key) keys = some (none, keys ++ [key]) := if_pos h

end Fifo

/-!
## Ring buffers

The slots are used in turn. `front` and `rear` count the elements that have been taken out and put
in, and never wrap around themselves.
-/
namespace RingBuffer

variable {α : Type*} {size front rear : Nat} {slots : Nat → α} {a : α}

/-- What is in the buffer, the oldest element first. -/
def contents (size : Nat) (slots : Nat → α) (front rear : Nat) : List α :=
  (List.range (rear - front)).map fun i => slots ((front + i) % size)

theorem contents_length : (contents size slots front rear).length = rear - front := by
  simp [contents]

/-- Fewer than `size` positions apart, two slots differ. -/
theorem slot_ne {i j : Nat} (hij : i < j) (hj : j < i + size) : i % size ≠ j % size := by
  intro he
  have hd : size ∣ j - i := Nat.dvd_of_mod_eq_zero (Nat.sub_mod_eq_zero_of_mod_eq he.symm)
  exact absurd (Nat.le_of_dvd (by omega) hd) (by omega)

/-- A store behind the newest element is not seen yet. -/
theorem contents_update (hlt : rear < front + size) :
    contents size (Function.update slots (rear % size) a) front rear = contents size slots front rear := by
  refine List.map_congr_left fun i hi => Function.update_of_ne (slot_ne ?_ ?_) _ _
  · have := List.mem_range.mp hi
    omega
  · omega

theorem contents_succ (hle : front ≤ rear) :
    contents size slots front (rear + 1) = contents size slots front rear ++ [slots (rear % size)] := by
  rw [contents, Nat.succ_sub hle, List.range_succ, List.map_append, List.map_singleton,
    Nat.add_sub_cancel' hle, contents]

theorem contents_cons (hlt : front < rear) :
    contents size slots front rear = slots (front % size) :: contents size slots (front + 1) rear := by
  obtain ⟨n, hn⟩ : ∃ n, rear - front = n + 1 := ⟨rear - front - 1, by omega⟩
  have hn' : rear - (front + 1) = n := by omega
  rw [contents, contents, hn, hn', List.range_succ_eq_map, List.map_cons, List.map_map, Nat.add_zero]
  refine congrArg _ (List.map_congr_left fun i _ => ?_)
  rw [Function.comp_apply, Nat.succ_eq_add_one, Nat.add_assoc, Nat.add_comm 1 i]

end RingBuffer
