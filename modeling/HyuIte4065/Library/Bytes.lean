import Mathlib.Data.List.Basic
import Mathlib.Data.Nat.Digits.Defs

/-!
# Words as bytes

A number is stored as a fixed count of bytes, the lowest first. Blocks of one length that are stored
one after the other are found again by their offsets.
-/
namespace Bytes

abbrev Byte := BitVec 8

variable {α : Type*} {n : Nat}

def encode : Nat → Nat → List Byte
  | 0, _ => []
  | n + 1, v => BitVec.ofNat 8 v :: encode n (v / 256)

def decode (bytes : List Byte) : Nat := Nat.ofDigits 256 (bytes.map BitVec.toNat)

def slice (offset n : Nat) (bytes : List Byte) : List Byte := (bytes.drop offset).take n

@[simp] theorem length_encode (n v : Nat) : (encode n v).length = n := by
  induction n generalizing v with
  | zero => rfl
  | succ n ih => rw [encode, List.length_cons, ih]

theorem decode_encode (n v : Nat) : decode (encode n v) = v % 256 ^ n := by
  induction n generalizing v with
  | zero => rw [Nat.pow_zero, Nat.mod_one]; rfl
  | succ n ih =>
    have hdecode : decode (encode (n + 1) v) = v % 256 + 256 * decode (encode n (v / 256)) := by
      simp [decode, encode, Nat.ofDigits_cons]
    rw [hdecode, ih, Nat.pow_succ', Nat.mod_mul]

theorem decode_lt (bytes : List Byte) : decode bytes < 256 ^ bytes.length := by
  have h := Nat.ofDigits_lt_base_pow_length (b := 256) (l := bytes.map BitVec.toNat) (by decide) fun d hd => by
    obtain ⟨b, -, rfl⟩ := List.mem_map.mp hd
    exact b.isLt
  simpa [decode] using h

theorem slice_append_left {a b : List Byte} {offset : Nat} (h : offset + n ≤ a.length) :
    slice offset n (a ++ b) = slice offset n a := by
  rw [slice, slice, List.drop_append_of_le_length (by omega), List.take_append_of_le_length]
  rw [List.length_drop]
  omega

theorem slice_append_right (a b : List Byte) (offset : Nat) :
    slice (a.length + offset) n (a ++ b) = slice offset n b := by
  rw [slice, slice, List.drop_length_add_append]

@[simp] theorem slice_encode (n v : Nat) : slice 0 n (encode n v) = encode n v := by
  rw [slice, List.drop_zero, List.take_of_length_le (length_encode n v).le]

/-- The blocks have one length, and what is wanted lies in the block with the index `i`. -/
theorem slice_flatMap {f : α → List Byte} {size : Nat} {xs : List α} (hf : ∀ x ∈ xs, (f x).length = size)
    {i offset : Nat} (hi : i < xs.length) (h : offset + n ≤ size) :
    slice (size * i + offset) n (xs.flatMap f) = slice offset n (f xs[i]) := by
  induction xs generalizing i with
  | nil => cases hi
  | cons x xs ih =>
    have hx : (f x).length = size := hf x (by simp)
    rw [List.flatMap_cons]
    cases i with
    | zero =>
      rw [Nat.mul_zero, Nat.zero_add]
      exact slice_append_left (hx.symm ▸ h)
    | succ i =>
      have hoffset : size * (i + 1) + offset = (f x).length + (size * i + offset) := by
        rw [hx, Nat.mul_succ]
        omega
      rw [hoffset, slice_append_right]
      exact ih (fun y hy => hf y (by simp [hy])) (by simpa using hi)

theorem length_flatMap {f : α → List Byte} {size : Nat} {xs : List α}
    (hf : ∀ x ∈ xs, (f x).length = size) : (xs.flatMap f).length = size * xs.length := by
  induction xs with
  | nil => rfl
  | cons x xs ih =>
    rw [List.flatMap_cons, List.length_append, hf x (by simp), ih fun y hy => hf y (by simp [hy]),
      List.length_cons, Nat.mul_succ, Nat.add_comm]

end Bytes
