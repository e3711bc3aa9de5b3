import Mathlib.Data.List.Basic
import Mathlib.Data.Int.Notation

/-!
# Decimal numbers as text

Natural numbers and integers as the digits that print them, and back.
-/
namespace Numerals

variable {d : Char}

def natText (n : Nat) : List Char := Nat.toDigits 10 n

def intText : Int → List Char
  | .ofNat n => natText n
  | .negSucc n => '-' :: natText (n + 1)

def readNat (text : List Char) : Option Nat :=
  if text ≠ [] ∧ text.all Char.isDigit = true then some (Nat.ofDigitChars 10 text 0) else none

def readInt : List Char → Option Int
  | '-' :: text => (readNat text).map fun n => -(n : Int)
  | text => (readNat text).map Int.ofNat

theorem isDigit_of_mem_natText {n : Nat} {c : Char} (h : c ∈ natText n) : c.isDigit = true :=
  Nat.isDigit_of_mem_toDigits (by decide) (by decide) h

theorem natText_ne_nil (n : Nat) : natText n ≠ [] := Nat.toDigits_ne_nil

theorem readNat_natText (n : Nat) : readNat (natText n) = some n := by
  have hall : (natText n).all Char.isDigit = true :=
    List.all_eq_true.mpr fun c hc => isDigit_of_mem_natText hc
  rw [readNat, if_pos ⟨natText_ne_nil n, hall⟩]
  exact congrArg some Nat.ofDigitChars_ten_toDigits

theorem readInt_natText (n : Nat) : readInt (natText n) = some n := by
  unfold readInt
  split
  · next text he =>
    have hminus : '-' ∈ natText n := he ▸ List.mem_cons_self
    exact absurd (isDigit_of_mem_natText hminus) (by decide)
  · rw [readNat_natText]
    rfl

theorem readInt_intText (i : Int) : readInt (intText i) = some i := by
  cases i with
  | ofNat n => exact readInt_natText n
  | negSucc n =>
    rw [intText, readInt, readNat_natText]
    rfl

theorem not_mem_natText (h : d.isDigit = false) (n : Nat) : d ∉ natText n := by
  intro hmem
  rw [isDigit_of_mem_natText hmem] at h
  cases h

theorem not_mem_intText (h : d.isDigit = false) (hminus : d ≠ '-') (i : Int) : d ∉ intText i := by
  cases i with
  | ofNat n => exact not_mem_natText h n
  | negSucc n => exact List.not_mem_cons_of_ne_of_not_mem hminus (not_mem_natText h (n + 1))

end Numerals
