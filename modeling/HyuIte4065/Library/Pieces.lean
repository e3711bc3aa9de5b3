import Mathlib.Data.List.Basic

/-!
# Lists cut at a delimiter

The pieces between the delimiters of a list. What follows the last delimiter is a piece only
if it is not empty.
-/
namespace Pieces

variable {α : Type*} {d : α} {piece : List α} {pieces : List (List α)}

theorem intercalate_cons (delimiter piece : List α) (pieces : List (List α)) :
    delimiter.intercalate (piece :: pieces) =
      piece ++ (if pieces = [] then [] else delimiter) ++ delimiter.intercalate pieces := by
  cases pieces with
  | nil => simp
  | cons piece' pieces => simp [List.intercalate_cons_cons]

theorem intercalate_append (delimiter : List α) (pieces pieces' : List (List α)) :
    delimiter.intercalate (pieces ++ pieces') =
      delimiter.intercalate pieces ++ (if pieces ≠ [] ∧ pieces' ≠ [] then delimiter else []) ++
        delimiter.intercalate pieces' := by
  induction pieces with
  | nil => simp
  | cons piece pieces ih =>
    rw [List.cons_append, intercalate_cons, ih, intercalate_cons]
    by_cases hp : pieces = [] <;> by_cases hp' : pieces' = [] <;> simp [hp, hp']

/-- All pieces but the first one come with the delimiter in front. -/
theorem intercalate_eq_flatMap (delimiter piece : List α) (pieces : List (List α)) :
    delimiter.intercalate (piece :: pieces) = piece ++ pieces.flatMap (delimiter ++ ·) := by
  induction pieces generalizing piece with
  | nil => simp
  | cons piece' pieces ih =>
    rw [List.intercalate_cons_cons, ih, List.flatMap_cons, List.append_assoc, List.append_assoc]

theorem not_mem_intercalate {a : α} (hd : a ≠ d) (h : ∀ piece ∈ pieces, a ∉ piece) :
    a ∉ [d].intercalate pieces := by
  induction pieces with
  | nil => simp
  | cons piece pieces ih =>
    rw [intercalate_cons, List.append_assoc, List.mem_append, List.mem_append]
    rintro (hpiece | hdelimiter | hrest)
    · exact h piece List.mem_cons_self hpiece
    · split at hdelimiter
      · cases hdelimiter
      · exact hd (List.mem_singleton.mp hdelimiter)
    · exact ih (fun q hq => h q (List.mem_cons_of_mem piece hq)) hrest

variable [DecidableEq α]

/-- Puts an element in front of the first piece. -/
def extend (a : α) : List (List α) → List (List α)
  | [] => [[a]]
  | piece :: pieces => (a :: piece) :: pieces

def cut (d : α) : List α → List (List α)
  | [] => []
  | a :: as => if a = d then [] :: cut d as else extend a (cut d as)

@[simp] theorem cut_nil : cut d [] = [] := rfl
@[simp] theorem cut_delimiter (as : List α) : cut d (d :: as) = [] :: cut d as := if_pos rfl

theorem cut_other {a : α} (h : a ≠ d) (as : List α) : cut d (a :: as) = extend a (cut d as) :=
  if_neg h

theorem cut_append (hd : d ∉ piece) (rest : List α) :
    cut d (piece ++ d :: rest) = piece :: cut d rest := by
  induction piece with
  | nil => exact cut_delimiter rest
  | cons a piece ih =>
    have ha : a ≠ d := fun he => hd (he ▸ List.mem_cons_self)
    rw [List.cons_append, cut_other ha, ih fun hmem => hd (List.mem_cons_of_mem a hmem)]
    rfl

/-- Cutting where every piece has its delimiter behind it. -/
theorem cut_terminated (hd : ∀ piece ∈ pieces, d ∉ piece) :
    cut d (pieces.flatMap fun piece => piece ++ [d]) = pieces := by
  induction pieces with
  | nil => rfl
  | cons piece pieces ih =>
    rw [List.flatMap_cons, List.append_assoc, List.singleton_append,
      cut_append (hd piece List.mem_cons_self), ih fun q hq => hd q (List.mem_cons_of_mem piece hq)]

theorem cut_last (hd : d ∉ piece) (hne : piece ≠ []) : cut d piece = [piece] := by
  induction piece with
  | nil => exact absurd rfl hne
  | cons a piece ih =>
    have ha : a ≠ d := fun he => hd (he ▸ List.mem_cons_self)
    have hrest : d ∉ piece := fun hmem => hd (List.mem_cons_of_mem a hmem)
    rw [cut_other ha]
    cases piece with
    | nil => rfl
    | cons b piece =>
      rw [ih hrest (List.cons_ne_nil b piece)]
      rfl

/-- The delimiter behind a piece is an element too. -/
theorem length_lt_of_cut {piece' : List α} {as : List α} (h : cut d as = piece :: piece' :: pieces) :
    piece.length < as.length := by
  induction as generalizing piece with
  | nil => cases h
  | cons a as ih =>
    rw [cut] at h
    split at h
    · rw [← (List.cons.inj h).1]
      exact Nat.succ_pos as.length
    · cases hcut : cut d as with
      | nil => rw [hcut] at h; cases h
      | cons first rest =>
        rw [hcut] at h
        obtain ⟨rfl, rfl⟩ := List.cons.inj h
        exact Nat.succ_lt_succ (ih hcut)

/-- Cutting undoes joining, if nothing is lost at the end. -/
theorem cut_intercalate (hd : ∀ piece ∈ pieces, d ∉ piece) (hne : ∀ piece ∈ pieces, piece ≠ []) :
    cut d ([d].intercalate pieces) = pieces := by
  induction pieces with
  | nil => rfl
  | cons piece pieces ih =>
    have hpiece : d ∉ piece := hd piece List.mem_cons_self
    cases pieces with
    | nil =>
      rw [List.intercalate_singleton]
      exact cut_last hpiece (hne piece List.mem_cons_self)
    | cons piece' pieces =>
      rw [List.intercalate_cons_cons, List.append_assoc, List.singleton_append, cut_append hpiece,
        ih (fun q hq => hd q (List.mem_cons_of_mem piece hq))
        fun q hq => hne q (List.mem_cons_of_mem piece hq)]

end Pieces
