import HyuIte4065.Library.Loops
import Mathlib.Logic.Relation
import Mathlib.Data.Set.Card

/-!
# A list that grows while it is worked off

An index runs over a list; the successors of the element there are appended unless they are in
the list already. The index is a counter with a limit, which must not be reached.
-/
namespace Worklist

open Relation (ReflTransGen)
open Loops

variable {α : Type}

/-- What the successors lead to from the elements at the start. -/
def closure (next : α → List α) (start : List α) : Set α :=
  {a | ∃ s ∈ start, ReflTransGen (fun a b => b ∈ next a) s a}

/-- What is not there at the start. -/
def fresh (next : α → List α) (start : List α) : Set α := {a ∈ closure next start | a ∉ start}

/-- The list is made of the start and of new elements, without repetition. -/
structure Added (start known : List α) (added : List α) : Prop where
  eq : known = start ++ added
  nodup : added.Nodup
  new : ∀ a ∈ added, a ∉ start

/-- The successors of the first `i` elements are in the list. -/
structure Grown (next : α → List α) (start : List α) (i : Nat) (known : List α) : Prop where
  added : ∃ added, Added start known added
  reached : ∀ a ∈ known, a ∈ closure next start
  closed : ∀ j < i, ∀ a, known[j]? = some a → ∀ b ∈ next a, b ∈ known

variable {next : α → List α} {start known news : List α} {a : α} {i : Nat}

/-- At the end of the list everything that can be reached is in it. -/
theorem Grown.mem_iff (h : Grown next start i known) (hi : known.length ≤ i) :
    a ∈ known ↔ a ∈ closure next start := by
  refine ⟨h.reached a, ?_⟩
  rintro ⟨s, hs, hsa⟩
  obtain ⟨added, hadded⟩ := h.added
  induction hsa with
  | refl => rw [hadded.eq]; exact List.mem_append_left _ hs
  | tail _ hbc ih =>
    obtain ⟨j, hj, hget⟩ := List.getElem_of_mem ih
    exact h.closed j (by omega) _ (by rw [List.getElem?_eq_getElem hj, hget]) _ hbc

variable [DecidableEq α] {limit fuel : Nat}

def insert (known : List α) (a : α) : List α := if a ∈ known then known else known ++ [a]

def extend (known : List α) (news : List α) : List α := news.foldl insert known

/-- Out of fuel, or the counter at its limit, is no result. -/
def grow (next : α → List α) (limit : Nat) : Nat → Nat → List α → Option (List α)
  | 0, _, _ => none
  | fuel + 1, i, known =>
    match known[i]? with
    | none => some known
    | some a =>
      if i + 1 < limit then grow next limit fuel (i + 1) (extend known (next a)) else none

theorem Added.insert {added : List α} (h : Added start known added) (a : α) :
    ∃ added', Added start (insert known a) added' := by
  by_cases ha : a ∈ known
  · exact ⟨added, by rwa [Worklist.insert, if_pos ha]⟩
  · rw [h.eq, List.mem_append, not_or] at ha
    refine ⟨added ++ [a], ?_, ?_, ?_⟩
    · rw [Worklist.insert, h.eq, if_neg (by rw [List.mem_append, not_or]; exact ha), List.append_assoc]
    · exact List.nodup_append'.mpr ⟨h.nodup, List.nodup_singleton a, by simpa using ha.2⟩
    · intro b hb
      rcases List.mem_append.mp hb with hb | hb
      · exact h.new b hb
      · rw [List.mem_singleton.mp hb]
        exact ha.1

theorem Added.extend {added : List α} (h : Added start known added) (news : List α) :
    ∃ added', Added start (extend known news) added' := by
  induction news generalizing known added with
  | nil => exact ⟨added, h⟩
  | cons a news ih =>
    obtain ⟨added', h'⟩ := h.insert a
    exact ih h'

theorem mem_insert {b : α} : b ∈ insert known a ↔ b ∈ known ∨ b = a := by
  by_cases ha : a ∈ known
  · rw [insert, if_pos ha]
    refine ⟨.inl, ?_⟩
    rintro (hb | rfl)
    · exact hb
    · exact ha
  · rw [insert, if_neg ha, List.mem_append, List.mem_singleton]

theorem mem_extend {b : α} : b ∈ extend known news ↔ b ∈ known ∨ b ∈ news := by
  induction news generalizing known with
  | nil => simp [extend]
  | cons a news ih =>
    rw [show extend known (a :: news) = extend (insert known a) news from rfl, ih, mem_insert,
      List.mem_cons, or_assoc]

/-- The elements that are there stay where they are. -/
theorem extend_getElem? {j : Nat} (h : j < known.length) : (extend known news)[j]? = known[j]? := by
  induction news generalizing known with
  | nil => rfl
  | cons a news ih =>
    have hinsert : (insert known a)[j]? = known[j]? ∧ j < (insert known a).length := by
      by_cases ha : a ∈ known
      · rw [insert, if_pos ha]
        exact ⟨rfl, h⟩
      · rw [insert, if_neg ha, List.length_append]
        exact ⟨List.getElem?_append_left h, by omega⟩
    exact (ih hinsert.2).trans hinsert.1

theorem Grown.turn (h : Grown next start i known) (ha : known[i]? = some a) :
    Grown next start (i + 1) (extend known (next a)) := by
  obtain ⟨added, hadded⟩ := h.added
  refine ⟨hadded.extend (next a), fun b hb => ?_, fun j hj c hc b hb => ?_⟩
  · rcases mem_extend.mp hb with hb | hb
    · exact h.reached b hb
    · obtain ⟨s, hs, hsa⟩ := h.reached a (List.mem_of_getElem? ha)
      exact ⟨s, hs, hsa.tail hb⟩
  · have hi : i < known.length := (List.getElem?_eq_some_iff.mp ha).1
    rw [extend_getElem? (by omega)] at hc
    rw [mem_extend]
    by_cases hji : j = i
    · subst hji
      rw [ha] at hc
      cases hc
      exact .inr hb
    · exact .inl (h.closed j (by omega) c hc b hb)

theorem Added.length_le {added : List α} (h : Added start known added) (hfin : (closure next start).Finite)
    (hreached : ∀ a ∈ known, a ∈ closure next start) :
    known.length ≤ start.length + (fresh next start).ncard := by
  have hsub : (added.toFinset : Set α) ⊆ fresh next start := fun a ha => by
    have hmem : a ∈ added := by simpa using ha
    exact ⟨hreached a (h.eq ▸ List.mem_append_right _ hmem), h.new a hmem⟩
  have hcard := Set.ncard_le_ncard hsub (hfin.subset fun _ ha => ha.1)
  rw [Set.ncard_coe_finset, List.toFinset_card_of_nodup h.nodup] at hcard
  rw [h.eq, List.length_append]
  omega

theorem Grown.length_eq (h : Grown next start i known) (hi : known.length ≤ i) :
    known.length = start.length + (fresh next start).ncard := by
  obtain ⟨added, hadded⟩ := h.added
  have hset : (added.toFinset : Set α) = fresh next start := by
    ext a
    rw [List.coe_toFinset]
    constructor
    · exact fun ha => ⟨h.reached a (hadded.eq ▸ List.mem_append_right _ ha), hadded.new a ha⟩
    · rintro ⟨hreach, hnew⟩
      have hmem := (h.mem_iff hi).mpr hreach
      rw [hadded.eq, List.mem_append] at hmem
      exact hmem.resolve_left hnew
  rw [← hset, Set.ncard_coe_finset, List.toFinset_card_of_nodup hadded.nodup, hadded.eq,
    List.length_append]

end Worklist
