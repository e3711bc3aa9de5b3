import Mathlib.Logic.Relation
import Mathlib.Order.WellFounded
import Mathlib.Algebra.BigOperators.Group.List.Basic
import Mathlib.Algebra.GroupWithZero.Nat

/-!
# Breadth-first search without a visited set

A queue of elements is worked off from the front and the successors of each
element are added at the back. Nothing records what was seen before, so an
element is processed once for every path that leads to it. `visit` may fail:
it then models an access that the program may not make.
-/
namespace Search

open Relation (ReflTransGen TransGen)

variable {α : Type*} {visit : α → Option (Bool × List α)}

/-- `some true` on a hit, `some false` on an exhausted queue, `none` out of fuel or stuck. -/
def search (visit : α → Option (Bool × List α)) : Nat → List α → Option Bool
  | 0, _ => none
  | _ + 1, [] => some false
  | fuel + 1, a :: queue =>
    match visit a with
    | none => none
    | some (true, _) => some true
    | some (false, next) => search visit fuel (queue ++ next)

/-- One element leads to another: the search would push it. -/
def Edge (visit : α → Option (Bool × List α)) (a b : α) : Prop :=
  ∃ hit next, visit a = some (hit, next) ∧ b ∈ next

def Hit (visit : α → Option (Bool × List α)) (a : α) : Prop :=
  ∃ next, visit a = some (true, next)

@[simp] theorem search_nil (fuel : Nat) : search visit (fuel + 1) [] = some false := rfl

theorem search_cons_hit {a : α} {next : List α} (fuel : Nat) (queue : List α)
    (h : visit a = some (true, next)) : search visit (fuel + 1) (a :: queue) = some true := by
  simp [search, h]

theorem search_cons_miss {a : α} {next : List α} (fuel : Nat) (queue : List α)
    (h : visit a = some (false, next)) :
    search visit (fuel + 1) (a :: queue) = search visit fuel (queue ++ next) := by
  simp [search, h]

/-- An answer does not change when more fuel is given. -/
theorem search_mono {fuel more : Nat} (hle : fuel ≤ more) {queue : List α} {r : Bool}
    (h : search visit fuel queue = some r) : search visit more queue = some r := by
  induction fuel generalizing more queue with
  | zero => simp [search] at h
  | succ fuel ih =>
    obtain ⟨more, rfl⟩ : ∃ k, more = k + 1 := ⟨more - 1, by omega⟩
    cases queue with
    | nil => simpa using h
    | cons a queue =>
      simp only [search] at h ⊢
      split at h
      · contradiction
      · exact h
      · exact ih (by omega) h

/-- A reported hit is reachable from the queue. -/
theorem search_true {fuel : Nat} {queue : List α} (h : search visit fuel queue = some true) :
    ∃ a ∈ queue, ∃ b, ReflTransGen (Edge visit) a b ∧ Hit visit b := by
  induction fuel generalizing queue with
  | zero => simp [search] at h
  | succ fuel ih =>
    cases queue with
    | nil => simp at h
    | cons a queue =>
      simp only [search] at h
      split at h
      · contradiction
      · next next hv => exact ⟨a, by simp, a, .refl, next, hv⟩
      · next next hv =>
        obtain ⟨b, hb, c, hbc, hc⟩ := ih h
        rcases List.mem_append.mp hb with hb | hb
        · exact ⟨b, by simp [hb], c, hbc, hc⟩
        · exact ⟨a, by simp, c, .head ⟨false, next, hv, hb⟩ hbc, hc⟩

/-- After an exhausted queue nothing reachable from it was a hit. -/
theorem search_false {fuel : Nat} {queue : List α} (h : search visit fuel queue = some false)
    {a b : α} (ha : a ∈ queue) (hab : ReflTransGen (Edge visit) a b) : ¬ Hit visit b := by
  induction fuel generalizing queue a with
  | zero => simp [search] at h
  | succ fuel ih =>
    cases queue with
    | nil => simp at ha
    | cons c queue =>
      simp only [search] at h
      split at h
      · contradiction
      · simp at h
      · next next hv =>
        rcases List.mem_cons.mp ha with rfl | ha
        · rcases hab.cases_head with rfl | ⟨d, ⟨hit, next', hd, hm⟩, hdb⟩
          · rintro ⟨next', hn⟩
            simp [hv] at hn
          · obtain ⟨-, rfl⟩ : false = hit ∧ next = next' := by simpa [hv] using hd
            exact ih h (by simp [hm]) hdb
        · exact ih h (by simp [ha]) hab

/-- The number of elements the search may process below `a`, one for every path. -/
noncomputable def cost (wf : WellFounded fun b a => Edge visit a b) : α → Nat :=
  wf.fix fun a below =>
    match hv : visit a with
    | none => 1
    | some (hit, next) =>
      1 + (next.attach.map fun b => below b.1 ⟨hit, next, hv, b.2⟩).sum

theorem cost_eq (wf : WellFounded fun b a => Edge visit a b) {a : α} {hit : Bool} {next : List α}
    (hv : visit a = some (hit, next)) : cost wf a = 1 + (next.map (cost wf)).sum := by
  have h : cost wf a = _ := wf.fix_eq _ a
  rw [h]
  split
  · simp_all
  · next hit' next' hv' =>
    obtain ⟨rfl, rfl⟩ : hit = hit' ∧ next = next' := by simpa [hv] using hv'
    congr 2
    exact List.attach_map_val (l := next) (f := cost wf)

/-- On a well-founded graph in which no visit fails, the search answers. -/
theorem search_terminates (wf : WellFounded fun b a => Edge visit a b) {queue : List α}
    (safe : ∀ a ∈ queue, ∀ b, ReflTransGen (Edge visit) a b → (visit b).isSome) :
    ∃ fuel r, search visit fuel queue = some r := by
  suffices ∀ n (queue : List α), (queue.map (cost wf)).sum ≤ n →
      (∀ a ∈ queue, ∀ b, ReflTransGen (Edge visit) a b → (visit b).isSome) →
      ∃ r, search visit (n + 1) queue = some r from ⟨_, this _ queue le_rfl safe⟩
  intro n
  induction n with
  | zero =>
    intro queue hn hs
    cases queue with
    | nil => exact ⟨false, rfl⟩
    | cons a queue =>
      obtain ⟨⟨hit, next⟩, hv⟩ := Option.isSome_iff_exists.mp (hs a (by simp) a .refl)
      simp [cost_eq wf hv] at hn
  | succ n ih =>
    intro queue hn hs
    cases queue with
    | nil => exact ⟨false, rfl⟩
    | cons a queue =>
      obtain ⟨⟨hit, next⟩, hv⟩ := Option.isSome_iff_exists.mp (hs a (by simp) a .refl)
      cases hit with
      | true => exact ⟨true, search_cons_hit _ _ hv⟩
      | false =>
        rw [search_cons_miss _ _ hv]
        apply ih
        · simp only [List.map_cons, List.sum_cons, cost_eq wf hv, List.map_append,
            List.sum_append] at hn ⊢
          omega
        · intro b hb c hbc
          rcases List.mem_append.mp hb with hb | hb
          · exact hs b (by simp [hb]) c hbc
          · exact hs a (by simp) c (.head ⟨false, next, hv, hb⟩ hbc)

/-- Where the search terminates, it answers whether a hit is reachable. -/
theorem search_iff {fuel : Nat} {queue : List α} {r : Bool} (h : search visit fuel queue = some r) :
    r = true ↔ ∃ a ∈ queue, ∃ b, ReflTransGen (Edge visit) a b ∧ Hit visit b := by
  constructor
  · rintro rfl
    exact search_true h
  · rintro ⟨a, ha, b, hab, hb⟩
    cases r with
    | true => rfl
    | false => exact absurd hb (search_false h ha hab)

end Search
