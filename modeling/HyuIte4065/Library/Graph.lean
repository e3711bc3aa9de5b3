import Mathlib.Logic.Relation
import Mathlib.Data.Set.Finite.Basic
import Mathlib.Order.WellFoundedSet

/-!
# Acyclic graphs that grow and shrink node by node

A graph is a relation. A fresh node keeps it acyclic when no path leads from the
target of its outgoing edge back to the source of its incoming edge, and any graph
whose edges are paths of an acyclic graph is acyclic.
-/
namespace Graph

open Relation (ReflTransGen TransGen)

variable {α : Type*} {E E' : α → α → Prop}

def Acyclic (E : α → α → Prop) : Prop := ∀ a, ¬ TransGen E a a

theorem Acyclic.of_paths (h : Acyclic E) (hE : ∀ a b, E' a b → TransGen E a b) : Acyclic E' := by
  intro a ha
  have path : ∀ b, TransGen E' a b → TransGen E a b := by
    intro b hb
    induction hb with
    | single h => exact hE _ _ h
    | tail _ h ih => exact ih.trans (hE _ _ h)
  exact h a (path a ha)

/-- A path as its nodes in order. -/
theorem exists_steps {a b : α} (h : TransGen E a b) :
    ∃ n, 0 < n ∧ ∃ f : Nat → α, f 0 = a ∧ f n = b ∧ ∀ k < n, E (f k) (f (k + 1)) := by
  induction h using TransGen.head_induction_on with
  | @single a hab =>
    refine ⟨1, Nat.one_pos, fun k => k.casesOn a fun _ => b, rfl, rfl, fun k hk => ?_⟩
    obtain rfl := Nat.lt_one_iff.mp hk
    exact hab
  | @head a c hac _ ih =>
    obtain ⟨n, hn, f, h₀, hb, hf⟩ := ih
    refine ⟨n + 1, by omega, fun k => k.casesOn a f, rfl, hb, fun k hk => ?_⟩
    cases k with
    | zero =>
      show E a (f 0)
      exact h₀.symm ▸ hac
    | succ k => exact hf k (by omega)

/-- A rank that rises between two edges in a row. -/
theorem Acyclic.of_rank {κ : Type*} [Preorder κ] (rank : α → κ)
    (rises : ∀ a b c, E a b → E b c → rank a < rank b) : Acyclic E := by
  have path : ∀ a b, TransGen E a b → ∀ c, E b c → rank a < rank b := by
    intro a b hab
    induction hab with
    | single h => exact fun c hc => rises _ _ c h hc
    | tail _ h ih => exact fun c hc => (ih _ h).trans (rises _ _ c h hc)
  intro a ha
  obtain ⟨b, hab, -⟩ := TransGen.head'_iff.mp ha
  exact lt_irrefl _ (path a a ha b hab)

/-- New edges of a node that no edge leads to are on no path from elsewhere. -/
theorem path_of_hidden {n x y : α} (grow : ∀ a b, E' a b → E a b ∨ a = n) (hidden : ∀ a, ¬ E a n) (hx : x ≠ n)
    (h : ReflTransGen E' x y) : ReflTransGen E x y ∧ y ≠ n := by
  induction h with
  | refl => exact ⟨.refl, hx⟩
  | @tail b c _ edge ih =>
    have hbc : E b c := (grow _ _ edge).resolve_right ih.2
    exact ⟨ih.1.tail hbc, fun he => hidden b (he ▸ hbc)⟩

/-- An edge from `p` to `q` replaced by one to a hidden node that leads to `q`. -/
theorem path_of_detour {n p q x y : α} (grow : ∀ a b, E' a b → E a b ∨ a = p ∧ b = n) (hidden : ∀ a, ¬ E a n)
    (onward : ∀ b, E n b → b = q) (edge : E p q) (hnp : n ≠ p) (hx : x ≠ n) (hy : y ≠ n)
    (h : ReflTransGen E' x y) : ReflTransGen E x y := by
  have hpath : (y ≠ n → ReflTransGen E x y) ∧ (y = n → ReflTransGen E x p) := by
    clear hy
    induction h with
    | refl => exact ⟨fun _ => .refl, fun he => absurd he hx⟩
    | @tail b c _ hbc ih =>
      rcases grow b c hbc with hbc | ⟨rfl, rfl⟩
      · have hc : c ≠ n := fun he => hidden b (he ▸ hbc)
        refine ⟨fun _ => ?_, fun he => absurd he hc⟩
        by_cases hb : b = n
        · subst hb
          obtain rfl := onward c hbc
          exact (ih.2 rfl).tail edge
        · exact (ih.1 hb).tail hbc
      · exact ⟨fun hc => absurd rfl hc, fun _ => ih.1 hnp.symm⟩
  exact hpath.1 hy

/-- Paths of a graph with a fresh node `p` between `back` and `tail`: to `p` they pass
through `back`, elsewhere they are old paths or go through `p`. -/
theorem path_through {p : α} {back tail : Option α}
    (grow : ∀ a b, E' a b →
      (E a b ∧ a ≠ p ∧ b ≠ p) ∨ (a = p ∧ tail = some b) ∨ (back = some a ∧ b = p))
    {a b : α} (ha : a ≠ p) (hp : tail ≠ some p) (h : TransGen E' a b) :
    (b = p → ∃ s, back = some s ∧ ReflTransGen E a s) ∧
    (b ≠ p → TransGen E a b ∨
      ∃ s t, back = some s ∧ tail = some t ∧ ReflTransGen E a s ∧ ReflTransGen E t b) := by
  induction h with
  | single h =>
    rcases grow _ _ h with ⟨h, -, hb⟩ | ⟨h, -⟩ | ⟨h, rfl⟩
    · exact ⟨fun he => absurd he hb, fun _ => .inl (.single h)⟩
    · exact absurd h ha
    · exact ⟨fun _ => ⟨a, h, .refl⟩, fun hne => absurd rfl hne⟩
  | @tail c d _ h ih =>
    rcases grow _ _ h with ⟨h, hc, hd⟩ | ⟨rfl, ht⟩ | ⟨hs, rfl⟩
    · refine ⟨fun he => absurd he hd, fun _ => ?_⟩
      rcases ih.2 hc with ih | ⟨s, t, hs, ht, has, htc⟩
      · exact .inl (ih.tail h)
      · exact .inr ⟨s, t, hs, ht, has, htc.tail h⟩
    · obtain ⟨s, hs, has⟩ := ih.1 rfl
      have hd : d ≠ c := by
        rintro rfl
        exact hp ht
      exact ⟨fun he => absurd he hd, fun _ => .inr ⟨s, d, hs, ht, has, .refl⟩⟩
    · refine ⟨fun _ => ?_, fun hne => absurd rfl hne⟩
      by_cases hc : c = d
      · exact ih.1 hc
      · rcases ih.2 hc with ih | ⟨s, t, hs', ht, has, htc⟩
        · exact ⟨c, hs, ih.to_reflTransGen⟩
        · exact ⟨s, hs', has⟩

/-- A fresh node `p` with one edge to `tail` and one edge from `back`. -/
theorem Acyclic.insert (h : Acyclic E) {p : α} {back tail : Option α}
    (grow : ∀ a b, E' a b →
      (E a b ∧ a ≠ p ∧ b ≠ p) ∨ (a = p ∧ tail = some b) ∨ (back = some a ∧ b = p))
    (hb : back ≠ some p) (hp : tail ≠ some p)
    (free : ∀ s t, back = some s → tail = some t → ¬ ReflTransGen E t s) : Acyclic E' := by
  intro a ha
  by_cases hap : a = p
  · subst hap
    obtain ⟨b, hab, hba⟩ := TransGen.head'_iff.mp ha
    rcases grow _ _ hab with ⟨-, h', -⟩ | ⟨-, ht⟩ | ⟨hs, -⟩
    · exact h' rfl
    · have hne : b ≠ a := by
        rintro rfl
        exact hp ht
      rcases Relation.reflTransGen_iff_eq_or_transGen.mp hba with he | hba
      · exact hne he.symm
      · obtain ⟨s, hs, hbs⟩ := (path_through grow hne hp hba).1 rfl
        exact free s b hs ht hbs
    · exact hb hs
  · rcases (path_through grow hap hp ha).2 hap with hold | ⟨s, t, hs, ht, has, hta⟩
    · exact h a hold
    · exact free s t hs ht (hta.trans has)

/-- An acyclic graph with finitely many sources can be followed only finitely far. -/
theorem Acyclic.wellFounded (h : Acyclic E) {S : Set α} (fin : S.Finite)
    (source : ∀ a b, E a b → a ∈ S) : WellFounded fun b a => E a b := by
  have strict : IsStrictOrder α (fun b a => TransGen E a b) :=
    { irrefl := h, trans := fun _ _ _ h₁ h₂ => h₂.trans h₁ }
  have wf : S.WellFoundedOn fun b a => TransGen E a b := fin.wellFoundedOn
  have acc : ∀ a ∈ S, Acc (fun b a => E a b) a := by
    intro a ha
    refine wf.induction ha ?_
    intro a _ ih
    refine ⟨a, fun b hb => ?_⟩
    by_cases hS : b ∈ S
    · exact ih b hS (.single hb)
    · exact ⟨b, fun c hc => absurd (source _ _ hc) hS⟩
  refine ⟨fun a => ?_⟩
  by_cases ha : a ∈ S
  · exact acc a ha
  · exact ⟨a, fun b hb => absurd (source _ _ hb) ha⟩

end Graph
