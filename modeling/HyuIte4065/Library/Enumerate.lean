import Mathlib.Data.Set.Basic
import Mathlib.Data.List.Nodup
import Mathlib.Data.List.Perm.Basic
import Mathlib.Data.List.Sections

/-!
# Lists that enumerate a set

A list without repetitions whose elements are those of a set. Two such lists differ in
their order only, so what does not depend on the order may be computed from any of them.
-/
namespace Enumerate

variable {α β γ : Type*}

structure Enumerates (l : List α) (S : Set α) : Prop where
  nodup : l.Nodup
  mem : ∀ a, a ∈ l ↔ a ∈ S

variable {l l' : List α} {r : List β} {S S' : Set α} {R : Set β}

theorem Enumerates.perm (h : Enumerates l S) (h' : Enumerates l' S) : l.Perm l' :=
  (List.perm_ext_iff_of_nodup h.nodup h'.nodup).mpr fun a => by rw [h.mem, h'.mem]

theorem Enumerates.congr (h : Enumerates l S) (he : ∀ a, a ∈ S ↔ a ∈ S') : Enumerates l S' :=
  ⟨h.nodup, fun a => by rw [h.mem, he]⟩

theorem Enumerates.filter (h : Enumerates l S) (p : α → Bool) :
    Enumerates (l.filter p) {a | a ∈ S ∧ p a = true} :=
  ⟨h.nodup.filter p, fun a => by rw [List.mem_filter, h.mem]; rfl⟩

/-- Every element of `r` is combined with those of `l` that match it. -/
theorem Enumerates.join (h : Enumerates l S) (h' : Enumerates r R) (matched : α → β → Bool)
    {f : α → β → γ}
    (hf : ∀ a ∈ S, ∀ b ∈ R, ∀ a' ∈ S, ∀ b' ∈ R, f a b = f a' b' → a = a' ∧ b = b') :
    Enumerates (r.flatMap fun b => (l.filter (matched · b)).map (f · b))
      {c | ∃ a ∈ S, ∃ b ∈ R, matched a b = true ∧ f a b = c} := by
  refine ⟨List.nodup_flatMap.mpr ⟨fun b hb => ?_, ?_⟩, fun c => ?_⟩
  · refine (h.nodup.filter _).map_on fun a ha a' ha' he => ?_
    have ha := (h.mem a).mp (List.mem_of_mem_filter ha)
    have ha' := (h.mem a').mp (List.mem_of_mem_filter ha')
    have hb := (h'.mem b).mp hb
    exact (hf a ha b hb a' ha' b hb he).1
  · refine h'.nodup.imp_of_mem fun {b b'} hb hb' hne => ?_
    rw [Function.onFun_apply, List.disjoint_left]
    intro c hc hc'
    obtain ⟨a, ha, rfl⟩ := List.mem_map.mp hc
    obtain ⟨a', ha', he⟩ := List.mem_map.mp hc'
    have ha := (h.mem a).mp (List.mem_of_mem_filter ha)
    have ha' := (h.mem a').mp (List.mem_of_mem_filter ha')
    exact hne (hf a ha b ((h'.mem b).mp hb) a' ha' b' ((h'.mem b').mp hb') he.symm).2
  · simp only [List.mem_flatMap, List.mem_map, List.mem_filter, h.mem, h'.mem]
    constructor
    · rintro ⟨b, hb, a, ⟨ha, hm⟩, rfl⟩
      exact ⟨a, ha, b, hb, hm, rfl⟩
    · rintro ⟨a, ha, b, hb, hm, rfl⟩
      exact ⟨b, hb, a, ⟨ha, hm⟩, rfl⟩

/-- A function for each factor, applied to the tuples of a cross product. -/
theorem sections_map {ι : Type*} (xs : List ι) (g : ι → List α) (f : ι → α → β) :
    (xs.map fun x => (g x).map (f x)).sections = ((xs.map g).sections).map (List.zipWith f xs) := by
  induction xs with
  | nil => rfl
  | cons x xs ih =>
    simp only [List.map_cons, List.sections, ih, List.map_flatMap, List.flatMap_map, List.map_map]
    rfl

end Enumerate
