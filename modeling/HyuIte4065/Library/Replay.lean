import Mathlib.Data.List.Basic
import Mathlib.Data.List.Induction
import Mathlib.Data.List.Perm.Basic
import Mathlib.Logic.Function.Basic

/-!
# Histories of accesses to a table

A transaction leaves a list of accesses behind: the key, the value found and the value
left. A history fits a table when every access finds the value it says. Histories that
do not conflict may be exchanged, and so a history in any order in which only
transactions that do not conflict have overtaken each other can be sorted.
-/
namespace Replay

variable {K V : Type*}

structure Access (K V : Type*) where
  key : K
  wrote : Bool
  before : V
  after : V
  deriving DecidableEq

/-- An access that does not write leaves what it found. -/
def Sound (as : List (Access K V)) : Prop := ∀ a ∈ as, a.wrote = false → a.after = a.before

/-- Two histories meet only where both of them read. -/
def Compatible (as bs : List (Access K V)) : Prop :=
  ∀ a ∈ as, ∀ b ∈ bs, a.key = b.key → a.wrote = false ∧ b.wrote = false

theorem Compatible.symm {as bs : List (Access K V)} (h : Compatible as bs) : Compatible bs as := by
  intro b hb a ha he
  exact (h a ha b hb he.symm).symm

variable [DecidableEq K]

def apply (t : K → V) (a : Access K V) : K → V := Function.update t a.key a.after

def result (t : K → V) (as : List (Access K V)) : K → V := as.foldl apply t

/-- Every access finds the value it says it found. -/
def Fits (t : K → V) : List (Access K V) → Prop
  | [] => True
  | a :: as => t a.key = a.before ∧ Fits (apply t a) as

variable {t : K → V} {a b : Access K V} {as bs : List (Access K V)} {k : K}

@[simp] theorem result_nil : result t [] = t := rfl
@[simp] theorem result_cons : result t (a :: as) = result (apply t a) as := rfl

@[simp] theorem result_append : result t (as ++ bs) = result (result t as) bs := by
  simp [result]

theorem fits_append : Fits t (as ++ bs) ↔ Fits t as ∧ Fits (result t as) bs := by
  induction as generalizing t with
  | nil => simp [Fits]
  | cons a as ih => simp [Fits, ih, and_assoc]

/-- Keys that a history does not touch keep their value. -/
theorem result_of_notMem (h : k ∉ as.map (·.key)) : result t as k = t k := by
  induction as generalizing t with
  | nil => rfl
  | cons a as ih =>
    obtain ⟨hne, hk⟩ : k ≠ a.key ∧ k ∉ as.map (·.key) := by simpa using h
    rw [result_cons, ih hk, apply, Function.update_of_ne hne]

/-- Where no key occurs twice, an access decides the value of its key. -/
theorem result_of_mem (hnd : (as.map (·.key)).Nodup) (ha : a ∈ as) :
    result t as a.key = a.after := by
  induction as generalizing t with
  | nil => simp at ha
  | cons b as ih =>
    obtain ⟨hb, hnd⟩ := List.nodup_cons.mp hnd
    rw [result_cons]
    rcases List.mem_cons.mp ha with rfl | ha
    · rw [result_of_notMem hb, apply, Function.update_self]
    · exact ih hnd ha

/-- Where no key occurs twice, every access meets the table as it was before. -/
theorem fits_of_nodup (hnd : (as.map (·.key)).Nodup) (h : ∀ a ∈ as, t a.key = a.before) :
    Fits t as := by
  induction as generalizing t with
  | nil => trivial
  | cons b as ih =>
    obtain ⟨hb, hnd⟩ := List.nodup_cons.mp hnd
    refine ⟨h b (by simp), ih hnd fun a ha => ?_⟩
    have hne : a.key ≠ b.key := by
      intro he
      exact hb (List.mem_map.mpr ⟨a, ha, he⟩)
    rw [apply, Function.update_of_ne hne]
    exact h a (by simp [ha])

/-- The value of a key is what the last access that wrote it left. -/
theorem result_eq_lastWrite (hs : Sound as) (hf : Fits t as) (k : K) :
    result t as k =
      (((as.filter fun a => a.wrote && decide (a.key = k)).getLast?).map (·.after)).getD (t k) := by
  induction as using List.reverseRecOn with
  | nil => rfl
  | append_singleton as a ih =>
    obtain ⟨hfa, hfb⟩ := fits_append.mp hf
    have ih := ih (fun b hb => hs b (by simp [hb])) hfa
    rw [result_append, result_cons, result_nil, apply, List.filter_append]
    by_cases hk : a.key = k
    · subst hk
      cases hw : a.wrote with
      | true => simp [hw]
      | false =>
        have hbefore : result t as a.key = a.before := hfb.1
        rw [List.filter_cons_of_neg (by simp [hw]), List.filter_nil, List.append_nil, ← ih,
          Function.update_self, hs a (by simp) hw, hbefore]
    · simp [hk, Ne.symm hk, ih]

/-- Two neighbouring accesses may be exchanged. -/
theorem fits_swap (ha : a.wrote = false → a.after = a.before) (hb : b.wrote = false → b.after = b.before)
    (hc : a.key = b.key → a.wrote = false ∧ b.wrote = false) (hf : Fits t (a :: b :: as)) :
    Fits t (b :: a :: as) ∧ result t (b :: a :: as) = result t (a :: b :: as) := by
  obtain ⟨h₁, h₂, h₃⟩ := hf
  by_cases hk : a.key = b.key
  · obtain ⟨hwa, hwb⟩ := hc hk
    have ea := ha hwa
    have eb := hb hwb
    rw [apply, hk, Function.update_self] at h₂
    have hsame : apply t a = t := by rw [apply, ea, ← h₁, Function.update_eq_self]
    have hsame' : apply t b = t := by
      rw [apply, eb, ← h₂, ea, ← h₁, hk, Function.update_eq_self]
    rw [hsame, hsame'] at h₃
    refine ⟨⟨?_, ?_, ?_⟩, ?_⟩
    · rw [← hk, h₁, ← ea, h₂]
    · rw [hsame', h₁]
    · rwa [hsame', hsame]
    · simp only [result_cons, hsame, hsame']
  · have hcomm : apply (apply t a) b = apply (apply t b) a := by
      simp only [apply]
      exact Function.update_comm hk _ _ _
    rw [apply, Function.update_of_ne (Ne.symm hk)] at h₂
    refine ⟨⟨h₂, ?_, hcomm ▸ h₃⟩, by simp only [result_cons, hcomm]⟩
    rw [apply, Function.update_of_ne hk, h₁]

/-- An access moves to the front of a history it is compatible with. -/
theorem fits_to_front {cs : List (Access K V)} (ha : a.wrote = false → a.after = a.before)
    (hs : Sound as) (hc : Compatible as [a]) (hf : Fits t (as ++ a :: cs)) :
    Fits t (a :: as ++ cs) ∧ result t (a :: as ++ cs) = result t (as ++ a :: cs) := by
  induction as generalizing t with
  | nil => exact ⟨hf, rfl⟩
  | cons b as ih =>
    obtain ⟨hb, hf⟩ := hf
    obtain ⟨hf', hr⟩ := ih (fun c hm => hs c (by simp [hm]))
      (fun c hm => hc c (by simp [hm])) hf
    obtain ⟨hf'', hr'⟩ := fits_swap (hs b (by simp)) ha (hc b (by simp) a (by simp))
      (show Fits t (b :: a :: (as ++ cs)) from ⟨hb, hf'⟩)
    exact ⟨hf'', hr'.trans hr⟩

/-- Two histories that do not conflict may be exchanged. -/
theorem fits_exchange {cs : List (Access K V)} (ha : Sound as) (hb : Sound bs)
    (hc : Compatible as bs) (hf : Fits t (as ++ bs ++ cs)) :
    Fits t (bs ++ as ++ cs) ∧ result t (bs ++ as ++ cs) = result t (as ++ bs ++ cs) := by
  induction bs generalizing t with
  | nil => simpa using hf
  | cons b bs ih =>
    have hcb : Compatible as [b] := by
      intro a hm b' hb' he
      obtain rfl : b' = b := by simpa using hb'
      exact hc a hm b' (by simp) he
    have hf' : Fits t (as ++ b :: (bs ++ cs)) := by simpa using hf
    obtain ⟨⟨hk, hf''⟩, hr⟩ := fits_to_front (hb b (by simp)) ha hcb hf'
    have htail : Fits (apply t b) (as ++ bs ++ cs) := by simpa using hf''
    obtain ⟨hf₃, hr₃⟩ := ih (fun c hm => hb c (by simp [hm]))
      (fun a hm c hm' => hc a hm c (by simp [hm'])) htail
    refine ⟨⟨hk, hf₃⟩, ?_⟩
    have h₁ : result t (b :: bs ++ as ++ cs) = result (apply t b) (bs ++ as ++ cs) := rfl
    rw [h₁, hr₃]
    simpa using hr

/-! ### Whole transactions -/

variable {C : Type*} {log : C → List (Access K V)} {cs ds : List C} {c d : C}

/-- One transaction moves to the front of transactions that it does not conflict with. -/
theorem fits_flatMap_front {es : List C} (hs : ∀ d ∈ ds, Sound (log d)) (hsc : Sound (log c))
    (hc : ∀ d ∈ ds, Compatible (log d) (log c))
    (hf : Fits t ((ds ++ c :: es).flatMap log)) :
    Fits t ((c :: (ds ++ es)).flatMap log) ∧
    result t ((c :: (ds ++ es)).flatMap log) = result t ((ds ++ c :: es).flatMap log) := by
  have hsd : Sound (ds.flatMap log) := by
    intro a ha
    obtain ⟨d, hd, ha⟩ := List.mem_flatMap.mp ha
    exact hs d hd a ha
  have hcd : Compatible (ds.flatMap log) (log c) := by
    intro a ha
    obtain ⟨d, hd, ha⟩ := List.mem_flatMap.mp ha
    exact hc d hd a ha
  have he : (ds ++ c :: es).flatMap log = ds.flatMap log ++ log c ++ es.flatMap log := by simp
  have he' : (c :: (ds ++ es)).flatMap log = log c ++ ds.flatMap log ++ es.flatMap log := by simp
  rw [he] at hf ⊢
  rw [he']
  exact fits_exchange hsd hsc hcd hf

/-- Only transactions that do not conflict stand in the wrong order of their numbers. -/
def Inversions (number : C → Nat) (log : C → List (Access K V)) (cs : List C) : Prop :=
  cs.Pairwise fun c d => number d < number c → Compatible (log c) (log d)

/-- A history whose inversions do not conflict may be sorted. -/
theorem fits_sorted (number : C → Nat) (hs : ∀ c ∈ cs, Sound (log c)) (hi : Inversions number log cs)
    (hp : ds.Perm cs) (hd : ds.Pairwise fun c d => number c < number d)
    (hf : Fits t (cs.flatMap log)) :
    Fits t (ds.flatMap log) ∧ result t (ds.flatMap log) = result t (cs.flatMap log) := by
  induction ds generalizing t cs with
  | nil =>
    obtain rfl : cs = [] := hp.nil_eq.symm
    exact ⟨hf, rfl⟩
  | cons d ds ih =>
    obtain ⟨us, vs, rfl⟩ := List.append_of_mem (hp.subset (List.mem_cons_self : d ∈ d :: ds))
    obtain ⟨hmin, hd⟩ := List.pairwise_cons.mp hd
    have hp' : ds.Perm (us ++ vs) := (hp.trans List.perm_middle).cons_inv
    obtain ⟨hu, hdv, huv⟩ := List.pairwise_append.mp hi
    have hfree : ∀ c ∈ us, Compatible (log c) (log d) := by
      intro c hc
      exact huv c hc d (by simp) (hmin c (hp'.symm.subset (by simp [hc])))
    obtain ⟨hf', hr⟩ := fits_flatMap_front (fun c hc => hs c (by simp [hc])) (hs d (by simp)) hfree hf
    have hi' : Inversions number log (us ++ vs) := by
      refine List.pairwise_append.mpr ⟨hu, (List.pairwise_cons.mp hdv).2, ?_⟩
      intro c hc e he
      exact huv c hc e (by simp [he])
    rw [List.flatMap_cons, fits_append] at hf'
    have hs' : ∀ c ∈ us ++ vs, Sound (log c) := by
      intro c hc
      exact hs c (by simpa using (List.mem_append.mp hc).imp_right .inr)
    obtain ⟨hf₂, hr₂⟩ := ih hs' hi' hp' hd hf'.2
    rw [List.flatMap_cons]
    refine ⟨fits_append.mpr ⟨hf'.1, hf₂⟩, ?_⟩
    rw [result_append, hr₂, ← result_append, ← List.flatMap_cons, hr]

end Replay
