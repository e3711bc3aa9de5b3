import Mathlib.Data.Tree.Basic
import Mathlib.Order.Basic

/-!
# Search trees over any comparison

A lookup and an insertion walk down a binary tree and compare as they go. What they find is
determined by the order from left to right when the comparison is consistent with it, and only
then: below an element that compares less both ways an inserted element is lost.
-/
namespace SearchTree

variable {α : Type*} {less : α → α → Bool} {k : α} {t l r : BinaryTree α} {a : α}

/-- From left to right. -/
def elements : BinaryTree α → List α
  | .nil => []
  | .node a l r => elements l ++ a :: elements r

/-- The walk for the first element that is not less than `k`; `best` is the last one it has seen. -/
def lowerBound (less : α → α → Bool) (k : α) : BinaryTree α → Option α → Option α
  | .nil, best => best
  | .node a l r, best => if less a k then lowerBound less k r best else lowerBound less k l (some a)

def count (less : α → α → Bool) (k : α) (t : BinaryTree α) : Bool :=
  match lowerBound less k t none with
  | none => false
  | some j => !less k j

/-- The walk to the place of `k`; `pred` is the element before that place. Where the element before
is not less than `k`, it is taken for `k` itself. -/
def insertWalk (less : α → α → Bool) (k : α) : BinaryTree α → Option α → Option (BinaryTree α)
  | .nil, none => some (.node k .nil .nil)
  | .nil, some p => if less p k then some (.node k .nil .nil) else none
  | .node a l r, pred =>
    if less k a then (insertWalk less k l pred).map fun l' => .node a l' r
    else (insertWalk less k r (some a)).map fun r' => .node a l r'

/-- How a tree is balanced anew after an insertion. -/
structure Balance (α : Type*) where
  turn : BinaryTree α → BinaryTree α
  elements_turn : ∀ t, elements (turn t) = elements t

/-- The tree is never turned. -/
def Balance.none : Balance α := ⟨id, fun _ => rfl⟩

def emplace (less : α → α → Bool) (balance : Balance α) (k : α) (t : BinaryTree α) : BinaryTree α :=
  match insertWalk less k t none with
  | none => t
  | some t' => balance.turn t'

@[simp] theorem elements_nil : elements (.nil : BinaryTree α) = [] := rfl

@[simp] theorem elements_node : elements (.node a l r) = elements l ++ a :: elements r := rfl

/-- The elements less than `k` stand before all others. -/
def Below (less : α → α → Bool) (k : α) (as : List α) : Prop :=
  as.Pairwise fun a b => less b k → less a k

/-- The elements that `k` is less than stand after all others. -/
def Above (less : α → α → Bool) (k : α) (as : List α) : Prop :=
  as.Pairwise fun a b => less k a → less k b

theorem lowerBound_eq (best : Option α) (h : Below less k (elements t)) :
    lowerBound less k t best = ((elements t).find? fun a => !less a k).or best := by
  induction t generalizing best with
  | nil => rfl
  | node a l r ihl ihr =>
    obtain ⟨hl, har, hcross⟩ := List.pairwise_append.mp h
    obtain ⟨_, hr⟩ := List.pairwise_cons.mp har
    rw [lowerBound, elements_node, List.find?_append, List.find?_cons]
    by_cases hak : less a k
    · have hleft : (elements l).find? (fun b => !less b k) = none :=
        List.find?_eq_none.mpr fun b hb => by simp [hcross b hb a (List.mem_cons_self ..) hak]
      rw [if_pos hak, ihr best hr, hleft, hak]
      rfl
    · rw [if_neg hak, ihl (some a) hl, Bool.eq_false_iff.mpr hak]
      simp

theorem lowerBound_eq_some {best : Option α} {j : α} (h : lowerBound less k t best = some j) :
    best = some j ∨ j ∈ elements t ∧ less j k = false := by
  induction t generalizing best with
  | nil => exact .inl h
  | node a l r ihl ihr =>
    rw [lowerBound] at h
    split at h
    · refine (ihr h).imp_right fun hmem => ⟨?_, hmem.2⟩
      simp [hmem.1]
    · rename_i hak
      rcases ihl h with heq | hmem
      · obtain rfl := Option.some.inj heq
        exact .inr ⟨by simp, Bool.eq_false_iff.mpr hak⟩
      · exact .inr ⟨by simp [hmem.1], hmem.2⟩

/-- What is counted is there, up to elements between which the comparison makes no difference. -/
theorem exists_of_count (h : count less k t = true) :
    ∃ j ∈ elements t, less j k = false ∧ less k j = false := by
  rw [count] at h
  split at h
  · cases h
  · rename_i j hj
    obtain ⟨hmem, hjk⟩ := (lowerBound_eq_some hj).resolve_left (by simp)
    exact ⟨j, hmem, hjk, by simpa using h⟩

theorem count_iff_find? (h : Below less k (elements t)) :
    count less k t = true ↔ ∃ j, (elements t).find? (fun a => !less a k) = some j ∧ less k j = false := by
  rw [count, lowerBound_eq none h, Option.or_none]
  cases (elements t).find? fun a => !less a k <;> simp

/-- An element that differs from all others comes to stand between those it is not less than and
those it is less than. -/
theorem elements_insertWalk (pred : Option α) (h : Above less k (elements t))
    (hnew : ∀ a ∈ elements t, less k a = false → less a k = true)
    (hpred : ∀ p, pred = some p → less p k = true) :
    ∃ t', insertWalk less k t pred = some t' ∧ elements t' =
      (elements t).filter (fun a => !less k a) ++ k :: (elements t).filter (fun a => less k a) := by
  induction t generalizing pred with
  | nil =>
    refine ⟨.node k .nil .nil, ?_, rfl⟩
    cases pred with
    | none => rfl
    | some p => rw [insertWalk, if_pos (hpred p rfl)]
  | node a l r ihl ihr =>
    obtain ⟨hl, har, hcross⟩ := List.pairwise_append.mp h
    obtain ⟨hafter, hr⟩ := List.pairwise_cons.mp har
    rw [insertWalk, elements_node, List.filter_append, List.filter_append]
    by_cases hka : less k a
    · obtain ⟨l', hl', heq⟩ := ihl pred hl (fun b hb => hnew b (by simp [hb])) hpred
      have hnone : (elements r).filter (fun b => !less k b) = [] :=
        List.filter_eq_nil_iff.mpr fun b hb => by simp [hafter b hb hka]
      have hall : (elements r).filter (fun b => less k b) = elements r :=
        List.filter_eq_self.mpr fun b hb => hafter b hb hka
      rw [if_pos hka, hl']
      exact ⟨_, rfl, by simp [heq, hka, hnone, hall]⟩
    · have hbefore : ∀ b ∈ elements l, less k b = false := fun b hb =>
        Bool.eq_false_iff.mpr fun hkb => hka (hcross b hb a (by simp) hkb)
      obtain ⟨r', hr', heq⟩ := ihr (some a) hr (fun b hb => hnew b (by simp [hb])) fun p hp =>
        Option.some.inj hp ▸ hnew a (by simp) (Bool.eq_false_iff.mpr hka)
      have hnone : (elements l).filter (fun b => less k b) = [] :=
        List.filter_eq_nil_iff.mpr fun b hb => by simp [hbefore b hb]
      have hall : (elements l).filter (fun b => !less k b) = elements l :=
        List.filter_eq_self.mpr fun b hb => by simp [hbefore b hb]
      rw [if_neg hka, hr']
      exact ⟨_, rfl, by simp [heq, hka, hnone, hall]⟩

/-- An element that is less than another one and the other way round as well is lost: there the
insertion goes left and the lookup goes right. -/
theorem lost_insertWalk (pred best : Option α) (habove : Above less k (elements t))
    (hbelow : Below less k (elements t)) (hnew : ∀ a ∈ elements t, less k a = false → less a k = true)
    (hboth : ∃ b ∈ elements t, less k b = true ∧ less b k = true)
    (hpred : ∀ p, pred = some p → less p k = true) (hbest : ∀ j, best = some j → less k j = true) :
    ∃ t', insertWalk less k t pred = some t' ∧
      ∀ j, lowerBound less k t' best = some j → less k j = true := by
  induction t generalizing pred best with
  | nil =>
    obtain ⟨b, hb, -⟩ := hboth
    cases hb
  | node a l r ihl ihr =>
    obtain ⟨hal, haar, hacross⟩ := List.pairwise_append.mp habove
    obtain ⟨hbl, hbar, hbcross⟩ := List.pairwise_append.mp hbelow
    obtain ⟨haafter, har⟩ := List.pairwise_cons.mp haar
    obtain ⟨hbafter, hbr⟩ := List.pairwise_cons.mp hbar
    obtain ⟨b, hb, hkb, hbk⟩ := hboth
    rw [elements_node, List.mem_append, List.mem_cons] at hb
    have hnewl : ∀ c ∈ elements l, less k c = false → less c k = true := fun c hc => hnew c (by simp [hc])
    have hnewr : ∀ c ∈ elements r, less k c = false → less c k = true := fun c hc => hnew c (by simp [hc])
    rw [insertWalk]
    by_cases hka : less k a
    · by_cases hak : less a k
      · obtain ⟨l', hl', -⟩ := elements_insertWalk pred hal hnewl hpred
        rw [if_pos hka, hl']
        refine ⟨_, rfl, fun j hj => ?_⟩
        rw [lowerBound, if_pos hak] at hj
        exact (lowerBound_eq_some hj).elim (hbest j) fun hmem => haafter j hmem.1 hka
      · have hbl' : b ∈ elements l := by
          rcases hb with hb | rfl | hb
          · exact hb
          · exact absurd hbk hak
          · exact absurd (hbafter b hb hbk) hak
        obtain ⟨l', hl', hlost⟩ := ihl pred (some a) hal hbl hnewl ⟨b, hbl', hkb, hbk⟩ hpred
          fun j hj => Option.some.inj hj ▸ hka
        rw [if_pos hka, hl']
        refine ⟨_, rfl, fun j hj => ?_⟩
        rw [lowerBound, if_neg hak] at hj
        exact hlost j hj
    · have hak : less a k = true := hnew a (by simp) (Bool.eq_false_iff.mpr hka)
      have hbr' : b ∈ elements r := by
        rcases hb with hb | rfl | hb
        · exact absurd (hacross b hb a (by simp) hkb) hka
        · exact absurd hkb hka
        · exact hb
      obtain ⟨r', hr', hlost⟩ := ihr (some a) best har hbr hnewr ⟨b, hbr', hkb, hbk⟩
        (fun p hp => Option.some.inj hp ▸ hak) hbest
      rw [if_neg hka, hr']
      refine ⟨_, rfl, fun j hj => ?_⟩
      rw [lowerBound, if_pos hak] at hj
      exact hlost j hj

theorem count_emplace_lost (habove : Above less k (elements t)) (hbelow : Below less k (elements t))
    (hnew : ∀ a ∈ elements t, less k a = false → less a k = true)
    (hboth : ∃ b ∈ elements t, less k b = true ∧ less b k = true) :
    count less k (emplace less .none k t) = false := by
  obtain ⟨t', ht', hlost⟩ :=
    lost_insertWalk none none habove hbelow hnew hboth (by simp) (by simp)
  rw [emplace, ht', count]
  cases hj : lowerBound less k t' none with
  | none => simp [Balance.none, hj]
  | some j => simp [Balance.none, hj, hlost j hj]

section Keys

/-! The comparison says of two keys that the first is not at least the second. Where any two keys are
comparable this is the strict order. -/

variable {β : Type*} [PartialOrder β] {key : α → β}

def Sorted (key : α → β) (t : BinaryTree α) : Prop :=
  (elements t).Pairwise fun a b => key a < key b

def Present (key : α → β) (t : BinaryTree α) (b : β) : Prop := ∃ a ∈ elements t, key a = b

theorem Sorted.below (h : Sorted key t) (hless : ∀ a b, less a b = true ↔ ¬ key b ≤ key a) :
    Below less k (elements t) :=
  h.imp fun {a b} hab hbk => (hless a k).mpr fun hka => (hless b k).mp hbk (hka.trans hab.le)

theorem Sorted.above (h : Sorted key t) (hless : ∀ a b, less a b = true ↔ ¬ key b ≤ key a) :
    Above less k (elements t) :=
  h.imp fun {a b} hab hka => (hless k b).mpr fun hbk => (hless k a).mp hka (hab.le.trans hbk)

theorem key_le_of_less (hless : ∀ a b, less a b = true ↔ ¬ key b ≤ key a) (h : less a k = false) :
    key k ≤ key a := by
  by_contra hka
  exact Bool.eq_false_iff.mp h ((hless a k).mpr hka)

theorem less_of_not_present (hless : ∀ a b, less a b = true ↔ ¬ key b ≤ key a)
    (hnew : ¬ Present key t (key k)) : ∀ a ∈ elements t, less k a = false → less a k = true :=
  fun a ha hka => (hless a k).mpr fun hle => hnew ⟨a, ha, le_antisymm (key_le_of_less hless hka) hle⟩

/-- In a sorted tree the lookup is right about every key, also about one that is not comparable. -/
theorem Sorted.count_iff (h : Sorted key t) (hless : ∀ a b, less a b = true ↔ ¬ key b ≤ key a) :
    count less k t = true ↔ Present key t (key k) := by
  constructor
  · intro hcount
    obtain ⟨j, hj, hjk, hkj⟩ := exists_of_count hcount
    exact ⟨j, hj, le_antisymm (key_le_of_less hless hkj) (key_le_of_less hless hjk)⟩
  · rintro ⟨j, hj, heq⟩
    have hjk : less j k = false := Bool.eq_false_iff.mpr fun hlt => (hless j k).mp hlt heq.ge
    have hkj : less k j = false := Bool.eq_false_iff.mpr fun hlt => (hless k j).mp hlt heq.le
    obtain ⟨before, after, hsplit⟩ := List.append_of_mem hj
    rw [count_iff_find? (h.below hless)]
    rw [Sorted, hsplit, List.pairwise_append] at h
    have hbefore : before.find? (fun a => !less a k) = none :=
      List.find?_eq_none.mpr fun a ha => by
        have hlt : key a < key k := heq ▸ h.2.2 a ha j (by simp)
        simp [(hless a k).mpr hlt.not_ge]
    exact ⟨j, by rw [hsplit, List.find?_append, hbefore]; simp [hjk], hkj⟩

/-- A key that is comparable with all others is inserted where it belongs. -/
theorem Sorted.emplace (balance : Balance α) (h : Sorted key t) (hless : ∀ a b, less a b = true ↔ ¬ key b ≤ key a)
    (hnew : ¬ Present key t (key k)) (hcomp : ∀ a ∈ elements t, key a ≤ key k ∨ key k ≤ key a) :
    Sorted key (emplace less balance k t) ∧
      (elements (SearchTree.emplace less balance k t)).Perm (k :: elements t) := by
  obtain ⟨t', ht', heq⟩ := elements_insertWalk none (h.above (k := k) hless)
    (less_of_not_present hless hnew) (by simp)
  have hne : ∀ a ∈ elements t, key a ≠ key k := fun a ha hk => hnew ⟨a, ha, hk⟩
  have hbefore : ∀ a ∈ (elements t).filter fun a => !less k a, key a < key k := by
    intro a ha
    obtain ⟨hmem, hka⟩ := List.mem_filter.mp ha
    exact lt_of_le_of_ne (key_le_of_less hless (by simpa using hka)) (hne a hmem)
  have hafter : ∀ a ∈ (elements t).filter fun a => less k a, key k < key a := by
    intro a ha
    obtain ⟨hmem, hka⟩ := List.mem_filter.mp ha
    exact lt_of_le_of_ne ((hcomp a hmem).resolve_left ((hless k a).mp hka)) (hne a hmem).symm
  rw [SearchTree.emplace, ht']
  constructor
  · rw [Sorted, balance.elements_turn, heq, List.pairwise_append, List.pairwise_cons]
    refine ⟨h.filter _, ⟨hafter, h.filter _⟩, fun a ha b hb => ?_⟩
    rcases List.mem_cons.mp hb with rfl | hb
    · exact hbefore a ha
    · exact (hbefore a ha).trans (hafter b hb)
  · rw [balance.elements_turn, heq]
    have hsplit := List.filter_append_perm (fun a => less k a) (elements t)
    exact List.perm_middle.trans ((List.perm_append_comm.trans hsplit).cons k)

theorem Sorted.count_emplace_eq_false (h : Sorted key t)
    (hless : ∀ a b, less a b = true ↔ ¬ key b ≤ key a) (hnew : ¬ Present key t (key k))
    (hboth : ∃ a ∈ elements t, ¬ key a ≤ key k ∧ ¬ key k ≤ key a) :
    count less k (SearchTree.emplace less .none k t) = false := by
  obtain ⟨a, ha, hak, hka⟩ := hboth
  exact count_emplace_lost (h.above hless) (h.below hless) (less_of_not_present hless hnew)
    ⟨a, ha, (hless k a).mpr hak, (hless a k).mpr hka⟩

end Keys

end SearchTree
