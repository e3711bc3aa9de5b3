import HyuIte4065.Library.Replay
import HyuIte4065.Library.Filing

/-!
# A table updated in place, with undo logs

Transactions update one table in place and log what they found. Where conflicting
accesses exclude each other until the log is gone, the logs always hold enough to give
back the last committed value of every key, however many transactions are half undone.
-/
namespace UndoLog

open Replay Filing

variable {K V τ : Type*}

/-- The table `cur`, the committed table `base`, the log of each transaction, and how many
entries of it have been undone, from the first on. -/
structure Consistent (cur base : K → V) (log : τ → List (Access K V)) (undone : τ → Nat) : Prop where
  sound : ∀ T, Sound (log T)
  distinct : ∀ T, ((log T).map (·.key)).Nodup
  exclusive : ∀ T U, T ≠ U → Compatible (log T) (log U)
  before : ∀ T, ∀ a ∈ log T, base a.key = a.before
  current : ∀ T m a, (log T)[m]? = some a →
    cur a.key = if m < undone T then a.before else a.after
  clean : ∀ k, (∀ T, ∀ a ∈ log T, a.key = k → a.wrote = false) → cur k = base k

variable {cur base : K → V} {log : τ → List (Access K V)} {undone : τ → Nat} {T U : τ}
  {a b : Access K V} {k : K}

theorem consistent_empty (base : K → V) (undone : τ → Nat) :
    Consistent base base (fun _ => []) undone := by
  constructor <;> simp [Sound, Compatible]

variable [DecidableEq τ]

/-- What a transaction finds that no other one is writing is the committed value. -/
theorem Consistent.found (h : Consistent cur base log undone) (hk : k ∉ (log T).map (·.key))
    (hu : ∀ U ≠ T, ∀ b ∈ log U, b.key = k → b.wrote = false) : cur k = base k := by
  refine h.clean k fun U b hb he => ?_
  by_cases hU : U = T
  · subst hU
    exact absurd (he ▸ List.mem_map_of_mem hb) hk
  · exact hu U hU b hb he

theorem Consistent.distinct_discard (h : Consistent cur base log undone) (T U : τ) :
    ((Function.update log T [] U).map (·.key)).Nodup := by
  by_cases hU : U = T
  · subst hU
    simp
  · rw [Function.update_of_ne hU]
    exact h.distinct U

theorem Consistent.exclusive_discard (h : Consistent cur base log undone) (T U W : τ) (hUW : U ≠ W) :
    Compatible (Function.update log T [] U) (Function.update log T [] W) :=
  fun a ha b hb => h.exclusive U W hUW a (mem_update_nil.mp ha).2 b (mem_update_nil.mp hb).2

/-- A key that the discarded log does not have. -/
theorem Consistent.clean_discard (h : Consistent cur base log undone) (hk : ¬ ∃ a ∈ log T, a.key = k)
    (hclean : ∀ U, ∀ b ∈ Function.update log T [] U, b.key = k → b.wrote = false) : cur k = base k := by
  refine h.clean k fun U b hb he => ?_
  by_cases hU : U = T
  · subst hU
    exact absurd ⟨b, hb, he⟩ hk
  · exact hclean U b (mem_update_nil.mpr ⟨hU, hb⟩) he

variable [DecidableEq K]

/-- A new entry: the transaction has found the value of `a.key` and left another one. -/
theorem Consistent.access (h : Consistent cur base log undone) (hk : a.key ∉ (log T).map (·.key))
    (hT : undone T = 0) (hfound : a.before = cur a.key)
    (hs : a.wrote = false → a.after = a.before)
    (hx : ∀ U ≠ T, Compatible (log U) [a]) :
    Consistent (apply cur a) base (Function.update log T (log T ++ [a])) undone := by
  have hbase : cur a.key = base a.key := by
    refine h.found hk fun U hU b hb he => ?_
    exact (hx U hU b hb a (by simp) he).1
  refine ⟨?_, ?_, ?_, ?_, ?_, ?_⟩
  · intro U b hb
    rcases mem_update_append.mp hb with hb | ⟨rfl, -⟩
    · exact h.sound U b hb
    · exact hs
  · intro U
    by_cases hU : U = T
    · subst hU
      rw [Function.update_self, List.map_append]
      refine List.nodup_append.mpr ⟨h.distinct U, by simp, ?_⟩
      intro x hxm y hy
      obtain rfl : y = a.key := by simpa using hy
      rintro rfl
      exact hk hxm
    · rw [Function.update_of_ne hU]
      exact h.distinct U
  · intro U W hUW b hb c hc he
    rcases mem_update_append.mp hb with hb' | ⟨rfl, rfl⟩
    · rcases mem_update_append.mp hc with hc' | ⟨rfl, rfl⟩
      · exact h.exclusive U W hUW b hb' c hc' he
      · exact hx U hUW b hb' c (by simp) he
    · rcases mem_update_append.mp hc with hc' | ⟨rfl, rfl⟩
      · exact (hx W hUW.symm c hc' b (by simp) he.symm).symm
      · exact absurd rfl hUW
  · intro U b hb
    rcases mem_update_append.mp hb with hb | ⟨rfl, -⟩
    · exact h.before U b hb
    · rw [hfound, hbase]
  · intro U m b hb
    by_cases hU : U = T
    · subst hU
      rw [Function.update_self] at hb
      by_cases hm : m < (log U).length
      · rw [List.getElem?_append_left hm] at hb
        have hne : b.key ≠ a.key := by
          intro he
          exact hk (he ▸ List.mem_map_of_mem (List.mem_of_getElem? hb))
        rw [apply, Function.update_of_ne hne]
        exact h.current U m b hb
      · rw [List.getElem?_append_right (by omega)] at hb
        obtain rfl : b = a := by
          have hm := List.mem_of_getElem? hb
          simpa using hm
        rw [apply, Function.update_self, hT, if_neg (Nat.not_lt_zero m)]
    · rw [Function.update_of_ne hU] at hb
      have hm := List.mem_of_getElem? hb
      by_cases he : b.key = a.key
      · obtain ⟨hwb, hwa⟩ := hx U hU b hm a (by simp) he
        have hcur := h.current U m b hb
        rw [apply, he, Function.update_self, hs hwa, hfound, ← he, hcur]
      · rw [apply, Function.update_of_ne he]
        exact h.current U m b hb
  · intro k hclean
    have hold : ∀ U, ∀ b ∈ log U, b.key = k → b.wrote = false :=
      fun U b hb => hclean U b (mem_update_append.mpr (.inl hb))
    by_cases hka : k = a.key
    · subst hka
      have hw : a.wrote = false := hclean T a (by simp) rfl
      rw [apply, Function.update_self, hs hw, hfound, hbase]
    · rw [apply, Function.update_of_ne hka]
      exact h.clean k hold

/-- The next entry is undone. -/
theorem Consistent.undo (h : Consistent cur base log undone) (ha : (log T)[undone T]? = some a) :
    Consistent (Function.update cur a.key a.before) base log
      (Function.update undone T (undone T + 1)) := by
  have hmem := List.mem_of_getElem? ha
  refine ⟨h.sound, h.distinct, h.exclusive, h.before, ?_, ?_⟩
  · intro U m b hb
    have hbm := List.mem_of_getElem? hb
    by_cases hU : U = T
    · subst hU
      rw [Function.update_self]
      by_cases hm : m = undone U
      · subst hm
        obtain rfl := Option.some.inj (ha.symm.trans hb)
        rw [Function.update_self, if_pos (Nat.lt_succ_self _)]
      · have hne : b.key ≠ a.key := by
          intro he
          have hlt := (List.getElem?_eq_some_iff.mp hb).1
          refine hm ((List.getElem?_inj (by simpa using hlt) (h.distinct U)).mp ?_)
          rw [List.getElem?_map, List.getElem?_map, ha, hb, Option.map_some, Option.map_some, he]
        rw [Function.update_of_ne hne, h.current U m b hb]
        by_cases hlt : m < undone U
        · rw [if_pos hlt, if_pos (by omega)]
        · rw [if_neg hlt, if_neg (by omega)]
    · rw [Function.update_of_ne hU]
      by_cases he : b.key = a.key
      · have hcb := h.before U b hbm
        have hca := h.before T a hmem
        have hwb := (h.exclusive U T hU b hbm a hmem he).1
        rw [he, Function.update_self, h.sound U b hbm hwb, ite_self, ← hca, ← hcb, he]
      · rw [Function.update_of_ne he]
        exact h.current U m b hb
  · intro k hclean
    by_cases hk : k = a.key
    · subst hk
      rw [Function.update_self, h.before T a hmem]
    · rw [Function.update_of_ne hk]
      exact h.clean k hclean

/-- A log that is undone completely may be thrown away. -/
theorem Consistent.discard (h : Consistent cur base log undone) (hall : (log T).length ≤ undone T)
    (n : Nat) : Consistent cur base (Function.update log T []) (Function.update undone T n) := by
  refine ⟨fun U b hb => h.sound U b (mem_update_nil.mp hb).2, h.distinct_discard T,
    h.exclusive_discard T, fun U b hb => h.before U b (mem_update_nil.mp hb).2, ?_, ?_⟩
  · intro U m b hb
    have hU := (mem_update_nil.mp (List.mem_of_getElem? hb)).1
    rw [Function.update_of_ne hU] at hb ⊢
    exact h.current U m b hb
  · intro k hclean
    by_cases hk : ∃ a ∈ log T, a.key = k
    · -- a key of the log has its committed value back
      obtain ⟨a, ha, rfl⟩ := hk
      obtain ⟨m, hm, he⟩ := List.getElem_of_mem ha
      have hcur := h.current T m a (by rw [List.getElem?_eq_getElem hm, he])
      rw [hcur, if_pos (by omega), h.before T a ha]
    · exact h.clean_discard hk hclean

/-- A transaction none of whose entries is undone commits: its history fits the committed
table, and its writes become committed. -/
theorem Consistent.commit (h : Consistent cur base log undone) (hT : undone T = 0) :
    Consistent cur (result base (log T)) (Function.update log T []) undone ∧
    Fits base (log T) := by
  have other : ∀ U ≠ T, ∀ b ∈ log U, result base (log T) b.key = base b.key := by
    intro U hU b hb
    by_cases hk : b.key ∈ (log T).map (·.key)
    · obtain ⟨a, ha, he⟩ := List.mem_map.mp hk
      have hwa := (h.exclusive U T hU b hb a ha he.symm).2
      rw [← he, result_of_mem (h.distinct T) ha, h.sound T a ha hwa, h.before T a ha]
    · exact result_of_notMem hk
  refine ⟨⟨fun U b hb => h.sound U b (mem_update_nil.mp hb).2, h.distinct_discard T,
    h.exclusive_discard T, ?_, ?_, ?_⟩, fits_of_nodup (h.distinct T) (h.before T)⟩
  · intro U b hb
    obtain ⟨hU, hb⟩ := mem_update_nil.mp hb
    rw [other U hU b hb, h.before U b hb]
  · intro U m b hb
    have hU := (mem_update_nil.mp (List.mem_of_getElem? hb)).1
    rw [Function.update_of_ne hU] at hb
    exact h.current U m b hb
  · intro k hclean
    by_cases hk : ∃ a ∈ log T, a.key = k
    · obtain ⟨a, ha, rfl⟩ := hk
      obtain ⟨m, hm, he⟩ := List.getElem_of_mem ha
      have hcur := h.current T m a (by rw [List.getElem?_eq_getElem hm, he])
      rw [hcur, hT, if_neg (Nat.not_lt_zero m), result_of_mem (h.distinct T) ha]
    · have hkn : k ∉ (log T).map (·.key) := by
        intro hm
        obtain ⟨a, ha, he⟩ := List.mem_map.mp hm
        exact hk ⟨a, ha, he⟩
      rw [result_of_notMem hkn]
      exact h.clean_discard hk hclean

end UndoLog
