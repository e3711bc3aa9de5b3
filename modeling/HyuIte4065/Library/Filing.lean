import Mathlib.Data.List.Nodup
import Mathlib.Logic.Function.Basic

/-!
# Elements filed under a key

A family of lists in which every element stands in the list of its key and in no other:
an element that is added to one of the lists, and one that is taken out.
-/
namespace Filing

open Function (update)

variable {α κ : Type*} {key key' : α → Option κ} {lists lists' : κ → List α} {a : α} {k k' : κ}

def Filed (key : α → Option κ) (lists : κ → List α) : Prop := ∀ k a, a ∈ lists k ↔ key a = some k

theorem Filed.unique (h : Filed key lists) (ha : a ∈ lists k) (ha' : a ∈ lists k') : k = k' := by
  rw [h k a] at ha
  rw [h k' a, ha] at ha'
  exact Option.some.inj ha'

theorem Filed.not_mem (h : Filed key lists) (ha : key a = none) : a ∉ lists k := by
  rw [h k a, ha]
  exact nofun

theorem Filed.remove (h : Filed key lists) (hnone : key' a = none) (hold : ∀ b, b ≠ a → key' b = key b)
    (hl : ∀ k b, b ∈ lists' k ↔ b ≠ a ∧ b ∈ lists k) : Filed key' lists' := by
  intro k b
  rw [hl, h k b]
  by_cases hb : b = a
  · subst hb
    rw [hnone]
    exact iff_of_false (fun h => h.1 rfl) nofun
  · rw [hold b hb]
    exact and_iff_right hb

variable [DecidableEq κ] {b : α}

theorem mem_update_append :
    b ∈ update lists k (lists k ++ [a]) k' ↔ b ∈ lists k' ∨ b = a ∧ k' = k := by
  by_cases hk : k' = k
  · subst hk; simp
  · simp [hk]

theorem mem_update_nil : b ∈ update lists k [] k' ↔ k' ≠ k ∧ b ∈ lists k' := by
  by_cases hk : k' = k
  · subst hk; simp
  · simp [hk]

theorem Filed.append (h : Filed key lists) (hnew : key a = none) (hkey : key' a = some k)
    (hold : ∀ b, b ≠ a → key' b = key b) : Filed key' (update lists k (lists k ++ [a])) := by
  intro k' b
  rw [mem_update_append, h k' b]
  by_cases hb : b = a
  · subst hb
    simp [hnew, hkey, eq_comm]
  · simp [hold b hb, hb]

theorem nodup_update (h : ∀ k, (lists k).Nodup) (ha : a ∉ lists k) (k' : κ) :
    (update lists k (lists k ++ [a]) k').Nodup := by
  by_cases hk : k' = k
  · subst hk
    rw [Function.update_self, ← List.concat_eq_append]
    exact List.Nodup.concat ha (h k')
  · rw [Function.update_of_ne hk]
    exact h k'

/-- What is filed under the keys, put together, is everything. -/
theorem perm_flatMap_filter {keys : List κ} (file : α → κ) (hnd : keys.Nodup) {as : List α}
    (hall : ∀ a ∈ as, file a ∈ keys) :
    (keys.flatMap fun k => as.filter fun a => decide (file a = k)).Perm as := by
  induction keys generalizing as with
  | nil =>
    obtain rfl : as = [] := List.eq_nil_iff_forall_not_mem.mpr fun a ha => List.not_mem_nil (hall a ha)
    exact .nil
  | cons k keys ih =>
    obtain ⟨hk, hnd⟩ := List.nodup_cons.mp hnd
    have hrest : ∀ a ∈ as.filter fun a => !decide (file a = k), file a ∈ keys := by
      intro a ha
      obtain ⟨ha, hne⟩ := List.mem_filter.mp ha
      exact (List.mem_cons.mp (hall a ha)).resolve_left (by simpa using hne)
    have hsame : (keys.flatMap fun k' => as.filter fun a => decide (file a = k')) =
        keys.flatMap fun k' => (as.filter fun a => !decide (file a = k)).filter fun a => decide (file a = k') := by
      refine List.flatMap_congr fun k' hk' => ?_
      rw [List.filter_filter]
      refine List.filter_congr fun a _ => ?_
      by_cases ha : file a = k'
      · have hne : k' ≠ k := by
          rintro rfl
          exact hk hk'
        simp [ha, hne]
      · simp [ha]
    rw [List.flatMap_cons, hsame]
    exact ((ih hnd hrest).append_left _).trans (List.filter_append_perm _ as)

end Filing
