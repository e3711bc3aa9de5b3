import Mathlib.Logic.Function.Basic

/-!
# Forests of parent pointers

A partial map of parents in which a root is its own parent: what becomes of the root of an
element when a root is added, a path is compressed or a root is put below another one.
-/
namespace Forest

open Function (update)

variable {α : Type*} {parent : α → Option α} {x y r s : α}

/-- The parents of `x` lead to the root `r`. -/
inductive Root (parent : α → Option α) : α → α → Prop
  | here {x : α} : parent x = some x → Root parent x x
  | up {x y r : α} : parent x = some y → y ≠ x → Root parent y r → Root parent x r

theorem Root.isRoot (h : Root parent x r) : parent r = some r := by
  induction h with
  | here h => exact h
  | up _ _ _ ih => exact ih

theorem Root.isSome (h : Root parent x r) : (parent x).isSome := by
  cases h with
  | here h => rw [h]; rfl
  | up h _ _ => rw [h]; rfl

theorem Root.unique (h : Root parent x r) (h' : Root parent x s) : r = s := by
  induction h with
  | here h =>
    cases h' with
    | here _ => rfl
    | up h' hne _ => exact absurd (Option.some.inj (h'.symm.trans h)) hne
  | up h hne _ ih =>
    cases h' with
    | here h' => exact absurd (Option.some.inj (h.symm.trans h')) hne
    | up h' _ hy => rw [h] at h'; cases h'; exact ih hy

variable [DecidableEq α]

theorem Root.add (h : Root parent y s) (hx : parent x = none) :
    Root (update parent x (some x)) y s := by
  induction h with
  | @here y hy =>
    have hne : y ≠ x := fun he => by rw [he, hx] at hy; cases hy
    exact .here (by rw [Function.update_of_ne hne, hy])
  | @up y z s hy hzy _ ih =>
    have hne : y ≠ x := fun he => by rw [he, hx] at hy; cases hy
    exact .up (by rw [Function.update_of_ne hne, hy]) hzy ih

/-- Path compression keeps all roots. -/
theorem Root.compress (h : Root parent y s) (hx : Root parent x r) :
    Root (update parent x (some r)) y s := by
  by_cases hxr : x = r
  · subst hxr
    rwa [show update parent x (some x) = parent by rw [← hx.isRoot, Function.update_eq_self]]
  have hr : parent r = some r := hx.isRoot
  have hroot : Root (update parent x (some r)) r r :=
    .here (by rw [Function.update_of_ne (Ne.symm hxr), hr])
  have hxp : parent x ≠ some x := by
    cases hx with
    | here _ => exact absurd rfl hxr
    | up h hne _ => rw [h]; exact fun he => hne (Option.some.inj he)
  induction h with
  | @here y hy =>
    have hne : y ≠ x := fun he => hxp (by rw [← he, hy])
    exact .here (by rw [Function.update_of_ne hne, hy])
  | @up y z s hy hzy hz ih =>
    by_cases hyx : y = x
    · subst hyx
      have hrs : r = s := by
        cases hx with
        | here _ => exact absurd rfl hxr
        | up hy' _ hz' =>
          rw [hy] at hy'
          cases hy'
          exact hz'.unique hz
      subst hrs
      exact .up (by rw [Function.update_self]) (Ne.symm hxr) hroot
    · exact .up (by rw [Function.update_of_ne hyx, hy]) hzy ih

/-- The root `r` is put below the root `s`. -/
theorem Root.link {z : α} (h : Root parent y z) (hr : parent r = some r) (hs : parent s = some s)
    (hrs : r ≠ s) : Root (update parent r (some s)) y (if z = r then s else z) := by
  have hroot : Root (update parent r (some s)) s s :=
    .here (by rw [Function.update_of_ne hrs.symm, hs])
  induction h with
  | @here y hy =>
    by_cases hyr : y = r
    · subst hyr
      rw [if_pos rfl]
      exact .up (by rw [Function.update_self]) hrs.symm hroot
    · rw [if_neg hyr]
      exact .here (by rw [Function.update_of_ne hyr, hy])
  | @up y z' z hy hzy _ ih =>
    have hne : y ≠ r := fun he => by
      rw [he, hr] at hy
      exact hzy (by rw [he, ← Option.some.inj hy])
    exact .up (by rw [Function.update_of_ne hne, hy]) hzy ih

end Forest
