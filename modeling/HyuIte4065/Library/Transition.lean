import Mathlib.Logic.Relation
import Mathlib.Data.Set.Basic

/-!
# Labelled transition systems

States, labelled steps, reachability and finite executions. A safety property
is proved from two goals: it holds initially, and every step keeps it.
Intervals of an execution are used where a property relates two moments of one run, simulations
where it relates the runs of two systems.
-/
namespace Transition

universe u v

variable {σ : Type u} {ℓ : Type v}

structure System (σ : Type u) (ℓ : Type v) where
  init : σ → Prop
  step : σ → ℓ → σ → Prop

inductive Reachable (S : System σ ℓ) : σ → Prop where
  | init {s : σ} : S.init s → Reachable S s
  | step {s s' : σ} (l : ℓ) : Reachable S s → S.step s l s' → Reachable S s'

/-- An inductive invariant holds in every reachable state. -/
theorem Reachable.invariant {S : System σ ℓ} {I : σ → Prop} {s : σ} (h : Reachable S s)
    (start : ∀ s, S.init s → I s)
    (keep : ∀ s l s', Reachable S s → I s → S.step s l s' → I s') : I s := by
  induction h with
  | init hs => exact start _ hs
  | step l hr hs ih => exact keep _ l _ hr ih hs

/-- What a list of moves leads to where a function computes the steps. -/
theorem Reachable.foldlM {κ : Type*} {S : System σ ℓ} {step : σ → κ → Option σ} {moves : List κ} {s s' : σ}
    (hstep : ∀ s m s', step s m = some s' → ∃ l, S.step s l s') (h : Reachable S s)
    (hs : moves.foldlM step s = some s') : Reachable S s' := by
  induction moves generalizing s with
  | nil =>
    obtain rfl := Option.some.inj hs
    exact h
  | cons m moves ih =>
    obtain ⟨s₁, hm, hs⟩ := Option.bind_eq_some_iff.mp hs
    obtain ⟨l, hl⟩ := hstep s m s₁ hm
    exact ih (h.step l hl) hs

/-- Keep the steps whose source and label meet a condition. -/
def System.restrict (S : System σ ℓ) (C : σ → ℓ → Prop) : System σ ℓ where
  init := S.init
  step s l s' := S.step s l s' ∧ C s l

theorem Reachable.of_restrict {S : System σ ℓ} {C : σ → ℓ → Prop} {s : σ}
    (h : Reachable (S.restrict C) s) : Reachable S s := by
  induction h with
  | init h => exact .init h
  | step l _ h ih => exact .step l ih h.1

/-- A finite execution: the states it visits and the labels of the steps between them. -/
structure Execution (S : System σ ℓ) where
  length : Nat
  state : Nat → σ
  label : Nat → ℓ
  starts : S.init (state 0)
  steps : ∀ k, k < length → S.step (state k) (label k) (state (k + 1))

namespace Execution

variable {S : System σ ℓ} (e : Execution S)

theorem reachable {k : Nat} (hk : k ≤ e.length) : Reachable S (e.state k) := by
  induction k with
  | zero => exact .init e.starts
  | succ k ih => exact .step (e.label k) (ih (by omega)) (e.steps k (by omega))

/-- A property that holds at one moment and is kept by the steps of an interval
holds throughout the interval. -/
theorem interval {I : Nat → Prop} {a b : Nat} (hab : a ≤ b) (start : I a)
    (keep : ∀ k, a ≤ k → k < b → I k → I (k + 1)) : I b := by
  induction b, hab using Nat.le_induction with
  | base => exact start
  | succ b hb ih => exact keep b hb (by omega) (ih (fun k h₁ h₂ => keep k h₁ (by omega)))

/-- A measure that every step decreases bounds the number of steps. -/
theorem length_add_le (measure : σ → Nat)
    (decreases : ∀ s l s', Reachable S s → S.step s l s' → measure s' < measure s) {k : Nat}
    (hk : k ≤ e.length) : k + measure (e.state k) ≤ measure (e.state 0) := by
  induction k with
  | zero => rw [Nat.zero_add]
  | succ k ih =>
    have hstep := decreases _ _ _ (e.reachable (by omega)) (e.steps k (by omega))
    have hle := ih (by omega)
    omega

/-- Forward simulation: each execution is followed, label by label, by an execution of a
system that can match every single step. -/
theorem simulate {σ' : Type*} {T : System σ' ℓ} (R : σ → σ' → Prop)
    (start : ∀ s, S.init s → ∃ t, T.init t ∧ R s t)
    (keep : ∀ s t l s', R s t → S.step s l s' → ∃ t', T.step t l t' ∧ R s' t') :
    ∃ e' : Execution T, e'.length = e.length ∧ e'.label = e.label ∧
      ∀ k ≤ e.length, R (e.state k) (e'.state k) := by
  have hfollow : ∀ n ≤ e.length, ∃ f : Nat → σ', T.init (f 0) ∧
      (∀ k < n, T.step (f k) (e.label k) (f (k + 1))) ∧ ∀ k ≤ n, R (e.state k) (f k) := by
    intro n
    induction n with
    | zero =>
      intro _
      obtain ⟨t, ht, hR⟩ := start _ e.starts
      exact ⟨fun _ => t, ht, fun k hk => absurd hk (Nat.not_lt_zero k), fun k hk => Nat.le_zero.mp hk ▸ hR⟩
    | succ n ih =>
      intro hn
      obtain ⟨f, hinit, hsteps, hR⟩ := ih (by omega)
      obtain ⟨t', hstep, hR'⟩ := keep _ _ _ _ (hR n (Nat.le_refl n)) (e.steps n (by omega))
      have hold : ∀ k ≤ n, Function.update f (n + 1) t' k = f k := fun k hk =>
        Function.update_of_ne (by omega) _ _
      have hnew : Function.update f (n + 1) t' (n + 1) = t' := Function.update_self ..
      refine ⟨Function.update f (n + 1) t', by rw [hold 0 (Nat.zero_le n)]; exact hinit,
        fun k hk => ?_, fun k hk => ?_⟩
      · rcases Nat.lt_succ_iff_lt_or_eq.mp hk with hlt | rfl
        · rw [hold k (by omega), hold (k + 1) hlt]
          exact hsteps k hlt
        · rw [hold k (Nat.le_refl k), hnew]
          exact hstep
      · rcases Nat.lt_or_eq_of_le hk with hlt | rfl
        · rw [hold k (by omega)]
          exact hR k (by omega)
        · rw [hnew]
          exact hR'
  obtain ⟨f, hinit, hsteps, hR⟩ := hfollow e.length (Nat.le_refl _)
  exact ⟨⟨e.length, f, e.label, hinit, hsteps⟩, rfl, rfl, hR⟩

/-- The execution that a list of moves makes where a function computes the steps. -/
theorem of_moves {κ : Type*} [Nonempty ℓ] {step : σ → κ → Option (σ × ℓ)} {moves : List κ} {s s' : σ}
    (hstep : ∀ s m s' l, step s m = some (s', l) → S.step s l s') (hs : S.init s)
    (hrun : moves.foldlM (fun s m => (step s m).map (·.1)) s = some s') :
    ∃ e : Execution S, e.length = moves.length ∧
      (∀ k, (moves.take k).foldlM (fun s m => (step s m).map (·.1)) s = some (e.state k)) ∧
      ∀ k (hk : k < moves.length), step (e.state k) moves[k] = some (e.state (k + 1), e.label k) := by
  have hprefix : ∀ k, ∃ t, (moves.take k).foldlM (fun s m => (step s m).map (·.1)) s = some t := by
    intro k
    rw [← List.take_append_drop k moves, List.foldlM_append] at hrun
    obtain ⟨t, ht, -⟩ := Option.bind_eq_some_iff.mp hrun
    exact ⟨t, ht⟩
  choose state hstate using hprefix
  have hlabel : ∀ k, ∃ l, ∀ hk : k < moves.length, step (state k) moves[k] = some (state (k + 1), l) := by
    intro k
    by_cases hk : k < moves.length
    · have hnext := hstate (k + 1)
      rw [← List.take_append_getElem hk, List.foldlM_append, hstate k] at hnext
      have hone : (step (state k) moves[k]).map (·.1) = some (state (k + 1)) := by simpa using hnext
      obtain ⟨⟨t, l⟩, hl, rfl⟩ := Option.map_eq_some_iff.mp hone
      exact ⟨l, fun _ => hl⟩
    · exact ⟨Classical.arbitrary ℓ, fun h => absurd h hk⟩
  choose label hlabel using hlabel
  have hstart : state 0 = s := (Option.some.inj (hstate 0)).symm
  exact ⟨⟨moves.length, state, label, hstart ▸ hs, fun k hk => hstep _ _ _ _ (hlabel k hk)⟩, rfl, hstate,
    fun k hk => hlabel k hk⟩

end Execution

/-- Each execution of `S` has the labels of an execution of `T`, and its states show those of the other. -/
def Refines {τ : Type*} (S : System σ ℓ) (T : System τ ℓ) (shows : σ → τ → Prop) : Prop :=
  ∀ e : Execution S, ∃ e' : Execution T, e'.length = e.length ∧ e'.label = e.label ∧
    ∀ k ≤ e.length, shows (e.state k) (e'.state k)

theorem Refines.of_simulation {τ : Type*} {S : System σ ℓ} {T : System τ ℓ} {shows : σ → τ → Prop}
    (R : σ → τ → Prop) (start : ∀ s, S.init s → ∃ t, T.init t ∧ R s t)
    (keep : ∀ s t l s', R s t → S.step s l s' → ∃ t', T.step t l t' ∧ R s' t')
    (hshows : ∀ s t, R s t → shows s t) : Refines S T shows := by
  intro e
  obtain ⟨e', hlength, hlabel, hR⟩ := e.simulate R start keep
  exact ⟨e', hlength, hlabel, fun k hk => hshows _ _ (hR k hk)⟩

end Transition

/-!
## Mutexes

A mutex names its owner. Where a thread is in its code says whether it holds the mutex; the
two agree as long as each step locks the mutex if it is free, unlocks it if it is the
thread's own, or leaves both as they are.
-/
namespace Mutex

variable {τ : Type*} {owner owner' : Option τ} {holds holds' : τ → Prop} {t u : τ}

/-- The owner of the mutex is the thread that holds it. -/
def Guards (owner : Option τ) (holds : τ → Prop) : Prop := ∀ t, owner = some t ↔ holds t

/-- What one step of a thread may do with a mutex. -/
inductive Use (owner owner' : Option τ) (t : τ) (before after : Prop) : Prop where
  | keep (same : owner' = owner) (held : after ↔ before)
  | lock (free : owner = none) (mine : owner' = some t) (held : after)
  | unlock (held : before) (free : owner' = none) (released : ¬ after)

theorem Guards.step (h : Guards owner holds) (others : ∀ u, u ≠ t → (holds' u ↔ holds u))
    (use : Use owner owner' t (holds t) (holds' t)) : Guards owner' holds' := by
  intro u
  by_cases hu : u = t
  · subst hu
    cases use with
    | keep same held => rw [same, held]; exact h u
    | lock free mine held => exact ⟨fun _ => held, fun _ => mine⟩
    | unlock held free released => rw [free]; exact ⟨nofun, fun hh => absurd hh released⟩
  · rw [others u hu]
    cases use with
    | keep same held => rw [same]; exact h u
    | lock free mine held =>
      rw [← h u, free, mine]
      exact ⟨fun he => absurd (Option.some.inj he).symm hu, nofun⟩
    | unlock held free released =>
      rw [← h u, (h t).mpr held, free]
      exact ⟨nofun, fun he => absurd (Option.some.inj he).symm hu⟩

/-- At most one thread holds the mutex. -/
theorem Guards.unique (h : Guards owner holds) (ht : holds t) (hu : holds u) : t = u :=
  Option.some.inj (((h t).mpr ht).symm.trans ((h u).mpr hu))

theorem Guards.congr (h : Guards owner holds) (same : ∀ t, holds' t ↔ holds t) : Guards owner holds' :=
  fun t => by rw [same, h t]

end Mutex
