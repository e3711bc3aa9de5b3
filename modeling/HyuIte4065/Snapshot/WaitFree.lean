import HyuIte4065.Snapshot.Linearize
import Mathlib.Order.Interval.Finset.Nat
import Mathlib.Tactic.Ring

/-!
# The snapshot is wait-free

Every comparison that does not end the scan marks one more thread as moved, so the number of
marked threads counts the rounds. What a process has still to do is bounded by its own place
alone, whatever the others store meanwhile.
-/
namespace Snapshot

open Transition

variable {numThread : Nat} {s s' : State numThread} {l : Label numThread} {p : ProcessId}
  {sc sc' : Scan numThread} {moved : Fin numThread → Bool} {tid : Fin numThread}
  {regs : Registers numThread} {oldCopy newCopy : Copy numThread}

@[simp] theorem goto_self (s : State numThread) (p : ProcessId) (ph : Phase numThread) :
    (s.goto p ph).phase p = ph := by
  simp [State.goto]

/-! ### The marks -/

def numMoved (moved : Fin numThread → Bool) : Nat :=
  (Finset.univ.filter fun tid => moved tid = true).card

theorem numMoved_le (moved : Fin numThread → Bool) : numMoved moved ≤ numThread := by
  have h := Finset.card_filter_le Finset.univ fun tid => moved tid = true
  rwa [Finset.card_univ, Fintype.card_fin] at h

theorem numMoved_mark (h : moved tid = false) :
    numMoved (Function.update moved tid true) = numMoved moved + 1 := by
  have hset : (Finset.univ.filter fun i => Function.update moved tid true i = true) =
      insert tid (Finset.univ.filter fun i => moved i = true) := by
    ext i
    by_cases hi : i = tid
    · simp [hi]
    · simp [hi]
  rw [numMoved, hset, Finset.card_insert_of_notMem (by simp [h]), numMoved]

/-- The comparison that ends a collect is the next step. -/
def Phase.compares : Phase numThread → Bool
  | .scanning _ (.collectNew i _ _ _) => decide (numThread ≤ i)
  | _ => false

/-- The rounds that are over: none in the first collect. -/
def Scan.over : Scan numThread → Nat
  | .collectOld _ _ => 0
  | .collectNew _ _ _ moved => numMoved moved

theorem Scan.over_le (sc : Scan numThread) : sc.over ≤ numThread := by
  cases sc with
  | collectOld i oldCopy => exact Nat.zero_le _
  | collectNew i oldCopy newCopy moved => exact numMoved_le moved

/-- A step of a scan that goes on: a comparison marks one more thread. -/
theorem Scan.over_step (job : Job) (h : sc.step regs = some (.inl sc')) :
    sc'.over = sc.over + if (Phase.scanning job sc).compares then 1 else 0 := by
  cases sc with
  | collectOld i oldCopy =>
    by_cases hi : i < numThread
    · obtain rfl : _ = sc' := by simpa [Scan.step, hi] using h
      rfl
    · obtain rfl : _ = sc' := by simpa [Scan.step, hi] using h
      simp [Scan.over, numMoved, Phase.compares]
  | collectNew i oldCopy newCopy moved =>
    by_cases hi : i < numThread
    · obtain rfl : _ = sc' := by simpa [Scan.step, hi] using h
      simp [Scan.over, Phase.compares, Nat.not_le.mpr hi]
    · simp only [Scan.step, dif_neg hi] at h
      cases hf : firstMoved oldCopy newCopy (List.finRange numThread) with
      | none => simp [hf] at h
      | some r =>
        cases r with
        | none => simp [hf] at h
        | some tid =>
          cases hm : moved tid with
          | true => simp [hf, hm] at h
          | false =>
            obtain rfl : _ = sc' := by simpa [hf, hm] using h
            simp [Scan.over, Phase.compares, numMoved_mark hm, Nat.le_of_not_lt hi]

/-! ### What is left to do -/

/-- At most so many steps are left to a scan. -/
def Scan.left : Scan numThread → Nat
  | .collectOld i _ => numThread - i + 1 + (numThread + 1) * (numThread + 1)
  | .collectNew i _ _ moved => numThread - i + 1 + (numThread - numMoved moved) * (numThread + 1)

/-- An `update` loads and stores its register after the scan. -/
def Phase.left : Phase numThread → Nat
  | .idle => 0
  | .scanning .scan sc => sc.left
  | .scanning (.update _) sc => sc.left + 2
  | .loadOwn _ _ => 2
  | .storeOwn _ _ _ => 1

theorem Scan.left_le (sc : Scan numThread) : sc.left ≤ (numThread + 1) * (numThread + 2) := by
  have hsplit : (numThread + 1) * (numThread + 2) = (numThread + 1) * (numThread + 1) + (numThread + 1) := by
    ring
  cases sc with
  | collectOld i oldCopy =>
    simp only [Scan.left]
    omega
  | collectNew i oldCopy newCopy moved =>
    have hle : (numThread - numMoved moved) * (numThread + 1) ≤ (numThread + 1) * (numThread + 1) :=
      Nat.mul_le_mul_right _ (by omega)
    simp only [Scan.left]
    omega

theorem Scan.left_pos (sc : Scan numThread) : 0 < sc.left := by
  cases sc <;> simp only [Scan.left] <;> omega

theorem Scan.left_step (h : sc.step regs = some (.inl sc')) : sc'.left < sc.left := by
  cases sc with
  | collectOld i oldCopy =>
    by_cases hi : i < numThread
    · obtain rfl : _ = sc' := by simpa [Scan.step, hi] using h
      simp only [Scan.left]
      omega
    · obtain rfl : _ = sc' := by simpa [Scan.step, hi] using h
      have hnone : numMoved (fun _ : Fin numThread => false) = 0 := by simp [numMoved]
      have hsplit : (numThread + 1) * (numThread + 1) = numThread * (numThread + 1) + (numThread + 1) := by
        ring
      simp only [Scan.left, hnone, Nat.sub_zero]
      omega
  | collectNew i oldCopy newCopy moved =>
    by_cases hi : i < numThread
    · obtain rfl : _ = sc' := by simpa [Scan.step, hi] using h
      simp only [Scan.left]
      omega
    · simp only [Scan.step, dif_neg hi] at h
      cases hf : firstMoved oldCopy newCopy (List.finRange numThread) with
      | none => simp [hf] at h
      | some r =>
        cases r with
        | none => simp [hf] at h
        | some tid =>
          cases hm : moved tid with
          | true => simp [hf, hm] at h
          | false =>
            obtain rfl : _ = sc' := by simpa [hf, hm] using h
            have hle := numMoved_le (Function.update moved tid true)
            rw [numMoved_mark hm] at hle
            have hmul : (numThread - numMoved moved) * (numThread + 1) =
                (numThread - (numMoved moved + 1)) * (numThread + 1) + (numThread + 1) := by
              rw [← Nat.succ_mul]
              congr 1
              omega
            simp only [Scan.left, numMoved_mark hm]
            omega

theorem Phase.left_le (ph : Phase numThread) : ph.left ≤ (numThread + 1) * (numThread + 2) + 2 := by
  cases ph with
  | scanning job sc =>
    have hle := sc.left_le
    cases job <;> simp only [Phase.left] <;> omega
  | _ =>
    simp only [Phase.left]
    omega

/-- Every step of a busy process brings it nearer to the end of its operation. -/
theorem step_left (h : Step s l s') (busy : s.phase l.pid ≠ .idle) :
    (s'.phase l.pid).left < (s.phase l.pid).left := by
  rcases step_cases h with ⟨_, hidle, -⟩ | ⟨job, sc, sc', hph, hs, rfl, -⟩ | ⟨job, sc, v, hph, -, rfl, -⟩ |
    ⟨_, _, hl, hph, rfl, -⟩ | ⟨_, _, _, hl, hph, rfl, -⟩
  · exact absurd hidle busy
  · have hlt := Scan.left_step hs
    rw [hph]
    cases job <;> simp [State.goto, Phase.left, hlt]
  · have hpos := sc.left_pos
    rw [hph]
    cases job <;> simp [State.goto, Phase.left, Job.andThen, hpos]
  · rw [hph]
    simp [State.goto, Phase.left]
  · rw [hph]
    simp [State.goto, Phase.left]

/-! ### No step is ever missing -/

/-- The copies are filled as far as the loads have come. -/
def Scan.Filled : Scan numThread → Prop
  | .collectOld i oldCopy => ∀ j : Fin numThread, j.val < i → (oldCopy j).isSome
  | .collectNew i oldCopy newCopy _ => (∀ j, (oldCopy j).isSome) ∧
      ∀ j : Fin numThread, j.val < i → (newCopy j).isSome

/-- Only the owner of a register updates it. -/
def Phase.Ready (p : ProcessId) : Phase numThread → Prop
  | .idle => True
  | .scanning job sc => sc.Filled ∧ ∀ value, job = .update value → p < numThread
  | .loadOwn _ _ => p < numThread
  | .storeOwn _ _ _ => p < numThread

theorem firstMoved_filled (hold : ∀ j, (oldCopy j).isSome) (hnew : ∀ j, (newCopy j).isSome)
    (tids : List (Fin numThread)) : ∃ r, firstMoved oldCopy newCopy tids = some r := by
  induction tids with
  | nil => exact ⟨none, rfl⟩
  | cons tid tids ih =>
    obtain ⟨o, ho⟩ := Option.isSome_iff_exists.mp (hold tid)
    obtain ⟨c, hc⟩ := Option.isSome_iff_exists.mp (hnew tid)
    by_cases hl : o.label = c.label
    · simpa [firstMoved, ho, hc, hl] using ih
    · exact ⟨some tid, by simp [firstMoved, ho, hc, hl]⟩

theorem filled_update {i : Nat} {copy : Copy numThread} (hi : i < numThread)
    (h : ∀ j : Fin numThread, j.val < i → (copy j).isSome) (x : SnapValue numThread) :
    ∀ j : Fin numThread, j.val < i + 1 → (Function.update copy ⟨i, hi⟩ (some x) j).isSome := by
  intro j hj
  by_cases hji : j = ⟨i, hi⟩
  · rw [hji, Function.update_self]
    rfl
  · rw [Function.update_of_ne hji]
    refine h j ?_
    have hne : j.val ≠ i := fun he => hji (Fin.ext he)
    omega

theorem Scan.Filled.returns (h : sc.Filled) : ∃ r, sc.step regs = some r := by
  cases sc with
  | collectOld i oldCopy => by_cases hi : i < numThread <;> simp [Scan.step, hi]
  | collectNew i oldCopy newCopy moved =>
    by_cases hi : i < numThread
    · simp [Scan.step, hi]
    · have hnew : ∀ j, (newCopy j).isSome := fun j => h.2 j (by omega)
      obtain ⟨r, hr⟩ := firstMoved_filled h.1 hnew (List.finRange numThread)
      simp only [Scan.step, dif_neg hi, hr]
      cases r with
      | none => exact ⟨_, rfl⟩
      | some tid =>
        obtain ⟨c, hc⟩ := Option.isSome_iff_exists.mp (hnew tid)
        cases hm : moved tid with
        | true => exact ⟨.inr c.snap, by simp [hm, hc]⟩
        | false => exact ⟨_, by simp [hm]; rfl⟩

theorem Scan.Filled.step (h : sc.Filled) (hs : sc.step regs = some (.inl sc')) : sc'.Filled := by
  cases sc with
  | collectOld i oldCopy =>
    by_cases hi : i < numThread
    · obtain rfl : _ = sc' := by simpa [Scan.step, hi] using hs
      exact filled_update hi h _
    · obtain rfl : _ = sc' := by simpa [Scan.step, hi] using hs
      exact ⟨fun j => h j (by omega), fun j hj => absurd hj (Nat.not_lt_zero _)⟩
  | collectNew i oldCopy newCopy moved =>
    by_cases hi : i < numThread
    · obtain rfl : _ = sc' := by simpa [Scan.step, hi] using hs
      exact ⟨h.1, filled_update hi h.2 _⟩
    · simp only [Scan.step, dif_neg hi] at hs
      cases hf : firstMoved oldCopy newCopy (List.finRange numThread) with
      | none => simp [hf] at hs
      | some r =>
        cases r with
        | none => simp [hf] at hs
        | some tid =>
          cases hm : moved tid with
          | true => simp [hf, hm] at hs
          | false =>
            obtain rfl : _ = sc' := by simpa [hf, hm] using hs
            exact ⟨fun j => h.2 j (by omega), fun j hj => absurd hj (Nat.not_lt_zero _)⟩

theorem step_ready (h : Step s l s') (hr : ∀ p, (s.phase p).Ready p) (p : ProcessId) :
    (s'.phase p).Ready p := by
  by_cases hp : p = l.pid
  · subst hp
    have old := hr l.pid
    cases h with
    | scan idle => simp [State.goto, Phase.Ready, Scan.start, Scan.Filled]
    | update value own idle => simpa [State.goto, Phase.Ready, Scan.start, Scan.Filled] using own
    | act ha =>
      rcases step_cases (.act ha) with ⟨_, hidle, -⟩ | ⟨job, sc, sc', hph, hs, rfl, -⟩ |
        ⟨job, sc, v, hph, -, rfl, -⟩ | ⟨_, _, hl, hph, rfl, -⟩ | ⟨_, _, _, hl, hph, rfl, -⟩
      · simp [State.act, hidle] at ha
      · rw [hph] at old
        simp only [State.goto, Function.update_self]
        exact ⟨old.1.step hs, old.2⟩
      · rw [hph] at old
        simp only [State.goto, Function.update_self]
        cases job with
        | scan => trivial
        | update value => exact old.2 value rfl
      · simpa [State.goto, Phase.Ready] using hl
      · simp [State.goto, Phase.Ready]
  · rw [step_phase h hp]
    exact hr p

theorem reachable_ready (h : Reachable (snapshotSystem numThread) s) (p : ProcessId) :
    (s.phase p).Ready p := by
  refine h.invariant (I := fun s => ∀ p, (s.phase p).Ready p) ?_ ?_ p
  · rintro s rfl p
    trivial
  · intro s l s' _ hr hs p
    exact step_ready hs hr p

/-- A busy process can always take its next step. -/
theorem Phase.Ready.steps (h : (s.phase p).Ready p) (busy : s.phase p ≠ .idle) :
    ∃ r s', Step s ⟨p, r⟩ s' := by
  cases hph : s.phase p with
  | idle => exact absurd hph busy
  | scanning job sc =>
    rw [hph] at h
    obtain ⟨r, hr⟩ : ∃ r, sc.step s.regs = some r := h.1.returns
    cases r with
    | inl sc' => exact ⟨none, _, .act (by simp only [State.act, hph, hr]; rfl)⟩
    | inr v => exact ⟨some v, _, .act (by simp only [State.act, hph, hr]; rfl)⟩
  | loadOwn value snap =>
    rw [hph] at h
    exact ⟨none, _, .act (by simp only [State.act, hph, dif_pos (show p < numThread from h)]; rfl)⟩
  | storeOwn value snap oldValue =>
    rw [hph] at h
    exact ⟨none, _, .act (by simp only [State.act, hph, dif_pos (show p < numThread from h)]; rfl)⟩

/-! ### Along a run -/

section Run

variable (e : Execution (snapshotSystem numThread)) {a b k : Nat}

/-- The steps that process `p` takes from moment `a` up to moment `b`. -/
def ownSteps (p : ProcessId) (a b : Nat) : Nat :=
  ((Finset.Ico a b).filter fun k => (e.label k).pid = p).card

/-- Those of them that compare two collects. -/
def rounds (p : ProcessId) (a b : Nat) : Nat :=
  ((Finset.Ico a b).filter fun k => (e.label k).pid = p ∧ ((e.state k).phase p).compares = true).card

theorem card_filter_succ (P : Nat → Prop) [DecidablePred P] (hab : a ≤ b) :
    ((Finset.Ico a (b + 1)).filter P).card =
      ((Finset.Ico a b).filter P).card + if P b then 1 else 0 := by
  rw [Nat.Ico_succ_right_eq_insert_Ico hab, Finset.filter_insert]
  by_cases hb : P b
  · rw [if_pos hb, if_pos hb, Finset.card_insert_of_notMem (by simp)]
  · rw [if_neg hb, if_neg hb, Nat.add_zero]

variable {e}

/-- Where a process is in a scan at moment `k`. -/
theorem Scanning.at (h : Scanning e p a b) (hak : a ≤ k) (hkb : k ≤ b) :
    ∃ job sc, (e.state k).phase p = .scanning job sc := by
  by_cases hk : a = k
  · subst hk
    obtain ⟨job, hph⟩ := h.first
    exact ⟨job, .start, hph⟩
  · exact h.during k (by omega) hkb

/-- The rounds of a scan so far are the marks it has made. -/
theorem Scanning.rounds_eq (h : Scanning e p a b) (hb : b ≤ e.length) {job : Job}
    (hph : (e.state b).phase p = .scanning job sc) : rounds e p a b = sc.over := by
  refine Execution.interval (I := fun m => ∀ job sc, (e.state m).phase p = .scanning job sc →
    rounds e p a m = sc.over) (Nat.le_of_lt h.before) ?_ ?_ job sc hph
  · intro job sc hph
    obtain ⟨job', hfirst⟩ := h.first
    rw [hfirst] at hph
    cases hph
    simp [rounds, Scan.start, Scan.over]
  · intro m ham hmb ih job sc hph
    obtain ⟨job₀, sc₀, hph₀⟩ := h.at ham (Nat.le_of_lt hmb)
    have hs := e.steps m (by omega)
    rw [rounds, card_filter_succ _ ham]
    refine (congrArg (· + _) (ih job₀ sc₀ hph₀)).trans ?_
    by_cases hp : (e.label m).pid = p
    · subst hp
      rcases step_cases hs with ⟨_, hidle, -⟩ | ⟨job₁, sc₁, sc', hph₁, hstep, he, -⟩ |
        ⟨job₁, sc₁, v, hph₁, -, he, -⟩ | ⟨_, _, _, hph₁, -⟩ | ⟨_, _, _, _, hph₁, -⟩
      · rw [hidle] at hph₀
        cases hph₀
      · rw [hph₀] at hph₁
        cases hph₁
        rw [he, goto_self] at hph
        cases hph
        simp only [hph₀, true_and]
        exact (Scan.over_step _ hstep).symm
      · rw [he, goto_self] at hph
        cases job₁ <;> cases hph
      · rw [hph₁] at hph₀
        cases hph₀
      · rw [hph₁] at hph₀
        cases hph₀
    · rw [step_phase hs (Ne.symm hp), hph₀] at hph
      cases hph
      rw [if_neg fun hc => hp hc.1]
      rfl

/-- A busy process has taken no more steps than it is nearer to the end. -/
theorem ownSteps_left (hab : a ≤ b) (hb : b ≤ e.length)
    (busy : ∀ k, a ≤ k → k < b → (e.state k).phase p ≠ .idle) :
    ownSteps e p a b + ((e.state b).phase p).left ≤ ((e.state a).phase p).left := by
  refine Execution.interval (I := fun m => ownSteps e p a m + ((e.state m).phase p).left ≤
    ((e.state a).phase p).left) hab ?_ ?_
  · simp [ownSteps]
  · intro m ham hmb ih
    have hs := e.steps m (by omega)
    rw [ownSteps] at ih ⊢
    rw [card_filter_succ _ ham]
    by_cases hp : (e.label m).pid = p
    · subst hp
      have hlt := step_left hs (busy m ham hmb)
      rw [if_pos rfl]
      omega
    · rw [if_neg hp, step_phase hs (Ne.symm hp)]
      exact ih

/-- However often the other processes update: a scan takes at most `numThread + 1` rounds, a busy
process can always take its next step, and no operation takes more than so many of them. -/
theorem scan_wait_free (e : Execution (snapshotSystem numThread)) :
    (∀ p a b, b < e.length → Scanning e p a b → rounds e p a (b + 1) ≤ numThread + 1) ∧
    (∀ p k, k ≤ e.length → (e.state k).phase p ≠ .idle → ∃ r s', Step (e.state k) ⟨p, r⟩ s') ∧
    (∀ p a b, a ≤ b → b ≤ e.length → (∀ k, a ≤ k → k < b → (e.state k).phase p ≠ .idle) →
      ownSteps e p a b ≤ (numThread + 1) * (numThread + 2) + 2) := by
  refine ⟨fun p a b hb h => ?_, fun p k hk busy => ?_, fun p a b hab hb busy => ?_⟩
  · obtain ⟨job, sc, hph⟩ := h.at (Nat.le_of_lt h.before) (Nat.le_refl b)
    have hle := sc.over_le
    rw [← h.rounds_eq (Nat.le_of_lt hb) hph, rounds] at hle
    rw [rounds, card_filter_succ _ (Nat.le_of_lt h.before)]
    split <;> omega
  · exact (reachable_ready (e.reachable hk) p).steps busy
  · have hle := ownSteps_left hab hb busy
    have hbound := ((e.state a).phase p).left_le
    omega

end Run

end Snapshot
