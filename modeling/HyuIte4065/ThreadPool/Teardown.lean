import HyuIte4065.ThreadPool.Finish

/-!
# What can go wrong in a pool

The destructor broadcasts without the mutex: a pool that is destroyed before it has run ends up
destroyed when the last worker has begun to wait by then, and hangs otherwise. And the constructor
may read the argument of a worker that has deleted it, but only in project 3 and only if a wait may
end by itself.
-/
namespace ThreadPool

open Mutex State Transition Total

variable {c : Config} {s s' : State} {tid : Nat}

/-- A worker that has had the mutex has waited for the worker before it to begin its wait. -/
def Queued (s : State) : Prop := ∀ w, 2 ≤ (s.worker (w + 1)).rank → 4 ≤ (s.worker w).rank

theorem Inv.queued_worker (hi : Inv c s) (hq : Queued s) (h : WorkerMove c s tid s') : Queued s' := by
  intro w hw
  refine Nat.le_trans ?_ (h.rank_le w)
  by_cases hwt : w + 1 = tid
  · by_cases hold : 2 ≤ (s.worker (w + 1)).rank
    · exact hq w hold
    · -- the worker takes the mutex, so the one before it does not hold it any more
      subst hwt
      have hrank := h.rank
      have hlock : s.worker (w + 1) = .lock := by
        cases hph : s.worker (w + 1) <;> rw [hph] at hrank hold <;>
          first
          | rfl
          | exact absurd hrank.1 (by decide)
          | exact absurd (by decide) hold
      have hfree : s.mtxForWorkers = none := by
        cases h <;> first | assumption | (rw [‹s.worker (w + 1) = _›] at hlock; cases hlock)
      have hcreated : w + 1 < s.main.created c.numThread := by
        by_contra hge
        have hnot := (hi.created (w + 1)).mpr (Nat.not_lt.mp hge)
        rw [hlock] at hnot
        cases hnot
      have hawaited : 3 ≤ (s.worker w).rank := by
        refine hi.awaited w ?_
        cases hm : s.main <;> rw [hm] at hcreated <;>
          simp only [MainPhase.created, MainPhase.awaited] at hcreated ⊢ <;>
          omega
      have hholds : (s.worker w).holds = false := by
        by_contra hh
        have howner := (hi.guards (.worker w)).mpr (by simpa [Holds] using hh)
        rw [hfree] at howner
        cases howner
      cases hph : s.worker w <;> rw [hph] at hawaited hholds <;>
        first
        | decide
        | exact absurd hawaited (by decide)
        | cases hholds
  · rw [h.frame.worker (w + 1) hwt] at hw
    exact hq w hw

theorem Inv.queued_main (hi : Inv c s) (hq : Queued s) (h : MainMove c s s') : Queued s' := by
  intro w hw
  refine Nat.le_trans (hq w ?_) (h.rank_le hi.fresh w)
  rcases h.worker (w + 1) with hsame | ⟨hwait, -⟩ | ⟨-, -, hlock⟩
  · rwa [hsame] at hw
  · rw [hwait]
    decide
  · rw [hlock] at hw
    exact absurd hw (by decide)

theorem queued_of_reachable (hsafe : c.Safe) (hs : Reachable (poolSystem c) s) : Queued s := by
  refine hs.invariant ?_ fun s a s' hr hq h => ?_
  · rintro s rfl w hw
    exact absurd hw (Nat.not_succ_le_zero 1)
  · have hi := inv_of_reachable hsafe hr
    rcases step_cases h with h | ⟨tid, h⟩
    · exact hi.queued_main hq h
    · exact hi.queued_worker hq h

/-- The last worker has missed the broadcast. -/
structure Lost (c : Config) (w : Nat) (s : State) : Prop where
  before : 3 ≤ (s.worker w).rank
  rank : (s.worker w).rank ≤ 4
  main : ∃ i ≤ w, s.main = .joinLate i

theorem Lost.step {w : Nat} (hc : c.spurious = false) (hw : w < c.numThread) (h : Lost c w s)
    (hmove : Moves c s s') : Lost c w s' := by
  obtain ⟨i, hi, hm⟩ := h.main
  obtain ⟨a, ha⟩ := hmove
  rcases step_cases ha with ha | ⟨tid, ha⟩
  · cases ha <;> first | (rw [hm] at *; contradiction) | skip
    case joinLate j here more ended =>
      obtain rfl : i = j := by
        rw [hm] at here
        exact MainPhase.joinLate.inj here
      refine ⟨h.before, h.rank, i + 1, ?_, rfl⟩
      have hne : i ≠ w := by
        rintro rfl
        have hrank := h.rank
        rw [ended] at hrank
        exact absurd hrank (by decide)
      omega
    case joinedLate j here all =>
      obtain rfl : i = j := by
        rw [hm] at here
        exact MainPhase.joinLate.inj here
      omega
  · refine ⟨h.before.trans (ha.rank_le w), ?_, i, hi, ha.frame.main.trans hm⟩
    by_cases hwt : w = tid
    · rw [hwt]
      exact ha.calm hc (hwt ▸ h.rank)
    · rw [ha.frame.worker w hwt]
      exact h.rank

theorem Lost.never_destroyed {w : Nat} (hc : c.spurious = false) (hw : w < c.numThread) (h : Lost c w s)
    (hrun : Relation.ReflTransGen (Moves c) s s') : s'.main ≠ .destroyed := by
  have hlost : Lost c w s' := by
    induction hrun with
    | refl => exact h
    | tail _ hmove ih => exact ih.step hc hw hmove
  obtain ⟨i, -, hm⟩ := hlost.main
  rw [hm]
  exact MainPhase.noConfusion

theorem Ends.reached {P : State → Prop} (h : Ends (Moves c) P s) :
    ∃ t, Relation.ReflTransGen (Moves c) s t ∧ P t := by
  induction h with
  | done meets => exact ⟨_, .refl, meets⟩
  | step moves _ ih =>
    obtain ⟨s', hs'⟩ := moves
    obtain ⟨t, ht, hP⟩ := ih s' hs'
    exact ⟨t, .head hs' ht, hP⟩

/-- Where the client broadcasts at last, all workers but the last one wait, and the last one has at
least told that it sleeps. -/
theorem Inv.before_broadcastLate (hi : Inv c s) (hq : Queued s) (hc : c.spurious = false)
    (hm : s.main = .broadcastLate) : (∀ w, w + 1 < c.numThread → s.worker w = .waiting) ∧
      ∀ w < c.numThread, s.worker w = .wait ∨ s.worker w = .waiting := by
  have hcalm := hi.calm hc (by rw [hm]; rfl)
  have hawaited : ∀ w < c.numThread, 3 ≤ (s.worker w).rank := fun w hw => hi.awaited w (by rw [hm]; exact hw)
  have hboth : ∀ w < c.numThread, s.worker w = .wait ∨ s.worker w = .waiting := by
    intro w hw
    have hlow := hawaited w hw
    have hhigh := hcalm w
    cases hph : s.worker w <;> rw [hph] at hlow hhigh <;>
      first
      | exact .inl rfl
      | exact .inr rfl
      | exact absurd hlow (by decide)
      | exact absurd hhigh (by decide)
  refine ⟨fun w hw => (hboth w (by omega)).resolve_left fun hwait => ?_, hboth⟩
  have hrank := hq w ((by decide : 2 ≤ 3).trans (hawaited (w + 1) hw))
  rw [hwait] at hrank
  exact absurd hrank (by decide)

/-- A pool that is destroyed without having been run: the destructor ends, whatever the threads do, if
the last worker waits when it broadcasts, and otherwise it joins that worker forever. All other
workers wait by then. -/
theorem destroy_ends_iff {project : Project} {numThread : Nat}
    (hs : Reachable (poolSystem ⟨project, numThread, false, false⟩) s) (hm : s.main = .broadcastLate)
    (h : step ⟨project, numThread, false, false⟩ s .main = some s') :
    (∀ w, w + 1 < numThread → s.worker w = .waiting) ∧
    ((∀ w < numThread, s.worker w = .waiting) →
      Ends (Moves ⟨project, numThread, false, false⟩) (fun t => t.main = .destroyed) s') ∧
    ((∃ t, Relation.ReflTransGen (Moves ⟨project, numThread, false, false⟩) s' t ∧ t.main = .destroyed) →
      ∀ w < numThread, s.worker w = .waiting) := by
  have hsafe : Config.Safe ⟨project, numThread, false, false⟩ := .inr rfl
  have hi := inv_of_reachable hsafe hs
  obtain ⟨hothers, hboth⟩ := hi.before_broadcastLate (queued_of_reachable hsafe hs) rfl hm
  have hi' := hi.step_main hsafe (mainMove h)
  obtain rfl : s.broadcast.setMain (.joinLate 0) = s' := by
    simp only [step, mainStep, hm] at h
    exact Option.some.inj h
  refine ⟨hothers, fun hall => ?_, fun hend w hw => ?_⟩
  · refine (Ending.ends ⟨hi', hi'.terminateFlag, fun w hw => ?_⟩ hsafe).mono fun t ht => ht.2
    simp [setMain, State.broadcast, hall w hw, WorkerPhase.rank]
  · obtain ⟨t, ht, hdestroyed⟩ := hend
    refine (hboth w hw).resolve_left fun hwait => ?_
    refine Lost.never_destroyed (c := ⟨project, numThread, false, false⟩) rfl hw
      ⟨?_, ?_, 0, Nat.zero_le w, rfl⟩ ht hdestroyed
    · simp [setMain, State.broadcast, hwait, WorkerPhase.rank]
    · simp [setMain, State.broadcast, hwait, WorkerPhase.rank]

/-! ### How the destructor comes to hang -/

/-- The first `k` workers wait. -/
def asleep (k : Nat) : State :=
  { State.new with
    main := .create k
    worker := fun w => if w < k then .waiting else .notCreated
    threadArg := fun w => if w < k then some true else none }

/-- The client goes on while worker `k` is about to wait. -/
def drowsy (k : Nat) : State :=
  { asleep k with
    main := .create (k + 1)
    mtxForWorkers := some (.worker k)
    worker := Function.update (asleep k).worker k .wait
    threadArg := Function.update (asleep k).threadArg k (some true) }

theorem drowsy_of_asleep {k : Nat} (hk : k < c.numThread) :
    [Action.main, .worker k, .worker k, .main].foldlM (step c) (asleep k) = some (drowsy k) := by
  simp [step, mainStep, workerStep, asleep, hk, setArg, setWorker, setMain, drowsy, State.new]

theorem asleep_succ {k : Nat} : step c (drowsy k) (.worker k) = some (asleep (k + 1)) := by
  have hlt : ∀ w, w ≠ k → (w < k ↔ w < k + 1) := by omega
  simp only [step, workerStep, drowsy, Function.update_self, setWorker, asleep, State.new, Function.update_idem,
    Option.some.injEq, State.mk.injEq, true_and, and_true]
  constructor <;>
  · funext w
    by_cases hw : w = k
    · simp [hw]
    · simp [hw, hlt w hw]

theorem reachable_asleep {k : Nat} (hk : k ≤ c.numThread) : Reachable (poolSystem c) (asleep k) := by
  induction k with
  | zero => exact .init (by simp [asleep, State.new, poolSystem])
  | succ k ih =>
    have hdrowsy := (ih (by omega)).foldlM (fun _ _ _ h => ⟨_, h⟩) (drowsy_of_asleep (by omega))
    exact .step (.worker k) hdrowsy asleep_succ

/-- In a pool of any size the last worker may be too late. -/
theorem late_reachable (c : Config) (hr : c.runs = false) (hn : 0 < c.numThread) :
    ∃ s, Reachable (poolSystem c) s ∧ s.main = .broadcastLate ∧ s.worker (c.numThread - 1) = .wait := by
  obtain ⟨k, hk⟩ : ∃ k, c.numThread = k + 1 := ⟨c.numThread - 1, by omega⟩
  have hdrowsy : Reachable (poolSystem c) (drowsy k) :=
    (reachable_asleep (by omega)).foldlM (fun _ _ _ h => ⟨_, h⟩) (drowsy_of_asleep (by omega))
  have hrun : List.foldlM (step c) (drowsy k) [Action.main, .main, .main, .main] =
      some { drowsy k with main := .broadcastLate, terminateFlag := true } := by
    simp [step, mainStep, drowsy, hk, setMain, hr, asleep, State.new]
  refine ⟨_, hdrowsy.foldlM (fun _ _ _ h => ⟨_, h⟩) hrun, rfl, ?_⟩
  simp [drowsy, hk]

theorem destroy_ends_iff_tooLate : ∃ s s' : State, s.main = .broadcastLate ∧
    step ⟨.two, 4, false, false⟩ s .main = some s' ∧
    ¬ ∃ t, Relation.ReflTransGen (Moves ⟨.two, 4, false, false⟩) s' t ∧ t.main = .destroyed := by
  obtain ⟨s, hs, hm, hwait⟩ := late_reachable ⟨.two, 4, false, false⟩ rfl (by decide)
  have h : step ⟨.two, 4, false, false⟩ s .main = some (s.broadcast.setMain (.joinLate 0)) := by
    rw [step, mainStep, hm]
  refine ⟨s, _, hm, h, fun hend => ?_⟩
  have hwaits := (destroy_ends_iff hs hm h).2.2 hend 3 (by decide)
  exact WorkerPhase.noConfusion (hwait.symm.trans hwaits)

/-! ### When a deleted argument is read -/

/-- The only worker does one call that ends its loop before the client has looked at it. -/
def earlyBird : List Action :=
  [.main, .worker 0, .worker 0, .worker 0, .wakeUp 0, .worker 0, .worker 0, .worker 0, .workReturns 0 true,
    .worker 0, .main]

theorem reads_deleted (hp : c.project = .three) (hsp : c.spurious = true) (hn : 0 < c.numThread) :
    ∃ s, earlyBird.foldlM (step c) .new = some s ∧ s.main = .corrupt := by
  refine ⟨{ State.new with
    main := .corrupt
    threadArg := Function.update State.new.threadArg 0 none
    worker := Function.update State.new.worker 0 .finished
    works := Function.update State.new.works 0 1 }, ?_, rfl⟩
  simp [earlyBird, step, mainStep, workerStep, State.wakeUp, State.workReturns, afterWork, State.new, setMain,
    setWorker, setArg, hp, hsp, hn]

theorem positive_of_reachable (hs : Reachable (poolSystem c) s) :
    (∃ tid, s.main = .awaitSleeping tid) ∨ s.main = .corrupt → 0 < c.numThread := by
  refine hs.invariant (I := fun s => (∃ tid, s.main = .awaitSleeping tid) ∨ s.main = .corrupt → 0 < c.numThread)
    ?_ fun s a s' _ ih h hm => ?_
  · rintro s rfl (⟨tid, hm⟩ | hm) <;> cases hm
  · rcases step_cases h with h | ⟨tid, h⟩
    · cases h
      case create more => exact Nat.zero_lt_of_lt more
      case readDeleted tid here _ => exact ih (.inl ⟨tid, here⟩)
      case unlock => cases hp : c.project <;> simp [setMain, hp] at hm
      case setTerminate => cases hp : c.project <;> simp [setMain, hp] at hm
      case joined => cases hp : c.project <;> simp [setMain, hp] at hm
      all_goals simp [setMain] at hm
    · rw [h.frame.main] at hm
      exact ih hm

/-- The constructor can read an argument that has been deleted in a pool of project 3 whose waits may end by
themselves, and in no other. -/
theorem corrupt_iff (c : Config) : (∃ s, Reachable (poolSystem c) s ∧ s.main = .corrupt) ↔
    c.project = .three ∧ c.spurious = true ∧ 0 < c.numThread := by
  constructor
  · rintro ⟨s, hs, hm⟩
    have hunsafe : ¬ c.Safe := by
      intro hsafe
      have hfits := (inv_of_reachable hsafe hs).fits
      rw [hm] at hfits
      exact hfits
    simp only [Config.Safe, not_or] at hunsafe
    refine ⟨?_, Bool.not_eq_false _ ▸ hunsafe.2, positive_of_reachable hs (.inr hm)⟩
    cases hp : c.project with
    | two => exact absurd hp hunsafe.1
    | three => rfl
  · rintro ⟨hp, hsp, hn⟩
    obtain ⟨s, hrun, hm⟩ := reads_deleted hp hsp hn
    have hstart : Reachable (poolSystem c) .new := .init rfl
    exact ⟨s, hstart.foldlM (fun _ _ _ h => ⟨_, h⟩) hrun, hm⟩

end ThreadPool
