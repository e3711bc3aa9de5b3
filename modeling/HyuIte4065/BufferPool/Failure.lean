import HyuIte4065.BufferPool.Parallel

/-!
# When a thread cannot be created

`create` returns false as soon as `pthread_create` fails, without the loop that joins the threads
created so far. Nothing stops these threads.
-/
namespace BufferPool

open Transition

variable {c : Chunk} {s s' : State} {mem : Memory} {free : UtList} {fails : ThreadId → Bool}
  {a : Actor} {i : Nat} {b : Bool}

/-- A call of `create` that a failure may have ended. -/
structure Attempt where
  state : State
  failed : Bool

/-- `main` is about to call `pthread_create`, which fails. -/
def Main.createFails (fails : ThreadId → Bool) : Main → Bool
  | .create i => fails i
  | _ => false

namespace Attempt

def start (mem : Memory) (free : UtList) (localFreeLists : ThreadId → UtList) : Attempt where
  state := .start mem free localFreeLists
  failed := false

/-- What `create` has returned. -/
def result (r : Attempt) : Option Bool :=
  if r.failed then some false else if r.state.main = .returned then some true else none

def actMain (c : Chunk) (fails : ThreadId → Bool) (r : Attempt) : Option Attempt :=
  if r.failed then none
  else if r.state.main.createFails fails then some { r with failed := true }
  else (r.state.actMain c).map fun s => { r with state := s }

def act (c : Chunk) (fails : ThreadId → Bool) (r : Attempt) : Actor → Option Attempt
  | .main => r.actMain c fails
  | .worker tid => (r.state.actWorker c tid).map fun s => { r with state := s }

end Attempt

/-- `create` where `pthread_create` does not succeed for the threads in `fails`. -/
def attemptSystem (c : Chunk) (fails : ThreadId → Bool) (mem : Memory) (free : UtList) :
    Transition.System Attempt Actor where
  init r := ∃ localFreeLists, r = .start mem free localFreeLists
  step r a r' := r.act c fails a = some r'

/-- No thread is running, and a call that failed has left the free list as it was. -/
structure Clean (c : Chunk) (mem : Memory) (free : UtList) (s : State) (result : Bool) : Prop where
  finished : ∀ t, s.worker t = .unborn ∨ s.worker t = .done
  unchanged : result = false → s.free = free ∧ ∀ l, WellFormed mem free l →
    (∀ p ∈ l, ∀ b < c.size, p ≠ c.blocks + b) → WellFormed s.mem s.free l

variable {r r' : Attempt}

theorem attempt_cases (h : r.act c fails a = some r') :
    (∃ i, r.failed = false ∧ r.state.main = .create i ∧ fails i = true ∧ r' = { r with failed := true }) ∨
    (∃ s, r.failed = false ∧ r.state.main.createFails fails = false ∧ r.state.actMain c = some s ∧
      a = .main ∧ r' = { r with state := s }) ∨
    (∃ t s, r.state.actWorker c t = some s ∧ a = .worker t ∧ r' = { r with state := s }) := by
  cases a with
  | main =>
    simp only [Attempt.act, Attempt.actMain] at h
    split at h
    · cases h
    · next hfailed =>
      split at h
      · next hfails =>
        cases hm : r.state.main with
        | create i =>
          rw [hm] at hfails
          exact .inl ⟨i, by simpa using hfailed, rfl, hfails, (Option.some.inj h).symm⟩
        | _ => rw [hm] at hfails; cases hfails
      · next hfails =>
        obtain ⟨s, hs, rfl⟩ := Option.map_eq_some_iff.mp h
        exact .inr (.inl ⟨s, by simpa using hfailed, by simpa using hfails, hs, rfl, rfl⟩)
  | worker t =>
    obtain ⟨s, hs, rfl⟩ := Option.map_eq_some_iff.mp h
    exact .inr (.inr ⟨t, s, hs, rfl, rfl⟩)

/-- Up to the failure nothing is different. -/
theorem reachable_state (h : Reachable (attemptSystem c fails mem free) r) :
    Reachable (createSystem c mem free) r.state := by
  induction h with
  | init h =>
    obtain ⟨localFreeLists, rfl⟩ := h
    exact .init ⟨localFreeLists, rfl⟩
  | step a _ hs ih =>
    rcases attempt_cases hs with ⟨i, -, -, -, rfl⟩ | ⟨s, -, -, hmain, rfl, rfl⟩ | ⟨t, s, hw, rfl, rfl⟩
    · exact ih
    · exact ih.step .main hmain
    · exact ih.step (.worker t) hw

theorem reachable_started (h : Reachable (createSystem c mem free) s) : Started c s := by
  refine h.invariant ?_ ?_
  · rintro s ⟨localFreeLists, rfl⟩
    exact started_start localFreeLists
  · intro s a s' _ hi hs
    cases a with
    | main => exact hi.actMain hs
    | worker t => exact hi.actWorker hs

/-- The free list is not touched before the threads are joined. -/
theorem reachable_free (h : Reachable (createSystem c mem free) s) :
    ∀ i, s.main = .initList i ∨ s.main = .create i → s.free = free := by
  refine h.invariant (I := fun s => ∀ i, s.main = .initList i ∨ s.main = .create i → s.free = free) ?_ ?_
  · rintro s ⟨localFreeLists, rfl⟩ i _
    rfl
  · intro s a s' _ hi hs j hj
    cases a with
    | main =>
      rcases actMain_cases hs with ⟨i, hm, -, rfl⟩ | ⟨i, hm, -, rfl⟩ | ⟨i, hm, rfl⟩ | ⟨i, hm, -, -, rfl⟩ |
        ⟨i, hm, -, rfl⟩ | ⟨i, hm, rfl⟩ | ⟨i, hm, rfl⟩ | ⟨i, x, todo, r, hm, -, rfl⟩
      · exact hi i (.inl hm)
      case inr.inr.inl => exact hi i (.inr hm)
      all_goals rcases hj with hj | hj <;> cases hj
    | worker t =>
      obtain ⟨hmain, hfree, -⟩ := actWorker_same hs
      rw [hmain] at hj
      rw [hfree]
      exact hi j hj

/-- Which calls of `pthread_create` have been made. -/
structure Tried (c : Chunk) (fails : ThreadId → Bool) (r : Attempt) : Prop where
  succeeded : ∀ t < c.created r.state.main, fails t = false
  failed : r.failed = true → ∃ i, r.state.main = .create i ∧ fails i = true

theorem Tried.actMain (h : Tried c fails r) (hst : Started c r.state) (hf : r.failed = false)
    (hc : r.state.main.createFails fails = false) (hs : r.state.actMain c = some s) :
    Tried c fails { r with state := s } := by
  refine ⟨fun t ht => ?_, fun hfailed => by rw [hf] at hfailed; cases hfailed⟩
  have hold := h.succeeded
  rcases actMain_cases hs with ⟨i, hm, -, rfl⟩ | ⟨i, hm, hi, rfl⟩ | ⟨i, hm, rfl⟩ | ⟨i, hm, -, -, rfl⟩ |
    ⟨i, hm, -, rfl⟩ | ⟨i, hm, rfl⟩ | ⟨i, hm, rfl⟩ | ⟨i, x, todo, r, hm, -, rfl⟩ <;> rw [hm] at hold
  · exact hold t ht
  · have hle := (hst.counter i).1 hm
    obtain rfl : i = c.numThread := by omega
    exact hold t ht
  · rcases Nat.lt_succ_iff_lt_or_eq.mp ht with ht | rfl
    · exact hold t ht
    · rwa [hm] at hc
  all_goals exact hold t ht

theorem reachable_tried (h : Reachable (attemptSystem c fails mem free) r) : Tried c fails r := by
  refine h.invariant ?_ ?_
  · rintro r ⟨localFreeLists, rfl⟩
    exact ⟨fun t ht => absurd ht (Nat.not_lt_zero t), fun hfailed => by cases hfailed⟩
  · intro r a r' hr hi hs
    rcases attempt_cases hs with ⟨i, -, hm, hfails, rfl⟩ | ⟨s, hf, hc, hmain, rfl, rfl⟩ | ⟨t, s, hw, rfl, rfl⟩
    · exact ⟨hi.succeeded, fun _ => ⟨i, hm, hfails⟩⟩
    · exact hi.actMain (reachable_started (reachable_state hr)) hf hc hmain
    · obtain ⟨hsame, -⟩ := actWorker_same hw
      refine ⟨fun t ht => hi.succeeded t (by rwa [hsame] at ht), fun hfailed => ?_⟩
      obtain ⟨i, hm, hfails⟩ := hi.failed hfailed
      exact ⟨i, hsame.trans hm, hfails⟩

/-- A call that failed has not touched the free list. -/
theorem failed_unchanged (h : Reachable (attemptSystem c fails mem free) r) (hf : r.failed = true) :
    r.state.free = free ∧ ∀ l, WellFormed mem free l →
      (∀ p ∈ l, ∀ b < c.size, p ≠ c.blocks + b) → WellFormed r.state.mem r.state.free l := by
  obtain ⟨i, hm, -⟩ := (reachable_tried h).failed hf
  have hstate := reachable_state h
  refine ⟨reachable_free hstate i (.inr hm), fun l hl outside => ?_⟩
  have hok := (reachable_inv hl outside hstate).main
  rw [hm] at hok
  obtain ⟨-, -, l', hwf, hlists⟩ := hok
  rw [hm] at hlists
  have hnil : l' = [] := by
    refine List.eq_nil_iff_forall_not_mem.mpr fun p hp => ?_
    obtain ⟨b, -, hlt, -⟩ := (hlists p).mp hp
    exact Nat.not_lt_zero _ hlt
  rwa [hnil, List.append_nil] at hwf

theorem Attempt.result_cases (h : r.result = some b) :
    r.failed = true ∧ b = false ∨ r.failed = false ∧ r.state.main = .returned ∧ b = true := by
  unfold Attempt.result at h
  split at h
  · next hf => exact .inl ⟨hf, (Option.some.inj h).symm⟩
  · next hf =>
    split at h
    · next hm => exact .inr ⟨Bool.eq_false_iff.mpr hf, hm, (Option.some.inj h).symm⟩
    · cases h

/-- A thread that has been created has been joined, or has not been created at all. -/
theorem clean_of_returned (h : Reachable (attemptSystem c fails mem free) r) (hb : r.result = some b)
    (hfails : fails 0 = true ∨ ∀ i < c.numThread, fails i = false) : Clean c mem free r.state b := by
  have hst := reachable_started (reachable_state h)
  rcases Attempt.result_cases hb with ⟨hf, rfl⟩ | ⟨-, hm, rfl⟩
  · refine ⟨fun t => .inl ((hst.created t).mpr ?_), fun _ => failed_unchanged h hf⟩
    obtain ⟨i, hm, hi⟩ := (reachable_tried h).failed hf
    rcases hfails with h₀ | hnone
    · have hzero : i = 0 := by
        by_contra hne
        have hsucceeded := (reachable_tried h).succeeded 0 (by rw [hm]; exact Nat.pos_of_ne_zero hne)
        rw [h₀] at hsucceeded
        cases hsucceeded
      rw [hm, hzero]
      exact Nat.zero_le t
    · rw [hnone i ((hst.counter i).2 hm)] at hi
      cases hi
  · refine ⟨fun t => ?_, fun hfalse => by cases hfalse⟩
    have hcreated := hst.created t
    have hjoined := hst.joined t
    rw [hm] at hcreated hjoined
    rcases Nat.lt_or_ge t c.numThread with ht | ht
    · exact .inr (hjoined ht)
    · exact .inl (hcreated.mpr ht)

theorem act_main (hf : r.failed = false) (hc : r.state.main.createFails fails = false)
    (hs : r.state.actMain c = some s) : r.act c fails .main = some { r with state := s } := by
  rw [Attempt.act, Attempt.actMain, if_neg (by simp [hf]), if_neg (by simp [hc]), hs]
  rfl

/-- `main` alone: no thread moves before the loop has come to `i`. -/
theorem reaches_create (mem : Memory) (free : UtList) (hi : i < c.numThread)
    (hsucceed : ∀ t < i, fails t = false) :
    ∃ r, Reachable (attemptSystem c fails mem free) r ∧ r.failed = false ∧ r.state.main = .create i ∧
      ∀ t < i, r.state.worker t = .test (c.start t) := by
  induction i with
  | zero =>
    refine ⟨_, .step .main (.init ⟨fun _ => utListInit, rfl⟩) (act_main rfl rfl (if_pos hi)), rfl, rfl, ?_⟩
    exact fun t ht => absurd ht (Nat.not_lt_zero t)
  | succ i ih =>
    obtain ⟨r, hr, hf, hm, hw⟩ := ih (Nat.lt_of_succ_lt hi) fun t ht => hsucceed t (Nat.lt_succ_of_lt ht)
    have hcreate : r.state.actMain c =
        some { r.state.goto i (.test (c.start i)) with main := .initList (i + 1) } := by
      rw [State.actMain, hm]
    have hc : r.state.main.createFails fails = false := by
      rw [hm]
      exact hsucceed i (Nat.lt_succ_self i)
    have hr₁ := hr.step Actor.main (act_main hf hc hcreate)
    refine ⟨_, hr₁.step .main (act_main hf rfl (if_pos hi)), hf, rfl, fun t ht => ?_⟩
    rcases Nat.lt_succ_iff_lt_or_eq.mp ht with ht | rfl
    · exact (Function.update_of_ne (Nat.ne_of_lt ht) _ _).trans (hw t ht)
    · exact Function.update_self _ _ _

/-- Then the call fails, and the first thread has not even begun. -/
theorem reaches_failure (mem : Memory) (free : UtList) (hi : i < c.numThread) (hpos : 0 < i)
    (hsucceed : ∀ t < i, fails t = false) (hfails : fails i = true) :
    ∃ r, Reachable (attemptSystem c fails mem free) r ∧ r.result = some false ∧
      r.state.worker 0 = .test (c.start 0) := by
  obtain ⟨r, hr, hf, hm, hw⟩ := reaches_create mem free hi hsucceed
  have hstop : r.act c fails .main = some { r with failed := true } := by
    rw [Attempt.act, Attempt.actMain, if_neg (by simp [hf]), if_pos (by rw [hm]; exact hfails)]
  exact ⟨_, hr.step .main hstop, rfl, hw 0 hpos⟩

/-- No thread outlives `create`, and a failure leaves the free list alone, exactly if the first
thread is the one that cannot be created or each one can. -/
theorem create_clean_iff (c : Chunk) (fails : ThreadId → Bool) (mem : Memory) (free : UtList) :
    (∀ r b, Reachable (attemptSystem c fails mem free) r → r.result = some b →
        Clean c mem free r.state b) ↔
      fails 0 = true ∨ ∀ i < c.numThread, fails i = false := by
  refine ⟨fun h => ?_, fun hfails r b hr hb => clean_of_returned hr hb hfails⟩
  by_contra hnot
  rw [not_or, not_forall] at hnot
  obtain ⟨h₀, hsome⟩ := hnot
  have hex : ∃ i, i < c.numThread ∧ fails i = true := by
    obtain ⟨i, hi⟩ := hsome
    rw [Classical.not_imp, Bool.not_eq_false] at hi
    exact ⟨i, hi⟩
  -- the first call that fails
  obtain ⟨hi, hfails⟩ := Nat.find_spec hex
  have hpos : 0 < Nat.find hex := by
    refine Nat.pos_of_ne_zero fun hzero => h₀ ?_
    rwa [hzero] at hfails
  have hsucceed : ∀ t < Nat.find hex, fails t = false := fun t ht => by
    have hmin := Nat.find_min hex ht
    rw [not_and, Bool.not_eq_true] at hmin
    exact hmin (Nat.lt_trans ht hi)
  obtain ⟨r, hr, hresult, hworker⟩ := reaches_failure mem free hi hpos hsucceed hfails
  rcases (h r false hr hresult).finished 0 with hw | hw <;> rw [hworker] at hw <;> cases hw

/-- The second of two threads cannot be created, and the first one is still to run. -/
theorem running_after_failure :
    ∃ r, Reachable (attemptSystem twoThreads (· == 1) oneFree ⟨1, some 7, some 7⟩) r ∧
      r.result = some false ∧ r.state.worker 0 = .test ⟨0, 100, 0⟩ ∧
      ¬Clean twoThreads oneFree ⟨1, some 7, some 7⟩ r.state false := by
  obtain ⟨r, hr, hresult, hworker⟩ :
      ∃ r, Reachable (attemptSystem twoThreads (· == 1) oneFree ⟨1, some 7, some 7⟩) r ∧
        r.result = some false ∧ r.state.worker 0 = .test (twoThreads.start 0) :=
    reaches_failure _ _ (i := 1) (by decide) Nat.one_pos (by decide) rfl
  refine ⟨r, hr, hresult, hworker, fun hclean => ?_⟩
  rcases hclean.finished 0 with hw | hw <;> rw [hworker] at hw <;> cases hw

end BufferPool
