import HyuIte4065.Snapshot.Steps
import Mathlib.Data.BitVec
import Mathlib.Tactic.IntervalCases

/-!
# The snapshot is linearizable

Along one execution every register is described by how often it has been stored to.
A scan that returns two equal collects returns the registers of the moment between
them; a borrowed vector was taken after the register was stored to for the last time
but one, which lies within the scan that saw it move twice.
-/
namespace Snapshot

open Transition

variable {numThread : Nat} {s s' : State numThread} {l : Label numThread} {p : ProcessId}
  {i j : Fin numThread} {sc sc' : Scan numThread} {job : Job} {v : Fin numThread → Int}

/-- Everything a step can do. -/
theorem step_cases (h : Step s l s') :
    (∃ job, s.phase l.pid = .idle ∧ s' = s.goto l.pid (.scanning job .start) ∧ l.returns = none) ∨
    (∃ job sc sc', s.phase l.pid = .scanning job sc ∧ sc.step s.regs = some (.inl sc') ∧
      s' = s.goto l.pid (.scanning job sc') ∧ l.returns = none) ∨
    (∃ job sc v, s.phase l.pid = .scanning job sc ∧ sc.step s.regs = some (.inr v) ∧
      s' = s.goto l.pid (job.andThen v) ∧ l.returns = some v) ∨
    (∃ value snap, ∃ h : l.pid < numThread, s.phase l.pid = .loadOwn value snap ∧
      s' = s.goto l.pid (.storeOwn value snap (s.regs ⟨l.pid, h⟩)) ∧ l.returns = none) ∨
    (∃ value snap oldValue, ∃ h : l.pid < numThread, s.phase l.pid = .storeOwn value snap oldValue ∧
      s' = (s.store ⟨l.pid, h⟩ ⟨oldValue.label + 1, value, snap⟩).goto l.pid .idle ∧
      l.returns = none) := by
  cases h with
  | scan idle => exact .inl ⟨.scan, idle, rfl, rfl⟩
  | update value own idle => exact .inl ⟨.update value, idle, rfl, rfl⟩
  | @act _ p result ha =>
    cases hp : s.phase p with
    | idle => simp [State.act, hp] at ha
    | scanning job sc =>
      simp only [State.act, hp, Option.map_eq_some_iff] at ha
      obtain ⟨r, hr, ha⟩ := ha
      cases r with
      | inl sc' =>
        obtain ⟨rfl, rfl⟩ : _ = s' ∧ none = result := by simpa using ha
        exact .inr (.inl ⟨job, sc, sc', rfl, hr, rfl, rfl⟩)
      | inr v =>
        obtain ⟨rfl, rfl⟩ : _ = s' ∧ some v = result := by simpa using ha
        exact .inr (.inr (.inl ⟨job, sc, v, rfl, hr, rfl, rfl⟩))
    | loadOwn value snap =>
      by_cases h : p < numThread
      · obtain ⟨rfl, rfl⟩ : _ = s' ∧ none = result := by simpa [State.act, hp, h] using ha
        exact .inr (.inr (.inr (.inl ⟨value, snap, h, rfl, rfl, rfl⟩)))
      · simp [State.act, hp, h] at ha
    | storeOwn value snap oldValue =>
      by_cases h : p < numThread
      · obtain ⟨rfl, rfl⟩ : _ = s' ∧ none = result := by simpa [State.act, hp, h] using ha
        exact .inr (.inr (.inr (.inr ⟨value, snap, oldValue, h, rfl, rfl, rfl⟩)))
      · simp [State.act, hp, h] at ha

@[simp] theorem goto_regs (s : State numThread) (p : ProcessId) (ph : Phase numThread) :
    (s.goto p ph).regs = s.regs := rfl

@[simp] theorem goto_updates (s : State numThread) (p : ProcessId) (ph : Phase numThread) :
    (s.goto p ph).updates = s.updates := rfl

/-- Other processes stay where they are. -/
theorem step_phase (h : Step s l s') (hp : p ≠ l.pid) : s'.phase p = s.phase p := by
  rcases step_cases h with ⟨_, -, rfl, -⟩ | ⟨_, _, _, -, -, rfl, -⟩ | ⟨_, _, _, -, -, rfl, -⟩ |
    ⟨_, _, _, -, rfl, -⟩ | ⟨_, _, _, _, -, rfl, -⟩ <;>
  simp [State.goto, State.store, hp]

/-- A register changes only when its own thread stores to it, and this is counted. -/
theorem step_register (h : Step s l s') (i : Fin numThread) :
    (s'.regs i = s.regs i ∧ s'.updates i = s.updates i) ∨
    (i.val = l.pid ∧ s'.updates i = s.updates i + 1 ∧ ∃ value snap oldValue,
      s.phase l.pid = .storeOwn value snap oldValue ∧
      s'.regs i = ⟨oldValue.label + 1, value, snap⟩) := by
  rcases step_cases h with ⟨_, -, rfl, -⟩ | ⟨_, _, _, -, -, rfl, -⟩ | ⟨_, _, _, -, -, rfl, -⟩ |
    ⟨_, _, _, -, rfl, -⟩ | ⟨value, snap, oldValue, hl, hp, rfl, -⟩
  case inr.inr.inr.inr =>
    by_cases hi : i = ⟨l.pid, hl⟩
    · subst hi
      exact .inr ⟨rfl, by simp [State.store], value, snap, oldValue, hp, by simp [State.store]⟩
    · exact .inl (by simp [State.store, hi])
  all_goals exact .inl ⟨rfl, rfl⟩

theorem step_other (h : Step s l s') (hi : i.val ≠ l.pid) :
    s'.regs i = s.regs i ∧ s'.updates i = s.updates i :=
  (step_register h i).resolve_right fun hc => hi hc.1

theorem step_updates_le (h : Step s l s') (i : Fin numThread) : s.updates i ≤ s'.updates i := by
  rcases step_register h i with ⟨-, he⟩ | ⟨-, he, -⟩ <;> omega

section Run

variable (e : Execution (snapshotSystem numThread)) {a b k t t' : Nat}

theorem updates_mono (htt : t ≤ t') (ht : t' ≤ e.length) (i : Fin numThread) :
    (e.state t).updates i ≤ (e.state t').updates i := by
  refine Execution.interval (I := fun m => (e.state t).updates i ≤ (e.state m).updates i) htt
    (Nat.le_refl _) fun m _ hm ih => ?_
  exact ih.trans (step_updates_le (e.steps m (by omega)) i)

/-- Where the count stands still, so does the register. -/
theorem regs_eq_of_updates (htt : t ≤ t') (ht : t' ≤ e.length)
    (hu : (e.state t).updates i = (e.state t').updates i) :
    (e.state t).regs i = (e.state t').regs i := by
  refine (Execution.interval (I := fun m => (e.state m).updates i = (e.state t).updates i →
    (e.state t).regs i = (e.state m).regs i) htt (fun _ => rfl) ?_) hu.symm
  intro m htm hm ih hum
  have hle := updates_mono e htm (by omega) i
  rcases step_register (e.steps m (by omega)) i with ⟨hr, hs⟩ | ⟨-, hs, -⟩
  · rw [hr]
    exact ih (by omega)
  · omega

theorem lt_of_updates_lt (ht : t ≤ e.length) (hu : (e.state t).updates i < (e.state t').updates i) :
    t < t' := by
  by_contra hle
  have := updates_mono e (Nat.le_of_not_lt hle) ht i
  omega

/-- What a copy holds was in the register at some moment between `a` and `b`. -/
def Saw (a b : Nat) (j : Fin numThread) (x : Option (SnapValue numThread)) : Prop :=
  ∃ t, a ≤ t ∧ t ≤ b ∧ x = some ((e.state t).regs j)

/-- What holds at moment `k` of a scan whose first step was taken at moment `a`. -/
def ScanOk (a k : Nat) : Scan numThread → Prop
  | .collectOld i oldCopy => ∀ j, j.val < i → Saw e (a + 1) k j (oldCopy j)
  | .collectNew i oldCopy newCopy moved =>
    -- the last collect was complete at moment `T`
    ∃ T, a < T ∧ T ≤ k ∧ (∀ j, Saw e (a + 1) T j (oldCopy j)) ∧
      (∀ j, j.val < i → Saw e T k j (newCopy j)) ∧
      ∀ j, moved j = true → ∃ t t', a < t ∧ t ≤ t' ∧ t' ≤ T ∧ oldCopy j = some ((e.state t').regs j) ∧
        (e.state t).updates j < (e.state t').updates j

/-- The vector was held by the registers at moment `t`. -/
def Held (t : Nat) (v : Fin numThread → Int) : Prop := ∀ i, v i = ((e.state t).regs i).value

/-- A register counts its stores in the label, and the vector in it was held when the register
had been stored to once less. -/
structure RegisterOk (k : Nat) (i : Fin numThread) : Prop where
  label : ((e.state k).regs i).label = BitVec.ofNat 32 ((e.state k).updates i)
  snap : (e.state k).updates i ≠ 0 → ∃ t ≤ k, Held e t ((e.state k).regs i).snap ∧
    (e.state t).updates i + 1 = (e.state k).updates i

/-- The scan that process `p` is in at moment `k` took its first step at moment `a`. -/
structure Scanning (p : ProcessId) (a k : Nat) : Prop where
  before : a < k
  actor : (e.label a).pid = p
  first : ∃ job, (e.state a).phase p = .scanning job .start
  during : ∀ m, a < m → m ≤ k → ∃ job sc, (e.state m).phase p = .scanning job sc

/-- The register of process `p` itself has not been stored to since moment `t`. -/
def Still (p : ProcessId) (t k : Nat) : Prop :=
  ∀ q : Fin numThread, q.val = p → (e.state t).updates q = (e.state k).updates q

/-- What process `p` knows at moment `k`. -/
def PhaseOk (k : Nat) (p : ProcessId) : Phase numThread → Prop
  | .idle => True
  | .scanning _ sc => (sc = .start ∨ ∃ a, Scanning e p a k) ∧
      ∀ a, Scanning e p a k → ScanOk e a k sc ∧ Still e p a k
  | .loadOwn _ snap => ∃ t ≤ k, Held e t snap ∧ Still e p t k
  | .storeOwn _ snap oldValue => (∃ t ≤ k, Held e t snap ∧ Still e p t k) ∧
      ∀ q : Fin numThread, q.val = p → oldValue = (e.state k).regs q

variable {e}

theorem Saw.mono {c : Nat} {x : Option (SnapValue numThread)} (h : Saw e a b j x) (hbc : b ≤ c) :
    Saw e a c j x := by
  obtain ⟨t, hat, htb, hx⟩ := h
  exact ⟨t, hat, by omega, hx⟩

theorem ScanOk.mono (h : ScanOk e a k sc) : ScanOk e a (k + 1) sc := by
  cases sc with
  | collectOld i oldCopy =>
    intro j hj
    exact (h j hj).mono (Nat.le_succ k)
  | collectNew i oldCopy newCopy moved =>
    obtain ⟨T, haT, hTk, hold, hnew, hm⟩ := h
    exact ⟨T, haT, by omega, hold, fun j hj => (hnew j hj).mono (Nat.le_succ k), hm⟩

theorem scanOk_start : ScanOk e a k .start := by
  intro j hj
  omega

/-- The comparison finds a thread whose labels differ, or that there is none. -/
theorem firstMoved_some {oldCopy newCopy : Copy numThread} {tids : List (Fin numThread)}
    {r : Option (Fin numThread)} (h : firstMoved oldCopy newCopy tids = some r) :
    (∀ tid, r = some tid → ∃ o c, oldCopy tid = some o ∧ newCopy tid = some c ∧ o.label ≠ c.label) ∧
    (r = none → ∀ tid ∈ tids, ∃ o c, oldCopy tid = some o ∧ newCopy tid = some c ∧
      o.label = c.label) := by
  induction tids with
  | nil =>
    obtain rfl : none = r := by simpa [firstMoved] using h
    simp
  | cons tid tids ih =>
    simp only [firstMoved, Option.bind_eq_bind, Option.bind_eq_some_iff] at h
    obtain ⟨o, ho, c, hc, h⟩ := h
    by_cases hl : o.label ≠ c.label
    · obtain rfl : some tid = r := by simpa [hl] using h
      refine ⟨?_, by simp⟩
      rintro tid' ⟨rfl⟩
      exact ⟨o, c, ho, hc, hl⟩
    · rw [if_neg hl] at h
      obtain ⟨ih₁, ih₂⟩ := ih h
      refine ⟨ih₁, fun hr tid' hm => ?_⟩
      rcases List.mem_cons.mp hm with rfl | hm
      · exact ⟨o, c, ho, hc, not_not.mp hl⟩
      · exact ih₂ hr tid' hm

/-- A thread that differs in two collects has stored in between. -/
theorem updates_lt_of_label_ne {o c : SnapValue numThread} (hreg : ∀ t ≤ k, RegisterOk e t j)
    (htt : t ≤ t') (ht : t' ≤ k) (hk : k ≤ e.length) (ho : o = (e.state t).regs j)
    (hc : c = (e.state t').regs j) (hl : o.label ≠ c.label) :
    (e.state t).updates j < (e.state t').updates j := by
  refine lt_of_le_of_ne (updates_mono e htt (by omega) j) fun he => hl ?_
  rw [ho, hc, (hreg t (by omega)).label, (hreg t' ht).label, he]

/-- One step of a scan that goes on. -/
theorem ScanOk.step (h : ScanOk e a k sc) (hak : a ≤ k) (hk : k < e.length)
    (hreg : ∀ t ≤ k, ∀ j, RegisterOk e t j) (hs : sc.step (e.state k).regs = some (.inl sc'))
    (hsame : (e.state (k + 1)).regs = (e.state k).regs) : ScanOk e a (k + 1) sc' := by
  have now : ∀ j, some ((e.state k).regs j) = some ((e.state (k + 1)).regs j) := by
    intro j
    rw [hsame]
  cases sc with
  | collectOld i oldCopy =>
    by_cases hi : i < numThread
    · obtain rfl : _ = sc' := by simpa [Scan.step, hi] using hs
      intro j hj
      by_cases hji : j = ⟨i, hi⟩
      · subst hji
        exact ⟨k + 1, by omega, Nat.le_refl _, by simp [hsame]⟩
      · have hlt : j.val < i := by
          have : j.val ≠ i := fun he => hji (Fin.ext he)
          omega
        rw [Function.update_of_ne hji]
        exact (h j hlt).mono (Nat.le_succ k)
    · obtain rfl : _ = sc' := by simpa [Scan.step, hi] using hs
      refine ⟨k + 1, by omega, Nat.le_refl _, fun j => ?_, fun j hj => by omega, by simp⟩
      exact (h j (by omega)).mono (Nat.le_succ k)
  | collectNew i oldCopy newCopy moved =>
    obtain ⟨T, haT, hTk, hold, hnew, hm⟩ := h
    by_cases hi : i < numThread
    · obtain rfl : _ = sc' := by simpa [Scan.step, hi] using hs
      refine ⟨T, haT, by omega, hold, fun j hj => ?_, hm⟩
      by_cases hji : j = ⟨i, hi⟩
      · subst hji
        exact ⟨k + 1, by omega, Nat.le_refl _, by simp [hsame]⟩
      · have hlt : j.val < i := by
          have : j.val ≠ i := fun he => hji (Fin.ext he)
          omega
        rw [Function.update_of_ne hji]
        exact (hnew j hlt).mono (Nat.le_succ k)
    · simp only [Scan.step, dif_neg hi] at hs
      cases hf : firstMoved oldCopy newCopy (List.finRange numThread) with
      | none => simp [hf] at hs
      | some r =>
        cases r with
        | none => simp [hf] at hs
        | some tid =>
          obtain ⟨o, c, ho, hc, hl⟩ := (firstMoved_some hf).1 tid rfl
          cases hmv : moved tid with
          | true => simp [hf, hmv] at hs
          | false =>
            obtain rfl : _ = sc' := by simpa [hf, hmv] using hs
            -- the new collect becomes the old one, complete now
            refine ⟨k + 1, by omega, Nat.le_refl _, fun j => ?_, fun j hj => by omega, ?_⟩
            · obtain ⟨t, hTt, htk, hx⟩ := hnew j (by omega)
              exact ⟨t, by omega, by omega, hx⟩
            · intro j hj
              obtain ⟨t₂, hTt₂, ht₂, hx₂⟩ := hnew j (by omega)
              by_cases hjt : j = tid
              · subst hjt
                obtain ⟨t₁, hat₁, ht₁, hx₁⟩ := hold j
                refine ⟨t₁, t₂, by omega, by omega, by omega, hx₂, ?_⟩
                exact updates_lt_of_label_ne (fun t ht => hreg t ht j) (by omega) ht₂ (by omega)
                  (Option.some.inj (ho.symm.trans hx₁)) (Option.some.inj (hc.symm.trans hx₂)) hl
              · rw [Function.update_of_ne hjt] at hj
                obtain ⟨t, t', hat, htt, ht', -, hu⟩ := hm j hj
                have := updates_mono e (by omega : t' ≤ t₂) (by omega) j
                exact ⟨t, t₂, hat, by omega, by omega, hx₂, by omega⟩

/-- A scan that returns, returns what the registers held at one moment since its first step. -/
theorem ScanOk.returns (h : ScanOk e a k sc) (hk : k ≤ e.length)
    (few : ∀ i, (e.state e.length).updates i < 2 ^ 31)
    (hreg : ∀ t ≤ k, ∀ j, RegisterOk e t j) (hs : sc.step (e.state k).regs = some (.inr v)) :
    ∃ t, a < t ∧ t ≤ k ∧ Held e t v := by
  cases sc with
  | collectOld i oldCopy => by_cases hi : i < numThread <;> simp [Scan.step, hi] at hs
  | collectNew i oldCopy newCopy moved =>
    obtain ⟨T, haT, hTk, hold, hnew, hm⟩ := h
    by_cases hi : i < numThread
    · simp [Scan.step, hi] at hs
    · simp only [Scan.step, dif_neg hi] at hs
      cases hf : firstMoved oldCopy newCopy (List.finRange numThread) with
      | none => simp [hf] at hs
      | some r =>
        cases r with
        | none =>
          -- all labels agree: no register was stored to between the two collects
          obtain rfl : getValueFromRegisters newCopy = v := by simpa [hf] using hs
          refine ⟨T, haT, hTk, fun j => ?_⟩
          obtain ⟨o, c, ho, hc, hl⟩ := (firstMoved_some hf).2 rfl j (List.mem_finRange j)
          obtain ⟨t₁, hat₁, ht₁, hx₁⟩ := hold j
          obtain ⟨t₂, hTt₂, ht₂, hx₂⟩ := hnew j (by omega)
          obtain rfl := Option.some.inj (ho.symm.trans hx₁)
          obtain rfl := Option.some.inj (hc.symm.trans hx₂)
          have bound : ∀ t ≤ k, (e.state t).updates j < 2 ^ 32 := by
            intro t ht
            have h₁ := updates_mono e (ht.trans hk) (Nat.le_refl _) j
            have h₂ := few j
            omega
          have hu : (e.state t₁).updates j = (e.state t₂).updates j := by
            rw [(hreg t₁ (by omega) j).label, (hreg t₂ ht₂ j).label] at hl
            have hn := congrArg BitVec.toNat hl
            rwa [BitVec.toNat_ofNat, BitVec.toNat_ofNat, Nat.mod_eq_of_lt (bound t₁ (by omega)),
              Nat.mod_eq_of_lt (bound t₂ ht₂)] at hn
          have h₁ := updates_mono e (by omega : t₁ ≤ T) (by omega) j
          have h₂ := updates_mono e hTt₂ (by omega) j
          rw [getValueFromRegisters, hx₂,
            regs_eq_of_updates e hTt₂ (by omega) (by omega : (e.state T).updates j = _)]
          rfl
        | some tid =>
          obtain ⟨o, c, ho, hc, hl⟩ := (firstMoved_some hf).1 tid rfl
          cases hmv : moved tid with
          | false => simp [hf, hmv] at hs
          | true =>
            obtain rfl : c.snap = v := by simpa [hf, hmv, hc] using hs
            obtain ⟨t, t', hat, htt, ht', hx, hu⟩ := hm tid hmv
            obtain ⟨t₂, hTt₂, ht₂, hx₂⟩ := hnew tid (by omega)
            obtain rfl := Option.some.inj (hc.symm.trans hx₂)
            have hlt := updates_lt_of_label_ne (fun t ht => hreg t ht tid) (by omega : t' ≤ t₂) ht₂
              hk (Option.some.inj (ho.symm.trans hx)) rfl hl
            -- the borrowed vector was held one store ago, which is after the first collect
            obtain ⟨m, hm, hheld, hone⟩ := (hreg t₂ ht₂ tid).snap (by omega)
            refine ⟨m, ?_, by omega, hheld⟩
            have := lt_of_updates_lt e (by omega : t ≤ e.length)
              (by omega : (e.state t).updates tid < (e.state m).updates tid)
            omega

theorem Still.step (h : Still e p t k)
    (hs : ∀ q : Fin numThread, q.val = p → (e.state (k + 1)).updates q = (e.state k).updates q) :
    Still e p t (k + 1) := by
  intro q hq
  rw [hs q hq]
  exact h q hq

theorem Still.later (h : Still e p a k) (hat : a ≤ t) (htk : t ≤ k) (hk : k ≤ e.length) :
    Still e p t k := by
  intro q hq
  have h₁ := updates_mono e hat (by omega) q
  have h₂ := updates_mono e htk hk q
  have h₃ := h q hq
  omega

theorem Scanning.prev (h : Scanning e p a (k + 1)) (hak : a ≠ k) : Scanning e p a k := by
  have hb := h.before
  exact ⟨by omega, h.actor, h.first, fun m hm hmk => h.during m hm (by omega)⟩

theorem Scanning.next (h : Scanning e p a k)
    (hs : ∃ job sc, (e.state (k + 1)).phase p = .scanning job sc) : Scanning e p a (k + 1) := by
  have hb := h.before
  refine ⟨by omega, h.actor, h.first, fun m hm hmk => ?_⟩
  by_cases hmk' : m = k + 1
  · subst hmk'
    exact hs
  · exact h.during m hm (by omega)

/-- The invariant of a whole run, at moment `k`. -/
structure Inv (e : Execution (snapshotSystem numThread)) (k : Nat) : Prop where
  registers : ∀ t ≤ k, ∀ i, RegisterOk e t i
  phases : ∀ p, PhaseOk e k p ((e.state k).phase p)

theorem Inv.register (h : Inv e k) (hk : k < e.length) (i : Fin numThread) :
    RegisterOk e (k + 1) i := by
  have old := h.registers k (Nat.le_refl k) i
  rcases step_register (e.steps k hk) i with ⟨hr, hu⟩ | ⟨hi, hu, value, snap, oldValue, hp, hr⟩
  · refine ⟨by rw [hr, hu]; exact old.label, fun hne => ?_⟩
    obtain ⟨t, ht, hheld, hone⟩ := old.snap (by rwa [hu] at hne)
    exact ⟨t, by omega, by rw [hr]; exact hheld, by rw [hu]; exact hone⟩
  · have hph := h.phases (e.label k).pid
    rw [hp] at hph
    obtain ⟨⟨t, ht, hheld, hstill⟩, hold⟩ := hph
    refine ⟨?_, fun _ => ⟨t, by omega, by rw [hr]; exact hheld, by rw [hu, hstill i hi]⟩⟩
    rw [hr, hu, hold i hi, BitVec.ofNat_add, old.label]
    rfl

/-- The other processes know what they knew. -/
theorem Inv.phase_other (h : Inv e k) (hk : k < e.length) (hp : p ≠ (e.label k).pid) :
    PhaseOk e (k + 1) p ((e.state (k + 1)).phase p) := by
  have hs := e.steps k hk
  have old := h.phases p
  have hsame : ∀ q : Fin numThread, q.val = p → (e.state (k + 1)).regs q = (e.state k).regs q ∧
      (e.state (k + 1)).updates q = (e.state k).updates q :=
    fun q hq => step_other hs (by rw [hq]; exact hp)
  have still : ∀ {t}, Still e p t k → Still e p t (k + 1) := fun h => h.step fun q hq => (hsame q hq).2
  rw [step_phase hs hp]
  cases hph : (e.state k).phase p with
  | idle => trivial
  | scanning job sc =>
    rw [hph] at old
    have hnext : (e.state (k + 1)).phase p = .scanning job sc := by rw [step_phase hs hp, hph]
    refine ⟨old.1.imp_right fun ⟨a, ha⟩ => ⟨a, ha.next ⟨job, sc, hnext⟩⟩, fun a ha => ?_⟩
    have hak : a ≠ k := by
      rintro rfl
      exact hp ha.actor.symm
    obtain ⟨hok, hst⟩ := old.2 a (ha.prev hak)
    exact ⟨hok.mono, still hst⟩
  | loadOwn value snap =>
    rw [hph] at old
    obtain ⟨t, ht, hheld, hst⟩ := old
    exact ⟨t, by omega, hheld, still hst⟩
  | storeOwn value snap oldValue =>
    rw [hph] at old
    obtain ⟨⟨t, ht, hheld, hst⟩, hold⟩ := old
    refine ⟨⟨t, by omega, hheld, still hst⟩, fun q hq => ?_⟩
    rw [(hsame q hq).1]
    exact hold q hq

/-- At its own step a scan is either about to take its first one or known since then. -/
theorem Inv.scan_at (h : Inv e k) (hph : (e.state k).phase p = .scanning job sc)
    (ha : Scanning e p a k ∨ a = k ∧ sc = .start) : a ≤ k ∧ ScanOk e a k sc ∧ Still e p a k := by
  have old := h.phases p
  rw [hph] at old
  rcases ha with ha | ⟨rfl, rfl⟩
  · have hb := ha.before
    exact ⟨by omega, old.2 a ha⟩
  · exact ⟨Nat.le_refl _, scanOk_start, fun q _ => rfl⟩

/-- The process that takes the step knows what it has just seen. -/
theorem Inv.phase_self (h : Inv e k) (hk : k < e.length)
    (few : ∀ i, (e.state e.length).updates i < 2 ^ 31) :
    PhaseOk e (k + 1) (e.label k).pid ((e.state (k + 1)).phase (e.label k).pid) := by
  have hs := e.steps k hk
  have old := h.phases (e.label k).pid
  rcases step_cases hs with ⟨job, hph, he, -⟩ | ⟨job, sc, sc', hph, hstep, he, -⟩ |
    ⟨job, sc, v, hph, hstep, he, -⟩ | ⟨value, snap, hl, hph, he, -⟩ |
    ⟨value, snap, oldValue, hl, hph, he, -⟩
  · rw [show (e.state (k + 1)).phase (e.label k).pid = .scanning job .start by
      simp [he, State.goto]]
    refine ⟨.inl rfl, fun a ha => ?_⟩
    by_cases hak : a = k
    · subst hak
      obtain ⟨job', hf⟩ := ha.first
      rw [hph] at hf
      contradiction
    · obtain ⟨job', sc, hd⟩ := (ha.prev hak).during k (ha.prev hak).before (Nat.le_refl k)
      rw [hph] at hd
      contradiction
  · have hnext : (e.state (k + 1)).phase (e.label k).pid = .scanning job sc' := by
      simp [he, State.goto]
    have hregs : (e.state (k + 1)).regs = (e.state k).regs := by rw [he, goto_regs]
    have hupd : (e.state (k + 1)).updates = (e.state k).updates := by rw [he, goto_updates]
    rw [hph] at old
    rw [hnext]
    constructor
    · right
      rcases old.1 with rfl | ⟨a, ha⟩
      · refine ⟨k, Nat.lt_succ_self k, rfl, ⟨job, hph⟩, fun m hm hmk => ?_⟩
        obtain rfl : m = k + 1 := by omega
        exact ⟨job, sc', hnext⟩
      · exact ⟨a, ha.next ⟨job, sc', hnext⟩⟩
    · intro a ha
      have hat : Scanning e (e.label k).pid a k ∨ a = k ∧ sc = .start := by
        by_cases hak : a = k
        · subst hak
          obtain ⟨job', hf⟩ := ha.first
          rw [hph] at hf
          exact .inr ⟨rfl, (Phase.scanning.inj hf).2⟩
        · exact .inl (ha.prev hak)
      obtain ⟨hak, hok, hst⟩ := h.scan_at hph hat
      exact ⟨hok.step hak hk h.registers hstep hregs, hst.step fun q _ => by rw [hupd]⟩
  · rw [show (e.state (k + 1)).phase (e.label k).pid = job.andThen v by simp [he, State.goto]]
    have hupd : (e.state (k + 1)).updates = (e.state k).updates := by rw [he, goto_updates]
    cases job with
    | scan => trivial
    | update value =>
      rw [hph] at old
      rcases old.1 with rfl | ⟨a, ha⟩
      · by_cases hn : 0 < numThread <;> simp [Scan.start, Scan.step, hn] at hstep
      · obtain ⟨hok, hst⟩ := old.2 a ha
        obtain ⟨t, hat, htk, hheld⟩ := hok.returns (by omega) few h.registers hstep
        refine ⟨t, by omega, hheld, ?_⟩
        exact (hst.later (by omega) htk (by omega)).step fun q _ => by rw [hupd]
  · rw [show (e.state (k + 1)).phase (e.label k).pid =
        .storeOwn value snap ((e.state k).regs ⟨(e.label k).pid, hl⟩) by simp [he, State.goto]]
    have hregs : (e.state (k + 1)).regs = (e.state k).regs := by rw [he, goto_regs]
    have hupd : (e.state (k + 1)).updates = (e.state k).updates := by rw [he, goto_updates]
    rw [hph] at old
    obtain ⟨t, ht, hheld, hst⟩ := old
    refine ⟨⟨t, by omega, hheld, hst.step fun q _ => by rw [hupd]⟩, fun q hq => ?_⟩
    rw [hregs]
    congr 1
    exact Fin.ext hq.symm
  · rw [show (e.state (k + 1)).phase (e.label k).pid = .idle by simp [he, State.goto, State.store]]
    trivial

theorem Inv.step (h : Inv e k) (hk : k < e.length)
    (few : ∀ i, (e.state e.length).updates i < 2 ^ 31) : Inv e (k + 1) := by
  constructor
  · intro t ht i
    by_cases htk : t = k + 1
    · subst htk
      exact h.register hk i
    · exact h.registers t (by omega) i
  · intro p
    by_cases hp : p = (e.label k).pid
    · subst hp
      exact h.phase_self hk few
    · exact h.phase_other hk hp

theorem inv_start : Inv e 0 := by
  have h₀ : e.state 0 = .new := e.starts
  constructor
  · intro t ht i
    obtain rfl : t = 0 := by omega
    constructor <;> simp [h₀, State.new, SnapValue.new]
  · intro p
    simp [h₀, State.new, PhaseOk]

theorem inv_run (few : ∀ i, (e.state e.length).updates i < 2 ^ 31) (hk : k ≤ e.length) :
    Inv e k := by
  refine Execution.interval (I := Inv e) (Nat.zero_le k) inv_start ?_
  intro m _ hm ih
  exact ih.step (by omega) few

/-- Every vector that a scan returns, also a scan within an update, was held by the registers
at one moment after the first step of this scan and not after its return. -/
theorem scan_linearizable (e : Execution (snapshotSystem numThread))
    (few : ∀ i, (e.state e.length).updates i < 2 ^ 31) (hb : b < e.length)
    (hr : e.label b = ⟨p, some v⟩) :
    (∃ a, Scanning e p a b) ∧ ∀ a, Scanning e p a b →
      ∃ t, a < t ∧ t ≤ b ∧ ∀ i, v i = ((e.state t).regs i).value := by
  have h : Inv e b := inv_run few (by omega)
  have hpid : (e.label b).pid = p := by rw [hr]
  have hret : (e.label b).returns = some v := by rw [hr]
  have hs := e.steps b hb
  rcases step_cases hs with ⟨_, -, -, hn⟩ | ⟨_, _, _, -, -, -, hn⟩ | ⟨job, sc, v', hph, hstep, -, hn⟩ |
    ⟨_, _, _, -, -, hn⟩ | ⟨_, _, _, _, -, -, hn⟩
  case inr.inr.inl =>
    obtain rfl : v = v' := by simpa [hret] using hn
    rw [hpid] at hph
    have old := h.phases p
    rw [hph] at old
    refine ⟨old.1.resolve_left ?_, fun a ha => (old.2 a ha).1.returns (by omega) few h.registers hstep⟩
    rintro rfl
    by_cases hn : 0 < numThread <;> simp [Scan.start, Scan.step, hn] at hstep
  all_goals simp [hret] at hn

end Run

/-! ### A scan that borrows -/

inductive Move where
  | scan (pid : ProcessId)
  | update (pid : ProcessId) (value : Int)
  | act (pid : ProcessId)

def State.advance (s : State numThread) : Move → Option (State numThread × Label numThread)
  | .scan pid =>
    match s.phase pid with
    | .idle => some (s.goto pid (.scanning .scan .start), ⟨pid, none⟩)
    | _ => none
  | .update pid value =>
    match s.phase pid with
    | .idle => if pid < numThread then some (s.goto pid (.scanning (.update value) .start), ⟨pid, none⟩) else none
    | _ => none
  | .act pid => (s.act pid).map fun (s', result) => (s', ⟨pid, result⟩)

theorem step_advance {s s' : State numThread} {m : Move} {l : Label numThread} (h : s.advance m = some (s', l)) :
    Step s l s' := by
  cases m with
  | scan pid =>
    simp only [State.advance] at h
    split at h
    · cases h
      exact .scan ‹_›
    · cases h
  | update pid value =>
    simp only [State.advance] at h
    split at h
    · obtain ⟨own, ⟨⟩⟩ := Option.ite_none_right_eq_some.mp h
      exact .update value own ‹_›
    · cases h
  | act pid =>
    obtain ⟨⟨t, result⟩, hact, ⟨⟩⟩ := Option.map_eq_some_iff.mp h
    exact .act hact

/-- Process 1 scans; register 0 is stored to twice between its collects, so it returns the vector that
the second update of process 0 has found. -/
def overtaken : List Move :=
  [.scan 1] ++ List.replicate 3 (.act 1) ++ [.update 0 7] ++ List.replicate 8 (.act 0) ++ List.replicate 3 (.act 1) ++
    [.update 0 9] ++ List.replicate 8 (.act 0) ++ List.replicate 3 (.act 1)

theorem scan_linearizable_overtaken : ∃ (e : Execution (snapshotSystem 2)) (v : Fin 2 → Int),
    e.label 27 = ⟨1, some v⟩ ∧ (v 0 = 7 ∧ v 1 = 0) ∧ ((e.state 28).regs 0).value = 9 ∧
    ∃ a t, Scanning e 1 a 27 ∧ a < t ∧ t ≤ 27 ∧ ∀ i, ((e.state t).regs i).value = v i := by
  have hrun : (overtaken.foldlM (fun (s : State 2) m => (s.advance m).map (·.1)) .new).map (fun s =>
      ((s.regs 0).value, s.updates 0, s.updates 1)) = some (9, 2, 0) := by decide +kernel
  have hlast : (((overtaken.take 27).foldlM (fun (s : State 2) m => (s.advance m).map (·.1)) .new).bind fun s =>
      s.advance (.act 1)).map (fun p => (p.2.pid, p.2.returns.map fun v => (v 0, v 1))) =
      some (1, some (7, 0)) := by decide +kernel
  obtain ⟨s, hs, he⟩ := Option.map_eq_some_iff.mp hrun
  have : Nonempty (Label 2) := ⟨⟨0, none⟩⟩
  have hnew : (snapshotSystem 2).init .new := rfl
  obtain ⟨e, hlength, hstates, hlabels⟩ := Execution.of_moves (fun _ _ _ _ h => step_advance h) hnew hs
  have hend : e.state 28 = s := Option.some.inj ((hstates overtaken.length).symm.trans (by rwa [List.take_length]))
  simp only [Prod.mk.injEq] at he
  obtain ⟨hvalue, hzero, hone⟩ := he
  have hstep : (e.state 27).advance (.act 1) = some (e.state 28, e.label 27) := hlabels 27 (by decide)
  rw [hstates 27, Option.bind_some, hstep, Option.map_some] at hlast
  simp only [Option.some.injEq, Prod.mk.injEq, Option.map_eq_some_iff] at hlast
  obtain ⟨hpid, v, hret, hv⟩ := hlast
  have few : ∀ i, (e.state e.length).updates i < 2 ^ 31 := by
    have hfinal : e.length = 28 := hlength
    rw [hfinal, hend, Fin.forall_fin_two, hzero, hone]
    decide
  have hr : e.label 27 = ⟨1, some v⟩ := by rw [← hpid, ← hret]
  obtain ⟨⟨a, ha⟩, h⟩ := scan_linearizable e few (by rw [hlength]; decide) hr
  obtain ⟨t, hat, htb, heq⟩ := h a ha
  exact ⟨e, v, hr, hv, by rw [hend, hvalue], a, t, ha, hat, htb, fun i => (heq i).symm⟩

end Snapshot
