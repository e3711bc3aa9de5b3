import HyuIte4065.PrimeCond.Moves

/-!
# The workers in a round

Where the main thread is decides where the workers can be and what they have stored, and
the steps of the workers keep to it.
-/
namespace PrimeCond

open Mutex State

/-- What the position of the main thread says about the workers. -/
inductive Stage where
  | starting (i : Nat)
  | started (i : Nat)
  | gathered
  | released
  | collected
  | ending

def MainPhase.stage : MainPhase → Stage
  | .create i => .starting i
  | .awaitReady i => .started i
  | .scanStart | .checkStart | .scanEnd | .reset _ | .zeroDone | .lock | .broadcast
  | .setDone | .lockLast | .broadcastLast => .gathered
  | .unlock | .lockMain | .testDone | .wait | .waiting => .released
  | .relockMain | .unlockMain | .collect .. | .print _ | .clearDone => .collected
  | .unlockLast | .join _ | .finished => .ending

/-- The worker has counted itself as done and will wait. -/
def WorkerPhase.parked : WorkerPhase → Bool
  | .checkOrder _ | .lockMain | .signal | .unlockMain | .wait | .waiting => true
  | _ => false

def boundOf (range : Int × Int) : Bound → Int
  | .rangeStart => range.1
  | .rangeEnd => range.2

section
variable (numThread : Nat) (range : Int × Int) (rounds : List (Int × Int)) (tid : Nat)

/-- The worker has stored its counts for these rounds, in order. -/
def UpToDate (stored : List Int) : Prop := stored = rounds.map (share numThread tid)

/-- Only its count for the last round is missing. -/
def Behind (stored : List Int) : Prop :=
  stored ++ [share numThread tid range] = rounds.map (share numThread tid)

/-- A worker while the range is the same for all. -/
def Working (ph : WorkerPhase) (ret : Int) (stored : List Int) : Prop :=
  match ph with
  | .relock | .unlock | .checkDone => Behind numThread range rounds tid stored
  | .split loaded => Behind numThread range rounds tid stored ∧
    loaded = ((loads numThread tid).map (boundOf range)).take loaded.length
  | .count i stop cntPrime => Behind numThread range rounds tid stored ∧
    cntPrime + countPrimes i stop = share numThread tid range
  | .store cntPrime => Behind numThread range rounds tid stored ∧ cntPrime = share numThread tid range
  | .lock | .loadDone | .storeDone _ | .checkOrder _ | .lockMain | .signal | .unlockMain | .wait
  | .waiting => ret = share numThread tid range ∧ UpToDate numThread rounds tid stored
  | _ => False

def Ready (ph : WorkerPhase) (ret : Int) : Prop := (ph = .wait ∨ ph = .waiting) ∧ ret = -1

def WorkerOk (stage : Stage) (ph : WorkerPhase) (ret : Int) (stored : List Int) : Prop :=
  match stage with
  | .starting i => UpToDate numThread rounds tid stored ∧ (tid < i → Ready ph ret) ∧
    (i ≤ tid → ph = .notCreated ∧ ret = 0)
  | .started i => UpToDate numThread rounds tid stored ∧ (tid < i → Ready ph ret) ∧
    (tid = i → (ph = .lockFirst ∨ ph = .storeReady) ∧ ret = 0 ∨ Ready ph ret) ∧
    (i < tid → ph = .notCreated ∧ ret = 0)
  | .gathered => ph.parked = true ∧ UpToDate numThread rounds tid stored
  | .released => Working numThread range rounds tid ph ret stored
  | .collected => ph.parked = true ∧ ret = share numThread tid range ∧ UpToDate numThread rounds tid stored
  | .ending => (ph = .relock ∨ ph = .unlock ∨ ph = .checkDone ∨ ph = .finished) ∧
    UpToDate numThread rounds tid stored

end

def State.range (s : State) : Int × Int := (s.rangeStart, s.rangeEnd)

/-- Where the worker is agrees with where the main thread is. -/
def State.WorkerOk (numThread : Nat) (s : State) (tid : Nat) : Prop :=
  PrimeCond.WorkerOk numThread s.range s.rounds tid s.main.stage (s.worker tid) (s.threadRet tid)
    (s.stored tid)

/-! ### Counting -/

variable {numThread tid : Nat} {s s' : State} {range : Int × Int} {rounds : List (Int × Int)}
  {stored : List Int} {ret : Int} {ph : WorkerPhase}

theorem countPrimes_nil {i stop : Int} (h : ¬ i < stop) : countPrimes i stop = 0 := by
  have hzero : (stop - i).toNat = 0 := by omega
  rw [countPrimes, hzero]
  rfl

theorem countPrimes_cons {i stop : Int} (h : i < stop) :
    countPrimes i stop = (if isPrime i then 1 else 0) + countPrimes (i + 1) stop := by
  have hsucc : (stop - i).toNat = (stop - (i + 1)).toNat + 1 := by omega
  have hshift : (fun j : Nat => isPrime (i + j)) ∘ Nat.succ = fun j : Nat => isPrime (i + 1 + j) := by
    funext j
    have he : i + (j.succ : Int) = i + 1 + j := by push_cast; omega
    rw [Function.comp_apply, he]
  rw [countPrimes, countPrimes, hsucc, List.range_succ_eq_map, List.countP_cons, List.countP_map, hshift]
  by_cases hp : isPrime i = true
  · simp [hp, Int.add_comm]
  · simp [hp]

/-- One more load goes on with the list of all loads. -/
theorem take_load {loaded : List Int} {bound : Bound}
    (h : loaded = ((loads numThread tid).map (boundOf range)).take loaded.length)
    (next : (loads numThread tid)[loaded.length]? = some bound) :
    loaded ++ [boundOf range bound] =
      ((loads numThread tid).map (boundOf range)).take (loaded ++ [boundOf range bound]).length := by
  rw [List.length_append, List.length_singleton, List.take_add_one, ← h, List.getElem?_map, next]
  rfl

/-- When all loads are done, the piece is the share of the worker. -/
theorem split_share {loaded : List Int}
    (h : loaded = ((loads numThread tid).map (boundOf range)).take loaded.length)
    (all : (loads numThread tid)[loaded.length]? = none) :
    ∃ start stop, split numThread tid loaded = some (start, stop) ∧
      countPrimes start stop = share numThread tid range := by
  have hall : loaded = (loads numThread tid).map (boundOf range) := by
    rw [h, List.take_of_length_le]
    rw [List.length_map]
    exact List.getElem?_eq_none_iff.mp all
  rw [hall]
  by_cases hlast : tid = numThread - 1
  · simp only [loads, if_pos hlast, List.cons_append, List.nil_append, List.map_cons, List.map_nil, boundOf,
      split]
    exact ⟨_, _, rfl, by rw [share, if_pos hlast]⟩
  · simp only [loads, if_neg hlast, List.append_nil, List.map_cons, List.map_nil, boundOf, split]
    exact ⟨_, _, rfl, by rw [share, if_neg hlast]⟩

/-! ### Workers within a stage -/

theorem Working.parked (h : Working numThread range rounds tid ph ret stored) (hp : ph.parked = true) :
    ret = share numThread tid range ∧ UpToDate numThread rounds tid stored := by
  cases ph <;> first | exact h | cases hp

theorem working_of_parked (hp : ph.parked = true) (hret : ret = share numThread tid range)
    (hstored : UpToDate numThread rounds tid stored) : Working numThread range rounds tid ph ret stored := by
  cases ph <;> first | exact ⟨hret, hstored⟩ | cases hp

theorem Ready.parked (h : Ready ph ret) : ph.parked = true := by
  rcases h.1 with rfl | rfl <;> rfl

/-- A worker that has finished the round changes nothing but its own position. -/
theorem WorkerMove.parked (h : WorkerMove numThread s tid s') (hp : (s.worker tid).parked = true) :
    (s'.worker tid).parked = true ∧ s'.threadRet tid = s.threadRet tid ∧ s'.stored tid = s.stored tid ∧
      s'.done = s.done := by
  cases h
  case wait => exact ⟨by simp [setWorker, WorkerPhase.parked], rfl, rfl, rfl⟩
  case last => exact ⟨by simp [setWorker, WorkerPhase.parked], rfl, rfl, rfl⟩
  case notLast => exact ⟨by simp [setWorker, WorkerPhase.parked], rfl, rfl, rfl⟩
  case lockMain => exact ⟨by simp [setWorker, WorkerPhase.parked], rfl, rfl, rfl⟩
  case signal => exact ⟨by simp [setWorker, WorkerPhase.parked], rfl, rfl, rfl⟩
  case signalNobody => exact ⟨by simp [setWorker, WorkerPhase.parked], rfl, rfl, rfl⟩
  case unlockMain => exact ⟨by simp [setWorker, WorkerPhase.parked], rfl, rfl, rfl⟩
  all_goals simp_all [WorkerPhase.parked]

theorem WorkerMove.ready (h : WorkerMove numThread s tid s') (hr : Ready (s.worker tid) (s.threadRet tid)) :
    Ready (s'.worker tid) (s'.threadRet tid) := by
  obtain ⟨hw, hret⟩ := hr
  cases h
  case wait => exact ⟨.inr (Function.update_self ..), hret⟩
  all_goals simp_all

/-- One step of the worker within a round. -/
theorem WorkerMove.working (h : WorkerMove numThread s tid s') (goes : s.isDone = false)
    (hok : Working numThread s.range s.rounds tid (s.worker tid) (s.threadRet tid) (s.stored tid)) :
    Working numThread s.range s.rounds tid (s'.worker tid) (s'.threadRet tid) (s'.stored tid) := by
  by_cases hp : (s.worker tid).parked = true
  · obtain ⟨hret, hstored⟩ := hok.parked hp
    obtain ⟨hp', hret', hstored', -⟩ := h.parked hp
    rw [hret', hstored']
    exact working_of_parked hp' hret hstored
  cases h <;> simp only [setWorker, setRet, setMain, Function.update_self]
  case relock here _ => rwa [here] at hok
  case unlock here => rwa [here] at hok
  case enter here _ =>
    rw [here] at hok
    exact ⟨hok, rfl⟩
  case load loaded bound here next =>
    rw [here] at hok
    exact ⟨hok.1, take_load hok.2 next⟩
  case split here all piece =>
    rw [here] at hok
    obtain ⟨start, stop, hpiece, hshare⟩ := split_share hok.2 all
    obtain ⟨rfl, rfl⟩ := Prod.mk.inj (Option.some.inj (piece.symm.trans hpiece))
    exact ⟨hok.1, by rw [hshare, Int.zero_add]⟩
  case count i stop cntPrime here more =>
    rw [here] at hok
    exact ⟨hok.1, by rw [Int.add_assoc, ← countPrimes_cons more]; exact hok.2⟩
  case counted here all =>
    rw [here] at hok
    have hcnt := hok.2
    rw [countPrimes_nil all, Int.add_zero] at hcnt
    exact ⟨hok.1, hcnt⟩
  case store here =>
    rw [here] at hok
    obtain ⟨hbehind, rfl⟩ := hok
    exact ⟨rfl, hbehind⟩
  case lock here _ => rwa [here] at hok
  case loadDone here => rwa [here] at hok
  case storeDone here => rwa [here] at hok
  case leave _ ended => rw [goes] at ended; cases ended
  all_goals simp_all [Working, WorkerPhase.parked]

theorem WorkerMove.created (h : WorkerMove numThread s tid s') : s.worker tid ≠ .notCreated := by
  intro hw
  cases h <;> simp_all only [reduceCtorEq]

theorem WorkerMove.first (h : WorkerMove numThread s tid s')
    (hph : s.worker tid = .lockFirst ∨ s.worker tid = .storeReady) (hret : s.threadRet tid = 0) :
    s'.stored tid = s.stored tid ∧
      ((s'.worker tid = .lockFirst ∨ s'.worker tid = .storeReady) ∧ s'.threadRet tid = 0 ∨
        Ready (s'.worker tid) (s'.threadRet tid)) := by
  cases h
  case lockFirst => exact ⟨rfl, .inl ⟨.inr (Function.update_self ..), hret⟩⟩
  case storeReady => exact ⟨rfl, .inr ⟨.inl (Function.update_self ..), Function.update_self ..⟩⟩
  all_goals simp_all only [reduceCtorEq, or_self]

theorem WorkerMove.ending (h : WorkerMove numThread s tid s') (ended : s.isDone = true)
    (hph : s.worker tid = .relock ∨ s.worker tid = .unlock ∨ s.worker tid = .checkDone ∨
      s.worker tid = .finished) :
    s'.stored tid = s.stored tid ∧ (s'.worker tid = .relock ∨ s'.worker tid = .unlock ∨
      s'.worker tid = .checkDone ∨ s'.worker tid = .finished) := by
  cases h
  case relock => exact ⟨rfl, .inr (.inl (Function.update_self ..))⟩
  case unlock => exact ⟨rfl, .inr (.inr (.inl (Function.update_self ..)))⟩
  case leave => exact ⟨rfl, .inr (.inr (.inr (Function.update_self ..)))⟩
  case enter _ goes => rw [ended] at goes; cases goes
  all_goals simp_all only [reduceCtorEq, or_self]

/-- One step of a worker that does not wake up the main thread. -/
theorem WorkerMove.ok (h : WorkerMove numThread s tid s') (hok : s.WorkerOk numThread tid)
    (goes : s.main.stage = .released → s.isDone = false)
    (ended : s.main.stage = .ending → s.isDone = true) (hmain : s'.main = s.main) :
    s'.WorkerOk numThread tid := by
  have hframe := h.frame
  unfold State.WorkerOk State.range at hok ⊢
  rw [hframe.rangeStart, hframe.rangeEnd, hframe.rounds, hmain]
  cases hstage : s.main.stage with
  | starting i =>
    rw [hstage] at hok
    obtain ⟨hup, hready, hfresh⟩ := hok
    by_cases hlt : tid < i
    · have hr := hready hlt
      exact ⟨by rw [(h.parked hr.parked).2.2.1]; exact hup, fun _ => h.ready hr, fun hle => by omega⟩
    · exact absurd (hfresh (by omega)).1 h.created
  | started i =>
    rw [hstage] at hok
    obtain ⟨hup, hready, hnew, hfresh⟩ := hok
    rcases Nat.lt_trichotomy tid i with hlt | heq | hgt
    · have hr := hready hlt
      exact ⟨by rw [(h.parked hr.parked).2.2.1]; exact hup, fun _ => h.ready hr, fun he => by omega,
        fun hgt => by omega⟩
    · rcases hnew heq with ⟨hph, hret⟩ | hr
      · obtain ⟨hstored, hnext⟩ := h.first hph hret
        exact ⟨by rw [hstored]; exact hup, fun hlt => by omega, fun _ => hnext, fun hgt => by omega⟩
      · exact ⟨by rw [(h.parked hr.parked).2.2.1]; exact hup, fun hlt => by omega, fun _ => .inr (h.ready hr),
          fun hgt => by omega⟩
    · exact absurd (hfresh hgt).1 h.created
  | gathered =>
    rw [hstage] at hok
    obtain ⟨hp, -, hstored, -⟩ := h.parked hok.1
    exact ⟨hp, by rw [hstored]; exact hok.2⟩
  | released =>
    rw [hstage] at hok
    exact h.working (goes hstage) hok
  | collected =>
    rw [hstage] at hok
    obtain ⟨hp, hret, hstored, -⟩ := h.parked hok.1
    exact ⟨hp, by rw [hret, hstored]; exact hok.2⟩
  | ending =>
    rw [hstage] at hok
    obtain ⟨hstored, hph⟩ := h.ending (ended hstage) hok.1
    exact ⟨hph, by rw [hstored]; exact hok.2⟩

end PrimeCond
