import HyuIte4065.Queue.GiantLock
import Mathlib.Algebra.Order.BigOperators.Group.Finset

/-!
# Producers and consumers

`ProducerFunc`, `ConsumerFunc` and `main` of `queue_giantlock.cpp`. The keys that have been put into
the queue are those that have been taken out and those that are still in it, in this order; of each
producer they are its first keys.
-/
namespace GiantLockQueue

open Transition Mutex State

inductive Thread where
  | main
  | worker (tid : Nat)
  deriving DecidableEq, Repr

/-- Where a producer or a consumer is in its loop. -/
inductive WorkPhase where
  | notCreated
  | loop (i : Nat)
  | calling (i : Nat)
  -- a consumer only
  | setFlag (i : Nat) (keyDequeue : Int)
  | finished
  deriving DecidableEq, Repr

inductive MainPhase where
  | create (i : Nat)
  | join (i : Nat)
  | verify (i : Nat)
  | printed (correct : Bool)
  deriving DecidableEq, Repr

structure Program where
  queue : State
  flagVerification : Int → Bool
  work : Nat → WorkPhase
  main : MainPhase

/-- The value of `key_enqueue` in turn `i`. -/
def keyEnqueue (numEnqueue tid i : Nat) : Int := (numEnqueue * tid + i : Nat)

namespace Program

def new : Program := ⟨.initQueue, fun _ => false, fun _ => .notCreated, .create 0⟩

def setWork (s : Program) (tid : Nat) (ph : WorkPhase) : Program :=
  { s with work := Function.update s.work tid ph }

section
variable (numProducer numEnqueue : Nat)

/-- The call of turn `i`. There are as many consumers as producers. -/
def nextOp (tid i : Nat) : Op :=
  if tid < numProducer then .enqueue (keyEnqueue numEnqueue tid i) else .dequeue

/-- One step of `ProducerFunc` or `ConsumerFunc`. -/
def workStep (s : Program) (tid : Nat) : Option Program :=
  match s.work tid with
  | .notCreated => none
  | .loop i =>
    if i < numEnqueue then
      some { s.setWork tid (.calling i) with
        queue := s.queue.goto tid (start (nextOp numProducer numEnqueue tid i)) }
    else some (s.setWork tid .finished)
  | .calling i =>
    match s.queue.phase tid with
    | .done none => some { s.setWork tid (.loop (i + 1)) with queue := s.queue.goto tid .idle }
    | .done (some key) => some { s.setWork tid (.setFlag i key) with queue := s.queue.goto tid .idle }
    | _ => (s.queue.act tid).map fun queue => { s with queue := queue }
  | .setFlag i keyDequeue =>
    some { s.setWork tid (.loop (i + 1)) with
      flagVerification := Function.update s.flagVerification keyDequeue true }
  | .finished => none

/-- One step of `main`. -/
def mainStep (s : Program) : Option Program :=
  match s.main with
  | .create i =>
    if i < 2 * numProducer then some { s.setWork i (.loop 0) with main := .create (i + 1) }
    else some { s with main := .join 0 }
  | .join i =>
    if i < 2 * numProducer then
      if s.work i = .finished then some { s with main := .join (i + 1) } else none
    else some { s with main := .verify 0 }
  | .verify i =>
    if i < numProducer * numEnqueue then
      if s.flagVerification i = false then some { s with main := .printed false }
      else some { s with main := .verify (i + 1) }
    else some { s with main := .printed true }
  | .printed _ => none

def step (s : Program) : Thread → Option Program
  | .main => s.mainStep numProducer numEnqueue
  | .worker tid => s.workStep numProducer numEnqueue tid

def programSystem : System Program Thread where
  init s := s = .new
  step s t s' := s.step numProducer numEnqueue t = some s'

end

/-- How many of its calls have taken effect. -/
def effects (numEnqueue : Nat) (s : Program) (tid : Nat) : Nat :=
  match s.work tid with
  | .notCreated => 0
  | .loop i => i
  | .calling i => match (s.queue.phase tid).status with | .done _ => i + 1 | _ => i
  | .setFlag i _ => i + 1
  | .finished => numEnqueue

/-- A consumer has taken the key out and has not set its flag yet. -/
def Carries (s : Program) (tid : Nat) (key : Int) : Prop :=
  (∃ i, s.work tid = .setFlag i key) ∨ (s.queue.phase tid).status = .done (some key)

end Program

open Program

/-- Of each key that has been taken out the flag is set, or one consumer still has it. -/
structure Held (s : Program) (received : List Int) : Prop where
  recorded : ∀ key ∈ received, s.flagVerification key = true ∨ ∃ tid, s.Carries tid key
  flagged : ∀ key, s.flagVerification key = true → key ∈ received
  carried : ∀ tid key, s.Carries tid key → key ∈ received ∧ s.flagVerification key = false
  alone : ∀ t u key, s.Carries t key → s.Carries u key → t = u

section
variable (numProducer numEnqueue : Nat)

/-- What has been put into the queue and what has been taken out. -/
structure History (s : Program) (enqueued received : List Int) : Prop where
  split : enqueued = received ++ s.queue.keys
  rear : s.queue.rear.toNat = enqueued.length
  sent : ∀ p < numProducer, enqueued.filter (fun key : Int => key / (numEnqueue : Int) = (p : Int)) =
    (List.range (s.effects numEnqueue p)).map (keyEnqueue numEnqueue p)
  keys : ∀ key ∈ enqueued, ∃ p < numProducer, ∃ j < numEnqueue, key = keyEnqueue numEnqueue p j
  enqueues : enqueued.length = ∑ p ∈ Finset.range numProducer, s.effects numEnqueue p
  dequeues : received.length = ∑ p ∈ Finset.range numProducer, s.effects numEnqueue (numProducer + p)
  held : Held s received

/-- What the call of turn `i` may have come to. -/
def CallOk (tid i : Nat) : Atomic.Status Op (Option Int) → Prop
  | .idle => False
  | .called op => op = nextOp numProducer numEnqueue tid i
  | .done none => tid < numProducer
  | .done (some _) => numProducer ≤ tid

def WorkOk (tid : Nat) (ph : Phase) : WorkPhase → Prop
  | .notCreated => ph = .idle
  | .loop i => ph = .idle ∧ i ≤ numEnqueue ∧ tid < 2 * numProducer
  | .calling i => i < numEnqueue ∧ tid < 2 * numProducer ∧ CallOk numProducer numEnqueue tid i ph.status
  | .setFlag i _ => ph = .idle ∧ i < numEnqueue ∧ tid < 2 * numProducer ∧ numProducer ≤ tid
  | .finished => ph = .idle ∧ tid < 2 * numProducer

/-- All threads that there are have ended. -/
def AllDone (s : Program) : Prop :=
  (∀ tid < 2 * numProducer, s.work tid = .finished) ∧ ∀ tid, 2 * numProducer ≤ tid → s.work tid = .notCreated

/-- What the main thread has seen. -/
def MainOk (s : Program) : MainPhase → Prop
  | .create i => i ≤ 2 * numProducer ∧ ∀ tid, s.work tid = .notCreated ↔ i ≤ tid
  | .join i => (∀ tid, s.work tid = .notCreated ↔ 2 * numProducer ≤ tid) ∧
    ∀ tid < i, tid < 2 * numProducer → s.work tid = .finished
  | .verify _ => AllDone numProducer s
  | .printed correct => correct = true ∧ AllDone numProducer s

structure ProgramInv (s : Program) : Prop where
  queue : Inv s.queue
  work : ∀ tid, WorkOk numProducer numEnqueue tid (s.queue.phase tid) (s.work tid)
  main : MainOk numProducer s s.main
  history : ∃ enqueued received, History numProducer numEnqueue s enqueued received

end

variable {numProducer numEnqueue : Nat} {s s' : Program} {tid u : Nat} {enqueued received : List Int}

theorem Held.congr (h : Held s received) (hflag : s'.flagVerification = s.flagVerification)
    (hcarries : ∀ u key, s'.Carries u key ↔ s.Carries u key) : Held s' received where
  recorded key hkey := by simpa only [hflag, hcarries] using h.recorded key hkey
  flagged key hkey := h.flagged key (hflag ▸ hkey)
  carried u key hkey := hflag ▸ h.carried u key ((hcarries u key).mp hkey)
  alone t u key ht hu := h.alone t u key ((hcarries t key).mp ht) ((hcarries u key).mp hu)

/-- A consumer sets the flag of its key. -/
theorem Held.record (h : Held s received) {key : Int} (hkey : ∀ k, s.Carries tid k ↔ k = key)
    (hflag : s'.flagVerification = Function.update s.flagVerification key true)
    (hothers : ∀ u ≠ tid, ∀ k, s'.Carries u k ↔ s.Carries u k) (hnone : ∀ k, ¬ s'.Carries tid k) :
    Held s' received where
  recorded k hk := by
    rw [hflag]
    by_cases hkk : k = key
    · rw [hkk, Function.update_self]
      exact .inl rfl
    · rw [Function.update_of_ne hkk]
      refine (h.recorded k hk).imp id fun ⟨u, hu⟩ => ⟨u, (hothers u ?_ k).mpr hu⟩
      rintro rfl
      exact hkk ((hkey k).mp hu)
  flagged k hk := by
    rw [hflag] at hk
    by_cases hkk : k = key
    · exact hkk ▸ (h.carried tid key ((hkey key).mpr rfl)).1
    · rw [Function.update_of_ne hkk] at hk
      exact h.flagged k hk
  carried u k hu := by
    have hut : u ≠ tid := by
      rintro rfl
      exact hnone k hu
    have hold := (hothers u hut k).mp hu
    have hkk : k ≠ key := by
      rintro rfl
      exact hut (h.alone u tid k hold ((hkey k).mpr rfl))
    rw [hflag, Function.update_of_ne hkk]
    exact h.carried u k hold
  alone t u k ht hu := by
    have hne : ∀ v, s'.Carries v k → v ≠ tid := by
      rintro v hv rfl
      exact hnone k hv
    exact h.alone t u k ((hothers t (hne t ht) k).mp ht) ((hothers u (hne u hu) k).mp hu)

/-- A consumer takes a key out that nobody has taken out before. -/
theorem Held.take (h : Held s received) {key : Int} (fresh : key ∉ received)
    (hflag : s'.flagVerification = s.flagVerification) (hkey : ∀ k, s'.Carries tid k ↔ k = key)
    (hothers : ∀ u ≠ tid, ∀ k, s'.Carries u k ↔ s.Carries u k) (hnone : ∀ k, ¬ s.Carries tid k) :
    Held s' (received ++ [key]) where
  recorded k hk := by
    rw [hflag]
    rcases List.mem_append.mp hk with hk | hk
    · refine (h.recorded k hk).imp id fun ⟨u, hu⟩ => ⟨u, (hothers u ?_ k).mpr hu⟩
      rintro rfl
      exact hnone k hu
    · exact .inr ⟨tid, (hkey k).mpr (List.mem_singleton.mp hk)⟩
  flagged k hk := List.mem_append_left _ (h.flagged k (hflag ▸ hk))
  carried u k hu := by
    rw [hflag]
    by_cases hut : u = tid
    · obtain rfl := (hkey k).mp (hut ▸ hu)
      exact ⟨List.mem_append_right _ List.mem_cons_self,
        Bool.eq_false_iff.mpr fun hk => fresh (h.flagged k hk)⟩
    · have hold := h.carried u k ((hothers u hut k).mp hu)
      exact ⟨List.mem_append_left _ hold.1, hold.2⟩
  alone t u k ht hu := by
    have hmine : ∀ v, v ≠ tid → s'.Carries v k → k ≠ key := by
      rintro v hv hvk rfl
      exact fresh (h.carried v k ((hothers v hv k).mp hvk)).1
    by_cases htt : t = tid
    · by_cases hut : u = tid
      · rw [htt, hut]
      · exact absurd ((hkey k).mp (htt ▸ ht)) (hmine u hut hu)
    · by_cases hut : u = tid
      · exact absurd ((hkey k).mp (hut ▸ hu)) (hmine t htt ht)
      · exact h.alone t u k ((hothers t htt k).mp ht) ((hothers u hut k).mp hu)

/-- A step of which neither the queue nor the threads notice anything. -/
theorem History.congr (h : History numProducer numEnqueue s enqueued received)
    (hkeys : s'.queue.keys = s.queue.keys) (hrear : s'.queue.rear = s.queue.rear)
    (heffects : ∀ u, s'.effects numEnqueue u = s.effects numEnqueue u) (held : Held s' received) :
    History numProducer numEnqueue s' enqueued received where
  split := by rw [h.split, hkeys]
  rear := by rw [hrear, h.rear]
  sent p hp := by rw [heffects, h.sent p hp]
  keys := h.keys
  enqueues := by simp only [heffects, h.enqueues]
  dequeues := by simp only [heffects, h.dequeues]
  held := held

theorem effects_of_ne (hwork : s'.work u = s.work u) (hphase : s'.queue.phase u = s.queue.phase u) :
    s'.effects numEnqueue u = s.effects numEnqueue u := by
  rw [effects, effects, hwork, hphase]

theorem carries_of_ne (hwork : s'.work u = s.work u) (hphase : s'.queue.phase u = s.queue.phase u) (key : Int) :
    s'.Carries u key ↔ s.Carries u key := by
  rw [Carries, Carries, hwork, hphase]

theorem keyEnqueue_div {p j : Nat} (hj : j < numEnqueue) :
    keyEnqueue numEnqueue p j / (numEnqueue : Int) = p := by
  rw [keyEnqueue, ← Int.natCast_div, Nat.mul_add_div (Nat.zero_lt_of_lt hj), Nat.div_eq_of_lt hj, Nat.add_zero]

theorem keyEnqueue_lt {p j : Nat} (hp : p < numProducer) (hj : j < numEnqueue) :
    keyEnqueue numEnqueue p j < (numProducer * numEnqueue : Nat) := by
  rw [keyEnqueue, Int.ofNat_lt]
  calc numEnqueue * p + j < numEnqueue * (p + 1) := by rw [Nat.mul_succ]; omega
    _ ≤ numEnqueue * numProducer := Nat.mul_le_mul_left _ hp
    _ = numProducer * numEnqueue := Nat.mul_comm ..

theorem ProgramInv.effects_le (hi : ProgramInv numProducer numEnqueue s) (u : Nat) :
    s.effects numEnqueue u ≤ numEnqueue := by
  have hwork := hi.work u
  unfold effects
  cases hw : s.work u <;> rw [hw] at hwork
  case notCreated => exact Nat.zero_le _
  case loop => exact hwork.2.1
  case calling =>
    have hlt := hwork.1
    simp only
    split <;> omega
  case setFlag => exact hwork.2.1

theorem ProgramInv.few (total : numProducer * numEnqueue + queueSize < 2 ^ 64)
    (hi : ProgramInv numProducer numEnqueue s) : s.queue.Few := by
  obtain ⟨enqueued, received, hh⟩ := hi.history
  have hle : enqueued.length ≤ numProducer * numEnqueue := by
    rw [hh.enqueues]
    refine (Finset.sum_le_card_nsmul _ _ numEnqueue fun p _ => hi.effects_le p).trans ?_
    rw [Finset.card_range, Nat.nsmul_eq_mul]
  rw [State.Few, hh.rear]
  omega

/-- A thread that is not in a call, or whose call has just begun or is over, goes on. -/
theorem ProgramInv.goto (hi : ProgramInv numProducer numEnqueue s) {ph : Phase} {w : WorkPhase}
    {flag : Int → Bool} (hfree : (s.queue.phase tid).holds = false) (hfree' : ph.holds = false)
    (hwork : WorkOk numProducer numEnqueue tid ph w)
    (hcreated : w ≠ .notCreated) (hold : s.work tid ≠ .notCreated) (hend : s.work tid ≠ .finished)
    (heffects : effects numEnqueue
      ⟨s.queue.goto tid ph, flag, Function.update s.work tid w, s.main⟩ tid = s.effects numEnqueue tid)
    (held : ∀ received, Held s received →
      Held ⟨s.queue.goto tid ph, flag, Function.update s.work tid w, s.main⟩ received) :
    ProgramInv numProducer numEnqueue
      ⟨s.queue.goto tid ph, flag, Function.update s.work tid w, s.main⟩ where
  queue := hi.queue.outside hfree hfree'
  work u := by
    by_cases hu : u = tid
    · subst hu
      simpa only [State.goto, Function.update_self] using hwork
    · simpa only [State.goto, Function.update_of_ne hu] using hi.work u
  main := by
    have hmain := hi.main
    have hnot : ∀ u, Function.update s.work tid w u = .notCreated ↔ s.work u = .notCreated := by
      intro u
      by_cases hu : u = tid
      · subst hu
        simp only [Function.update_self, hcreated, hold]
      · rw [Function.update_of_ne hu]
    have hdone : ∀ u, s.work u = .finished → Function.update s.work tid w u = .finished := by
      intro u hw
      rwa [Function.update_of_ne]
      rintro rfl
      exact hend hw
    cases hm : s.main <;> rw [hm] at hmain
    case create i => exact ⟨hmain.1, fun u => (hnot u).trans (hmain.2 u)⟩
    case join i => exact ⟨fun u => (hnot u).trans (hmain.1 u), fun u hlt hu => hdone u (hmain.2 u hlt hu)⟩
    case verify i => exact ⟨fun u hu => hdone u (hmain.1 u hu), fun u hu => (hnot u).mpr (hmain.2 u hu)⟩
    case printed correct =>
      exact ⟨hmain.1, fun u hu => hdone u (hmain.2.1 u hu), fun u hu => (hnot u).mpr (hmain.2.2 u hu)⟩
  history := by
    obtain ⟨enqueued, received, hh⟩ := hi.history
    refine ⟨enqueued, received, hh.congr rfl rfl (fun u => ?_) (held received hh.held)⟩
    by_cases hu : u = tid
    · subst hu
      exact heffects
    · exact effects_of_ne (Function.update_of_ne hu _ _) (Function.update_of_ne hu _ _)

/-- The thread goes on with the key that it had, or with none. -/
theorem Held.goto (h : Held s received) {ph : Phase} {w : WorkPhase}
    (hsame : ∀ key, (∃ i, w = .setFlag i key) ∨ ph.status = .done (some key) ↔ s.Carries tid key) :
    Held ⟨s.queue.goto tid ph, s.flagVerification, Function.update s.work tid w, s.main⟩ received := by
  refine h.congr rfl fun u key => ?_
  by_cases hu : u = tid
  · subst hu
    simpa only [Carries, State.goto, Function.update_self] using hsame key
  · exact carries_of_ne (Function.update_of_ne hu _ _) (Function.update_of_ne hu _ _) key

/-- What the status of a call says about its turn. -/
theorem effects_calling {i : Nat} (hw : s.work tid = .calling i) : s.effects numEnqueue tid =
    match s.queue.view.status tid with | .done _ => i + 1 | _ => i := by
  rw [effects, hw]
  rfl

theorem sum_update {f g : Nat → Nat} {n k : Nat} (hk : k < n) (hsame : ∀ p ≠ k, g p = f p) (hone : g k = f k + 1) :
    ∑ p ∈ Finset.range n, g p = ∑ p ∈ Finset.range n, f p + 1 := by
  have hmem : k ∈ Finset.range n := Finset.mem_range.mpr hk
  rw [← Finset.sum_erase_add _ _ hmem, ← Finset.sum_erase_add (Finset.range n) f hmem, hone, Nat.add_assoc]
  refine congrArg (· + (f k + 1)) (Finset.sum_congr rfl fun p hp => hsame p (Finset.ne_of_mem_erase hp))

theorem view_status (s : State) (tid : Nat) : (s.phase tid).status = s.view.status tid := rfl

theorem of_nextOp_enqueue {i : Nat} {key : Int} (h : Op.enqueue key = nextOp numProducer numEnqueue tid i) :
    tid < numProducer ∧ key = keyEnqueue numEnqueue tid i := by
  unfold nextOp at h
  split at h
  case isTrue hp => exact ⟨hp, Op.enqueue.inj h⟩
  case isFalse => cases h

theorem of_nextOp_dequeue {i : Nat} (h : Op.dequeue = nextOp numProducer numEnqueue tid i) :
    numProducer ≤ tid := by
  unfold nextOp at h
  split at h
  case isTrue => cases h
  case isFalse hp => exact Nat.not_lt.mp hp

theorem keyEnqueue_injective (numEnqueue p : Nat) : Function.Injective (keyEnqueue numEnqueue p) := by
  intro i j h
  exact Nat.add_left_cancel (Int.ofNat.inj h)

/-- No key is put in twice. -/
theorem History.nodup (hh : History numProducer numEnqueue s enqueued received) : enqueued.Nodup := by
  refine List.nodup_iff_count_le_one.mpr fun key => ?_
  by_cases hmem : key ∈ enqueued
  · obtain ⟨p, hp, j, hj, rfl⟩ := hh.keys key hmem
    have hmine : decide (keyEnqueue numEnqueue p j / (numEnqueue : Int) = (p : Int)) = true :=
      decide_eq_true (keyEnqueue_div hj)
    rw [← List.count_filter (p := fun key : Int => decide (key / (numEnqueue : Int) = (p : Int))) hmine,
      hh.sent p hp]
    exact List.nodup_iff_count_le_one.mp (List.nodup_range.map (keyEnqueue_injective numEnqueue p)) _
  · rw [List.count_eq_zero_of_not_mem hmem]
    exact Nat.zero_le 1

/-- Inside a call the status says which key the thread has. -/
theorem carries_calling {i : Nat} (hw : s.work tid = .calling i) (key : Int) :
    s.Carries tid key ↔ s.queue.view.status tid = .done (some key) := by
  rw [Carries, hw, view_status]
  exact or_iff_right fun ⟨_, h⟩ => WorkPhase.noConfusion h

theorem carries_queue_of_ne {queue : State} {st : Atomic.Status Op (Option Int)}
    (hstatus : queue.view.status = Function.update s.queue.view.status tid st) (hu : u ≠ tid) (key : Int) :
    Carries { s with queue := queue } u key ↔ s.Carries u key := by
  rw [Carries, Carries, view_status, hstatus, Function.update_of_ne hu]
  rfl

/-- A call puts its key in. -/
theorem History.enqueue (hh : History numProducer numEnqueue s enqueued received)
    (hi : ProgramInv numProducer numEnqueue s) {i : Nat} {key : Int} {queue : State}
    (hw : s.work tid = .calling i) (called : s.queue.view.status tid = .called (.enqueue key))
    (hview : queue.view = ⟨s.queue.keys ++ [key], Function.update s.queue.view.status tid (.done none)⟩)
    (hrear : queue.rear.toNat = s.queue.rear.toNat + 1) :
    History numProducer numEnqueue { s with queue := queue } (enqueued ++ [key]) received := by
  have hkeys : queue.keys = s.queue.keys ++ [key] := congrArg Atomic.State.value hview
  have hstatus : queue.view.status = Function.update s.queue.view.status tid (.done none) :=
    congrArg Atomic.State.status hview
  have hwork := hi.work tid
  rw [hw] at hwork
  obtain ⟨hlt, -, hcall⟩ := hwork
  rw [view_status, called] at hcall
  obtain ⟨hp, rfl⟩ := of_nextOp_enqueue hcall
  have hold : s.effects numEnqueue tid = i := by
    rw [effects_calling hw, called]
  have hnew : effects numEnqueue { s with queue := queue } tid = i + 1 := by
    rw [effects_calling (show Program.work { s with queue := queue } tid = _ from hw), hstatus, Function.update_self]
  have hsame : ∀ u ≠ tid, effects numEnqueue { s with queue := queue } u = s.effects numEnqueue u := by
    intro u hu
    unfold effects
    cases hwu : s.work u <;> try rfl
    simp only [view_status, hstatus, Function.update_of_ne hu]
  refine ⟨?_, ?_, fun p hpn => ?_, fun k hk => ?_, ?_, ?_, hh.held.congr rfl fun u k => ?_⟩
  · rw [hkeys, hh.split, List.append_assoc]
  · rw [hrear, hh.rear, List.length_append, List.length_singleton]
  · rw [List.filter_append, hh.sent p hpn]
    by_cases hpt : p = tid
    · subst hpt
      rw [hnew, hold, List.range_succ, List.map_append, List.filter_singleton, keyEnqueue_div hlt]
      simp
    · rw [hsame p hpt, List.filter_singleton, keyEnqueue_div hlt]
      simp [show (tid : Int) ≠ p from fun he => hpt (Int.ofNat.inj he).symm]
  · rcases List.mem_append.mp hk with hk | hk
    · exact hh.keys k hk
    · exact ⟨tid, hp, i, hlt, List.mem_singleton.mp hk⟩
  · rw [List.length_append, List.length_singleton, hh.enqueues]
    exact (sum_update hp hsame (by rw [hnew, hold])).symm
  · rw [hh.dequeues]
    exact Finset.sum_congr rfl fun p _ => (hsame (numProducer + p) (by omega)).symm
  · by_cases hu : u = tid
    · subst hu
      rw [carries_calling hw, carries_calling (show Program.work { s with queue := queue } u = _ from hw), hstatus,
        Function.update_self, called]
      exact iff_of_false nofun nofun
    · exact carries_queue_of_ne hstatus hu k

/-- A call takes the first key out. -/
theorem History.dequeue (hh : History numProducer numEnqueue s enqueued received)
    (hi : ProgramInv numProducer numEnqueue s) {i : Nat} {key : Int} {keys : List Int} {queue : State}
    (hw : s.work tid = .calling i) (called : s.queue.view.status tid = .called .dequeue)
    (first : s.queue.keys = key :: keys)
    (hview : queue.view = ⟨keys, Function.update s.queue.view.status tid (.done (some key))⟩)
    (hrear : queue.rear = s.queue.rear) :
    History numProducer numEnqueue { s with queue := queue } enqueued (received ++ [key]) := by
  have hkeys : queue.keys = keys := congrArg Atomic.State.value hview
  have hstatus : queue.view.status = Function.update s.queue.view.status tid (.done (some key)) :=
    congrArg Atomic.State.status hview
  have hwork := hi.work tid
  rw [hw] at hwork
  obtain ⟨hlt, htid, hcall⟩ := hwork
  rw [view_status, called] at hcall
  have hcons := of_nextOp_dequeue hcall
  have hold : s.effects numEnqueue tid = i := by
    rw [effects_calling hw, called]
  have hnew : effects numEnqueue { s with queue := queue } tid = i + 1 := by
    rw [effects_calling (show Program.work { s with queue := queue } tid = _ from hw), hstatus, Function.update_self]
  have hsame : ∀ u ≠ tid, effects numEnqueue { s with queue := queue } u = s.effects numEnqueue u := by
    intro u hu
    unfold effects
    cases hwu : s.work u <;> try rfl
    simp only [view_status, hstatus, Function.update_of_ne hu]
  have hnodup := hh.nodup
  rw [hh.split, first] at hnodup
  have fresh : key ∉ received := fun hmem => List.disjoint_of_nodup_append hnodup hmem List.mem_cons_self
  refine ⟨?_, ?_, fun p hpn => ?_, hh.keys, ?_, ?_, hh.held.take fresh rfl (fun k => ?_)
    (fun u hu k => carries_queue_of_ne hstatus hu k) fun k => ?_⟩
  · rw [hkeys, hh.split, first, List.append_assoc]
    rfl
  · rw [hrear, hh.rear]
  · rw [hh.sent p hpn, hsame p (by omega)]
  · rw [hh.enqueues]
    exact Finset.sum_congr rfl fun p hp => (hsame p (by have := Finset.mem_range.mp hp; omega)).symm
  · rw [List.length_append, List.length_singleton, hh.dequeues]
    refine (sum_update (k := tid - numProducer) (by omega) (fun p hp => hsame _ (by omega)) ?_).symm
    rw [show numProducer + (tid - numProducer) = tid by omega, hnew, hold]
  · rw [carries_calling (show Program.work { s with queue := queue } tid = _ from hw), hstatus, Function.update_self]
    exact ⟨fun h => (Option.some.inj (Atomic.Status.done.inj h)).symm, fun h => by rw [h]⟩
  · rw [carries_calling hw, called]
    exact nofun

/-- A step of a call. -/
theorem ProgramInv.act (total : numProducer * numEnqueue + queueSize < 2 ^ 64)
    (hi : ProgramInv numProducer numEnqueue s) {i : Nat} {queue : State} (hw : s.work tid = .calling i)
    (h : s.queue.act tid = some queue) : ProgramInv numProducer numEnqueue { s with queue := queue } := by
  obtain ⟨hinv, heffect⟩ := hi.queue.act (hi.few total) h
  obtain ⟨enqueued, received, hh⟩ := hi.history
  have hothers : ∀ u ≠ tid, queue.phase u = s.queue.phase u := fun u hu => act_phase h hu
  have hcall := hi.work tid
  rw [hw] at hcall
  obtain ⟨hlt, htid, hcall⟩ := hcall
  have hwork : ∀ (st : Atomic.Status Op (Option Int)), queue.view.status tid = st →
      CallOk numProducer numEnqueue tid i st →
      ∀ u, WorkOk numProducer numEnqueue u (queue.phase u) (s.work u) := by
    intro st hst hok u
    by_cases hu : u = tid
    · subst hu
      rw [hw]
      refine ⟨hlt, htid, ?_⟩
      rw [view_status, hst]
      exact hok
    · rw [hothers u hu]
      exact hi.work u
  cases heffect with
  | quiet hview hrear =>
    have hstatus : queue.view.status = s.queue.view.status := congrArg Atomic.State.status hview
    refine ⟨hinv, hwork _ rfl (by rw [hstatus]; exact hcall), hi.main, enqueued, received, ?_⟩
    refine hh.congr (congrArg Atomic.State.value hview) hrear (fun u => ?_) (hh.held.congr rfl fun u key => ?_)
    · unfold effects
      cases hwu : s.work u <;> try rfl
      simp only [view_status, hstatus]
    · rw [Carries, Carries, view_status, hstatus]
      rfl
  | enqueue key called room hview hrear =>
    have hstatus : queue.view.status tid = .done none := by rw [hview]; exact Function.update_self ..
    rw [view_status, called] at hcall
    exact ⟨hinv, hwork _ hstatus (of_nextOp_enqueue hcall).1, hi.main, _, _,
      hh.enqueue hi hw called hview hrear⟩
  | dequeue key keys called first hview hrear =>
    have hstatus : queue.view.status tid = .done (some key) := by rw [hview]; exact Function.update_self ..
    rw [view_status, called] at hcall
    exact ⟨hinv, hwork _ hstatus (of_nextOp_dequeue hcall), hi.main, _, _,
      hh.dequeue hi hw called first hview hrear⟩

/-- A thread that is in no call goes on. -/
theorem ProgramInv.turn (hi : ProgramInv numProducer numEnqueue s) {w : WorkPhase} {flag : Int → Bool}
    (hidle : s.queue.phase tid = .idle) (hwork : WorkOk numProducer numEnqueue tid .idle w)
    (hcreated : w ≠ .notCreated) (hold : s.work tid ≠ .notCreated) (hend : s.work tid ≠ .finished)
    (heffects : effects numEnqueue ⟨s.queue, flag, Function.update s.work tid w, s.main⟩ tid =
      s.effects numEnqueue tid)
    (held : ∀ received, Held s received → Held ⟨s.queue, flag, Function.update s.work tid w, s.main⟩ received) :
    ProgramInv numProducer numEnqueue ⟨s.queue, flag, Function.update s.work tid w, s.main⟩ := by
  have hsame : s.queue.goto tid .idle = s.queue := by
    rw [State.goto, ← hidle, Function.update_eq_self]
  rw [← hsame] at heffects held ⊢
  exact hi.goto (by rw [hidle]; rfl) rfl hwork hcreated hold hend heffects held

theorem ProgramInv.step_work (total : numProducer * numEnqueue + queueSize < 2 ^ 64)
    (hi : ProgramInv numProducer numEnqueue s) (h : s.workStep numProducer numEnqueue tid = some s') :
    ProgramInv numProducer numEnqueue s' := by
  have hwork := hi.work tid
  unfold Program.workStep at h
  split at h <;> rename_i hw
  case h_1 => cases h
  case h_2 i =>
    rw [hw] at hwork
    obtain ⟨hidle, hle, htid⟩ := hwork
    split at h <;> cases h
    case isTrue hlt =>
      have hstart : (start (nextOp numProducer numEnqueue tid i)).holds = false := by
        unfold nextOp
        split <;> rfl
      have hstatus : (start (nextOp numProducer numEnqueue tid i)).status =
          .called (nextOp numProducer numEnqueue tid i) := by
        unfold nextOp
        split <;> rfl
      refine hi.goto (by rw [hidle]; rfl) hstart ⟨hlt, htid, by rw [hstatus]; rfl⟩ WorkPhase.noConfusion
        (by rw [hw]; exact WorkPhase.noConfusion) (by rw [hw]; exact WorkPhase.noConfusion) ?_
        fun received hheld => hheld.goto fun key => ?_
      · simp only [effects, hw, State.goto, Function.update_self, hstatus]
      · have hnone : (s.queue.phase tid).status = .idle := by rw [hidle]; rfl
        simp [Carries, hw, hnone, hstatus]
    case isFalse hge =>
      refine hi.turn hidle ⟨rfl, htid⟩ WorkPhase.noConfusion (by rw [hw]; exact WorkPhase.noConfusion)
        (by rw [hw]; exact WorkPhase.noConfusion) ?_ fun received hheld => hheld.congr rfl fun u key => ?_
      · simp only [effects, hw, Function.update_self]
        omega
      · by_cases hu : u = tid
        · subst hu
          simp [Carries, hw]
        · simp only [Carries, Function.update_of_ne hu]
  case h_3 i =>
    rw [hw] at hwork
    obtain ⟨hlt, htid, hcall⟩ := hwork
    split at h <;> rename_i hph
    case h_1 =>
      cases h
      refine hi.goto (by rw [hph]; rfl) rfl ⟨rfl, hlt, htid⟩ WorkPhase.noConfusion
        (by rw [hw]; exact WorkPhase.noConfusion) (by rw [hw]; exact WorkPhase.noConfusion) ?_
        fun received hheld => hheld.goto fun key => ?_
      · simp only [effects, hw, hph, Function.update_self, Phase.status]
      · simp [Carries, hw, hph, Phase.status]
    case h_2 key =>
      cases h
      rw [hph] at hcall
      refine hi.goto (by rw [hph]; rfl) rfl ⟨rfl, hlt, htid, hcall⟩ WorkPhase.noConfusion
        (by rw [hw]; exact WorkPhase.noConfusion) (by rw [hw]; exact WorkPhase.noConfusion) ?_
        fun received hheld => hheld.goto fun k => ?_
      · simp only [effects, hw, hph, Function.update_self, Phase.status]
      · simp [Carries, hw, hph, Phase.status]
    case h_3 =>
      obtain ⟨queue, hact, rfl⟩ := Option.map_eq_some_iff.mp h
      exact hi.act total hw hact
  case h_4 i key =>
    rw [hw] at hwork
    obtain ⟨hidle, hlt, htid, -⟩ := hwork
    cases h
    have hkey : ∀ k, s.Carries tid k ↔ k = key := by
      intro k
      simp [Carries, hw, hidle, Phase.status, eq_comm]
    refine hi.turn hidle ⟨rfl, hlt, htid⟩ WorkPhase.noConfusion (by rw [hw]; exact WorkPhase.noConfusion)
      (by rw [hw]; exact WorkPhase.noConfusion) ?_ fun received hheld => hheld.record hkey rfl
        (fun u hu k => by simp only [Carries, Function.update_of_ne hu]) fun k => ?_
    · simp only [effects, hw, Function.update_self]
    · simp [Carries, hidle, Phase.status]
  case h_5 => cases h

/-- When all threads have ended, everything that was put in has been taken out and recorded. -/
theorem ProgramInv.complete (hi : ProgramInv numProducer numEnqueue s)
    (hh : History numProducer numEnqueue s enqueued received)
    (hdone : AllDone numProducer s) : s.queue.keys = [] ∧ received = enqueued ∧
      ∀ i < numProducer * numEnqueue, s.flagVerification i = true := by
  obtain ⟨hall, hbeyond⟩ := hdone
  have heffects : ∀ tid < 2 * numProducer, s.effects numEnqueue tid = numEnqueue := by
    intro tid htid
    rw [effects, hall tid htid]
  have hlength : received.length = enqueued.length := by
    rw [hh.dequeues, hh.enqueues]
    refine Finset.sum_congr rfl fun p hp => ?_
    have hp := Finset.mem_range.mp hp
    rw [heffects p (by omega), heffects (numProducer + p) (by omega)]
  have hsplit := hh.split
  have hempty : s.queue.keys = [] := by
    refine List.length_eq_zero_iff.mp ?_
    have hsum := congrArg List.length hsplit
    rw [List.length_append] at hsum
    omega
  rw [hempty, List.append_nil] at hsplit
  refine ⟨hempty, hsplit.symm, fun i hlt => ?_⟩
  have hpos : 0 < numEnqueue := by
    refine Nat.pos_of_ne_zero ?_
    rintro rfl
    exact absurd hlt (Nat.not_lt_zero i)
  have hdiv : i / numEnqueue < numProducer := Nat.div_lt_of_lt_mul (by rwa [Nat.mul_comm])
  have hi_eq : (i : Int) = keyEnqueue numEnqueue (i / numEnqueue) (i % numEnqueue) := by
    rw [keyEnqueue, Nat.div_add_mod]
  have hmem : (i : Int) ∈ received := by
    rw [← hsplit]
    refine List.mem_of_mem_filter (?_ : _ ∈ enqueued.filter fun key : Int =>
      key / (numEnqueue : Int) = ((i / numEnqueue : Nat) : Int))
    rw [hh.sent _ hdiv, heffects _ (by omega), hi_eq]
    exact List.mem_map_of_mem (List.mem_range.mpr (Nat.mod_lt _ hpos))
  refine (hh.held.recorded i hmem).resolve_right ?_
  -- nobody carries a key any more
  rintro ⟨tid, hcarries⟩
  have hidle : s.queue.phase tid = .idle ∧ ∀ j, s.work tid ≠ .setFlag j i := by
    have hwork := hi.work tid
    by_cases htid : tid < 2 * numProducer
    · rw [hall tid htid] at hwork ⊢
      exact ⟨hwork.1, fun j => WorkPhase.noConfusion⟩
    · rw [hbeyond tid (Nat.not_lt.mp htid)] at hwork ⊢
      exact ⟨hwork, fun j => WorkPhase.noConfusion⟩
  rcases hcarries with ⟨j, hj⟩ | hj
  · exact hidle.2 j hj
  · rw [hidle.1] at hj
    cases hj

theorem ProgramInv.step_main (hi : ProgramInv numProducer numEnqueue s)
    (h : s.mainStep numProducer numEnqueue = some s') : ProgramInv numProducer numEnqueue s' := by
  have hmain := hi.main
  obtain ⟨enqueued, received, hh⟩ := hi.history
  unfold Program.mainStep at h
  split at h <;> rename_i hm <;> rw [hm] at hmain
  case h_1 i =>
    obtain ⟨hle, hcreated⟩ := hmain
    split at h <;> cases h
    case isTrue hlt =>
      have hnew : s.work i = .notCreated := (hcreated i).mpr (Nat.le_refl i)
      have hidle : s.queue.phase i = .idle := by
        have hwork := hi.work i
        rwa [hnew] at hwork
      refine ⟨hi.queue, fun u => ?_, ⟨hlt, fun u => ?_⟩, enqueued, received,
        hh.congr rfl rfl (fun u => ?_) (hh.held.congr rfl fun u key => ?_)⟩
      · by_cases hu : u = i
        · subst hu
          simp only [setWork, Function.update_self]
          exact ⟨hidle, Nat.zero_le _, hlt⟩
        · simp only [setWork, Function.update_of_ne hu]
          exact hi.work u
      · by_cases hu : u = i
        · subst hu
          simp [setWork]
        · simp only [setWork, Function.update_of_ne hu, hcreated u]
          omega
      · by_cases hu : u = i
        · subst hu
          simp only [effects, setWork, Function.update_self, hnew]
        · exact effects_of_ne (Function.update_of_ne hu _ _) rfl
      · by_cases hu : u = i
        · subst hu
          simp [Carries, setWork, hnew]
        · simp only [Carries, setWork, Function.update_of_ne hu]
    case isFalse hge =>
      have he : i = 2 * numProducer := Nat.le_antisymm hle (Nat.not_lt.mp hge)
      exact ⟨hi.queue, hi.work, ⟨he ▸ hcreated, fun u hu => absurd hu (Nat.not_lt_zero u)⟩, enqueued, received,
        hh.congr rfl rfl (fun _ => rfl) (hh.held.congr rfl fun _ _ => Iff.rfl)⟩
  case h_2 i =>
    obtain ⟨hcreated, hjoined⟩ := hmain
    split at h
    case isTrue hlt =>
      obtain ⟨hend, ⟨⟩⟩ := Option.ite_none_right_eq_some.mp h
      refine ⟨hi.queue, hi.work, ⟨hcreated, fun u hu hu' => ?_⟩, enqueued, received,
        hh.congr rfl rfl (fun _ => rfl) (hh.held.congr rfl fun _ _ => Iff.rfl)⟩
      rcases Nat.lt_succ_iff_lt_or_eq.mp hu with hu | rfl
      · exact hjoined u hu hu'
      · exact hend
    case isFalse hge =>
      cases h
      exact ⟨hi.queue, hi.work, ⟨fun u hu => hjoined u (by omega) hu, fun u hu => (hcreated u).mpr hu⟩,
        enqueued, received, hh.congr rfl rfl (fun _ => rfl) (hh.held.congr rfl fun _ _ => Iff.rfl)⟩
  case h_3 i =>
    split at h
    case isTrue hlt =>
      have hflag := (hi.complete hh hmain).2.2 i hlt
      rw [hflag, if_neg Bool.noConfusion] at h
      cases h
      exact ⟨hi.queue, hi.work, hmain, enqueued, received,
        hh.congr rfl rfl (fun _ => rfl) (hh.held.congr rfl fun _ _ => Iff.rfl)⟩
    case isFalse hge =>
      cases h
      exact ⟨hi.queue, hi.work, ⟨rfl, hmain⟩, enqueued, received,
        hh.congr rfl rfl (fun _ => rfl) (hh.held.congr rfl fun _ _ => Iff.rfl)⟩
  case h_4 => cases h

theorem ProgramInv.new : ProgramInv numProducer numEnqueue .new where
  queue := .new
  work _ := rfl
  main := ⟨Nat.zero_le _, fun tid => ⟨fun _ => Nat.zero_le tid, fun _ => rfl⟩⟩
  history := by
    have hnone : ∀ tid key, ¬ Program.new.Carries tid key := by
      rintro tid key (⟨i, h⟩ | h) <;> cases h
    refine ⟨[], [], rfl, rfl, fun p _ => rfl, fun key hkey => absurd hkey List.not_mem_nil, ?_, ?_,
      fun key hkey => absurd hkey List.not_mem_nil, nofun, fun tid key h => absurd h (hnone tid key),
      fun t u key h => absurd h (hnone t key)⟩
    · exact (Finset.sum_eq_zero fun p _ => rfl).symm
    · exact (Finset.sum_eq_zero fun p _ => rfl).symm

theorem programInv_of_reachable (total : numProducer * numEnqueue + queueSize < 2 ^ 64)
    (hs : Reachable (programSystem numProducer numEnqueue) s) : ProgramInv numProducer numEnqueue s := by
  refine hs.invariant ?_ fun s t s' _ hi h => ?_
  · rintro s rfl
    exact .new
  · cases t with
    | main => exact hi.step_main h
    | worker tid => exact hi.step_work total h

/-- The keys leave the queue once each and in the order in which they came, those of one producer in its
own order. As many have left as calls of the consumers have taken effect, and of each of them the flag
is set or a single consumer has it. When all threads have ended, the queue is empty and all flags are
set; so the program never prints that something is missing. All keys are ints. -/
theorem delivered_once (ints : numProducer * numEnqueue ≤ 2 ^ 31)
    (hs : Reachable (programSystem numProducer numEnqueue) s) :
    s.main ≠ .printed false ∧ ∃ enqueued received : List Int,
      enqueued = received ++ s.queue.keys ∧ enqueued.Nodup ∧
      (∀ key ∈ enqueued, 0 ≤ key ∧ key < (numProducer * numEnqueue : Nat)) ∧
      (∀ p < numProducer, enqueued.filter (fun key : Int => key / (numEnqueue : Int) = (p : Int)) =
        (List.range (s.effects numEnqueue p)).map (keyEnqueue numEnqueue p)) ∧
      received.length = ∑ p ∈ Finset.range numProducer, s.effects numEnqueue (numProducer + p) ∧ Held s received ∧
      (AllDone numProducer s → s.queue.keys = [] ∧
        ∀ i < numProducer * numEnqueue, s.flagVerification i = true) := by
  have hsize : queueSize = 1024 := rfl
  have hi := programInv_of_reachable (by omega) hs
  obtain ⟨enqueued, received, hh⟩ := hi.history
  refine ⟨fun hm => ?_, enqueued, received, hh.split, hh.nodup, fun key hkey => ?_, hh.sent, hh.dequeues,
    hh.held, fun hdone => ?_⟩
  · have hmain := hi.main
    rw [hm] at hmain
    exact absurd hmain.1 Bool.noConfusion
  · obtain ⟨p, hp, j, hj, rfl⟩ := hh.keys key hkey
    exact ⟨Int.natCast_nonneg _, keyEnqueue_lt hp hj⟩
  · have hcomplete := hi.complete hh hdone
    exact ⟨hcomplete.1, hcomplete.2.2⟩

/-- Two producers have put a key in each, and a consumer has taken the first one out. -/
def twoKeys : List Thread :=
  List.replicate 5 .main ++ [.worker 0, .worker 1, .worker 2] ++ List.replicate 8 (.worker 1) ++
    List.replicate 9 (.worker 0) ++ List.replicate 9 (.worker 2)

theorem delivered_once_twoKeys : ∃ s, twoKeys.foldlM (step 2 1) .new = some s ∧ s.work 2 = .setFlag 0 1 ∧
    ∃ enqueued received : List Int, enqueued = received ++ [0] ∧ enqueued.Nodup ∧ 1 ∈ received ∧
      ∀ tid, s.Carries tid 1 → tid = 2 := by
  have hrun : (twoKeys.foldlM (step 2 1) .new).map (fun s => (s.queue.keys, s.work 2)) =
      some ([0], .setFlag 0 1) := by decide +kernel
  obtain ⟨s, hs, he⟩ := Option.map_eq_some_iff.mp hrun
  obtain ⟨hkeys, hwork⟩ := Prod.mk.inj he
  have hstart : Reachable (programSystem 2 1) .new := .init rfl
  obtain ⟨-, enqueued, received, hsplit, hnodup, -, -, -, held, -⟩ :=
    delivered_once (by decide) (hstart.foldlM (fun _ _ _ h => ⟨_, h⟩) hs)
  have hcarries : s.Carries 2 1 := .inl ⟨0, hwork⟩
  rw [hkeys] at hsplit
  exact ⟨s, hs, hwork, enqueued, received, hsplit, hnodup, (held.carried 2 1 hcarries).1,
    fun tid h => held.alone tid 2 1 h hcarries⟩

end GiantLockQueue
