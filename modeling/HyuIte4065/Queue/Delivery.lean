import HyuIte4065.Queue.Workers
import HyuIte4065.Library.Total

/-!
# The program comes to its end

A thread that locks the mutex while it cannot do anything with the queue locks it in vain. As long
as not all threads have ended, some thread can make a step that is not in vain, and each such step
brings the program nearer to its end.
-/
namespace GiantLockQueue

open Transition Mutex State Program Total

namespace State

def full (s : State) : Bool := decide (s.front.toNat + queueSize ≤ s.rear.toNat)
def empty (s : State) : Bool := decide (s.rear = s.front)

/-- The thread is about to lock the mutex and would find the queue full, or empty. -/
def InVain (s : State) : Phase → Prop
  | .lockProducer _ => s.full = true
  | .lockConsumer => s.empty = true
  | _ => False

end State

/-- What is left of a call, in steps that are not in vain. -/
def Phase.weight (full empty : Bool) : Phase → Nat
  | .idle => 0
  | .lockProducer _ | .lockConsumer => 20
  | .testFullRear _ => if full then 23 else 19
  | .testFullFront _ _ => if full then 22 else 18
  | .unlockFull _ | .unlockEmpty => 21
  | .testEmptyRear => if empty then 23 else 19
  | .testEmptyFront _ => if empty then 22 else 18
  | .loadSlot _ | .loadSlotTaken => 17
  | .storeKey _ _ | .loadKey _ => 16
  | .loadRear _ | .loadFront _ => 15
  | .storeRear _ _ | .storeFront _ _ => 14
  | .unlockProducer | .unlockConsumer _ => 13
  | .done _ => 12

section
variable {s s' : State} {tid : ThreadId} {ph : Phase}

theorem weight_le (full empty : Bool) (ph : Phase) : ph.weight full empty ≤ 23 := by
  cases ph <;> cases full <;> cases empty <;> simp [Phase.weight]

/-- Only the owner of the mutex looks at the queue. -/
theorem weight_of_free (h : ph.holds = false) (full empty full' empty' : Bool) :
    ph.weight full empty = ph.weight full' empty' := by
  cases ph <;> first | rfl | cases h

/-- A thread that does not hold the mutex leaves the queue as it is. -/
theorem act_outside (hfree : (s.phase tid).holds = false) (h : s.act tid = some s') :
    s'.front = s.front ∧ s'.rear = s.rear := by
  unfold State.act at h
  split at h <;> rename_i hph <;> rw [hph] at hfree
  case h_1 => cases h
  case h_2 =>
    obtain ⟨-, ⟨⟩⟩ := Option.ite_none_right_eq_some.mp h
    exact ⟨rfl, rfl⟩
  case h_11 =>
    obtain ⟨-, ⟨⟩⟩ := Option.ite_none_right_eq_some.mp h
    exact ⟨rfl, rfl⟩
  case h_20 => cases h
  all_goals cases hfree

theorem full_or_empty_keys (hi : Inv s) : (s.full = true ↔ s.keys.length = queueSize) ∧
    (s.empty = true ↔ s.keys = []) := by
  have hle := hi.front_le
  have hle' := hi.rear_le
  have hlength : s.keys.length = s.rear.toNat - s.front.toNat := RingBuffer.contents_length
  constructor
  · rw [State.full, decide_eq_true_eq, hlength]
    omega
  · rw [State.empty, decide_eq_true_eq, ← List.length_eq_zero_iff, hlength]
    constructor
    · intro he
      rw [he, Nat.sub_self]
    · intro h0
      exact BitVec.eq_of_toNat_eq (by omega)

/-- A step of a call that is not in vain brings the call nearer to its end. -/
theorem Inv.act_weight (hi : Inv s) (few : s.Few) (h : s.act tid = some s')
    (useful : ¬ s.InVain (s.phase tid)) :
    (s'.phase tid).weight s'.full s'.empty < (s.phase tid).weight s.full s.empty := by
  have hlocal := hi.here tid
  unfold State.act at h
  split at h <;> rename_i hph <;> rw [hph] at hlocal useful ⊢
  case h_1 => cases h
  case h_2 =>
    obtain ⟨-, ⟨⟩⟩ := Option.ite_none_right_eq_some.mp h
    have hfull : s.full = false := Bool.eq_false_of_not_eq_true useful
    simp only [State.goto, Function.update_self]
    change Phase.weight s.full s.empty _ < _
    simp [Phase.weight, hfull]
  case h_4 key r =>
    obtain rfl := hlocal
    have hfull : s.full = decide (s.front + BitVec.ofNat 64 queueSize ≤ s.rear) := by
      rw [State.full, decide_eq_decide, hi.not_full few, Nat.not_lt]
    split at h <;> rename_i htest <;> cases h <;> simp only [State.goto, Function.update_self] <;>
      change Phase.weight s.full s.empty _ < _ <;> rw [hfull]
    · rw [Phase.weight, Phase.weight, if_pos (decide_eq_true htest)]
      decide
    · rw [Phase.weight, Phase.weight, if_neg (by rw [decide_eq_true_eq]; exact htest)]
      decide
  case h_11 =>
    obtain ⟨-, ⟨⟩⟩ := Option.ite_none_right_eq_some.mp h
    have hempty : s.empty = false := Bool.eq_false_of_not_eq_true useful
    simp only [State.goto, Function.update_self]
    change Phase.weight s.full s.empty _ < _
    simp [Phase.weight, hempty]
  case h_13 r =>
    obtain rfl := hlocal
    split at h <;> rename_i htest <;> cases h <;> simp only [State.goto, Function.update_self] <;>
      change Phase.weight s.full s.empty _ < _ <;> rw [State.empty]
    · rw [Phase.weight, Phase.weight, if_pos (decide_eq_true htest)]
      decide
    · rw [Phase.weight, Phase.weight, if_neg (by rw [decide_eq_true_eq]; exact htest)]
      decide
  case h_3 =>
    cases h
    simp only [State.goto, Function.update_self]
    change (if s.full then 22 else 18) < if s.full then 23 else 19
    cases s.full <;> decide
  case h_12 =>
    cases h
    simp only [State.goto, Function.update_self]
    change (if s.empty then 22 else 18) < if s.empty then 23 else 19
    cases s.empty <;> decide
  case h_20 => cases h
  all_goals
    cases h
    simp only [State.goto, State.unlock, Function.update_self, Phase.weight]
    decide

/-- A thread that holds the mutex can always go on. -/
theorem act_inside (hold : (s.phase tid).holds = true) : ∃ s', s.act tid = some s' := by
  unfold State.act
  split <;> rename_i hph <;> rw [hph] at hold
  case h_1 => cases hold
  case h_2 => cases hold
  case h_11 => cases hold
  case h_20 => cases hold
  case h_4 => split <;> exact ⟨_, rfl⟩
  case h_13 => split <;> exact ⟨_, rfl⟩
  all_goals exact ⟨_, rfl⟩

end

section
variable (numProducer numEnqueue : Nat)

/-- A step that does not lock the mutex in vain. -/
def Useful (s s' : Program) : Prop :=
  ∃ t, s.step numProducer numEnqueue t = some s' ∧
    ∀ tid, t = .worker tid → ¬ s.queue.InVain (s.queue.phase tid)

/-- What is left of the turns of a thread. -/
def WorkPhase.weight (call : Nat) : WorkPhase → Nat
  | .notCreated => numEnqueue * 40 + 40
  | .loop i => (numEnqueue - i) * 40 + 39
  | .calling i => (numEnqueue - i) * 40 + call
  | .setFlag i _ => (numEnqueue - i) * 40
  | .finished => 0

def MainPhase.weight : MainPhase → Nat
  | .create i => 2 * numProducer - i + (2 * numProducer + numProducer * numEnqueue + 3)
  | .join i => 2 * numProducer - i + (numProducer * numEnqueue + 2)
  | .verify i => numProducer * numEnqueue - i + 1
  | .printed _ => 0

def Program.workWeight (s : Program) (tid : Nat) : Nat :=
  (s.work tid).weight numEnqueue ((s.queue.phase tid).weight s.queue.full s.queue.empty)

def Program.weight (s : Program) : Nat :=
  s.main.weight numProducer numEnqueue +
    ∑ tid ∈ Finset.range (2 * numProducer), s.workWeight numEnqueue tid

end

variable {numProducer numEnqueue tid : Nat} {s s' : Program}

theorem workWeight_of_ne {u : Nat} (hwork : s'.work u = s.work u)
    (hphase : s'.queue.phase u = s.queue.phase u)
    (hsame : (s.queue.phase u).holds = true → s'.queue.front = s.queue.front ∧ s'.queue.rear = s.queue.rear) :
    s'.workWeight numEnqueue u = s.workWeight numEnqueue u := by
  rw [workWeight, workWeight, hwork, hphase]
  cases hh : (s.queue.phase u).holds with
  | false => rw [weight_of_free hh s'.queue.full s'.queue.empty s.queue.full s.queue.empty]
  | true =>
    obtain ⟨hfront, hrear⟩ := hsame hh
    simp only [State.full, State.empty, hfront, hrear]

/-- A useful step of a thread. -/
theorem ProgramInv.workStep_weight (total : numProducer * numEnqueue + queueSize < 2 ^ 64)
    (hi : ProgramInv numProducer numEnqueue s) (h : s.workStep numProducer numEnqueue tid = some s')
    (useful : ¬ s.queue.InVain (s.queue.phase tid)) :
    s'.main = s.main ∧ tid < 2 * numProducer ∧ s'.workWeight numEnqueue tid < s.workWeight numEnqueue tid ∧
      ∀ u ≠ tid, s'.workWeight numEnqueue u = s.workWeight numEnqueue u := by
  have hwork := hi.work tid
  unfold Program.workStep at h
  split at h <;> rename_i hw <;> rw [hw] at hwork
  case h_1 => cases h
  case h_2 i =>
    obtain ⟨hidle, hle, htid⟩ := hwork
    split at h <;> cases h
    case isTrue hlt =>
      refine ⟨rfl, htid, ?_, fun u hu => ?_⟩
      · have hsmall := weight_le (s.queue.goto tid (start (nextOp numProducer numEnqueue tid i))).full
          (s.queue.goto tid (start (nextOp numProducer numEnqueue tid i))).empty
          (start (nextOp numProducer numEnqueue tid i))
        simp only [workWeight, setWork, hw, Function.update_self, State.goto, WorkPhase.weight] at hsmall ⊢
        omega
      · exact workWeight_of_ne (Function.update_of_ne hu _ _) (Function.update_of_ne hu _ _)
          fun _ => ⟨rfl, rfl⟩
    case isFalse hge =>
      refine ⟨rfl, htid, ?_, fun u hu => ?_⟩
      · simp only [workWeight, setWork, hw, Function.update_self, WorkPhase.weight]
        omega
      · exact workWeight_of_ne (Function.update_of_ne hu _ _) rfl fun _ => ⟨rfl, rfl⟩
  case h_3 i =>
    obtain ⟨hlt, htid, -⟩ := hwork
    have hturn : (numEnqueue - i) * 40 = (numEnqueue - (i + 1)) * 40 + 40 := by omega
    split at h <;> rename_i hph
    case h_1 =>
      cases h
      refine ⟨rfl, htid, ?_, fun u hu => ?_⟩
      · simp only [workWeight, setWork, hw, hph, Function.update_self, WorkPhase.weight, Phase.weight]
        omega
      · exact workWeight_of_ne (Function.update_of_ne hu _ _) (Function.update_of_ne hu _ _)
          fun _ => ⟨rfl, rfl⟩
    case h_2 key =>
      cases h
      refine ⟨rfl, htid, ?_, fun u hu => ?_⟩
      · simp only [workWeight, setWork, hw, hph, Function.update_self, WorkPhase.weight, Phase.weight]
        omega
      · exact workWeight_of_ne (Function.update_of_ne hu _ _) (Function.update_of_ne hu _ _)
          fun _ => ⟨rfl, rfl⟩
    case h_3 =>
      obtain ⟨queue, hact, rfl⟩ := Option.map_eq_some_iff.mp h
      refine ⟨rfl, htid, ?_, fun u hu => ?_⟩
      · have hless := hi.queue.act_weight (hi.few total) hact useful
        simp only [workWeight, hw, WorkPhase.weight]
        omega
      · refine workWeight_of_ne rfl (act_phase hact hu) fun hold => ?_
        refine act_outside ?_ hact
        exact hi.queue.others_free hold (Ne.symm hu)
  case h_4 i key =>
    obtain ⟨hidle, hlt, htid, -⟩ := hwork
    have hturn : (numEnqueue - i) * 40 = (numEnqueue - (i + 1)) * 40 + 40 := by omega
    cases h
    refine ⟨rfl, htid, ?_, fun u hu => ?_⟩
    · simp only [workWeight, setWork, hw, Function.update_self, WorkPhase.weight]
      omega
    · exact workWeight_of_ne (Function.update_of_ne hu _ _) rfl fun _ => ⟨rfl, rfl⟩
  case h_5 => cases h

/-- A step of the main thread. -/
theorem ProgramInv.mainStep_weight (hi : ProgramInv numProducer numEnqueue s)
    (h : s.mainStep numProducer numEnqueue = some s') :
    s'.weight numProducer numEnqueue < s.weight numProducer numEnqueue := by
  have hmain := hi.main
  unfold Program.mainStep at h
  split at h <;> rename_i hm <;> rw [hm] at hmain
  case h_1 i =>
    split at h <;> cases h
    case isTrue hlt =>
      have hnew : s.work i = .notCreated := (hmain.2 i).mpr (Nat.le_refl i)
      have hle : ∀ u, workWeight numEnqueue { s.setWork i (.loop 0) with main := .create (i + 1) } u ≤
          s.workWeight numEnqueue u := by
        intro u
        by_cases hu : u = i
        · subst hu
          simp only [workWeight, setWork, Function.update_self, hnew, WorkPhase.weight]
          omega
        · exact Nat.le_of_eq (workWeight_of_ne (Function.update_of_ne hu _ _) rfl fun _ => ⟨rfl, rfl⟩)
      rw [Program.weight, Program.weight, hm]
      refine Nat.add_lt_add_of_lt_of_le ?_ (Finset.sum_le_sum fun u _ => hle u)
      simp only [MainPhase.weight]
      omega
    case isFalse hge =>
      refine Nat.add_lt_add_right ?_ _
      rw [hm]
      simp only [MainPhase.weight]
      omega
  case h_2 i =>
    split at h
    case isTrue hlt =>
      obtain ⟨-, ⟨⟩⟩ := Option.ite_none_right_eq_some.mp h
      refine Nat.add_lt_add_right ?_ _
      rw [hm]
      simp only [MainPhase.weight]
      omega
    case isFalse hge =>
      cases h
      refine Nat.add_lt_add_right ?_ _
      rw [hm]
      simp only [MainPhase.weight]
      omega
  case h_3 i =>
    split at h
    case isTrue hlt =>
      split at h <;> cases h <;> refine Nat.add_lt_add_right ?_ _ <;> rw [hm] <;> simp only [MainPhase.weight] <;>
        omega
    case isFalse hge =>
      cases h
      refine Nat.add_lt_add_right ?_ _
      rw [hm]
      simp only [MainPhase.weight]
      omega
  case h_4 => cases h

theorem ProgramInv.useful_weight (total : numProducer * numEnqueue + queueSize < 2 ^ 64)
    (hi : ProgramInv numProducer numEnqueue s) (h : Useful numProducer numEnqueue s s') :
    s'.weight numProducer numEnqueue < s.weight numProducer numEnqueue := by
  obtain ⟨t, ht, huseful⟩ := h
  cases t with
  | main => exact hi.mainStep_weight ht
  | worker tid =>
    obtain ⟨hmain, htid, hless, hsame⟩ := hi.workStep_weight total ht (huseful tid rfl)
    rw [Program.weight, Program.weight, hmain]
    refine Nat.add_lt_add_left (Finset.sum_lt_sum (fun u _ => ?_) ⟨tid, Finset.mem_range.mpr htid, hless⟩) _
    by_cases hu : u = tid
    · rw [hu]
      exact Nat.le_of_lt hless
    · rw [hsame u hu]

/-- A thread that neither has ended nor is about to lock the mutex, or would lock it for good, can go on. -/
theorem ProgramInv.work_moves (hi : ProgramInv numProducer numEnqueue s) (hfree : s.queue.mutexForQueue = none)
    (hnew : s.work tid ≠ .notCreated) (hend : s.work tid ≠ .finished)
    (useful : ¬ s.queue.InVain (s.queue.phase tid)) : ∃ s', Useful numProducer numEnqueue s s' := by
  have hwork := hi.work tid
  have hstep : ∀ s', s.workStep numProducer numEnqueue tid = some s' → ∃ s', Useful numProducer numEnqueue s s' := by
    intro s' h
    refine ⟨s', .worker tid, h, fun u hu => ?_⟩
    obtain rfl := Thread.worker.inj hu
    exact useful
  cases hw : s.work tid <;> rw [hw] at hwork
  case notCreated => exact absurd hw hnew
  case finished => exact absurd hw hend
  case loop i =>
    by_cases hlt : i < numEnqueue
    · exact hstep _ (by rw [workStep, hw]; exact if_pos hlt)
    · exact hstep _ (by rw [workStep, hw]; exact if_neg hlt)
  case setFlag i key => exact hstep _ (by rw [workStep, hw])
  case calling i =>
    have hnone : (s.queue.phase tid).holds = false := by
      by_contra hh
      have howner := (hi.queue.guards tid).mpr (by simpa [State.Holds] using hh)
      rw [hfree] at howner
      cases howner
    obtain ⟨-, -, hcall⟩ := hwork
    cases hph : s.queue.phase tid <;> rw [hph] at hnone hcall
    case idle => exact absurd hcall id
    case lockProducer key =>
      refine hstep _ (by rw [workStep, hw]; simp only [hph, State.act, State.lock, hfree, if_true]; rfl)
    case lockConsumer =>
      refine hstep _ (by rw [workStep, hw]; simp only [hph, State.act, State.lock, hfree, if_true]; rfl)
    case done retKey =>
      cases retKey with
      | none => exact hstep _ (by rw [workStep, hw]; simp only [hph]; rfl)
      | some key => exact hstep _ (by rw [workStep, hw]; simp only [hph]; rfl)
    all_goals cases hnone

/-- The owner of the mutex can go on. -/
theorem ProgramInv.owner_moves (hi : ProgramInv numProducer numEnqueue s) (h : s.queue.mutexForQueue ≠ none) :
    ∃ s', Useful numProducer numEnqueue s s' := by
  obtain ⟨tid, howner⟩ := Option.ne_none_iff_exists'.mp h
  have hholds : (s.queue.phase tid).holds = true := (hi.queue.guards tid).mp howner
  have hwork := hi.work tid
  have hcalling : ∃ i, s.work tid = .calling i := by
    cases hw : s.work tid <;> rw [hw] at hwork
    case calling i => exact ⟨i, rfl⟩
    case notCreated =>
      rw [show s.queue.phase tid = .idle from hwork] at hholds
      cases hholds
    all_goals
      rw [hwork.1] at hholds
      cases hholds
  obtain ⟨i, hw⟩ := hcalling
  obtain ⟨queue, hact⟩ := act_inside hholds
  refine ⟨{ s with queue := queue }, .worker tid, ?_, fun u hu => ?_⟩
  · rw [step, workStep, hw]
    cases hph : s.queue.phase tid <;> rw [hph] at hholds <;> first | (simp only [hact]; rfl) | cases hholds
  · obtain rfl := Thread.worker.inj hu
    cases hph : s.queue.phase tid <;> rw [hph] at hholds <;> first | exact not_false | cases hholds

/-- A thread that would lock in vain is a producer in front of a full queue or a consumer in front of an
empty one, and its turn has had no effect yet. -/
theorem ProgramInv.of_inVain (hi : ProgramInv numProducer numEnqueue s)
    (h : s.queue.InVain (s.queue.phase tid)) (hnew : s.work tid ≠ .notCreated) :
    s.effects numEnqueue tid < numEnqueue ∧
      (tid < numProducer ∧ s.queue.keys.length = queueSize ∨ numProducer ≤ tid ∧ s.queue.keys = []) := by
  have hwork := hi.work tid
  have hkeys := full_or_empty_keys hi.queue
  cases hph : s.queue.phase tid <;> rw [hph] at h hwork <;> try exact absurd h id
  case lockProducer key =>
    cases hw : s.work tid <;> rw [hw] at hwork <;> try exact absurd hwork.1 Phase.noConfusion
    case notCreated => exact absurd hw hnew
    case calling i =>
      refine ⟨?_, .inl ⟨(of_nextOp_enqueue hwork.2.2).1, hkeys.1.mp h⟩⟩
      simp only [effects, hw, hph, Phase.status]
      exact hwork.1
  case lockConsumer =>
    cases hw : s.work tid <;> rw [hw] at hwork <;> try exact absurd hwork.1 Phase.noConfusion
    case notCreated => exact absurd hw hnew
    case calling i =>
      refine ⟨?_, .inr ⟨of_nextOp_dequeue hwork.2.2, hkeys.2.mp h⟩⟩
      simp only [effects, hw, hph, Phase.status]
      exact hwork.1

/-- Not all threads that are left can lock in vain: the producers have put in as many keys as the
consumers take out. -/
theorem ProgramInv.some_useful (hi : ProgramInv numProducer numEnqueue s)
    (hcreated : ∀ u < 2 * numProducer, s.work u ≠ .notCreated)
    (htid : tid < 2 * numProducer) (hend : s.work tid ≠ .finished) :
    ∃ u, u < 2 * numProducer ∧ s.work u ≠ .finished ∧ ¬ s.queue.InVain (s.queue.phase u) := by
  by_contra hnone
  have hvain : ∀ u < 2 * numProducer, s.work u ≠ .finished → s.queue.InVain (s.queue.phase u) := by
    intro u hu hw
    by_contra huseful
    exact hnone ⟨u, hu, hw, huseful⟩
  obtain ⟨enqueued, received, hh⟩ := hi.history
  have hsplit := congrArg List.length hh.split
  rw [List.length_append] at hsplit
  have hfinished : ∀ u, s.work u = .finished → s.effects numEnqueue u = numEnqueue := by
    intro u hu
    rw [effects, hu]
  obtain ⟨hless, hcase⟩ := hi.of_inVain (hvain tid htid hend) (hcreated tid htid)
  rcases hcase with ⟨hp, hfull⟩ | ⟨hp, hempty⟩
  · -- the queue is full, so no consumer is left
    have hsize : 0 < queueSize := by decide
    have hconsumers : ∀ p < numProducer, s.effects numEnqueue (numProducer + p) = numEnqueue := by
      intro p hpn
      refine hfinished _ ?_
      by_contra hw
      rcases (hi.of_inVain (hvain _ (by omega) hw) (hcreated _ (by omega))).2 with hc | hc
      · omega
      · rw [hc.2] at hfull
        rw [← hfull] at hsize
        exact absurd hsize (Nat.not_lt_zero 0)
    have hle : enqueued.length ≤ received.length := by
      rw [hh.enqueues, hh.dequeues]
      refine Finset.sum_le_sum fun p hpn => ?_
      rw [hconsumers p (Finset.mem_range.mp hpn)]
      exact hi.effects_le p
    omega
  · -- the queue is empty, so no producer is left
    have hsize : queueSize ≠ 0 := by decide
    have hproducers : ∀ p < numProducer, s.effects numEnqueue p = numEnqueue := by
      intro p hpn
      refine hfinished _ ?_
      by_contra hw
      rcases (hi.of_inVain (hvain _ (by omega) hw) (hcreated _ (by omega))).2 with hc | hc
      · rw [hempty] at hc
        exact hsize hc.2.symm
      · omega
    have hlt : received.length < enqueued.length := by
      rw [hh.enqueues, hh.dequeues]
      refine Finset.sum_lt_sum (fun p hpn => ?_) ⟨tid - numProducer, Finset.mem_range.mpr (by omega), ?_⟩
      · rw [hproducers p (Finset.mem_range.mp hpn)]
        exact hi.effects_le _
      · rw [show numProducer + (tid - numProducer) = tid by omega, hproducers (tid - numProducer) (by omega)]
        exact hless
    rw [hempty, List.length_nil] at hsplit
    omega

theorem ProgramInv.moves (hi : ProgramInv numProducer numEnqueue s) (hend : ∀ correct, s.main ≠ .printed correct) :
    ∃ s', Useful numProducer numEnqueue s s' := by
  have hmainStep : ∀ s', s.mainStep numProducer numEnqueue = some s' →
      ∃ s', Useful numProducer numEnqueue s s' := fun s' h => ⟨s', .main, h, fun u hu => Thread.noConfusion hu⟩
  have hmain := hi.main
  cases hm : s.main <;> rw [hm] at hmain
  case create i =>
    by_cases hlt : i < 2 * numProducer
    · exact hmainStep _ (by rw [mainStep, hm]; exact if_pos hlt)
    · exact hmainStep _ (by rw [mainStep, hm]; exact if_neg hlt)
  case verify i =>
    by_cases hlt : i < numProducer * numEnqueue
    · cases hflag : s.flagVerification i
      · exact hmainStep _ (by rw [mainStep, hm]; exact (if_pos hlt).trans (if_pos hflag))
      · have hset : ¬ s.flagVerification i = false := by rw [hflag]; exact Bool.noConfusion
        exact hmainStep _ (by rw [mainStep, hm]; exact (if_pos hlt).trans (if_neg hset))
    · exact hmainStep _ (by rw [mainStep, hm]; exact if_neg hlt)
  case printed correct => exact absurd hm (hend correct)
  case join i =>
    by_cases hlt : i < 2 * numProducer
    case neg => exact hmainStep _ (by rw [mainStep, hm]; exact if_neg hlt)
    by_cases hw : s.work i = .finished
    case pos => exact hmainStep _ (by rw [mainStep, hm]; exact (if_pos hlt).trans (if_pos hw))
    by_cases hfree : s.queue.mutexForQueue = none
    case neg => exact hi.owner_moves hfree
    have hcreated : ∀ u < 2 * numProducer, s.work u ≠ .notCreated := by
      intro u hu hnew
      exact absurd ((hmain.1 u).mp hnew) (by omega)
    obtain ⟨u, hu, hne, huseful⟩ := hi.some_useful hcreated hlt hw
    exact hi.work_moves hfree (hcreated u hu) hne huseful

/-- From every state that the program can be in, every way to go on in which no thread locks the mutex in vain
comes to an end, is stuck nowhere, and ends with `CORRECT!`. -/
theorem program_correct (ints : numProducer * numEnqueue ≤ 2 ^ 31)
    (hs : Reachable (programSystem numProducer numEnqueue) s) :
    Ends (Useful numProducer numEnqueue) (fun s' => s'.main = .printed true) s := by
  have hsize : queueSize = 1024 := rfl
  have total : numProducer * numEnqueue + queueSize < 2 ^ 64 := by omega
  refine (Ends.of_measure (P := fun s => ∃ correct, s.main = .printed correct)
    (Program.weight numProducer numEnqueue) (programInv_of_reachable total hs) (fun s hi hend => ?_)
    (fun s s' hi h => ?_) fun s s' hi h => hi.useful_weight total h).mono fun s' ⟨hi, correct, hm⟩ => ?_
  · exact hi.moves fun correct hm => hend ⟨correct, hm⟩
  · obtain ⟨t, ht, -⟩ := h
    cases t with
    | main => exact hi.step_main ht
    | worker tid => exact hi.step_work total ht
  · have hmain := hi.main
    rw [hm] at hmain
    rw [hm, hmain.1]

theorem program_correct_four : Ends (Useful 4 10000000) (fun s' => s'.main = .printed true) .new :=
  program_correct (by decide) (.init rfl)

end GiantLockQueue
