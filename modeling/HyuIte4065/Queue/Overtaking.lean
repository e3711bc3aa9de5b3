import HyuIte4065.Queue.Tickets
import HyuIte4065.Library.Buffers
import HyuIte4065.Library.Atomic

/-!
# The bounded queue is linearizable

Enqueues and dequeues are matched by their tickets, and an operation with a later ticket can be over
while one with an earlier ticket still waits. The tickets that have taken effect are nevertheless the
first ones: an operation takes effect as soon as its ticket is drawn, the operations on the earlier
tickets have taken effect and the buffer allows it. So drawing a ticket can make the operation of
another thread take effect.
-/
namespace BoundedQueue

open Transition Fifo Relation

/-- What the call returns that ends with the next access. -/
def Phase.result : Phase → Option (Option Int)
  | .storeOdd _ _ _ => some none
  | .storeEven _ retKey _ => some (some retKey)
  | _ => none

/-- The steps of a thread with what they show to the caller. -/
inductive EventStep (s : State) : Atomic.Event ThreadId (Op Int) (Option Int) → State → Prop where
  | enqueue {tid : ThreadId} {key : Int} (idle : s.phase tid = .idle) :
    EventStep s (.call tid (.enqueue key)) (s.goto tid (.addRear key))
  | dequeue {tid : ThreadId} (idle : s.phase tid = .idle) : EventStep s (.call tid .dequeue) (s.goto tid .addFront)
  | inner {s' : State} {tid : ThreadId} (h : s.act tid = some s') (goesOn : (s.phase tid).result = none) :
    EventStep s (.inner tid) s'
  | ret {s' : State} {tid : ThreadId} {res : Option Int} (h : s.act tid = some s')
    (returns : (s.phase tid).result = some res) : EventStep s (.ret tid res) s'

def eventSystem : System State (Atomic.Event ThreadId (Op Int) (Option Int)) where
  init s := s = .initQueue
  step := EventStep

abbrev bounded : Guarded.Object (Op Int) (Option Int) (List Int) := buffer Int (· < queueSize)

namespace State

/-- One more ticket of each kind can be drawn. -/
def Spare (s : State) : Prop := s.keys.length + 1 < 2 ^ 64 ∧ s.drawn + 1 < 2 ^ 64

/-- The number of keys that have left the buffer, and of those that have entered it. -/
def left (s : State) : Nat := min s.drawn s.keys.length
def entered (s : State) : Nat := min s.keys.length (s.left + queueSize)

end State

/-- The buffer when the first `a` enqueues and the first `b` dequeues have taken effect. -/
def Phase.status (keys : List Int) (a b : Nat) : Phase → Atomic.Status (Op Int) (Option Int)
  | .idle => .idle
  | .addRear key => .called (.enqueue key)
  | .testEven key seq | .storeKey key seq | .loadEven key seq | .storeOdd key seq _ =>
    if seq.toNat < a then .done none else .called (.enqueue key)
  | .addFront => .called .dequeue
  | .testOdd seq | .loadKey seq | .loadOdd seq _ | .storeEven seq _ _ =>
    if seq.toNat < b then .done keys[seq.toNat]? else .called .dequeue

def State.viewAt (s : State) (a b : Nat) : Atomic.State ThreadId (Op Int) (Option Int) (List Int) :=
  ⟨(s.keys.take a).drop b, fun tid => (s.phase tid).status s.keys a b⟩

def State.view (s : State) : Atomic.State ThreadId (Op Int) (Option Int) (List Int) := s.viewAt s.entered s.left

/-- Between the counters, the complete enqueues have left their keys in their slots. -/
def Shows (s : State) (keys : List Int) : Prop :=
  let front := min s.front.toNat s.rear.toNat
  let rear := min s.rear.toNat (front + queueSize)
  keys.length = rear - front ∧ ∀ t, front ≤ t → t < rear → s.flagOf t = 2 * (t / queueSize) + 1 →
    keys[t - front]? = some (s.queue (t % queueSize)).key

/-- A ticket that is drawn and not complete is held by a thread. -/
def Held (ticket : Phase → Option Ticket) (drawn : Nat) (complete : List Nat) (phase : ThreadId → Phase) : Prop :=
  ∀ t < drawn, t ∉ complete → ∃ i seq, ticket (phase i) = some seq ∧ seq.toNat = t

def Phase.enqueueTicket (ph : Phase) : Option Ticket := ph.enqueues.map (·.2)

structure Waiting (s : State) : Prop where
  enqueues : Held Phase.enqueueTicket s.keys.length s.enqueued s.phase
  dequeues : Held Phase.dequeues s.drawn s.dequeued s.phase

variable {s s' : State} {tid : ThreadId} {seq : Ticket} {key : Int} {ph : Phase} {a b t drawn : Nat}
  {ticket : Phase → Option Ticket} {complete : List Nat} {phase : ThreadId → Phase}
  {ev : Atomic.Event ThreadId (Op Int) (Option Int)}

theorem EventStep.step (h : EventStep s ev s') : ∃ tid, Step s tid s' := by
  cases h with
  | @enqueue tid key idle => exact ⟨tid, .enqueue key idle⟩
  | @dequeue tid idle => exact ⟨tid, .dequeue idle⟩
  | @inner _ tid h _ | @ret _ tid _ h _ => exact ⟨tid, .act h⟩

/-! ### The tickets of the threads -/

theorem Held.same (h : Held ticket drawn complete phase) (hsame : ticket ph = ticket (phase tid)) :
    Held ticket drawn complete (Function.update phase tid ph) := by
  intro t ht hm
  obtain ⟨i, seq, hi, hseq⟩ := h t ht hm
  refine ⟨i, seq, ?_, hseq⟩
  by_cases hit : i = tid
  · rw [hit, Function.update_self, hsame, ← hit]
    exact hi
  · rw [Function.update_of_ne hit]
    exact hi

theorem Held.draw (h : Held ticket drawn complete phase) (hnone : ticket (phase tid) = none)
    (hnew : ticket ph = some seq) (hseq : seq.toNat = drawn) :
    Held ticket (drawn + 1) complete (Function.update phase tid ph) := by
  intro t ht hm
  rcases Nat.lt_succ_iff_lt_or_eq.mp ht with ht | rfl
  · obtain ⟨i, seq', hi, hseq'⟩ := h t ht hm
    have hit : i ≠ tid := by
      rintro rfl
      cases hnone.symm.trans hi
    exact ⟨i, seq', by rw [Function.update_of_ne hit]; exact hi, hseq'⟩
  · exact ⟨tid, seq, by rw [Function.update_self]; exact hnew, hseq⟩

theorem Held.finish (h : Held ticket drawn complete phase) (hold : ticket (phase tid) = some seq) :
    Held ticket drawn (complete ++ [seq.toNat]) (Function.update phase tid ph) := by
  intro t ht hm
  obtain ⟨hm, hne⟩ := not_or.mp (mt List.mem_append.mpr hm)
  obtain ⟨i, seq', hi, hseq'⟩ := h t ht hm
  have hit : i ≠ tid := by
    rintro rfl
    obtain rfl : seq = seq' := Option.some.inj (hold.symm.trans hi)
    exact hne (List.mem_singleton.mpr hseq'.symm)
  exact ⟨i, seq', by rw [Function.update_of_ne hit]; exact hi, hseq'⟩

theorem waiting_initQueue : Waiting .initQueue :=
  ⟨fun t ht => absurd ht (Nat.not_lt_zero t), fun t ht => absurd ht (Nat.not_lt_zero t)⟩

/-- A step that keeps the tickets. -/
theorem Waiting.goto (h : Waiting s) (henq : ph.enqueueTicket = (s.phase tid).enqueueTicket)
    (hdeq : ph.dequeues = (s.phase tid).dequeues) : Waiting (s.goto tid ph) :=
  ⟨h.enqueues.same henq, h.dequeues.same hdeq⟩

theorem Inv.rear_toNat (h : Inv s) (few : s.Few) : s.rear.toNat = s.keys.length := by
  rw [h.rear, BitVec.toNat_ofNat, Nat.mod_eq_of_lt few.1]

theorem Inv.front_toNat (h : Inv s) (few : s.Few) : s.front.toNat = s.drawn := by
  rw [h.front, BitVec.toNat_ofNat, Nat.mod_eq_of_lt few.2]

theorem Waiting.act (h : Waiting s) (hi : Inv s) (few : s.Few) (ha : s.act tid = some s') : Waiting s' := by
  cases hph : s.phase tid with
  | idle => simp [State.act, hph] at ha
  | addRear key =>
    obtain rfl : _ = s' := by simpa [State.act, hph] using ha
    refine ⟨?_, h.dequeues.same (by rw [hph]; rfl)⟩
    have hlength : (s.keys ++ [key]).length = s.keys.length + 1 := List.length_append
    have hdraw : Held Phase.enqueueTicket (s.keys.length + 1) s.enqueued
        (Function.update s.phase tid (.testEven key s.rear)) :=
      h.enqueues.draw (by rw [hph]; rfl) rfl (hi.rear_toNat few)
    rw [← hlength] at hdraw
    exact hdraw
  | addFront =>
    obtain rfl : _ = s' := by simpa [State.act, hph] using ha
    exact ⟨h.enqueues.same (by rw [hph]; rfl), h.dequeues.draw (by rw [hph]; rfl) rfl (hi.front_toNat few)⟩
  | testEven key seq | testOdd seq =>
    simp only [State.act, hph] at ha
    split at ha
    · cases ha; exact h
    · split at ha
      · cases ha
        exact h.goto (by rw [hph]; rfl) (by rw [hph]; rfl)
      · cases ha; exact h
  | storeOdd key seq f =>
    obtain rfl : _ = s' := by simpa [State.act, hph] using ha
    exact ⟨h.enqueues.finish (by rw [hph]; rfl), h.dequeues.same (by rw [hph]; rfl)⟩
  | storeEven seq key f =>
    obtain rfl : _ = s' := by simpa [State.act, hph] using ha
    refine ⟨h.enqueues.same (by rw [hph]; rfl), ?_⟩
    have hsnoc : (s.returned ++ [(seq.toNat, key)]).map (·.1) = s.dequeued ++ [seq.toNat] := List.map_append
    have hfinish : Held Phase.dequeues s.drawn (s.dequeued ++ [seq.toNat]) (Function.update s.phase tid .idle) :=
      h.dequeues.finish (by rw [hph]; rfl)
    rw [← hsnoc] at hfinish
    exact hfinish
  | storeKey key seq | loadEven key seq | loadKey seq | loadOdd seq key =>
    obtain rfl : _ = s' := by simpa [State.act, hph] using ha
    exact ⟨h.enqueues.same (by rw [hph]; rfl), h.dequeues.same (by rw [hph]; rfl)⟩

/-! ### The operations that have taken effect -/

theorem entered_le (s : State) : s.entered ≤ s.keys.length := Nat.min_le_left ..
theorem left_le (s : State) : s.left ≤ s.drawn := Nat.min_le_left ..

/-- What is complete has taken effect. -/
theorem Inv.enqueued_entered (h : Inv s) (ht : t ∈ s.enqueued) : t < s.entered := by
  have hlength := h.enqueued_lt t ht
  have hround := (h.enqueued t).mp ht
  have hdrawn : t < s.drawn + queueSize := by
    by_cases hfirst : t < queueSize
    · omega
    · -- the slot was emptied by the dequeue of the round before
      have hslot : (t - queueSize) % queueSize = t % queueSize := (Nat.mod_eq_sub_mod (Nat.le_of_not_lt hfirst)).symm
      have hdiv : t / queueSize = (t - queueSize) / queueSize + 1 :=
        Nat.div_eq_sub_div (by decide) (Nat.le_of_not_lt hfirst)
      have hflag : s.flagOf (t - queueSize) = s.flagOf t := by rw [State.flagOf, State.flagOf, hslot]
      have hlt := h.dequeued_lt _ ((h.dequeued (t - queueSize)).mpr (by omega))
      omega
  simp only [State.entered, State.left]
  omega

theorem Inv.dequeued_left (h : Inv s) (ht : t ∈ s.dequeued) : t < s.left := by
  have hdrawn := h.dequeued_lt t ht
  have hround := (h.dequeued t).mp ht
  have hlength := h.enqueued_lt t ((h.enqueued t).mpr (by omega))
  exact lt_min hdrawn hlength

theorem status_enqueue {keys : List Int} (h : ph.enqueues = some (key, seq)) :
    ph.status keys a b = if seq.toNat < a then .done none else .called (.enqueue key) := by
  cases ph <;> cases h <;> rfl

theorem status_dequeue {keys : List Int} (h : ph.dequeues = some seq) :
    ph.status keys a b = if seq.toNat < b then .done keys[seq.toNat]? else .called .dequeue := by
  cases ph <;> cases h <;> rfl

/-- A thread that no operation which takes effect belongs to. -/
theorem status_congr {keys keys' : List Int} {a' b' : Nat}
    (henq : ∀ key seq, ph.enqueues = some (key, seq) → (seq.toNat < a' ↔ seq.toNat < a))
    (hdeq : ∀ seq, ph.dequeues = some seq → (seq.toNat < b' ↔ seq.toNat < b) ∧
      (seq.toNat < b → keys'[seq.toNat]? = keys[seq.toNat]?)) :
    ph.status keys' a' b' = ph.status keys a b := by
  cases hph : ph.enqueues with
  | some e =>
    rw [status_enqueue hph, status_enqueue hph, if_congr (henq e.1 e.2 hph) rfl rfl]
  | none =>
    cases hph' : ph.dequeues with
    | some seq =>
      obtain ⟨hlt, hkeys⟩ := hdeq seq hph'
      rw [status_dequeue hph', status_dequeue hph', if_congr hlt rfl rfl]
      split
      · rename_i h
        rw [hkeys h]
      · rfl
    | none => cases ph <;> first | rfl | (cases hph; done) | cases hph'

theorem Inv.enqueue_effect (h : Inv s) (hw : Waiting s) (hba : b ≤ a) (ha : a < s.keys.length)
    (room : a < b + queueSize) (hnew : a ∉ s.enqueued) :
    Helping.Effect bounded (s.viewAt a b) (s.viewAt (a + 1) b) := by
  obtain ⟨i, seq, hticket, rfl⟩ := hw.enqueues a ha hnew
  obtain ⟨⟨key, seq'⟩, hi, hseq⟩ := Option.map_eq_some_iff.mp hticket
  obtain rfl : seq' = seq := hseq
  obtain ⟨hkey, -⟩ := (h.threads i).enqueues key seq' hi
  have hcalled : (s.viewAt seq'.toNat b).status i = .called (.enqueue key) :=
    (status_enqueue hi).trans (if_neg (Nat.lt_irrefl _))
  have hlength : (s.viewAt seq'.toNat b).value.length < queueSize := by
    rw [State.viewAt, List.length_drop, List.length_take]
    omega
  have hvalue : (s.viewAt (seq'.toNat + 1) b).value = (s.viewAt seq'.toNat b).value ++ [key] := by
    have hle : b ≤ (s.keys.take seq'.toNat).length := by
      rw [List.length_take]
      omega
    simp only [State.viewAt, List.take_add_one, hkey]
    exact List.drop_append_of_le_length hle
  have hstatus : (s.viewAt (seq'.toNat + 1) b).status =
      Function.update (s.viewAt seq'.toNat b).status i (.done none) := by
    funext j
    by_cases hj : j = i
    · rw [hj, Function.update_self]
      exact (status_enqueue hi).trans (if_pos (Nat.lt_succ_self _))
    · rw [Function.update_of_ne hj]
      refine status_congr (fun key' q hq => ?_) fun q _ => ⟨Iff.rfl, fun _ => rfl⟩
      have hne : q.toNat ≠ seq'.toNat := by
        intro he
        obtain rfl : q = seq' := BitVec.eq_of_toNat_eq he
        exact h.enqueues_ne hi j hj key' hq
      omega
  have heffect : Helping.Effect bounded (s.viewAt seq'.toNat b) _ := .act hcalled (enqueue_possible hlength)
  rwa [← hvalue, ← hstatus] at heffect

theorem Inv.dequeue_effect (h : Inv s) (hw : Waiting s) (hb : b < s.drawn) (hba : b < a) (ha : a ≤ s.keys.length)
    (hnew : b ∉ s.dequeued) : Helping.Effect bounded (s.viewAt a b) (s.viewAt a (b + 1)) := by
  obtain ⟨i, seq, hi, rfl⟩ := hw.dequeues b hb hnew
  have hcalled : (s.viewAt a seq.toNat).status i = .called .dequeue :=
    (status_dequeue hi).trans (if_neg (Nat.lt_irrefl _))
  have hlt : seq.toNat < (s.keys.take a).length := by
    rw [List.length_take]
    omega
  have hkey : s.keys[seq.toNat]? = some (s.keys.take a)[seq.toNat] := by
    rw [← List.getElem?_take_of_lt hba]
    exact List.getElem?_eq_getElem hlt
  have hvalue : (s.viewAt a seq.toNat).value = (s.keys.take a)[seq.toNat] :: (s.viewAt a (seq.toNat + 1)).value :=
    List.drop_eq_getElem_cons hlt
  have hpossible : bounded.apply .dequeue (s.viewAt a seq.toNat).value =
      some (s.keys[seq.toNat]?, (s.viewAt a (seq.toNat + 1)).value) := by
    rw [hvalue, hkey]
    rfl
  have hstatus : (s.viewAt a (seq.toNat + 1)).status =
      Function.update (s.viewAt a seq.toNat).status i (.done s.keys[seq.toNat]?) := by
    funext j
    by_cases hj : j = i
    · rw [hj, Function.update_self]
      exact (status_dequeue hi).trans (if_pos (Nat.lt_succ_self _))
    · rw [Function.update_of_ne hj]
      refine status_congr (fun _ _ _ => Iff.rfl) fun q hq => ⟨?_, fun _ => rfl⟩
      have hne : q.toNat ≠ seq.toNat := by
        intro he
        obtain rfl : q = seq := BitVec.eq_of_toNat_eq he
        exact h.dequeues_ne hi j hj hq
      omega
  have heffect : Helping.Effect bounded (s.viewAt a seq.toNat) _ := .act hcalled hpossible
  rwa [← hstatus] at heffect

/-- One operation after the other takes effect, until the buffer allows no more. -/
theorem Inv.catches_up (h : Inv s) (hw : Waiting s) (hba : b ≤ a) (room : a ≤ b + queueSize)
    (ha : a ≤ s.keys.length) (hb : b ≤ s.drawn) (henq : ∀ t ∈ s.enqueued, t < a) (hdeq : ∀ t ∈ s.dequeued, t < b) :
    ReflTransGen (Helping.Effect bounded) (s.viewAt a b) s.view := by
  induction hn : s.keys.length - a + (s.drawn - b) using Nat.strongRecOn generalizing a b with
  | ind n ih =>
    by_cases hin : a < s.keys.length ∧ a < b + queueSize
    · refine .head (h.enqueue_effect hw hba hin.1 hin.2 fun hm => Nat.lt_irrefl a (henq a hm)) ?_
      exact ih _ (by omega) (by omega) hin.2 hin.1 hb (fun t ht => (henq t ht).trans (Nat.lt_succ_self a)) hdeq rfl
    · by_cases hout : b < s.drawn ∧ b < a
      · refine .head (h.dequeue_effect hw hout.1 hout.2 ha fun hm => Nat.lt_irrefl b (hdeq b hm)) ?_
        exact ih _ (by omega) hout.2 (by omega) ha hout.1 henq (fun t ht => (hdeq t ht).trans (Nat.lt_succ_self b)) rfl
      · have hsize : 0 < queueSize := by decide
        have hleft : b = s.left := by
          simp only [State.left]
          omega
        have hentered : a = s.entered := by
          simp only [State.entered, ← hleft]
          omega
        rw [hleft, hentered]
        exact .refl

/-! ### The steps of a thread -/

theorem viewAt_congr (hkeys : (s'.keys.take a).drop b = (s.keys.take a).drop b)
    (hphase : s'.phase = Function.update s.phase tid ph)
    (hself : ph.status s'.keys a b = (s.phase tid).status s.keys a b)
    (others : ∀ i ≠ tid, (s.phase i).status s'.keys a b = (s.phase i).status s.keys a b) :
    s'.viewAt a b = s.viewAt a b := by
  refine congrArg₂ Atomic.State.mk hkeys (funext fun i => ?_)
  rw [hphase]
  by_cases hi : i = tid
  · rw [hi, Function.update_self]
    exact hself
  · rw [Function.update_of_ne hi]
    exact others i hi

/-- A step that draws no ticket. -/
theorem view_goto (hkeys : s'.keys = s.keys) (hdrawn : s'.drawn = s.drawn)
    (hphase : s'.phase = Function.update s.phase tid ph) :
    s'.view = ⟨s.view.value, Function.update s.view.status tid (ph.status s.keys s.entered s.left)⟩ := by
  have hleft : s'.left = s.left := by rw [State.left, State.left, hkeys, hdrawn]
  have hentered : s'.entered = s.entered := by rw [State.entered, State.entered, hkeys, hleft]
  rw [State.view, hentered, hleft]
  refine congrArg₂ Atomic.State.mk (by rw [hkeys]; rfl) (funext fun i => ?_)
  rw [hphase, hkeys]
  by_cases hi : i = tid
  · rw [hi, Function.update_self, Function.update_self]
  · rw [Function.update_of_ne hi, Function.update_of_ne hi]
    rfl

/-- Nothing takes effect at such a step. -/
theorem quiet (ph : Phase) (hkeys : s'.keys = s.keys) (hdrawn : s'.drawn = s.drawn)
    (hphase : s'.phase = Function.update s.phase tid ph) :
    ReflTransGen (Helping.Effect bounded)
      ⟨s.view.value, Function.update s.view.status tid (ph.status s.keys s.entered s.left)⟩ s'.view := by
  rw [view_goto hkeys hdrawn hphase]

theorem status_at (hph : s.phase tid = ph) : s.view.status tid = ph.status s.keys s.entered s.left :=
  congrArg (Phase.status s.keys s.entered s.left) hph

/-- A step that the buffer does not notice. -/
theorem skip (hkeys : s'.keys = s.keys) (hdrawn : s'.drawn = s.drawn)
    (hphase : s'.phase = Function.update s.phase tid ph)
    (hstatus : ph.status s.keys s.entered s.left = (s.phase tid).status s.keys s.entered s.left) :
    Helping.Step bounded s.view (.inner tid) s'.view := by
  refine ⟨_, .inner, ?_⟩
  rw [view_goto hkeys hdrawn hphase, hstatus, ← status_at rfl, Function.update_eq_self]

/-- A fetch-and-add draws a ticket, and what waited for it takes effect. -/
theorem Inv.draw (h : Inv s) (hi' : Inv s') (hw' : Waiting s') (hsame : s'.viewAt s.entered s.left = s.view)
    (hkeys : s.keys.length ≤ s'.keys.length) (hdrawn : s.drawn ≤ s'.drawn) (henq : s'.enqueued = s.enqueued)
    (hdeq : s'.returned = s.returned) : Helping.Step bounded s.view (.inner tid) s'.view := by
  refine ⟨_, .inner, ?_⟩
  rw [← hsame]
  have hle : s.left ≤ s.entered := by
    simp only [State.entered, State.left]
    omega
  refine hi'.catches_up hw' hle (Nat.min_le_right ..) ((entered_le s).trans hkeys) ((left_le s).trans hdrawn) ?_ ?_
  · intro t ht
    exact h.enqueued_entered (henq ▸ ht)
  · intro t ht
    rw [State.dequeued, hdeq] at ht
    exact h.dequeued_left ht

theorem Inv.inner_follows (h : Inv s) (few : s.Few) (hi' : Inv s') (hw' : Waiting s') (ha : s.act tid = some s')
    (goesOn : (s.phase tid).result = none) : Helping.Step bounded s.view (.inner tid) s'.view := by
  cases hph : s.phase tid with
  | idle => simp [State.act, hph] at ha
  | addRear key =>
    obtain rfl : _ = s' := by simpa [State.act, hph] using ha
    have hprefix : s.keys.length ≤ (s.keys ++ [key]).length := by simp
    refine h.draw hi' hw' (viewAt_congr ?_ rfl ?_ fun i _ => ?_) hprefix (Nat.le_refl _) rfl rfl
    · exact congrArg (List.drop s.left) (List.take_append_of_le_length (entered_le s))
    · rw [hph]
      refine if_neg ?_
      rw [h.rear_toNat few]
      exact Nat.not_lt.mpr (entered_le s)
    · refine status_congr (fun _ _ _ => Iff.rfl) fun seq _ => ⟨Iff.rfl, fun hlt => ?_⟩
      exact List.getElem?_append_left (hlt.trans_le (Nat.min_le_right ..))
  | addFront =>
    obtain rfl : _ = s' := by simpa [State.act, hph] using ha
    refine h.draw hi' hw' (viewAt_congr rfl rfl ?_ fun i _ => rfl) (Nat.le_refl _) (Nat.le_succ _) rfl rfl
    rw [hph]
    refine if_neg ?_
    rw [h.front_toNat few]
    exact Nat.not_lt.mpr (left_le s)
  | testEven key seq | testOdd seq =>
    simp only [State.act, hph] at ha
    split at ha
    · cases ha; exact ⟨_, .inner, .refl⟩
    · split at ha
      · cases ha
        exact skip rfl rfl rfl (by rw [hph]; rfl)
      · cases ha; exact ⟨_, .inner, .refl⟩
  | storeKey key seq | loadEven key seq | loadKey seq | loadOdd seq key =>
    obtain rfl : _ = s' := by simpa [State.act, hph] using ha
    exact skip rfl rfl rfl (by rw [hph]; rfl)
  | storeOdd key seq f | storeEven seq key f => simp [hph, Phase.result] at goesOn

/-- What is over has taken effect, as it counts as complete after the step. -/
theorem Inv.ret_follows {res : Option Int} (h : Inv s) (hi' : Inv s') (ha : s.act tid = some s')
    (returns : (s.phase tid).result = some res) : Helping.Step bounded s.view (.ret tid res) s'.view := by
  cases hph : s.phase tid with
  | storeOdd key seq f =>
    obtain rfl : _ = s' := by simpa [State.act, hph] using ha
    obtain rfl : none = res := by simpa [hph, Phase.result] using returns
    have hlt : seq.toNat < s.entered := hi'.enqueued_entered (List.mem_append_right _ List.mem_cons_self)
    have hdone : s.view.status tid = .done none := (status_at hph).trans (if_pos hlt)
    exact ⟨_, .ret hdone, quiet .idle rfl rfl rfl⟩
  | storeEven seq key f =>
    have own := h.threads tid
    rw [hph] at own
    obtain ⟨-, hkey, -⟩ : _ ∧ s.keys[seq.toNat]? = some key ∧ _ := own.agrees
    obtain rfl : _ = s' := by simpa [State.act, hph] using ha
    obtain rfl : some key = res := by simpa [hph, Phase.result] using returns
    have hmem : seq.toNat ∈ (s.returned ++ [(seq.toNat, key)]).map (·.1) := by simp
    have hlt : seq.toNat < s.left := hi'.dequeued_left hmem
    have hdone : s.view.status tid = .done (some key) :=
      ((status_at hph).trans (if_pos hlt)).trans (congrArg Atomic.Status.done hkey)
    exact ⟨_, .ret hdone, quiet .idle rfl rfl rfl⟩
  | _ => simp [hph, Phase.result] at returns

/-- Every step is a step of the buffer. -/
theorem Inv.follows (h : Inv s) (few : s.Few) (hi' : Inv s') (hw' : Waiting s') (hs : EventStep s ev s') :
    Helping.Step bounded s.view ev s'.view := by
  cases hs with
  | @enqueue tid key idle => exact ⟨_, .call (status_at idle), quiet (.addRear key) rfl rfl rfl⟩
  | @dequeue tid idle => exact ⟨_, .call (status_at idle), quiet .addFront rfl rfl rfl⟩
  | inner ha goesOn => exact h.inner_follows few hi' hw' ha goesOn
  | ret ha returns => exact h.ret_follows hi' ha returns

/-! ### Runs -/

theorem EventStep.waiting (hs : EventStep s ev s') (h : Inv s) (few : s.Few) (hw : Waiting s) : Waiting s' := by
  cases hs with
  | enqueue idle | dequeue idle => exact hw.goto (by rw [idle]; rfl) (by rw [idle]; rfl)
  | inner ha _ | ret ha _ => exact hw.act h few ha

theorem Inv.shows (h : Inv s) (few : s.Few) : Shows s s.view.value := by
  rw [Shows, h.front_toNat few, h.rear_toNat few]
  refine ⟨?_, fun t hfront hrear hflag => ?_⟩
  · rw [State.view, State.viewAt, List.length_drop, List.length_take]
    simp only [State.entered, State.left]
    omega
  · have hstored := h.stored t hflag
    have hindex : s.left + (t - s.left) = t := Nat.add_sub_of_le hfront
    refine List.getElem?_drop.trans ?_
    refine Eq.trans ?_ hstored
    rw [← List.getElem?_take_of_lt hrear]
    exact congrArg (fun k => (s.keys.take s.entered)[k]?) hindex

/-- An access draws one ticket at most. -/
theorem few_of_spare (ha : s.act tid = some s') (spare : s.Spare) : s'.Few := by
  obtain ⟨hkeys, hdrawn⟩ := spare
  have hold : s.Few := ⟨by omega, by omega⟩
  cases hph : s.phase tid with
  | idle => simp [State.act, hph] at ha
  | addRear key =>
    obtain rfl : _ = s' := by simpa [State.act, hph] using ha
    exact ⟨by simpa [State.goto, State.drawRear] using hkeys, hold.2⟩
  | addFront =>
    obtain rfl : _ = s' := by simpa [State.act, hph] using ha
    exact ⟨hold.1, hdrawn⟩
  | testEven key seq | testOdd seq =>
    simp only [State.act, hph] at ha
    split at ha
    · cases ha; exact hold
    · split at ha <;> cases ha <;> exact hold
  | _ =>
    obtain rfl : _ = s' := by simpa [State.act, hph] using ha
    exact hold

theorem EventStep.few (hs : EventStep s ev s') (spare : s.Spare) : s'.Few := by
  cases hs with
  | enqueue idle | dequeue idle => exact ⟨(Nat.lt_succ_self _).trans spare.1, (Nat.lt_succ_self _).trans spare.2⟩
  | inner ha _ | ret ha _ => exact few_of_spare ha spare

/-- Every execution is one of the atomic bounded queue, in which one step may complete the operations
of threads that it lets overtake. -/
theorem bounded_linearizable :
    Helping.Linearizable bounded (eventSystem.restrict fun s _ => s.Spare) Shows := by
  refine Refines.of_simulation (fun s a => Inv s ∧ s.Few ∧ Waiting s ∧ a = s.view) ?_ ?_ ?_
  · rintro s rfl
    exact ⟨_, rfl, inv_initQueue, ⟨by decide, by decide⟩, waiting_initQueue, rfl⟩
  · rintro s a ev s' ⟨hi, few, hw, rfl⟩ ⟨h, spare⟩
    obtain ⟨tid, hstep⟩ := EventStep.step h
    have few' := h.few spare
    have hi' := hi.step few' hstep
    have hw' := h.waiting hi few hw
    exact ⟨_, hi.follows few hi' hw' h, hi', few', hw', rfl⟩
  · rintro s a ⟨hi, few, -, rfl⟩
    exact hi.shows few

end BoundedQueue
