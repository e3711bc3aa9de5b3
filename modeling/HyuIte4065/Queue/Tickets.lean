import HyuIte4065.Queue.Bounded
import Mathlib.Data.List.Nodup

/-!
# The bounded queue hands over every ticket

The flag of a slot counts what has happened there, so it tells exactly which tickets are
complete. A thread that has passed the test owns its slot until it stores the flag, and the
round that it compared with leaves no other ticket that could pass meanwhile.
-/
namespace BoundedQueue

open Transition

variable {s s' : State} {tid i j : ThreadId} {seq seq' : Ticket} {key : Int} {ph : Phase} {t n : Nat}
  {f : BitVec 64}

theorem slotIdx_eq (seq : Ticket) : slotIdx seq = seq.toNat % queueSize := rfl

theorem round_toNat (seq : Ticket) : (round seq).toNat = seq.toNat / queueSize := rfl

theorem even_of (hf : ¬ f % 2 = 1) (hr : f / 2 = round seq) :
    f.toNat = 2 * (seq.toNat / queueSize) := by
  have hdiv : f.toNat / 2 = seq.toNat / queueSize := by
    rw [← round_toNat, ← hr]
    rfl
  have hmod : ¬ f.toNat % 2 = 1 := fun h => hf (BitVec.eq_of_toNat_eq h)
  omega

theorem odd_of (hf : ¬ f % 2 = 0) (hr : f / 2 = round seq) :
    f.toNat = 2 * (seq.toNat / queueSize) + 1 := by
  have hdiv : f.toNat / 2 = seq.toNat / queueSize := by
    rw [← round_toNat, ← hr]
    rfl
  have hmod : ¬ f.toNat % 2 = 0 := fun h => hf (BitVec.eq_of_toNat_eq h)
  omega

/-- The flag never gets near its bound. -/
theorem toNat_succ (hf : f.toNat ≤ 2 * (seq.toNat / queueSize) + 1) :
    (f + 1).toNat = f.toNat + 1 := by
  have hlt := seq.isLt
  have hone : (1 : BitVec 64).toNat = 1 := rfl
  rw [BitVec.toNat_add, hone, Nat.mod_eq_of_lt]
  unfold queueSize at hf
  omega

theorem ticket_eq (hslot : seq.toNat % queueSize = seq'.toNat % queueSize)
    (hround : seq.toNat / queueSize = seq'.toNat / queueSize) : seq = seq' := by
  refine BitVec.eq_of_toNat_eq ?_
  rw [← Nat.div_add_mod seq.toNat queueSize, hslot, hround, Nat.div_add_mod]

namespace Phase

/-- The ticket that an enqueue has drawn, with its key. -/
def enqueues : Phase → Option (Int × Ticket)
  | .testEven key seq => some (key, seq)
  | .storeKey key seq => some (key, seq)
  | .loadEven key seq => some (key, seq)
  | .storeOdd key seq _ => some (key, seq)
  | _ => none

/-- The ticket that a dequeue has drawn. -/
def dequeues : Phase → Option Ticket
  | .testOdd seq => some seq
  | .loadKey seq => some seq
  | .loadOdd seq _ => some seq
  | .storeEven seq _ _ => some seq
  | _ => none

/-- The ticket of a thread that has passed the test and not yet stored the flag. -/
def inside : Phase → Option Ticket
  | .storeKey _ seq => some seq
  | .loadEven _ seq => some seq
  | .storeOdd _ seq _ => some seq
  | .loadKey seq => some seq
  | .loadOdd seq _ => some seq
  | .storeEven seq _ _ => some seq
  | _ => none

/-- What a thread that has passed the test knows about its slot. -/
def Agrees (s : State) : Phase → Prop
  | .storeKey _ seq => (s.queue (slotIdx seq)).flag.toNat = 2 * (seq.toNat / queueSize)
  | .loadEven key seq => (s.queue (slotIdx seq)).flag.toNat = 2 * (seq.toNat / queueSize) ∧
      (s.queue (slotIdx seq)).key = key
  | .storeOdd key seq flag => (s.queue (slotIdx seq)).flag.toNat = 2 * (seq.toNat / queueSize) ∧
      (s.queue (slotIdx seq)).key = key ∧ flag = (s.queue (slotIdx seq)).flag
  | .loadKey seq => (s.queue (slotIdx seq)).flag.toNat = 2 * (seq.toNat / queueSize) + 1
  | .loadOdd seq retKey => (s.queue (slotIdx seq)).flag.toNat = 2 * (seq.toNat / queueSize) + 1 ∧
      s.keys[seq.toNat]? = some retKey
  | .storeEven seq retKey flag => (s.queue (slotIdx seq)).flag.toNat = 2 * (seq.toNat / queueSize) + 1 ∧
      s.keys[seq.toNat]? = some retKey ∧ flag = (s.queue (slotIdx seq)).flag
  | _ => True

end Phase

/-- The flag of the slot of a ticket. -/
def State.flagOf (s : State) (t : Nat) : Nat := (s.queue (t % queueSize)).flag.toNat

def State.dequeued (s : State) : List Nat := s.returned.map (·.1)

/-- What holds of the memory and the record, whatever the threads are doing. -/
structure Shared (s : State) : Prop where
  rear : s.rear = BitVec.ofNat 64 s.keys.length
  front : s.front = BitVec.ofNat 64 s.drawn
  enqueued : ∀ t, t ∈ s.enqueued ↔ 2 * (t / queueSize) + 1 ≤ s.flagOf t
  dequeued : ∀ t, t ∈ s.dequeued ↔ 2 * (t / queueSize) + 2 ≤ s.flagOf t
  nodupEnqueued : s.enqueued.Nodup
  nodupDequeued : s.dequeued.Nodup
  enqueued_lt : ∀ t ∈ s.enqueued, t < s.keys.length
  dequeued_lt : ∀ t ∈ s.dequeued, t < s.drawn
  stored : ∀ t, s.flagOf t = 2 * (t / queueSize) + 1 →
    s.keys[t]? = some (s.queue (t % queueSize)).key
  answers : ∀ t key, (t, key) ∈ s.returned → s.keys[t]? = some key
  counts : ∀ n < queueSize, (s.queue n).flag.toNat =
    s.enqueued.countP (fun t => decide (t % queueSize = n)) +
      s.dequeued.countP (fun t => decide (t % queueSize = n))

/-- What one thread relies on. -/
structure Own (s : State) (ph : Phase) : Prop where
  enqueues : ∀ key seq, ph.enqueues = some (key, seq) →
    s.keys[seq.toNat]? = some key ∧ seq.toNat ∉ s.enqueued
  dequeues : ∀ seq, ph.dequeues = some seq → seq.toNat < s.drawn ∧ seq.toNat ∉ s.dequeued
  agrees : ph.Agrees s

structure Inv (s : State) : Prop extends Shared s where
  threads : ∀ i, Own s (s.phase i)
  oneEnqueue : ∀ i j key key' seq, (s.phase i).enqueues = some (key, seq) →
    (s.phase j).enqueues = some (key', seq) → i = j
  oneDequeue : ∀ i j seq, (s.phase i).dequeues = some seq → (s.phase j).dequeues = some seq → i = j

/-- The number of operations is below the bound of the counters. -/
def State.Few (s : State) : Prop := s.keys.length < 2 ^ 64 ∧ s.drawn < 2 ^ 64

/-- A thread inside a slot holds the one ticket that the flag lets in. -/
theorem Own.inside (h : Own s ph) (hi : ph.inside = some seq) :
    (s.flagOf seq.toNat = 2 * (seq.toNat / queueSize) ∧ ∃ key, ph.enqueues = some (key, seq)) ∨
    (s.flagOf seq.toNat = 2 * (seq.toNat / queueSize) + 1 ∧ ph.dequeues = some seq) := by
  have ha := h.agrees
  cases ph with
  | storeKey k q => cases hi; exact .inl ⟨ha, k, rfl⟩
  | loadEven k q => cases hi; exact .inl ⟨ha.1, k, rfl⟩
  | storeOdd k q f => cases hi; exact .inl ⟨ha.1, k, rfl⟩
  | loadKey q => cases hi; exact .inr ⟨ha, rfl⟩
  | loadOdd q k => cases hi; exact .inr ⟨ha.1, rfl⟩
  | storeEven q k f => cases hi; exact .inr ⟨ha.1, rfl⟩
  | _ => cases hi

/-- At most one thread is inside a slot. -/
theorem Inv.inside_unique (h : Inv s) (hi : (s.phase i).inside = some seq)
    (hj : (s.phase j).inside = some seq') (hslot : slotIdx seq = slotIdx seq') : i = j := by
  rw [slotIdx_eq, slotIdx_eq] at hslot
  have hflag : s.flagOf seq.toNat = s.flagOf seq'.toNat := by rw [State.flagOf, State.flagOf, hslot]
  rcases (h.threads i).inside hi with ⟨hf, k, hk⟩ | ⟨hf, hd⟩ <;>
  rcases (h.threads j).inside hj with ⟨hf', k', hk'⟩ | ⟨hf', hd'⟩
  · obtain rfl := ticket_eq hslot (by omega)
    exact h.oneEnqueue i j k k' seq hk hk'
  · omega
  · omega
  · obtain rfl := ticket_eq hslot (by omega)
    exact h.oneDequeue i j seq hd hd'

theorem Phase.Agrees.congr (h : ph.Agrees s)
    (hq : ∀ seq, ph.inside = some seq → s'.queue (slotIdx seq) = s.queue (slotIdx seq))
    (hk : ∀ (t : Nat) key, s.keys[t]? = some key → s'.keys[t]? = some key) : ph.Agrees s' := by
  cases ph with
  | storeKey k q | loadEven k q | storeOdd k q f | loadKey q =>
    simpa only [Phase.Agrees, hq q rfl] using h
  | loadOdd q k =>
    simp only [Phase.Agrees, hq q rfl]
    exact h.imp_right (hk _ _)
  | storeEven q k f =>
    simp only [Phase.Agrees, hq q rfl]
    exact ⟨h.1, hk _ _ h.2.1, h.2.2⟩
  | _ => trivial

theorem Own.congr (h : Own s ph)
    (hq : ∀ seq, ph.inside = some seq → s'.queue (slotIdx seq) = s.queue (slotIdx seq))
    (hk : ∀ (t : Nat) key, s.keys[t]? = some key → s'.keys[t]? = some key) (hd : s.drawn ≤ s'.drawn)
    (henq : ∀ key seq, ph.enqueues = some (key, seq) → seq.toNat ∈ s'.enqueued → seq.toNat ∈ s.enqueued)
    (hdeq : ∀ seq, ph.dequeues = some seq → seq.toNat ∈ s'.dequeued → seq.toNat ∈ s.dequeued) :
    Own s' ph := by
  refine ⟨fun key seq he => ?_, fun seq he => ?_, h.agrees.congr hq hk⟩
  · obtain ⟨h₁, h₂⟩ := h.enqueues key seq he
    exact ⟨hk _ _ h₁, fun hm => h₂ (henq key seq he hm)⟩
  · obtain ⟨h₁, h₂⟩ := h.dequeues seq he
    exact ⟨h₁.trans_le hd, fun hm => h₂ (hdeq seq he hm)⟩

/-- Own knowledge speaks of the memory and the record, not of where the threads are. -/
theorem Own.goto {ph' : Phase} (h : Own s ph) : Own (s.goto tid ph') ph :=
  h.congr (fun _ _ => rfl) (fun _ _ h => h) (Nat.le_refl _) (fun _ _ _ h => h) fun _ _ h => h

/-! ### Steps -/

/-- A step of one thread: what it leaves behind, and what the others still rely on. -/
theorem Inv.update (h : Inv s) (hs : Shared s') (hphase : s'.phase = Function.update s.phase tid ph)
    (own : Own s' ph) (others : ∀ i ≠ tid, Own s' (s.phase i))
    (henq : ∀ key seq, ph.enqueues = some (key, seq) →
      ∀ i ≠ tid, ∀ key', (s.phase i).enqueues ≠ some (key', seq))
    (hdeq : ∀ seq, ph.dequeues = some seq → ∀ i ≠ tid, (s.phase i).dequeues ≠ some seq) : Inv s' := by
  refine ⟨hs, ?_, ?_, ?_⟩
  · intro i
    rw [hphase]
    by_cases hi : i = tid
    · rw [hi, Function.update_self]
      exact own
    · rw [Function.update_of_ne hi]
      exact others i hi
  · intro i j key key' seq hi hj
    rw [hphase] at hi hj
    by_cases hit : i = tid <;> by_cases hjt : j = tid
    · rw [hit, hjt]
    · rw [hit, Function.update_self] at hi
      rw [Function.update_of_ne hjt] at hj
      exact absurd hj (henq key seq hi j hjt key')
    · rw [hjt, Function.update_self] at hj
      rw [Function.update_of_ne hit] at hi
      exact absurd hi (henq key' seq hj i hit key)
    · rw [Function.update_of_ne hit] at hi
      rw [Function.update_of_ne hjt] at hj
      exact h.oneEnqueue i j key key' seq hi hj
  · intro i j seq hi hj
    rw [hphase] at hi hj
    by_cases hit : i = tid <;> by_cases hjt : j = tid
    · rw [hit, hjt]
    · rw [hit, Function.update_self] at hi
      rw [Function.update_of_ne hjt] at hj
      exact absurd hj (hdeq seq hi j hjt)
    · rw [hjt, Function.update_self] at hj
      rw [Function.update_of_ne hit] at hi
      exact absurd hi (hdeq seq hj i hit)
    · rw [Function.update_of_ne hit] at hi
      rw [Function.update_of_ne hjt] at hj
      exact h.oneDequeue i j seq hi hj

theorem Inv.enqueues_ne (h : Inv s) (ht : (s.phase tid).enqueues = some (key, seq)) :
    ∀ i ≠ tid, ∀ key', (s.phase i).enqueues ≠ some (key', seq) :=
  fun i hi key' he => hi (h.oneEnqueue i tid key' key seq he ht)

theorem Inv.dequeues_ne (h : Inv s) (ht : (s.phase tid).dequeues = some seq) :
    ∀ i ≠ tid, (s.phase i).dequeues ≠ some seq :=
  fun i hi he => hi (h.oneDequeue i tid seq he ht)

/-- A step that only changes what the thread itself knows. -/
theorem Inv.goto (h : Inv s)
    (henq : ∀ key seq, ph.enqueues = some (key, seq) → (s.phase tid).enqueues = some (key, seq))
    (hdeq : ∀ seq, ph.dequeues = some seq → (s.phase tid).dequeues = some seq) (ha : ph.Agrees s) :
    Inv (s.goto tid ph) := by
  have own : Own s ph := ⟨fun key seq he => (h.threads tid).enqueues key seq (henq key seq he),
    fun seq he => (h.threads tid).dequeues seq (hdeq seq he), ha⟩
  exact h.update ⟨h.rear, h.front, h.enqueued, h.dequeued, h.nodupEnqueued, h.nodupDequeued,
    h.enqueued_lt, h.dequeued_lt, h.stored, h.answers, h.counts⟩ rfl own.goto
    (fun i _ => (h.threads i).goto) (fun key seq he => h.enqueues_ne (henq key seq he))
    fun seq he => h.dequeues_ne (hdeq seq he)

theorem inv_initQueue : Inv .initQueue := by
  refine ⟨⟨rfl, rfl, ?_, ?_, .nil, .nil, nofun, nofun, ?_, nofun, ?_⟩, ?_, nofun, nofun⟩
  · intro t
    simp [State.initQueue, State.flagOf]
  · intro t
    simp [State.initQueue, State.flagOf, State.dequeued]
  · intro t ht
    simp [State.initQueue, State.flagOf] at ht
  · intro n _
    rfl
  · intro i
    exact ⟨nofun, nofun, trivial⟩

theorem getElem?_snoc {keys : List Int} (key' : Int) (h : keys[t]? = some key) :
    (keys ++ [key'])[t]? = some key := by
  rw [List.getElem?_append_left (List.getElem?_eq_some_iff.mp h).1]
  exact h

theorem Inv.drawRear (h : Inv s) (key : Int) (few : s.keys.length + 1 < 2 ^ 64) :
    Inv ((s.drawRear key).goto tid (.testEven key s.rear)) := by
  have hrear : s.rear.toNat = s.keys.length := by
    rw [h.rear, BitVec.toNat_ofNat, Nat.mod_eq_of_lt (by omega)]
  refine h.update ⟨?_, h.front, h.enqueued, h.dequeued, h.nodupEnqueued, h.nodupDequeued, ?_,
    h.dequeued_lt, ?_, ?_, h.counts⟩ rfl ⟨?_, nofun, trivial⟩ (fun i _ => ?_) ?_ nofun
  · change s.rear + 1 = _
    rw [h.rear]
    simp [State.goto, State.drawRear, BitVec.ofNat_add]
  · intro t ht
    exact (h.enqueued_lt t ht).trans_le (by simp [State.goto, State.drawRear])
  · intro t ht
    exact getElem?_snoc key (h.stored t ht)
  · intro t key' ht
    exact getElem?_snoc key (h.answers t key' ht)
  · rintro key' seq ⟨rfl, rfl⟩
    refine ⟨?_, fun hm => ?_⟩
    · rw [hrear]
      exact List.getElem?_concat_length
    · have := h.enqueued_lt _ hm
      omega
  · exact (h.threads i).congr (fun _ _ => rfl) (fun t key' ht => getElem?_snoc key ht) (Nat.le_refl _)
      (fun _ _ _ hm => hm) fun _ _ hm => hm
  · rintro key' seq ⟨rfl, rfl⟩ i hi key' he
    obtain ⟨hk, -⟩ := (h.threads i).enqueues key' s.rear he
    rw [hrear, List.getElem?_eq_none (Nat.le_refl _)] at hk
    cases hk

theorem Inv.drawFront (h : Inv s) (few : s.drawn + 1 < 2 ^ 64) :
    Inv (s.drawFront.goto tid (.testOdd s.front)) := by
  have hfront : s.front.toNat = s.drawn := by
    rw [h.front, BitVec.toNat_ofNat, Nat.mod_eq_of_lt (by omega)]
  refine h.update ⟨h.rear, ?_, h.enqueued, h.dequeued, h.nodupEnqueued, h.nodupDequeued,
    h.enqueued_lt, ?_, h.stored, h.answers, h.counts⟩ rfl ⟨nofun, ?_, trivial⟩ (fun i _ => ?_) nofun ?_
  · change s.front + 1 = _
    rw [h.front]
    simp [State.goto, State.drawFront, BitVec.ofNat_add]
  · intro t ht
    exact (h.dequeued_lt t ht).trans (Nat.lt_succ_self _)
  · rintro seq ⟨rfl⟩
    refine ⟨by rw [hfront]; exact Nat.lt_succ_self _, fun hm => ?_⟩
    have := h.dequeued_lt _ hm
    omega
  · exact (h.threads i).congr (fun _ _ => rfl) (fun _ _ ht => ht) (Nat.le_succ _)
      (fun _ _ _ hm => hm) fun _ _ hm => hm
  · rintro seq ⟨rfl⟩ i hi he
    have := ((h.threads i).dequeues s.front he).1
    omega

/-! ### Stores to a slot -/

theorem flagOf_setNode {node : QueueNode} :
    (s.setNode n node).flagOf t = if t % queueSize = n then node.flag.toNat else s.flagOf t := by
  by_cases ht : t % queueSize = n
  · simp [State.flagOf, State.setNode, ht]
  · simp [State.flagOf, State.setNode, ht]

/-- The others are outside the slot in which a thread is. -/
theorem Inv.slot_ne (h : Inv s) (ht : (s.phase tid).inside = some seq) (hi : i ≠ tid)
    (he : (s.phase i).inside = some seq') : slotIdx seq' ≠ slotIdx seq :=
  fun hslot => hi (h.inside_unique he ht hslot)

theorem Inv.storeKey (h : Inv s) (hph : s.phase tid = .storeKey key seq) :
    Inv ((s.setNode (slotIdx seq) { s.queue (slotIdx seq) with key := key }).goto tid
      (.loadEven key seq)) := by
  have own := h.threads tid
  rw [hph] at own
  have hflag : ∀ t, (s.setNode (slotIdx seq) { s.queue (slotIdx seq) with key := key }).flagOf t =
      s.flagOf t := by
    intro t
    rw [flagOf_setNode]
    by_cases ht : t % queueSize = slotIdx seq
    · rw [if_pos ht, State.flagOf, ht]
    · rw [if_neg ht]
  refine h.update ⟨h.rear, h.front, ?_, ?_, h.nodupEnqueued, h.nodupDequeued, h.enqueued_lt,
    h.dequeued_lt, ?_, h.answers, ?_⟩ rfl ⟨?_, nofun, ?_⟩ (fun i hi => ?_) ?_ nofun
  · intro t
    exact (h.enqueued t).trans (by rw [← hflag]; rfl)
  · intro t
    exact (h.dequeued t).trans (by rw [← hflag]; rfl)
  · intro t ht
    have hold : s.flagOf t = 2 * (t / queueSize) + 1 := (hflag t).symm.trans ht
    -- the flag of the slot that is written is even
    have hne : t % queueSize ≠ slotIdx seq := by
      intro he
      have hag : (s.queue (slotIdx seq)).flag.toNat = 2 * (seq.toNat / queueSize) := own.agrees
      rw [State.flagOf, he] at hold
      omega
    simpa [State.goto, State.setNode, hne] using h.stored t hold
  · intro n hn
    refine Eq.trans ?_ (h.counts n hn)
    by_cases hs : n = slotIdx seq
    · simp [State.goto, State.setNode, hs]
    · simp [State.goto, State.setNode, hs]
  · rintro key' seq' ⟨rfl, rfl⟩
    exact own.enqueues key seq rfl
  · have hag : (s.queue (slotIdx seq)).flag.toNat = 2 * (seq.toNat / queueSize) := own.agrees
    simp [Phase.Agrees, State.goto, State.setNode, hag]
  · refine (h.threads i).congr (fun seq' he => ?_) (fun _ _ ht => ht) (Nat.le_refl _)
      (fun _ _ _ hm => hm) fun _ _ hm => hm
    exact Function.update_of_ne (h.slot_ne (by rw [hph]; rfl) hi he) _ _
  · rintro key' seq' ⟨rfl, rfl⟩
    exact h.enqueues_ne (by rw [hph]; rfl)

/-- One more completed operation on the slot of its ticket. -/
theorem countP_snoc (l : List Nat) (seq : Ticket) (n : Nat) :
    (l ++ [seq.toNat]).countP (fun t => decide (t % queueSize = n)) =
      l.countP (fun t => decide (t % queueSize = n)) + if n = slotIdx seq then 1 else 0 := by
  rw [List.countP_append, List.countP_singleton, slotIdx_eq]
  by_cases hn : n = seq.toNat % queueSize
  · simp [hn]
  · simp [hn, Ne.symm hn]

/-- The store of `flag++` on the slot of a ticket. -/
def State.bump (s : State) (seq : Ticket) : State :=
  s.setFlag (slotIdx seq) ((s.queue (slotIdx seq)).flag + 1)

theorem bump_toNat (hf : s.flagOf seq.toNat ≤ 2 * (seq.toNat / queueSize) + 1) (n : Nat) :
    ((s.bump seq).queue n).flag.toNat =
      (s.queue n).flag.toNat + if n = slotIdx seq then 1 else 0 := by
  by_cases hn : n = slotIdx seq
  · rw [if_pos hn, hn]
    refine Eq.trans ?_ (toNat_succ hf)
    simp [State.bump, State.setFlag, State.setNode, slotIdx_eq]
  · simp [State.bump, State.setFlag, State.setNode, hn]

theorem bump_le (t : Nat) (hf : s.flagOf seq.toNat ≤ 2 * (seq.toNat / queueSize) + 1) :
    s.flagOf t ≤ (s.bump seq).flagOf t := by
  rw [State.flagOf, State.flagOf, bump_toNat hf]
  exact Nat.le_add_right _ _

theorem bump_key (n : Nat) : ((s.bump seq).queue n).key = (s.queue n).key := by
  by_cases hn : n = slotIdx seq
  · simp [State.bump, State.setFlag, State.setNode, hn]
  · simp [State.bump, State.setFlag, State.setNode, hn]

theorem bump_queue (hn : n ≠ slotIdx seq) : (s.bump seq).queue n = s.queue n :=
  Function.update_of_ne hn _ _

/-- The operation whose turn it was is complete now: with `c` the parity of its kind. -/
theorem bump_turn {l : List Nat} {c : Nat} (hc : c = 1 ∨ c = 2)
    (h : ∀ t, t ∈ l ↔ 2 * (t / queueSize) + c ≤ s.flagOf t)
    (hseq : s.flagOf seq.toNat + 1 = 2 * (seq.toNat / queueSize) + c) (t : Nat) :
    t ∈ l ++ [seq.toNat] ↔ 2 * (t / queueSize) + c ≤ (s.bump seq).flagOf t := by
  rw [List.mem_append, List.mem_singleton, h, State.flagOf, State.flagOf, bump_toNat (by omega),
    slotIdx_eq]
  have ht := Nat.div_add_mod t queueSize
  have hs := Nat.div_add_mod seq.toNat queueSize
  by_cases hslot : t % queueSize = seq.toNat % queueSize
  · rw [State.flagOf] at hseq
    rw [if_pos hslot, hslot, hseq]
    constructor
    · rintro (hle | rfl) <;> omega
    · intro hle
      by_cases hd : t / queueSize = seq.toNat / queueSize
      · exact .inr (by rw [← ht, ← hs, hslot, hd])
      · exact .inl (by omega)
  · rw [if_neg hslot, Nat.add_zero]
    exact or_iff_left fun he => hslot (by rw [he])

/-- No operation of the other kind becomes complete. -/
theorem bump_other {l : List Nat} {c : Nat} (h : ∀ t, t ∈ l ↔ 2 * (t / queueSize) + c ≤ s.flagOf t)
    (hf : s.flagOf seq.toNat ≤ 2 * (seq.toNat / queueSize) + 1)
    (hodd : (s.flagOf seq.toNat + 1 + c) % 2 = 1) (t : Nat) :
    t ∈ l ↔ 2 * (t / queueSize) + c ≤ (s.bump seq).flagOf t := by
  rw [h, State.flagOf, State.flagOf, bump_toNat hf, slotIdx_eq]
  by_cases hslot : t % queueSize = seq.toNat % queueSize
  · rw [State.flagOf] at hodd
    rw [if_pos hslot, hslot]
    omega
  · rw [if_neg hslot, Nat.add_zero]

theorem nodup_snoc {l : List Nat} (h : l.Nodup) (ht : t ∉ l) : (l ++ [t]).Nodup := by
  rw [← List.concat_eq_append]
  exact h.concat ht

theorem Inv.others_bump (h : Inv s) (ht : (s.phase tid).inside = some seq) (hi : i ≠ tid)
    (hqueue : s'.queue = (s.bump seq).queue) (hkeys : s'.keys = s.keys) (hdrawn : s'.drawn = s.drawn)
    (henq : ∀ t ∈ s'.enqueued, t ∈ s.enqueued ∨
      t = seq.toNat ∧ ∃ key, (s.phase tid).enqueues = some (key, seq))
    (hdeq : ∀ t ∈ s'.dequeued, t ∈ s.dequeued ∨ t = seq.toNat ∧ (s.phase tid).dequeues = some seq) :
    Own s' (s.phase i) := by
  refine (h.threads i).congr (fun q hq => ?_) (fun t key hk => by rwa [hkeys]) (by rw [hdrawn])
    (fun key q he hm => ?_) fun q he hm => ?_
  · rw [hqueue]
    exact bump_queue (h.slot_ne ht hi hq)
  · refine (henq _ hm).resolve_right fun ⟨hq, key', hk⟩ => ?_
    obtain rfl := BitVec.eq_of_toNat_eq hq
    exact h.enqueues_ne hk i hi key he
  · refine (hdeq _ hm).resolve_right fun ⟨hq, hd⟩ => ?_
    obtain rfl := BitVec.eq_of_toNat_eq hq
    exact h.dequeues_ne hd i hi he

/-- The end of an enqueue: the flag becomes odd. -/
theorem Inv.storeOdd (h : Inv s) (hph : s.phase tid = .storeOdd key seq f) :
    Inv ({ s.setFlag (slotIdx seq) (f + 1) with enqueued := s.enqueued ++ [seq.toNat] }.goto tid .idle) := by
  have own := h.threads tid
  rw [hph] at own
  obtain ⟨hflag, hkey, rfl⟩ : s.flagOf seq.toNat = 2 * (seq.toNat / queueSize) ∧
    (s.queue (slotIdx seq)).key = key ∧ f = (s.queue (slotIdx seq)).flag := own.agrees
  obtain ⟨hk, hnew⟩ := own.enqueues key seq rfl
  have hturn := bump_turn (.inl rfl) h.enqueued (by omega : s.flagOf seq.toNat + 1 = _)
  have hmono := fun t => bump_le t (by omega : s.flagOf seq.toNat ≤ _)
  refine h.update ⟨h.rear, h.front, hturn, bump_other h.dequeued (by omega) (by omega),
    nodup_snoc h.nodupEnqueued hnew, h.nodupDequeued, ?_, h.dequeued_lt, ?_, h.answers, ?_⟩ rfl
    ⟨nofun, nofun, trivial⟩ (fun i hi => ?_) nofun nofun
  · intro t ht
    rcases List.mem_append.mp ht with ht | ht
    · exact h.enqueued_lt t ht
    · rw [List.mem_singleton.mp ht]
      exact (List.getElem?_eq_some_iff.mp hk).1
  · intro t ht
    have hodd : (s.bump seq).flagOf t = 2 * (t / queueSize) + 1 := ht
    change s.keys[t]? = some ((s.bump seq).queue _).key
    rw [bump_key]
    rcases List.mem_append.mp ((hturn t).mpr hodd.ge) with hm | hm
    · have hle := (h.enqueued t).mp hm
      have hge := hmono t
      exact h.stored t (by omega)
    · rw [List.mem_singleton.mp hm, ← slotIdx_eq, hkey]
      exact hk
  · intro n hn
    refine (bump_toNat (by omega) n).trans ?_
    rw [h.counts n hn, Nat.add_right_comm, ← countP_snoc]
    rfl
  · refine h.others_bump (by rw [hph]; rfl) hi rfl rfl rfl (fun t ht => ?_) fun t ht => .inl ht
    refine (List.mem_append.mp ht).imp_right fun hm => ⟨List.mem_singleton.mp hm, key, by rw [hph]; rfl⟩

/-- The end of a dequeue: the flag becomes even again. -/
theorem Inv.storeEven (h : Inv s) (hph : s.phase tid = .storeEven seq key f) :
    Inv ({ s.setFlag (slotIdx seq) (f + 1) with returned := s.returned ++ [(seq.toNat, key)] }.goto tid
      .idle) := by
  have own := h.threads tid
  rw [hph] at own
  obtain ⟨hflag, hkey, rfl⟩ : s.flagOf seq.toNat = 2 * (seq.toNat / queueSize) + 1 ∧
    s.keys[seq.toNat]? = some key ∧ f = (s.queue (slotIdx seq)).flag := own.agrees
  obtain ⟨hlt, hnew⟩ := own.dequeues seq rfl
  have hsnoc : (s.returned ++ [(seq.toNat, key)]).map (·.1) = s.dequeued ++ [seq.toNat] :=
    List.map_append
  have hturn := bump_turn (.inr rfl) h.dequeued (by omega : s.flagOf seq.toNat + 1 = _)
  rw [← hsnoc] at hturn
  have hother := bump_other h.enqueued (by omega : s.flagOf seq.toNat ≤ _) (by omega)
  refine h.update ⟨h.rear, h.front, hother, hturn, h.nodupEnqueued, ?_, h.enqueued_lt, ?_, ?_, ?_, ?_⟩
    rfl ⟨nofun, nofun, trivial⟩ (fun i hi => ?_) nofun nofun
  · change ((s.returned ++ [(seq.toNat, key)]).map (·.1)).Nodup
    rw [hsnoc]
    exact nodup_snoc h.nodupDequeued hnew
  · intro t ht
    change t ∈ (s.returned ++ [(seq.toNat, key)]).map (·.1) at ht
    rw [hsnoc] at ht
    rcases List.mem_append.mp ht with ht | ht
    · exact h.dequeued_lt t ht
    · rw [List.mem_singleton.mp ht]
      exact hlt
  · intro t ht
    have hodd : (s.bump seq).flagOf t = 2 * (t / queueSize) + 1 := ht
    change s.keys[t]? = some ((s.bump seq).queue _).key
    rw [bump_key]
    have hle := (h.enqueued t).mp ((hother t).mpr hodd.ge)
    have hge := bump_le t (by omega : s.flagOf seq.toNat ≤ _)
    exact h.stored t (by omega)
  · intro t key' ht
    rcases List.mem_append.mp ht with ht | ht
    · exact h.answers t key' ht
    · obtain ⟨rfl, rfl⟩ := Prod.mk.inj (List.mem_singleton.mp ht)
      exact hkey
  · intro n hn
    refine (bump_toNat (by omega) n).trans ?_
    rw [h.counts n hn, Nat.add_assoc, ← countP_snoc, ← hsnoc]
    rfl
  · refine h.others_bump (by rw [hph]; rfl) hi rfl rfl rfl (fun t ht => .inl ht) fun t ht => ?_
    change t ∈ (s.returned ++ [(seq.toNat, key)]).map (·.1) at ht
    rw [hsnoc] at ht
    exact (List.mem_append.mp ht).imp_right fun hm => ⟨List.mem_singleton.mp hm, by rw [hph]; rfl⟩

/-- One access, at each of the places where a thread can stand. -/
theorem Inv.act (h : Inv s) (few : s'.Few) (ha : s.act tid = some s') : Inv s' := by
  have own := h.threads tid
  cases hph : s.phase tid with
  | idle => simp [State.act, hph] at ha
  | addRear key =>
    obtain rfl : _ = s' := by simpa [State.act, hph] using ha
    exact h.drawRear key (by simpa [State.goto, State.drawRear] using few.1)
  | testEven key seq =>
    rw [hph] at own
    simp only [State.act, hph] at ha
    split at ha
    · cases ha; exact h
    · next hodd =>
      split at ha
      · next hround =>
        cases ha
        exact h.goto (by simp [hph, Phase.enqueues]) nofun (even_of hodd hround)
      · cases ha; exact h
  | storeKey key seq =>
    obtain rfl : _ = s' := by simpa [State.act, hph] using ha
    exact h.storeKey hph
  | loadEven key seq =>
    rw [hph] at own
    obtain rfl : _ = s' := by simpa [State.act, hph] using ha
    obtain ⟨hflag, hkey⟩ : _ ∧ _ := own.agrees
    exact h.goto (by simp [hph, Phase.enqueues]) nofun ⟨hflag, hkey, rfl⟩
  | storeOdd key seq f =>
    obtain rfl : _ = s' := by simpa [State.act, hph] using ha
    exact h.storeOdd hph
  | addFront =>
    obtain rfl : _ = s' := by simpa [State.act, hph] using ha
    exact h.drawFront few.2
  | testOdd seq =>
    rw [hph] at own
    simp only [State.act, hph] at ha
    split at ha
    · cases ha; exact h
    · next heven =>
      split at ha
      · next hround =>
        cases ha
        exact h.goto nofun (by simp [hph, Phase.dequeues]) (odd_of heven hround)
      · cases ha; exact h
  | loadKey seq =>
    rw [hph] at own
    obtain rfl : _ = s' := by simpa [State.act, hph] using ha
    have hflag : s.flagOf seq.toNat = 2 * (seq.toNat / queueSize) + 1 := own.agrees
    exact h.goto nofun (by simp [hph, Phase.dequeues]) ⟨hflag, h.stored _ hflag⟩
  | loadOdd seq key =>
    rw [hph] at own
    obtain rfl : _ = s' := by simpa [State.act, hph] using ha
    obtain ⟨hflag, hkey⟩ : _ ∧ _ := own.agrees
    exact h.goto nofun (by simp [hph, Phase.dequeues]) ⟨hflag, hkey, rfl⟩
  | storeEven seq key f =>
    obtain rfl : _ = s' := by simpa [State.act, hph] using ha
    exact h.storeEven hph

theorem Inv.step (h : Inv s) (few : s'.Few) (hs : Step s tid s') : Inv s' := by
  cases hs with
  | enqueue key idle => exact h.goto nofun nofun trivial
  | dequeue idle => exact h.goto nofun nofun trivial
  | act ha => exact h.act few ha

/-- Tickets are only ever drawn. -/
theorem Step.few (hs : Step s tid s') (few : s'.Few) : s.Few := by
  obtain ⟨hk, hd⟩ := few
  have hle : s.keys.length ≤ s'.keys.length ∧ s.drawn ≤ s'.drawn := by
    cases hs with
    | enqueue key idle => exact ⟨Nat.le_refl _, Nat.le_refl _⟩
    | dequeue idle => exact ⟨Nat.le_refl _, Nat.le_refl _⟩
    | act ha =>
      cases hph : s.phase tid with
      | idle => simp [State.act, hph] at ha
      | testEven key seq | testOdd seq =>
        simp only [State.act, hph] at ha
        split at ha
        · cases ha; exact ⟨Nat.le_refl _, Nat.le_refl _⟩
        · split at ha <;> cases ha <;> exact ⟨Nat.le_refl _, Nat.le_refl _⟩
      | addRear key =>
        obtain rfl : _ = s' := by simpa [State.act, hph] using ha
        exact ⟨by simp [State.goto, State.drawRear], Nat.le_refl _⟩
      | addFront =>
        obtain rfl : _ = s' := by simpa [State.act, hph] using ha
        exact ⟨Nat.le_refl _, Nat.le_succ _⟩
      | _ =>
        obtain rfl : _ = s' := by simpa [State.act, hph] using ha
        exact ⟨Nat.le_refl _, Nat.le_refl _⟩
  exact ⟨by omega, by omega⟩

theorem reachable_inv (h : Reachable boundedQueueSystem s) (few : s.Few) : Inv s := by
  refine h.invariant (I := fun s => s.Few → Inv s) ?_ ?_ few
  · rintro s rfl -
    exact inv_initQueue
  · intro s tid s' _ ih hs few
    exact (ih (hs.few few)).step few hs

/-- In every reachable state with less than 2^64 operations of each kind: a key that was returned
for a ticket is the key of the enqueue with this ticket, and no ticket is answered or held twice;
a completed enqueue that is not answered still has its key in its slot; an enqueue only stores its
key when the dequeues of all earlier rounds of the slot are over; one thread at a time is inside a
slot; and the flag of a slot counts the operations that are complete on it. -/
theorem tickets_handed_over (h : Reachable boundedQueueSystem s) (enqueues : s.keys.length < 2 ^ 64)
    (dequeues : s.drawn < 2 ^ 64) :
    (∀ i key seq, (s.phase i).enqueues = some (key, seq) → s.keys[seq.toNat]? = some key) ∧
    (∀ t key, (t, key) ∈ s.returned → s.keys[t]? = some key) ∧
    (s.returned.map (·.1)).Nodup ∧
    (∀ i j key key' seq, (s.phase i).enqueues = some (key, seq) →
      (s.phase j).enqueues = some (key', seq) → i = j) ∧
    (∀ i j seq, (s.phase i).dequeues = some seq → (s.phase j).dequeues = some seq → i = j) ∧
    (∀ t ∈ s.enqueued, t ∈ s.returned.map (·.1) ∨
      s.keys[t]? = some (s.queue (t % queueSize)).key) ∧
    (∀ i key seq, s.phase i = .storeKey key seq → ∀ t < seq.toNat, t % queueSize = slotIdx seq →
      t ∈ s.returned.map (·.1)) ∧
    (∀ i j seq seq', (s.phase i).inside = some seq → (s.phase j).inside = some seq' →
      slotIdx seq = slotIdx seq' → i = j) ∧
    ∀ n < queueSize, (s.queue n).flag.toNat =
      s.enqueued.countP (fun t => decide (t % queueSize = n)) +
        (s.returned.map (·.1)).countP (fun t => decide (t % queueSize = n)) := by
  have hi := reachable_inv h ⟨enqueues, dequeues⟩
  refine ⟨fun i key seq he => ((hi.threads i).enqueues key seq he).1, hi.answers, hi.nodupDequeued,
    hi.oneEnqueue, hi.oneDequeue, fun t ht => ?_, fun i key seq hph t ht hslot => ?_,
    fun i j seq seq' => hi.inside_unique, hi.counts⟩
  · have hle := (hi.enqueued t).mp ht
    by_cases hodd : s.flagOf t = 2 * (t / queueSize) + 1
    · exact .inr (hi.stored t hodd)
    · exact .inl ((hi.dequeued t).mpr (by omega))
  · have own := hi.threads i
    rw [hph] at own
    have hflag : s.flagOf seq.toNat = 2 * (seq.toNat / queueSize) := own.agrees
    have hsame : s.flagOf t = s.flagOf seq.toNat := by rw [State.flagOf, State.flagOf, hslot, slotIdx_eq]
    have hround : t / queueSize < seq.toNat / queueSize := by
      have ht' := Nat.div_add_mod t queueSize
      have hs' := Nat.div_add_mod seq.toNat queueSize
      rw [slotIdx_eq] at hslot
      by_contra hge
      have := Nat.mul_le_mul_left queueSize (Nat.le_of_not_lt hge)
      omega
    exact (hi.dequeued t).mpr (by omega)

/-- Thread 0 enqueues 5, then thread 1 dequeues. -/
def handOver : Nat → State
  | 0 => .initQueue
  | 1 => State.initQueue.goto 0 (.addRear 5)
  | 7 => (handOver 6).goto 1 .addFront
  | k + 1 => ((handOver k).act (if k < 6 then 0 else 1)).getD .initQueue

theorem handOver_reachable : Reachable boundedQueueSystem (handOver 12) := by
  have h₀ : Reachable boundedQueueSystem (handOver 0) := .init rfl
  have h₁ : Reachable boundedQueueSystem (handOver 1) := h₀.step 0 (.enqueue 5 rfl)
  have h₂ : Reachable boundedQueueSystem (handOver 2) := h₁.step 0 (.act rfl)
  have h₃ : Reachable boundedQueueSystem (handOver 3) := h₂.step 0 (.act rfl)
  have h₄ : Reachable boundedQueueSystem (handOver 4) := h₃.step 0 (.act rfl)
  have h₅ : Reachable boundedQueueSystem (handOver 5) := h₄.step 0 (.act rfl)
  have h₆ : Reachable boundedQueueSystem (handOver 6) := h₅.step 0 (.act rfl)
  have h₇ : Reachable boundedQueueSystem (handOver 7) := h₆.step 1 (.dequeue rfl)
  have h₈ : Reachable boundedQueueSystem (handOver 8) := h₇.step 1 (.act rfl)
  have h₉ : Reachable boundedQueueSystem (handOver 9) := h₈.step 1 (.act rfl)
  have h₁₀ : Reachable boundedQueueSystem (handOver 10) := h₉.step 1 (.act rfl)
  have h₁₁ : Reachable boundedQueueSystem (handOver 11) := h₁₀.step 1 (.act rfl)
  exact h₁₁.step 1 (.act rfl)

theorem tickets_handed_over_once :
    (0, 5) ∈ (handOver 12).returned ∧ (handOver 12).keys[0]? = some 5 := by
  have hm : (0, 5) ∈ (handOver 12).returned := by decide
  have h := tickets_handed_over handOver_reachable (by decide) (by decide)
  exact ⟨hm, h.2.1 0 5 hm⟩

end BoundedQueue
