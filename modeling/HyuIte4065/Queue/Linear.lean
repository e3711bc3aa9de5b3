import HyuIte4065.Queue.Fifo
import HyuIte4065.Library.Buffers

/-!
# The unbounded queue is linearizable

An enqueue takes effect when it links its node behind the last one, a dequeue when it moves `head`,
although it reads the key of its node afterwards. A call returns with its last access.
-/
namespace Queue

open LinkedList Transition Fifo

/-- What the call returns that ends with the next access. -/
def Phase.result (heap : Ptr → Option QueueNode) : Phase → Option (Option Int)
  | .swingTail _ _ => some none
  | .loadKey node => do
    let n ← heap (← node)
    some (some n.key)
  | _ => none

/-- The steps of a thread with what they show to the caller. -/
inductive EventStep (s : State) : Atomic.Event ThreadId (Op Int) (Option Int) → State → Prop where
  | enqueue {tid : ThreadId} {key : Int} (node : Ptr) (idle : s.phase tid = .idle) (fresh : s.heap node = none) :
    EventStep s (.call tid (.enqueue key)) ((s.alloc node key).goto tid (.loadTail key node))
  | dequeue {tid : ThreadId} (idle : s.phase tid = .idle) : EventStep s (.call tid .dequeue) (s.goto tid .loadHead)
  | inner {s' : State} {tid : ThreadId} (h : s.act tid = some s') (goesOn : (s.phase tid).result s.heap = none) :
    EventStep s (.inner tid) s'
  | ret {s' : State} {tid : ThreadId} {res : Option Int} (h : s.act tid = some s')
    (returns : (s.phase tid).result s.heap = some res) : EventStep s (.ret tid res) s'

def eventSystem : System State (Atomic.Event ThreadId (Op Int) (Option Int)) where
  init s := ∃ sentinel key, s = .initQueue sentinel key
  step := EventStep

/-- What an access can do, and what the thread knows when it makes it. -/
inductive Access (s : State) (tid : ThreadId) : State → Prop where
  | loadTail {key : Int} {node : Ptr} (here : s.phase tid = .loadTail key node) :
    Access s tid (s.goto tid (.casNext key node s.tail))
  | link {key : Int} {node b : Ptr} {n : QueueNode} (here : s.phase tid = .casNext key node (some b))
      (mem : b ∈ s.chain)
    (node_eq : s.heap b = some n) (last : n.next = none) :
    Access s tid ((s.link b n key node).goto tid (.swingTail node (some b)))
  | late {key : Int} {node b r : Ptr} (here : s.phase tid = .casNext key node (some b)) (mem : b ∈ s.chain)
    (next : nextOf s.heap b = some r) : Access s tid (s.goto tid (.helpTail key node (some b) r))
  | helpTail {key : Int} {node b r : Ptr} (here : s.phase tid = .helpTail key node (some b) r) (mem : b ∈ s.chain)
    (next : nextOf s.heap b = some r) : Access s tid ((s.casTail (some b) r).goto tid (.loadTail key node))
  | swingTail {node b : Ptr} (here : s.phase tid = .swingTail node (some b)) (mem : b ∈ s.chain)
    (next : nextOf s.heap b = some node) : Access s tid ((s.casTail (some b) node).goto tid .idle)
  | loadHead (here : s.phase tid = .loadHead) : Access s tid (s.goto tid (.loadNext s.head))
  | empty {b : Ptr} (here : s.phase tid = .loadNext (some b)) (mem : b ∈ s.chain) (next : nextOf s.heap b = none) :
    Access s tid (s.goto tid .loadHead)
  | nonempty {b r : Ptr} (here : s.phase tid = .loadNext (some b)) (next : nextOf s.heap b = some r) :
    Access s tid (s.goto tid (.loadNextAgain (some b)))
  | loadNextAgain {b r : Ptr} (here : s.phase tid = .loadNextAgain (some b)) (next : nextOf s.heap b = some r) :
    Access s tid (s.goto tid (.casHead (some b) (some r)))
  | take {b r : Ptr} (here : s.phase tid = .casHead (some b) (some r)) (head : s.head = some b)
    (next : nextOf s.heap b = some r) : Access s tid ((s.take tid (some r)).goto tid (.loadNextOfTaken (some b)))
  | miss {b r : Ptr} (here : s.phase tid = .casHead (some b) (some r)) (moved : s.head ≠ some b) :
    Access s tid (s.goto tid .loadHead)
  | loadNextOfTaken {b r : Ptr} (here : s.phase tid = .loadNextOfTaken (some b)) (next : nextOf s.heap b = some r) :
    Access s tid (s.goto tid (.loadKey (some r)))
  | loadKey {b : Ptr} {n : QueueNode} (here : s.phase tid = .loadKey (some b)) (node_eq : s.heap b = some n) :
    Access s tid ((s.answer tid n.key).goto tid .idle)

/-- There is always room: a node is allocated for each key. -/
abbrev unbounded : Guarded.Object (Op Int) (Option Int) (List Int) := buffer Int fun _ => True

/-- The keys of the nodes behind `head`. -/
def Shows (s : State) (keys : List Int) : Prop :=
  ∃ b l, s.head = some b ∧ Walk (nextOf s.heap) (some b) (b :: l) ∧ keys = l.map fun p => keyOf s.heap (some p)

/-- Whether the operation has taken effect. -/
def Phase.status (heap : Ptr → Option QueueNode) : Phase → Atomic.Status (Op Int) (Option Int)
  | .idle => .idle
  | .loadTail key _ | .casNext key _ _ | .helpTail key _ _ _ => .called (.enqueue key)
  | .swingTail _ _ => .done none
  | .loadHead | .loadNext _ | .loadNextAgain _ | .casHead _ _ => .called .dequeue
  | .loadNextOfTaken sentinelNode => .done (some (keyOf heap (sentinelNode.bind (nextOf heap))))
  | .loadKey node => .done (some (keyOf heap node))

def State.keys (s : State) : List Int := s.enqueued.drop s.taken.length

def State.view (s : State) : Atomic.State ThreadId (Op Int) (Option Int) (List Int) :=
  ⟨s.keys, fun tid => (s.phase tid).status s.heap⟩

variable {s s' : State} {tid : ThreadId} {p b r node : Ptr} {n : QueueNode} {key : Int} {ph : Phase}
  {heap heap' : Ptr → Option QueueNode} {ev : Atomic.Event ThreadId (Op Int) (Option Int)}

theorem EventStep.step (h : EventStep s ev s') : ∃ tid, Step s tid s' := by
  cases h with
  | @enqueue tid key node idle fresh => exact ⟨tid, .enqueue key node idle fresh⟩
  | @dequeue tid idle => exact ⟨tid, .dequeue idle⟩
  | @inner _ tid h _ | @ret _ tid _ h _ => exact ⟨tid, .act h⟩

/-! ### The accesses -/

theorem Inv.access (h : Inv s) (ha : s.act tid = some s') : Access s tid s' := by
  have held : ∀ a, (s.phase tid).holds = some a → ∃ b ∈ s.chain, ∃ n, a = some b ∧ s.heap b = some n ∧
      (s.phase tid).knows n.next := by
    intro a hholds
    obtain ⟨b, hb, rfl, hk⟩ := (h.threads tid).held a hholds
    obtain ⟨n, hn⟩ := h.live b hb
    exact ⟨b, hb, n, rfl, hn, nextOf_of hn ▸ hk⟩
  cases hph : s.phase tid with
  | idle => simp [State.act, hph] at ha
  | loadTail key node =>
    obtain rfl : _ = s' := by simpa [State.act, hph] using ha
    exact .loadTail hph
  | casNext key node tc =>
    obtain ⟨b, hb, n, rfl, hn, -⟩ := held tc (by rw [hph]; rfl)
    cases hnext : n.next with
    | none =>
      obtain rfl : _ = s' := by simpa [State.act, hph, hn, hnext] using ha
      exact .link hph hb hn hnext
    | some ret =>
      obtain rfl : _ = s' := by simpa [State.act, hph, hn, hnext] using ha
      exact .late hph hb ((nextOf_of hn).trans hnext)
  | helpTail key node tc ret =>
    obtain ⟨b, hb, n, rfl, hn, hk⟩ := held tc (by rw [hph]; rfl)
    obtain rfl : _ = s' := by simpa [State.act, hph] using ha
    rw [hph] at hk
    exact .helpTail hph hb ((nextOf_of hn).trans hk)
  | swingTail node tc =>
    obtain ⟨b, hb, n, rfl, hn, hk⟩ := held tc (by rw [hph]; rfl)
    obtain rfl : _ = s' := by simpa [State.act, hph] using ha
    rw [hph] at hk
    exact .swingTail hph hb ((nextOf_of hn).trans hk)
  | loadHead =>
    obtain rfl : _ = s' := by simpa [State.act, hph] using ha
    exact .loadHead hph
  | loadNext sn =>
    obtain ⟨b, hb, n, rfl, hn, -⟩ := held sn (by rw [hph]; rfl)
    cases hnext : n.next with
    | none =>
      obtain rfl : _ = s' := by simpa [State.act, hph, hn, hnext] using ha
      exact .empty hph hb ((nextOf_of hn).trans hnext)
    | some r =>
      obtain rfl : _ = s' := by simpa [State.act, hph, hn, hnext] using ha
      exact .nonempty hph ((nextOf_of hn).trans hnext)
  | loadNextAgain sn =>
    obtain ⟨b, hb, n, rfl, hn, hk⟩ := held sn (by rw [hph]; rfl)
    rw [hph] at hk
    obtain ⟨r, hr⟩ := Option.isSome_iff_exists.mp hk
    obtain rfl : _ = s' := by simpa [State.act, hph, hn, hr] using ha
    exact .loadNextAgain hph ((nextOf_of hn).trans hr)
  | casHead sn new =>
    obtain ⟨b, hb, n, rfl, hn, hk⟩ := held sn (by rw [hph]; rfl)
    rw [hph] at hk
    obtain ⟨hnew, hk⟩ : n.next = new ∧ n.next.isSome := hk
    obtain ⟨r, hr⟩ := Option.isSome_iff_exists.mp hk
    obtain rfl : new = some r := hnew.symm.trans hr
    by_cases hhead : s.head = some b
    · obtain rfl : _ = s' := by simpa [State.act, hph, hhead] using ha
      exact .take hph hhead ((nextOf_of hn).trans hr)
    · obtain rfl : _ = s' := by simpa [State.act, hph, hhead] using ha
      exact .miss hph hhead
  | loadNextOfTaken sn =>
    obtain ⟨b, hb, n, rfl, hn, hk⟩ := held sn (by rw [hph]; rfl)
    rw [hph] at hk
    obtain ⟨r, hr⟩ := Option.isSome_iff_exists.mp hk
    obtain rfl : s.goto tid (.loadKey (some r)) = s' := by simpa [State.act, hph, hn, hr] using ha
    exact .loadNextOfTaken hph ((nextOf_of hn).trans hr)
  | loadKey nd =>
    obtain ⟨b, hb, n, rfl, hn, -⟩ := held nd (by rw [hph]; rfl)
    obtain rfl : _ = s' := by simpa [State.act, hph, hn] using ha
    exact .loadKey hph hn

/-! ### The keys in the queue -/

theorem Shared.length_enqueued (h : Shared s) : s.enqueued.length = s.linked.length := by
  rw [h.keys, List.length_map]

theorem Shared.taken_le (h : Shared s) : s.taken.length ≤ s.enqueued.length := by
  have hle := h.order.length_le
  rwa [List.length_map, List.length_map, ← h.length_enqueued] at hle

theorem Shared.shows (h : Shared s) : Shows s s.keys := by
  obtain ⟨xs, b, ys, he, hb, ht⟩ := h.head_split
  have hlength : s.taken.length = xs.length := by
    simpa using congrArg List.length ht
  have hys : ys = s.linked.drop s.taken.length := by
    have hdrop := congrArg (List.drop (xs.length + 1)) he
    rw [State.chain, List.drop_succ_cons, ← List.concat_append, List.drop_left' (by simp), ← hlength] at hdrop
    exact hdrop.symm
  refine ⟨b, ys, hb, ?_, ?_⟩
  · have hw := h.walk
    rw [he] at hw
    exact hw.from_node
  · rw [State.keys, h.keys, ← List.map_drop, hys]

/-- The node that becomes `head` holds the first key. -/
theorem Shared.keys_take (h : Shared (s.take tid (some r))) :
    s.keys = keyOf s.heap (some r) :: (s.take tid (some r)).keys := by
  have hlength : (s.take tid (some r)).taken.length = s.taken.length + 1 := by simp [State.take]
  have hlt : s.taken.length < s.enqueued.length := by
    have hle := h.taken_le
    rw [hlength] at hle
    exact hle
  have hlast : s.linked[s.taken.length]? = some r := by
    obtain ⟨zs, hz⟩ := h.order
    have hget := congrArg (fun l => l[s.taken.length]?) hz
    simpa [State.take] using hget.symm
  have hkey : s.enqueued[s.taken.length] = keyOf s.heap (some r) := by
    have hget : s.enqueued[s.taken.length]? = some (keyOf s.heap (some r)) := by
      have hkeys : s.enqueued = s.linked.map fun p => keyOf s.heap (some p) := h.keys
      rw [hkeys, List.getElem?_map]
      exact congrArg (Option.map fun p => keyOf s.heap (some p)) hlast
    exact (List.getElem?_eq_some_iff.mp hget).2
  rw [State.keys, State.keys, hlength, List.drop_eq_getElem_cons hlt, hkey]
  rfl

theorem Shared.keys_link (h : Shared s) : (s.link b n key node).keys = s.keys ++ [key] :=
  List.drop_append_of_le_length h.taken_le

/-! ### The threads -/

theorem status_congr (h : ph.pending heap' = ph.pending heap) : ph.status heap' = ph.status heap := by
  cases ph with
  | loadNextOfTaken sn | loadKey nd =>
    exact congrArg (fun key => Atomic.Status.done (some key)) (List.singleton_inj.mp h)
  | _ => rfl

theorem status_at (hph : s.phase tid = ph) : s.view.status tid = ph.status s.heap :=
  congrArg (Phase.status s.heap) hph

/-- A step of one thread: the heap grows, so nothing changes for the others. -/
theorem Inv.step_view (h : Inv s) (hphase : s'.phase = Function.update s.phase tid ph)
    (g : Grows s.heap s'.heap s.chain s'.chain)
    (hstep : Guarded.Step unbounded s.view ev ⟨s'.keys, Function.update s.view.status tid (ph.status s'.heap)⟩) :
    Guarded.Step unbounded s.view ev s'.view := by
  have hview : s'.view = ⟨s'.keys, Function.update s.view.status tid (ph.status s'.heap)⟩ := by
    refine congrArg (Atomic.State.mk s'.keys) (funext fun i => ?_)
    rw [hphase]
    by_cases hi : i = tid
    · rw [hi, Function.update_self, Function.update_self]
    · rw [Function.update_of_ne hi, Function.update_of_ne hi]
      exact status_congr (h.pending_eq g (h.threads i))
  rw [hview]
  exact hstep

/-- A step that the buffer does not notice. -/
theorem Inv.skip (h : Inv s) (hphase : s'.phase = Function.update s.phase tid ph) (hheap : s'.heap = s.heap)
    (hchain : s'.chain = s.chain) (hkeys : s'.keys = s.keys)
    (hstatus : ph.status s.heap = (s.phase tid).status s.heap) :
    Guarded.Step unbounded s.view (.inner tid) s'.view := by
  have g : Grows s.heap s'.heap s.chain s'.chain := by
    rw [hheap, hchain]
    exact .refl _ _
  refine h.step_view hphase g ?_
  rw [hkeys, hheap, hstatus, ← status_at rfl, Function.update_eq_self]
  exact .skip

/-- A step at which the operation takes effect. -/
theorem Inv.effect (h : Inv s) (hphase : s'.phase = Function.update s.phase tid ph)
    (g : Grows s.heap s'.heap s.chain s'.chain) {op : Op Int} {res : Option Int}
    (hcalled : (s.phase tid).status s.heap = .called op) (hdone : ph.status s'.heap = .done res)
    (hpossible : unbounded.apply op s.keys = some (res, s'.keys)) :
    Guarded.Step unbounded s.view (.inner tid) s'.view := by
  refine h.step_view hphase g ?_
  rw [hdone]
  exact .act hcalled hpossible

/-- An access that does not end the call. -/
theorem Inv.inner_follows (h : Inv s) (ha : s.act tid = some s') (goesOn : (s.phase tid).result s.heap = none) :
    Guarded.Step unbounded s.view (.inner tid) s'.view := by
  cases h.access ha with
  | loadTail hph | late hph | helpTail hph | loadHead hph | empty hph | nonempty hph | loadNextAgain hph | miss hph =>
    exact h.skip rfl rfl rfl rfl (by rw [hph]; rfl)
  | @link key node b n hph hb hn hnext =>
    have g : Grows s.heap (s.link b n key node).heap s.chain (s.link b n key node).chain := State.link_grows hn hnext
    have hkeys : (s.link b n key node).keys = s.keys ++ [key] := h.keys_link
    refine h.effect rfl g (by rw [hph]; rfl) rfl ((enqueue_possible trivial).trans ?_)
    exact congrArg (fun keys => some (none, keys)) hkeys.symm
  | @take b r hph hhead hr =>
    have hkeys := ((h.frame tid).take hhead hr).keys_take
    have hdone : Phase.status s.heap (.loadNextOfTaken (some b)) = .done (some (keyOf s.heap (some r))) :=
      congrArg (fun a => Atomic.Status.done (some (keyOf s.heap a))) hr
    refine h.effect rfl (Grows.refl _ _) (by rw [hph]; rfl) hdone ?_
    rw [hkeys]
    rfl
  | loadNextOfTaken hph hr =>
    refine h.skip rfl rfl rfl rfl ?_
    rw [hph]
    exact congrArg (fun a => Atomic.Status.done (some (keyOf s.heap a))) hr.symm
  | swingTail hph => simp [hph, Phase.result] at goesOn
  | loadKey hph hn => simp [hph, Phase.result, hn] at goesOn

/-- The access with which a call returns. -/
theorem Inv.ret_follows {res : Option Int} (h : Inv s) (ha : s.act tid = some s')
    (returns : (s.phase tid).result s.heap = some res) : Guarded.Step unbounded s.view (.ret tid res) s'.view := by
  cases h.access ha with
  | swingTail hph =>
    obtain rfl : none = res := by simpa [hph, Phase.result] using returns
    have hdone : s.view.status tid = .done none := status_at hph
    exact h.step_view rfl (Grows.refl _ _) (.ret hdone)
  | @loadKey b n hph hn =>
    obtain rfl : some n.key = res := by simpa [hph, Phase.result, hn] using returns
    have hdone : s.view.status tid = .done (some n.key) := by
      rw [status_at hph, ← keyOf_of hn]
      rfl
    exact h.step_view rfl (Grows.refl _ _) (.ret hdone)
  | loadTail hph | link hph | late hph | helpTail hph | loadHead hph | empty hph | nonempty hph | loadNextAgain hph
  | take hph | miss hph | loadNextOfTaken hph => simp [hph, Phase.result] at returns

/-- Every step is a step of the buffer. -/
theorem Inv.follows (h : Inv s) (hs : EventStep s ev s') : Guarded.Step unbounded s.view ev s'.view := by
  cases hs with
  | @enqueue tid key node idle fresh =>
    exact h.step_view rfl ((h.frame tid).alloc_grows fresh key).1 (.call (status_at idle))
  | @dequeue tid idle => exact h.step_view rfl (Grows.refl _ _) (.call (status_at idle))
  | inner ha goesOn => exact h.inner_follows ha goesOn
  | ret ha returns => exact h.ret_follows ha returns

/-- Every execution is one of the atomic queue, where a dequeue that finds nothing waits. -/
theorem queue_linearizable : Guarded.Linearizable unbounded eventSystem Shows := by
  refine Refines.of_simulation (fun s a => Inv s ∧ a = s.view) ?_ ?_ ?_
  · rintro s ⟨sentinel, key, rfl⟩
    exact ⟨_, rfl, inv_initQueue sentinel key, rfl⟩
  · rintro s a ev s' ⟨hi, rfl⟩ h
    obtain ⟨tid, hstep⟩ := EventStep.step h
    exact ⟨_, hi.follows h, hi.step hstep, rfl⟩
  · rintro s a ⟨hi, rfl⟩
    exact hi.shows

end Queue
