import HyuIte4065.Queue.Unbounded
import HyuIte4065.Library.LinkedList
import Mathlib.Logic.Relation
import Mathlib.Data.List.Nodup
import Mathlib.Data.Option.Basic

/-!
# The queue is first in, first out

The invariant ties the one chain of nodes, the two pointers into it and the local
variables of arbitrarily many half-finished operations together. What a thread knows
about a node of the chain is its successor, and a successor never changes.
-/
namespace Queue

open LinkedList Transition

variable {s s' : State} {tid i j : ThreadId} {p b r node : Ptr} {n : QueueNode} {key : Int}
  {l l' : List Ptr} {ph : Phase} {heap heap' : Ptr → Option QueueNode}

def nextOf (heap : Ptr → Option QueueNode) (p : Ptr) : Option Ptr := (heap p).bind (·.next)

/-- The key behind a pointer. -/
def keyOf (heap : Ptr → Option QueueNode) (p : Option Ptr) : Int :=
  ((p.bind heap).map (·.key)).getD 0

theorem nextOf_of (h : heap p = some n) : nextOf heap p = n.next := by simp [nextOf, h]
theorem keyOf_of (h : heap p = some n) : keyOf heap (some p) = n.key := by simp [keyOf, h]

def State.chain (s : State) : List Ptr := s.sentinel :: s.linked

/-- The node that a thread has allocated and not yet linked. -/
def Phase.owns : Phase → Option (Ptr × Int)
  | .loadTail key node => some (node, key)
  | .casNext key node _ => some (node, key)
  | .helpTail key node _ _ => some (node, key)
  | _ => none

/-- The pointers to nodes of the chain that a thread holds: a node, or a node and its successor. -/
def Phase.holds : Phase → Option (Option Ptr)
  | .casNext _ _ tailCopied => some tailCopied
  | .helpTail _ _ tailCopied _ => some tailCopied
  | .swingTail _ tailCopied => some tailCopied
  | .loadNext sentinelNode => some sentinelNode
  | .loadNextAgain sentinelNode => some sentinelNode
  | .casHead sentinelNode _ => some sentinelNode
  | .loadNextOfTaken sentinelNode => some sentinelNode
  | .loadKey node => some node
  | _ => none

/-- What a thread knows about the successor of the node it holds. -/
def Phase.knows : Phase → Option Ptr → Prop
  | .helpTail _ _ _ retNode, next => next = some retNode
  | .swingTail node _, next => next = some node
  | .loadNextAgain _, next => next.isSome
  | .casHead _ new, next => next = new ∧ next.isSome
  | .loadNextOfTaken _, next => next.isSome
  | _, _ => True

/-- The local variables of one thread agree with the heap and the chain. -/
structure Local (heap : Ptr → Option QueueNode) (l : List Ptr) (ph : Phase) : Prop where
  owned : ∀ p key, ph.owns = some (p, key) → heap p = some ⟨key, none⟩ ∧ p ∉ l
  held : ∀ a, ph.holds = some a → ∃ b ∈ l, a = some b ∧ ph.knows (nextOf heap b)

/-- The key that a thread has taken and not yet returned. -/
def Phase.pending (heap : Ptr → Option QueueNode) : Phase → List Int
  | .loadNextOfTaken sentinelNode => [keyOf heap (sentinelNode.bind (nextOf heap))]
  | .loadKey node => [keyOf heap node]
  | _ => []

def State.takenBy (s : State) (tid : ThreadId) : List Int :=
  (s.taken.filter fun e => decide (e.1 = tid)).map fun e => keyOf s.heap e.2

/-- What holds of the memory, whatever the threads are doing. -/
structure Shared (s : State) : Prop where
  walk : Walk (nextOf s.heap) (some s.sentinel) s.chain
  nodup : s.chain.Nodup
  live : ∀ p ∈ s.chain, ∃ n, s.heap p = some n
  keys : s.enqueued = s.linked.map fun p => keyOf s.heap (some p)
  front : (some s.sentinel :: s.taken.map (·.2)).getLast? = some s.head
  order : s.taken.map (·.2) <+: s.linked.map some
  back : ∃ b ∈ s.chain, s.tail = some b

/-- The invariant with one thread left out, whose step is half done. -/
structure Frame (s : State) (tid : ThreadId) : Prop extends Shared s where
  threads : ∀ i ≠ tid, Local s.heap s.chain (s.phase i)
  distinct : ∀ i j p k k', i ≠ tid → j ≠ tid → (s.phase i).owns = some (p, k) →
    (s.phase j).owns = some (p, k') → i = j
  answers : ∀ i ≠ tid, s.takenBy i = s.returned i ++ (s.phase i).pending s.heap

structure Inv (s : State) : Prop extends Shared s where
  threads : ∀ i, Local s.heap s.chain (s.phase i)
  distinct : ∀ i j p k k', (s.phase i).owns = some (p, k) → (s.phase j).owns = some (p, k') → i = j
  answers : ∀ i, s.takenBy i = s.returned i ++ (s.phase i).pending s.heap

/-- The heap only grows: keys stay, and so does every successor on the chain. -/
structure Grows (heap heap' : Ptr → Option QueueNode) (l l' : List Ptr) : Prop where
  chain : l <+: l'
  key : ∀ p ∈ l, keyOf heap' (some p) = keyOf heap (some p)
  next : ∀ p ∈ l, ∀ r, nextOf heap p = some r → nextOf heap' p = some r

theorem Phase.knows_mono {a a' : Option Ptr} (h : ph.knows a) (ha : ∀ r, a = some r → a' = some r) :
    ph.knows a' := by
  cases ph with
  | helpTail key node tc ret => exact ha _ h
  | swingTail node tc => exact ha _ h
  | loadNextAgain sn =>
    obtain ⟨r, hr⟩ := Option.isSome_iff_exists.mp h
    simp [knows, ha r hr]
  | casHead sn new =>
    obtain ⟨h, hs⟩ := h
    obtain ⟨r, hr⟩ := Option.isSome_iff_exists.mp hs
    exact ⟨by rw [ha r hr, ← h, hr], by simp [ha r hr]⟩
  | loadNextOfTaken sn =>
    obtain ⟨r, hr⟩ := Option.isSome_iff_exists.mp h
    simp [knows, ha r hr]
  | _ => trivial

/-- A thread that neither owns a node nor holds one. -/
theorem Local.free (ho : ph.owns = none) (hh : ph.holds = none) : Local heap l ph := by
  refine ⟨?_, ?_⟩ <;> simp [ho, hh]

/-- A thread that owns nothing and holds a node of the chain. -/
theorem Local.holding (ho : ph.owns = none) (hh : ph.holds = some (some b)) (hb : b ∈ l)
    (hk : ph.knows (nextOf heap b)) : Local heap l ph := by
  refine ⟨by simp [ho], fun a ha => ?_⟩
  exact ⟨b, hb, Option.some.inj (ha.symm.trans hh), hk⟩

theorem Local.grows (h : Local heap l ph) (g : Grows heap heap' l l')
    (own : ∀ p key, ph.owns = some (p, key) → heap' p = some ⟨key, none⟩ ∧ p ∉ l') :
    Local heap' l' ph := by
  refine ⟨own, fun a ha => ?_⟩
  obtain ⟨b, hb, he, hk⟩ := h.held a ha
  exact ⟨b, g.chain.subset hb, he, Phase.knows_mono hk (g.next b hb)⟩

/-! ### The chain -/

theorem Shared.split (h : Shared s) (hb : b ∈ s.chain) :
    ∃ xs ys, s.chain = xs ++ b :: ys ∧ nextOf s.heap b = ys.head? := by
  obtain ⟨xs, ys, he⟩ := List.append_of_mem hb
  have hw := h.walk
  rw [he] at hw
  exact ⟨xs, ys, he, hw.next_eq⟩

theorem Shared.next_mem (h : Shared s) (hb : b ∈ s.chain) (hr : nextOf s.heap b = some r) :
    r ∈ s.chain := by
  obtain ⟨xs, ys, he, hn⟩ := h.split hb
  have hm := List.mem_of_head? (hn.symm.trans hr)
  rw [he]
  simp [hm]

/-- The successor of a node stands one place behind it. -/
theorem Shared.idxOf_next (h : Shared s) (hb : b ∈ s.chain) (hr : nextOf s.heap b = some r) :
    s.chain.idxOf r = s.chain.idxOf b + 1 := by
  obtain ⟨xs, ys, he, hn⟩ := h.split hb
  obtain ⟨zs, rfl⟩ := List.head?_eq_some_iff.mp (hn.symm.trans hr)
  have hnd := h.nodup
  rw [he] at hnd ⊢
  have hbx : b ∉ xs := fun hm => (List.nodup_append.mp hnd).2.2 b hm b (by simp) rfl
  have hrx : r ∉ xs := fun hm => (List.nodup_append.mp hnd).2.2 r hm r (by simp) rfl
  have hbr : b ≠ r := by
    rintro rfl
    simp [List.nodup_append] at hnd
  rw [List.idxOf_append_of_notMem hrx, List.idxOf_append_of_notMem hbx,
    List.idxOf_cons_ne _ hbr, List.idxOf_cons_self, List.idxOf_cons_self]

/-- Only the last node of the chain has no successor. -/
theorem Shared.last (h : Shared s) (hb : b ∈ s.chain) (hn : nextOf s.heap b = none) :
    ∃ xs, s.chain = xs ++ [b] := by
  obtain ⟨xs, ys, he, hy⟩ := h.split hb
  obtain rfl : ys = [] := by simpa [hn] using hy.symm
  exact ⟨xs, he⟩

/-- The nodes taken so far are an initial piece of the chain that ends at the head. -/
theorem Shared.head_split (h : Shared s) : ∃ xs b ys, s.chain = xs ++ b :: ys ∧ s.head = some b ∧
    some s.sentinel :: s.taken.map (·.2) = (xs ++ [b]).map some := by
  obtain ⟨zs, hz⟩ := h.order
  obtain ⟨us, vs, hl, hu, hv⟩ := List.map_eq_append_iff.mp hz.symm
  rcases List.eq_nil_or_concat' (s.sentinel :: us) with he | ⟨xs, b, he⟩
  · simp at he
  · refine ⟨xs, b, vs, ?_, ?_, ?_⟩
    · rw [State.chain, hl, ← List.cons_append, he]
      simp
    · have hf := h.front
      rw [← hu, ← List.map_cons, he] at hf
      simpa using hf.symm
    · rw [← hu, ← List.map_cons, he]

theorem Shared.head_mem (h : Shared s) : ∃ b ∈ s.chain, s.head = some b := by
  obtain ⟨xs, b, ys, he, hb, -⟩ := h.head_split
  exact ⟨b, by simp [he], hb⟩

/-! ### The parts of a step -/

theorem Inv.frame (h : Inv s) (tid : ThreadId) : Frame s tid :=
  ⟨h.toShared, fun i _ => h.threads i, fun i j p k k' _ _ => h.distinct i j p k k',
    fun i _ => h.answers i⟩

/-- A step is done when the thread itself agrees with the memory again. -/
theorem Frame.goto (h : Frame s tid) (hl : Local s.heap s.chain ph)
    (hd : ∀ p k, ph.owns = some (p, k) → ∀ i ≠ tid, ∀ k', (s.phase i).owns ≠ some (p, k'))
    (ha : s.takenBy tid = s.returned tid ++ ph.pending s.heap) : Inv (s.goto tid ph) := by
  refine ⟨⟨h.walk, h.nodup, h.live, h.keys, h.front, h.order, h.back⟩, ?_, ?_, ?_⟩
  · intro i
    by_cases hi : i = tid
    · subst hi
      simpa [State.goto, State.chain] using hl
    · simpa [State.goto, State.chain, hi] using h.threads i hi
  · intro i j p k k' hp hp'
    by_cases hi : i = tid
    · by_cases hj : j = tid
      · rw [hi, hj]
      · subst hi
        simp only [State.goto, Function.update_self, Function.update_of_ne hj] at hp hp'
        exact absurd hp' (hd p k hp j hj k')
    · by_cases hj : j = tid
      · subst hj
        simp only [State.goto, Function.update_self, Function.update_of_ne hi] at hp hp'
        exact absurd hp (hd p k' hp' i hi k)
      · simp only [State.goto, Function.update_of_ne hi, Function.update_of_ne hj] at hp hp'
        exact h.distinct i j p k k' hi hj hp hp'
  · intro i
    by_cases hi : i = tid
    · subst hi
      simpa [State.goto, State.takenBy] using ha
    · simpa [State.goto, State.takenBy, hi] using h.answers i hi

theorem Frame.not_chain (h : Frame s tid) (fresh : s.heap node = none) : node ∉ s.chain := by
  intro hm
  obtain ⟨n, hn⟩ := h.live node hm
  simp [fresh] at hn

theorem Shared.takenBy_eq (h : Shared s) (g : Grows s.heap s'.heap s.chain s'.chain)
    (htaken : s'.taken.filter (fun e => decide (e.1 = i)) =
      s.taken.filter fun e => decide (e.1 = i)) : s'.takenBy i = s.takenBy i := by
  rw [State.takenBy, htaken]
  refine List.map_congr_left fun e he => ?_
  have hm : e.2 ∈ s.linked.map some :=
    h.order.subset (List.mem_map_of_mem (List.mem_filter.mp he).1)
  obtain ⟨p, hp, hpe⟩ := List.mem_map.mp hm
  rw [← hpe, g.key p (by simp [State.chain, hp])]

theorem Shared.pending_eq (h : Shared s) (g : Grows s.heap heap' s.chain l')
    (hl : Local s.heap s.chain ph) : ph.pending heap' = ph.pending s.heap := by
  cases ph with
  | loadNextOfTaken sn =>
    obtain ⟨b, hb, rfl, hk⟩ := hl.held sn rfl
    obtain ⟨r, hr⟩ := Option.isSome_iff_exists.mp hk
    simp only [Phase.pending, Option.bind_some, hr, g.next b hb r hr, g.key r (h.next_mem hb hr)]
  | loadKey nd =>
    obtain ⟨b, hb, rfl, -⟩ := hl.held nd rfl
    simp only [Phase.pending, g.key b hb]
  | _ => rfl

/-- Keys and successors on the chain survive, so every other thread still agrees. -/
theorem Frame.grow (h : Frame s tid) (hsh : Shared s') (hphase : s'.phase = s.phase)
    (htaken : ∀ i ≠ tid, s'.taken.filter (fun e => decide (e.1 = i)) =
      s.taken.filter fun e => decide (e.1 = i))
    (hret : ∀ i ≠ tid, s'.returned i = s.returned i) (g : Grows s.heap s'.heap s.chain s'.chain)
    (own : ∀ i ≠ tid, ∀ p k, (s.phase i).owns = some (p, k) → s'.heap p = some ⟨k, none⟩ ∧ p ∉ s'.chain) :
    Frame s' tid := by
  refine ⟨hsh, ?_, ?_, ?_⟩
  · intro i hi
    rw [hphase]
    exact (h.threads i hi).grows g (own i hi)
  · rw [hphase]
    exact h.distinct
  · intro i hi
    rw [h.takenBy_eq g (htaken i hi), hret i hi, hphase, h.pending_eq g (h.threads i hi)]
    exact h.answers i hi

theorem Grows.refl (heap : Ptr → Option QueueNode) (l : List Ptr) : Grows heap heap l l :=
  ⟨List.prefix_rfl, fun _ _ => rfl, fun _ _ _ h => h⟩

theorem Frame.alloc_grows (h : Frame s tid) (fresh : s.heap node = none) (key : Int) :
    Grows s.heap (s.alloc node key).heap s.chain (s.alloc node key).chain ∧
    ∀ p, p ≠ node → (s.alloc node key).heap p = s.heap p := by
  have hheap : ∀ p, p ≠ node → (s.alloc node key).heap p = s.heap p := by
    intro p hp
    simp [State.alloc, hp]
  have hne : ∀ p ∈ s.chain, p ≠ node := by
    rintro p hp rfl
    exact h.not_chain fresh hp
  refine ⟨⟨List.prefix_rfl, ?_, ?_⟩, hheap⟩
  · intro p hp
    simp [keyOf, hheap p (hne p hp)]
  · intro p hp r hr
    simpa [nextOf, hheap p (hne p hp)] using hr

theorem Frame.alloc (h : Frame s tid) (fresh : s.heap node = none) (key : Int) :
    Frame (s.alloc node key) tid := by
  obtain ⟨g, hheap⟩ := h.alloc_grows fresh key
  have hne : ∀ p ∈ s.chain, p ≠ node := by
    rintro p hp rfl
    exact h.not_chain fresh hp
  refine h.grow ?_ rfl (fun _ _ => rfl) (fun _ _ => rfl) g ?_
  · refine ⟨h.walk.congr ?_, h.nodup, ?_, ?_, h.front, h.order, h.back⟩
    · intro p hp
      simp [nextOf, hheap p (hne p hp)]
    · intro p hp
      rw [hheap p (hne p hp)]
      exact h.live p hp
    · refine h.keys.trans (List.map_congr_left fun p hp => ?_)
      exact (g.key p (by simp [State.chain, hp])).symm
  · intro i hi p k hp
    obtain ⟨hh, hc⟩ := (h.threads i hi).owned p k hp
    have hpn : p ≠ node := by
      rintro rfl
      simp [fresh] at hh
    exact ⟨by rw [hheap p hpn, hh], hc⟩

theorem State.link_chain (s : State) (b : Ptr) (n : QueueNode) (key : Int) (node : Ptr) :
    (s.link b n key node).chain = s.chain ++ [node] := by
  simp [State.chain, State.link]

theorem State.link_heap (hp : p ≠ b) : (s.link b n key node).heap p = s.heap p := by
  simp [State.link, hp]

theorem State.link_heap_self : (s.link b n key node).heap b = some { n with next := some node } := by
  simp [State.link]

theorem State.link_key (hn : s.heap b = some n) (p : Ptr) :
    keyOf (s.link b n key node).heap (some p) = keyOf s.heap (some p) := by
  by_cases hp : p = b
  · rw [hp, keyOf_of State.link_heap_self, keyOf_of hn]
  · simp [keyOf, State.link_heap hp]

theorem State.link_grows (hn : s.heap b = some n) (hlast : n.next = none) :
    Grows s.heap (s.link b n key node).heap s.chain (s.link b n key node).chain := by
  refine ⟨⟨[node], (s.link_chain b n key node).symm⟩, fun p _ => State.link_key hn p, ?_⟩
  intro p hp r hr
  have hpb : p ≠ b := by
    rintro rfl
    simp [nextOf_of hn, hlast] at hr
  simpa [nextOf, State.link_heap hpb] using hr

/-- The swap of `next` puts the node at the end of the chain. -/
theorem Frame.link (h : Frame s tid) (hb : b ∈ s.chain) (hn : s.heap b = some n)
    (hlast : n.next = none) (hnode : s.heap node = some ⟨key, none⟩) (hout : node ∉ s.chain)
    (others : ∀ i ≠ tid, ∀ k, (s.phase i).owns ≠ some (node, k)) :
    Frame (s.link b n key node) tid := by
  obtain ⟨xs, hxs⟩ := h.last hb (by rw [nextOf_of hn, hlast])
  have hnb : node ≠ b := by
    rintro rfl
    exact hout hb
  refine h.grow ?_ rfl (fun _ _ => rfl) (fun _ _ => rfl) (State.link_grows hn hlast) ?_
  · refine ⟨?_, ?_, ?_, ?_, h.front, ?_, ?_⟩
    · have hw := h.walk
      have hnd := h.nodup
      rw [hxs] at hw hnd
      rw [State.link_chain, hxs]
      refine hw.concat ?_ ?_ ?_
      · intro a ha
        have hab : a ≠ b := (List.nodup_append.mp hnd).2.2 a ha b (by simp)
        simp [nextOf, State.link_heap hab]
      · rw [nextOf_of State.link_heap_self]
      · rw [nextOf_of ((State.link_heap hnb).trans hnode)]
    · rw [State.link_chain]
      refine List.nodup_append.mpr ⟨h.nodup, by simp, ?_⟩
      intro a ha c hc
      obtain rfl : c = node := by simpa using hc
      rintro rfl
      exact hout ha
    · intro p hp
      by_cases hpb : p = b
      · rw [hpb]
        exact ⟨_, State.link_heap_self⟩
      · rw [State.link_heap hpb]
        rw [State.link_chain] at hp
        rcases List.mem_append.mp hp with hp | hp
        · exact h.live p hp
        · obtain rfl : p = node := by simpa using hp
          exact ⟨_, hnode⟩
    · simp only [State.link_key hn]
      simp [State.link, h.keys, keyOf_of hnode]
    · refine h.order.trans ?_
      simp [State.link]
    · obtain ⟨c, hc, ht⟩ := h.back
      exact ⟨c, by simp [State.link_chain, hc], ht⟩
  · intro i hi p k hp
    obtain ⟨hh, hc⟩ := (h.threads i hi).owned p k hp
    have hpb : p ≠ b := fun he => hc (he ▸ hb)
    have hpn : p ≠ node := by
      rintro rfl
      exact others i hi k hp
    rw [State.link_heap hpb, State.link_chain]
    exact ⟨hh, by simp [hc, hpn]⟩

theorem Frame.casTail (h : Frame s tid) {old : Option Ptr} (hr : r ∈ s.chain) :
    Frame (s.casTail old r) tid := by
  refine h.grow ?_ rfl (fun _ _ => rfl) (fun _ _ => rfl) (Grows.refl _ _) fun i hi => (h.threads i hi).owned
  refine ⟨h.walk, h.nodup, h.live, h.keys, h.front, h.order, ?_⟩
  by_cases ht : s.tail = old
  · exact ⟨r, hr, by simp [State.casTail, ht]⟩
  · simpa [State.casTail, ht] using h.back

/-- The swap of `head` moves it to its successor. -/
theorem Frame.take (h : Frame s tid) (hb : s.head = some b) (hr : nextOf s.heap b = some r) :
    Frame (s.take tid (some r)) tid := by
  refine h.grow ?_ rfl ?_ (fun _ _ => rfl) (Grows.refl _ _) fun i hi => (h.threads i hi).owned
  · refine ⟨h.walk, h.nodup, h.live, h.keys, ?_, ?_, h.back⟩
    · simp only [State.take, List.map_append, List.map_cons, List.map_nil]
      rw [← List.cons_append, List.getLast?_concat]
    · obtain ⟨xs, b', ys, he, hb', ht⟩ := h.head_split
      obtain rfl : b = b' := Option.some.inj (hb.symm.trans hb')
      have hw := h.walk
      rw [he] at hw
      obtain ⟨zs, rfl⟩ := List.head?_eq_some_iff.mp (hw.next_eq.symm.trans hr)
      refine ⟨zs.map some, List.cons_injective (a := some s.sentinel) ?_⟩
      simp only [State.take, List.map_append, List.map_cons, List.map_nil]
      rw [← List.cons_append, ← List.cons_append, ht, ← List.map_cons]
      change _ = s.chain.map some
      rw [he]
      simp
  · intro i hi
    simp [State.take, Ne.symm hi]

theorem Frame.answer (h : Frame s tid) (key : Int) : Frame (s.answer tid key) tid := by
  refine h.grow ⟨h.walk, h.nodup, h.live, h.keys, h.front, h.order, h.back⟩ rfl (fun _ _ => rfl) ?_
    (Grows.refl _ _) fun i hi => (h.threads i hi).owned
  intro i hi
  simp [State.answer, hi]

/-! ### Whole steps -/

theorem inv_initQueue (sentinel : Ptr) (key : Int) : Inv (.initQueue sentinel key) := by
  have hs : (State.initQueue sentinel key).heap sentinel = some ⟨key, none⟩ := by
    simp [State.initQueue]
  refine ⟨⟨?_, by simp [State.chain, State.initQueue], ?_, rfl, rfl, by simp [State.initQueue], ?_⟩,
    ?_, ?_, ?_⟩
  · refine .cons ?_
    rw [show (State.initQueue sentinel key).sentinel = sentinel from rfl, nextOf_of hs]
    exact .nil
  · intro p hp
    obtain rfl : p = sentinel := by simpa [State.chain, State.initQueue] using hp
    exact ⟨_, hs⟩
  · exact ⟨sentinel, by simp [State.chain, State.initQueue], rfl⟩
  · intro i
    constructor <;> simp [State.initQueue, Phase.owns, Phase.holds]
  · intro i j p k k' hp
    simp [State.initQueue, Phase.owns] at hp
  · intro i
    simp [State.takenBy, State.initQueue, Phase.pending]

/-- A step that only changes what the thread itself knows. -/
theorem Inv.goto (h : Inv s) (hl : Local s.heap s.chain ph)
    (ho : ∀ p k, ph.owns = some (p, k) → (s.phase tid).owns = some (p, k))
    (hp : ph.pending s.heap = (s.phase tid).pending s.heap) : Inv (s.goto tid ph) := by
  refine (h.frame tid).goto hl ?_ (hp ▸ h.answers tid)
  intro p k hpk i hi k' hpi
  exact hi (h.distinct i tid p k' k hpi (ho p k hpk))

/-- Nobody else owns the node of a thread. -/
theorem Inv.others (h : Inv s) (ho : (s.phase tid).owns = some (p, key)) :
    ∀ i ≠ tid, ∀ k, (s.phase i).owns ≠ some (p, k) :=
  fun i hi k hp => hi (h.distinct i tid p k key hp ho)

theorem Inv.enqueue (h : Inv s) (idle : s.phase tid = .idle) (fresh : s.heap node = none) (key : Int) :
    Inv ((s.alloc node key).goto tid (.loadTail key node)) := by
  have hf := h.frame tid
  refine (hf.alloc fresh key).goto ⟨?_, nofun⟩ ?_ ?_
  · rintro p k ⟨rfl, rfl⟩
    exact ⟨by simp [State.alloc], hf.not_chain fresh⟩
  · rintro p k ⟨rfl, rfl⟩ i hi k' hpi
    obtain ⟨hh, -⟩ := (h.threads i).owned node k' hpi
    simp [fresh] at hh
  · rw [hf.takenBy_eq (hf.alloc_grows fresh key).1 rfl, h.answers tid, idle]
    rfl

/-- The swap of `next` either links the node or finds the node that another thread has linked. -/
theorem Inv.casNext {tc : Option Ptr} (h : Inv s) (hph : s.phase tid = .casNext key node tc)
    (ha : s.act tid = some s') : Inv s' := by
  have hl := h.threads tid
  have hans := h.answers tid
  rw [hph] at hl hans
  obtain ⟨b, hb, rfl, -⟩ := hl.held tc rfl
  obtain ⟨hnode, hout⟩ := hl.owned node key rfl
  obtain ⟨n, hn⟩ := h.live b hb
  simp only [State.act, hph, Option.bind_eq_bind, Option.bind_some, hn] at ha
  cases hnext : n.next with
  | none =>
    obtain rfl : _ = s' := by simpa [hnext] using ha
    have hlink := (h.frame tid).link hb hn hnext hnode hout (h.others (by rw [hph]; rfl))
    refine hlink.goto (.holding rfl rfl ?_ ?_) nofun ?_
    · simp [State.link_chain, hb]
    · rw [nextOf_of State.link_heap_self]
      rfl
    · rw [h.takenBy_eq (State.link_grows hn hnext) rfl]
      exact hans
  | some ret =>
    obtain rfl : _ = s' := by simpa [hnext] using ha
    refine h.goto ⟨hl.owned, ?_⟩ (by simp [hph, Phase.owns]) (by simp [hph, Phase.pending])
    rintro a ⟨rfl⟩
    exact ⟨b, hb, rfl, (nextOf_of hn).trans hnext⟩

/-- The swap of `head` either takes the next node or finds that the head has moved. -/
theorem Inv.casHead {sn new : Option Ptr} (h : Inv s) (hph : s.phase tid = .casHead sn new)
    (ha : s.act tid = some s') : Inv s' := by
  have hl := h.threads tid
  have hans := h.answers tid
  rw [hph] at hl hans
  obtain ⟨b, hb, rfl, hnew, hk⟩ := hl.held sn rfl
  obtain ⟨r, hr⟩ := Option.isSome_iff_exists.mp hk
  obtain rfl : new = some r := hnew.symm.trans hr
  by_cases hhead : s.head = some b
  · obtain rfl : _ = s' := by simpa [State.act, hph, hhead] using ha
    refine ((h.frame tid).take hhead hr).goto (.holding rfl rfl hb hk) nofun ?_
    have hlast : (s.take tid (some r)).takenBy tid = s.takenBy tid ++ [keyOf s.heap (some r)] := by
      simp [State.takenBy, State.take]
    rw [hlast, hans]
    simp [State.take, Phase.pending, hr]
  · obtain rfl : _ = s' := by simpa [State.act, hph, hhead] using ha
    exact h.goto (.free rfl rfl) nofun (by simp [hph, Phase.pending])

/-- One instruction, at each of the places where a thread can stand. -/
theorem Inv.act (h : Inv s) (ha : s.act tid = some s') : Inv s' := by
  have hl := h.threads tid
  have hans := h.answers tid
  cases hph : s.phase tid with
  | idle => simp [State.act, hph] at ha
  | loadTail key node =>
    obtain rfl : _ = s' := by simpa [State.act, hph] using ha
    rw [hph] at hl
    refine h.goto ⟨hl.owned, ?_⟩ (by simp [hph, Phase.owns]) (by simp [hph, Phase.pending])
    rintro a ⟨rfl⟩
    obtain ⟨b, hb, ht⟩ := h.back
    exact ⟨b, hb, ht, trivial⟩
  | casNext key node tc => exact h.casNext hph ha
  | helpTail key node tc ret =>
    obtain rfl : _ = s' := by simpa [State.act, hph] using ha
    have hown : ∀ i ≠ tid, ∀ k, (s.phase i).owns ≠ some (node, k) := h.others (by rw [hph]; rfl)
    rw [hph] at hl hans
    obtain ⟨b, hb, rfl, hr⟩ := hl.held tc rfl
    refine ((h.frame tid).casTail (h.next_mem hb hr)).goto ⟨hl.owned, nofun⟩ ?_ hans
    rintro p k ⟨rfl, rfl⟩
    exact hown
  | swingTail node tc =>
    obtain rfl : _ = s' := by simpa [State.act, hph] using ha
    rw [hph] at hl hans
    obtain ⟨b, hb, rfl, hr⟩ := hl.held tc rfl
    exact ((h.frame tid).casTail (h.next_mem hb hr)).goto (.free rfl rfl) nofun hans
  | loadHead =>
    obtain rfl : _ = s' := by simpa [State.act, hph] using ha
    obtain ⟨b, hb, he⟩ := h.head_mem
    rw [he]
    exact h.goto (.holding rfl rfl hb trivial) nofun (by simp [hph, Phase.pending])
  | loadNext sn =>
    rw [hph] at hl
    obtain ⟨b, hb, rfl, -⟩ := hl.held sn rfl
    obtain ⟨n, hn⟩ := h.live b hb
    obtain rfl : _ = s' := by simpa [State.act, hph, hn] using ha
    by_cases hnext : n.next = none
    · rw [if_pos hnext]
      exact h.goto (.free rfl rfl) nofun (by simp [hph, Phase.pending])
    · rw [if_neg hnext]
      refine h.goto (.holding rfl rfl hb ?_) nofun (by simp [hph, Phase.pending])
      rw [nextOf_of hn]
      exact Option.isSome_iff_ne_none.mpr hnext
  | loadNextAgain sn =>
    rw [hph] at hl
    obtain ⟨b, hb, rfl, hk⟩ := hl.held sn rfl
    obtain ⟨n, hn⟩ := h.live b hb
    obtain rfl : _ = s' := by simpa [State.act, hph, hn] using ha
    exact h.goto (.holding rfl rfl hb ⟨nextOf_of hn, hk⟩) nofun (by simp [hph, Phase.pending])
  | casHead sn new => exact h.casHead hph ha
  | loadNextOfTaken sn =>
    rw [hph] at hl
    obtain ⟨b, hb, rfl, hk⟩ := hl.held sn rfl
    obtain ⟨r, hr⟩ := Option.isSome_iff_exists.mp hk
    obtain ⟨n, hn⟩ := h.live b hb
    obtain rfl : _ = s' := by simpa [State.act, hph, hn] using ha
    rw [← nextOf_of hn, hr]
    exact h.goto (.holding rfl rfl (h.next_mem hb hr) trivial) nofun (by simp [hph, Phase.pending, hr])
  | loadKey nd =>
    rw [hph] at hl hans
    obtain ⟨b, hb, rfl, -⟩ := hl.held nd rfl
    obtain ⟨n, hn⟩ := h.live b hb
    obtain rfl : _ = s' := by simpa [State.act, hph, hn] using ha
    refine ((h.frame tid).answer n.key).goto (.free rfl rfl) nofun ?_
    have hsame : (s.answer tid n.key).takenBy tid = s.takenBy tid := rfl
    rw [hsame, hans]
    simp [State.answer, Phase.pending, keyOf_of hn]

theorem Inv.step (h : Inv s) (hs : Step s tid s') : Inv s' := by
  cases hs with
  | enqueue key node idle fresh => exact h.enqueue idle fresh key
  | dequeue idle => exact h.goto (.free rfl rfl) nofun (by simp [idle, Phase.pending])
  | act ha => exact h.act ha

theorem reachable_inv (h : Reachable queueSystem s) : Inv s := by
  refine h.invariant ?_ fun s tid s' _ hs => hs.step
  rintro s ⟨sentinel, key, rfl⟩
  exact inv_initQueue sentinel key

/-- No thread ever reads through a null pointer. -/
theorem Inv.act_returns (h : Inv s) (tid : ThreadId) (busy : s.phase tid ≠ .idle) :
    ∃ s', s.act tid = some s' := by
  have held : ∀ a, (s.phase tid).holds = some a → ∃ b n, a = some b ∧ s.heap b = some n := by
    intro a ha
    obtain ⟨b, hb, he, -⟩ := (h.threads tid).held a ha
    obtain ⟨n, hn⟩ := h.live b hb
    exact ⟨b, n, he, hn⟩
  cases hph : s.phase tid with
  | idle => exact absurd hph busy
  | casHead sn new =>
    by_cases hhead : s.head = sn <;> simp [State.act, hph, hhead]
  | casNext key node tc =>
    obtain ⟨b, n, rfl, hn⟩ := held tc (by simp [hph, Phase.holds])
    cases hnext : n.next <;> simp [State.act, hph, hn, hnext]
  | loadNext a | loadNextAgain a | loadNextOfTaken a | loadKey a =>
    obtain ⟨b, n, rfl, hn⟩ := held a (by simp [hph, Phase.holds])
    simp [State.act, hph, hn]
  | _ => simp [State.act, hph]

/-! ### The two pointers move forward -/

/-- A pointer that stays, or moves to the successor of its node. -/
def Moved (heap : Ptr → Option QueueNode) (a a' : Option Ptr) : Prop :=
  a' = a ∨ ∃ b r, a = some b ∧ a' = some r ∧ nextOf heap b = some r

theorem Inv.moves (h : Inv s) (hs : Step s tid s') :
    s.chain <+: s'.chain ∧ Moved s.heap s.head s'.head ∧ Moved s.heap s.tail s'.tail := by
  have still : ∀ s₁ : State, s₁.chain = s.chain → s₁.head = s.head → s₁.tail = s.tail →
      s.chain <+: s₁.chain ∧ Moved s.heap s.head s₁.head ∧ Moved s.heap s.tail s₁.tail :=
    fun s₁ hc hh ht => ⟨hc ▸ List.prefix_rfl, .inl hh, .inl ht⟩
  cases hs with
  | enqueue key node idle fresh => exact still _ rfl rfl rfl
  | dequeue idle => exact still _ rfl rfl rfl
  | act ha =>
    have held := (h.threads tid).held
    have cas : ∀ tc r, (∃ b ∈ s.chain, tc = some b ∧ nextOf s.heap b = some r) →
        Moved s.heap s.tail (s.casTail tc r).tail := by
      rintro tc r ⟨b, -, rfl, hr⟩
      by_cases ht : s.tail = some b
      · exact .inr ⟨b, r, ht, by simp [State.casTail, ht], hr⟩
      · exact .inl (by simp [State.casTail, ht])
    cases hph : s.phase tid with
    | idle => simp [State.act, hph] at ha
    | loadTail key node | loadHead =>
      obtain rfl : _ = s' := by simpa [State.act, hph] using ha
      exact still _ rfl rfl rfl
    | casNext key node tc =>
      rw [hph] at held
      obtain ⟨b, hb, rfl, -⟩ := held tc rfl
      obtain ⟨n, hn⟩ := h.live b hb
      cases hnext : n.next with
      | none =>
        obtain rfl : _ = s' := by simpa [State.act, hph, hn, hnext] using ha
        exact ⟨⟨[node], (s.link_chain b n key node).symm⟩, .inl rfl, .inl rfl⟩
      | some ret =>
        obtain rfl : _ = s' := by simpa [State.act, hph, hn, hnext] using ha
        exact still _ rfl rfl rfl
    | helpTail key node tc ret =>
      obtain rfl : _ = s' := by simpa [State.act, hph] using ha
      rw [hph] at held
      exact ⟨List.prefix_rfl, .inl rfl, cas tc ret (held tc rfl)⟩
    | swingTail node tc =>
      obtain rfl : _ = s' := by simpa [State.act, hph] using ha
      rw [hph] at held
      exact ⟨List.prefix_rfl, .inl rfl, cas tc node (held tc rfl)⟩
    | loadNext a | loadNextAgain a | loadNextOfTaken a | loadKey a =>
      rw [hph] at held
      obtain ⟨b, hb, rfl, -⟩ := held a rfl
      obtain ⟨n, hn⟩ := h.live b hb
      obtain rfl : _ = s' := by simpa [State.act, hph, hn] using ha
      exact still _ rfl rfl rfl
    | casHead sn new =>
      rw [hph] at held
      obtain ⟨b, hb, rfl, hnew, hk⟩ := held sn rfl
      obtain ⟨r, hr⟩ := Option.isSome_iff_exists.mp hk
      by_cases hhead : s.head = some b
      · obtain rfl : _ = s' := by simpa [State.act, hph, hhead] using ha
        exact ⟨List.prefix_rfl, .inr ⟨b, r, hhead, hnew.symm.trans hr, hr⟩, .inl rfl⟩
      · obtain rfl : _ = s' := by simpa [State.act, hph, hhead] using ha
        exact still _ rfl rfl rfl

/-- The chain has only grown at its end, and both pointers stand where they stood or further on. -/
structure Ahead (s s' : State) : Prop where
  chain : s.chain <+: s'.chain
  head : ∀ b b', s.head = some b → s'.head = some b' → s'.chain.idxOf b ≤ s'.chain.idxOf b'
  tail : ∀ b b', s.tail = some b → s'.tail = some b' → s'.chain.idxOf b ≤ s'.chain.idxOf b'

theorem idxOf_of_isPrefix (h : l <+: l') (hb : b ∈ l) : l'.idxOf b = l.idxOf b := by
  obtain ⟨zs, rfl⟩ := h
  exact List.idxOf_append_of_mem hb

theorem Inv.step_ahead (h : Inv s) (hs : Step s tid s') : Ahead s s' := by
  obtain ⟨hc, hhead, htail⟩ := h.moves hs
  have forward : ∀ {a a' : Option Ptr}, Moved s.heap a a' → (∃ b ∈ s.chain, a = some b) →
      ∀ b b', a = some b → a' = some b' → s'.chain.idxOf b ≤ s'.chain.idxOf b' := by
    rintro a a' hm ⟨c, hcm, rfl⟩ b b' hb hb'
    obtain rfl := Option.some.inj hb
    rcases hm with rfl | ⟨d, r, hd, rfl, hr⟩
    · obtain rfl := Option.some.inj hb'
      exact Nat.le_refl _
    · obtain rfl := Option.some.inj hd
      obtain rfl := Option.some.inj hb'
      rw [idxOf_of_isPrefix hc hcm, idxOf_of_isPrefix hc (h.next_mem hcm hr), h.idxOf_next hcm hr]
      exact Nat.le_succ _
  exact ⟨hc, forward hhead h.head_mem, forward htail h.back⟩

/-- Over any run. -/
theorem Inv.ahead (h : Inv s) (hs : Relation.ReflTransGen (fun s s' => ∃ tid, Step s tid s') s s') :
    Inv s' ∧ Ahead s s' := by
  induction hs with
  | refl =>
    refine ⟨h, List.prefix_rfl, ?_, ?_⟩ <;>
    · intro b b' hb hb'
      rw [Option.some.inj (hb.symm.trans hb')]
  | tail _ hs ih =>
    obtain ⟨tid, hs⟩ := hs
    obtain ⟨hi, ha⟩ := ih
    have hstep := hi.step_ahead hs
    refine ⟨hi.step hs, ha.chain.trans hstep.chain, ?_, ?_⟩
    · intro b b' hb hb'
      obtain ⟨c, hcm, hc⟩ := hi.head_mem
      obtain ⟨d, hdm, hd⟩ := h.head_mem
      obtain rfl := Option.some.inj (hd.symm.trans hb)
      have hle := ha.head d c hb hc
      rw [← idxOf_of_isPrefix hstep.chain (ha.chain.subset hdm),
        ← idxOf_of_isPrefix hstep.chain hcm] at hle
      exact hle.trans (hstep.head c b' hc hb')
    · intro b b' hb hb'
      obtain ⟨c, hcm, hc⟩ := hi.back
      obtain ⟨d, hdm, hd⟩ := h.back
      obtain rfl := Option.some.inj (hd.symm.trans hb)
      have hle := ha.tail d c hb hc
      rw [← idxOf_of_isPrefix hstep.chain (ha.chain.subset hdm),
        ← idxOf_of_isPrefix hstep.chain hcm] at hle
      exact hle.trans (hstep.tail c b' hc hb')

/-- In every reachable state the keys taken so far, in the order in which `head` moved, are the
first keys put in, in the order in which they were linked; head and tail point into the one
chain and from there on only move forward along it; and what a thread got back are the keys
of the nodes that it made the head. -/
theorem queue_fifo (h : Reachable queueSystem s) :
    (s.taken.map fun e => keyOf s.heap e.2) <+: s.enqueued ∧
    (s.taken.map (·.2)).Nodup ∧
    s.enqueued = (s.linked.map fun p => keyOf s.heap (some p)) ∧
    Walk (nextOf s.heap) (some s.sentinel) (s.sentinel :: s.linked) ∧
    (s.sentinel :: s.linked).Nodup ∧
    (∃ b ∈ s.sentinel :: s.linked, s.head = some b) ∧
    (∃ b ∈ s.sentinel :: s.linked, s.tail = some b) ∧
    (∀ s', Relation.ReflTransGen (fun s s' => ∃ tid, Step s tid s') s s' → Ahead s s') ∧
    (∀ tid, s.returned tid <+: s.takenBy tid ∧
      (s.phase tid = .idle → s.returned tid = s.takenBy tid)) ∧
    ∀ tid, s.phase tid ≠ .idle → ∃ s', Step s tid s' := by
  have hi := reachable_inv h
  refine ⟨?_, ?_, hi.keys, hi.walk, hi.nodup, hi.head_mem, hi.back, fun s' hs => (hi.ahead hs).2, ?_, ?_⟩
  · have hp := hi.order.map (keyOf s.heap)
    rw [hi.keys]
    simpa [Function.comp_def] using hp
  · have hnd : (s.linked.map some).Nodup :=
      (List.nodup_cons.mp hi.nodup).2.map (Option.some_injective _)
    exact hi.order.sublist.nodup hnd
  · intro tid
    rw [hi.answers tid]
    refine ⟨List.prefix_append _ _, fun hidle => ?_⟩
    simp [hidle, Phase.pending]
  · intro tid busy
    obtain ⟨s', hs'⟩ := hi.act_returns tid busy
    exact ⟨s', .act hs'⟩

inductive Move where
  | enqueue (tid : ThreadId) (key : Int) (node : Ptr)
  | dequeue (tid : ThreadId)
  | act (tid : ThreadId)

def State.advance (s : State) : Move → Option State
  | .enqueue tid key node =>
    if s.phase tid = .idle ∧ s.heap node = none then some ((s.alloc node key).goto tid (.loadTail key node)) else none
  | .dequeue tid => if s.phase tid = .idle then some (s.goto tid .loadHead) else none
  | .act tid => s.act tid

theorem step_advance {m : Move} (h : s.advance m = some s') : ∃ tid, Step s tid s' := by
  cases m with
  | enqueue tid key node =>
    obtain ⟨⟨idle, fresh⟩, ⟨⟩⟩ := Option.ite_none_right_eq_some.mp h
    exact ⟨tid, .enqueue key node idle fresh⟩
  | dequeue tid =>
    obtain ⟨idle, ⟨⟩⟩ := Option.ite_none_right_eq_some.mp h
    exact ⟨tid, .dequeue idle⟩
  | act tid => exact ⟨tid, .act h⟩

/-- Threads 1 and 2 both load the same tail, and later both load the same head. Each time thread 2 is
first: thread 1 has to help, and then to start again. -/
def contended : List Move :=
  [.enqueue 1 7 1, .act 1, .enqueue 2 8 2] ++ List.replicate 2 (.act 2) ++ List.replicate 4 (.act 1) ++
    [.act 2, .act 1, .dequeue 1, .dequeue 2] ++ List.replicate 3 (.act 1) ++ List.replicate 4 (.act 2) ++
    [.act 1, .act 2, .act 2]

theorem queue_fifo_contended : ∃ s : State, Reachable queueSystem s ∧ s.enqueued = [8, 7] ∧
    s.phase 1 = .loadHead ∧ s.returned 2 = [8] ∧
    (s.taken.map fun e => keyOf s.heap e.2) <+: [8, 7] ∧ s.returned 2 = s.takenBy 2 := by
  have hrun : (contended.foldlM State.advance (.initQueue 0 0)).map (fun s =>
      (s.enqueued, s.phase 1, s.phase 2, s.returned 2)) = some ([8, 7], .loadHead, .idle, [8]) := by decide +kernel
  obtain ⟨s, hs, he⟩ := Option.map_eq_some_iff.mp hrun
  simp only [Prod.mk.injEq] at he
  obtain ⟨henqueued, hwaits, hidle, hreturned⟩ := he
  have hreach : Reachable queueSystem s :=
    Reachable.foldlM (fun _ _ _ h => step_advance h) (.init ⟨0, 0, rfl⟩) hs
  obtain ⟨hp, -, -, -, -, -, -, -, ha, -⟩ := queue_fifo hreach
  exact ⟨s, hreach, henqueued, hwaits, hreturned, henqueued ▸ hp, (ha 2).2 hidle⟩

end Queue
