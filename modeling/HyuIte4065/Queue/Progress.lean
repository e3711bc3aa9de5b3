import HyuIte4065.Queue.Linear
import HyuIte4065.Library.Amortized
import Mathlib.Algebra.BigOperators.Ring.Finset

/-!
# The unbounded queue is lock-free

A compare-and-swap fails only because another one has succeeded, and each that succeeds makes a
bounded amount of work for the other threads. `tail` is never more than one node behind.
-/
namespace Queue

open Transition

/-- The step tests `sentinel_node->next` while the queue is empty. -/
def pollsEmpty (s : State) (ev : Atomic.Event ThreadId (Fifo.Op Int) (Option Int)) : Bool :=
  match s.phase ev.thread with
  | .loadNext _ => s.keys.isEmpty
  | _ => false

namespace Phase

/-- The copy of `tail`, or of `head`, that a thread is going to compare with. -/
def tailCopy : Phase → Option Ptr
  | .casNext _ _ tailCopied | .helpTail _ _ tailCopied _ => tailCopied
  | _ => none

def headCopy : Phase → Option Ptr
  | .loadNext sentinelNode | .loadNextAgain sentinelNode | .casHead sentinelNode _ => sentinelNode
  | _ => none

end Phase

/-- The number of nodes behind the one that a pointer points to. -/
def State.behind (s : State) : Option Ptr → Nat
  | none => 0
  | some b => s.chain.length - 1 - s.chain.idxOf b

/-- The failed compare-and-swap that an old copy of `head` leads to. -/
def State.stale (s : State) (sentinelNode : Option Ptr) : Nat := if s.head = sentinelNode then 0 else 4

/-- What a thread is still going to do, if no other compare-and-swap succeeds, with what it will make
the others do again: `n` is the number of threads. -/
def State.weight (s : State) (n : Nat) : Phase → Nat
  | .idle => 0
  | .loadTail _ _ => 3 * n + 3 * s.behind s.tail + 3
  | .casNext _ _ tailCopied => 3 * n + 3 * s.behind tailCopied + 2
  | .helpTail _ _ tailCopied _ => 3 * n + 3 * s.behind tailCopied + 1
  | .swingTail _ _ => 1
  | .loadHead => 4 * n + 6
  | .loadNext sentinelNode => 4 * n + 5 + s.stale sentinelNode
  | .loadNextAgain sentinelNode => 4 * n + 4 + s.stale sentinelNode
  | .casHead sentinelNode _ => 4 * n + 3 + s.stale sentinelNode
  | .loadNextOfTaken _ => 2
  | .loadKey _ => 1

def State.work (s : State) (threads : Finset ThreadId) : Nat :=
  ∑ tid ∈ threads, s.weight threads.card (s.phase tid)

/-- What a step brings in: a call, or a test of the empty queue that has to be made again. -/
def income (n : Nat) (s : State) (ev : Atomic.Event ThreadId (Fifo.Op Int) (Option Int)) : Nat :=
  (4 * n + 7) * ev.calls + if pollsEmpty s ev then 2 else 0

/-- Where the pointers and the copies of them stand. -/
structure Ordered (s : State) : Prop where
  tail : ∀ i b c, (s.phase i).tailCopy = some b → s.tail = some c → s.chain.idxOf b ≤ s.chain.idxOf c
  head : ∀ i b c, (s.phase i).headCopy = some b → s.head = some c → s.chain.idxOf b ≤ s.chain.idxOf c
  last : ∀ c, s.tail = some c → s.chain.length ≤ s.chain.idxOf c + 2

variable {s s' : State} {tid i : ThreadId} {p b r c node : Ptr} {n : Nat} {key : Int} {ph : Phase}
  {ev : Atomic.Event ThreadId (Fifo.Op Int) (Option Int)}

/-! ### Where the pointers stand -/

/-- A step changes the phase of its own thread, and copies at most the pointer that it loads. -/
structure Copies (s : State) (tid : ThreadId) (s' : State) : Prop where
  others : ∀ i ≠ tid, s'.phase i = s.phase i
  tail : ∀ b, (s'.phase tid).tailCopy = some b → (s.phase tid).tailCopy = some b ∨ s.tail = some b
  head : ∀ b, (s'.phase tid).headCopy = some b → (s.phase tid).headCopy = some b ∨ s.head = some b

theorem Copies.of_goto (hphase : s'.phase = Function.update s.phase tid ph)
    (htail : ∀ b, ph.tailCopy = some b → (s.phase tid).tailCopy = some b ∨ s.tail = some b)
    (hhead : ∀ b, ph.headCopy = some b → (s.phase tid).headCopy = some b ∨ s.head = some b) : Copies s tid s' := by
  refine ⟨fun i hi => by rw [hphase, Function.update_of_ne hi], ?_, ?_⟩ <;> rw [hphase, Function.update_self]
  · exact htail
  · exact hhead

theorem Inv.copies (h : Inv s) (hs : Step s tid s') : Copies s tid s' := by
  cases hs with
  | enqueue key node idle fresh => exact .of_goto rfl nofun nofun
  | dequeue idle => exact .of_goto rfl nofun nofun
  | act ha =>
    cases h.access ha with
    | loadTail hph => exact .of_goto rfl (fun _ hb => .inr hb) nofun
    | late hph => exact .of_goto rfl (fun _ hb => .inl (by rw [hph]; exact hb)) nofun
    | loadHead hph => exact .of_goto rfl nofun fun _ hb => .inr hb
    | nonempty hph | loadNextAgain hph => exact .of_goto rfl nofun fun _ hb => .inl (by rw [hph]; exact hb)
    | link hph | helpTail hph | swingTail hph | empty hph | take hph | miss hph | loadNextOfTaken hph | loadKey hph =>
      exact .of_goto rfl nofun nofun

/-- Nodes are only linked behind the node to which the own copy of `tail` points. -/
theorem Inv.chain_cases (h : Inv s) (hs : Step s tid s') : s'.chain = s.chain ∨
    ∃ b node, (s.phase tid).tailCopy = some b ∧ (∃ xs, s.chain = xs ++ [b]) ∧ s'.chain = s.chain ++ [node] := by
  cases hs with
  | enqueue key node idle fresh | dequeue idle => exact .inl rfl
  | act ha =>
    cases h.access ha with
    | @link key node b n hph hb hn hnext =>
      exact .inr ⟨b, node, by rw [hph]; rfl, h.last hb ((nextOf_of hn).trans hnext), s.link_chain b n key node⟩
    | _ => exact .inl rfl

theorem Inv.tailCopy_mem (h : Inv s) (hb : (s.phase i).tailCopy = some b) : b ∈ s.chain := by
  have held := (h.threads i).held
  cases hph : s.phase i <;> rw [hph] at hb held <;> cases hb
  case casNext key node | helpTail key node r =>
    obtain ⟨c, hc, he, -⟩ := held _ rfl
    exact Option.some.inj he ▸ hc

theorem Inv.headCopy_mem (h : Inv s) (hb : (s.phase i).headCopy = some b) : b ∈ s.chain := by
  have held := (h.threads i).held
  cases hph : s.phase i <;> rw [hph] at hb held <;> cases hb
  case loadNext | loadNextAgain | casHead =>
    obtain ⟨c, hc, he, -⟩ := held _ rfl
    exact Option.some.inj he ▸ hc

theorem Shared.idxOf_last (h : Shared s) {xs : List Ptr} (hxs : s.chain = xs ++ [b]) :
    s.chain.idxOf b + 1 = s.chain.length := by
  have hout : b ∉ xs := by
    have hnd := h.nodup
    rw [hxs] at hnd
    exact fun hm => (List.nodup_append.mp hnd).2.2 b hm b List.mem_cons_self rfl
  rw [hxs, List.idxOf_append_of_notMem hout, List.idxOf_cons_self, List.length_append, List.length_singleton]

/-- The copies that were behind their pointer are still behind it, and so is a copy that is taken now. -/
theorem Ahead.behind {copy : Phase → Option Ptr} {a a' : Option Ptr} (hc : s.chain <+: s'.chain)
    (forward : ∀ c c', a = some c → a' = some c' → s'.chain.idxOf c ≤ s'.chain.idxOf c')
    (ha : ∃ c ∈ s.chain, a = some c)
    (hmem : ∀ i b, copy (s.phase i) = some b → b ∈ s.chain)
    (hle : ∀ i b c, copy (s.phase i) = some b → a = some c → s.chain.idxOf b ≤ s.chain.idxOf c)
    (others : ∀ i ≠ tid, s'.phase i = s.phase i)
    (own : ∀ b, copy (s'.phase tid) = some b → copy (s.phase tid) = some b ∨ a = some b) :
    ∀ i b c', copy (s'.phase i) = some b → a' = some c' → s'.chain.idxOf b ≤ s'.chain.idxOf c' := by
  intro i b c' hb ha'
  obtain ⟨c, hcm, rfl⟩ := ha
  have hold : copy (s.phase i) = some b ∨ some c = some b := by
    by_cases hi : i = tid
    · exact hi ▸ own b (hi ▸ hb)
    · exact .inl (others i hi ▸ hb)
  rcases hold with hcopy | hcb
  · have hidx := hle i b c hcopy rfl
    rw [← idxOf_of_isPrefix hc (hmem i b hcopy), ← idxOf_of_isPrefix hc hcm] at hidx
    exact hidx.trans (forward c c' rfl ha')
  · exact Option.some.inj hcb ▸ forward c c' rfl ha'

theorem Ordered.step (ho : Ordered s) (h : Inv s) (hs : Step s tid s') : Ordered s' := by
  have hcopies := h.copies hs
  have hahead := h.step_ahead hs
  refine ⟨?_, ?_, fun c' hc' => ?_⟩
  · exact Ahead.behind hahead.chain hahead.tail h.back (fun _ _ => h.tailCopy_mem) ho.tail hcopies.others hcopies.tail
  · exact Ahead.behind hahead.chain hahead.head h.head_mem (fun _ _ => h.headCopy_mem) ho.head
      hcopies.others hcopies.head
  · obtain ⟨c, hcm, hc⟩ := h.back
    have hmove := hahead.tail c c' hc hc'
    rw [idxOf_of_isPrefix hahead.chain hcm] at hmove
    have hlast := ho.last c hc
    rcases h.chain_cases hs with hchain | ⟨b, node, hcopy, ⟨xs, hxs⟩, hchain⟩
    · rw [hchain] at hmove ⊢
      omega
    · have hb := h.idxOf_last hxs
      have hle := ho.tail tid b c hcopy hc
      have hlength : s'.chain.length = s.chain.length + 1 := by rw [hchain, List.length_append, List.length_singleton]
      omega

/-! ### What the threads are still going to do -/

theorem behind_congr (hchain : s'.chain = s.chain) (a : Option Ptr) : s'.behind a = s.behind a := by
  cases a with
  | none => rfl
  | some b => rw [State.behind, State.behind, hchain]

theorem behind_link (hchain : s'.chain = s.chain ++ [node]) (a : Option Ptr) : s'.behind a ≤ s.behind a + 1 := by
  cases a with
  | none => exact Nat.zero_le _
  | some c =>
    have hlt : c ∈ s.chain → s.chain.idxOf c < s.chain.length := List.idxOf_lt_length_iff.mpr
    simp only [State.behind, hchain, List.length_append, List.length_singleton, List.idxOf_append]
    split
    · omega
    · omega

/-- A successful compare-and-swap on `next` puts one more node in front of the threads that enqueue. -/
theorem weight_le {d : Nat} (hbehind : ∀ a, s'.behind a ≤ s.behind a + d)
    (htail : s'.behind s'.tail ≤ s.behind s.tail + d) (hhead : s'.head = s.head) (ph : Phase) :
    s'.weight n ph ≤ s.weight n ph + 3 * d := by
  cases ph with
  | casNext key node tc =>
    have hle := hbehind tc
    simp only [State.weight]
    omega
  | helpTail key node tc r =>
    have hle := hbehind tc
    simp only [State.weight]
    omega
  | loadTail key node =>
    simp only [State.weight]
    omega
  | loadNext sn | loadNextAgain sn | casHead sn new =>
    simp only [State.weight, State.stale, hhead]
    omega
  | _ => exact Nat.le_add_right _ _

/-- A successful compare-and-swap on `head` makes those fail that hold the old value. -/
theorem weight_take (hchain : s'.chain = s.chain) (htail : s'.tail = s.tail) (ph : Phase) :
    s'.weight n ph ≤ s.weight n ph + 4 := by
  cases ph with
  | loadNext sn | loadNextAgain sn | casHead sn new =>
    have hstale : s'.stale sn ≤ 4 := by
      rw [State.stale]
      split <;> decide
    simp only [State.weight]
    omega
  | loadTail key node =>
    simp only [State.weight, behind_congr hchain, htail]
    omega
  | casNext key node tc | helpTail key node tc r =>
    simp only [State.weight, behind_congr hchain]
    omega
  | _ => exact Nat.le_add_right _ _

section
variable {threads : Finset ThreadId} {d : Nat}

theorem work_le (htid : tid ∈ threads) (hphase : s'.phase = Function.update s.phase tid ph)
    (others : ∀ ph, s'.weight threads.card ph ≤ s.weight threads.card ph + d) :
    s'.work threads + s.weight threads.card (s.phase tid) + d ≤
      s.work threads + s'.weight threads.card ph + threads.card * d := by
  have hself : s'.phase tid = ph := by rw [hphase, Function.update_self]
  rw [← hself]
  refine Amortized.sum_step (fun i => s.weight threads.card (s.phase i)) _ htid fun i _ hi => ?_
  rw [hphase, Function.update_of_ne hi]
  exact others (s.phase i)

/-- A step that links no node and takes none, and after which the thread has `c` less to do. -/
theorem work_quiet {c e : Nat} (htid : tid ∈ threads) (hphase : s'.phase = Function.update s.phase tid ph)
    (hchain : s'.chain = s.chain) (htail : s'.behind s'.tail ≤ s.behind s.tail) (hhead : s'.head = s.head)
    (hlt : s'.weight threads.card ph + c ≤ s.weight threads.card (s.phase tid) + e) :
    s'.work threads + c ≤ s.work threads + e := by
  have hbehind : ∀ a, s'.behind a ≤ s.behind a + 0 := fun a => (behind_congr hchain a).le
  have hle := work_le htid hphase (weight_le hbehind htail hhead)
  omega

theorem behind_le_one (ho : Ordered s) (h : Inv s) : s.behind s.tail ≤ 1 := by
  obtain ⟨c, -, hc⟩ := h.back
  have hlast := ho.last c hc
  rw [hc]
  simp only [State.behind]
  omega

/-- `tail` has moved on from the copy that was behind. -/
theorem behind_helped (ho : Ordered s) (h : Inv s) (hcopy : (s.phase tid).tailCopy = some b) (hb : b ∈ s.chain)
    (hr : nextOf s.heap b = some r) :
    (s.casTail (some b) r).behind (s.casTail (some b) r).tail + 1 ≤ s.behind (some b) := by
  have hidx := h.idxOf_next hb hr
  have hrlt := List.idxOf_lt_length_of_mem (h.next_mem hb hr)
  by_cases ht : s.tail = some b
  · have htail : (s.casTail (some b) r).tail = some r := if_pos ht
    rw [htail]
    change s.chain.length - 1 - s.chain.idxOf r + 1 ≤ s.chain.length - 1 - s.chain.idxOf b
    omega
  · obtain ⟨c, hcm, hc⟩ := h.back
    have htail : (s.casTail (some b) r).tail = some c := (if_neg ht).trans hc
    have hle := ho.tail tid b c hcopy hc
    have hclt := List.idxOf_lt_length_of_mem hcm
    have hne : s.chain.idxOf b ≠ s.chain.idxOf c := fun he =>
      ht (hc.trans (congrArg some ((List.idxOf_inj hb).mp he).symm))
    rw [htail]
    change s.chain.length - 1 - s.chain.idxOf c + 1 ≤ s.chain.length - 1 - s.chain.idxOf b
    omega

theorem behind_forward (h : Inv s) (hb : b ∈ s.chain) (hr : nextOf s.heap b = some r) :
    (s.casTail (some b) r).behind (s.casTail (some b) r).tail ≤ s.behind s.tail := by
  by_cases ht : s.tail = some b
  · have htail : (s.casTail (some b) r).tail = some r := if_pos ht
    have hidx := h.idxOf_next hb hr
    rw [htail, ht]
    change s.chain.length - 1 - s.chain.idxOf r ≤ s.chain.length - 1 - s.chain.idxOf b
    omega
  · have htail : (s.casTail (some b) r).tail = s.tail := if_neg ht
    rw [htail]
    exact Nat.le_refl _

/-- The copy of `head` that has no successor is `head` itself, and nothing is behind it. -/
theorem keys_of_empty (ho : Ordered s) (h : Inv s) (hcopy : (s.phase tid).headCopy = some b) (hb : b ∈ s.chain)
    (hnext : nextOf s.heap b = none) : s.keys = [] := by
  obtain ⟨c, l, hc, hwalk, hkeys⟩ := h.shows
  obtain ⟨d, hdm, hd⟩ := h.head_mem
  obtain rfl : c = d := Option.some.inj (hc.symm.trans hd)
  obtain ⟨xs, hxs⟩ := h.last hb hnext
  have hle := ho.head tid b c hcopy hc
  have hclt := List.idxOf_lt_length_of_mem hdm
  have hlast := h.idxOf_last hxs
  obtain rfl : c = b := (List.idxOf_inj hdm).mp (by omega)
  cases hwalk with
  | cons hrest =>
    rw [hnext] at hrest
    cases hrest
    exact hkeys

/-- Every access is paid, except that the test of the empty queue leads back to the load of `head`. -/
theorem Inv.pays_access (h : Inv s) (ho : Ordered s) (htid : tid ∈ threads) (ha : Access s tid s') :
    ∃ e, s'.work threads + 1 ≤ s.work threads + e ∧
      (e = 0 ∨ e = 2 ∧ (∃ b, s.phase tid = .loadNext b) ∧ s.keys = []) := by
  cases ha with
  | @loadTail key node hph =>
    refine ⟨0, work_quiet htid rfl rfl (Nat.le_refl _) rfl ?_, .inl rfl⟩
    rw [hph]
    exact Nat.le_refl _
  | @link key node b n hph hb hn hnext =>
    have hothers : ∀ ph, ((s.link b n key node).goto tid (.swingTail node (some b))).weight threads.card ph ≤
        s.weight threads.card ph + 3 * 1 :=
      weight_le (behind_link (s.link_chain b n key node)) (behind_link (s.link_chain b n key node) s.tail) rfl
    have hle := work_le htid rfl hothers
    rw [hph] at hle
    simp only [State.weight] at hle
    exact ⟨0, by omega, .inl rfl⟩
  | @late key node b r hph hb hr =>
    refine ⟨0, work_quiet htid rfl rfl (Nat.le_refl _) rfl ?_, .inl rfl⟩
    rw [hph]
    exact Nat.le_refl _
  | @helpTail key node b r hph hb hr =>
    have hhelped := behind_helped ho h (show (s.phase tid).tailCopy = some b by rw [hph]; rfl) hb hr
    refine ⟨0, work_quiet htid rfl rfl (behind_forward h hb hr) rfl ?_, .inl rfl⟩
    rw [hph]
    change 3 * threads.card + 3 * (s.casTail (some b) r).behind (s.casTail (some b) r).tail + 3 + 1 ≤
      3 * threads.card + 3 * s.behind (some b) + 1
    omega
  | @swingTail node b hph hb hr =>
    refine ⟨0, work_quiet htid rfl rfl (behind_forward h hb hr) rfl ?_, .inl rfl⟩
    rw [hph]
    exact Nat.le_refl _
  | loadHead hph =>
    refine ⟨0, work_quiet htid rfl rfl (Nat.le_refl _) rfl ?_, .inl rfl⟩
    rw [hph]
    have hfresh : s.stale s.head = 0 := if_pos rfl
    change 4 * threads.card + 5 + s.stale s.head + 1 ≤ 4 * threads.card + 6
    omega
  | @empty b hph hb hnext =>
    have hempty := keys_of_empty ho h (show (s.phase tid).headCopy = some b by rw [hph]; rfl) hb hnext
    refine ⟨2, work_quiet htid rfl rfl (Nat.le_refl _) rfl ?_, .inr ⟨rfl, ⟨some b, hph⟩, hempty⟩⟩
    rw [hph]
    simp only [State.weight]
    omega
  | @nonempty b r hph hr =>
    refine ⟨0, work_quiet htid rfl rfl (Nat.le_refl _) rfl ?_, .inl rfl⟩
    rw [hph]
    change 4 * threads.card + 4 + s.stale (some b) + 1 ≤ 4 * threads.card + 5 + s.stale (some b)
    omega
  | @loadNextAgain b r hph hr =>
    refine ⟨0, work_quiet htid rfl rfl (Nat.le_refl _) rfl ?_, .inl rfl⟩
    rw [hph]
    change 4 * threads.card + 3 + s.stale (some b) + 1 ≤ 4 * threads.card + 4 + s.stale (some b)
    omega
  | @take b r hph hhead hr =>
    have hothers : ∀ ph, ((s.take tid (some r)).goto tid (.loadNextOfTaken (some b))).weight threads.card ph ≤
        s.weight threads.card ph + 4 := weight_take rfl rfl
    have hle := work_le htid rfl hothers
    rw [hph] at hle
    simp only [State.weight] at hle
    exact ⟨0, by omega, .inl rfl⟩
  | @miss b r hph hmoved =>
    have hstale : s.stale (some b) = 4 := if_neg hmoved
    refine ⟨0, work_quiet htid rfl rfl (Nat.le_refl _) rfl ?_, .inl rfl⟩
    rw [hph]
    simp only [State.weight, hstale]
    omega
  | loadNextOfTaken hph hr | loadKey hph hn =>
    refine ⟨0, work_quiet htid rfl rfl (Nat.le_refl _) rfl ?_, .inl rfl⟩
    rw [hph]
    exact Nat.le_refl _

/-- Every step is paid by the work that is left and by what it brings in. -/
theorem Inv.pays (h : Inv s) (ho : Ordered s) (hev : ev.thread ∈ threads) (hs : EventStep s ev s') :
    s'.work threads + 1 ≤ s.work threads + income threads.card s ev := by
  have hcall : ∀ tid op, 4 * threads.card + 7 ≤ income threads.card s (.call tid op) := by
    intro tid op
    rw [income, Atomic.Event.calls, Nat.mul_one]
    exact Nat.le_add_right _ _
  have hpaid : ∀ tid, ev.thread = tid → Access s tid s' →
      s'.work threads + 1 ≤ s.work threads + income threads.card s ev := by
    rintro tid rfl ha
    obtain ⟨e, hle, rfl | ⟨rfl, ⟨b, hph⟩, hempty⟩⟩ := h.pays_access ho hev ha
    · omega
    · have hpoll : pollsEmpty s ev = true := by
        rw [pollsEmpty, hph]
        exact List.isEmpty_iff.mpr hempty
      have hincome : 2 ≤ income threads.card s ev := by
        rw [income, hpoll]
        exact Nat.le_add_left _ _
      omega
  cases hs with
  | @enqueue tid key node idle fresh =>
    have htid : tid ∈ threads := hev
    have hle := behind_le_one ho h
    have hwork : ((s.alloc node key).goto tid (.loadTail key node)).work threads + 1 ≤
        s.work threads + (4 * threads.card + 7) := by
      refine work_quiet htid rfl rfl (Nat.le_refl _) rfl ?_
      rw [idle]
      change 3 * threads.card + 3 * s.behind s.tail + 3 + 1 ≤ 0 + (4 * threads.card + 7)
      omega
    exact hwork.trans (Nat.add_le_add_left (hcall tid _) _)
  | @dequeue tid idle =>
    have htid : tid ∈ threads := hev
    have hwork : (s.goto tid .loadHead).work threads + 1 ≤ s.work threads + (4 * threads.card + 7) := by
      refine work_quiet htid rfl rfl (Nat.le_refl _) rfl ?_
      rw [idle]
      simp only [State.weight]
      omega
    exact hwork.trans (Nat.add_le_add_left (hcall tid _) _)
  | inner ha _ => exact hpaid _ rfl (h.access ha)
  | ret ha _ => exact hpaid _ rfl (h.access ha)

end

/-! ### Runs -/

section
variable {S : System State (Atomic.Event ThreadId (Fifo.Op Int) (Option Int))} (e : Execution S)

def calls : Nat := ∑ k ∈ Finset.range e.length, (e.label k).calls

def emptyPolls : Nat := ((Finset.range e.length).filter fun k => pollsEmpty (e.state k) (e.label k)).card

theorem sum_income (n : Nat) : ∑ k ∈ Finset.range e.length, income n (e.state k) (e.label k) =
    (4 * n + 7) * calls e + 2 * emptyPolls e := by
  simp only [income]
  rw [Finset.sum_add_distrib, Amortized.sum_ite_const, ← Finset.mul_sum, Nat.mul_comm 2]
  rfl

end

theorem ordered_initQueue (sentinel : Ptr) (key : Int) : Ordered (.initQueue sentinel key) := by
  refine ⟨nofun, nofun, fun c _ => ?_⟩
  change 1 ≤ _ + 2
  omega

theorem reachable_ordered (h : Reachable eventSystem s) : Inv s ∧ Ordered s := by
  refine h.invariant (I := fun s => Inv s ∧ Ordered s) ?_ ?_
  · rintro s ⟨sentinel, key, rfl⟩
    exact ⟨inv_initQueue sentinel key, ordered_initQueue sentinel key⟩
  · rintro s ev s' - ⟨hi, ho⟩ hs
    obtain ⟨tid, hstep⟩ := EventStep.step hs
    exact ⟨hi.step hstep, ho.step hi hstep⟩

/-- A thread that is in a call is never stuck. -/
theorem Inv.event_returns (h : Inv s) (busy : s.phase tid ≠ .idle) : ∃ ev s', ev.thread = tid ∧ EventStep s ev s' := by
  obtain ⟨s', ha⟩ := h.act_returns tid busy
  cases hres : (s.phase tid).result s.heap with
  | none => exact ⟨.inner tid, s', rfl, .inner ha hres⟩
  | some res => exact ⟨.ret tid res, s', rfl, .ret ha hres⟩

/-- Only new calls and tests of the empty queue keep a given number of threads busy. -/
theorem lock_free (threads : Finset ThreadId) (e : Execution (eventSystem.restrict fun _ ev => ev.thread ∈ threads)) :
    e.length ≤ (4 * threads.card + 7) * calls e + 2 * emptyPolls e ∧
    ∀ tid, (e.state e.length).phase tid ≠ .idle → ∃ ev s', ev.thread = tid ∧ EventStep (e.state e.length) ev s' := by
  have hinv : ∀ s, Reachable (eventSystem.restrict fun _ ev => ev.thread ∈ threads) s → Inv s ∧ Ordered s :=
    fun s h => reachable_ordered h.of_restrict
  constructor
  · have hle := e.length_le_income (State.work · threads) (income threads.card)
      (fun s ev s' hr hs => (hinv s hr).1.pays (hinv s hr).2 hs.2 hs.1) (Nat.le_refl _)
    have hstart : (e.state 0).work threads = 0 := by
      obtain ⟨sentinel, key, hinit⟩ := e.starts
      rw [hinit]
      exact Finset.sum_eq_zero fun tid _ => rfl
    rw [sum_income, hstart] at hle
    omega
  · exact fun tid => (hinv _ (e.reachable (Nat.le_refl _))).1.event_returns

end Queue
