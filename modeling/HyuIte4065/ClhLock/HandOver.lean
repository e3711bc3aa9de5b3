import HyuIte4065.ClhLock.Steps
import Mathlib.Data.List.Nodup

/-!
# The CLH lock hands over in order

Every node is used by one thread or is the last one in `tail`. The threads between their
exchange and their release form a line in which each holds the node of the one before it;
the node in front of the line is the only one of it that holds 0.
-/
namespace ClhLock

open Transition

variable {s s' : State} {tid i j : ThreadId} {p n t : Ptr} {ph : Phase} {q waiting : List ThreadId}
  {holder : Option ThreadId}

namespace Phase

def pred : Phase → Option Ptr
  | .spin pred => some pred
  | .loadCnt pred => some pred
  | .storeCnt pred _ => some pred
  | .release pred => some pred
  | .takeOver pred => some pred
  | _ => none

/-- Between the return of `lock` and the store of `unlock`. -/
def inside : Phase → Bool
  | .loadCnt _ => true
  | .storeCnt _ _ => true
  | .release _ => true
  | _ => false

def waits : Phase → Bool
  | .spin _ => true
  | _ => false

end Phase

/-- The node that is the thread's alone: its own one up to the exchange, and from then on the
one of its predecessor. -/
def State.uses (s : State) (tid : ThreadId) : Option Ptr :=
  match s.phase tid with
  | .unborn => none
  | .outside => some (s.myNode tid)
  | .exchange => some (s.myNode tid)
  | ph => ph.pred

/-- Threads one behind the other: the first uses `n`, each other one the node of the thread
before it, and the node of the last one is `t`. -/
inductive Line (uses : ThreadId → Option Ptr) (node : ThreadId → Ptr) : Ptr → List ThreadId → Ptr → Prop
  | nil (n : Ptr) : Line uses node n [] n
  | cons {i : ThreadId} {n t : Ptr} {q : List ThreadId} : uses i = some n →
      Line uses node (node i) q t → Line uses node n (i :: q) t

section
variable {uses uses' : ThreadId → Option Ptr} {node node' : ThreadId → Ptr}

theorem Line.congr (h : Line uses node n q t) (hu : ∀ i ∈ q, uses' i = uses i)
    (hn : ∀ i ∈ q, node' i = node i) : Line uses' node' n q t := by
  induction h with
  | nil n => exact .nil n
  | @cons i n t q hi _ ih =>
    refine .cons (by rw [hu i List.mem_cons_self, hi]) ?_
    rw [hn i List.mem_cons_self]
    exact ih (fun j hj => hu j (List.mem_cons_of_mem i hj)) fun j hj => hn j (List.mem_cons_of_mem i hj)

theorem Line.snoc (h : Line uses node n q t) (hi : uses i = some t) :
    Line uses node n (q ++ [i]) (node i) := by
  induction h with
  | nil n => exact .cons hi (.nil _)
  | cons hj _ ih => exact .cons hj (ih hi)

theorem Line.front (h : Line uses node n (i :: q) t) : uses i = some n := by
  cases h with
  | cons hi _ => exact hi

theorem Line.behind (h : Line uses node n (i :: q) t) : Line uses node (node i) q t := by
  cases h with
  | cons _ h => exact h

/-- The node of a thread in the line is used by a later one, or is the last. -/
theorem Line.node_cases (h : Line uses node n (i :: q) t) (hj : j ∈ i :: q) :
    node j = t ∨ ∃ k ∈ q, uses k = some (node j) := by
  replace h := h.behind
  induction q generalizing i with
  | nil =>
    obtain rfl := List.mem_singleton.mp hj
    cases h
    exact .inl rfl
  | cons k q ih =>
    cases h with
    | cons hk h =>
      rcases List.mem_cons.mp hj with rfl | hj
      · exact .inr ⟨k, List.mem_cons_self, hk⟩
      · exact (ih hj h).imp_right fun ⟨l, hl, he⟩ => ⟨l, List.mem_cons_of_mem k hl, he⟩

/-- Every thread but the first uses the node of one before it. -/
theorem Line.later (h : Line uses node n (i :: q) t) (hj : j ∈ q) :
    ∃ k ∈ i :: q, uses j = some (node k) := by
  replace h := h.behind
  induction q generalizing i with
  | nil => cases hj
  | cons k q ih =>
    cases h with
    | cons hk h =>
      rcases List.mem_cons.mp hj with rfl | hj
      · exact ⟨i, List.mem_cons_self, hk⟩
      · obtain ⟨l, hl, he⟩ := ih hj h
        exact ⟨l, List.mem_cons_of_mem i hl, he⟩

end

/-- Every node has one user or is the last one in `tail`. -/
structure Nodes (s : State) : Prop where
  one : ∀ i j p, s.uses i = some p → s.uses j = some p → i = j
  notTail : ∀ i, s.uses i ≠ some s.tail
  live : ∀ p, s.heap p ≠ none ↔ p = s.tail ∨ ∃ i, s.uses i = some p

/-- The thread that holds the lock, if any, and behind it the threads that wait. -/
structure Queue (s : State) (holder : Option ThreadId) (waiting : List ThreadId) : Prop where
  line : ∃ n, Line s.uses s.myNode n (holder.toList ++ waiting) s.tail ∧ s.heap n = some 0
  nodup : (holder.toList ++ waiting).Nodup
  taken : ∀ i ∈ holder.toList ++ waiting, s.heap (s.myNode i) = some 1
  inside : ∀ i, (s.phase i).inside ↔ holder = some i
  waits : ∀ i, (s.phase i).waits ↔ i ∈ waiting
  order : s.exchanged = s.entered ++ waiting

structure Inv (s : State) : Prop extends Nodes s where
  queue : ∃ holder waiting, Queue s holder waiting
  armed : ∀ i, s.phase i = .exchange → s.heap (s.myNode i) = some 1
  counted : s.cntGlobal = BitVec.ofNat 32 s.increments
  loaded : ∀ i pred cnt, s.phase i = .storeCnt pred cnt → cnt = s.cntGlobal

/-! ### What a thread uses -/

theorem uses_of_ne (hphase : s'.phase = Function.update s.phase tid ph) (hnode : s'.myNode i = s.myNode i)
    (hi : i ≠ tid) : s'.uses i = s.uses i := by
  rw [State.uses, State.uses, hphase, Function.update_of_ne hi, hnode]

theorem uses_of_pred (h : (s.phase tid).pred = some p) : s.uses tid = some p := by
  rw [State.uses]
  cases hph : s.phase tid <;> simp_all [Phase.pred]

theorem Queue.mem (h : Queue s holder waiting) (hi : i ∈ holder.toList ++ waiting) :
    (s.phase i).inside ∨ (s.phase i).waits := by
  rcases List.mem_append.mp hi with hi | hi
  · exact .inl ((h.inside i).mpr (by simpa using hi))
  · exact .inr ((h.waits i).mpr hi)

theorem Queue.not_mem (h : Queue s holder waiting) (hi : ¬ (s.phase i).inside) (hw : ¬ (s.phase i).waits) :
    i ∉ holder.toList ++ waiting :=
  fun hm => (h.mem hm).elim hi hw

theorem uses_keep (hphase : s'.phase = Function.update s.phase tid ph)
    (h : (s.phase tid).pred = some p) (h' : ph.pred = some p) : s'.uses tid = s.uses tid := by
  rw [uses_of_pred h, uses_of_pred]
  rw [hphase, Function.update_self, h']

theorem phase_of_goto {x : Phase} (hphase : s'.phase = Function.update s.phase tid ph)
    (hi : s'.phase i = x) (hx : ph ≠ x) : i ≠ tid ∧ s.phase i = x := by
  rw [hphase] at hi
  by_cases hit : i = tid
  · rw [hit, Function.update_self] at hi
    exact absurd hi hx
  · rw [Function.update_of_ne hit] at hi
    exact ⟨hit, hi⟩

/-- The node in front of the line is not used by a thread outside of it. -/
theorem Inv.front_ne (h : Inv s) (hl : Line s.uses s.myNode n q s.tail) (hi : i ∉ q) :
    s.uses i ≠ some n := by
  intro hu
  cases hl with
  | nil => exact h.notTail i hu
  | cons hj _ =>
    rw [h.one _ _ _ hu hj] at hi
    exact hi List.mem_cons_self

/-! ### Steps -/

theorem Nodes.congr (h : Nodes s) (hu : ∀ i, s'.uses i = s.uses i) (ht : s'.tail = s.tail)
    (hheap : ∀ p, s'.heap p ≠ none ↔ s.heap p ≠ none) : Nodes s' := by
  refine ⟨fun i j p hi hj => ?_, fun i hi => ?_, fun p => ?_⟩
  · rw [hu] at hi hj
    exact h.one i j p hi hj
  · rw [hu, ht] at hi
    exact h.notTail i hi
  · rw [hheap, h.live, ht]
    simp only [hu]

/-- The line stays as it is. -/
theorem Queue.congr (h : Queue s holder waiting)
    (hu : ∀ i ∈ holder.toList ++ waiting, s'.uses i = s.uses i)
    (hn : ∀ i ∈ holder.toList ++ waiting, s'.myNode i = s.myNode i) (ht : s'.tail = s.tail)
    (hfront : ∀ n, Line s.uses s.myNode n (holder.toList ++ waiting) s.tail → s.heap n = some 0 →
      s'.heap n = some 0)
    (htaken : ∀ p, s.heap p = some 1 → s'.heap p = some 1)
    (hinside : ∀ i, (s'.phase i).inside = (s.phase i).inside)
    (hwaits : ∀ i, (s'.phase i).waits = (s.phase i).waits) (hex : s'.exchanged = s.exchanged)
    (hen : s'.entered = s.entered) : Queue s' holder waiting := by
  obtain ⟨n, hl, h₀⟩ := h.line
  refine ⟨⟨n, by rw [ht]; exact hl.congr hu hn, hfront n hl h₀⟩, h.nodup, fun i hi => ?_, fun i => ?_,
    fun i => ?_, by rw [hex, hen, h.order]⟩
  · rw [hn i hi]
    exact htaken _ (h.taken i hi)
  · rw [hinside, h.inside]
  · rw [hwaits, h.waits]

theorem flag_goto {f : Phase → Bool} (hphase : s'.phase = Function.update s.phase tid ph)
    (h : f ph = f (s.phase tid)) (i : ThreadId) : f (s'.phase i) = f (s.phase i) := by
  rw [hphase]
  by_cases hi : i = tid
  · rw [hi, Function.update_self, h]
  · rw [Function.update_of_ne hi]

theorem heap_ne_none (hl : s.heap p ≠ none) (value : Int) (x : Ptr) :
    Function.update s.heap p (some value) x ≠ none ↔ s.heap x ≠ none := by
  by_cases hx : x = p
  · rw [hx, Function.update_self]
    exact iff_of_true nofun hl
  · rw [Function.update_of_ne hx]

theorem Inv.start (h : Inv s) (unborn : s.phase tid = .unborn) (fresh : s.heap n = none) :
    Inv (((s.store n 1).setMyNode tid n).goto tid .outside) := by
  obtain ⟨holder, waiting, hq⟩ := h.queue
  have hmem : tid ∉ holder.toList ++ waiting :=
    hq.not_mem (by simp [unborn, Phase.inside]) (by simp [unborn, Phase.waits])
  have hne : ∀ {p v}, s.heap p = some v → p ≠ n := by
    rintro p v hp rfl
    rw [fresh] at hp
    cases hp
  have hself : (((s.store n 1).setMyNode tid n).goto tid .outside).uses tid = some n := by
    simp [State.uses, State.goto, State.setMyNode]
  have hold : ∀ i ≠ tid, (((s.store n 1).setMyNode tid n).goto tid .outside).uses i = s.uses i :=
    fun i hi => uses_of_ne rfl (Function.update_of_ne hi _ _) hi
  have hnew : ∀ i, s.uses i ≠ some n := by
    intro i hi
    exact (h.live n).mpr (.inr ⟨i, hi⟩) fresh
  have hheap : ∀ {p}, p ≠ n → (((s.store n 1).setMyNode tid n).goto tid .outside).heap p = s.heap p :=
    fun hp => Function.update_of_ne hp _ _
  refine ⟨⟨fun i j p hi hj => ?_, fun i hi => ?_, fun p => ?_⟩, ⟨holder, waiting, ?_⟩, fun i hi => ?_,
    h.counted, fun i pred cnt hi => ?_⟩
  · by_cases hit : i = tid <;> by_cases hjt : j = tid
    · rw [hit, hjt]
    · rw [hit, hself] at hi
      rw [hold j hjt, ← hi] at hj
      exact absurd hj (hnew j)
    · rw [hjt, hself] at hj
      rw [hold i hit, ← hj] at hi
      exact absurd hi (hnew i)
    · rw [hold i hit] at hi
      rw [hold j hjt] at hj
      exact h.one i j p hi hj
  · by_cases hit : i = tid
    · rw [hit, hself] at hi
      exact (h.live n).mpr (.inl (Option.some.inj hi)) fresh
    · rw [hold i hit] at hi
      exact h.notTail i hi
  · by_cases hp : p = n
    · subst hp
      exact iff_of_true (by simp [State.goto, State.setMyNode, State.store]) (.inr ⟨tid, hself⟩)
    · rw [hheap hp, h.live]
      refine or_congr_right ⟨?_, ?_⟩
      · rintro ⟨i, hi⟩
        have hit : i ≠ tid := by
          rintro rfl
          rw [State.uses, unborn] at hi
          cases hi
        exact ⟨i, (hold i hit).trans hi⟩
      · rintro ⟨i, hi⟩
        have hit : i ≠ tid := by
          rintro rfl
          rw [hself] at hi
          exact hp (Option.some.inj hi).symm
        exact ⟨i, (hold i hit).symm.trans hi⟩
  · refine hq.congr (fun i hi => hold i ?_) (fun i hi => Function.update_of_ne ?_ _ _) rfl
      (fun p _ hp => (hheap (hne hp)).trans hp) (fun p hp => (hheap (hne hp)).trans hp)
      (flag_goto rfl (by rw [unborn]; rfl)) (flag_goto rfl (by rw [unborn]; rfl)) rfl rfl
    · rintro rfl
      exact hmem hi
    · rintro rfl
      exact hmem hi
  · obtain ⟨hit, hi⟩ := phase_of_goto rfl hi nofun
    have h₁ := h.armed i hi
    have hnode : (((s.store n 1).setMyNode tid n).goto tid .outside).myNode i = s.myNode i :=
      Function.update_of_ne hit _ _
    rw [hnode, hheap (hne h₁), h₁]
  · exact h.loaded i pred cnt (phase_of_goto rfl hi nofun).2

/-- A step after which the thread uses the same node. -/
theorem uses_goto (hphase : s'.phase = Function.update s.phase tid ph)
    (hnode : ∀ i ≠ tid, s'.myNode i = s.myNode i) (h : s'.uses tid = s.uses tid) (i : ThreadId) :
    s'.uses i = s.uses i := by
  by_cases hi : i = tid
  · rw [hi, h]
  · exact uses_of_ne hphase (hnode i hi) hi

theorem Inv.arm (h : Inv s) (hph : s.phase tid = .outside) :
    Inv ((s.store (s.myNode tid) 1).goto tid .exchange) := by
  obtain ⟨holder, waiting, hq⟩ := h.queue
  have huse : s.uses tid = some (s.myNode tid) := by rw [State.uses, hph]
  have hself : ((s.store (s.myNode tid) 1).goto tid .exchange).uses tid = s.uses tid := by
    rw [huse]
    simp [State.uses, State.goto, State.store]
  have huses : ∀ i, ((s.store (s.myNode tid) 1).goto tid .exchange).uses i = s.uses i :=
    uses_goto rfl (fun _ _ => rfl) hself
  have hmem : tid ∉ holder.toList ++ waiting :=
    hq.not_mem (by simp [hph, Phase.inside]) (by simp [hph, Phase.waits])
  have hone : ∀ p, s.heap p = some 1 → ((s.store (s.myNode tid) 1).goto tid .exchange).heap p = some 1 := by
    intro p hp
    by_cases he : p = s.myNode tid
    · simp [State.goto, State.store, he]
    · simpa [State.goto, State.store, he] using hp
  refine ⟨h.toNodes.congr huses rfl (heap_ne_none ((h.live _).mpr (.inr ⟨tid, huse⟩)) 1),
    ⟨holder, waiting, ?_⟩, fun i hi => ?_, h.counted, fun i pred cnt hi => ?_⟩
  · refine hq.congr (fun i _ => huses i) (fun _ _ => rfl) rfl (fun n hl h₀ => ?_) hone
      (flag_goto rfl (by rw [hph]; rfl)) (flag_goto rfl (by rw [hph]; rfl)) rfl rfl
    have hne : n ≠ s.myNode tid := fun he => h.front_ne hl hmem (he ▸ huse)
    exact (Function.update_of_ne hne _ _).trans h₀
  · by_cases hit : i = tid
    · simp [hit, State.goto, State.store]
    · exact hone _ (h.armed i (by simpa [State.goto, State.store, hit] using hi))
  · exact h.loaded i pred cnt (phase_of_goto rfl hi nofun).2

/-- The thread joins the end of the line. -/
theorem Inv.exchange (h : Inv s) (hph : s.phase tid = .exchange) :
    Inv ({ s with tail := s.myNode tid, exchanged := s.exchanged ++ [tid] }.goto tid (.spin s.tail)) := by
  obtain ⟨holder, waiting, hq⟩ := h.queue
  obtain ⟨n, hl, h₀⟩ := hq.line
  have huse : s.uses tid = some (s.myNode tid) := by rw [State.uses, hph]
  have hmem : tid ∉ holder.toList ++ waiting :=
    hq.not_mem (by simp [hph, Phase.inside]) (by simp [hph, Phase.waits])
  set s' := { s with tail := s.myNode tid, exchanged := s.exchanged ++ [tid] }.goto tid (.spin s.tail)
    with hs'
  have hself : s'.uses tid = some s.tail := by simp [hs', State.uses, State.goto, Phase.pred]
  have hold : ∀ i ≠ tid, s'.uses i = s.uses i := fun i hi => uses_of_ne rfl rfl hi
  refine ⟨⟨fun i j p hi hj => ?_, fun i hi => ?_, fun p => ?_⟩, ⟨holder, waiting ++ [tid], ?_⟩,
    fun i hi => ?_, h.counted, fun i pred cnt hi => ?_⟩
  · by_cases hit : i = tid <;> by_cases hjt : j = tid
    · rw [hit, hjt]
    · rw [hit, hself] at hi
      rw [hold j hjt, ← hi] at hj
      exact absurd hj (h.notTail j)
    · rw [hjt, hself] at hj
      rw [hold i hit, ← hj] at hi
      exact absurd hi (h.notTail i)
    · rw [hold i hit] at hi
      rw [hold j hjt] at hj
      exact h.one i j p hi hj
  · by_cases hit : i = tid
    · rw [hit, hself] at hi
      exact h.notTail tid (huse.trans hi.symm)
    · rw [hold i hit] at hi
      exact hit (h.one i tid _ hi huse)
  · refine (h.live p).trans ⟨?_, ?_⟩
    · rintro (rfl | ⟨i, hi⟩)
      · exact .inr ⟨tid, hself⟩
      · by_cases hit : i = tid
        · rw [hit, huse] at hi
          exact .inl (Option.some.inj hi).symm
        · exact .inr ⟨i, (hold i hit).trans hi⟩
    · rintro (rfl | ⟨i, hi⟩)
      · exact .inr ⟨tid, huse⟩
      · by_cases hit : i = tid
        · rw [hit, hself] at hi
          exact .inl (Option.some.inj hi).symm
        · exact .inr ⟨i, (hold i hit).symm.trans hi⟩
  · have hne : ∀ i ∈ holder.toList ++ waiting, i ≠ tid := fun i hi he => hmem (he ▸ hi)
    refine ⟨⟨n, ?_, h₀⟩, ?_, fun i hi => ?_, fun i => ?_, fun i => ?_, ?_⟩
    · rw [← List.append_assoc]
      exact (hl.congr (fun i hi => hold i (hne i hi)) fun _ _ => rfl).snoc hself
    · rw [← List.append_assoc, ← List.concat_eq_append]
      exact hq.nodup.concat hmem
    · rw [← List.append_assoc] at hi
      rcases List.mem_append.mp hi with hi | hi
      · exact hq.taken i hi
      · rw [List.mem_singleton.mp hi]
        exact h.armed tid hph
    · rw [flag_goto (f := Phase.inside) rfl (by rw [hph]; rfl), hq.inside]
    · by_cases hit : i = tid
      · simp [hit, hs', State.goto, Phase.waits]
      · simp [hs', State.goto, hit, hq.waits]
    · simp [hs', State.goto, hq.order]
  · exact h.armed i (phase_of_goto rfl hi nofun).2
  · exact h.loaded i pred cnt (phase_of_goto rfl hi nofun).2

/-- Only the first of the line finds 0, and only when nobody is inside. -/
theorem Queue.first (h : Queue s holder waiting) (hph : s.phase tid = .spin p) (h₀ : s.heap p = some 0) :
    holder = none ∧ ∃ rest, waiting = tid :: rest := by
  obtain ⟨n, hl, -⟩ := h.line
  have hw : tid ∈ waiting := (h.waits tid).mp (by rw [hph]; rfl)
  have huse : s.uses tid = some p := uses_of_pred (by rw [hph]; rfl)
  have hnot : ∀ {i q}, holder.toList ++ waiting = i :: q → tid ∉ q := by
    intro i q he hm
    rw [he] at hl
    obtain ⟨k, hk, hp⟩ := hl.later hm
    have h₁ := h.taken k (he ▸ hk)
    rw [huse] at hp
    rw [← Option.some.inj hp, h₀] at h₁
    exact absurd (Option.some.inj h₁) (by decide)
  cases holder with
  | some i => exact absurd hw (hnot rfl)
  | none =>
    cases waiting with
    | nil => cases hw
    | cons i rest =>
      rcases List.mem_cons.mp hw with rfl | hm
      · exact ⟨rfl, rest, rfl⟩
      · exact absurd hm (hnot rfl)

theorem Inv.enter (h : Inv s) (hph : s.phase tid = .spin p) (h₀ : s.heap p = some 0) :
    Inv ({ s with entered := s.entered ++ [tid] }.goto tid (.loadCnt p)) := by
  obtain ⟨holder, waiting, hq⟩ := h.queue
  obtain ⟨rfl, rest, rfl⟩ := hq.first hph h₀
  obtain ⟨n, hl, hn⟩ := hq.line
  set s' := { s with entered := s.entered ++ [tid] }.goto tid (.loadCnt p) with hs'
  have huses : ∀ i, s'.uses i = s.uses i :=
    uses_goto rfl (fun _ _ => rfl) (uses_keep rfl (by rw [hph]; rfl) rfl)
  have hrest : tid ∉ rest := (List.nodup_cons.mp hq.nodup).1
  refine ⟨h.toNodes.congr huses rfl fun _ => Iff.rfl, ⟨some tid, rest, ⟨n, ?_, hn⟩, hq.nodup, hq.taken,
    fun i => ?_, fun i => ?_, ?_⟩, fun i hi => ?_, h.counted, fun i pred cnt hi => ?_⟩
  · exact hl.congr (fun i _ => huses i) fun _ _ => rfl
  · by_cases hit : i = tid
    · simp [hit, hs', State.goto, Phase.inside]
    · simpa [hs', State.goto, hit, Ne.symm hit] using hq.inside i
  · by_cases hit : i = tid
    · simp [hit, hs', State.goto, Phase.waits, hrest]
    · simpa [hs', State.goto, hit] using hq.waits i
  · simpa [hs', State.goto] using hq.order
  · exact h.armed i (phase_of_goto rfl hi nofun).2
  · exact h.loaded i pred cnt (phase_of_goto rfl hi nofun).2

/-- The last step of `unlock`: the thread takes over the node of its predecessor. -/
theorem Inv.takeOver (h : Inv s) (hph : s.phase tid = .takeOver p) :
    Inv ((s.setMyNode tid p).goto tid .outside) := by
  obtain ⟨holder, waiting, hq⟩ := h.queue
  set s' := (s.setMyNode tid p).goto tid .outside with hs'
  have hself : s'.uses tid = s.uses tid := by
    refine Eq.trans ?_ (uses_of_pred (p := p) (by rw [hph]; rfl)).symm
    simp [hs', State.uses, State.goto, State.setMyNode]
  have hnode : ∀ i ≠ tid, s'.myNode i = s.myNode i := fun i hi => Function.update_of_ne hi _ _
  have huses : ∀ i, s'.uses i = s.uses i := uses_goto rfl hnode hself
  have hmem : tid ∉ holder.toList ++ waiting :=
    hq.not_mem (by simp [hph, Phase.inside]) (by simp [hph, Phase.waits])
  refine ⟨h.toNodes.congr huses rfl fun _ => Iff.rfl, ⟨holder, waiting, ?_⟩, fun i hi => ?_, h.counted,
    fun i pred cnt hi => ?_⟩
  · exact hq.congr (fun i _ => huses i) (fun i hi => hnode i fun he => hmem (he ▸ hi)) rfl
      (fun _ _ h => h) (fun _ h => h) (flag_goto rfl (by rw [hph]; rfl)) (flag_goto rfl (by rw [hph]; rfl))
      rfl rfl
  · obtain ⟨hit, hi⟩ := phase_of_goto rfl hi nofun
    rw [hnode i hit]
    exact h.armed i hi
  · exact h.loaded i pred cnt (phase_of_goto rfl hi nofun).2

/-- The store of `unlock` lets the next thread in. -/
theorem Inv.release (h : Inv s) (hph : s.phase tid = .release p) :
    Inv ((s.store (s.myNode tid) 0).goto tid (.takeOver p)) := by
  obtain ⟨holder, waiting, hq⟩ := h.queue
  obtain rfl : holder = some tid := (hq.inside tid).mp (by rw [hph]; rfl)
  obtain ⟨n, hl, -⟩ := hq.line
  obtain ⟨htid, hnodup⟩ := List.nodup_cons.mp hq.nodup
  set s' := (s.store (s.myNode tid) 0).goto tid (.takeOver p) with hs'
  have huses : ∀ i, s'.uses i = s.uses i :=
    uses_goto rfl (fun _ _ => rfl) (uses_keep rfl (by rw [hph]; rfl) rfl)
  have htaken : s.heap (s.myNode tid) = some 1 := hq.taken tid List.mem_cons_self
  have hline := Line.behind hl
  have hheap : ∀ x, x ≠ s.myNode tid → s'.heap x = s.heap x := fun x hx => Function.update_of_ne hx _ _
  -- the nodes of the waiting threads are others: each is used further down the line
  have hother : ∀ i ∈ waiting, s.myNode i ≠ s.myNode tid := by
    intro i hi he
    cases waiting with
    | nil => cases hi
    | cons k rest =>
      have hk : s.uses k = some (s.myNode tid) := hline.front
      rcases Line.node_cases hline hi with ht | ⟨l, hm, hu⟩
      · exact h.notTail k (by rw [hk, ← he, ht])
      · rw [he] at hu
        obtain rfl := h.one l k _ hu hk
        exact (List.nodup_cons.mp hnodup).1 hm
  refine ⟨h.toNodes.congr huses rfl (heap_ne_none (by rw [htaken]; nofun) 0), ⟨none, waiting, ?_⟩,
    fun i hi => ?_, h.counted, fun i pred cnt hi => ?_⟩
  · refine ⟨⟨s.myNode tid, hline.congr (fun i _ => huses i) fun _ _ => rfl, Function.update_self _ _ _⟩,
      hnodup, fun i hi => ?_, fun i => ?_, fun i => ?_, hq.order⟩
    · exact (hheap _ (hother i hi)).trans (hq.taken i (List.mem_cons_of_mem tid hi))
    · by_cases hit : i = tid
      · simp [hit, hs', State.goto, Phase.inside]
      · simpa [hs', State.goto, State.store, hit, Ne.symm hit] using hq.inside i
    · by_cases hit : i = tid
      · simpa [hit, hs', State.goto, Phase.waits] using htid
      · simpa [hs', State.goto, State.store, hit] using hq.waits i
  · obtain ⟨-, hex⟩ : _ ∧ s.phase i = .exchange := phase_of_goto rfl hi nofun
    have huse : s.uses i = some (s.myNode i) := by rw [State.uses, hex]
    have hne : s.myNode i ≠ s.myNode tid := by
      intro he
      rw [he] at huse
      rcases Line.node_cases hl List.mem_cons_self with ht | ⟨k, hk, hu⟩
      · exact h.notTail i (by rw [huse, ht])
      · obtain rfl := h.one i k _ huse hu
        exact hq.not_mem (by simp [hex, Phase.inside]) (by simp [hex, Phase.waits])
          (List.mem_cons_of_mem tid hk)
    exact (hheap _ hne).trans (h.armed i hex)
  · exact h.loaded i pred cnt (phase_of_goto rfl hi nofun).2

theorem Inv.loadCnt (h : Inv s) (hph : s.phase tid = .loadCnt p) :
    Inv (s.goto tid (.storeCnt p s.cntGlobal)) := by
  obtain ⟨holder, waiting, hq⟩ := h.queue
  have huses : ∀ i, (s.goto tid (.storeCnt p s.cntGlobal)).uses i = s.uses i :=
    uses_goto rfl (fun _ _ => rfl) (uses_keep rfl (by rw [hph]; rfl) rfl)
  refine ⟨h.toNodes.congr huses rfl fun _ => Iff.rfl, ⟨holder, waiting, ?_⟩, fun i hi => ?_, h.counted,
    fun i pred cnt hi => ?_⟩
  · exact hq.congr (fun i _ => huses i) (fun _ _ => rfl) rfl (fun _ _ h => h) (fun _ h => h)
      (flag_goto rfl (by rw [hph]; rfl)) (flag_goto rfl (by rw [hph]; rfl)) rfl rfl
  · exact h.armed i (phase_of_goto rfl hi nofun).2
  · by_cases hit : i = tid
    · simp only [hit, State.goto, Function.update_self, Phase.storeCnt.injEq] at hi
      exact hi.2.symm
    · exact h.loaded i pred cnt (by simpa [State.goto, hit] using hi)

/-- The value that was loaded is still there, as nobody else is inside. -/
theorem Inv.storeCnt {c : BitVec 32} (h : Inv s) (hph : s.phase tid = .storeCnt p c) :
    Inv ({ s with cntGlobal := c + 1, increments := s.increments + 1 }.goto tid (.release p)) := by
  obtain ⟨holder, waiting, hq⟩ := h.queue
  obtain rfl : holder = some tid := (hq.inside tid).mp (by rw [hph]; rfl)
  set s' := { s with cntGlobal := c + 1, increments := s.increments + 1 }.goto tid (.release p) with hs'
  have huses : ∀ i, s'.uses i = s.uses i :=
    uses_goto rfl (fun _ _ => rfl) (uses_keep rfl (by rw [hph]; rfl) rfl)
  refine ⟨h.toNodes.congr huses rfl fun _ => Iff.rfl, ⟨some tid, waiting, ?_⟩, fun i hi => ?_, ?_,
    fun i pred cnt hi => ?_⟩
  · exact hq.congr (fun i _ => huses i) (fun _ _ => rfl) rfl (fun _ _ h => h) (fun _ h => h)
      (flag_goto rfl (by rw [hph]; rfl)) (flag_goto rfl (by rw [hph]; rfl)) rfl rfl
  · exact h.armed i (phase_of_goto rfl hi nofun).2
  · change c + 1 = BitVec.ofNat 32 (s.increments + 1)
    rw [h.loaded tid p c hph, h.counted, BitVec.ofNat_add]
    rfl
  · obtain ⟨hit, hi⟩ := phase_of_goto rfl hi nofun
    have hin := (hq.inside i).mp (by rw [hi]; rfl)
    exact absurd (Option.some.inj hin).symm hit

theorem Inv.act (h : Inv s) (ha : s.act tid = some s') : Inv s' := by
  cases hph : s.phase tid with
  | unborn => simp [State.act, hph] at ha
  | outside =>
    obtain rfl : _ = s' := by simpa [State.act, hph] using ha
    exact h.arm hph
  | exchange =>
    obtain rfl : _ = s' := by simpa [State.act, hph] using ha
    exact h.exchange hph
  | spin p =>
    cases hp : s.heap p with
    | none => simp [State.act, hph, hp] at ha
    | some value =>
      by_cases hv : value = 0
      · subst hv
        obtain rfl : _ = s' := by simpa [State.act, hph, hp] using ha
        exact h.enter hph hp
      · obtain rfl : s = s' := by simpa [State.act, hph, hp, hv] using ha
        exact h
  | loadCnt p =>
    obtain rfl : _ = s' := by simpa [State.act, hph] using ha
    exact h.loadCnt hph
  | storeCnt p c =>
    obtain rfl : _ = s' := by simpa [State.act, hph] using ha
    exact h.storeCnt hph
  | release p =>
    obtain rfl : _ = s' := by simpa [State.act, hph] using ha
    exact h.release hph
  | takeOver p =>
    obtain rfl : _ = s' := by simpa [State.act, hph] using ha
    exact h.takeOver hph

theorem Inv.step (h : Inv s) (hs : Step s tid s') : Inv s' := by
  cases hs with
  | start node unborn fresh => exact h.start unborn fresh
  | act ha => exact h.act ha

theorem inv_new (tail : Ptr) : Inv (.new tail) := by
  refine ⟨⟨nofun, nofun, fun p => ?_⟩, ⟨none, [], ?_⟩, nofun, rfl, nofun⟩
  · by_cases hp : p = tail
    · exact iff_of_true (by simp [hp, State.new]) (.inl hp)
    · refine iff_of_false (by simp [hp, State.new]) ?_
      rintro (he | ⟨i, hi⟩)
      · exact hp he
      · cases hi
  · exact ⟨⟨tail, .nil tail, by simp [State.new]⟩, .nil, nofun, fun i => by simp [State.new, Phase.inside],
      fun i => by simp [State.new, Phase.waits], rfl⟩

theorem reachable_inv (h : Reachable clhSystem s) : Inv s := by
  refine h.invariant ?_ fun s tid s' _ hi hs => hi.step hs
  rintro s ⟨tail, rfl⟩
  exact inv_new tail

/-- A thread owns its node up to the exchange, and the one of its predecessor from the moment
on when it has found 0 there. -/
def State.Owns (s : State) (tid : ThreadId) (p : Ptr) : Prop :=
  s.uses tid = some p ∧ ¬ (s.phase tid).waits

def State.SpinsOn (s : State) (tid : ThreadId) (p : Ptr) : Prop := s.phase tid = .spin p

theorem State.SpinsOn.uses (h : s.SpinsOn i p) : s.uses i = some p := uses_of_pred (by rw [h]; rfl)

theorem State.uses_cases (h : s.uses i = some p) : s.Owns i p ∨ s.SpinsOn i p := by
  cases hph : s.phase i with
  | spin pred =>
    rw [uses_of_pred (p := pred) (by rw [hph]; rfl)] at h
    exact .inr (hph.trans (by rw [Option.some.inj h]))
  | _ => exact .inl ⟨h, by simp [hph, Phase.waits]⟩

/-- In every reachable state: at most one thread is inside; the threads have entered in the order
of their exchanges; every node is owned by exactly one thread, or spun on by exactly one thread, or
the last one in `tail`, and only one of the three; nobody waits on a node that is about to be armed
again; no increment is lost; and where threads wait, somebody is inside or the first one can enter. -/
theorem clh_handed_over (h : Reachable clhSystem s) :
    (∀ i j, (s.phase i).inside → (s.phase j).inside → i = j) ∧
    s.entered <+: s.exchanged ∧
    (∀ p, s.heap p ≠ none →
      (s.tail ≠ p ∧ (∃! i, s.Owns i p) ∧ ∀ i, ¬ s.SpinsOn i p) ∨
      (s.tail ≠ p ∧ (∃! i, s.SpinsOn i p) ∧ ∀ i, ¬ s.Owns i p) ∨
      (s.tail = p ∧ ∀ i, ¬ s.Owns i p ∧ ¬ s.SpinsOn i p)) ∧
    (∀ i, s.phase i = .outside → ∀ j, ¬ s.SpinsOn j (s.myNode i)) ∧
    s.cntGlobal = BitVec.ofNat 32 s.increments ∧
    ((∃ i, (s.phase i).waits) → (∃ i, (s.phase i).inside) ∨
      ∃ i p, s.exchanged[s.entered.length]? = some i ∧ s.SpinsOn i p ∧ s.heap p = some 0) := by
  have hi := reachable_inv h
  obtain ⟨holder, waiting, hq⟩ := hi.queue
  refine ⟨fun i j hin hjn => ?_, ⟨waiting, hq.order.symm⟩, fun p hp => ?_, fun i hph j hj => ?_,
    hi.counted, ?_⟩
  · have hj := (hq.inside j).mp hjn
    rw [(hq.inside i).mp hin] at hj
    exact Option.some.inj hj
  · rcases (hi.live p).mp hp with rfl | ⟨i, hu⟩
    · exact .inr (.inr ⟨rfl, fun i => ⟨fun ho => hi.notTail i ho.1, fun hs => hi.notTail i hs.uses⟩⟩)
    · have hne : s.tail ≠ p := fun he => hi.notTail i (he ▸ hu)
      rcases State.uses_cases hu with ho | hs
      · refine .inl ⟨hne, ⟨i, ho, fun j hj => hi.one j i p hj.1 hu⟩, fun j hj => ?_⟩
        obtain rfl := hi.one j i p hj.uses hu
        exact ho.2 (by rw [hj]; rfl)
      · refine .inr (.inl ⟨hne, ⟨i, hs, fun j hj => hi.one j i p hj.uses hu⟩, fun j hj => ?_⟩)
        obtain rfl := hi.one j i p hj.1 hu
        exact hj.2 (by rw [hs]; rfl)
  · obtain rfl := hi.one j i _ hj.uses (by rw [State.uses, hph])
    rw [State.SpinsOn, hph] at hj
    cases hj
  · rintro ⟨i, hw⟩
    cases holder with
    | some j => exact .inl ⟨j, (hq.inside j).mpr rfl⟩
    | none =>
      obtain ⟨n, hl, h₀⟩ := hq.line
      cases waiting with
      | nil => exact absurd ((hq.waits i).mp hw) List.not_mem_nil
      | cons k rest =>
        have hspin := (hq.waits k).mpr List.mem_cons_self
        refine .inr ⟨k, n, by simp [hq.order], ?_, h₀⟩
        exact (State.uses_cases hl.front).resolve_left fun ho => ho.2 hspin

/-- Two threads: both have exchanged before the first is let in; it increments and lets in the second. -/
def twoThreads : Nat → State
  | 0 => .new 0
  | 1 => (((State.new 0).store 1 1).setMyNode 0 1).goto 0 .outside
  | 2 => (((twoThreads 1).store 2 1).setMyNode 1 2).goto 1 .outside
  | k + 1 => ((twoThreads k).act ([0, 0, 1, 1, 0, 0, 0, 0, 1].getD (k - 2) 0)).getD (.new 0)

theorem twoThreads_reachable : Reachable clhSystem (twoThreads 11) := by
  have h₀ : Reachable clhSystem (twoThreads 0) := .init ⟨0, rfl⟩
  have h₁ : Reachable clhSystem (twoThreads 1) := h₀.step 0 (.start 1 rfl rfl)
  have h₂ : Reachable clhSystem (twoThreads 2) := h₁.step 1 (.start 2 rfl rfl)
  have h₃ : Reachable clhSystem (twoThreads 3) := h₂.step 0 (.act rfl)
  have h₄ : Reachable clhSystem (twoThreads 4) := h₃.step 0 (.act rfl)
  have h₅ : Reachable clhSystem (twoThreads 5) := h₄.step 1 (.act rfl)
  have h₆ : Reachable clhSystem (twoThreads 6) := h₅.step 1 (.act rfl)
  have h₇ : Reachable clhSystem (twoThreads 7) := h₆.step 0 (.act rfl)
  have h₈ : Reachable clhSystem (twoThreads 8) := h₇.step 0 (.act rfl)
  have h₉ : Reachable clhSystem (twoThreads 9) := h₈.step 0 (.act rfl)
  have h₁₀ : Reachable clhSystem (twoThreads 10) := h₉.step 0 (.act rfl)
  exact h₁₀.step 1 (.act rfl)

theorem clh_handed_over_twoThreads :
    (twoThreads 11).entered = [0, 1] ∧ (twoThreads 11).entered <+: (twoThreads 11).exchanged ∧
    (twoThreads 11).cntGlobal = BitVec.ofNat 32 (twoThreads 11).increments := by
  have h := clh_handed_over twoThreads_reachable
  exact ⟨by decide, h.2.1, h.2.2.2.2.1⟩

end ClhLock
