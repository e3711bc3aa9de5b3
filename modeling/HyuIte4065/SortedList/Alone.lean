import HyuIte4065.SortedList.Sequential

/-!
# One thread alone with locked nodes

The calls of `fine_grained.cpp` and `optimistic.cpp` that no other thread disturbs: the mutexes are
those that the thread has locked itself.
-/
namespace SortedList

open SortedChain Total

/-- The threads of an implementation whose nodes have mutexes. -/
structure Threads (Phase : Type) where
  idle : Phase
  start : Op → Phase
  ret : Bool → Phase
  result : Phase → Option Bool
  locked : Phase → List Addr
  inner : State Phase → State Phase → Prop

namespace Threads

variable {Phase : Type} (m : Threads Phase) {n : Nodes} {l : List Addr} {ph ph' : Phase} {a : Addr}
  {P : State Phase → Prop}

def machine : Machine (State Phase) where
  init := .listInit m.idle
  nodes s := ⟨s.allocated, s.key, s.next⟩
  call op s := s.goto 0 (m.start op)
  inner := m.inner
  result s := m.result (s.phase 0)
  ret s := s.goto 0 m.idle

/-- Only the first thread is not idle. -/
def alone (n : Nodes) (ph : Phase) : State Phase where
  allocated := n.allocated
  key := n.key
  next := n.next
  mutex a := if a ∈ m.locked ph then some 0 else none
  phase := Function.update (fun _ => m.idle) 0 ph

/-- No call is under way. -/
def Rests (s : State Phase) : Prop := ∃ n : Nodes, n.Bounded ∧ s = m.alone n m.idle

/-- The call returns, and what it has done meets the condition. -/
def Returns (Q : Bool → Nodes → Prop) (s : State Phase) : Prop :=
  Ends m.inner (fun s' => ∃ res n', s' = m.alone n' (m.ret res) ∧ Nodes.Bounded n' ∧ Q res n') s

variable {m}

theorem alone_goto (same : ∀ b, b ∈ m.locked ph' ↔ b ∈ m.locked ph) : (m.alone n ph).goto 0 ph' = m.alone n ph' := by
  simp only [alone, State.goto, Function.update_idem, same]

theorem alone_lock (more : ∀ b, b ∈ m.locked ph' ↔ b = a ∨ b ∈ m.locked ph) :
    ((m.alone n ph).lock 0 a).goto 0 ph' = m.alone n ph' := by
  have hmutex : Function.update (m.alone n ph).mutex a (some 0) = (m.alone n ph').mutex := by
    funext b
    by_cases hb : b = a
    · rw [hb, Function.update_self]
      exact (if_pos ((more a).mpr (.inl rfl))).symm
    · rw [Function.update_of_ne hb]
      exact if_congr ((more b).trans (or_iff_right hb)).symm rfl rfl
  simp only [State.lock, State.goto, hmutex]
  simp only [alone, Function.update_idem]

theorem alone_unlock (less : ∀ b, b ∈ m.locked ph' ↔ b ≠ a ∧ b ∈ m.locked ph) :
    ((m.alone n ph).unlock a).goto 0 ph' = m.alone n ph' := by
  have hmutex : Function.update (m.alone n ph).mutex a none = (m.alone n ph').mutex := by
    funext b
    by_cases hb : b = a
    · rw [hb, Function.update_self]
      exact (if_neg fun hmem => ((less a).mp hmem).1 rfl).symm
    · rw [Function.update_of_ne hb]
      exact if_congr ((less b).trans (and_iff_right hb)).symm rfl rfl
  simp only [State.unlock, State.goto, hmutex]
  simp only [alone, Function.update_idem]

theorem alone_malloc {node : Addr} {key : Int} (hnot : node ∉ m.locked ph)
    (same : ∀ b, b ∈ m.locked ph' ↔ b ∈ m.locked ph) :
    ((m.alone n ph).malloc node key).goto 0 ph' = m.alone (n.malloc node key) ph' := by
  have hmutex : Function.update (m.alone n ph).mutex node none = (m.alone n ph).mutex :=
    Function.update_eq_self_iff.mpr (if_neg hnot).symm
  simp only [State.malloc, State.goto, hmutex]
  simp only [alone, Nodes.malloc, Function.update_idem, same]

theorem phase_alone : (m.alone n ph).phase 0 = ph := by
  simp only [alone, Function.update_self]

theorem mutex_alone (hnot : a ∉ m.locked ph) : (m.alone n ph).mutex a = none := if_neg hnot

theorem ends_goto (h : Only m.inner (m.alone n ph) ((m.alone n ph).goto 0 ph'))
    (same : ∀ b, b ∈ m.locked ph' ↔ b ∈ m.locked ph) (rest : Ends m.inner P (m.alone n ph')) :
    Ends m.inner P (m.alone n ph) :=
  .next h (by rwa [alone_goto same])

theorem ends_branch {c : Prop} [Decidable c] {ph₁ ph₂ : Phase}
    (h : Only m.inner (m.alone n ph) ((m.alone n ph).goto 0 (if c then ph₁ else ph₂)))
    (same₁ : ∀ b, b ∈ m.locked ph₁ ↔ b ∈ m.locked ph) (same₂ : ∀ b, b ∈ m.locked ph₂ ↔ b ∈ m.locked ph)
    (pos : c → Ends m.inner P (m.alone n ph₁)) (neg : ¬ c → Ends m.inner P (m.alone n ph₂)) :
    Ends m.inner P (m.alone n ph) := by
  by_cases hc : c
  · rw [if_pos hc] at h
    exact ends_goto h same₁ (pos hc)
  · rw [if_neg hc] at h
    exact ends_goto h same₂ (neg hc)

theorem ends_lock (h : Only m.inner (m.alone n ph) (((m.alone n ph).lock 0 a).goto 0 ph'))
    (more : ∀ b, b ∈ m.locked ph' ↔ b = a ∨ b ∈ m.locked ph) (rest : Ends m.inner P (m.alone n ph')) :
    Ends m.inner P (m.alone n ph) :=
  .next h (by rwa [alone_lock more])

theorem mem_lock {a b : Addr} (c : Addr) : c ∈ [b, a] ↔ c = a ∨ c ∈ [b] := by
  rw [List.mem_pair, List.mem_singleton, or_comm]

theorem ends_unlock (h : Only m.inner (m.alone n ph) (((m.alone n ph).unlock a).goto 0 ph'))
    (less : ∀ b, b ∈ m.locked ph' ↔ b ≠ a ∧ b ∈ m.locked ph) (rest : Ends m.inner P (m.alone n ph')) :
    Ends m.inner P (m.alone n ph) :=
  .next h (by rwa [alone_unlock less])

theorem ends_store {b : Option Addr} (h : Only m.inner (m.alone n ph) (((m.alone n ph).storeLink a b).goto 0 ph'))
    (same : ∀ b, b ∈ m.locked ph' ↔ b ∈ m.locked ph) (rest : Ends m.inner P (m.alone (n.store a b) ph')) :
    Ends m.inner P (m.alone n ph) := by
  have he : ((m.alone n ph).storeLink a b).goto 0 ph' = m.alone (n.store a b) ph' := by
    simp only [alone, State.storeLink, State.goto, Nodes.store, Function.update_idem, same]
  exact .next h (by rwa [he])

theorem ends_free (h : Only m.inner (m.alone n ph) (((m.alone n ph).free a).goto 0 ph'))
    (same : ∀ b, b ∈ m.locked ph' ↔ b ∈ m.locked ph) (rest : Ends m.inner P (m.alone (n.free a) ph')) :
    Ends m.inner P (m.alone n ph) := by
  have he : ((m.alone n ph).free a).goto 0 ph' = m.alone (n.free a) ph' := by
    simp only [alone, State.free, State.goto, Nodes.free, Function.update_idem, same]
  exact .next h (by rwa [he])

/-- `list_add` starts with a node at any address that is not in use. -/
theorem returns_malloc {key : Int} {f : Addr → Phase} (hlocked : m.locked ph = [])
    (hnext : ∀ node, m.locked (f node) = [])
    (hstep : ∀ s', m.inner (m.alone n ph) s' ↔
      ∃ node, n.allocated node = false ∧ s' = ((m.alone n ph).malloc node key).goto 0 (f node))
    (h : Holds n l) (hb : n.Bounded) (rest : ∀ node, n.allocated node = false →
      m.Returns (Outcome (n.malloc node key) l (.add key)) (m.alone (n.malloc node key) (f node))) :
    m.Returns (Outcome n l (.add key)) (m.alone n ph) := by
  refine .step ?_ fun s' hs => ?_
  · obtain ⟨node, hfresh⟩ := hb.exists_fresh
    exact ⟨_, (hstep _).mpr ⟨node, hfresh, rfl⟩⟩
  · obtain ⟨node, hfresh, rfl⟩ := (hstep s').mp hs
    rw [alone_malloc (by rw [hlocked]; exact List.not_mem_nil) fun b => by rw [hnext, hlocked]]
    refine (rest node hfresh).mono ?_
    rintro _ ⟨res, n', rfl, hb', hout⟩
    exact ⟨res, n', rfl, hb', hout.of_keys (h.keys_malloc hfresh)⟩

/-- What is left to prove of an implementation. -/
theorem correct (hstart : ∀ op, m.locked (m.start op) = []) (hidle : m.locked m.idle = [])
    (hret : ∀ res, m.locked (m.ret res) = []) (hresult : ∀ res, m.result (m.ret res) = some res)
    (hfinal : ∀ (s : State Phase) res, m.result (s.phase 0) = some res → ∀ s', ¬ m.inner s s')
    (serve : ∀ (n : Nodes) l (op : Op), Holds n l → n.Bounded → intMin ≤ op.key → op.key ≤ intMax →
      m.Returns (Outcome n l op) (m.alone n (m.start op))) : m.machine.Correct m.Rests where
  start := by
    refine ⟨⟨.listInit, bounded_listInit, ?_⟩, holds_listInit⟩
    simp only [machine, alone, State.listInit, Nodes.listInit, hidle, List.not_mem_nil, if_false,
      Function.update_eq_self]
  serve := by
    rintro _ l op ⟨n, hb, rfl⟩ h lower upper
    have hcall : m.machine.call op (m.alone n m.idle) = m.alone n (m.start op) :=
      alone_goto fun b => by rw [hstart, hidle]
    rw [hcall]
    refine (serve n l op h hb lower upper).mono ?_
    rintro _ ⟨res, n', rfl, hb', hout⟩
    have hre : m.machine.ret (m.alone n' (m.ret res)) = m.alone n' m.idle :=
      alone_goto fun b => by rw [hret, hidle]
    refine ⟨res, ?_, ⟨n', hb', hre⟩, hre ▸ hout⟩
    exact (congrArg m.result phase_alone).trans (hresult res)
  final := hfinal

end Threads

end SortedList
