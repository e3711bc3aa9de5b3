import HyuIte4065.Optimistic.Steps
import HyuIte4065.Library.SortedChain
import HyuIte4065.Library.Graph

/-!
# The invariant of the optimistic list

A node that is locked stays in the list. While a thread validates, the node `prev` is in the list
or cannot be reached from `it`, however the list changes meanwhile; so a walk that meets `prev` has
found it in the list.
-/
namespace Optimistic

open SortedList SortedChain Transition

open Relation (ReflTransGen)

variable {s s' : State Phase} {t u : ThreadId} {a b prev curr : Addr} {l l' : List Addr} {ph : Phase} {job : Job}
  {key : Int}

def Edge (s : State Phase) (a b : Addr) : Prop := s.next a = some b

/-- There is a pointer to the node. -/
def Known (s : State Phase) (a : Addr) : Prop :=
  a = head ∨ a = tail ∨ (∃ b, s.next b = some a) ∨ ∃ u, a ∈ (s.phase u).refs

/-- The node can be read, and left again. -/
def Live (s : State Phase) (a : Addr) : Prop := s.allocated a = true ∧ (a = tail ∨ ∃ b, s.next a = some b)

def Ready (s : State Phase) (job : Job) : Prop :=
  intMin < job.key ∧ job.key < intMax ∧ ∀ node, job.node = some node → s.key node = job.key

/-- Where a search ends. -/
def Gap (s : State Phase) (key : Int) (prev curr : Addr) : Prop := s.key prev < key ∧ key ≤ s.key curr

def Found (s : State Phase) (l : List Addr) (prev it : Addr) : Prop :=
  prev ∈ head :: l ∨ ¬ ReflTransGen (Edge s) it prev

def Local (s : State Phase) (l : List Addr) : Phase → Prop
  | .idle | .ret _ | .unlockCurr _ _ => True
  | .malloc key => intMin < key ∧ key < intMax
  | .loadFirst job | .failCurr job _ => Ready s job
  | .testKey job prev _ => Ready s job ∧ s.key prev < job.key
  | .loadNext job curr => Ready s job ∧ s.key curr < job.key
  | .lockPrev job prev curr | .lockCurr job prev curr => Ready s job ∧ Gap s job.key prev curr
  | .testIt job prev curr it => Ready s job ∧ Gap s job.key prev curr ∧ Found s l prev it
  | .loadIt job prev curr it =>
    Ready s job ∧ Gap s job.key prev curr ∧ Found s l prev it ∧ it ≠ prev ∧ s.key it ≤ s.key prev
  | .checkNext job prev curr => Ready s job ∧ Gap s job.key prev curr ∧ prev ∈ head :: l
  | .failPrev job prev curr => Ready s job ∧ prev ≠ curr
  | .compareKey job prev curr => Ready s job ∧ Window s l job.key prev curr ∧ job.key ≤ s.key curr
  | .storeNext key node prev curr => s.key node = key ∧ Window s l key prev curr ∧ key < s.key curr
  | .link key node prev curr =>
    s.key node = key ∧ Window s l key prev curr ∧ key < s.key curr ∧ s.next node = some curr
  | .loadSucc key prev curr => Window s l key prev curr ∧ s.key curr = key ∧ key < intMax
  | .unlink key prev curr succ =>
    Window s l key prev curr ∧ s.key curr = key ∧ key < intMax ∧ s.next curr = succ
  | .unlockPrev prev curr _ => prev ≠ curr

structure Inv (s : State Phase) (l : List Addr) : Prop where
  chain : Chain (Edge s) s.key tail head l
  ends : s.key head = intMin ∧ s.key tail = intMax
  last : s.next tail = none
  live : ∀ a, Known s a → Live s a
  hidden : ∀ t a, (s.phase t).own = some a → s.allocated a = true ∧ ¬ Known s a
  apart : ∀ t u a, (s.phase t).own = some a → (s.phase u).own = some a → t = u
  locks : s.Locks Phase.locked
  here : ∀ t, Local s l (s.phase t)

theorem edge_unique (s : State Phase) : Relator.RightUnique (Edge s) := fun _ _ _ hb hc =>
  Option.some.inj (hb.symm.trans hc)

theorem Phase.locked_refs (h : a ∈ ph.locked) : a ∈ ph.refs := by
  cases ph <;> simp only [Phase.locked, Phase.refs, List.mem_cons, List.not_mem_nil, or_false] at h ⊢ <;> tauto

theorem known_ref (h : a ∈ (s.phase t).refs) : Known s a := .inr (.inr (.inr ⟨t, h⟩))

theorem known_next (h : s.next b = some a) : Known s a := .inr (.inr (.inl ⟨b, h⟩))

theorem Inv.known (hi : Inv s l) (h : a ∈ head :: l) : Known s a := by
  rcases List.mem_cons.mp h with rfl | h
  · exact .inl rfl
  · obtain ⟨b, hb⟩ := hi.chain.exists_prev h
    exact known_next hb

/-- What a thread knows depends on the nodes that it has locked and on its own node, and on
what can be reached from where it walks. -/
theorem Local.frame (h : Local s l ph) (hlist : ∀ a ∈ ph.locked, a ∈ l → a ∈ l')
    (hnext : ∀ a, a ∈ ph.locked ∨ ph.own = some a → s'.next a = s.next a)
    (hkey : ∀ a, a ∈ ph.refs ∨ ph.own = some a → s'.key a = s.key a)
    (hreach : ∀ a ∈ ph.refs, ∀ b ∈ ph.refs, ReflTransGen (Edge s') a b → ReflTransGen (Edge s) a b) :
    Local s' l' ph := by
  have hmem : ∀ a ∈ ph.locked, a ∈ head :: l → a ∈ head :: l' := fun a ha =>
    List.mem_cons.mpr ∘ Or.imp_right (hlist a ha) ∘ List.mem_cons.mp
  have hready : ∀ job : Job, ph.own = job.node → Ready s job → Ready s' job :=
    fun job hj hr => ⟨hr.1, hr.2.1, fun node hn => (hkey node (.inr (hj.trans hn))).trans (hr.2.2 node hn)⟩
  have hgap : ∀ key prev curr, prev ∈ ph.refs → curr ∈ ph.refs → Gap s key prev curr → Gap s' key prev curr :=
    fun key prev curr hp hc hg => by rwa [Gap, hkey prev (.inl hp), hkey curr (.inl hc)]
  have hwindow : ∀ key prev curr, prev ∈ ph.locked → Window s l key prev curr → Window s' l' key prev curr :=
    fun key prev curr hl hw => ⟨hmem prev hl hw.1, (hnext prev (.inl hl)).trans hw.2.1,
      by rw [hkey prev (.inl (Phase.locked_refs hl))]; exact hw.2.2⟩
  have hfound : ∀ prev it, prev ∈ ph.locked → it ∈ ph.refs → Found s l prev it → Found s' l' prev it :=
    fun prev it hp hit hf => hf.imp (hmem prev hp) fun hnot hr =>
      hnot (hreach it hit prev (Phase.locked_refs hp) hr)
  have hcurr : ∀ curr, curr ∈ ph.refs → s'.key curr = s.key curr := fun curr hc => hkey curr (.inl hc)
  cases ph <;> simp only [Phase.locked, Phase.refs, List.mem_cons, List.not_mem_nil, or_false, forall_eq_or_imp,
    forall_eq] at hready hgap hwindow hfound hcurr hmem
  case idle => trivial
  case ret => trivial
  case unlockCurr => trivial
  case malloc => exact h
  case loadFirst job => exact hready job rfl h
  case failCurr job curr => exact hready job rfl h
  case testKey job prev curr => exact ⟨hready job rfl h.1, by rw [hcurr.1]; exact h.2⟩
  case loadNext job curr => exact ⟨hready job rfl h.1, by rw [hcurr]; exact h.2⟩
  case lockPrev job prev curr => exact ⟨hready job rfl h.1, hgap _ prev curr (.inl rfl) (.inr rfl) h.2⟩
  case lockCurr job prev curr => exact ⟨hready job rfl h.1, hgap _ prev curr (.inl rfl) (.inr rfl) h.2⟩
  case testIt job prev curr it =>
    exact ⟨hready job rfl h.1, hgap _ prev curr (.inl rfl) (.inr (.inl rfl)) h.2.1,
      hfound prev it (.inl rfl) (.inr (.inr rfl)) h.2.2⟩
  case loadIt job prev curr it =>
    obtain ⟨hr, hg, hf, hne, hle⟩ := h
    exact ⟨hready job rfl hr, hgap _ prev curr (.inl rfl) (.inr (.inl rfl)) hg,
      hfound prev it (.inl rfl) (.inr (.inr rfl)) hf, hne, by rw [hcurr.1, hcurr.2.2]; exact hle⟩
  case checkNext job prev curr =>
    exact ⟨hready job rfl h.1, hgap _ prev curr (.inl rfl) (.inr rfl) h.2.1,
      List.mem_cons.mpr (hmem.1 (List.mem_cons.mp h.2.2))⟩
  case failPrev job prev curr => exact ⟨hready job rfl h.1, h.2⟩
  case compareKey job prev curr =>
    exact ⟨hready job rfl h.1, hwindow _ prev curr (.inl rfl) h.2.1, by rw [hcurr.2]; exact h.2.2⟩
  case storeNext key node prev curr =>
    exact ⟨(hkey node (.inr rfl)).trans h.1, hwindow key prev curr (.inl rfl) h.2.1, by rw [hcurr.2]; exact h.2.2⟩
  case link key node prev curr =>
    exact ⟨(hkey node (.inr rfl)).trans h.1, hwindow key prev curr (.inl rfl) h.2.1, by rw [hcurr.2]; exact h.2.2.1,
      (hnext node (.inr rfl)).trans h.2.2.2⟩
  case loadSucc key prev curr =>
    exact ⟨hwindow key prev curr (.inl rfl) h.1, by rw [hcurr.2]; exact h.2.1, h.2.2⟩
  case unlink key prev curr succ =>
    exact ⟨hwindow key prev curr (.inl rfl) h.1, by rw [hcurr.2.1]; exact h.2.1, h.2.2.1,
      (hnext curr (.inl (List.mem_cons_of_mem _ List.mem_cons_self))).trans h.2.2.2⟩
  case unlockPrev prev curr res => exact h

/-- What is left to prove of a step of one thread. -/
theorem Inv.of_move (hi : Inv s l) (hphase : s'.phase = Function.update s.phase t ph)
    (chain : Chain (Edge s') s'.key tail head l') (ends : s'.key head = intMin ∧ s'.key tail = intMax)
    (last : s'.next tail = none) (live : ∀ a, Known s' a → Live s' a)
    (mine : ∀ a, ph.own = some a → s'.allocated a = true ∧ ¬ Known s' a ∧ ∀ u ≠ t, (s.phase u).own ≠ some a)
    (theirs : ∀ u ≠ t, ∀ a, (s.phase u).own = some a → s'.allocated a = true ∧ ¬ Known s' a)
    (locks : s'.Locks Phase.locked) (here : Local s' l' ph) (others : ∀ u ≠ t, Local s' l' (s.phase u)) :
    Inv s' l' := by
  refine ⟨chain, ends, last, live, fun u => ?_, own_apart hphase hi.apart fun a ha => (mine a ha).2.2, locks,
    forall_phase hphase here others⟩
  exact forall_phase (P := fun _ ph' => ∀ a, ph'.own = some a → s'.allocated a = true ∧ ¬ Known s' a) hphase
    (fun a ha => ⟨(mine a ha).1, (mine a ha).2.1⟩) theirs u

/-- A step that stores nothing makes no new node known. -/
theorem known_of_phase (hphase : s'.phase = Function.update s.phase t ph) (hnext : s'.next = s.next)
    (hrefs : ∀ a ∈ ph.refs, Known s a) (h : Known s' a) : Known s a := by
  rcases h with h | h | ⟨b, h⟩ | ⟨u, h⟩
  · exact .inl h
  · exact .inr (.inl h)
  · exact known_next (hnext ▸ h)
  · by_cases hu : u = t
    · rw [hu, hphase, Function.update_self] at h
      exact hrefs a h
    · rw [hphase, Function.update_of_ne hu] at h
      exact known_ref h

/-- A step that changes no node but a mutex. -/
theorem Inv.quiet (hi : Inv s l) (hphase : s'.phase = Function.update s.phase t ph)
    (hnodes : s'.allocated = s.allocated ∧ s'.key = s.key ∧ s'.next = s.next) (hlocks : s'.Locks Phase.locked)
    (hown : ∀ a, ph.own = some a → (s.phase t).own = some a) (hrefs : ∀ a ∈ ph.refs, Known s a)
    (here : Local s' l ph) : Inv s' l := by
  obtain ⟨hallocated, hkey, hnext⟩ := hnodes
  have hedge : Edge s' = Edge s := by
    funext a b
    rw [Edge, Edge, hnext]
  have hknown : ∀ a, Known s' a → Known s a := fun a => known_of_phase hphase hnext hrefs
  refine hi.of_move hphase (by rw [hedge, hkey]; exact hi.chain) (hkey ▸ hi.ends) (hnext ▸ hi.last) (fun a ha => ?_)
    (fun a ha => ?_) (fun u _ a ha => ?_) hlocks here fun u _ => ?_
  · rw [Live, hallocated, hnext]
    exact hi.live a (hknown a ha)
  · obtain ⟨hall, hnot⟩ := hi.hidden t a (hown a ha)
    exact ⟨hallocated ▸ hall, fun hk => hnot (hknown a hk), fun u hu ho => hu (hi.apart u t a ho (hown a ha))⟩
  · obtain ⟨hall, hnot⟩ := hi.hidden u a ha
    exact ⟨hallocated ▸ hall, fun hk => hnot (hknown a hk)⟩
  · exact (hi.here u).frame (fun _ _ => id) (fun a _ => congrFun hnext a) (fun a _ => congrFun hkey a)
      fun a _ b _ => by rw [hedge]; exact id

end Optimistic
