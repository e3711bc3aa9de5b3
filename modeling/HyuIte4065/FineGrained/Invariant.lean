import HyuIte4065.FineGrained.Steps
import HyuIte4065.Library.SortedChain

/-!
# The invariant of the hand-over-hand locked list

A thread holds the mutex of each node that it is going to read or write, so what it has read there
stays true. A node outside the list belongs to the thread that allocated or unlinked it.
-/
namespace FineGrained

open SortedList SortedChain Transition

variable {s s' : State Phase} {t u : ThreadId} {a b : Addr} {l l' : List Addr} {ph : Phase}

/-- The node outside the list that only this thread can get at, or that it is linking. -/
def Phase.own : Phase → Option Addr
  | .lockHead job | .loadFirst job | .lockCurr job _ _ | .testKey job _ _ | .passPrev job _ _
  | .loadNext job _ | .compareKey job _ _ => job.node
  | .link _ node _ _ | .storeNext node _ _ => some node
  | .unlockPrev _ curr true _ | .unlockCurr curr true _ | .free curr => some curr
  | _ => none

/-- A node that has not been linked yet. -/
def Fresh (s : State Phase) (key : Int) (node : Addr) : Prop :=
  s.key node = key ∧ s.next node = none ∧ s.mutex node = none

def Ready (s : State Phase) (job : Job) : Prop :=
  intMin < job.key ∧ job.key < intMax ∧ ∀ node, job.node = some node → Fresh s job.key node

/-- A thread that leaves with a node has removed it. -/
def Leaving (l : List Addr) (curr : Addr) (gone res : Bool) : Prop :=
  (gone = true → res = true) ∧ (gone = false → curr ∈ l ∨ curr = tail)

def Local (s : State Phase) (l : List Addr) : Phase → Prop
  | .idle | .ret _ | .free _ => True
  | .malloc key => intMin < key ∧ key < intMax
  | .lockHead job | .loadFirst job => Ready s job
  | .lockCurr job prev curr | .testKey job prev curr => Ready s job ∧ Window s l job.key prev curr
  | .passPrev job prev curr => Ready s job ∧ Window s l job.key prev curr ∧ s.key curr < job.key
  | .loadNext job curr => Ready s job ∧ curr ∈ l ∧ s.key curr < job.key
  | .compareKey job prev curr => Ready s job ∧ Window s l job.key prev curr ∧ job.key ≤ s.key curr
  | .link key node prev curr => Fresh s key node ∧ Window s l key prev curr ∧ key < s.key curr
  | .storeNext node prev curr => prev ∈ head :: l ∧ s.next prev = some node ∧ s.next node = none ∧
      s.mutex node = none ∧ prev ≠ curr ∧ (curr ∈ l ∨ curr = tail)
  | .loadSucc key prev curr => Window s l key prev curr ∧ s.key curr = key ∧ key < intMax
  | .unlink key prev curr succ =>
    Window s l key prev curr ∧ s.key curr = key ∧ key < intMax ∧ s.next curr = succ
  | .unlockPrev prev curr gone res => prev ∈ head :: l ∧ prev ≠ curr ∧ Leaving l curr gone res
  | .unlockCurr curr gone res => Leaving l curr gone res

def Listed (l : List Addr) (a : Addr) : Prop := a = head ∨ a ∈ l ∨ a = tail

structure Inv (s : State Phase) (l : List Addr) : Prop where
  chain : Chain (Edge s) s.key tail head l
  ends : s.key head = intMin ∧ s.key tail = intMax
  allocated : ∀ a, Listed l a → s.allocated a = true
  locks : s.Locks Phase.locked
  owned : ∀ t a, (s.phase t).own = some a →
    s.allocated a = true ∧ (Listed l a → ∃ prev curr, s.phase t = .storeNext a prev curr)
  apart : ∀ t u a, (s.phase t).own = some a → (s.phase u).own = some a → t = u
  here : ∀ t, Local s l (s.phase t)

theorem Phase.Pending.eq (h : ph.Pending a b) : ∃ prev, ph = .storeNext a prev b := by
  unfold Phase.Pending at h
  split at h
  · obtain ⟨rfl, rfl⟩ := h
    exact ⟨_, rfl⟩
  · exact h.elim

theorem Phase.locked_refs (h : a ∈ ph.locked) : a = head ∨ a ∈ ph.refs := by
  cases ph <;> simp only [Phase.locked, Phase.refs, List.mem_cons, List.not_mem_nil, or_false] at h ⊢ <;> tauto

theorem Phase.touches_refs (h : a ∈ ph.touches) : a = head ∨ a ∈ ph.refs := by
  cases ph <;> simp only [Phase.touches, Phase.refs, List.mem_cons, List.not_mem_nil, or_false] at h ⊢ <;> tauto

theorem mem_listed (h : a ∈ head :: l) : Listed l a :=
  (List.mem_cons.mp h).imp id .inl

theorem Inv.edge_unique (hi : Inv s l) : Relator.RightUnique (Edge s) := by
  rintro a b c (hb | ⟨t, hb⟩) (hc | ⟨u, hc⟩)
  · exact Option.some.inj (hb.symm.trans hc)
  · obtain ⟨prev, hu⟩ := hc.eq
    have hlocal := hi.here u
    rw [hu] at hlocal
    rw [hlocal.2.2.1] at hb
    cases hb
  · obtain ⟨prev, ht⟩ := hb.eq
    have hlocal := hi.here t
    rw [ht] at hlocal
    rw [hlocal.2.2.1] at hc
    cases hc
  · obtain ⟨prev, ht⟩ := hb.eq
    obtain ⟨prev', hu⟩ := hc.eq
    obtain rfl := hi.apart t u a (by rw [ht]; rfl) (by rw [hu]; rfl)
    rw [ht] at hu
    cases hu
    rfl

section
variable {key : Int} {prev curr : Addr}

theorem edge_of_window (h : Window s l key prev curr) : Edge s prev curr := .inl h.2.1

theorem Inv.curr_listed (hi : Inv s l) (h : Window s l key prev curr) : curr ∈ l ∨ curr = tail :=
  hi.chain.next_mem hi.edge_unique h.1 (edge_of_window h)

theorem Inv.prev_ne_curr (hi : Inv s l) (h : Window s l key prev curr) : prev ≠ curr :=
  hi.chain.next_ne hi.edge_unique h.1 (edge_of_window h)

theorem Inv.curr_mem (hi : Inv s l) (h : Window s l key prev curr) (hlt : s.key curr < intMax) : curr ∈ l :=
  hi.chain.next_mem_of_lt hi.edge_unique h.1 (edge_of_window h) (hi.ends.2 ▸ hlt)

end

theorem Inv.window_listed (hi : Inv s l) {key : Int} {prev curr : Addr} (h : Window s l key prev curr)
    (ha : a = prev ∨ a = curr) : Listed l a := by
  rcases ha with rfl | rfl
  · exact mem_listed h.1
  · exact .inr (hi.curr_listed h)

/-- What a thread refers to is in the list or its own. -/
theorem Inv.refs (hi : Inv s l) (ha : a ∈ (s.phase t).refs) : Listed l a ∨ (s.phase t).own = some a := by
  have hlocal := hi.here t
  cases hph : s.phase t <;> rw [hph] at ha hlocal <;>
    simp only [Phase.refs, Phase.own, List.mem_cons, List.not_mem_nil, or_false, Option.mem_toList] at ha ⊢
  case lockHead => exact .inr ha
  case loadFirst => exact .inr ha
  case loadNext =>
    rcases ha with rfl | ha
    · exact .inl (.inr (.inl hlocal.2.1))
    · exact .inr ha
  case link =>
    rcases ha with rfl | ha
    · exact .inr rfl
    · exact .inl (hi.window_listed hlocal.2.1 ha)
  case storeNext =>
    rcases ha with rfl | rfl | rfl
    · exact .inr rfl
    · exact .inl (mem_listed hlocal.1)
    · exact .inl (.inr hlocal.2.2.2.2.2)
  case loadSucc => exact .inl (hi.window_listed hlocal.1 ha)
  case unlink =>
    obtain ⟨hwindow, hkey, hlt, hsucc⟩ := hlocal
    rcases ha with rfl | rfl | ha
    · exact .inl (hi.window_listed hwindow (.inl rfl))
    · exact .inl (hi.window_listed hwindow (.inr rfl))
    · rw [ha] at hsucc
      have hcurr := hi.curr_mem hwindow (hkey ▸ hlt)
      exact .inl (.inr (hi.chain.next_mem hi.edge_unique (List.mem_cons_of_mem _ hcurr) (.inl hsucc)))
  case unlockPrev prev curr gone res =>
    rcases ha with rfl | rfl
    · exact .inl (mem_listed hlocal.1)
    · cases gone with
      | false => exact .inl (.inr (hlocal.2.2.2 rfl))
      | true => exact .inr rfl
  case unlockCurr curr gone res =>
    subst ha
    cases gone with
    | false => exact .inl (.inr (hlocal.2 rfl))
    | true => exact .inr rfl
  case free => exact .inr (congrArg some ha.symm)
  all_goals
    rcases ha with ha | ha | ha
    · exact .inl (hi.window_listed (by first | exact hlocal.2 | exact hlocal.2.1) (.inl ha))
    · exact .inl (hi.window_listed (by first | exact hlocal.2 | exact hlocal.2.1) (.inr ha))
    · exact .inr ha

theorem Inv.refs_allocated (hi : Inv s l) (ha : a = head ∨ a ∈ (s.phase t).refs) : s.allocated a = true := by
  rcases ha with rfl | ha
  · exact hi.allocated head (.inl rfl)
  · rcases hi.refs ha with hlisted | hown
    · exact hi.allocated a hlisted
    · exact (hi.owned t a hown).1

theorem Inv.locked_allocated (hi : Inv s l) (ha : a ∈ (s.phase t).locked) : s.allocated a = true :=
  hi.refs_allocated (Phase.locked_refs ha)

theorem Inv.head_not_own (hi : Inv s l) : (s.phase u).own ≠ some head := by
  intro hown
  obtain ⟨prev, curr, hu⟩ := (hi.owned u head hown).2 (.inl rfl)
  have hlocal := hi.here u
  rw [hu] at hlocal
  rcases hi.chain.next_mem hi.edge_unique hlocal.1 (.inl hlocal.2.1) with hl | he
  · exact hi.chain.first_notMem hl
  · exact absurd he (by decide)

/-- While a thread holds the node before it, the next node belongs to no other thread. -/
theorem Inv.next_not_own (hi : Inv s l) (hprev : a ∈ head :: l) (hnext : s.next a = some b)
    (hlocked : a ∈ (s.phase t).locked) (hne : u ≠ t) : (s.phase u).own ≠ some b := by
  intro hown
  have hb : Listed l b := .inr (hi.chain.next_mem hi.edge_unique hprev (.inl hnext))
  obtain ⟨prev, curr, hu⟩ := (hi.owned u b hown).2 hb
  have hlocal := hi.here u
  rw [hu] at hlocal
  obtain rfl := hi.chain.pred_unique hi.edge_unique hprev hlocal.1 (.inl hnext) (.inl hlocal.2.1)
  have hlocked' : a ∈ (s.phase u).locked := by rw [hu]; exact List.mem_cons_self
  exact hne (hi.locks.unique hlocked' hlocked)

/-- What a thread knows depends on the nodes that it has locked and on its own node. -/
theorem Local.frame (h : Local s l ph) (hlist : ∀ a ∈ ph.locked, a ∈ l → a ∈ l')
    (hnext : ∀ a ∈ ph.locked, s'.next a = s.next a) (hkey : ∀ a ∈ ph.refs, s'.key a = s.key a)
    (hown : ∀ a, ph.own = some a → s.next a = none → s.mutex a = none → s'.next a = none ∧ s'.mutex a = none) :
    Local s' l' ph := by
  have hmem : ∀ a ∈ ph.locked, a ∈ head :: l → a ∈ head :: l' := fun a ha =>
    List.mem_cons.mpr ∘ Or.imp_right (hlist a ha) ∘ List.mem_cons.mp
  have hfresh : ∀ key node, ph.own = some node → node ∈ ph.refs → Fresh s key node → Fresh s' key node :=
    fun key node ho hr hf => ⟨(hkey node hr).trans hf.1, hown node ho hf.2.1 hf.2.2⟩
  have hready : ∀ job : Job, (∀ node, job.node = some node → ph.own = some node ∧ node ∈ ph.refs) →
      Ready s job → Ready s' job :=
    fun job hj hr => ⟨hr.1, hr.2.1, fun node hn => hfresh _ node (hj node hn).1 (hj node hn).2 (hr.2.2 node hn)⟩
  have hwindow : ∀ key prev curr, prev ∈ ph.locked → prev ∈ ph.refs → Window s l key prev curr →
      Window s' l' key prev curr :=
    fun key prev curr hl hr hw => ⟨hmem prev hl hw.1, (hnext prev hl).trans hw.2.1, by rw [hkey prev hr]; exact hw.2.2⟩
  have hcurr : ∀ a ∈ ph.locked, a ∈ l ∨ a = tail → a ∈ l' ∨ a = tail := fun a ha => Or.imp_left (hlist a ha)
  cases ph <;> simp only [Phase.locked, Phase.refs, Phase.own, List.mem_cons, List.not_mem_nil, or_false,
    Option.mem_toList, forall_eq_or_imp, forall_eq] at hlist hnext hkey hready hwindow hmem hcurr hfresh
  case idle => trivial
  case ret => trivial
  case free => trivial
  case malloc => exact h
  case lockHead job => exact hready job (fun node hn => ⟨hn, hn⟩) h
  case loadFirst job => exact hready job (fun node hn => ⟨hn, hn⟩) h
  case lockCurr job prev curr =>
    exact ⟨hready job (fun node hn => ⟨hn, .inr (.inr hn)⟩) h.1, hwindow _ prev curr rfl (.inl rfl) h.2⟩
  case testKey job prev curr =>
    exact ⟨hready job (fun node hn => ⟨hn, .inr (.inr hn)⟩) h.1, hwindow _ prev curr (.inl rfl) (.inl rfl) h.2⟩
  case passPrev job prev curr =>
    exact ⟨hready job (fun node hn => ⟨hn, .inr (.inr hn)⟩) h.1, hwindow _ prev curr (.inl rfl) (.inl rfl) h.2.1,
      by rw [hkey.2.1]; exact h.2.2⟩
  case loadNext job curr =>
    exact ⟨hready job (fun node hn => ⟨hn, .inr hn⟩) h.1, hlist h.2.1, by rw [hkey.1]; exact h.2.2⟩
  case compareKey job prev curr =>
    exact ⟨hready job (fun node hn => ⟨hn, .inr (.inr hn)⟩) h.1, hwindow _ prev curr (.inl rfl) (.inl rfl) h.2.1,
      by rw [hkey.2.1]; exact h.2.2⟩
  case link key node prev curr =>
    exact ⟨hfresh key node rfl (.inl rfl) h.1, hwindow key prev curr (.inl rfl) (.inr (.inl rfl)) h.2.1,
      by rw [hkey.2.2]; exact h.2.2⟩
  case storeNext node prev curr =>
    obtain ⟨hprev, hlinked, hnone, hfree, hne, hc⟩ := h
    obtain ⟨hnone', hfree'⟩ := hown node rfl hnone hfree
    exact ⟨List.mem_cons.mpr (hmem.1 (List.mem_cons.mp hprev)), hnext.1.trans hlinked, hnone', hfree', hne, hcurr.2 hc⟩
  case loadSucc key prev curr =>
    exact ⟨hwindow key prev curr (.inl rfl) (.inl rfl) h.1, by rw [hkey.2]; exact h.2.1, h.2.2⟩
  case unlink key prev curr succ =>
    exact ⟨hwindow key prev curr (.inl rfl) (.inl rfl) h.1, by rw [hkey.2.1]; exact h.2.1, h.2.2.1,
      hnext.2.trans h.2.2.2⟩
  case unlockPrev prev curr gone res =>
    exact ⟨List.mem_cons.mpr (hmem.1 (List.mem_cons.mp h.1)), h.2.1, h.2.2.1, fun hg => hcurr.2 (h.2.2.2 hg)⟩
  case unlockCurr curr gone res => exact ⟨h.1, fun hg => hcurr (h.2 hg)⟩

/-- A thread that is not between the two stores of a link keeps the edge. -/
theorem Edge.keep (h : Edge s a b) (hphase : s'.phase = Function.update s.phase t ph)
    (hnext : s'.next a = s.next a) (hold : ¬ (s.phase t).Pending a b) : Edge s' a b := by
  rcases h with h | ⟨u, h⟩
  · exact .inl (hnext.trans h)
  · have hu : u ≠ t := by
      rintro rfl
      exact hold h
    exact .inr ⟨u, by rwa [hphase, Function.update_of_ne hu]⟩

/-- What is left to prove of a step of one thread. -/
theorem Inv.of_move (hi : Inv s l) (hphase : s'.phase = Function.update s.phase t ph)
    (chain : Chain (Edge s') s'.key tail head l') (ends : s'.key head = intMin ∧ s'.key tail = intMax)
    (allocated : ∀ a, Listed l' a → s'.allocated a = true) (locks : s'.Locks Phase.locked)
    (mine : ∀ a, ph.own = some a → s'.allocated a = true ∧
      (Listed l' a → ∃ prev curr, ph = .storeNext a prev curr) ∧ ∀ u ≠ t, (s.phase u).own ≠ some a)
    (theirs : ∀ u ≠ t, ∀ a, (s.phase u).own = some a → s'.allocated a = true ∧ (Listed l' a → Listed l a))
    (here : Local s' l' ph) (others : ∀ u ≠ t, Local s' l' (s.phase u)) : Inv s' l' := by
  refine ⟨chain, ends, allocated, locks, fun u => ?_, own_apart hphase hi.apart fun a ha => (mine a ha).2.2,
    forall_phase hphase here others⟩
  refine forall_phase (P := fun _ ph' => ∀ a, ph'.own = some a →
    s'.allocated a = true ∧ (Listed l' a → ∃ prev curr, ph' = .storeNext a prev curr)) hphase
    (fun a ha => ⟨(mine a ha).1, (mine a ha).2.1⟩) (fun u hu a ha => ?_) u
  obtain ⟨hall, hlist⟩ := theirs u hu a ha
  exact ⟨hall, fun hl => (hi.owned u a ha).2 (hlist hl)⟩

/-- A step that changes no node but a mutex. -/
theorem Inv.quiet (hi : Inv s l) (hphase : s'.phase = Function.update s.phase t ph)
    (hnodes : s'.allocated = s.allocated ∧ s'.key = s.key ∧ s'.next = s.next) (hlocks : s'.Locks Phase.locked)
    (hold : ∀ a b, ¬ (s.phase t).Pending a b) (hown : ∀ a, ph.own = some a → (s.phase t).own = some a)
    (hmutex : ∀ u ≠ t, ∀ a, (s.phase u).own = some a → s.mutex a = none → s'.mutex a = none)
    (here : Local s' l ph) : Inv s' l := by
  obtain ⟨hallocated, hkey, hnext⟩ := hnodes
  refine hi.of_move hphase ?_ (hkey ▸ hi.ends) (hallocated ▸ hi.allocated) hlocks (fun a ha => ?_)
    (fun u _ a ha => ⟨hallocated ▸ (hi.owned u a ha).1, id⟩) here fun u hu => ?_
  · exact hi.chain.congr (fun b _ c h => h.keep hphase (congrFun hnext b) (hold b c))
      (fun b _ => congrFun hkey b) (congrFun hkey tail)
  · refine ⟨hallocated ▸ (hi.owned t a (hown a ha)).1, fun hl => ?_, fun u hu ho => ?_⟩
    · obtain ⟨prev, curr, ht⟩ := (hi.owned t a (hown a ha)).2 hl
      exact absurd ⟨rfl, rfl⟩ (ht ▸ hold a curr)
    · exact hu (hi.apart u t a ho (hown a ha))
  · exact (hi.here u).frame (fun _ _ => id) (fun b _ => congrFun hnext b) (fun b _ => congrFun hkey b)
      fun b hb hnone hfree => ⟨(congrFun hnext b).trans hnone, hmutex u hu b hb hfree⟩

end FineGrained
