import HyuIte4065.CoarseGrained.Steps
import HyuIte4065.Library.LinkedList

/-!
# Freed nodes of the list under one mutex

The nodes that `next` leads to from the head are allocated, and a thread that has the mutex refers
to these and to its own node only. A thread that has read its way to a node in `list_contains` and
has released the mutex may see this node freed before it compares the key.
-/
namespace CoarseGrained

open SortedList Transition LinkedList

/-- The addresses in the local variables that are still used. -/
def Phase.refs : Phase → List Addr
  | .idle | .malloc _ | .unlock _ | .ret _ => []
  | .lock job | .loadFirst job => job.node.toList
  | .testKey job prev curr => prev :: curr :: job.node.toList
  | .loadNext job curr => curr :: job.node.toList
  | .compareAdd _ node prev curr | .link _ node prev curr => [node, prev, curr]
  | .storeNext node curr => [node, curr]
  | .compareRemove _ prev curr | .loadSucc _ prev curr => [prev, curr]
  | .unlink _ prev curr succ => prev :: curr :: succ.toList
  | .unlockRemoved curr | .unlockContains _ curr | .free curr | .compareContains _ curr => [curr]

def Phase.holds : Phase → Bool
  | .idle | .malloc _ | .lock _ | .free _ | .compareContains _ _ | .ret _ => false
  | _ => true

/-- The node outside the list that only this thread can get at. -/
def Phase.own : Phase → Option Addr
  | .lock job | .loadFirst job | .testKey job _ _ | .loadNext job _ => job.node
  | .compareAdd _ node _ _ | .link _ node _ _ => some node
  | .unlockRemoved curr | .free curr => some curr
  | _ => none

/-- Each `next`, or what it is going to be for a node that is being linked. -/
def State.links (s : State) : Addr → Option Addr :=
  match s.mutex with
  | none => s.next
  | some t =>
    match s.phase t with
    | .storeNext node curr => Function.update s.next node (some curr)
    | _ => s.next

def Local (s : State) (l : List Addr) : Phase → Prop
  | .testKey _ prev curr | .compareAdd _ _ prev curr | .link _ _ prev curr | .compareRemove _ prev curr
  | .loadSucc _ prev curr => prev ∈ l ∧ s.next prev = some curr
  | .unlink _ prev curr succ => prev ∈ l ∧ s.next prev = some curr ∧ curr ∈ l ∧ s.next curr = succ
  | .loadNext _ curr | .unlockContains _ curr => curr ∈ l
  | .storeNext node curr => node ∈ l ∧ curr ∈ l
  | .compareContains _ curr => s.allocated curr = true
  | _ => True

structure Inv (s : State) (l : List Addr) : Prop where
  walk : Walk s.links (some head) l
  nodup : l.Nodup
  allocated : ∀ a ∈ l, s.allocated a = true
  holder : ∀ t, s.mutex = some t ↔ (s.phase t).holds = true
  owned : ∀ t a, (s.phase t).own = some a → s.allocated a = true ∧ a ∉ l
  apart : ∀ t u a, (s.phase t).own = some a → (s.phase u).own = some a → t = u
  here : ∀ t, Local s l (s.phase t)

/-- A node is freed only when no call of `list_contains` is still going to read its key. -/
def FreesUnread (s : State) : Atomic.Event ThreadId Op Bool → Prop
  | .inner t => ∀ curr, s.phase t = .free curr → ∀ u key, s.phase u ≠ .compareContains key curr
  | _ => True

variable {s s' : State} {t u : ThreadId} {a b prev curr node : Addr} {l l' : List Addr} {ph ph₀ : Phase} {key : Int}
  {ev : Atomic.Event ThreadId Op Bool}

theorem touches_refs (h : a ∈ ph.touches) : a = head ∨ a ∈ ph.refs := by
  cases ph <;> simp only [Phase.touches, Phase.refs, List.mem_cons, List.not_mem_nil, or_false] at h ⊢ <;> tauto

theorem links_eq (h : ∀ t, s.mutex = some t → ∀ node curr, s.phase t ≠ .storeNext node curr) : s.links = s.next := by
  unfold State.links
  split
  · rfl
  · rename_i t ht
    split
    · rename_i hph
      exact absurd hph (h t ht _ _)
    · rfl

theorem links_pending (hmutex : s.mutex = some t) (hph : s.phase t = .storeNext node curr) :
    s.links = Function.update s.next node (some curr) := by
  simp only [State.links, hmutex, hph]

theorem Inv.holder_eq (hi : Inv s l) (ht : (s.phase t).holds = true) (hu : (s.phase u).holds = true) : u = t :=
  Option.some.inj (((hi.holder u).mpr hu).symm.trans ((hi.holder t).mpr ht))

/-- A thread that has the mutex and is not between the two stores sees the list. -/
theorem Inv.links_of_holds (hi : Inv s l) (ht : (s.phase t).holds = true)
    (hph : ∀ node curr, s.phase t ≠ .storeNext node curr) : s.links = s.next := by
  refine links_eq fun u hu => ?_
  rw [hi.holder_eq ht ((hi.holder u).mp hu)]
  exact hph

theorem Inv.next_mem (hi : Inv s l) (ht : (s.phase t).holds = true)
    (hph : ∀ node curr, s.phase t ≠ .storeNext node curr)
    (ha : a ∈ l) (hab : s.next a = some b) : b ∈ l :=
  hi.walk.next_mem ha ((congrFun (hi.links_of_holds ht hph) a).trans hab)

/-- What a thread refers to is in the list, its own, or the node whose key `list_contains` compares. -/
theorem Inv.refs (hi : Inv s l) (ha : a ∈ (s.phase t).refs) :
    a ∈ l ∨ (s.phase t).own = some a ∨ ∃ key, s.phase t = .compareContains key a := by
  have hlocal := hi.here t
  have hnext : (s.phase t).holds = true → (∀ node curr, s.phase t ≠ .storeNext node curr) →
      ∀ b c, b ∈ l → s.next b = some c → c ∈ l := fun hholds hold b c => hi.next_mem hholds hold
  cases hph : s.phase t <;> rw [hph] at ha hlocal hnext <;>
    simp only [Phase.refs, Phase.own, List.mem_cons, List.not_mem_nil, or_false, Option.mem_toList] at ha ⊢
  case lock => exact .inr (.inl ha)
  case loadFirst => exact .inr (.inl ha)
  case testKey job prev curr =>
    rcases ha with rfl | rfl | ha
    · exact .inl hlocal.1
    · exact .inl (hnext rfl nofun _ _ hlocal.1 hlocal.2)
    · exact .inr (.inl ha)
  case loadNext job curr =>
    rcases ha with rfl | ha
    · exact .inl hlocal
    · exact .inr (.inl ha)
  case storeNext =>
    rcases ha with rfl | rfl
    · exact .inl hlocal.1
    · exact .inl hlocal.2
  case unlink =>
    rcases ha with rfl | rfl | ha
    · exact .inl hlocal.1
    · exact .inl hlocal.2.2.1
    · exact .inl (hnext rfl nofun _ _ hlocal.2.2.1 (hlocal.2.2.2.trans ha))
  case unlockContains => exact .inl (ha ▸ hlocal)
  case unlockRemoved => exact .inr (.inl (congrArg some ha.symm))
  case free => exact .inr (.inl (congrArg some ha.symm))
  case compareContains key curr => exact .inr (.inr ⟨key, by rw [ha]⟩)
  case compareRemove | loadSucc =>
    rcases ha with rfl | rfl
    · exact .inl hlocal.1
    · exact .inl (hnext rfl nofun _ _ hlocal.1 hlocal.2)
  case compareAdd | link =>
    rcases ha with rfl | rfl | rfl
    · exact .inr (.inl rfl)
    · exact .inl hlocal.1
    · exact .inl (hnext rfl nofun _ _ hlocal.1 hlocal.2)

theorem Inv.refs_allocated (hi : Inv s l) (ha : a ∈ (s.phase t).refs) : s.allocated a = true := by
  rcases hi.refs ha with hl | hown | ⟨key, hph⟩
  · exact hi.allocated a hl
  · exact (hi.owned t a hown).1
  · have hlocal := hi.here t
    rwa [hph] at hlocal

theorem Inv.head_mem (hi : Inv s l) : head ∈ l := by
  obtain ⟨l, rfl⟩ := List.head?_eq_some_iff.mp hi.walk.start_eq.symm
  exact List.mem_cons_self

/-- What is left to prove of a step of one thread. -/
theorem Inv.of_move (hi : Inv s l) (hphase : s'.phase = Function.update s.phase t ph)
    (walk : Walk s'.links (some head) l')
    (nodup : l'.Nodup) (allocated : ∀ a ∈ l', s'.allocated a = true)
    (holder : ∀ u, s'.mutex = some u ↔ (s'.phase u).holds = true)
    (mine : ∀ a, ph.own = some a → s'.allocated a = true ∧ a ∉ l' ∧ ∀ u ≠ t, (s.phase u).own ≠ some a)
    (theirs : ∀ u ≠ t, ∀ a, (s.phase u).own = some a → s'.allocated a = true ∧ a ∉ l')
    (here : Local s' l' ph) (others : ∀ u ≠ t, Local s' l' (s.phase u)) : Inv s' l' := by
  have hself : s'.phase t = ph := by rw [hphase, Function.update_self]
  have hother : ∀ u ≠ t, s'.phase u = s.phase u := fun u hu => by rw [hphase, Function.update_of_ne hu]
  refine ⟨walk, nodup, allocated, holder, fun u a ha => ?_, fun u v a hu hv => ?_, fun u => ?_⟩
  · by_cases hu : u = t
    · rw [hu, hself] at ha
      exact ⟨(mine a ha).1, (mine a ha).2.1⟩
    · rw [hother u hu] at ha
      exact theirs u hu a ha
  · by_cases hut : u = t
    · by_cases hvt : v = t
      · rw [hut, hvt]
      · rw [hut, hself] at hu
        rw [hother v hvt] at hv
        exact absurd hv ((mine a hu).2.2 v hvt)
    · rw [hother u hut] at hu
      by_cases hvt : v = t
      · rw [hvt, hself] at hv
        exact absurd hu ((mine a hv).2.2 u hut)
      · rw [hother v hvt] at hv
        exact hi.apart u v a hu hv
  · by_cases hu : u = t
    · rw [hu, hself]
      exact here
    · rw [hother u hu]
      exact others u hu

/-- Who has the mutex after a step that neither locks nor unlocks it. -/
theorem Inv.holder_same (hi : Inv s l) (hphase : s'.phase = Function.update s.phase t ph) (hmutex : s'.mutex = s.mutex)
    (hholds : ph.holds = (s.phase t).holds) (u : ThreadId) : s'.mutex = some u ↔ (s'.phase u).holds = true := by
  rw [hmutex, hphase]
  by_cases hu : u = t
  · rw [hu, Function.update_self, hholds]
    exact hi.holder t
  · rw [Function.update_of_ne hu]
    exact hi.holder u

/-- The threads that do not have the mutex know of no edges. -/
theorem Local.of_outside (h : Local s l ph) (hholds : ph.holds = false)
    (halloc : ∀ key curr, ph = .compareContains key curr → s.allocated curr = true → s'.allocated curr = true) :
    Local s' l' ph := by
  cases ph with
  | compareContains key curr => exact halloc key curr rfl h
  | _ => trivial

theorem Local.frame (h : Local s l ph) (hnext : ∀ a ∈ l, s'.next a = s.next a)
    (halloc : ∀ a, s.allocated a = true → s'.allocated a = true) : Local s' l ph := by
  cases ph with
  | testKey | compareAdd | link | compareRemove | loadSucc => exact ⟨h.1, (hnext _ h.1).trans h.2⟩
  | unlink => exact ⟨h.1, (hnext _ h.1).trans h.2.1, h.2.2.1, (hnext _ h.2.2.1).trans h.2.2.2⟩
  | compareContains => exact halloc _ h
  | loadNext | unlockContains | storeNext => exact h
  | _ => trivial

theorem links_same (hphase : s'.phase = Function.update s.phase t ph) (hmutex : s'.mutex = s.mutex)
    (hnext : s'.next a = s.next a) (hold : ∀ node curr, s.phase t ≠ .storeNext node curr)
    (hnew : ∀ node curr, ph ≠ .storeNext node curr) : s'.links a = s.links a := by
  cases howner : s.mutex with
  | none =>
    rw [links_eq (s := s) (by rw [howner]; nofun), links_eq (s := s') (by rw [hmutex, howner]; nofun)]
    exact hnext
  | some u =>
    by_cases hu : u = t
    · rw [links_eq (s := s), links_eq (s := s')]
      · exact hnext
      · intro v hv
        rw [hmutex, howner] at hv
        obtain rfl : u = v := Option.some.inj hv
        rw [hphase, hu, Function.update_self]
        exact hnew
      · intro v hv
        rw [howner] at hv
        obtain rfl : u = v := Option.some.inj hv
        exact hu ▸ hold
    · simp only [State.links, hmutex, howner, hphase, Function.update_of_ne hu]
      cases s.phase u with
      | storeNext node curr => simp only [Function.update_apply, hnext]
      | _ => exact hnext

theorem Inv.here_at (hi : Inv s l) (hph : s.phase t = ph) : Local s l ph := hph ▸ hi.here t

theorem Inv.own_apart (hi : Inv s l) (hown : (s.phase t).own = some a) (hu : u ≠ t) : (s.phase u).own ≠ some a :=
  fun h => hu (hi.apart u t a h hown)

theorem Inv.goto (hi : Inv s l) (hph : s.phase t = ph₀) (hold : ∀ node curr, ph₀ ≠ .storeNext node curr)
    (hnew : ∀ node curr, ph ≠ .storeNext node curr) (hholds : ph.holds = ph₀.holds)
    (hown : ∀ a, ph.own = some a → ph₀.own = some a) (here : Local s l ph) : Inv (s.goto t ph) l := by
  subst hph
  have hlinks : (s.goto t ph).links = s.links := funext fun a => links_same rfl rfl rfl hold hnew
  refine hi.of_move rfl (hlinks ▸ hi.walk) hi.nodup hi.allocated (hi.holder_same rfl rfl hholds) (fun a ha => ?_)
    (fun u _ a ha => hi.owned u a ha) (here.frame (fun _ _ => rfl) fun _ => id)
    fun u _ => (hi.here u).frame (fun _ _ => rfl) fun _ => id
  obtain ⟨halloc, hout⟩ := hi.owned t a (hown a ha)
  exact ⟨halloc, hout, fun u hu => hi.own_apart (hown a ha) hu⟩

theorem Inv.lock (hi : Inv s l) (hph : s.phase t = ph₀) (hfree : s.mutex = none) (hholds : ph.holds = true)
    (hnew : ∀ node curr, ph ≠ .storeNext node curr) (hown : ∀ a, ph.own = some a → ph₀.own = some a)
    (here : Local s l ph) : Inv ({ s with mutex := some t }.goto t ph) l := by
  subst hph
  have hself : ({ s with mutex := some t }.goto t ph).phase t = ph := Function.update_self ..
  have hlinks : ({ s with mutex := some t }.goto t ph).links = s.links := by
    rw [links_eq, links_eq (s := s)]
    · rfl
    · rw [hfree]
      nofun
    · rintro u ⟨⟩
      rw [hself]
      exact hnew
  refine hi.of_move rfl (hlinks ▸ hi.walk) hi.nodup hi.allocated (fun u => ?_) (fun a ha => ?_)
    (fun u _ a ha => hi.owned u a ha) (here.frame (fun _ _ => rfl) fun _ => id)
    fun u _ => (hi.here u).frame (fun _ _ => rfl) fun _ => id
  · by_cases hu : u = t
    · rw [hu, hself]
      exact ⟨fun _ => hholds, fun _ => rfl⟩
    · have hother : ({ s with mutex := some t }.goto t ph).phase u = s.phase u := Function.update_of_ne hu _ _
      rw [hother, ← hi.holder u, hfree]
      exact ⟨fun h => absurd (Option.some.inj h).symm hu, nofun⟩
  · obtain ⟨halloc, hout⟩ := hi.owned t a (hown a ha)
    exact ⟨halloc, hout, fun u hu => hi.own_apart (hown a ha) hu⟩

theorem Inv.unlock (hi : Inv s l) (hph : s.phase t = ph₀) (hheld : ph₀.holds = true)
    (hold : ∀ node curr, ph₀ ≠ .storeNext node curr) (hholds : ph.holds = false)
    (hown : ∀ a, ph.own = some a → ph₀.own = some a) (here : Local s l ph) :
    Inv ({ s with mutex := none }.goto t ph) l := by
  subst hph
  have hlinks : ({ s with mutex := none }.goto t ph).links = s.links := by
    rw [links_eq (by nofun), hi.links_of_holds hheld hold]
    rfl
  refine hi.of_move rfl (hlinks ▸ hi.walk) hi.nodup hi.allocated (fun u => ⟨nofun, fun hu => ?_⟩) (fun a ha => ?_)
    (fun u _ a ha => hi.owned u a ha) (here.frame (fun _ _ => rfl) fun _ => id)
    fun u _ => (hi.here u).frame (fun _ _ => rfl) fun _ => id
  · by_cases hut : u = t
    · have hself : ({ s with mutex := none }.goto t ph).phase t = ph := Function.update_self ..
      rw [hut, hself, hholds] at hu
      cases hu
    · have hother : ({ s with mutex := none }.goto t ph).phase u = s.phase u := Function.update_of_ne hut _ _
      rw [hother] at hu
      exact absurd (hi.holder_eq hheld hu) hut
  · obtain ⟨halloc, hout⟩ := hi.owned t a (hown a ha)
    exact ⟨halloc, hout, fun u hu => hi.own_apart (hown a ha) hu⟩

/-- While a thread has the mutex, the others refer to no edge. -/
theorem Inv.others (hi : Inv s l) (ht : (s.phase t).holds = true) (halloc : s'.allocated = s.allocated) (hu : u ≠ t) :
    Local s' l' (s.phase u) := by
  refine (hi.here u).of_outside ?_ fun _ curr _ h => halloc ▸ h
  cases hholds : (s.phase u).holds with
  | false => rfl
  | true => exact absurd (hi.holder_eq ht hholds) hu

theorem Inv.link (hi : Inv s l) (hph : s.phase t = .link key node prev curr) :
    ∃ l', Inv ((s.store prev node).goto t (.storeNext node curr)) l' := by
  obtain ⟨hprev, hnext⟩ : prev ∈ l ∧ s.next prev = some curr := hi.here_at hph
  have hholds : (s.phase t).holds = true := by rw [hph]; rfl
  have hown : (s.phase t).own = some node := by rw [hph]; rfl
  have hlinks : s.links = s.next := hi.links_of_holds hholds (by rw [hph]; nofun)
  obtain ⟨halloc, hout⟩ := hi.owned t node hown
  have hwalk := hi.walk
  rw [hlinks] at hwalk
  obtain ⟨xs, ys, rfl⟩ := hwalk.split hprev hnext
  have hne : ∀ b ∈ xs ++ prev :: curr :: ys, b ≠ node := fun b hb he => hout (he ▸ hb)
  have hnew : ((s.store prev node).goto t (.storeNext node curr)).links =
      Function.update (Function.update s.next prev (some node)) node (some curr) :=
    links_pending (t := t) ((hi.holder t).mpr hholds) (Function.update_self ..)
  have hperm : (xs ++ prev :: node :: curr :: ys).Perm (node :: (xs ++ prev :: curr :: ys)) := by
    have hsplit : xs ++ prev :: node :: curr :: ys = (xs ++ [prev]) ++ node :: (curr :: ys) := by simp
    have hsplit' : xs ++ prev :: curr :: ys = (xs ++ [prev]) ++ (curr :: ys) := by simp
    rw [hsplit, hsplit']
    exact List.perm_middle
  have hmem : ∀ a, a ∈ xs ++ prev :: node :: curr :: ys ↔ a = node ∨ a ∈ xs ++ prev :: curr :: ys := fun a =>
    hperm.mem_iff.trans List.mem_cons
  refine ⟨xs ++ prev :: node :: curr :: ys, hi.of_move rfl ?_ ?_ (fun a ha => ?_) (hi.holder_same rfl rfl ?_) nofun
    (fun u hu a ha => ?_) ⟨(hmem node).mpr (.inl rfl), (hmem curr).mpr (.inr (by simp))⟩
    fun u hu => hi.others hholds rfl hu⟩
  · rw [hnew]
    refine hwalk.insert (fun b hb => ?_) ?_ ((Function.update_self ..).trans hnext.symm)
    · have hb' : b ∈ xs ++ prev :: curr :: ys := by
        simp only [List.mem_append, List.mem_cons] at hb ⊢
        tauto
      have hbp : b ≠ prev := by
        rintro rfl
        have hnodup := hi.nodup
        rw [List.nodup_middle] at hnodup
        exact (List.nodup_cons.mp hnodup).1 hb
      rw [Function.update_of_ne (hne b hb'), Function.update_of_ne hbp]
    · rw [Function.update_of_ne (hne prev (by simp)), Function.update_self]
  · exact hperm.nodup_iff.mpr (List.nodup_cons.mpr ⟨hout, hi.nodup⟩)
  · rcases (hmem a).mp ha with rfl | ha
    · exact halloc
    · exact hi.allocated a ha
  · rw [hph]
    rfl
  · refine ⟨(hi.owned u a ha).1, fun hl => ?_⟩
    rcases (hmem a).mp hl with rfl | hl
    · exact hi.own_apart hown hu ha
    · exact (hi.owned u a ha).2 hl

theorem Inv.storeNext (hi : Inv s l) (hph : s.phase t = .storeNext node curr) :
    Inv ((s.store node curr).goto t (.unlock true)) l := by
  have hholds : (s.phase t).holds = true := by rw [hph]; rfl
  have hlinks : ((s.store node curr).goto t (.unlock true)).links = s.links := by
    rw [links_pending ((hi.holder t).mpr hholds) hph, links_eq]
    · rfl
    · intro u hu
      have hut : u = t := Option.some.inj (hu.symm.trans ((hi.holder t).mpr hholds))
      have hself : ((s.store node curr).goto t (.unlock true)).phase t = .unlock true := Function.update_self ..
      rw [hut, hself]
      nofun
  refine hi.of_move rfl (hlinks ▸ hi.walk) hi.nodup hi.allocated (hi.holder_same rfl rfl ?_) nofun
    (fun u _ a ha => hi.owned u a ha) trivial fun u hu => hi.others hholds rfl hu
  rw [hph]
  rfl

theorem Inv.unlink {succ : Option Addr} (hi : Inv s l) (hph : s.phase t = .unlink key prev curr succ) :
    ∃ l', Inv ((s.store prev succ).goto t (.unlockRemoved curr)) l' := by
  obtain ⟨hprev, hnext, hcurr, hsucc⟩ : prev ∈ l ∧ s.next prev = some curr ∧ curr ∈ l ∧ s.next curr = succ :=
    hi.here_at hph
  have hholds : (s.phase t).holds = true := by rw [hph]; rfl
  have hlinks : s.links = s.next := hi.links_of_holds hholds (by rw [hph]; nofun)
  have hwalk := hi.walk
  rw [hlinks] at hwalk
  obtain ⟨xs, ys, rfl⟩ := hwalk.split hprev hnext
  have hnew : ((s.store prev succ).goto t (.unlockRemoved curr)).links = Function.update s.next prev succ := by
    refine links_eq fun u hu => ?_
    have hut : u = t := Option.some.inj (hu.symm.trans ((hi.holder t).mpr hholds))
    have hself : ((s.store prev succ).goto t (.unlockRemoved curr)).phase t = .unlockRemoved curr :=
      Function.update_self ..
    rw [hut, hself]
    nofun
  have hperm : (xs ++ prev :: curr :: ys).Perm (curr :: (xs ++ prev :: ys)) := by
    have hsplit : xs ++ prev :: curr :: ys = (xs ++ [prev]) ++ curr :: ys := by simp
    have hsplit' : xs ++ prev :: ys = (xs ++ [prev]) ++ ys := by simp
    rw [hsplit, hsplit']
    exact List.perm_middle
  obtain ⟨hout, hnodup⟩ := List.nodup_cons.mp (hperm.nodup_iff.mp hi.nodup)
  have hsub : ∀ a ∈ xs ++ prev :: ys, a ∈ xs ++ prev :: curr :: ys := fun a ha =>
    hperm.mem_iff.mpr (List.mem_cons_of_mem curr ha)
  refine ⟨xs ++ prev :: ys, hi.of_move rfl ?_ hnodup (fun a ha => hi.allocated a (hsub a ha))
      (hi.holder_same rfl rfl ?_)
    (fun a ha => ?_) (fun u _ a ha => ⟨(hi.owned u a ha).1, fun hl => (hi.owned u a ha).2 (hsub a hl)⟩) trivial
    fun u hu => hi.others hholds rfl hu⟩
  · rw [hnew]
    refine hwalk.remove (fun b hb => ?_) ((Function.update_self ..).trans hsucc.symm)
    have hbp : b ≠ prev := by
      rintro rfl
      rw [List.nodup_middle] at hnodup
      exact (List.nodup_cons.mp hnodup).1 hb
    exact Function.update_of_ne hbp _ _
  · rw [hph]
    rfl
  · obtain rfl : curr = a := Option.some.inj ha
    exact ⟨hi.allocated curr hcurr, hout, fun u _ hown => (hi.owned u curr hown).2 hcurr⟩

/-- The step that the condition is about. -/
theorem Inv.free (hi : Inv s l) (hph : s.phase t = .free curr)
    (hunread : ∀ u key, s.phase u ≠ .compareContains key curr) : Inv ((s.free curr).goto t (.ret true)) l := by
  have hown : (s.phase t).own = some curr := by rw [hph]; rfl
  have hlinks : ((s.free curr).goto t (.ret true)).links = s.links := funext fun a =>
    links_same rfl rfl rfl (by rw [hph]; nofun) nofun
  have halloc : ∀ a ≠ curr, (s.free curr).allocated a = s.allocated a := fun a ha => Function.update_of_ne ha _ _
  refine hi.of_move rfl (hlinks ▸ hi.walk) hi.nodup (fun a ha => ?_) (hi.holder_same rfl rfl ?_) nofun
    (fun u hu a ha => ?_) trivial fun u hu => ?_
  · refine (halloc a ?_).trans (hi.allocated a ha)
    rintro rfl
    exact (hi.owned t a hown).2 ha
  · rw [hph]
    rfl
  · refine ⟨(halloc a ?_).trans (hi.owned u a ha).1, (hi.owned u a ha).2⟩
    rintro rfl
    exact hi.own_apart hown hu ha
  · have hlocal := hi.here u
    cases hu' : s.phase u with
    | compareContains key c =>
      rw [hu'] at hlocal
      refine (halloc c ?_).trans hlocal
      rintro rfl
      exact hunread u key hu'
    | _ =>
      rw [hu'] at hlocal
      exact hlocal

theorem Inv.malloc (hi : Inv s l) (hph : s.phase t = .malloc key) (fresh : s.allocated node = false) :
    Inv ((s.malloc node key).goto t (.lock (.add key node))) l := by
  have hne : ∀ a, s.allocated a = true → a ≠ node := by
    rintro a ha rfl
    rw [fresh] at ha
    cases ha
  have hnode : node ∉ l := fun hl => hne node (hi.allocated node hl) rfl
  have halloc : ∀ a, s.allocated a = true → (s.malloc node key).allocated a = true := fun a ha =>
    (Function.update_of_ne (hne a ha) _ _).trans ha
  have hnext : ∀ a ∈ l, (s.malloc node key).next a = s.next a := fun a ha =>
    Function.update_of_ne (hne a (hi.allocated a ha)) _ _
  refine hi.of_move rfl (hi.walk.congr fun a ha => ?_) hi.nodup (fun a ha => halloc a (hi.allocated a ha))
    (hi.holder_same rfl rfl ?_) (fun a ha => ?_)
    (fun u _ a ha => ⟨halloc a (hi.owned u a ha).1, (hi.owned u a ha).2⟩) trivial
    fun u _ => (hi.here u).frame hnext halloc
  · exact links_same (t := t) rfl rfl (hnext a ha) (by rw [hph]; nofun) nofun
  · rw [hph]
    rfl
  · obtain rfl : node = a := Option.some.inj ha
    exact ⟨Function.update_self .., hnode, fun u _ hown => hne node (hi.owned u node hown).1 rfl⟩

theorem Inv.act (hi : Inv s l) (h : act s t = some s')
    (hunread : ∀ curr, s.phase t = .free curr → ∀ u key, s.phase u ≠ .compareContains key curr) : ∃ l', Inv s' l' := by
  unfold CoarseGrained.act at h
  split at h
  case h_1 => cases h
  case h_2 => cases h
  case h_3 => cases h
  case h_4 job hph =>
    obtain ⟨free, ⟨⟩⟩ := Option.ite_none_right_eq_some.mp h
    exact ⟨l, hi.lock hph free rfl nofun (fun _ => id) trivial⟩
  case h_5 job hph =>
    obtain ⟨curr, hnext, rfl⟩ := Option.map_eq_some_iff.mp h
    exact ⟨l, hi.goto hph nofun nofun rfl (fun _ => id) ⟨hi.head_mem, hnext⟩⟩
  case h_6 job prev curr hph =>
    cases h
    have hlocal : prev ∈ l ∧ s.next prev = some curr := hi.here_at hph
    have hcurr : curr ∈ l := hi.next_mem (t := t) (by rw [hph]; rfl) (by rw [hph]; nofun) hlocal.1 hlocal.2
    split
    · exact ⟨l, hi.goto hph nofun nofun rfl (fun _ => id) hcurr⟩
    · cases job with
      | add key node => exact ⟨l, hi.goto hph nofun nofun rfl (fun _ => id) hlocal⟩
      | remove key => exact ⟨l, hi.goto hph nofun nofun rfl nofun hlocal⟩
      | contains key => exact ⟨l, hi.goto hph nofun nofun rfl nofun hcurr⟩
  case h_7 job curr hph =>
    obtain ⟨next, hnext, rfl⟩ := Option.map_eq_some_iff.mp h
    exact ⟨l, hi.goto hph nofun nofun rfl (fun _ => id) ⟨hi.here_at hph, hnext⟩⟩
  case h_8 key node prev curr hph =>
    cases h
    have hlocal : prev ∈ l ∧ s.next prev = some curr := hi.here_at hph
    split
    · exact ⟨l, hi.goto hph nofun nofun rfl nofun trivial⟩
    · exact ⟨l, hi.goto hph nofun nofun rfl (fun _ => id) hlocal⟩
  case h_9 key node prev curr hph => cases h; exact hi.link hph
  case h_10 node curr hph => cases h; exact ⟨l, hi.storeNext hph⟩
  case h_11 key prev curr hph =>
    cases h
    have hlocal : prev ∈ l ∧ s.next prev = some curr := hi.here_at hph
    split
    · exact ⟨l, hi.goto hph nofun nofun rfl nofun trivial⟩
    · exact ⟨l, hi.goto hph nofun nofun rfl nofun hlocal⟩
  case h_12 key prev curr hph =>
    cases h
    obtain ⟨hprev, hnext⟩ : prev ∈ l ∧ s.next prev = some curr := hi.here_at hph
    have hcurr : curr ∈ l := hi.next_mem (t := t) (by rw [hph]; rfl) (by rw [hph]; nofun) hprev hnext
    exact ⟨l, hi.goto hph nofun nofun rfl nofun ⟨hprev, hnext, hcurr, rfl⟩⟩
  case h_13 key prev curr succ hph => cases h; exact hi.unlink hph
  case h_14 res hph => cases h; exact ⟨l, hi.unlock hph rfl nofun rfl nofun trivial⟩
  case h_15 curr hph => cases h; exact ⟨l, hi.unlock hph rfl nofun rfl (fun _ => id) trivial⟩
  case h_16 key curr hph =>
    cases h
    have hcurr : curr ∈ l := hi.here_at hph
    exact ⟨l, hi.unlock hph rfl nofun rfl nofun (hi.allocated curr hcurr)⟩
  case h_17 curr hph => cases h; exact ⟨l, hi.free hph (hunread curr hph)⟩
  case h_18 key curr hph => cases h; exact ⟨l, hi.goto hph nofun nofun rfl nofun trivial⟩

theorem Inv.step (hi : Inv s l) (h : Step s ev s') (hunread : FreesUnread s ev) : ∃ l', Inv s' l' := by
  cases h with
  | @call t op here =>
    cases op <;> exact ⟨l, hi.goto here nofun nofun rfl nofun trivial⟩
  | malloc here fresh => exact ⟨l, hi.malloc here fresh⟩
  | act acts => exact hi.act acts hunread
  | ret here => exact ⟨l, hi.goto here nofun nofun rfl nofun trivial⟩

theorem inv_listInit : Inv .listInit [head, tail] where
  walk := .cons (.cons .nil)
  nodup := by decide
  allocated := by decide
  holder t := ⟨nofun, nofun⟩
  owned := nofun
  apart := nofun
  here _ := trivial

/-- As long as no node is freed that a call of `list_contains` is still going to read, every node
that a thread uses next, or keeps in a variable that it still uses, is allocated. -/
theorem no_freed_node_used (h : Reachable (coarseSystem.restrict FreesUnread) s) (t : ThreadId) :
    (∀ a ∈ (s.phase t).touches, s.allocated a = true) ∧ ∀ a ∈ (s.phase t).refs, s.allocated a = true := by
  have hinv : ∃ l, Inv s l := by
    refine h.invariant (I := fun s => ∃ l, Inv s l) ?_ fun s ev s' _ ⟨l, hi⟩ hs => hi.step hs.1 hs.2
    rintro s rfl
    exact ⟨_, inv_listInit⟩
  obtain ⟨l, hi⟩ := hinv
  refine ⟨fun a ha => ?_, fun a ha => hi.refs_allocated ha⟩
  rcases touches_refs ha with rfl | ha
  · exact hi.allocated head hi.head_mem
  · exact hi.refs_allocated ha

/-- The next step of the threads in turn; `malloc` returns the address 2. -/
def schedule (s : State) : Atomic.Event ThreadId Op Bool → Option State
  | .call t op => if s.phase t = .idle then some (s.goto t (start op)) else none
  | .inner t =>
    match s.phase t with
    | .malloc key => if s.allocated 2 = false then some ((s.malloc 2 key).goto t (.lock (.add key 2))) else none
    | _ => act s t
  | .ret t res => if s.phase t = .ret res then some (s.goto t .idle) else none

theorem step_schedule (h : schedule s ev = some s') : Step s ev s' := by
  unfold schedule at h
  split at h
  · obtain ⟨here, ⟨⟩⟩ := Option.ite_none_right_eq_some.mp h
    exact .call here
  · split at h
    · rename_i here
      obtain ⟨fresh, ⟨⟩⟩ := Option.ite_none_right_eq_some.mp h
      exact .malloc here fresh
    · exact .act h
  · obtain ⟨here, ⟨⟩⟩ := Option.ite_none_right_eq_some.mp h
    exact .ret here

theorem act_other (h : act s t = some s') (hu : u ≠ t) : s'.phase u = s.phase u := by
  have hgoto : ∀ (s₁ : State) ph, (s₁.goto t ph).phase u = s₁.phase u := fun s₁ ph => Function.update_of_ne hu _ _
  unfold act at h
  split at h
  case h_1 | h_2 | h_3 => cases h
  case h_4 job hph =>
    obtain ⟨-, ⟨⟩⟩ := Option.ite_none_right_eq_some.mp h
    exact hgoto _ _
  case h_5 | h_7 =>
    obtain ⟨next, -, rfl⟩ := Option.map_eq_some_iff.mp h
    exact hgoto _ _
  all_goals
    cases h
    exact hgoto _ _

theorem schedule_other (h : schedule s ev = some s') (hu : u ≠ ev.thread) : s'.phase u = s.phase u := by
  have hgoto : ∀ (s₁ : State) ph, (s₁.goto ev.thread ph).phase u = s₁.phase u := fun s₁ ph =>
    Function.update_of_ne hu _ _
  cases ev with
  | call t op =>
    obtain ⟨-, ⟨⟩⟩ := Option.ite_none_right_eq_some.mp h
    exact hgoto _ _
  | inner t =>
    simp only [schedule] at h
    split at h
    · obtain ⟨-, ⟨⟩⟩ := Option.ite_none_right_eq_some.mp h
      exact hgoto _ _
    · exact act_other h hu
  | ret t res =>
    obtain ⟨-, ⟨⟩⟩ := Option.ite_none_right_eq_some.mp h
    exact hgoto _ _

/-- As before, but nothing is freed. -/
def unfreed (s : State) (ev : Atomic.Event ThreadId Op Bool) : Option State :=
  match s.phase ev.thread with
  | .free _ => none
  | _ => schedule s ev

theorem schedule_of_unfreed (h : unfreed s ev = some s') :
    schedule s ev = some s' ∧ ∀ curr, s.phase ev.thread ≠ .free curr := by
  unfold unfreed at h
  split at h
  · cases h
  · rename_i hph
    exact ⟨h, hph⟩

theorem step_unfreed (h : unfreed s ev = some s') : (coarseSystem.restrict FreesUnread).step s ev s' := by
  obtain ⟨hs, hfree⟩ := schedule_of_unfreed h
  refine ⟨step_schedule hs, ?_⟩
  cases ev with
  | call | ret => trivial
  | inner t => exact fun curr hph => absurd hph (hfree curr)

theorem unfreed_other {evs : List (Atomic.Event ThreadId Op Bool)} (h : evs.foldlM unfreed s = some s')
    (hu : ∀ ev ∈ evs, u ≠ ev.thread) : s'.phase u = s.phase u := by
  induction evs generalizing s with
  | nil => rw [Option.some.inj h]
  | cons ev evs ih =>
    obtain ⟨s₁, hev, h⟩ := Option.bind_eq_some_iff.mp h
    rw [ih h fun ev hmem => hu ev (List.mem_cons_of_mem _ hmem),
      schedule_other (schedule_of_unfreed hev).1 (hu ev List.mem_cons_self)]

/-- Thread 1 adds 5; thread 0 looks for 7 and has released the mutex; thread 1 is about to free the node of 5. -/
def passing : List (Atomic.Event ThreadId Op Bool) :=
  [.call 1 (.add 5)] ++ List.replicate 8 (.inner 1) ++ [.ret 1 true, .call 0 (.contains 7)] ++
    List.replicate 6 (.inner 0) ++ [.call 1 (.remove 5)] ++ List.replicate 7 (.inner 1)

theorem no_freed_node_used_passing : ∃ s, Reachable (coarseSystem.restrict FreesUnread) s ∧
    s.phase 0 = .compareContains 7 tail ∧ s.allocated 2 = false ∧ s.allocated tail = true := by
  have hrun : (passing.foldlM unfreed .listInit).map (fun s => (s.phase 0, s.phase 1)) =
      some (.compareContains 7 tail, .free 2) := by decide +kernel
  obtain ⟨s, hs, he⟩ := Option.map_eq_some_iff.mp hrun
  obtain ⟨hcontains, hremove⟩ := Prod.mk.inj he
  have hreach : Reachable (coarseSystem.restrict FreesUnread) s :=
    Reachable.foldlM (fun _ ev _ h => ⟨ev, step_unfreed h⟩) (.init rfl) hs
  have hothers : ∀ u, u ≠ 0 → u ≠ 1 → s.phase u = .idle := fun u h₀ h₁ =>
    unfreed_other hs fun ev hev => by
      rcases (show ∀ ev ∈ passing, ev.thread = 0 ∨ ev.thread = 1 by decide) ev hev with h | h
      · exact h ▸ h₀
      · exact h ▸ h₁
  have hunread : FreesUnread s (.inner 1) := by
    intro curr hcurr u key hu
    obtain rfl : 2 = curr := Phase.free.inj (hremove.symm.trans hcurr)
    by_cases h₀ : u = 0
    · rw [h₀, hcontains] at hu
      cases hu
    · by_cases h₁ : u = 1
      · rw [h₁, hremove] at hu
        cases hu
      · rw [hothers u h₀ h₁] at hu
        cases hu
  have hfree : Step s (.inner 1) ((s.free 2).goto 1 (.ret true)) := .act (by rw [act, hremove])
  have hreach' : Reachable (coarseSystem.restrict FreesUnread) ((s.free 2).goto 1 (.ret true)) :=
    .step (.inner 1) hreach ⟨hfree, hunread⟩
  have htouch : tail ∈ (((s.free 2).goto 1 (.ret true)).phase 0).touches := by
    show tail ∈ (s.phase 0).touches
    rw [hcontains]
    exact List.mem_cons_self
  exact ⟨_, hreach', hcontains, by simp [State.goto, State.free], (no_freed_node_used hreach' 0).1 tail htouch⟩

def removing : List (Atomic.Event ThreadId Op Bool) :=
  [.call 1 (.add 5)] ++ List.replicate 8 (.inner 1) ++ [.ret 1 true, .call 0 (.contains 5)] ++
    List.replicate 4 (.inner 0) ++ [.call 1 (.remove 5)] ++ List.replicate 8 (.inner 1)

/-- `list_contains(5)` has found the node of 5 and has released the mutex when `list_remove(5)` by
another thread unlinks and frees it; then it reads the key. -/
theorem freed_node_used : ∃ s, Reachable coarseSystem s ∧
    s.phase 0 = .compareContains 5 2 ∧ 2 ∈ (s.phase 0).touches ∧ s.allocated 2 = false := by
  have hrun : (removing.foldlM schedule .listInit).map (fun s => (s.phase 0, s.allocated 2)) =
      some (.compareContains 5 2, false) := by decide +kernel
  obtain ⟨s, hs, he⟩ := Option.map_eq_some_iff.mp hrun
  obtain ⟨hph, halloc⟩ := Prod.mk.inj he
  have hreach : Reachable coarseSystem s :=
    Reachable.foldlM (fun _ ev _ h => ⟨ev, step_schedule h⟩) (.init rfl) hs
  exact ⟨s, hreach, hph, by rw [hph]; exact List.mem_cons_self, halloc⟩

end CoarseGrained
