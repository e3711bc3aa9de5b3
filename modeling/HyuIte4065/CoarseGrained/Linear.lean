import HyuIte4065.CoarseGrained.Freed
import HyuIte4065.SortedList.View

/-!
# The list under one mutex is a set

As long as no node is freed that a call of `list_contains` is still going to read, and the keys lie
between those of the sentinels, the calls are linearizable. A call of `list_contains` takes effect
where its search ends, although it compares the keys after it has released the mutex.
-/
namespace CoarseGrained

open SortedList SortedChain Transition LinkedList

def Fits (key : Int) : Prop := intMin < key ∧ key < intMax

/-- The condition of the runs. -/
def Regular (s : State) : Atomic.Event ThreadId Op Bool → Prop
  | .call _ op => Fits op.key
  | ev => FreesUnread s ev

def Edge (s : State) (a b : Addr) : Prop := s.links a = some b

/-- The chain is sorted and ends at `tail` when a node that is being linked counts with the
successor that it is going to have. -/
def ShowsSet (s : State) (set : Finset Int) : Prop :=
  ∃ m, Chain (Edge s) s.key tail head m ∧ keys s.key m = set

section
variable (k : Addr → Int)

/-- The node of `list_add` has the key already. -/
def Prepared (job : Job) : Prop := Fits job.key ∧ ∀ node, job.node = some node → k node = job.key

/-- What the keys of the nodes are to a thread. -/
def Standing : Phase → Prop
  | .malloc key => Fits key
  | .lock job | .loadFirst job => Prepared k job
  | .testKey job prev _ => Prepared k job ∧ k prev < job.key
  | .loadNext job curr => Prepared k job ∧ k curr < job.key
  | .compareAdd key node prev curr => Fits key ∧ k node = key ∧ k prev < key ∧ key ≤ k curr
  | .link key node prev curr => Fits key ∧ k node = key ∧ k prev < key ∧ key < k curr
  | .compareRemove key prev curr => Fits key ∧ k prev < key ∧ key ≤ k curr
  | .loadSucc key prev curr | .unlink key prev curr _ => Fits key ∧ k prev < key ∧ k curr = key
  | _ => True

/-- Whether the operation has taken effect. -/
def Phase.status : Phase → Atomic.Status Op Bool
  | .idle => .idle
  | .malloc key | .compareAdd key .. | .link key .. => .called (.add key)
  | .lock job | .loadFirst job | .testKey job .. | .loadNext job _ => .called job.op
  | .compareRemove key .. | .loadSucc key .. | .unlink key .. => .called (.remove key)
  | .storeNext .. | .unlockRemoved _ | .free _ => .done true
  | .unlock res | .ret res => .done res
  | .unlockContains key curr | .compareContains key curr => .done (decide (k curr = key))

end

structure Sorted (s : State) (m : List Addr) : Prop where
  chain : Chain (Edge s) s.key tail head m
  least : s.key head = intMin
  greatest : s.key tail = intMax
  last : s.links tail = none
  standing : ∀ t, Standing s.key (s.phase t)

def view (s : State) (m : List Addr) : Atomic.State ThreadId Op Bool (Finset Int) :=
  ⟨keys s.key m, fun t => (s.phase t).status s.key⟩

variable {s s' : State} {t u : ThreadId} {a b prev curr node : Addr} {l m m' : List Addr} {ph : Phase} {key : Int}
  {k k' : Addr → Int} {op : Op} {res : Bool} {ev : Atomic.Event ThreadId Op Bool}

theorem edge_unique : Relator.RightUnique (Edge s) := fun _ _ _ hb hc => Option.some.inj (hb.symm.trans hc)

/-! ### Where the nodes are -/

theorem walk_of_chain (h : Chain (Edge s) s.key tail a m) (hlast : s.links tail = none) :
    Walk s.links (some a) (a :: m ++ [tail]) := by
  have hend : Walk s.links (some tail) [tail] := .cons (hlast ▸ .nil)
  induction h with
  | last edge => exact .cons (by rw [show s.links _ = _ from edge]; exact hend)
  | cons edge _ _ ih => exact .cons (by rw [show s.links _ = _ from edge]; exact ih)

theorem Sorted.nodes (hs : Sorted s m) (hi : Inv s l) : l = head :: m ++ [tail] :=
  hi.walk.unique (walk_of_chain hs.chain hs.last)

theorem Sorted.mem_of_edge (hs : Sorted s m) (hi : Inv s l) (ha : a ∈ l) (edge : Edge s a b) : a ∈ head :: m := by
  rw [hs.nodes hi, List.mem_append, List.mem_singleton] at ha
  refine ha.resolve_right ?_
  rintro rfl
  exact absurd (hs.last.symm.trans edge) (Option.some_ne_none b).symm

theorem Sorted.mem (hs : Sorted s m) (hi : Inv s l) (ha : a ∈ head :: m) : a ∈ l := by
  rw [hs.nodes hi]
  exact List.mem_append_left _ ha

theorem Sorted.tail_mem (hs : Sorted s m) (hi : Inv s l) : tail ∈ l := by
  rw [hs.nodes hi]
  exact List.mem_append_right _ List.mem_cons_self

/-- The thread that has the mutex reads the edges of the list. -/
theorem Inv.edge (hi : Inv s l) (hholds : (s.phase t).holds = true)
    (hold : ∀ node curr, s.phase t ≠ .storeNext node curr) (hnext : s.next a = some b) : Edge s a b := by
  rw [Edge, hi.links_of_holds hholds hold]
  exact hnext

/-- Where a search has ended decides whether the set has the key. -/
theorem Sorted.found (hs : Sorted s m) (hprev : prev ∈ head :: m) (edge : Edge s prev curr)
    (hlt : s.key prev < key) (hle : key ≤ s.key curr) (hfits : Fits key) :
    key ∈ keys s.key m ↔ s.key curr = key :=
  hs.chain.mem_keys_iff edge_unique hprev edge hlt hle (hs.greatest ▸ hfits.2)

/-! ### The edges after a step -/

theorem links_goto (hold : ∀ node curr, s.phase t ≠ .storeNext node curr)
    (hnew : ∀ node curr, ph ≠ .storeNext node curr) :
    (s.goto t ph).links = s.links := funext fun _ => links_same rfl rfl rfl hold hnew

theorem links_lock (hfree : s.mutex = none) (hnew : ∀ node curr, ph ≠ .storeNext node curr) :
    ({ s with mutex := some t }.goto t ph).links = s.links := by
  have hself : ({ s with mutex := some t }.goto t ph).phase t = ph := Function.update_self ..
  rw [links_eq, links_eq (s := s)]
  · rfl
  · rw [hfree]
    intro u hu
    cases hu
  · rintro u ⟨⟩
    rw [hself]
    exact hnew

theorem Inv.links_unlock (hi : Inv s l) (hholds : (s.phase t).holds = true)
    (hold : ∀ node curr, s.phase t ≠ .storeNext node curr) :
    ({ s with mutex := none }.goto t ph).links = s.links := by
  rw [hi.links_of_holds hholds hold, links_eq]
  · rfl
  · intro u hu
    cases hu

/-! ### The set after a step -/

theorem Standing.congr (h : Standing k ph) (hsame : ∀ a ∈ ph.refs, k' a = k a) : Standing k' ph := by
  have hprepared : ∀ job : Job, (∀ a ∈ job.node.toList, k' a = k a) → Prepared k job → Prepared k' job := by
    intro job hjob hp
    refine ⟨hp.1, fun node hnode => ?_⟩
    rw [hjob node (Option.mem_toList.mpr hnode), hp.2 node hnode]
  cases ph with
  | lock job | loadFirst job => exact hprepared job hsame h
  | testKey job prev curr =>
    refine ⟨hprepared job (fun a ha => hsame a (by simp [Phase.refs, ha])) h.1, ?_⟩
    rw [hsame prev (by simp [Phase.refs])]
    exact h.2
  | loadNext job curr =>
    refine ⟨hprepared job (fun a ha => hsame a (by simp [Phase.refs, ha])) h.1, ?_⟩
    rw [hsame curr (by simp [Phase.refs])]
    exact h.2
  | compareAdd key node prev curr | link key node prev curr =>
    simp only [Standing, hsame node (by simp [Phase.refs]), hsame prev (by simp [Phase.refs]),
      hsame curr (by simp [Phase.refs])]
    exact h
  | compareRemove key prev curr | loadSucc key prev curr | unlink key prev curr succ =>
    simp only [Standing, hsame prev (by simp [Phase.refs]), hsame curr (by simp [Phase.refs])]
    exact h
  | _ => exact h

theorem status_congr (hsame : ∀ a ∈ ph.refs, k' a = k a) : ph.status k' = ph.status k := by
  cases ph with
  | unlockContains key curr | compareContains key curr =>
    simp only [Phase.status, hsame curr (by simp [Phase.refs])]
  | _ => rfl

/-- A step of one thread that leaves the keys alone. -/
theorem view_update (hphase : s'.phase = Function.update s.phase t ph) (hkey : s'.key = s.key) :
    view s' m' = ⟨keys s.key m', Function.update (view s m).status t (ph.status s.key)⟩ := by
  have hstatus : (fun u => (s'.phase u).status s'.key) =
      Function.update (view s m).status t (ph.status s.key) := by
    funext u
    rw [hphase, hkey]
    by_cases hu : u = t
    · rw [hu, Function.update_self, Function.update_self]
    · rw [Function.update_of_ne hu, Function.update_of_ne hu, view]
  rw [view, hstatus, hkey]

/-- One step of the list that the set takes part in. -/
def Follows (s : State) (m : List Addr) (ev : Atomic.Event ThreadId Op Bool) (s' : State) : Prop :=
  ∃ m', Sorted s' m' ∧ Guarded.Step intSet.guarded (view s m) ev (view s' m')

/-- What is left to prove of a step of one thread that leaves the keys alone. -/
theorem Sorted.of_move (hs : Sorted s m) (hphase : s'.phase = Function.update s.phase t ph) (hkey : s'.key = s.key)
    (chain : Chain (Edge s') s.key tail head m') (last : s'.links tail = none)
    (here : Standing s.key ph) : Sorted s' m' := by
  refine ⟨hkey ▸ chain, hkey ▸ hs.least, hkey ▸ hs.greatest, last, fun u => ?_⟩
  rw [hphase, hkey]
  by_cases hu : u = t
  · rw [hu, Function.update_self]
    exact here
  · rw [Function.update_of_ne hu]
    exact hs.standing u

theorem Sorted.of_links (hs : Sorted s m) (hphase : s'.phase = Function.update s.phase t ph) (hkey : s'.key = s.key)
    (hlinks : s'.links = s.links) (here : Standing s.key ph) : Sorted s' m := by
  refine hs.of_move hphase hkey ?_ (hlinks ▸ hs.last) here
  refine hs.chain.congr (fun b _ c edge => ?_) (fun _ _ => rfl) rfl
  rw [Edge, hlinks]
  exact edge

/-- A step that the set does not notice. -/
theorem Sorted.skip (hs : Sorted s m) (hphase : s'.phase = Function.update s.phase t ph) (hkey : s'.key = s.key)
    (hlinks : s'.links = s.links) (here : Standing s.key ph) (hstatus : ph.status s.key = (s.phase t).status s.key) :
    Follows s m (.inner t) s' := by
  refine ⟨m, hs.of_links hphase hkey hlinks here, ?_⟩
  have hsame : (view s m).status t = (s.phase t).status s.key := rfl
  rw [view_update hphase hkey (m := m), hstatus, ← hsame, Function.update_eq_self]
  exact .skip

/-- A step at which the operation takes effect. -/
theorem step_act (hphase : s'.phase = Function.update s.phase t ph) (hkey : s'.key = s.key)
    (hcalled : (s.phase t).status s.key = .called op) (hdone : ph.status s.key = .done res)
    (happly : intSet.apply op (keys s.key m) = (res, keys s.key m')) :
    Guarded.Step intSet.guarded (view s m) (.inner t) (view s' m') := by
  have hpossible : intSet.guarded.apply op (view s m).value = some (res, keys s.key m') := congrArg some happly
  rw [view_update hphase hkey (m := m), hdone]
  exact .act hcalled hpossible

/-! ### The steps of a thread -/

theorem Sorted.standing_at (hs : Sorted s m) (hph : s.phase t = ph) : Standing s.key ph := hph ▸ hs.standing t

theorem Sorted.window (hs : Sorted s m) (hi : Inv s l) (hholds : (s.phase t).holds = true)
    (hold : ∀ node curr, s.phase t ≠ .storeNext node curr) (h : prev ∈ l ∧ s.next prev = some curr) :
    prev ∈ head :: m ∧ Edge s prev curr :=
  have edge := hi.edge hholds hold h.2
  ⟨hs.mem_of_edge hi h.1 edge, edge⟩

/-- `list_contains` takes effect where its search ends. -/
theorem Sorted.searched {job : Job} (hs : Sorted s m) (hi : Inv s l) (hph : s.phase t = .testKey job prev curr)
    (hle : job.key ≤ s.key curr) : Follows s m (.inner t) (s.goto t (searched prev curr job)) := by
  obtain ⟨⟨hfits, hnode⟩, hlt⟩ : Prepared s.key job ∧ s.key prev < job.key := hs.standing_at hph
  have hlinks : (s.goto t (CoarseGrained.searched prev curr job)).links = s.links :=
    links_goto (by rw [hph]; nofun) (by cases job <;> nofun)
  cases job with
  | add key node => exact hs.skip rfl rfl hlinks ⟨hfits, hnode node rfl, hlt, hle⟩ (by rw [hph]; rfl)
  | remove key => exact hs.skip rfl rfl hlinks ⟨hfits, hlt, hle⟩ (by rw [hph]; rfl)
  | contains key =>
    obtain ⟨hprev, edge⟩ := hs.window hi (t := t) (by rw [hph]; rfl) (by rw [hph]; nofun) (hi.here_at hph)
    have hfound : key ∈ keys s.key m ↔ s.key curr = key := hs.found hprev edge hlt hle hfits
    refine ⟨m, hs.of_links rfl rfl hlinks trivial, step_act rfl rfl (by rw [hph]; rfl) rfl ?_⟩
    exact Prod.ext (decide_eq_decide.mpr hfound) rfl

theorem Sorted.compareAdd (hs : Sorted s m) (hi : Inv s l) (hph : s.phase t = .compareAdd key node prev curr) :
    Follows s m (.inner t) (s.goto t (if s.key curr = key then .unlock false else .link key node prev curr)) := by
  obtain ⟨hfits, hnode, hlt, hle⟩ : Fits key ∧ s.key node = key ∧ s.key prev < key ∧ key ≤ s.key curr :=
    hs.standing_at hph
  have hold : ∀ node curr, s.phase t ≠ .storeNext node curr := by rw [hph]; nofun
  split
  · rename_i heq
    obtain ⟨hprev, edge⟩ := hs.window hi (t := t) (by rw [hph]; rfl) hold (hi.here_at hph)
    have hmem : key ∈ keys s.key m := (hs.found hprev edge hlt hle hfits).mpr heq
    exact ⟨m, hs.of_links rfl rfl (links_goto hold nofun) trivial,
      step_act rfl rfl (by rw [hph]; rfl) rfl (add_present hmem)⟩
  · rename_i hne
    exact hs.skip rfl rfl (links_goto hold nofun)
      ⟨hfits, hnode, hlt, lt_of_le_of_ne hle (Ne.symm hne)⟩ (by rw [hph]; rfl)

/-- The first of the two stores puts the node into the list. -/
theorem Sorted.link (hs : Sorted s m) (hi : Inv s l) (hph : s.phase t = .link key node prev curr) :
    Follows s m (.inner t) ((s.store prev node).goto t (.storeNext node curr)) := by
  obtain ⟨hfits, hnode, hlt, hlt'⟩ : Fits key ∧ s.key node = key ∧ s.key prev < key ∧ key < s.key curr :=
    hs.standing_at hph
  have hholds : (s.phase t).holds = true := by rw [hph]; rfl
  have hold : ∀ node curr, s.phase t ≠ .storeNext node curr := by rw [hph]; nofun
  obtain ⟨hprev, edge⟩ := hs.window hi hholds hold (hi.here_at hph)
  have hout : node ∉ l := (hi.owned t node (by rw [hph]; rfl)).2
  have hlinks : ((s.store prev node).goto t (.storeNext node curr)).links =
      Function.update (Function.update s.next prev (some node)) node (some curr) :=
    links_pending (t := t) ((hi.holder t).mpr hholds) (Function.update_self ..)
  have hother : ∀ b ∈ l, b ≠ prev → ((s.store prev node).goto t (.storeNext node curr)).links b = s.links b := by
    intro b hb hbp
    have hbn : b ≠ node := fun he => hout (he ▸ hb)
    rw [hlinks, hi.links_of_holds hholds hold, Function.update_of_ne hbn, Function.update_of_ne hbp]
  have hprevne : prev ≠ node := fun he => hout (he ▸ hs.mem hi hprev)
  have htail : tail ≠ prev := fun he => hs.chain.last_notMem (he ▸ hprev)
  have hpn : Edge ((s.store prev node).goto t (.storeNext node curr)) prev node := by
    rw [Edge, hlinks, Function.update_of_ne hprevne, Function.update_self]
  have hnc : Edge ((s.store prev node).goto t (.storeNext node curr)) node curr := by
    rw [Edge, hlinks, Function.update_self]
  obtain ⟨m', hchain, hperm⟩ := hs.chain.insert edge_unique hprev edge
    (fun b hb hbp d hd => (hother b (hs.mem hi hb) hbp).trans hd) hpn hnc (hnode ▸ hlt) (hnode ▸ hlt')
  have habsent : key ∉ keys s.key m := fun hmem =>
    hlt'.ne' ((hs.found hprev edge hlt hlt'.le hfits).mp hmem)
  have hkeys : keys s.key m' = insert key (keys s.key m) := by rw [keys_of_perm hperm, hnode]
  refine ⟨m', hs.of_move rfl rfl hchain ((hother tail (hs.tail_mem hi) htail).trans hs.last) trivial,
    step_act rfl rfl (by rw [hph]; rfl) rfl ?_⟩
  rw [hkeys]
  exact add_absent habsent

theorem Sorted.storeNext (hs : Sorted s m) (hi : Inv s l) (hph : s.phase t = .storeNext node curr) :
    Follows s m (.inner t) ((s.store node curr).goto t (.unlock true)) := by
  have hself : ((s.store node curr).goto t (.unlock true)).phase t = .unlock true := Function.update_self ..
  have hlinks : ((s.store node curr).goto t (.unlock true)).links = s.links := by
    rw [(hi.storeNext hph).links_of_holds (t := t) (by rw [hself]; rfl) (by rw [hself]; nofun),
      links_pending ((hi.holder t).mpr (by rw [hph]; rfl)) hph]
    rfl
  exact hs.skip rfl rfl hlinks trivial (by rw [hph]; rfl)

theorem Sorted.compareRemove (hs : Sorted s m) (hi : Inv s l) (hph : s.phase t = .compareRemove key prev curr) :
    Follows s m (.inner t) (s.goto t (if s.key curr ≠ key then .unlock false else .loadSucc key prev curr)) := by
  obtain ⟨hfits, hlt, hle⟩ : Fits key ∧ s.key prev < key ∧ key ≤ s.key curr := hs.standing_at hph
  have hold : ∀ node curr, s.phase t ≠ .storeNext node curr := by rw [hph]; nofun
  split
  · rename_i hne
    obtain ⟨hprev, edge⟩ := hs.window hi (t := t) (by rw [hph]; rfl) hold (hi.here_at hph)
    have habsent : key ∉ keys s.key m := fun hmem => hne ((hs.found hprev edge hlt hle hfits).mp hmem)
    exact ⟨m, hs.of_links rfl rfl (links_goto hold nofun) trivial,
      step_act rfl rfl (by rw [hph]; rfl) rfl (remove_absent habsent)⟩
  · rename_i heq
    exact hs.skip rfl rfl (links_goto hold nofun) ⟨hfits, hlt, not_not.mp heq⟩ (by rw [hph]; rfl)

theorem Sorted.unlink {succ : Option Addr} (hs : Sorted s m) (hi : Inv s l)
    (hph : s.phase t = .unlink key prev curr succ) :
    Follows s m (.inner t) ((s.store prev succ).goto t (.unlockRemoved curr)) := by
  obtain ⟨hfits, hlt, hcurr⟩ : Fits key ∧ s.key prev < key ∧ s.key curr = key := hs.standing_at hph
  obtain ⟨hprev, hnext, -, hsucc⟩ : prev ∈ l ∧ s.next prev = some curr ∧ curr ∈ l ∧ s.next curr = succ :=
    hi.here_at hph
  have hholds : (s.phase t).holds = true := by rw [hph]; rfl
  have hold : ∀ node curr, s.phase t ≠ .storeNext node curr := by rw [hph]; nofun
  have hsame : s.links = s.next := hi.links_of_holds hholds hold
  obtain ⟨hprev, edge⟩ := hs.window hi hholds hold ⟨hprev, hnext⟩
  have hmem : curr ∈ m := hs.chain.next_mem_of_lt edge_unique hprev edge (by rw [hcurr, hs.greatest]; exact hfits.2)
  obtain ⟨d, hd⟩ := hs.chain.exists_next (List.mem_cons_of_mem head hmem)
  obtain rfl : succ = some d := by rw [← hsucc, ← hsame]; exact hd
  have hself : ((s.store prev (some d)).goto t (.unlockRemoved curr)).phase t = .unlockRemoved curr :=
    Function.update_self ..
  obtain ⟨l', hi'⟩ := hi.unlink hph
  have hlinks : ((s.store prev (some d)).goto t (.unlockRemoved curr)).links =
      Function.update s.links prev (some d) := by
    rw [hi'.links_of_holds (t := t) (by rw [hself]; rfl) (by rw [hself]; nofun), hsame]
    rfl
  have htail : tail ≠ prev := fun he => hs.chain.last_notMem (he ▸ hprev)
  have hpd : Edge ((s.store prev (some d)).goto t (.unlockRemoved curr)) prev d := by
    rw [Edge, hlinks, Function.update_self]
  obtain ⟨m', hchain, hperm⟩ := hs.chain.remove edge_unique hprev edge hmem hd
    (fun b _ hbp c hc => by rw [Edge, hlinks, Function.update_of_ne hbp]; exact hc) hpd
  have hpresent : key ∈ keys s.key m := (hs.found hprev edge hlt hcurr.ge hfits).mpr hcurr
  have hkeys : keys s.key m' = (keys s.key m).erase key := by rw [hs.chain.keys_erase hperm, hcurr]
  refine ⟨m', hs.of_move rfl rfl hchain ?_ trivial, step_act rfl rfl (by rw [hph]; rfl) rfl ?_⟩
  · rw [hlinks, Function.update_of_ne htail]
    exact hs.last
  · rw [hkeys]
    exact remove_present hpresent

/-- A new node has a key that no other thread has read. -/
theorem Sorted.malloc (hs : Sorted s m) (hi : Inv s l) (hph : s.phase t = .malloc key)
    (fresh : s.allocated node = false) :
    Follows s m (.inner t) ((s.malloc node key).goto t (.lock (.add key node))) := by
  have hfits : Fits key := hs.standing_at hph
  have hne : ∀ a, s.allocated a = true → a ≠ node := by
    rintro a ha rfl
    rw [fresh] at ha
    cases ha
  have hkey : ∀ a, s.allocated a = true → (s.malloc node key).key a = s.key a := fun a ha =>
    Function.update_of_ne (hne a ha) ..
  have hlinks : ∀ a, s.allocated a = true → ((s.malloc node key).goto t (.lock (.add key node))).links a = s.links a :=
    fun a ha => links_same (t := t) rfl rfl (Function.update_of_ne (hne a ha) ..) (by rw [hph]; nofun) nofun
  have hmem : ∀ a ∈ head :: m, s.allocated a = true := fun a ha => hi.allocated a (hs.mem hi ha)
  have htail : s.allocated tail = true := hi.allocated tail (hs.tail_mem hi)
  have hrefs : ∀ u, ∀ a ∈ (s.phase u).refs, (s.malloc node key).key a = s.key a := fun u a ha =>
    hkey a (hi.refs_allocated ha)
  have hstanding : ∀ u, Standing (s.malloc node key).key (Function.update s.phase t (.lock (.add key node)) u) := by
    intro u
    by_cases hu : u = t
    · rw [hu, Function.update_self]
      refine ⟨hfits, fun a ha => ?_⟩
      obtain rfl : node = a := Option.some.inj ha
      exact Function.update_self ..
    · rw [Function.update_of_ne hu]
      exact (hs.standing u).congr (hrefs u)
  have hview : view ((s.malloc node key).goto t (.lock (.add key node))) m = view s m := by
    have hkeys : keys (s.malloc node key).key m = keys s.key m :=
      keys_congr fun a ha => hkey a (hmem a (List.mem_cons_of_mem head ha))
    refine congrArg₂ Atomic.State.mk hkeys (funext fun u => ?_)
    show (Function.update s.phase t (.lock (.add key node)) u).status _ = _
    by_cases hu : u = t
    · rw [hu, Function.update_self, hph]
      rfl
    · rw [Function.update_of_ne hu]
      exact status_congr (hrefs u)
  refine ⟨m, ⟨?_, (hkey head (hmem head List.mem_cons_self)).trans hs.least, (hkey tail htail).trans hs.greatest,
    (hlinks tail htail).trans hs.last, hstanding⟩, hview ▸ .skip⟩
  exact hs.chain.congr (fun b hb c edge => (hlinks b (hmem b hb)).trans edge)
    (fun b hb => hkey b (hmem b hb)) (hkey tail htail)

theorem Sorted.act (hs : Sorted s m) (hi : Inv s l) (h : act s t = some s') : Follows s m (.inner t) s' := by
  unfold CoarseGrained.act at h
  split at h
  case h_1 => cases h
  case h_2 => cases h
  case h_3 => cases h
  case h_4 job hph =>
    obtain ⟨free, ⟨⟩⟩ := Option.ite_none_right_eq_some.mp h
    have hstanding : Prepared s.key job := hs.standing_at hph
    exact hs.skip rfl rfl (links_lock free nofun) hstanding (by rw [hph]; rfl)
  case h_5 job hph =>
    obtain ⟨curr, hnext, rfl⟩ := Option.map_eq_some_iff.mp h
    have hstanding : Prepared s.key job := hs.standing_at hph
    have hhead : s.key head < job.key := hs.least ▸ hstanding.1.1
    exact hs.skip rfl rfl (links_goto (by rw [hph]; nofun) nofun) ⟨hstanding, hhead⟩ (by rw [hph]; rfl)
  case h_6 job prev curr hph =>
    cases h
    split
    · rename_i hlt
      obtain ⟨hstanding, -⟩ : Prepared s.key job ∧ s.key prev < job.key := hs.standing_at hph
      exact hs.skip rfl rfl (links_goto (by rw [hph]; nofun) nofun) ⟨hstanding, hlt⟩ (by rw [hph]; rfl)
    · rename_i hge
      exact hs.searched hi hph (le_of_not_gt hge)
  case h_7 job curr hph =>
    obtain ⟨next, hnext, rfl⟩ := Option.map_eq_some_iff.mp h
    have hstanding : Prepared s.key job ∧ s.key curr < job.key := hs.standing_at hph
    exact hs.skip rfl rfl (links_goto (by rw [hph]; nofun) nofun) hstanding (by rw [hph]; rfl)
  case h_8 key node prev curr hph => cases h; exact hs.compareAdd hi hph
  case h_9 key node prev curr hph => cases h; exact hs.link hi hph
  case h_10 node curr hph => cases h; exact hs.storeNext hi hph
  case h_11 key prev curr hph => cases h; exact hs.compareRemove hi hph
  case h_12 key prev curr hph =>
    cases h
    have hstanding : Fits key ∧ s.key prev < key ∧ s.key curr = key := hs.standing_at hph
    exact hs.skip rfl rfl (links_goto (by rw [hph]; nofun) nofun) hstanding (by rw [hph]; rfl)
  case h_13 key prev curr succ hph => cases h; exact hs.unlink hi hph
  case h_14 res hph | h_15 curr hph | h_16 key curr hph =>
    cases h
    exact hs.skip rfl rfl (hi.links_unlock (by rw [hph]; rfl) (by rw [hph]; nofun)) trivial (by rw [hph]; rfl)
  case h_17 curr hph | h_18 key curr hph =>
    cases h
    exact hs.skip rfl rfl (funext fun _ => links_same rfl rfl rfl (by rw [hph]; nofun) nofun) trivial
      (by rw [hph]; rfl)

/-- Every step is a step of the atomic set. -/
theorem Sorted.step (hs : Sorted s m) (hi : Inv s l) (h : Step s ev s')
    (hregular : Regular s ev) : Follows s m ev s' := by
  cases h with
  | @call t op here =>
    have hlinks : (s.goto t (start op)).links = s.links := links_goto (by rw [here]; nofun) (by cases op <;> nofun)
    have hidle : (s.phase t).status s.key = .idle := by rw [here]; rfl
    have hstanding : Standing s.key (start op) := by
      cases op with
      | add key => exact hregular
      | remove key | contains key => exact ⟨hregular, nofun⟩
    have hcalled : (start op).status s.key = .called op := by cases op <;> rfl
    refine ⟨m, hs.of_links rfl rfl hlinks hstanding, ?_⟩
    have hview : view (s.goto t (start op)) m =
        ⟨keys s.key m, Function.update (view s m).status t ((start op).status s.key)⟩ := view_update rfl rfl
    rw [hview, hcalled]
    exact .call hidle
  | malloc here fresh => exact hs.malloc hi here fresh
  | act acts => exact hs.act hi acts
  | @ret t res here =>
    have hdone : (s.phase t).status s.key = .done res := by rw [here]; rfl
    refine ⟨m, hs.of_links rfl rfl (links_goto (by rw [here]; nofun) nofun) trivial, ?_⟩
    have hview : view (s.goto t .idle) m =
        ⟨keys s.key m, Function.update (view s m).status t (Phase.idle.status s.key)⟩ := view_update rfl rfl
    rw [hview]
    exact .ret hdone

theorem sorted_listInit : Sorted .listInit [] where
  chain := .last rfl (by decide)
  least := rfl
  greatest := rfl
  last := rfl
  standing _ := trivial

theorem Regular.freesUnread (h : Regular s ev) : FreesUnread s ev := by
  cases ev with
  | call => trivial
  | inner | ret => exact h

/-- Every execution is one of the atomic set if no node is freed that somebody is still going to
compare with. A node that is being linked counts with the successor it is going to have. -/
theorem coarse_linearizable : Atomic.Linearizable intSet (coarseSystem.restrict Regular) ShowsSet := by
  refine Refines.of_simulation (fun s a => ∃ l m, Inv s l ∧ Sorted s m ∧ a = view s m) ?_ ?_ ?_
  · rintro s rfl
    exact ⟨_, rfl, _, [], inv_listInit, sorted_listInit, rfl⟩
  · rintro s a ev s' ⟨l, m, hi, hs, rfl⟩ h
    obtain ⟨l', hi'⟩ := hi.step h.1 h.2.freesUnread
    obtain ⟨m', hs', hstep⟩ := hs.step hi h.1 h.2
    exact ⟨_, hstep, l', m', hi', hs', rfl⟩
  · rintro s a ⟨l, m, -, hs, rfl⟩
    exact ⟨m, hs.chain, rfl⟩

end CoarseGrained
