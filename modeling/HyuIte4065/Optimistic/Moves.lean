import HyuIte4065.Optimistic.Invariant
import HyuIte4065.SortedList.View

/-!
# The steps of the optimistic list

Each step keeps the invariant and is a step of the atomic set.
-/
namespace Optimistic

open SortedList SortedChain

open Relation (ReflTransGen)

variable {s s' : State Phase} {t u : ThreadId} {a b prev curr it : Addr} {l l' : List Addr} {ph ph₀ : Phase}
  {job : Job} {key : Int} {res : Bool}

/-- The step to `s'` keeps the invariant and is a step of the set. -/
def Follows (s : State Phase) (l : List Addr) (t : ThreadId) (s' : State Phase) : Prop :=
  ∃ l', Inv s' l' ∧ Guarded.Step intSet.guarded (view Phase.status s l) (.inner t) (view Phase.status s' l')

theorem Inv.here_at (hi : Inv s l) (hph : s.phase t = ph) : Local s l ph := hph ▸ hi.here t

theorem refs_known (hph : s.phase t = ph) : ∀ a ∈ ph.refs, Known s a := fun _ ha => known_ref (hph ▸ ha)

theorem known_pair (ha : Known s a) (hb : Known s b) : ∀ c ∈ [a, b], Known s c :=
  List.forall_mem_cons.mpr ⟨ha, List.forall_mem_singleton.mpr hb⟩

theorem known_triple {c : Addr} (ha : Known s a) (hb : Known s b) (hc : Known s c) : ∀ d ∈ [a, b, c], Known s d :=
  List.forall_mem_cons.mpr ⟨ha, known_pair hb hc⟩

theorem Inv.goto (hi : Inv s l) (hph : s.phase t = ph₀) (hlocked : ∀ b, b ∈ ph.locked ↔ b ∈ ph₀.locked)
    (hown : ∀ a, ph.own = some a → ph₀.own = some a) (hrefs : ∀ a ∈ ph.refs, Known s a)
    (here : Local s l ph) : Inv (s.goto t ph) l := by
  subst hph
  exact hi.quiet rfl ⟨rfl, rfl, rfl⟩ (hi.locks.goto hlocked) hown hrefs (by cases ph <;> exact here)

theorem Inv.lock (hi : Inv s l) (hph : s.phase t = ph₀) (free : s.mutex a = none)
    (hlocked : ∀ b, b ∈ ph.locked ↔ b = a ∨ b ∈ ph₀.locked) (hown : ∀ a, ph.own = some a → ph₀.own = some a)
    (hrefs : ∀ a ∈ ph.refs, Known s a) (here : Local s l ph) : Inv ((s.lock t a).goto t ph) l := by
  subst hph
  exact hi.quiet rfl ⟨rfl, rfl, rfl⟩ (hi.locks.lock free hlocked) hown hrefs (by cases ph <;> exact here)

theorem Inv.unlock (hi : Inv s l) (hph : s.phase t = ph₀) (held : a ∈ ph₀.locked)
    (hlocked : ∀ b, b ∈ ph.locked ↔ b ≠ a ∧ b ∈ ph₀.locked) (hown : ∀ a, ph.own = some a → ph₀.own = some a)
    (hrefs : ∀ a ∈ ph.refs, Known s a) (here : Local s l ph) : Inv ((s.unlock a).goto t ph) l := by
  subst hph
  exact hi.quiet rfl ⟨rfl, rfl, rfl⟩ (hi.locks.unlock held hlocked) hown hrefs (by cases ph <;> exact here)

theorem Inv.skip (hi : Inv s' l) (hph : s.phase t = ph₀) (hphase : s'.phase = Function.update s.phase t ph)
    (hstatus : ph.status = ph₀.status) (hkey : s'.key = s.key) : Follows s l t s' :=
  ⟨l, hi, view_skip hphase (by rw [hph, hstatus]) (by rw [hkey])⟩

theorem Inv.loadFirst (hi : Inv s l) (hph : s.phase t = .loadFirst job) (hnext : s.next head = some curr) :
    Follows s l t (s.goto t (.testKey job head curr)) := by
  have hready : Ready s job := hi.here_at hph
  have hinv : Inv (s.goto t (.testKey job head curr)) l :=
    hi.goto hph (fun _ => Iff.rfl) (fun _ => id) (known_pair (.inl rfl) (known_next hnext))
      ⟨hready, by rw [hi.ends.1]; exact hready.1⟩
  exact hinv.skip hph rfl rfl rfl

theorem Inv.testKey (hi : Inv s l) (hph : s.phase t = .testKey job prev curr) :
    Follows s l t (s.goto t (if s.key curr < job.key then .loadNext job curr else .lockPrev job prev curr)) := by
  obtain ⟨hready, hprev⟩ : Ready s job ∧ s.key prev < job.key := hi.here_at hph
  have hrefs := refs_known hph
  by_cases hlt : s.key curr < job.key
  · rw [if_pos hlt]
    have hinv : Inv (s.goto t (.loadNext job curr)) l :=
      hi.goto hph (fun _ => Iff.rfl) (fun _ => id) (fun a ha => hrefs a (List.mem_cons_of_mem prev ha)) ⟨hready, hlt⟩
    exact hinv.skip hph rfl rfl rfl
  · rw [if_neg hlt]
    have hinv : Inv (s.goto t (.lockPrev job prev curr)) l :=
      hi.goto hph (fun _ => Iff.rfl) (fun _ => id) hrefs ⟨hready, hprev, Int.not_lt.mp hlt⟩
    exact hinv.skip hph rfl rfl rfl

theorem Inv.loadNext (hi : Inv s l) (hph : s.phase t = .loadNext job curr) (hnext : s.next curr = some b) :
    Follows s l t (s.goto t (.testKey job curr b)) := by
  have hlocal : Ready s job ∧ s.key curr < job.key := hi.here_at hph
  have hrefs := refs_known hph
  have hinv : Inv (s.goto t (.testKey job curr b)) l :=
    hi.goto hph (fun _ => Iff.rfl) (fun _ => id)
      (known_pair (hrefs curr List.mem_cons_self) (known_next hnext)) hlocal
  exact hinv.skip hph rfl rfl rfl

theorem Inv.lockPrev (hi : Inv s l) (hph : s.phase t = .lockPrev job prev curr) (free : s.mutex prev = none) :
    Follows s l t ((s.lock t prev).goto t (.lockCurr job prev curr)) := by
  have hlocal : Ready s job ∧ Gap s job.key prev curr := hi.here_at hph
  have hrefs := refs_known hph
  have hinv : Inv ((s.lock t prev).goto t (.lockCurr job prev curr)) l :=
    hi.lock hph free (fun _ => List.mem_cons) (fun _ => id) hrefs hlocal
  exact hinv.skip hph rfl rfl rfl

theorem Gap.ne (h : Gap s key prev curr) : prev ≠ curr := by
  rintro rfl
  exact absurd (h.1.trans_le h.2) (lt_irrefl _)

/-- A walk from `head` meets nothing but nodes of the list. -/
theorem Inv.found_head (hi : Inv s l) (hlt : s.key prev < intMax) : Found s l prev head := by
  by_cases hreach : ReflTransGen (Edge s) head prev
  · refine .inl ((hi.chain.reach_mem (edge_unique s) (fun d hd => ?_) List.mem_cons_self hreach).resolve_right ?_)
    · rw [Edge, hi.last] at hd
      cases hd
    · rintro rfl
      exact absurd hlt hi.ends.2.not_lt
  · exact .inr hreach

theorem Inv.lockCurr (hi : Inv s l) (hph : s.phase t = .lockCurr job prev curr) (free : s.mutex curr = none) :
    Follows s l t ((s.lock t curr).goto t (.testIt job prev curr head)) := by
  obtain ⟨hready, hgap⟩ : Ready s job ∧ Gap s job.key prev curr := hi.here_at hph
  have hrefs := refs_known hph
  have hinv : Inv ((s.lock t curr).goto t (.testIt job prev curr head)) l := by
    refine hi.lock hph free (fun b => ?_) (fun _ => id) ?_
      ⟨hready, hgap, hi.found_head (hgap.1.trans hready.2.1)⟩
    · exact List.mem_pair.trans (or_comm.trans (or_congr_right List.mem_singleton.symm))
    · exact known_triple (hrefs prev List.mem_cons_self) (hrefs curr (List.mem_cons_of_mem prev List.mem_cons_self))
        (.inl rfl)
  exact hinv.skip hph rfl rfl rfl

theorem Inv.testIt (hi : Inv s l) (hph : s.phase t = .testIt job prev curr it) :
    Follows s l t (s.goto t (if s.key it ≤ s.key prev then
      if it = prev then .checkNext job prev curr else .loadIt job prev curr it else .failPrev job prev curr)) := by
  obtain ⟨hready, hgap, hfound⟩ : Ready s job ∧ Gap s job.key prev curr ∧ Found s l prev it := hi.here_at hph
  have hrefs := refs_known hph
  have hpair : ∀ a ∈ [prev, curr], Known s a := fun a ha => hrefs a (List.mem_append_left [it] ha)
  by_cases hle : s.key it ≤ s.key prev
  · rw [if_pos hle]
    by_cases hit : it = prev
    · rw [if_pos hit]
      have hinv : Inv (s.goto t (.checkNext job prev curr)) l :=
        hi.goto hph (fun _ => Iff.rfl) (fun _ => id) hpair
          ⟨hready, hgap, hfound.resolve_right fun hnot => hnot (hit ▸ .refl)⟩
      exact hinv.skip hph rfl rfl rfl
    · rw [if_neg hit]
      have hinv : Inv (s.goto t (.loadIt job prev curr it)) l :=
        hi.goto hph (fun _ => Iff.rfl) (fun _ => id) hrefs ⟨hready, hgap, hfound, hit, hle⟩
      exact hinv.skip hph rfl rfl rfl
  · rw [if_neg hle]
    have hinv : Inv (s.goto t (.failPrev job prev curr)) l :=
      hi.goto hph (fun _ => Iff.rfl) (fun _ => id) hpair ⟨hready, hgap.ne⟩
    exact hinv.skip hph rfl rfl rfl

theorem Inv.loadIt (hi : Inv s l) (hph : s.phase t = .loadIt job prev curr it) (hnext : s.next it = some b) :
    Follows s l t (s.goto t (.testIt job prev curr b)) := by
  obtain ⟨hready, hgap, hfound, -⟩ : Ready s job ∧ Gap s job.key prev curr ∧ Found s l prev it ∧ it ≠ prev ∧
    s.key it ≤ s.key prev := hi.here_at hph
  have hrefs := refs_known hph
  have hinv : Inv (s.goto t (.testIt job prev curr b)) l := by
    refine hi.goto hph (fun _ => Iff.rfl) (fun _ => id) ?_ ⟨hready, hgap, hfound.imp id fun hnot hr => ?_⟩
    · exact known_triple (hrefs prev List.mem_cons_self) (hrefs curr (List.mem_cons_of_mem prev List.mem_cons_self))
        (known_next hnext)
    · exact hnot (.head hnext hr)
  exact hinv.skip hph rfl rfl rfl

theorem Inv.checkNext (hi : Inv s l) (hph : s.phase t = .checkNext job prev curr) :
    Follows s l t (s.goto t
        (if s.next prev = some curr then .compareKey job prev curr else .failPrev job prev curr)) := by
  obtain ⟨hready, hgap, hprev⟩ : Ready s job ∧ Gap s job.key prev curr ∧ prev ∈ head :: l := hi.here_at hph
  have hrefs := refs_known hph
  by_cases hnext : s.next prev = some curr
  · rw [if_pos hnext]
    have hinv : Inv (s.goto t (.compareKey job prev curr)) l :=
      hi.goto hph (fun _ => Iff.rfl) (fun _ => id) hrefs ⟨hready, ⟨hprev, hnext, hgap.1⟩, hgap.2⟩
    exact hinv.skip hph rfl rfl rfl
  · rw [if_neg hnext]
    have hinv : Inv (s.goto t (.failPrev job prev curr)) l :=
      hi.goto hph (fun _ => Iff.rfl) (fun _ => id) hrefs ⟨hready, hgap.ne⟩
    exact hinv.skip hph rfl rfl rfl

theorem Inv.failPrev (hi : Inv s l) (hph : s.phase t = .failPrev job prev curr) :
    Follows s l t ((s.unlock prev).goto t (.failCurr job curr)) := by
  obtain ⟨hready, hne⟩ : Ready s job ∧ prev ≠ curr := hi.here_at hph
  have hrefs := refs_known hph
  have hinv : Inv ((s.unlock prev).goto t (.failCurr job curr)) l :=
    hi.unlock hph List.mem_cons_self (mem_pair_ne hne) (fun _ => id)
      (fun a ha => hrefs a (List.mem_cons_of_mem prev ha)) hready
  exact hinv.skip hph rfl rfl rfl

theorem Inv.failCurr (hi : Inv s l) (hph : s.phase t = .failCurr job curr) :
    Follows s l t ((s.unlock curr).goto t (.loadFirst job)) := by
  have hready : Ready s job := hi.here_at hph
  have hinv : Inv ((s.unlock curr).goto t (.loadFirst job)) l :=
    hi.unlock hph List.mem_cons_self mem_nil_ne (fun _ => id) nofun hready
  exact hinv.skip hph rfl rfl rfl

theorem Inv.compareKey (hi : Inv s l) (hph : s.phase t = .compareKey job prev curr) :
    Follows s l t (s.goto t (found prev curr (s.key curr) job)) := by
  obtain ⟨hready, hwindow, hle⟩ : Ready s job ∧ Window s l job.key prev curr ∧ job.key ≤ s.key curr := hi.here_at hph
  have hkeys : job.key ∈ keys s.key l ↔ s.key curr = job.key :=
    hi.chain.mem_keys_iff (edge_unique s) hwindow.1 hwindow.2.1 hwindow.2.2 hle (hi.ends.2 ▸ hready.2.1)
  have hrefs := refs_known hph
  -- without an update the call ends here
  have hleave : ∀ res, Inv (s.goto t (.unlockPrev prev curr res)) l := fun res =>
    hi.goto hph (fun _ => Iff.rfl) nofun hrefs (Gap.ne ⟨hwindow.2.2, hle⟩)
  cases job with
  | add key node =>
    by_cases he : s.key curr = key
    · rw [found, if_pos he]
      exact ⟨l, hleave false, view_act rfl (by rw [hph]; rfl) rfl (add_present (hkeys.mpr he))⟩
    · rw [found, if_neg he]
      have hinv : Inv (s.goto t (.storeNext key node prev curr)) l :=
        hi.goto hph (fun _ => Iff.rfl) (fun _ => id) hrefs
          ⟨hready.2.2 node rfl, hwindow, lt_of_le_of_ne hle (Ne.symm he)⟩
      exact hinv.skip hph rfl rfl rfl
  | remove key =>
    by_cases he : s.key curr = key
    · rw [found, if_neg (not_not.mpr he)]
      have hinv : Inv (s.goto t (.loadSucc key prev curr)) l :=
        hi.goto hph (fun _ => Iff.rfl) nofun hrefs ⟨hwindow, he, hready.2.1⟩
      exact hinv.skip hph rfl rfl rfl
    · rw [found, if_pos he]
      exact ⟨l, hleave false, view_act rfl (by rw [hph]; rfl) rfl (remove_absent fun hk => he (hkeys.mp hk))⟩
  | contains key =>
    have happly : intSet.apply (.contains key) (keys s.key l) = (decide (s.key curr = key), keys s.key l) :=
      Prod.ext (decide_eq_decide.mpr hkeys) rfl
    rw [found]
    exact ⟨l, hleave _, view_act rfl (by rw [hph]; rfl) rfl happly⟩

theorem Inv.loadSucc (hi : Inv s l) (hph : s.phase t = .loadSucc key prev curr) :
    Follows s l t (s.goto t (.unlink key prev curr (s.next curr))) := by
  obtain ⟨hwindow, hkey, hlt⟩ : Window s l key prev curr ∧ s.key curr = key ∧ key < intMax := hi.here_at hph
  have hrefs := refs_known hph
  have hinv : Inv (s.goto t (.unlink key prev curr (s.next curr))) l := by
    refine hi.goto hph (fun _ => Iff.rfl) nofun (fun a ha => ?_) ⟨hwindow, hkey, hlt, rfl⟩
    rcases List.mem_append.mp (show a ∈ [prev, curr] ++ (s.next curr).toList from ha) with ha | ha
    · exact hrefs a ha
    · exact known_next (Option.mem_toList.mp ha)
  exact hinv.skip hph rfl rfl rfl

theorem Inv.unlockPrev (hi : Inv s l) (hph : s.phase t = .unlockPrev prev curr res) :
    Follows s l t ((s.unlock prev).goto t (.unlockCurr curr res)) := by
  have hne : prev ≠ curr := hi.here_at hph
  have hrefs := refs_known hph
  have hinv : Inv ((s.unlock prev).goto t (.unlockCurr curr res)) l :=
    hi.unlock hph List.mem_cons_self (mem_pair_ne hne) nofun (fun a ha => hrefs a (List.mem_cons_of_mem prev ha))
      trivial
  exact hinv.skip hph rfl rfl rfl

theorem Inv.unlockCurr (hi : Inv s l) (hph : s.phase t = .unlockCurr curr res) :
    Follows s l t ((s.unlock curr).goto t (.ret res)) := by
  have hinv : Inv ((s.unlock curr).goto t (.ret res)) l :=
    hi.unlock hph List.mem_cons_self mem_nil_ne nofun nofun trivial
  exact hinv.skip hph rfl rfl rfl

theorem next_store (s : State Phase) (a b : Addr) (t : ThreadId) (ph : Phase) :
    ((s.store a b).goto t ph).next a = some b := Function.update_self ..

theorem known_store {c : Addr} (hrefs : ∀ c ∈ ph.refs, Known s c) (h : Known ((s.store a b).goto t ph) c) :
    c = b ∨ Known s c := by
  rcases h with h | h | ⟨d, h⟩ | ⟨u, h⟩
  · exact .inr (.inl h)
  · exact .inr (.inr (.inl h))
  · by_cases hd : d = a
    · rw [hd] at h
      exact .inl (Option.some.inj ((next_store s a b t ph).symm.trans h)).symm
    · exact .inr (known_next ((Function.update_of_ne hd _ _).symm.trans h))
  · have hphase : ((s.store a b).goto t ph).phase = Function.update s.phase t ph := rfl
    exact forall_phase (P := fun _ (ph' : Phase) => c ∈ ph'.refs → c = b ∨ Known s c) hphase
      (fun h => .inr (hrefs c h)) (fun u _ h => .inr (known_ref h)) u h

theorem live_store {c : Addr} (h : Live s c) : Live ((s.store a b).goto t ph) c := by
  refine ⟨h.1, h.2.imp id fun ⟨d, hd⟩ => ?_⟩
  by_cases hc : c = a
  · exact ⟨b, by rw [hc]; exact Function.update_self ..⟩
  · exact ⟨d, (Function.update_of_ne hc _ _).trans hd⟩

theorem edge_store {c d : Addr} (h : Edge ((s.store a b).goto t ph) c d) : Edge s c d ∨ c = a ∧ d = b := by
  by_cases hc : c = a
  · subst hc
    exact .inr ⟨rfl, (Option.some.inj ((next_store s c b t ph).symm.trans h)).symm⟩
  · exact .inl ((Function.update_of_ne hc _ _).symm.trans h)

theorem edge_of_ne {c d : Addr} (hc : c ≠ a) (h : Edge s c d) : Edge ((s.store a b).goto t ph) c d :=
  (Function.update_of_ne hc _ _).trans h

theorem Inv.storeNext {node : Addr} (hi : Inv s l) (hph : s.phase t = .storeNext key node prev curr) :
    Follows s l t ((s.store node curr).goto t (.link key node prev curr)) := by
  obtain ⟨hkey, hwindow, hlt⟩ : s.key node = key ∧ Window s l key prev curr ∧ key < s.key curr := hi.here_at hph
  have hown : (s.phase t).own = some node := by rw [hph]; rfl
  have hpair := refs_known hph
  have hrefs : ∀ a ∈ (Phase.link key node prev curr).refs, Known s a := hpair
  obtain ⟨hallocated, hnode⟩ := hi.hidden t node hown
  have hne : ∀ a, Known s a → a ≠ node := fun a ha he => hnode (he ▸ ha)
  have hcurr : Known s curr := hrefs curr (List.mem_cons_of_mem prev List.mem_cons_self)
  have hknown : ∀ a, Known ((s.store node curr).goto t (.link key node prev curr)) a → Known s a := by
    intro a ha
    rcases known_store hrefs ha with rfl | ha
    · exact hcurr
    · exact ha
  have hinv : Inv ((s.store node curr).goto t (.link key node prev curr)) l := by
    refine hi.of_move rfl (hi.chain.congr (fun b hb d => edge_of_ne (hne b (hi.known hb))) (fun _ _ => rfl) rfl)
      hi.ends ?_ (fun a ha => live_store (hi.live a (hknown a ha))) (fun a ha => ?_) (fun u hu a ha => ?_)
      (hi.locks.goto ?_) ⟨hkey, ⟨hwindow.1, ?_, hwindow.2.2⟩, hlt, Function.update_self ..⟩ fun u hu => ?_
    · exact (Function.update_of_ne (hne tail (.inr (.inl rfl))) _ _).trans hi.last
    · obtain rfl : node = a := Option.some.inj ha
      exact ⟨hallocated, fun hk => hnode (hknown node hk), fun u hu ho => hu (hi.apart u t node ho hown)⟩
    · exact ⟨(hi.hidden u a ha).1, fun hk => (hi.hidden u a ha).2 (hknown a hk)⟩
    · rw [hph]
      exact fun _ => Iff.rfl
    · exact (Function.update_of_ne (hne prev (hi.known hwindow.1)) _ _).trans hwindow.2.1
    · refine (hi.here u).frame (fun _ _ => id) (fun a ha => Function.update_of_ne ?_ _ _) (fun _ _ => rfl)
        fun a ha b _ hr => ?_
      · rcases ha with ha | ha
        · exact hne a (known_ref (Phase.locked_refs ha))
        · rintro rfl
          exact hu (hi.apart u t a ha hown)
      · have hgrow : ∀ c d, Edge ((s.store node curr).goto t (.link key node prev curr)) c d → Edge s c d ∨ c = node :=
          fun c d hcd => (edge_store hcd).imp id And.left
        exact (Graph.path_of_hidden hgrow (fun c hc => hnode (known_next hc)) (hne a (known_ref ha)) hr).1
  exact hinv.skip hph rfl rfl rfl

theorem Inv.link {node : Addr} (hi : Inv s l) (hph : s.phase t = .link key node prev curr) :
    Follows s l t ((s.store prev node).goto t (.unlockPrev prev curr true)) := by
  obtain ⟨hkey, hwindow, hlt, hnext⟩ : s.key node = key ∧ Window s l key prev curr ∧ key < s.key curr ∧
    s.next node = some curr := hi.here_at hph
  have hown : (s.phase t).own = some node := by rw [hph]; rfl
  have hpair := refs_known hph
  have hrefs : ∀ a ∈ (Phase.unlockPrev prev curr true).refs, Known s a := hpair
  have hlocked : prev ∈ (s.phase t).locked := by rw [hph]; exact List.mem_cons_self
  obtain ⟨hallocated, hnode⟩ := hi.hidden t node hown
  have hne : ∀ a, Known s a → a ≠ node := fun a ha he => hnode (he ▸ ha)
  have hprev : prev ≠ node := hne prev (hi.known hwindow.1)
  have habsent : key ∉ keys s.key l := fun hk => hlt.ne' ((hi.chain.mem_keys_iff (edge_unique s) hwindow.1
    hwindow.2.1 hwindow.2.2 hlt.le (hlt.trans_le (hi.chain.key_next_le (edge_unique s) hwindow.1 hwindow.2.1))).mp hk)
  have hlinked : Edge ((s.store prev node).goto t (.unlockPrev prev curr true)) prev node := Function.update_self ..
  obtain ⟨l', hchain, hperm⟩ := hi.chain.insert (edge_unique s) hwindow.1 hwindow.2.1
    (fun b _ hb d => edge_of_ne hb) hlinked (edge_of_ne hprev.symm hnext)
    (by rw [hkey]; exact hwindow.2.2) (by rw [hkey]; exact hlt)
  refine ⟨l', hi.of_move rfl hchain hi.ends ?_ (fun a ha => ?_) nofun (fun u hu a ha => ?_) (hi.locks.goto ?_)
    (Gap.ne ⟨hwindow.2.2, hlt.le⟩) fun u hu => ?_, view_act rfl (by rw [hph]; rfl) rfl ?_⟩
  · refine (Function.update_of_ne (fun he => ?_) _ _).trans hi.last
    exact hi.chain.last_notMem (he ▸ hwindow.1)
  · rcases known_store hrefs ha with rfl | ha
    · exact ⟨hallocated, .inr ⟨curr, (Function.update_of_ne hprev.symm _ _).trans hnext⟩⟩
    · exact live_store (hi.live a ha)
  · refine ⟨(hi.hidden u a ha).1, fun hk => ?_⟩
    rcases known_store hrefs hk with rfl | hk
    · exact hu (hi.apart u t a ha hown)
    · exact (hi.hidden u a ha).2 hk
  · rw [hph]
    exact fun _ => Iff.rfl
  · refine (hi.here u).frame (fun a _ ha => hperm.mem_iff.mpr (List.mem_cons_of_mem node ha))
      (fun a ha => Function.update_of_ne ?_ _ _) (fun _ _ => rfl) fun a ha b hb hr => ?_
    · rcases ha with ha | ha
      · rintro rfl
        exact hu (hi.locks.unique ha hlocked)
      · rintro rfl
        exact (hi.hidden u a ha).2 (hi.known hwindow.1)
    · exact Graph.path_of_detour (fun c d => edge_store) (fun c hc => hnode (known_next hc))
        (fun d hd => Option.some.inj (hd.symm.trans hnext)) hwindow.2.1 hprev.symm (hne a (known_ref ha))
        (hne b (known_ref hb)) hr
  · rw [add_absent habsent]
    exact congrArg (Prod.mk true) (hkey ▸ (keys_of_perm hperm).symm)

theorem Inv.unlink {succ? : Option Addr} (hi : Inv s l) (hph : s.phase t = .unlink key prev curr succ?) :
    Follows s l t ((s.storeLink prev succ?).goto t (.unlockPrev prev curr true)) := by
  obtain ⟨hwindow, hkey, hlt, hnext⟩ : Window s l key prev curr ∧ s.key curr = key ∧ key < intMax ∧
    s.next curr = succ? := hi.here_at hph
  have hrefs := refs_known hph
  have hlocked : prev ∈ (s.phase t).locked := by rw [hph]; exact List.mem_cons_self
  have hlocked' : curr ∈ (s.phase t).locked := by rw [hph]; exact List.mem_cons_of_mem _ List.mem_cons_self
  have hcurr : curr ∈ l := hi.chain.next_mem_of_lt (edge_unique s) hwindow.1 hwindow.2.1
      (by rw [hkey, hi.ends.2]; exact hlt)
  have hpresent : key ∈ keys s.key l := mem_keys.mpr ⟨curr, hcurr, hkey⟩
  obtain ⟨succ, hsucc⟩ := hi.chain.exists_next (List.mem_cons_of_mem head hcurr)
  obtain rfl : some succ = succ? := hsucc.symm.trans hnext
  have hlinked : Edge ((s.store prev succ).goto t (.unlockPrev prev curr true)) prev succ := Function.update_self ..
  obtain ⟨l', hchain, hperm⟩ := hi.chain.remove (edge_unique s) hwindow.1 hwindow.2.1 hcurr hsucc
    (fun b _ hb d => edge_of_ne hb) hlinked
  have hpair : ∀ a ∈ (Phase.unlockPrev prev curr true).refs, Known s a := fun a ha =>
    hrefs a (List.mem_append_left [succ] ha)
  have hknown : ∀ a, Known ((s.store prev succ).goto t (.unlockPrev prev curr true)) a → Known s a := by
    intro a ha
    rcases known_store hpair ha with rfl | ha
    · exact known_next hsucc
    · exact ha
  refine ⟨l', hi.of_move rfl hchain hi.ends ?_ (fun a ha => live_store (hi.live a (hknown a ha))) nofun
    (fun u _ a ha => ⟨(hi.hidden u a ha).1, fun hk => (hi.hidden u a ha).2 (hknown a hk)⟩) (hi.locks.goto ?_)
    (hi.chain.next_ne (edge_unique s) hwindow.1 hwindow.2.1) fun u hu => ?_, view_act rfl (by rw [hph]; rfl) rfl ?_⟩
  · refine (Function.update_of_ne (fun he => ?_) _ _).trans hi.last
    exact hi.chain.last_notMem (he ▸ hwindow.1)
  · rw [hph]
    exact fun _ => Iff.rfl
  · refine (hi.here u).frame (fun a ha hal => ?_) (fun a ha => Function.update_of_ne ?_ _ _) (fun _ _ => rfl)
      fun a _ b _ hr => ?_
    · refine (List.mem_cons.mp (hperm.mem_iff.mp hal)).resolve_left ?_
      rintro rfl
      exact hu (hi.locks.unique ha hlocked')
    · rcases ha with ha | ha
      · rintro rfl
        exact hu (hi.locks.unique ha hlocked)
      · rintro rfl
        exact (hi.hidden u a ha).2 (hi.known hwindow.1)
    · refine hr.lift' id fun c d hcd => ?_
      rcases edge_store hcd with hcd | ⟨rfl, rfl⟩
      · exact .single hcd
      · exact .head hwindow.2.1 (.single hsucc)
  · rw [remove_present hpresent]
    exact congrArg (Prod.mk true) (hkey ▸ (hi.chain.keys_erase hperm).symm)

theorem Inv.malloc {node : Addr} (hi : Inv s l) (hph : s.phase t = .malloc key) (fresh : s.allocated node = false) :
    Follows s l t ((s.malloc node key).goto t (.loadFirst (.add key node))) := by
  have hrange : intMin < key ∧ key < intMax := hi.here_at hph
  have hne : ∀ a, s.allocated a = true → a ≠ node := by
    rintro a ha rfl
    rw [fresh] at ha
    cases ha
  have hnode : ∀ a, Known s a → a ≠ node := fun a ha => hne a (hi.live a ha).1
  have hkey : ∀ a, Known s a → ((s.malloc node key).goto t (.loadFirst (.add key node))).key a = s.key a :=
    fun a ha => Function.update_of_ne (hnode a ha) _ _
  have hnext : ∀ a ≠ node, ((s.malloc node key).goto t (.loadFirst (.add key node))).next a = s.next a :=
    fun a ha => Function.update_of_ne ha _ _
  have hedge : ∀ a b, Edge ((s.malloc node key).goto t (.loadFirst (.add key node))) a b → Edge s a b := by
    intro a b hab
    by_cases ha : a = node
    · have hnone : ((s.malloc node key).goto t (.loadFirst (.add key node))).next node = none :=
        Function.update_self ..
      rw [Edge, ha, hnone] at hab
      cases hab
    · exact (hnext a ha).symm.trans hab
  have hknown : ∀ a, Known ((s.malloc node key).goto t (.loadFirst (.add key node))) a → Known s a := by
    rintro a (h | h | ⟨b, h⟩ | ⟨u, h⟩)
    · exact .inl h
    · exact .inr (.inl h)
    · exact known_next (hedge b a h)
    · have hphase : ((s.malloc node key).goto t (.loadFirst (.add key node))).phase =
        Function.update s.phase t (.loadFirst (.add key node)) := rfl
      exact forall_phase (P := fun _ (ph' : Phase) => a ∈ ph'.refs → Known s a) hphase
        (fun h => absurd h List.not_mem_nil)
        (fun u _ h => known_ref h) u h
  have hinv : Inv ((s.malloc node key).goto t (.loadFirst (.add key node))) l := by
    refine hi.of_move rfl (hi.chain.congr (fun b hb d h => (hnext b (hnode b (hi.known hb))).trans h)
        (fun b hb => hkey b (hi.known hb)) (hkey tail (.inr (.inl rfl))))
      ⟨?_, ?_⟩ ?_ (fun a ha => ?_) (fun a ha => ?_)
        (fun u _ a ha => ⟨?_, fun hk => (hi.hidden u a ha).2 (hknown a hk)⟩)
      (hi.locks.malloc (fun u hu => ?_) ?_) ⟨hrange.1, hrange.2, fun n hn => ?_⟩ fun u _ => ?_
    · exact (hkey head (.inl rfl)).trans hi.ends.1
    · exact (hkey tail (.inr (.inl rfl))).trans hi.ends.2
    · exact (hnext tail (hnode tail (.inr (.inl rfl)))).trans hi.last
    · have hlive := hi.live a (hknown a ha)
      have hane : a ≠ node := hnode a (hknown a ha)
      exact ⟨(Function.update_of_ne hane _ _).trans hlive.1,
        hlive.2.imp id (Exists.imp fun b hb => (hnext a hane).trans hb)⟩
    · obtain rfl : node = a := Option.some.inj ha
      exact ⟨Function.update_self .., fun hk => hnode node (hknown node hk) rfl,
        fun u _ ho => hne node (hi.hidden u node ho).1 rfl⟩
    · exact (Function.update_of_ne (hne a (hi.hidden u a ha).1) _ _).trans (hi.hidden u a ha).1
    · exact hnode node (known_ref (Phase.locked_refs hu)) rfl
    · rw [hph]
      exact fun _ => Iff.rfl
    · obtain rfl : node = n := Option.some.inj hn
      exact Function.update_self ..
    · have hother : ∀ a, a ∈ (s.phase u).refs ∨ (s.phase u).own = some a → a ≠ node := by
        rintro a (ha | ha)
        · exact hnode a (known_ref ha)
        · exact hne a (hi.hidden u a ha).1
      exact (hi.here u).frame (fun _ _ => id) (fun a ha => hnext a (hother a (ha.imp_left Phase.locked_refs)))
        (fun a ha => Function.update_of_ne (hother a ha) _ _) fun a _ b _ => ReflTransGen.mono hedge a b
  refine ⟨l, hinv, view_skip rfl (by rw [hph]; rfl) (keys_congr fun a ha => ?_)⟩
  exact hkey a (hi.known (List.mem_cons_of_mem head ha))

end Optimistic
