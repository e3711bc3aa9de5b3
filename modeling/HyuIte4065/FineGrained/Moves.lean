import HyuIte4065.FineGrained.Invariant
import HyuIte4065.SortedList.View

/-!
# The steps of the hand-over-hand locked list

Each step keeps the invariant and is a step of the atomic set.
-/
namespace FineGrained

open SortedList SortedChain

variable {s s' : State Phase} {t u : ThreadId} {a b prev curr : Addr} {l l' : List Addr} {ph ph₀ : Phase} {job : Job}
  {key : Int} {gone res : Bool}

/-- The step to `s'` keeps the invariant and is a step of the set. -/
def Follows (s : State Phase) (l : List Addr) (t : ThreadId) (s' : State Phase) : Prop :=
  ∃ l', Inv s' l' ∧ Guarded.Step intSet.guarded (view Phase.status s l) (.inner t) (view Phase.status s' l')

theorem Inv.here_at (hi : Inv s l) (hph : s.phase t = ph) : Local s l ph := hph ▸ hi.here t

theorem Inv.goto (hi : Inv s l) (hph : s.phase t = ph₀) (hold : ∀ a b, ¬ ph₀.Pending a b)
    (hlocked : ∀ b, b ∈ ph.locked ↔ b ∈ ph₀.locked) (hown : ∀ a, ph.own = some a → ph₀.own = some a)
    (here : Local s l ph) : Inv (s.goto t ph) l := by
  subst hph
  exact hi.quiet rfl ⟨rfl, rfl, rfl⟩ (hi.locks.goto hlocked) hold hown (fun _ _ _ _ => id) (by cases ph <;> exact here)

theorem Ready.lock (h : Ready s job) (hne : job.node ≠ some a) : Ready ((s.lock t a).goto t ph) job := by
  refine ⟨h.1, h.2.1, fun node hn => ⟨(h.2.2 node hn).1, (h.2.2 node hn).2.1, ?_⟩⟩
  have hna : node ≠ a := by
    rintro rfl
    exact hne hn
  exact (Function.update_of_ne hna _ _).trans (h.2.2 node hn).2.2

/-- A mutex is locked whose node belongs to nobody. -/
theorem Inv.lock (hi : Inv s l) (hph : s.phase t = ph₀) (free : s.mutex a = none)
    (hnot : ∀ u, (s.phase u).own ≠ some a) (hold : ∀ a b, ¬ ph₀.Pending a b)
    (hlocked : ∀ b, b ∈ ph.locked ↔ b = a ∨ b ∈ ph₀.locked) (hown : ∀ a, ph.own = some a → ph₀.own = some a)
    (here : Local ((s.lock t a).goto t ph) l ph) : Inv ((s.lock t a).goto t ph) l := by
  subst hph
  refine hi.quiet rfl ⟨rfl, rfl, rfl⟩ (hi.locks.lock free hlocked) hold hown (fun u _ b hb hfree => ?_) here
  have hba : b ≠ a := by
    rintro rfl
    exact hnot u hb
  exact (Function.update_of_ne hba _ _).trans hfree

theorem Inv.unlock (hi : Inv s l) (hph : s.phase t = ph₀) (held : a ∈ ph₀.locked) (hold : ∀ a b, ¬ ph₀.Pending a b)
    (hlocked : ∀ b, b ∈ ph.locked ↔ b ≠ a ∧ b ∈ ph₀.locked) (hown : ∀ a, ph.own = some a → ph₀.own = some a)
    (here : Local ((s.unlock a).goto t ph) l ph) : Inv ((s.unlock a).goto t ph) l := by
  subst hph
  refine hi.quiet rfl ⟨rfl, rfl, rfl⟩ (hi.locks.unlock held hlocked) hold hown (fun u _ b _ hfree => ?_) here
  by_cases hba : b = a
  · rw [hba]
    exact Function.update_self ..
  · exact (Function.update_of_ne hba _ _).trans hfree

theorem Inv.skip (hi : Inv s' l) (hph : s.phase t = ph₀) (hphase : s'.phase = Function.update s.phase t ph)
    (hstatus : ph.status = ph₀.status) (hkey : s'.key = s.key) : Follows s l t s' :=
  ⟨l, hi, view_skip hphase (by rw [hph, hstatus]) (by rw [hkey])⟩

theorem Inv.lockHead (hi : Inv s l) (hph : s.phase t = .lockHead job) (free : s.mutex head = none) :
    Follows s l t ((s.lock t head).goto t (.loadFirst job)) := by
  have hinv : Inv ((s.lock t head).goto t (.loadFirst job)) l := by
    refine hi.lock hph free (fun u => hi.head_not_own) (fun _ _ => id) (fun b => ?_) (fun _ => id) ?_
    · exact List.mem_cons
    · have hown : (s.phase t).own ≠ some head := hi.head_not_own
      rw [hph] at hown
      exact (hi.here_at hph).lock hown
  exact hinv.skip hph rfl rfl rfl

theorem Inv.loadFirst (hi : Inv s l) (hph : s.phase t = .loadFirst job) (hnext : s.next head = some curr) :
    Follows s l t (s.goto t (.lockCurr job head curr)) := by
  have hready : Ready s job := hi.here_at hph
  have hinv : Inv (s.goto t (.lockCurr job head curr)) l :=
    hi.goto hph (fun _ _ => id) (fun _ => Iff.rfl) (fun _ => id)
      ⟨hready, List.mem_cons_self, hnext, by rw [hi.ends.1]; exact hready.1⟩
  exact hinv.skip hph rfl rfl rfl

theorem Inv.lockCurr (hi : Inv s l) (hph : s.phase t = .lockCurr job prev curr) (free : s.mutex curr = none) :
    Follows s l t ((s.lock t curr).goto t (.testKey job prev curr)) := by
  obtain ⟨hready, hwindow⟩ : Ready s job ∧ Window s l job.key prev curr := hi.here_at hph
  have hnot : ∀ u, (s.phase u).own ≠ some curr := by
    intro u
    by_cases hu : u = t
    · intro hown
      obtain ⟨p, c, hu'⟩ := (hi.owned u curr hown).2 (.inr (hi.curr_listed hwindow))
      rw [hu, hph] at hu'
      cases hu'
    · exact hi.next_not_own hwindow.1 hwindow.2.1 (by rw [hph]; exact List.mem_singleton_self prev) hu
  have hinv : Inv ((s.lock t curr).goto t (.testKey job prev curr)) l := by
    refine hi.lock hph free hnot (fun _ _ => id) (fun b => ?_) (fun _ => id) ⟨hready.lock ?_, hwindow⟩
    · exact List.mem_pair.trans (or_comm.trans (or_congr_right List.mem_singleton.symm))
    · have hown := hnot t
      rw [hph] at hown
      exact hown
  exact hinv.skip hph rfl rfl rfl

theorem Inv.testKey (hi : Inv s l) (hph : s.phase t = .testKey job prev curr) :
    Follows s l t (s.goto t
        (if s.key curr < job.key then .passPrev job prev curr else .compareKey job prev curr)) := by
  obtain ⟨hready, hwindow⟩ : Ready s job ∧ Window s l job.key prev curr := hi.here_at hph
  by_cases hlt : s.key curr < job.key
  · rw [if_pos hlt]
    have hinv : Inv (s.goto t (.passPrev job prev curr)) l :=
      hi.goto hph (fun _ _ => id) (fun _ => Iff.rfl) (fun _ => id)
        ⟨hready, hwindow, hlt⟩
    exact hinv.skip hph rfl rfl rfl
  · rw [if_neg hlt]
    have hinv : Inv (s.goto t (.compareKey job prev curr)) l :=
      hi.goto hph (fun _ _ => id) (fun _ => Iff.rfl) (fun _ => id)
        ⟨hready, hwindow, Int.not_lt.mp hlt⟩
    exact hinv.skip hph rfl rfl rfl

theorem Ready.unlock (h : Ready s job) : Ready ((s.unlock a).goto t ph) job := by
  refine ⟨h.1, h.2.1, fun node hn => ⟨(h.2.2 node hn).1, (h.2.2 node hn).2.1, ?_⟩⟩
  by_cases hna : node = a
  · rw [hna]
    exact Function.update_self ..
  · exact (Function.update_of_ne hna _ _).trans (h.2.2 node hn).2.2

theorem Inv.passPrev (hi : Inv s l) (hph : s.phase t = .passPrev job prev curr) :
    Follows s l t ((s.unlock prev).goto t (.loadNext job curr)) := by
  obtain ⟨hready, hwindow, hlt⟩ : Ready s job ∧ Window s l job.key prev curr ∧ s.key curr < job.key := hi.here_at hph
  have hinv : Inv ((s.unlock prev).goto t (.loadNext job curr)) l :=
    hi.unlock hph List.mem_cons_self (fun _ _ => id) (mem_pair_ne (hi.prev_ne_curr hwindow)) (fun _ => id)
      ⟨hready.unlock, hi.curr_mem hwindow (hlt.trans hready.2.1), hlt⟩
  exact hinv.skip hph rfl rfl rfl

theorem Inv.loadNext (hi : Inv s l) (hph : s.phase t = .loadNext job curr) (hnext : s.next curr = some b) :
    Follows s l t (s.goto t (.lockCurr job curr b)) := by
  obtain ⟨hready, hcurr, hlt⟩ : Ready s job ∧ curr ∈ l ∧ s.key curr < job.key := hi.here_at hph
  have hinv : Inv (s.goto t (.lockCurr job curr b)) l :=
    hi.goto hph (fun _ _ => id) (fun _ => Iff.rfl) (fun _ => id)
      ⟨hready, List.mem_cons_of_mem _ hcurr, hnext, hlt⟩
  exact hinv.skip hph rfl rfl rfl

theorem Inv.compareKey (hi : Inv s l) (hph : s.phase t = .compareKey job prev curr) :
    Follows s l t (s.goto t (found prev curr (s.key curr) job)) := by
  obtain ⟨hready, hwindow, hle⟩ : Ready s job ∧ Window s l job.key prev curr ∧ job.key ≤ s.key curr := hi.here_at hph
  have hkeys : job.key ∈ keys s.key l ↔ s.key curr = job.key :=
    hi.chain.mem_keys_iff hi.edge_unique hwindow.1 (edge_of_window hwindow) hwindow.2.2 hle (hi.ends.2 ▸ hready.2.1)
  -- without an update the call ends here
  have hleave : ∀ res, Inv (s.goto t (.unlockPrev prev curr false res)) l := fun res =>
    hi.goto hph (fun _ _ => id) (fun _ => Iff.rfl) nofun
      ⟨hwindow.1, hi.prev_ne_curr hwindow, nofun, fun _ => hi.curr_listed hwindow⟩
  cases job with
  | add key node =>
    by_cases he : s.key curr = key
    · rw [found, if_pos he]
      exact ⟨l, hleave false, view_act rfl (by rw [hph]; rfl) rfl (add_present (hkeys.mpr he))⟩
    · rw [found, if_neg he]
      have hinv : Inv (s.goto t (.link key node prev curr)) l :=
        hi.goto hph (fun _ _ => id) (fun _ => Iff.rfl) (fun _ => id)
          ⟨hready.2.2 node rfl, hwindow, lt_of_le_of_ne hle (Ne.symm he)⟩
      exact hinv.skip hph rfl rfl rfl
  | remove key =>
    by_cases he : s.key curr = key
    · rw [found, if_neg (not_not.mpr he)]
      have hinv : Inv (s.goto t (.loadSucc key prev curr)) l :=
        hi.goto hph (fun _ _ => id) (fun _ => Iff.rfl) nofun ⟨hwindow, he, hready.2.1⟩
      exact hinv.skip hph rfl rfl rfl
    · rw [found, if_pos he]
      exact ⟨l, hleave false, view_act rfl (by rw [hph]; rfl) rfl (remove_absent fun hk => he (hkeys.mp hk))⟩
  | contains key =>
    have happly : intSet.apply (.contains key) (keys s.key l) = (decide (s.key curr = key), keys s.key l) :=
      Prod.ext (decide_eq_decide.mpr hkeys) rfl
    rw [found]
    exact ⟨l, hleave _, view_act rfl (by rw [hph]; rfl) rfl happly⟩

theorem Inv.own_not_listed (hi : Inv s l) (hown : (s.phase t).own = some a)
    (hold : ∀ a b, ¬ (s.phase t).Pending a b) : ¬ Listed l a := by
  intro hl
  obtain ⟨prev, curr, ht⟩ := (hi.owned t a hown).2 hl
  exact hold a curr (by rw [ht]; exact ⟨rfl, rfl⟩)

/-- A node that another thread has locked is not the one that is written to. -/
theorem Inv.locked_ne (hi : Inv s l) (hu : u ≠ t) (ha : a ∈ (s.phase t).locked) :
    (∀ b ∈ (s.phase u).locked, b ≠ a) ∧ ∀ b, s.mutex b = none → b ≠ a := by
  refine ⟨fun b hb he => hu (hi.locks.unique hb (he ▸ ha)), fun b hb he => ?_⟩
  rw [he, hi.locks.owner ha] at hb
  cases hb

theorem Inv.link {node : Addr} (hi : Inv s l) (hph : s.phase t = .link key node prev curr) :
    Follows s l t ((s.store prev node).goto t (.storeNext node prev curr)) := by
  obtain ⟨⟨hkey, hnone, hfree⟩, hwindow, hlt⟩ : Fresh s key node ∧ Window s l key prev curr ∧ key < s.key curr :=
    hi.here_at hph
  have hown : (s.phase t).own = some node := by rw [hph]; rfl
  have hpending : ∀ a b, ¬ (s.phase t).Pending a b := fun a b => by rw [hph]; exact id
  have hlocked : prev ∈ (s.phase t).locked := by rw [hph]; exact List.mem_cons_self
  have hnode : ¬ Listed l node := hi.own_not_listed hown hpending
  have hne : node ≠ prev := fun he => hnode (he ▸ mem_listed hwindow.1)
  have habsent : key ∉ keys s.key l := fun hk => hlt.ne' ((hi.chain.mem_keys_iff hi.edge_unique hwindow.1
    (edge_of_window hwindow) hwindow.2.2 hlt.le
      (hlt.trans_le (hi.chain.key_next_le hi.edge_unique hwindow.1 (edge_of_window hwindow)))).mp hk)
  have hlinked : Edge ((s.store prev node).goto t (.storeNext node prev curr)) prev node :=
    .inl (Function.update_self ..)
  have hnext : Edge ((s.store prev node).goto t (.storeNext node prev curr)) node curr :=
    .inr ⟨t, by rw [phase_self]; exact ⟨rfl, rfl⟩⟩
  obtain ⟨l', hchain, hperm⟩ := hi.chain.insert hi.edge_unique hwindow.1 (edge_of_window hwindow)
    (fun b _ hb d h => h.keep rfl (Function.update_of_ne hb _ _) (hpending b d)) hlinked hnext
    (by rw [hkey]; exact hwindow.2.2) (by rw [hkey]; exact hlt)
  have hlisted : ∀ a, Listed l' a → a = node ∨ Listed l a := by
    rintro a (h | h | h)
    · exact .inr (.inl h)
    · exact (List.mem_cons.mp (hperm.mem_iff.mp h)).imp id fun h => .inr (.inl h)
    · exact .inr (.inr (.inr h))
  have hmem : ∀ a ∈ l, a ∈ l' := fun a ha => hperm.mem_iff.mpr (List.mem_cons_of_mem node ha)
  refine ⟨l', hi.of_move rfl hchain hi.ends (fun a ha => ?_) (hi.locks.goto ?_) (fun a ha => ?_) (fun u hu a ha => ?_)
    ⟨?_, Function.update_self .., (Function.update_of_ne hne _ _).trans hnone, hfree, hi.prev_ne_curr hwindow,
      (hi.curr_listed hwindow).imp_left (hmem curr)⟩ fun u hu => ?_, view_act rfl (by rw [hph]; rfl) rfl ?_⟩
  · rcases hlisted a ha with rfl | ha
    · exact (hi.owned t a hown).1
    · exact hi.allocated a ha
  · rw [hph]
    exact fun _ => Iff.rfl
  · obtain rfl : node = a := Option.some.inj ha
    exact ⟨(hi.owned t node hown).1, fun _ => ⟨prev, curr, rfl⟩, fun u hu ho => hu (hi.apart u t node ho hown)⟩
  · refine ⟨(hi.owned u a ha).1, fun hl => (hlisted a hl).resolve_left ?_⟩
    rintro rfl
    exact hu (hi.apart u t a ha hown)
  · exact List.mem_cons.mpr ((List.mem_cons.mp hwindow.1).imp_right (hmem prev))
  · obtain ⟨hne', hne''⟩ := hi.locked_ne hu hlocked
    exact (hi.here u).frame (fun a _ => hmem a) (fun a ha => Function.update_of_ne (hne' a ha) _ _) (fun _ _ => rfl)
      fun a _ hn hf => ⟨(Function.update_of_ne (hne'' a hf) _ _).trans hn, hf⟩
  · rw [add_absent habsent]
    exact congrArg (Prod.mk true) (hkey ▸ (keys_of_perm hperm).symm)

theorem Inv.storeNext {node : Addr} (hi : Inv s l) (hph : s.phase t = .storeNext node prev curr) :
    Follows s l t ((s.store node curr).goto t (.unlockPrev prev curr false true)) := by
  obtain ⟨hprev, hlinked, hnone, hfree, hne, hcurr⟩ : prev ∈ head :: l ∧ s.next prev = some node ∧
    s.next node = none ∧ s.mutex node = none ∧ prev ≠ curr ∧ (curr ∈ l ∨ curr = tail) := hi.here_at hph
  have hown : (s.phase t).own = some node := by rw [hph]; rfl
  have hpending : Edge s node curr := .inr ⟨t, by rw [hph]; exact ⟨rfl, rfl⟩⟩
  have hedge : ∀ b c, Edge s b c → Edge ((s.store node curr).goto t (.unlockPrev prev curr false true)) b c := by
    intro b c h
    by_cases hb : b = node
    · subst hb
      obtain rfl := hi.edge_unique h hpending
      exact .inl (Function.update_self ..)
    · exact h.keep rfl (Function.update_of_ne hb _ _) (by rw [hph]; exact fun hp => hb hp.1)
  have hinv : Inv ((s.store node curr).goto t (.unlockPrev prev curr false true)) l := by
    refine hi.of_move rfl (hi.chain.congr (fun b _ => hedge b) (fun _ _ => rfl) rfl) hi.ends hi.allocated
      (hi.locks.goto ?_) nofun (fun u hu a ha => ⟨(hi.owned u a ha).1, id⟩)
      ⟨hprev, hne, nofun, fun _ => hcurr⟩ fun u hu => ?_
    · rw [hph]
      exact fun _ => Iff.rfl
    · have hlocked : ∀ a ∈ (s.phase u).locked, a ≠ node := by
        rintro a ha rfl
        have howner := hi.locks.owner ha
        rw [hfree] at howner
        cases howner
      refine (hi.here u).frame (fun _ _ => id) (fun a ha => Function.update_of_ne (hlocked a ha) _ _) (fun _ _ => rfl)
        fun a ha hn hf => ⟨(Function.update_of_ne ?_ _ _).trans hn, hf⟩
      rintro rfl
      exact hu (hi.apart u t a ha hown)
  exact hinv.skip hph rfl rfl rfl

/-- The node after one that a thread has locked has been linked with both stores. -/
theorem Inv.next_of_locked (hi : Inv s l) (hprev : prev ∈ head :: l) (hnext : s.next prev = some curr)
    (hlocked : prev ∈ (s.phase t).locked) (hpending : ∀ a b, ¬ (s.phase t).Pending a b) (hcurr : curr ∈ l) :
    ∃ succ, s.next curr = some succ := by
  obtain ⟨succ, hsucc | ⟨u, hsucc⟩⟩ := hi.chain.exists_next (List.mem_cons_of_mem head hcurr)
  · exact ⟨succ, hsucc⟩
  · obtain ⟨p, hu⟩ := hsucc.eq
    have hne : u ≠ t := by
      rintro rfl
      exact hpending curr succ hsucc
    exact absurd (by rw [hu]; rfl) (hi.next_not_own hprev hnext hlocked hne)

theorem Inv.loadSucc (hi : Inv s l) (hph : s.phase t = .loadSucc key prev curr) :
    Follows s l t (s.goto t (.unlink key prev curr (s.next curr))) := by
  obtain ⟨hwindow, hkey, hlt⟩ : Window s l key prev curr ∧ s.key curr = key ∧ key < intMax := hi.here_at hph
  have hinv : Inv (s.goto t (.unlink key prev curr (s.next curr))) l :=
    hi.goto hph (fun _ _ => id) (fun _ => Iff.rfl) nofun ⟨hwindow, hkey, hlt, rfl⟩
  exact hinv.skip hph rfl rfl rfl

theorem Inv.unlink {succ? : Option Addr} (hi : Inv s l) (hph : s.phase t = .unlink key prev curr succ?) :
    Follows s l t ((s.storeLink prev succ?).goto t (.unlockPrev prev curr true true)) := by
  obtain ⟨hwindow, hkey, hlt, hnext⟩ : Window s l key prev curr ∧ s.key curr = key ∧ key < intMax ∧
    s.next curr = succ? := hi.here_at hph
  have hpending : ∀ a b, ¬ (s.phase t).Pending a b := fun a b => by rw [hph]; exact id
  have hlocked : prev ∈ (s.phase t).locked := by rw [hph]; exact List.mem_cons_self
  have hlocked' : curr ∈ (s.phase t).locked := by rw [hph]; exact List.mem_cons_of_mem _ List.mem_cons_self
  have hcurr : curr ∈ l := hi.curr_mem hwindow (hkey ▸ hlt)
  have hpresent : key ∈ keys s.key l := mem_keys.mpr ⟨curr, hcurr, hkey⟩
  obtain ⟨succ, hsucc⟩ := hi.next_of_locked hwindow.1 hwindow.2.1 hlocked hpending hcurr
  obtain rfl : some succ = succ? := hsucc.symm.trans hnext
  have hlinked : Edge ((s.storeLink prev (some succ)).goto t (.unlockPrev prev curr true true)) prev succ :=
    .inl (Function.update_self ..)
  obtain ⟨l', hchain, hperm⟩ := hi.chain.remove hi.edge_unique hwindow.1 (edge_of_window hwindow) hcurr (.inl hsucc)
    (fun b _ hb d h => h.keep rfl (Function.update_of_ne hb _ _) (hpending b d)) hlinked
  have hlisted : ∀ a, Listed l' a → Listed l a := fun a =>
    Or.imp_right (Or.imp_left fun ha => hperm.mem_iff.mpr (List.mem_cons_of_mem curr ha))
  have hmem : ∀ a, a ≠ curr → a ∈ l → a ∈ l' := fun a hne ha =>
    (List.mem_cons.mp (hperm.mem_iff.mp ha)).resolve_left hne
  have hout : ¬ Listed l' curr := by
    rintro (h | h | h)
    · exact hi.chain.first_notMem (h ▸ hcurr)
    · exact (List.nodup_cons.mp (hperm.nodup_iff.mp hi.chain.nodup)).1 h
    · exact hi.chain.last_notMem (h ▸ List.mem_cons_of_mem head hcurr)
  refine ⟨l', hi.of_move rfl hchain hi.ends (fun a ha => hi.allocated a (hlisted a ha)) (hi.locks.goto ?_)
    (fun a ha => ?_) (fun u hu a ha => ⟨(hi.owned u a ha).1, hlisted a⟩)
    ⟨?_, hi.prev_ne_curr hwindow, fun _ => rfl, nofun⟩ fun u hu => ?_, view_act rfl (by rw [hph]; rfl) rfl ?_⟩
  · rw [hph]
    exact fun _ => Iff.rfl
  · obtain rfl : curr = a := Option.some.inj ha
    exact ⟨hi.allocated curr (.inr (.inl hcurr)), fun hl => absurd hl hout,
      fun u hu => hi.next_not_own hwindow.1 hwindow.2.1 hlocked hu⟩
  · exact List.mem_cons.mpr ((List.mem_cons.mp hwindow.1).imp_right (hmem prev (hi.prev_ne_curr hwindow)))
  · obtain ⟨hne, hne'⟩ := hi.locked_ne hu hlocked
    exact (hi.here u).frame (fun a ha => hmem a ((hi.locked_ne hu hlocked').1 a ha))
      (fun a ha => Function.update_of_ne (hne a ha) _ _) (fun _ _ => rfl)
      fun a _ hn hf => ⟨(Function.update_of_ne (hne' a hf) _ _).trans hn, hf⟩
  · rw [remove_present hpresent]
    exact congrArg (Prod.mk true) (hkey ▸ (hi.chain.keys_erase hperm).symm)

theorem Inv.unlockPrev (hi : Inv s l) (hph : s.phase t = .unlockPrev prev curr gone res) :
    Follows s l t ((s.unlock prev).goto t (.unlockCurr curr gone res)) := by
  obtain ⟨-, hne, hleaving⟩ : prev ∈ head :: l ∧ prev ≠ curr ∧ Leaving l curr gone res := hi.here_at hph
  have hinv : Inv ((s.unlock prev).goto t (.unlockCurr curr gone res)) l :=
    hi.unlock hph List.mem_cons_self (fun _ _ => id) (mem_pair_ne hne) (by cases gone <;> exact fun _ => id) hleaving
  exact hinv.skip hph rfl rfl rfl

theorem Inv.unlockCurr (hi : Inv s l) (hph : s.phase t = .unlockCurr curr gone res) :
    Follows s l t ((s.unlock curr).goto t (if gone then .free curr else .ret res)) := by
  have hleaving : Leaving l curr gone res := hi.here_at hph
  cases gone with
  | true =>
    obtain rfl := hleaving.1 rfl
    have hinv : Inv ((s.unlock curr).goto t (.free curr)) l :=
      hi.unlock hph List.mem_cons_self (fun _ _ => id) mem_nil_ne (fun _ => id) trivial
    exact hinv.skip hph rfl rfl rfl
  | false =>
    have hinv : Inv ((s.unlock curr).goto t (.ret res)) l :=
      hi.unlock hph List.mem_cons_self (fun _ _ => id) mem_nil_ne nofun trivial
    exact hinv.skip hph rfl rfl rfl

theorem Inv.free (hi : Inv s l) (hph : s.phase t = .free curr) : Follows s l t ((s.free curr).goto t (.ret true)) := by
  have hown : (s.phase t).own = some curr := by rw [hph]; rfl
  have hpending : ∀ a b, ¬ (s.phase t).Pending a b := fun a b => by rw [hph]; exact id
  have hout : ¬ Listed l curr := hi.own_not_listed hown hpending
  have hinv : Inv ((s.free curr).goto t (.ret true)) l := by
    refine hi.of_move rfl (hi.chain.congr (fun b _ d h => h.keep rfl rfl (hpending b d)) (fun _ _ => rfl) rfl) hi.ends
      (fun a ha => ?_) (hi.locks.goto ?_) nofun (fun u hu a ha => ⟨?_, id⟩) trivial fun u _ => ?_
    · have hne : a ≠ curr := by
        rintro rfl
        exact hout ha
      exact (Function.update_of_ne hne _ _).trans (hi.allocated a ha)
    · rw [hph]
      exact fun _ => Iff.rfl
    · have hne : a ≠ curr := by
        rintro rfl
        exact hu (hi.apart u t a ha hown)
      exact (Function.update_of_ne hne _ _).trans (hi.owned u a ha).1
    · exact (hi.here u).frame (fun _ _ => id) (fun _ _ => rfl) (fun _ _ => rfl) fun _ _ => .intro
  exact hinv.skip hph rfl rfl rfl

theorem Inv.malloc {node : Addr} (hi : Inv s l) (hph : s.phase t = .malloc key) (fresh : s.allocated node = false) :
    Follows s l t ((s.malloc node key).goto t (.lockHead (.add key node))) := by
  have hrange : intMin < key ∧ key < intMax := hi.here_at hph
  have hne : ∀ a, s.allocated a = true → a ≠ node := by
    rintro a ha rfl
    rw [fresh] at ha
    cases ha
  have hpending : ∀ a b, ¬ (s.phase t).Pending a b := fun a b => by rw [hph]; exact id
  have hkey : ∀ a, s.allocated a = true → ((s.malloc node key).goto t (.lockHead (.add key node))).key a = s.key a :=
    fun a ha => Function.update_of_ne (hne a ha) _ _
  have hlisted : ∀ a ∈ head :: l, s.allocated a = true := fun a ha => hi.allocated a (mem_listed ha)
  have hinv : Inv ((s.malloc node key).goto t (.lockHead (.add key node))) l := by
    refine hi.of_move rfl (hi.chain.congr (fun b hb d h =>
        h.keep rfl (Function.update_of_ne (hne b (hlisted b hb)) _ _) (hpending b d))
      (fun b hb => hkey b (hlisted b hb)) (hkey tail (hi.allocated tail (.inr (.inr rfl)))))
      ⟨?_, ?_⟩ (fun a ha => ?_) (hi.locks.malloc (fun u hu => ?_) ?_) (fun a ha => ?_)
      (fun u hu a ha => ⟨?_, id⟩) ⟨hrange.1, hrange.2, fun n hn => ?_⟩ fun u hu => ?_
    · exact (hkey head (hi.allocated head (.inl rfl))).trans hi.ends.1
    · exact (hkey tail (hi.allocated tail (.inr (.inr rfl)))).trans hi.ends.2
    · exact (Function.update_of_ne (hne a (hi.allocated a ha)) _ _).trans (hi.allocated a ha)
    · exact hne node (hi.locked_allocated hu) rfl
    · rw [hph]
      exact fun _ => Iff.rfl
    · obtain rfl : node = a := Option.some.inj ha
      exact ⟨Function.update_self .., fun hl => absurd rfl (hne node (hi.allocated node hl)),
        fun u _ ho => hne node (hi.owned u node ho).1 rfl⟩
    · exact (Function.update_of_ne (hne a (hi.owned u a ha).1) _ _).trans (hi.owned u a ha).1
    · obtain rfl : node = n := Option.some.inj hn
      exact ⟨Function.update_self .., Function.update_self .., Function.update_self ..⟩
    · refine (hi.here u).frame (fun _ _ => id) (fun a ha => Function.update_of_ne (hne a (hi.locked_allocated ha)) _ _)
        (fun a ha => hkey a (hi.refs_allocated (.inr ha))) fun a ha hn hf => ?_
      have hane : a ≠ node := hne a (hi.owned u a ha).1
      exact ⟨(Function.update_of_ne hane _ _).trans hn, (Function.update_of_ne hane _ _).trans hf⟩
  refine ⟨l, hinv, view_skip rfl (by rw [hph]; rfl) (keys_congr fun a ha => ?_)⟩
  exact hkey a (hlisted a (List.mem_cons_of_mem head ha))

end FineGrained
