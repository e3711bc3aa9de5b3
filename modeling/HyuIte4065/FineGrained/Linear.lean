import HyuIte4065.FineGrained.Moves
import HyuIte4065.Library.Graph

/-!
# The hand-over-hand locked list is a set

Its calls are linearizable, no thread uses a node that has been freed, and the threads never wait
for each other in a circle, because a thread that waits for a node has locked the one before it.
-/
namespace FineGrained

open SortedList SortedChain Transition

variable {s s' : State Phase} {t : ThreadId} {l : List Addr} {ev : Atomic.Event ThreadId Op Bool}

theorem Inv.act (hi : Inv s l) (h : act s t = some s') : Follows s l t s' := by
  unfold FineGrained.act at h
  split at h
  case h_1 => cases h
  case h_2 => cases h
  case h_3 => cases h
  case h_4 job hph =>
    obtain ⟨free, ⟨⟩⟩ := Option.ite_none_right_eq_some.mp h
    exact hi.lockHead hph free
  case h_5 job hph =>
    obtain ⟨curr, hnext, rfl⟩ := Option.map_eq_some_iff.mp h
    exact hi.loadFirst hph hnext
  case h_6 job prev curr hph =>
    obtain ⟨free, ⟨⟩⟩ := Option.ite_none_right_eq_some.mp h
    exact hi.lockCurr hph free
  case h_7 job prev curr hph => cases h; exact hi.testKey hph
  case h_8 job prev curr hph => cases h; exact hi.passPrev hph
  case h_9 job curr hph =>
    obtain ⟨next, hnext, rfl⟩ := Option.map_eq_some_iff.mp h
    exact hi.loadNext hph hnext
  case h_10 job prev curr hph => cases h; exact hi.compareKey hph
  case h_11 key node prev curr hph => cases h; exact hi.link hph
  case h_12 node prev curr hph => cases h; exact hi.storeNext hph
  case h_13 key prev curr hph => cases h; exact hi.loadSucc hph
  case h_14 key prev curr succ hph => cases h; exact hi.unlink hph
  case h_15 prev curr gone res hph => cases h; exact hi.unlockPrev hph
  case h_16 curr gone res hph => cases h; exact hi.unlockCurr hph
  case h_17 curr hph => cases h; exact hi.free hph

/-- Every step keeps the invariant and is a step of the atomic set. -/
theorem Inv.step (hi : Inv s l) (h : Step s ev s') :
    ∃ l', Inv s' l' ∧ Guarded.Step intSet.guarded (view Phase.status s l) ev (view Phase.status s' l') := by
  cases h with
  | @call t op here lower upper =>
    have hstart : Local s l (start op) := by
      cases op with
      | add key => exact ⟨lower, upper⟩
      | remove key => exact ⟨lower, upper, nofun⟩
      | contains key => exact ⟨lower, upper, nofun⟩
    have hinv : Inv (s.goto t (start op)) l := by
      cases op <;> exact hi.goto here (fun _ _ => id) (fun _ => Iff.rfl) nofun hstart
    exact ⟨l, hinv, view_call rfl (by rw [here]; rfl) (by cases op <;> rfl) rfl⟩
  | malloc here fresh => exact hi.malloc here fresh
  | act acts => exact hi.act acts
  | @ret t res here =>
    exact ⟨l, hi.goto here (fun _ _ => id) (fun _ => Iff.rfl) nofun trivial,
      view_ret rfl (by rw [here]; rfl) rfl rfl⟩

theorem Inv.new : Inv (.listInit .idle) [] where
  chain := .last (.inl rfl) (by decide)
  ends := ⟨rfl, rfl⟩
  allocated := by
    rintro a (rfl | h | rfl)
    · rfl
    · cases h
    · rfl
  locks := locks_listInit Phase.idle rfl
  owned := nofun
  apart := nofun
  here _ := trivial

theorem inv_of_reachable (hs : Reachable fineSystem s) : ∃ l, Inv s l := by
  refine hs.invariant (I := fun s => ∃ l, Inv s l) ?_ fun s ev s' _ ⟨l, hi⟩ h => ?_
  · rintro s rfl
    exact ⟨[], .new⟩
  · obtain ⟨l', hi', -⟩ := hi.step h
    exact ⟨l', hi'⟩

/-- While a thread waits for a node, it has locked the node before it or nothing at all. -/
theorem Inv.waits_rises (hi : Inv s l) {u v : ThreadId} (htu : Waits s t u) (huv : Waits s u v) :
    ((s.phase t).awaits.map s.key).getD 0 < ((s.phase u).awaits.map s.key).getD 0 := by
  obtain ⟨a, hta, ha⟩ := htu
  obtain ⟨b, hub, -⟩ := huv
  have hlocked : a ∈ (s.phase u).locked := (hi.locks a u).mp ha
  have hlocal := hi.here u
  rw [hta, hub]
  show s.key a < s.key b
  unfold Phase.awaits at hub
  split at hub
  case h_1 hu =>
    rw [hu] at hlocked
    cases hlocked
  case h_2 job prev curr hu =>
    cases hub
    rw [hu] at hlocked hlocal
    obtain rfl := List.mem_singleton.mp hlocked
    exact hi.chain.rises hi.edge_unique hlocal.2.1 (edge_of_window hlocal.2)
  case h_3 => cases hub

/-- The chain is sorted and ends at `tail` when a node that is being linked counts with the
successor that it is going to have. -/
def ShowsSet (s : State Phase) (set : Finset Int) : Prop :=
  ∃ l, Chain (Edge s) s.key tail head l ∧ keys s.key l = set

/-- When a node is freed, it is not in the list and no other thread refers to it. -/
theorem Inv.free_alone (hi : Inv s l) {curr : Addr} (hph : s.phase t = .free curr) :
    ¬ Listed l curr ∧ ∀ u ≠ t, curr ∉ (s.phase u).refs := by
  have hown : (s.phase t).own = some curr := by rw [hph]; rfl
  have hout : ¬ Listed l curr := hi.own_not_listed hown fun a b => by rw [hph]; exact id
  refine ⟨hout, fun u hu hr => ?_⟩
  rcases hi.refs hr with hl | ho
  · exact hout hl
  · exact hu (hi.apart u t curr ho hown)

/-- The nodes of the list, without the one that is about to be freed, and no others are used; no threads
wait for each other in a circle; and every execution is one of the atomic set. -/
theorem fine_linearizable :
    (∀ s, Reachable fineSystem s →
      (∃ l, Chain (Edge s) s.key tail head l ∧ (∀ a, Listed l a → s.allocated a = true) ∧
        ∀ t curr, s.phase t = .free curr → ¬ Listed l curr ∧ ∀ u ≠ t, curr ∉ (s.phase u).refs) ∧
      (∀ t, ∀ a ∈ (s.phase t).touches, s.allocated a = true) ∧ Graph.Acyclic (Waits s)) ∧
    Atomic.Linearizable intSet fineSystem ShowsSet := by
  refine ⟨fun s hs => ?_, ?_⟩
  · obtain ⟨l, hi⟩ := inv_of_reachable hs
    exact ⟨⟨l, hi.chain, hi.allocated, fun t curr hph => hi.free_alone hph⟩,
      fun t a ha => hi.refs_allocated (Phase.touches_refs ha),
      Graph.Acyclic.of_rank _ fun t u v htu huv => hi.waits_rises htu huv⟩
  · refine Refines.of_simulation (fun s a => ∃ l, Inv s l ∧ a = view Phase.status s l) ?_ ?_ ?_
    · rintro s rfl
      exact ⟨_, rfl, [], .new, rfl⟩
    · rintro s a ev s' ⟨l, hi, rfl⟩ h
      obtain ⟨l', hi', hstep⟩ := hi.step h
      exact ⟨_, hstep, l', hi', rfl⟩
    · rintro s a ⟨l, hi, rfl⟩
      exact ⟨l, hi.chain, rfl⟩

/-- A thread has called `list_add(5)` and `malloc` has returned the address 2. -/
def adding : State Phase :=
  (((State.listInit Phase.idle).goto 0 (.malloc 5)).malloc 2 5).goto 0 (.lockHead (.add 5 2))

theorem reachable_adding : Reachable fineSystem adding := by
  have hcall : Step (.listInit .idle) (.call 0 (.add 5)) ((State.listInit Phase.idle).goto 0 (.malloc 5)) :=
    .call rfl (by decide) (by decide)
  have hmalloc : Step ((State.listInit Phase.idle).goto 0 (.malloc 5)) (.inner 0) adding := .malloc rfl rfl
  exact .step _ (.step _ (.init rfl) hcall) hmalloc

/-- Between the two stores of `list_add` the `next` of the new node leads nowhere. -/
theorem chain_broken_adding : ∃ s, Reachable fineSystem s ∧
    ¬ ∃ l, Chain (fun a b => s.next a = some b) s.key tail head l := by
  have hrun : ((List.replicate 6 0).foldlM act adding).map (fun s => (s.next head, s.next 2)) =
      some (some 2, none) := by decide +kernel
  obtain ⟨s, hs, he⟩ := Option.map_eq_some_iff.mp hrun
  obtain ⟨hhead, hnode⟩ := Prod.mk.inj he
  refine ⟨s, reachable_adding.foldlM (fun _ t _ ht => ⟨.inner t, .act ht⟩) hs, ?_⟩
  rintro ⟨l, hl⟩
  cases hl with
  | last edge =>
    rw [hhead] at edge
    cases edge
  | cons edge _ rest =>
    rw [hhead] at edge
    cases edge
    cases rest with
    | last edge =>
      rw [hnode] at edge
      cases edge
    | cons edge =>
      rw [hnode] at edge
      cases edge

theorem fine_linearizable_adding : ∃ s, Reachable fineSystem s ∧ s.next 2 = none ∧
    ∃ l, Chain (Edge s) s.key tail head l := by
  have hrun : ((List.replicate 6 0).foldlM act adding).map (fun s => s.next 2) = some none := by decide +kernel
  obtain ⟨s, hs, he⟩ := Option.map_eq_some_iff.mp hrun
  have hreach : Reachable fineSystem s := reachable_adding.foldlM (fun _ t _ ht => ⟨.inner t, .act ht⟩) hs
  obtain ⟨l, hl, -⟩ := (fine_linearizable.1 s hreach).1
  exact ⟨s, hreach, he, l, hl⟩

end FineGrained
