import HyuIte4065.Optimistic.Moves

/-!
# The optimistic list is a set

Its calls are linearizable, and no thread follows a null pointer: inside an operation it can take
its next step unless it waits for a mutex.
-/
namespace Optimistic

open SortedList SortedChain Transition

variable {s s' : State Phase} {t : ThreadId} {l : List Addr} {ev : Atomic.Event ThreadId Op Bool}

theorem Inv.act (hi : Inv s l) (h : act s t = some s') : Follows s l t s' := by
  unfold Optimistic.act at h
  split at h
  case h_1 => cases h
  case h_2 => cases h
  case h_3 => cases h
  case h_4 job hph =>
    obtain ⟨curr, hnext, rfl⟩ := Option.map_eq_some_iff.mp h
    exact hi.loadFirst hph hnext
  case h_5 job prev curr hph => cases h; exact hi.testKey hph
  case h_6 job curr hph =>
    obtain ⟨next, hnext, rfl⟩ := Option.map_eq_some_iff.mp h
    exact hi.loadNext hph hnext
  case h_7 job prev curr hph =>
    obtain ⟨free, ⟨⟩⟩ := Option.ite_none_right_eq_some.mp h
    exact hi.lockPrev hph free
  case h_8 job prev curr hph =>
    obtain ⟨free, ⟨⟩⟩ := Option.ite_none_right_eq_some.mp h
    exact hi.lockCurr hph free
  case h_9 job prev curr it hph => cases h; exact hi.testIt hph
  case h_10 job prev curr it hph =>
    obtain ⟨next, hnext, rfl⟩ := Option.map_eq_some_iff.mp h
    exact hi.loadIt hph hnext
  case h_11 job prev curr hph => cases h; exact hi.checkNext hph
  case h_12 job prev curr hph => cases h; exact hi.failPrev hph
  case h_13 job curr hph => cases h; exact hi.failCurr hph
  case h_14 job prev curr hph => cases h; exact hi.compareKey hph
  case h_15 key node prev curr hph => cases h; exact hi.storeNext hph
  case h_16 key node prev curr hph => cases h; exact hi.link hph
  case h_17 key prev curr hph => cases h; exact hi.loadSucc hph
  case h_18 key prev curr succ hph => cases h; exact hi.unlink hph
  case h_19 prev curr res hph => cases h; exact hi.unlockPrev hph
  case h_20 curr res hph => cases h; exact hi.unlockCurr hph

/-- Every step keeps the invariant and is a step of the atomic set. -/
theorem Inv.step (hi : Inv s l) (h : Step s ev s') :
    ∃ l', Inv s' l' ∧ Guarded.Step intSet.guarded (view Phase.status s l) ev (view Phase.status s' l') := by
  cases h with
  | @call t op here lower upper =>
    have hstart : Local s l (start op) := by
      cases op with
      | add key => exact ⟨lower, upper⟩
      | remove key => exact ⟨lower, upper, nofun⟩
      | contains key => exact ⟨lower, upper, nofun⟩
    have hinv : Inv (s.goto t (start op)) l := by
      cases op <;> exact hi.goto here (fun _ => Iff.rfl) nofun nofun hstart
    exact ⟨l, hinv, view_call rfl (by rw [here]; rfl) (by cases op <;> rfl) rfl⟩
  | malloc here fresh => exact hi.malloc here fresh
  | act acts => exact hi.act acts
  | @ret t res here =>
    exact ⟨l, hi.goto here (fun _ => Iff.rfl) nofun nofun trivial, view_ret rfl (by rw [here]; rfl) rfl rfl⟩

theorem Inv.new : Inv (.listInit .idle) [] where
  chain := .last rfl (by decide)
  ends := ⟨rfl, rfl⟩
  last := rfl
  live := by
    have hhead : Live (State.listInit Phase.idle) head := ⟨rfl, .inr ⟨tail, rfl⟩⟩
    have htail : Live (State.listInit Phase.idle) tail := ⟨rfl, .inl rfl⟩
    rintro a (rfl | rfl | ⟨b, hb⟩ | ⟨u, hu⟩)
    · exact hhead
    · exact htail
    · obtain ⟨-, hb⟩ := Option.ite_none_right_eq_some.mp hb
      exact Option.some.inj hb ▸ htail
    · cases hu
  hidden := nofun
  apart := nofun
  locks := locks_listInit Phase.idle rfl
  here _ := trivial

theorem inv_of_reachable (hs : Reachable optimisticSystem s) : ∃ l, Inv s l := by
  refine hs.invariant (I := fun s => ∃ l, Inv s l) ?_ fun s ev s' _ ⟨l, hi⟩ h => ?_
  · rintro s rfl
    exact ⟨[], .new⟩
  · obtain ⟨l', hi', -⟩ := hi.step h
    exact ⟨l', hi'⟩

/-- The mutex that the thread waits for is taken. -/
def Blocked (s : State Phase) (t : ThreadId) : Prop := ∃ a u, (s.phase t).awaits = some a ∧ s.mutex a = some u

def Phase.inside : Phase → Bool
  | .idle | .malloc _ | .ret _ => false
  | _ => true

theorem Inv.next_of_lt (hi : Inv s l) {a : Addr} (hknown : Known s a) (hlt : s.key a < intMax) :
    ∃ b, s.next a = some b := by
  refine (hi.live a hknown).2.resolve_left ?_
  rintro rfl
  exact absurd hlt hi.ends.2.not_lt

/-- No thread follows a null pointer. -/
theorem Inv.act_or_blocked (hi : Inv s l) (hin : (s.phase t).inside = true) :
    (∃ s', Optimistic.act s t = some s') ∨ Blocked s t := by
  have hlocal := hi.here t
  have hrefs := refs_known (s := s) (t := t) rfl
  cases hph : s.phase t <;> rw [hph] at hin hlocal hrefs <;> try cases hin
  case loadFirst job =>
    obtain ⟨b, hb⟩ := hi.next_of_lt (.inl rfl) (by rw [hi.ends.1]; decide)
    exact .inl ⟨_, by rw [Optimistic.act, hph]; exact Option.map_eq_some_iff.mpr ⟨b, hb, rfl⟩⟩
  case loadNext job curr =>
    obtain ⟨b, hb⟩ := hi.next_of_lt (hrefs curr List.mem_cons_self) (hlocal.2.trans hlocal.1.2.1)
    exact .inl ⟨_, by rw [Optimistic.act, hph]; exact Option.map_eq_some_iff.mpr ⟨b, hb, rfl⟩⟩
  case loadIt job prev curr it =>
    obtain ⟨hready, hgap, -, -, hle⟩ := hlocal
    have hit : Known s it := hrefs it (List.mem_cons_of_mem _ (List.mem_cons_of_mem _ List.mem_cons_self))
    obtain ⟨b, hb⟩ := hi.next_of_lt hit (hle.trans_lt (hgap.1.trans hready.2.1))
    exact .inl ⟨_, by rw [Optimistic.act, hph]; exact Option.map_eq_some_iff.mpr ⟨b, hb, rfl⟩⟩
  case lockPrev job prev curr =>
    cases howner : s.mutex prev with
    | none => exact .inl ⟨_, by rw [Optimistic.act, hph]; exact if_pos howner⟩
    | some u => exact .inr ⟨prev, u, by rw [hph]; rfl, howner⟩
  case lockCurr job prev curr =>
    cases howner : s.mutex curr with
    | none => exact .inl ⟨_, by rw [Optimistic.act, hph]; exact if_pos howner⟩
    | some u => exact .inr ⟨curr, u, by rw [hph]; rfl, howner⟩
  all_goals exact .inl ⟨_, by rw [Optimistic.act, hph]⟩

def ShowsSet (s : State Phase) (set : Finset Int) : Prop :=
  ∃ l, Chain (Edge s) s.key tail head l ∧ keys s.key l = set

/-- The chain is sorted at every moment, a thread inside a call can go on unless it waits for a lock,
and every execution is one of the atomic set, failed validations and all. -/
theorem optimistic_linearizable :
    (∀ s, Reachable optimisticSystem s → (∃ l, Chain (Edge s) s.key tail head l) ∧
      ∀ t, (s.phase t).inside = true → (∃ s', act s t = some s') ∨ Blocked s t) ∧
    Atomic.Linearizable intSet optimisticSystem ShowsSet := by
  refine ⟨fun s hs => ?_, ?_⟩
  · obtain ⟨l, hi⟩ := inv_of_reachable hs
    exact ⟨⟨l, hi.chain⟩, fun t => hi.act_or_blocked⟩
  · refine Refines.of_simulation (fun s a => ∃ l, Inv s l ∧ a = view Phase.status s l) ?_ ?_ ?_
    · rintro s rfl
      exact ⟨_, rfl, [], .new, rfl⟩
    · rintro s a ev s' ⟨l, hi, rfl⟩ h
      obtain ⟨l', hi', hstep⟩ := hi.step h
      exact ⟨_, hstep, l', hi', rfl⟩
    · rintro s a ⟨l, hi, rfl⟩
      exact ⟨l, hi.chain, rfl⟩

/-- The next step of the threads in turn; `malloc` returns the address 2 to thread 0 and 3 to thread 1. -/
def schedule (s : State Phase) : Atomic.Event ThreadId Op Bool → Option (State Phase)
  | .call t op =>
    if s.phase t = .idle ∧ intMin < op.key ∧ op.key < intMax then some (s.goto t (start op)) else none
  | .inner t =>
    match s.phase t with
    | .malloc key =>
      if s.allocated (t + 2) = false then
        some ((s.malloc (t + 2) key).goto t (.loadFirst (.add key (t + 2))))
      else none
    | _ => act s t
  | .ret t res => if s.phase t = .ret res then some (s.goto t .idle) else none

theorem step_schedule (h : schedule s ev = some s') : Step s ev s' := by
  unfold schedule at h
  split at h
  · obtain ⟨⟨here, lower, upper⟩, ⟨⟩⟩ := Option.ite_none_right_eq_some.mp h
    exact .call here lower upper
  · split at h
    · rename_i here
      obtain ⟨fresh, ⟨⟩⟩ := Option.ite_none_right_eq_some.mp h
      exact .malloc here fresh
    · exact .act h
  · obtain ⟨here, ⟨⟩⟩ := Option.ite_none_right_eq_some.mp h
    exact .ret here

/-- Thread 0 finds the place for 7, then thread 1 adds 5 there, then thread 0 locks the two nodes and
validates. -/
def overtaken : List (Atomic.Event ThreadId Op Bool) :=
  [.call 0 (.add 7), .inner 0, .inner 0, .inner 0, .call 1 (.add 5)] ++ List.replicate 12 (.inner 1) ++
    [.ret 1 true] ++ List.replicate 4 (.inner 0)

/-- `list_add(5)` has returned, and the validation of `list_add(7)` has failed. -/
theorem optimistic_linearizable_overtaken : ∃ s, Reachable optimisticSystem s ∧
    s.phase 0 = .failPrev (.add 7 2) head tail ∧ s.phase 1 = .idle ∧ s.next head = some 3 ∧
    (∃ l, Chain (Edge s) s.key tail head l) ∧ ((∃ s', act s 0 = some s') ∨ Blocked s 0) := by
  have hrun : (overtaken.foldlM schedule (.listInit .idle)).map
      (fun s => (s.phase 0, s.phase 1, s.next head)) =
      some (.failPrev (.add 7 2) head tail, .idle, some 3) := by decide +kernel
  obtain ⟨s, hs, he⟩ := Option.map_eq_some_iff.mp hrun
  simp only [Prod.mk.injEq] at he
  obtain ⟨hfail, hidle, hhead⟩ := he
  have hreach : Reachable optimisticSystem s :=
    Reachable.foldlM (fun _ ev _ h => ⟨ev, step_schedule h⟩) (.init rfl) hs
  obtain ⟨hchain, hmove⟩ := optimistic_linearizable.1 s hreach
  exact ⟨s, hreach, hfail, hidle, hhead, hchain, hmove 0 (by rw [hfail]; rfl)⟩

end Optimistic
