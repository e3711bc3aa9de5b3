import HyuIte4065.Optimistic.Steps
import HyuIte4065.SortedList.Alone

/-!
# Calls one after another on the optimistic list

A call of `optimistic.cpp` that no other thread disturbs: its first validation succeeds.
-/
namespace Optimistic

open SortedList Total Threads

def Phase.result : Phase → Option Bool
  | .ret res => some res
  | _ => none

/-- The first thread makes the calls. -/
def threads : Threads Phase where
  idle := .idle
  start := start
  ret := .ret
  result := Phase.result
  locked := Phase.locked
  inner s s' := Step s (.inner 0) s'

variable {n : Nodes} {l : List Addr} {Q : Bool → Nodes → Prop} {s s' : State Phase} {key : Int}
  {node prev curr : Addr} {job : Job} {res : Bool}

theorem only_act (h : act s 0 = some s') : Only threads.inner s s' := by
  refine ⟨.act h, fun s'' hs => ?_⟩
  cases hs with
  | malloc here => simp only [act, here, reduceCtorEq] at h
  | act acts => exact Option.some.inj (acts.symm.trans h)

theorem returns_leave (hne : prev ≠ curr) (hb : n.Bounded) (h : Q res n) :
    threads.Returns Q (threads.alone n (.unlockPrev prev curr res)) := by
  refine ends_unlock (only_act rfl) ?_ (ends_unlock (only_act rfl) ?_ (.done ⟨res, n, rfl, hb, h⟩))
  · exact mem_pair_ne hne
  · exact mem_nil_ne

theorem returns_found (h : Holds n l) (w : Spot n l job.key prev curr) (hb : n.Bounded)
    (hnode : ∀ node, job.node = some node →
      n.key node = job.key ∧ n.allocated node = true ∧ node ∉ head :: tail :: l) :
    threads.Returns (Outcome n l job.op) (threads.alone n (.compareKey job prev curr)) := by
  have hne : prev ≠ curr := w.prev_ne_curr h
  cases job with
  | add key node =>
    obtain ⟨hkey, halloc, hout⟩ := hnode node rfl
    refine ends_branch (only_act rfl) (fun _ => Iff.rfl) (fun _ => Iff.rfl) (fun he => ?_) fun he => ?_
    · exact returns_leave hne hb (w.add_present h he)
    · refine ends_store (only_act rfl) (fun _ => Iff.rfl) (ends_store (only_act rfl) (fun _ => Iff.rfl) ?_)
      have hprev : prev ≠ node := fun hp => hout (hp ▸ List.mem_cons.mpr
        ((List.mem_cons.mp w.mem).imp_right (List.mem_cons_of_mem tail)))
      rw [← store_comm hprev]
      exact returns_leave hne hb (w.add_absent h he hkey halloc hout)
  | remove key =>
    refine ends_branch (only_act rfl) (fun _ => Iff.rfl) (fun _ => Iff.rfl) (fun he => ?_) fun he => ?_
    · exact returns_leave hne hb (w.remove_absent h he)
    · refine ends_goto (only_act rfl) (fun _ => Iff.rfl) (ends_store (only_act rfl) (fun _ => Iff.rfl) ?_)
      exact returns_leave hne hb (w.remove_present h (not_not.mp he))
  | contains key =>
    refine ends_goto (only_act rfl) (fun _ => Iff.rfl) ?_
    exact returns_leave hne hb (w.contains h)

/-- `list_validate` finds the node before the place of the key, and the next one behind it. -/
theorem returns_validate (h : Holds n l) (w : Spot n l key prev curr)
    (rest : threads.Returns Q (threads.alone n (.compareKey job prev curr))) :
    threads.Returns Q (threads.alone n (.testIt job prev curr head)) := by
  refine h.chain.walk (Q := fun it => threads.Returns Q (threads.alone n (.testIt job prev curr it))) w.mem ?_
    fun it hit next edge hlt hnext => ?_
  · have hcheck : threads.Returns Q (threads.alone n (.checkNext job prev curr)) := by
      refine ends_branch (only_act rfl) (fun _ => Iff.rfl) (fun _ => Iff.rfl) (fun _ => rest) fun hne => ?_
      exact absurd w.edge hne
    have hif : (if n.key prev ≤ n.key prev then
        if prev = prev then Phase.checkNext job prev curr else .loadIt job prev curr prev
      else .failPrev job prev curr) = .checkNext job prev curr := by rw [if_pos le_rfl, if_pos rfl]
    exact ends_goto (only_act (congrArg (fun ph => some ((threads.alone n _).goto 0 ph)) hif))
      (fun _ => Iff.rfl) hcheck
  · have hne : it ≠ prev := fun he => lt_irrefl _ (he ▸ hlt)
    have hif : (if n.key it ≤ n.key prev then
        if it = prev then Phase.checkNext job prev curr else .loadIt job prev curr it
      else .failPrev job prev curr) = .loadIt job prev curr it := by rw [if_pos (h.key_le hit w.mem hlt), if_neg hne]
    refine ends_goto (only_act (congrArg (fun ph => some ((threads.alone n _).goto 0 ph)) hif)) (fun _ => Iff.rfl) ?_
    exact ends_goto (only_act (congrArg (Option.map _) edge)) (fun _ => Iff.rfl) hnext

theorem returns_search (h : Holds n l) (lower : intMin ≤ job.key) (upper : job.key ≤ intMax)
    (found : ∀ prev curr, Spot n l job.key prev curr →
      threads.Returns Q (threads.alone n (.compareKey job prev curr))) :
    threads.Returns Q (threads.alone n (.loadFirst job)) := by
  have hsearch : ∃ first, n.next head = some first ∧
      threads.Returns Q (threads.alone n (.testKey job head first)) := by
    refine h.search (Q := fun prev curr => threads.Returns Q (threads.alone n (.testKey job prev curr))) lower upper
      (fun prev curr w => ?_) fun prev _ curr _ next _ hnext hlt hrest => ?_
    · refine ends_branch (only_act rfl) (fun _ => Iff.rfl) (fun _ => Iff.rfl) (fun hlt => absurd w.le (not_le.mpr hlt))
        fun _ => ?_
      have hne : curr ≠ prev := (w.prev_ne_curr h).symm
      refine ends_lock (only_act rfl) (fun b => List.mem_cons) ?_
      refine ends_lock (only_act (if_pos (mutex_alone ?_))) mem_lock (returns_validate h w (found prev curr w))
      exact fun hmem => hne (List.mem_singleton.mp hmem)
    · refine ends_branch (only_act rfl) (fun _ => Iff.rfl) (fun _ => Iff.rfl) (fun _ => ?_) fun hle => absurd hlt hle
      exact ends_goto (only_act (congrArg (Option.map _) hnext)) (fun _ => Iff.rfl) hrest
  obtain ⟨first, hfirst, hrest⟩ := hsearch
  exact ends_goto (only_act (congrArg (Option.map _) hfirst)) (fun _ => Iff.rfl) hrest

theorem serve {op : Op} (h : Holds n l) (hb : n.Bounded) (lower : intMin ≤ op.key) (upper : op.key ≤ intMax) :
    threads.Returns (Outcome n l op) (threads.alone n (start op)) := by
  cases op with
  | add key =>
    refine returns_malloc (f := fun node => .loadFirst (.add key node)) rfl (fun _ => rfl) (fun s' => ?_) h hb
      fun node fresh => ?_
    · constructor
      · intro hs
        cases hs with
        | @malloc _ key' node here fresh =>
          obtain rfl : key = key' := Phase.malloc.inj (phase_alone.symm.trans here)
          exact ⟨node, fresh, rfl⟩
        | act acts => cases acts
      · rintro ⟨node, fresh, rfl⟩
        exact .malloc phase_alone fresh
    · refine returns_search (h.malloc fresh) lower upper fun prev curr w =>
        returns_found (h.malloc fresh) w hb.malloc ?_
      rintro _ ⟨⟩
      exact ⟨Function.update_self .., Function.update_self .., h.fresh fresh⟩
  | remove key =>
    exact returns_search h lower upper fun prev curr w => returns_found h w hb nofun
  | contains key =>
    exact returns_search h lower upper fun prev curr w => returns_found h w hb nofun

theorem correct : threads.machine.Correct threads.Rests := by
  refine Threads.correct (fun op => by cases op <;> rfl) rfl (fun _ => rfl) (fun _ => rfl) ?_
    fun n l op h hb lower upper => serve h hb lower upper
  intro s res hres s' hs
  have hph : s.phase 0 = .ret res := by
    cases hph : s.phase 0 <;> rw [hph] at hres <;> cases hres
    rfl
  cases hs with
  | malloc here => rw [hph] at here; cases here
  | act acts => simp only [act, hph, reduceCtorEq] at acts

end Optimistic
