import HyuIte4065.FineGrained.Steps
import HyuIte4065.SortedList.Alone

/-!
# Calls one after another, locked hand over hand

A call of `fine_grained.cpp` that no other thread disturbs.
-/
namespace FineGrained

open SortedList Total Threads

def Phase.result : Phase → Option Bool
  | .ret res => some res
  | _ => none

/-- The first thread makes the calls. -/
def threads : Threads Phase where
  idle := .idle
  start := start
  ret := .ret
  result := Phase.result
  locked := Phase.locked
  inner s s' := Step s (.inner 0) s'

variable {n : Nodes} {l : List Addr} {Q : Bool → Nodes → Prop} {s s' : State Phase} {key : Int}
  {node prev curr : Addr} {job : Job} {gone res : Bool}

theorem only_act (h : act s 0 = some s') : Only threads.inner s s' := by
  refine ⟨.act h, fun s'' hs => ?_⟩
  cases hs with
  | malloc here => simp only [act, here, reduceCtorEq] at h
  | act acts => exact Option.some.inj (acts.symm.trans h)

theorem returns_leave (hne : prev ≠ curr) (hb : n.Bounded) (h : gone = false → Q res n)
    (hgone : gone = true → res = true ∧ Q true (n.free curr)) :
    threads.Returns Q (threads.alone n (.unlockPrev prev curr gone res)) := by
  refine ends_unlock (only_act rfl) ?_ (ends_unlock (only_act rfl) ?_ ?_)
  · exact mem_pair_ne hne
  · cases gone <;> exact mem_nil_ne
  · cases gone with
    | false => exact .done ⟨res, n, rfl, hb, h rfl⟩
    | true =>
      obtain ⟨rfl, hQ⟩ := hgone rfl
      exact ends_free (only_act rfl) (fun _ => Iff.rfl) (.done ⟨true, _, rfl, Nodes.Bounded.free hb, hQ⟩)

theorem returns_found (h : Holds n l) (w : Spot n l job.key prev curr) (hb : n.Bounded)
    (hnode : ∀ node, job.node = some node →
      n.key node = job.key ∧ n.allocated node = true ∧ node ∉ head :: tail :: l) :
    threads.Returns (Outcome n l job.op) (threads.alone n (.compareKey job prev curr)) := by
  have hne : prev ≠ curr := w.prev_ne_curr h
  cases job with
  | add key node =>
    obtain ⟨hkey, halloc, hout⟩ := hnode node rfl
    refine ends_branch (only_act rfl) (fun _ => Iff.rfl) (fun _ => Iff.rfl) (fun he => ?_) fun he => ?_
    · exact returns_leave hne hb (fun _ => w.add_present h he) nofun
    · refine ends_store (only_act rfl) (fun _ => Iff.rfl) (ends_store (only_act rfl) (fun _ => Iff.rfl) ?_)
      exact returns_leave hne hb (fun _ => w.add_absent h he hkey halloc hout) nofun
  | remove key =>
    refine ends_branch (only_act rfl) (fun _ => Iff.rfl) (fun _ => Iff.rfl) (fun he => ?_) fun he => ?_
    · exact returns_leave hne hb (fun _ => w.remove_absent h he) nofun
    · refine ends_goto (only_act rfl) (fun _ => Iff.rfl) (ends_store (only_act rfl) (fun _ => Iff.rfl) ?_)
      exact returns_leave hne hb nofun fun _ => ⟨rfl, w.remove_freed h (not_not.mp he)⟩
  | contains key =>
    refine ends_goto (only_act rfl) (fun _ => Iff.rfl) ?_
    exact returns_leave hne hb (fun _ => w.contains h) nofun

/-- The search, two locked nodes at a time. -/
theorem returns_search (h : Holds n l) (lower : intMin ≤ job.key) (upper : job.key ≤ intMax)
    (found : ∀ prev curr, Spot n l job.key prev curr →
      threads.Returns Q (threads.alone n (.compareKey job prev curr))) :
    threads.Returns Q (threads.alone n (.lockHead job)) := by
  have hlock : ∀ prev ∈ head :: l, ∀ curr, n.next prev = some curr →
      threads.Returns Q (threads.alone n (.testKey job prev curr)) →
      threads.Returns Q (threads.alone n (.lockCurr job prev curr)) := fun prev hp curr edge hrest => by
    have hne : curr ≠ prev := (h.chain.next_ne (edge_unique n) hp edge).symm
    refine ends_lock (only_act (if_pos (mutex_alone ?_))) mem_lock hrest
    exact fun hmem => hne (List.mem_singleton.mp hmem)
  have hsearch : ∃ first, n.next head = some first ∧
      threads.Returns Q (threads.alone n (.testKey job head first)) := by
    refine h.search (Q := fun prev curr => threads.Returns Q (threads.alone n (.testKey job prev curr))) lower upper
      (fun prev curr w => ?_) fun prev hp curr hc next edge hnext hlt hrest => ?_
    · exact ends_branch (only_act rfl) (fun _ => Iff.rfl) (fun _ => Iff.rfl) (fun hlt => absurd w.le (not_le.mpr hlt))
        fun _ => found prev curr w
    · refine ends_branch (only_act rfl) (fun _ => Iff.rfl) (fun _ => Iff.rfl) (fun _ => ?_) fun hle => absurd hlt hle
      refine ends_unlock (only_act rfl) ?_ (ends_goto (only_act (congrArg (Option.map _) hnext)) (fun _ => Iff.rfl) ?_)
      · exact mem_pair_ne (h.chain.next_ne (edge_unique n) hp edge)
      · exact hlock curr (List.mem_cons_of_mem head hc) next hnext hrest
  obtain ⟨first, hfirst, hrest⟩ := hsearch
  refine ends_lock (only_act rfl) (fun b => List.mem_cons) ?_
  refine ends_goto (only_act (congrArg (Option.map _) hfirst)) (fun _ => Iff.rfl) ?_
  exact hlock head List.mem_cons_self first hfirst hrest

theorem serve {op : Op} (h : Holds n l) (hb : n.Bounded) (lower : intMin ≤ op.key) (upper : op.key ≤ intMax) :
    threads.Returns (Outcome n l op) (threads.alone n (start op)) := by
  cases op with
  | add key =>
    refine returns_malloc (f := fun node => .lockHead (.add key node)) rfl (fun _ => rfl) (fun s' => ?_) h hb
      fun node fresh => ?_
    · constructor
      · intro hs
        cases hs with
        | @malloc _ key' node here fresh =>
          obtain rfl : key = key' := Phase.malloc.inj (phase_alone.symm.trans here)
          exact ⟨node, fresh, rfl⟩
        | act acts => cases acts
      · rintro ⟨node, fresh, rfl⟩
        exact .malloc phase_alone fresh
    · refine returns_search (h.malloc fresh) lower upper fun prev curr w =>
        returns_found (h.malloc fresh) w hb.malloc ?_
      rintro _ ⟨⟩
      exact ⟨Function.update_self .., Function.update_self .., h.fresh fresh⟩
  | remove key =>
    exact returns_search h lower upper fun prev curr w => returns_found h w hb nofun
  | contains key =>
    exact returns_search h lower upper fun prev curr w => returns_found h w hb nofun

theorem correct : threads.machine.Correct threads.Rests := by
  refine Threads.correct (fun op => by cases op <;> rfl) rfl (fun _ => rfl) (fun _ => rfl) ?_
    fun n l op h hb lower upper => serve h hb lower upper
  intro s res hres s' hs
  have hph : s.phase 0 = .ret res := by
    cases hph : s.phase 0 <;> rw [hph] at hres <;> cases hres
    rfl
  cases hs with
  | malloc here => rw [hph] at here; cases here
  | act acts => simp only [act, hph, reduceCtorEq] at acts

end FineGrained
