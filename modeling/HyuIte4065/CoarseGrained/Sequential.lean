import HyuIte4065.CoarseGrained.Steps
import HyuIte4065.SortedList.Sequential

/-!
# Calls one after another under one mutex

A call of `coarse_grained.cpp` that no other thread disturbs.
-/
namespace CoarseGrained

open SortedList Total

def machine : Machine State where
  init := .listInit
  nodes s := ⟨s.allocated, s.key, s.next⟩
  call op s := s.goto 0 (start op)
  inner s s' := Step s (.inner 0) s'
  result s := match s.phase 0 with
    | .ret res => some res
    | _ => none
  ret s := s.goto 0 .idle

/-- Only the first thread is not idle. -/
def alone (n : Nodes) (mutex : Option ThreadId) (ph : Phase) : State :=
  ⟨n.allocated, n.key, n.next, mutex, Function.update (fun _ => .idle) 0 ph⟩

/-- No call is under way. -/
def Rests (s : State) : Prop := ∃ n : Nodes, n.Bounded ∧ s = alone n none .idle

variable {n : Nodes} {l : List Addr} {mutex : Option ThreadId} {ph : Phase} {P : State → Prop} {s s' : State}
  {key : Int} {node prev curr : Addr} {op : Op} {job : Job}

theorem alone_goto (n : Nodes) (mutex : Option ThreadId) (ph ph' : Phase) :
    (alone n mutex ph).goto 0 ph' = alone n mutex ph' := by
  simp only [alone, State.goto, Function.update_idem]

theorem ends_act (h : act s 0 = some s') (rest : Ends machine.inner P s') : Ends machine.inner P s := by
  refine rest.next ⟨.act h, fun s'' hs => ?_⟩
  cases hs with
  | malloc here => simp only [act, here, reduceCtorEq] at h
  | act acts => exact Option.some.inj (acts.symm.trans h)

/-- A step that only this thread notices. -/
theorem ends_goto {ph' : Phase} (h : act (alone n mutex ph) 0 = some ((alone n mutex ph).goto 0 ph'))
    (rest : Ends machine.inner P (alone n mutex ph')) : Ends machine.inner P (alone n mutex ph) :=
  ends_act h (by rwa [alone_goto])

theorem ends_unlock {ph' : Phase} (h : act (alone n mutex ph) 0 = some ((alone n none ph).goto 0 ph'))
    (rest : Ends machine.inner P (alone n none ph')) : Ends machine.inner P (alone n mutex ph) :=
  ends_act h (by rwa [alone_goto])

theorem ends_branch {c : Prop} [Decidable c] {ph₁ ph₂ : Phase}
    (h : act (alone n mutex ph) 0 = some ((alone n mutex ph).goto 0 (if c then ph₁ else ph₂)))
    (pos : c → Ends machine.inner P (alone n mutex ph₁)) (neg : ¬ c → Ends machine.inner P (alone n mutex ph₂)) :
    Ends machine.inner P (alone n mutex ph) := by
  by_cases hc : c
  · rw [if_pos hc] at h
    exact ends_goto h (pos hc)
  · rw [if_neg hc] at h
    exact ends_goto h (neg hc)

theorem ends_store {ph' : Phase} {a : Addr} {b : Option Addr}
    (h : act (alone n mutex ph) 0 = some (((alone n mutex ph).store a b).goto 0 ph'))
    (rest : Ends machine.inner P (alone (n.store a b) mutex ph')) : Ends machine.inner P (alone n mutex ph) := by
  refine ends_act h ?_
  have he : ((alone n mutex ph).store a b).goto 0 ph' = alone (n.store a b) mutex ph' :=
    alone_goto (n.store a b) mutex ph ph'
  rwa [he]

theorem ends_free {ph' : Phase} {a : Addr}
    (h : act (alone n mutex ph) 0 = some (((alone n mutex ph).free a).goto 0 ph'))
    (rest : Ends machine.inner P (alone (n.free a) mutex ph')) : Ends machine.inner P (alone n mutex ph) := by
  refine ends_act h ?_
  have he : ((alone n mutex ph).free a).goto 0 ph' = alone (n.free a) mutex ph' := alone_goto (n.free a) mutex ph ph'
  rwa [he]

/-- The call returns, and what it has done meets the condition. -/
def Returns (Q : Bool → Nodes → Prop) (s : State) : Prop :=
  Ends machine.inner (fun s' => ∃ res n', s' = alone n' none (.ret res) ∧ Nodes.Bounded n' ∧ Q res n') s

variable {Q : Bool → Nodes → Prop}

theorem returns_unlock {res : Bool} (hb : n.Bounded) (h : Q res n) : Returns Q (alone n mutex (.unlock res)) :=
  ends_unlock rfl (.done ⟨res, n, rfl, hb, h⟩)

theorem returns_compareAdd (h : Holds n l) (w : Spot n l key prev curr) (hkey : n.key node = key)
    (halloc : n.allocated node = true) (hnode : node ∉ head :: tail :: l) (hb : n.Bounded) :
    Returns (Outcome n l (.add key)) (alone n (some 0) (.compareAdd key node prev curr)) := by
  refine ends_branch rfl (fun he => ?_) fun he => ?_
  · exact returns_unlock hb (w.add_present h he)
  · refine ends_store rfl (ends_store rfl ?_)
    exact returns_unlock hb (w.add_absent h he hkey halloc hnode)

theorem returns_compareRemove (h : Holds n l) (w : Spot n l key prev curr) (hb : n.Bounded) :
    Returns (Outcome n l (.remove key)) (alone n (some 0) (.compareRemove key prev curr)) := by
  refine ends_branch rfl (fun he => ?_) fun he => ?_
  · exact returns_unlock hb (w.remove_absent h he)
  · refine ends_goto rfl (ends_store rfl (ends_unlock rfl ?_))
    exact ends_free rfl (.done ⟨true, _, rfl, Nodes.Bounded.free hb, w.remove_freed h (not_not.mp he)⟩)

theorem returns_contains (h : Holds n l) (w : Spot n l key prev curr) (hb : n.Bounded) :
    Returns (Outcome n l (.contains key)) (alone n (some 0) (.unlockContains key curr)) :=
  ends_unlock rfl (ends_goto rfl (.done ⟨_, n, rfl, hb, w.contains h⟩))

/-- The search of a call that has the mutex. -/
theorem returns_search (h : Holds n l) (lower : intMin ≤ job.key) (upper : job.key ≤ intMax)
    (found : ∀ prev curr, Spot n l job.key prev curr → Returns Q (alone n (some 0) (searched prev curr job))) :
    Returns Q (alone n none (.lock job)) := by
  have hsearch := h.search (Q := fun prev curr => Returns Q (alone n (some 0) (.testKey job prev curr))) lower upper
    (fun prev curr w => ends_branch rfl (fun hlt => absurd w.le (not_le.mpr hlt)) fun _ => found prev curr w)
    fun prev _ curr _ next _ hnext hlt hrest => ?_
  · obtain ⟨first, hfirst, hrest⟩ := hsearch
    refine ends_act rfl ?_
    have hlock : ({ alone n none (.lock job) with mutex := some 0 }).goto 0 (.loadFirst job) =
        alone n (some 0) (.loadFirst job) := alone_goto n (some 0) _ _
    rw [hlock]
    exact ends_goto (congrArg (Option.map _) hfirst) hrest
  · exact ends_branch rfl (fun _ => ends_goto (congrArg (Option.map _) hnext) hrest) fun hle => absurd hlt hle

theorem serve (h : Holds n l) (hb : n.Bounded) (lower : intMin ≤ op.key) (upper : op.key ≤ intMax) :
    Returns (Outcome n l op) (alone n none (start op)) := by
  cases op with
  | add key =>
    refine .step ?_ fun s' hs => ?_
    · obtain ⟨node, hfresh⟩ := hb.exists_fresh
      exact ⟨_, .malloc rfl hfresh⟩
    · cases hs with
      | @malloc _ key' node here fresh =>
        obtain rfl : key = key' := Phase.malloc.inj here
        have hmalloc : ((alone n none (start (.add key))).malloc node key).goto 0 (.lock (.add key node)) =
            alone (n.malloc node key) none (.lock (.add key node)) := alone_goto (n.malloc node key) none _ _
        rw [hmalloc]
        refine returns_search (h.malloc fresh) lower upper fun prev curr w => ?_
        refine (returns_compareAdd (h.malloc fresh) w (Function.update_self ..) (Function.update_self ..)
          (h.fresh fresh) hb.malloc).mono ?_
        rintro _ ⟨res, n', rfl, hb', hout⟩
        exact ⟨res, n', rfl, hb', hout.of_keys (h.keys_malloc fresh)⟩
      | act acts => cases acts
  | remove key => exact returns_search h lower upper fun prev curr w => returns_compareRemove h w hb
  | contains key => exact returns_search h lower upper fun prev curr w => returns_contains h w hb

theorem correct : machine.Correct Rests where
  start := by
    refine ⟨⟨.listInit, bounded_listInit, ?_⟩, holds_listInit⟩
    exact congrArg (State.mk _ _ _ none) (Function.update_eq_self 0 fun _ => Phase.idle).symm
  serve := by
    rintro _ l op ⟨n, hb, rfl⟩ h lower upper
    have hcall : machine.call op (alone n none .idle) = alone n none (start op) := alone_goto ..
    rw [hcall]
    refine (serve h hb lower upper).mono ?_
    rintro _ ⟨res, n', rfl, hb', hout⟩
    have hret : machine.ret (alone n' none (.ret res)) = alone n' none .idle := alone_goto ..
    exact ⟨res, rfl, ⟨n', hb', hret⟩, hret ▸ hout⟩
  final := by
    intro s res hres s' hs
    have hph : s.phase 0 = .ret res := by
      simp only [machine] at hres
      split at hres
      · rename_i h
        rw [h, Option.some.inj hres]
      · cases hres
    cases hs with
    | malloc here => rw [hph] at here; cases here
    | act acts => simp only [act, hph, reduceCtorEq] at acts

end CoarseGrained
