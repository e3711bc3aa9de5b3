import HyuIte4065.Library.Transition
import Mathlib.Logic.Function.Basic

/-!
# Atomic objects

An object whose operations take effect in one step each, at some moment between the call and
the return. An operation may be impossible for the moment: then it takes effect only after
operations of other threads have made it possible. An implementation is linearizable when each of
its executions has the events of an execution of the object and shows its value at every moment.
-/
namespace Atomic

variable {τ Op Res : Type*}

/-- What one step of a thread shows to the outside. -/
inductive Event (τ Op Res : Type*) where
  | call (t : τ) (op : Op)
  | inner (t : τ)
  | ret (t : τ) (res : Res)

/-- The thread whose step it is. -/
def Event.thread : Event τ Op Res → τ
  | .call t _ | .inner t | .ret t _ => t

/-- The number of calls that begin. -/
def Event.calls : Event τ Op Res → Nat
  | .call _ _ => 1
  | _ => 0

inductive Status (Op Res : Type*) where
  | idle
  | called (op : Op)
  | done (res : Res)

structure State (τ Op Res Val : Type*) where
  value : Val
  status : τ → Status Op Res

end Atomic

namespace Guarded

open Transition Atomic

variable {σ τ Op Res Val : Type*}

/-- `apply` has no result where the operation has to wait. -/
structure Object (Op Res Val : Type*) where
  start : Val
  apply : Op → Val → Option (Res × Val)

section
variable [DecidableEq τ] (obj : Object Op Res Val)

/-- An inner step is the one at which the operation takes effect, or changes nothing. -/
inductive Step (s : State τ Op Res Val) : Event τ Op Res → State τ Op Res Val → Prop where
  | call {t : τ} {op : Op} (idle : s.status t = .idle) :
    Step s (.call t op) { s with status := Function.update s.status t (.called op) }
  | skip {t : τ} : Step s (.inner t) s
  | act {t : τ} {op : Op} {res : Res} {value : Val} (called : s.status t = .called op)
    (possible : obj.apply op s.value = some (res, value)) :
    Step s (.inner t) ⟨value, Function.update s.status t (.done res)⟩
  | ret {t : τ} {res : Res} (done : s.status t = .done res) :
    Step s (.ret t res) { s with status := Function.update s.status t .idle }

def guardedSystem : System (State τ Op Res Val) (Event τ Op Res) where
  init s := s = ⟨obj.start, fun _ => .idle⟩
  step := Step obj

abbrev Linearizable (S : System σ (Event τ Op Res)) (shows : σ → Val → Prop) : Prop :=
  Refines S (guardedSystem obj) fun s a => shows s a.value

end

end Guarded

namespace Atomic

open Transition

variable {σ τ Op Res Val : Type*}

/-- No operation of the object ever has to wait. -/
structure Object (Op Res Val : Type*) where
  start : Val
  apply : Op → Val → Res × Val

def Object.guarded (obj : Object Op Res Val) : Guarded.Object Op Res Val where
  start := obj.start
  apply op value := some (obj.apply op value)

abbrev Linearizable [DecidableEq τ] (obj : Object Op Res Val) (S : System σ (Event τ Op Res))
    (shows : σ → Val → Prop) : Prop := Guarded.Linearizable obj.guarded S shows

end Atomic

/-!
## Steps that complete operations of other threads

One step of a shared implementation can be the moment at which several operations take effect, also
those of threads that are waiting. An implementation is linearizable as well when each of its
executions has the events of an execution of the object in which, after every event, any number of
called operations take effect one after the other.
-/
namespace Helping

open Transition Atomic Relation

variable {σ τ Op Res Val : Type*}

section
variable [DecidableEq τ] (obj : Guarded.Object Op Res Val)

/-- An operation takes effect. -/
inductive Effect (s : State τ Op Res Val) : State τ Op Res Val → Prop where
  | act {t : τ} {op : Op} {res : Res} {value : Val} (called : s.status t = .called op)
    (possible : obj.apply op s.value = some (res, value)) :
    Effect s ⟨value, Function.update s.status t (.done res)⟩

/-- What the event alone does. -/
inductive Announces (s : State τ Op Res Val) : Event τ Op Res → State τ Op Res Val → Prop where
  | call {t : τ} {op : Op} (idle : s.status t = .idle) :
    Announces s (.call t op) { s with status := Function.update s.status t (.called op) }
  | inner {t : τ} : Announces s (.inner t) s
  | ret {t : τ} {res : Res} (done : s.status t = .done res) :
    Announces s (.ret t res) { s with status := Function.update s.status t .idle }

def Step (s : State τ Op Res Val) (ev : Event τ Op Res) (s' : State τ Op Res Val) : Prop :=
  ∃ s₁, Announces s ev s₁ ∧ ReflTransGen (Effect obj) s₁ s'

def helpingSystem : System (State τ Op Res Val) (Event τ Op Res) where
  init s := s = ⟨obj.start, fun _ => .idle⟩
  step := Step obj

abbrev Linearizable (S : System σ (Event τ Op Res)) (shows : σ → Val → Prop) : Prop :=
  Refines S (helpingSystem obj) fun s a => shows s a.value

end

end Helping
