import HyuIte4065.Library.Transition
import Mathlib.Logic.Function.Basic

/-!
# Wait-free snapshot of project 2

`Snapshot.hpp` and `Snapshot.cpp`, one atomic load or store of a register a step; the
comparison of two collects touches no register and is a step of its own. A `SnapValue`
is immutable, so a pointer to one is modelled by the value it points to, and a null
pointer in a copy that is not filled yet by `none`.
-/
namespace Snapshot

abbrev ProcessId := Nat

structure SnapValue (numThread : Nat) where
  label : BitVec 32
  value : Int
  snap : Fin numThread → Int

variable {numThread : Nat}

/-- The default value that the constructor of `Snapshot` puts into every register. -/
def SnapValue.new : SnapValue numThread := ⟨0, 0, fun _ => 0⟩

abbrev Registers (numThread : Nat) := Fin numThread → SnapValue numThread
abbrev Copy (numThread : Nat) := Fin numThread → Option (SnapValue numThread)

/-- Where a `scan` is: in the `collect` into `oldCopy` or in one into `newCopy`, about to
load register `i`, or with the collect complete when `i` is past the last one. -/
inductive Scan (numThread : Nat) where
  | collectOld (i : Nat) (oldCopy : Copy numThread)
  | collectNew (i : Nat) (oldCopy newCopy : Copy numThread) (moved : Fin numThread → Bool)

def Scan.start : Scan numThread := .collectOld 0 fun _ => none

/-- The loop that compares the labels: the first thread that has moved, if any. -/
def firstMoved (oldCopy newCopy : Copy numThread) : List (Fin numThread) → Option (Option (Fin numThread))
  | [] => some none
  | tid :: tids => do
    let o ← oldCopy tid
    let c ← newCopy tid
    if o.label ≠ c.label then some (some tid) else firstMoved oldCopy newCopy tids

/-- Every entry has been read by the comparison before. -/
def getValueFromRegisters (copy : Copy numThread) (tid : Fin numThread) : Int :=
  ((copy tid).map (·.value)).getD 0

/-- One step of `Snapshot::scan`: on with the scan, or its result. -/
def Scan.step (regs : Registers numThread) :
    Scan numThread → Option (Scan numThread ⊕ (Fin numThread → Int))
  | .collectOld i oldCopy =>
    if h : i < numThread then
      some (.inl (.collectOld (i + 1) (Function.update oldCopy ⟨i, h⟩ (some (regs ⟨i, h⟩)))))
    else some (.inl (.collectNew 0 oldCopy (fun _ => none) fun _ => false))
  | .collectNew i oldCopy newCopy moved =>
    if h : i < numThread then
      some (.inl (.collectNew (i + 1) oldCopy
        (Function.update newCopy ⟨i, h⟩ (some (regs ⟨i, h⟩))) moved))
    else
      match firstMoved oldCopy newCopy (List.finRange numThread) with
      | none => none
      | some none => some (.inr (getValueFromRegisters newCopy))
      | some (some tid) =>
        if moved tid then (newCopy tid).map fun c => .inr c.snap
        else some (.inl (.collectNew 0 newCopy newCopy (Function.update moved tid true)))

/-- What the scan is for. -/
inductive Job where
  | scan
  | update (value : Int)

/-- `update` scans first, then loads and stores its own register. -/
inductive Phase (numThread : Nat) where
  | idle
  | scanning (job : Job) (sc : Scan numThread)
  | loadOwn (value : Int) (snap : Fin numThread → Int)
  | storeOwn (value : Int) (snap : Fin numThread → Int) (oldValue : SnapValue numThread)

def Job.andThen (snap : Fin numThread → Int) : Job → Phase numThread
  | .scan => .idle
  | .update value => .loadOwn value snap

/-- The registers, the processes, and how often each register has been stored to. -/
structure State (numThread : Nat) where
  regs : Registers numThread
  phase : ProcessId → Phase numThread
  updates : Fin numThread → Nat

namespace State

def new : State numThread := ⟨fun _ => .new, fun _ => .idle, fun _ => 0⟩

def goto (s : State numThread) (pid : ProcessId) (ph : Phase numThread) : State numThread :=
  { s with phase := Function.update s.phase pid ph }

def store (s : State numThread) (tid : Fin numThread) (newValue : SnapValue numThread) :
    State numThread :=
  { s with
    regs := Function.update s.regs tid newValue
    updates := Function.update s.updates tid (s.updates tid + 1) }

/-- The next step of a process, and the result if this is where its scan returns. -/
def act (s : State numThread) (pid : ProcessId) :
    Option (State numThread × Option (Fin numThread → Int)) :=
  match s.phase pid with
  | .idle => none
  | .scanning job sc => (sc.step s.regs).map fun
    | .inl sc => (s.goto pid (.scanning job sc), none)
    | .inr snap => (s.goto pid (job.andThen snap), some snap)
  | .loadOwn value snap =>
    if h : pid < numThread then some (s.goto pid (.storeOwn value snap (s.regs ⟨pid, h⟩)), none)
    else none
  | .storeOwn value snap oldValue =>
    if h : pid < numThread then
      some ((s.store ⟨pid, h⟩ ⟨oldValue.label + 1, value, snap⟩).goto pid .idle, none)
    else none

end State

/-- Who takes the step, and the vector if it is the last one of a scan. -/
structure Label (numThread : Nat) where
  pid : ProcessId
  returns : Option (Fin numThread → Int)

/-- Any process may scan at any time; only thread `tid` itself updates register `tid`. -/
inductive Step : State numThread → Label numThread → State numThread → Prop where
  | scan {s : State numThread} {pid : ProcessId} (idle : s.phase pid = .idle) :
      Step s ⟨pid, none⟩ (s.goto pid (.scanning .scan .start))
  | update {s : State numThread} {pid : ProcessId} (value : Int) (own : pid < numThread)
      (idle : s.phase pid = .idle) :
      Step s ⟨pid, none⟩ (s.goto pid (.scanning (.update value) .start))
  | act {s s' : State numThread} {pid : ProcessId} {result : Option (Fin numThread → Int)}
      (h : s.act pid = some (s', result)) : Step s ⟨pid, result⟩ s'

def snapshotSystem (numThread : Nat) : Transition.System (State numThread) (Label numThread) where
  init s := s = .new
  step := Step

end Snapshot
