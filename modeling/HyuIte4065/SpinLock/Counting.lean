import HyuIte4065.Library.Transition
import HyuIte4065.SpinLock.Steps
import Mathlib.Algebra.BigOperators.Group.Finset.Basic
import Mathlib.Algebra.Order.BigOperators.Group.Finset

/-!
# Both spin locks count every turn

The lock object is 1 while a thread is between its exchange and its release, and then it is the only
one. A failed exchange of the second program is paid for by the release that let the thread try.
-/
namespace SpinLock

open Mutex State Transition

def Phase.holds : Phase → Bool
  | .loadCnt _ | .storeCnt _ _ | .release _ => true
  | _ => false

/-- The increments of a thread so far. -/
def Phase.count (numWork : Nat) : Phase → Nat
  | .notCreated => 0
  | .next i | .test i | .exchange i | .loadCnt i | .storeCnt i _ => i
  | .release i => i + 1
  | .finished => numWork

def Phase.Ok (numWork : Nat) (cntGlobal : BitVec 32) : Phase → Prop
  | .notCreated | .finished => True
  | .next i => i ≤ numWork
  | .test i | .exchange i | .loadCnt i | .release i => i < numWork
  | .storeCnt i cnt => i < numWork ∧ cnt = cntGlobal

def MainPhase.created (numThread : Nat) : MainPhase → Nat
  | .create i => i
  | _ => numThread

def MainPhase.joined (numThread : Nat) : MainPhase → Nat
  | .create _ => 0
  | .join i => i
  | _ => numThread

def State.Holds (s : State) (tid : Nat) : Prop := (s.worker tid).holds = true

def State.increments (program : Program) (s : State) : Nat :=
  ∑ t ∈ Finset.range program.numThread, (s.worker t).count program.numWork

structure Inv (program : Program) (s : State) : Prop where
  lock : ∃ owner, Guards owner s.Holds ∧ s.object = if owner = none then 0 else 1
  phases : ∀ t, (s.worker t).Ok program.numWork s.cntGlobal
  created : ∀ t, s.worker t = .notCreated ↔ s.main.created program.numThread ≤ t
  bound : s.main.created program.numThread ≤ program.numThread
  joined : ∀ t < s.main.joined program.numThread, s.worker t = .finished
  count : s.cntGlobal = BitVec.ofNat 32 (s.increments program)
  printed : s.main = .finished → s.printed = some s.cntGlobal

variable {program : Program} {s s' : State} {tid : Nat} {ph : Phase}

@[simp] theorem goto_self (s : State) (tid : Nat) (ph : Phase) : (s.goto tid ph).worker tid = ph :=
  Function.update_self ..

theorem goto_other {t : Nat} (h : t ≠ tid) : (s.goto tid ph).worker t = s.worker t :=
  Function.update_of_ne h _ _

/-! ### What a step does -/

/-- The steps of a thread, as long as the object is 0 or 1. -/
inductive WorkerMove (program : Program) (s : State) (tid : Nat) : State → Prop where
  | begin {i : Nat} (here : s.worker tid = .next i) (more : i < program.numWork) :
    WorkerMove program s tid (s.goto tid (lock program.kind i))
  | finish {i : Nat} (here : s.worker tid = .next i) (all : ¬ i < program.numWork) :
    WorkerMove program s tid (s.goto tid .finished)
  | test {i : Nat} (here : s.worker tid = .test i) (free : s.object = 0) :
    WorkerMove program s tid (s.goto tid (.exchange i))
  | enter {i : Nat} (here : s.worker tid = .exchange i) (free : s.object = 0) :
    WorkerMove program s tid ({ s with object := 1 }.goto tid (.loadCnt i))
  | fail {i : Nat} (here : s.worker tid = .exchange i) (taken : s.object = 1) :
    WorkerMove program s tid (s.goto tid (.test i))
  | loadCnt {i : Nat} (here : s.worker tid = .loadCnt i) :
    WorkerMove program s tid (s.goto tid (.storeCnt i s.cntGlobal))
  | storeCnt {i : Nat} {cnt : BitVec 32} (here : s.worker tid = .storeCnt i cnt) :
    WorkerMove program s tid ({ s with cntGlobal := cnt + 1 }.goto tid (.release i))
  | release {i : Nat} (here : s.worker tid = .release i) :
    WorkerMove program s tid ({ s with object := 0 }.goto tid (.next (i + 1)))

theorem Inv.object (hi : Inv program s) : s.object = 0 ∨ s.object = 1 := by
  obtain ⟨owner, -, hobject⟩ := hi.lock
  rw [hobject]
  by_cases ho : owner = none
  · exact .inl (if_pos ho)
  · exact .inr (if_neg ho)

theorem Inv.workerMove (hi : Inv program s) (h : s.workerStep program tid = some s') :
    WorkerMove program s tid s' := by
  have hobject := hi.object
  cases hw : s.worker tid with
  | notCreated => simp only [workerStep, hw] at h; cases h
  | finished => simp only [workerStep, hw] at h; cases h
  | next i =>
    simp only [workerStep, hw] at h
    split at h <;> obtain rfl := Option.some.inj h
    · exact .begin hw ‹_›
    · exact .finish hw ‹_›
  | test i =>
    simp only [workerStep, hw] at h
    split at h
    · cases h
    · next hne =>
      obtain rfl := Option.some.inj h
      exact .test hw (hobject.resolve_right hne)
  | exchange i =>
    simp only [workerStep, hw, exchange] at h
    split at h
    · split at h
      · cases h
      · next hne =>
        obtain rfl := Option.some.inj h
        exact .enter hw (hobject.resolve_right hne)
    · obtain rfl := Option.some.inj h
      rcases hobject with hfree | htaken
      · rw [if_pos hfree]
        exact .enter hw hfree
      · rw [if_neg (by omega), ← htaken]
        exact .fail hw htaken
  | loadCnt i =>
    simp only [workerStep, hw] at h
    obtain rfl := Option.some.inj h
    exact .loadCnt hw
  | storeCnt i cnt =>
    simp only [workerStep, hw] at h
    obtain rfl := Option.some.inj h
    exact .storeCnt hw
  | release i =>
    simp only [workerStep, hw] at h
    obtain rfl := Option.some.inj h
    exact .release hw

/-- Only the thread itself moves. -/
structure WorkerFrame (s s' : State) (tid : Nat) : Prop where
  main : s'.main = s.main
  printed : s'.printed = s.printed
  worker : ∀ t ≠ tid, s'.worker t = s.worker t
  running : s.worker tid ≠ .notCreated ∧ s.worker tid ≠ .finished ∧ s'.worker tid ≠ .notCreated

theorem lock_eq (kind : Kind) (i : Nat) : lock kind i = .exchange i ∨ lock kind i = .test i := by
  cases kind
  · exact .inl rfl
  · exact .inr rfl

theorem WorkerMove.frame (h : WorkerMove program s tid s') : WorkerFrame s s' tid := by
  cases h with
  | @begin i here _ =>
    refine ⟨rfl, rfl, fun t ht => goto_other ht, ?_⟩
    rcases lock_eq program.kind i with hl | hl <;> simp [here, hl]
  | _ => exact ⟨rfl, rfl, fun t ht => goto_other ht, by simp [*]⟩

theorem WorkerMove.use {owner : Option Nat} (h : WorkerMove program s tid s')
    (hobject : s.object = if owner = none then 0 else 1) :
    ∃ owner', Use owner owner' tid (s.Holds tid) (s'.Holds tid) ∧
      s'.object = if owner' = none then 0 else 1 := by
  cases h with
  | @begin i here _ =>
    refine ⟨owner, .keep rfl ?_, hobject⟩
    rcases lock_eq program.kind i with hl | hl <;> simp [Holds, here, hl, Phase.holds]
  | enter here free =>
    have hnone : owner = none := by
      by_contra hne
      rw [hobject, if_neg hne] at free
      cases free
    exact ⟨some tid, .lock hnone rfl (by simp [Holds, Phase.holds]), rfl⟩
  | release here =>
    exact ⟨none, .unlock (by rw [Holds, here]; rfl) rfl (by simp [Holds, Phase.holds]), rfl⟩
  | _ => exact ⟨owner, .keep rfl (by simp [Holds, Phase.holds, *]), hobject⟩

theorem sum_update {f g : Nat → Nat} {n k : Nat} (hk : k < n) (hsame : ∀ t ≠ k, g t = f t) :
    ∑ t ∈ Finset.range n, g t + f k = ∑ t ∈ Finset.range n, f t + g k := by
  have hmem := Finset.mem_range.mpr hk
  rw [← Finset.sum_erase_add _ g hmem, ← Finset.sum_erase_add _ f hmem,
    Finset.sum_congr rfl fun t ht => hsame t (Finset.ne_of_mem_erase ht)]
  exact Nat.add_right_comm ..

/-- A step counts one more if it stores, and nothing else stores. -/
theorem WorkerMove.counts (h : WorkerMove program s tid s')
    (hok : (s.worker tid).Ok program.numWork s.cntGlobal) :
    (s'.worker tid).Ok program.numWork s'.cntGlobal ∧
    (s'.cntGlobal = s.cntGlobal ∧
        (s'.worker tid).count program.numWork = (s.worker tid).count program.numWork ∨
      s'.cntGlobal = s.cntGlobal + 1 ∧ s.Holds tid ∧
        (s'.worker tid).count program.numWork = (s.worker tid).count program.numWork + 1) := by
  cases h with
  | @begin i here more =>
    rcases lock_eq program.kind i with hl | hl <;> simp [hl, here, goto, Phase.Ok, Phase.count, more]
  | @finish i here all =>
    rw [here] at hok ⊢
    have hle : i ≤ program.numWork := hok
    refine ⟨by simp [Phase.Ok], .inl ⟨rfl, ?_⟩⟩
    simp only [goto_self, Phase.count]
    omega
  | storeCnt here =>
    rw [here] at hok ⊢
    obtain ⟨hlt, rfl⟩ := hok
    exact ⟨by simpa [Phase.Ok] using hlt, .inr ⟨rfl, by rw [Holds, here]; rfl, by simp [Phase.count]⟩⟩
  | release here =>
    rw [here] at hok ⊢
    exact ⟨by simpa [Phase.Ok] using Nat.succ_le_of_lt hok, .inl ⟨rfl, by simp [Phase.count]⟩⟩
  | _ =>
    rw [‹s.worker tid = _›] at hok ⊢
    exact ⟨by simpa [Phase.Ok, goto] using hok, .inl ⟨rfl, by simp [Phase.count]⟩⟩

/-! ### The invariant -/

theorem Inv.unique (hi : Inv program s) {t u : Nat} (ht : s.Holds t) (hu : s.Holds u) : t = u := by
  obtain ⟨owner, hguards, -⟩ := hi.lock
  exact hguards.unique ht hu

/-- Nobody loses an update: who has loaded the counter is the only one to store it. -/
theorem Phase.Ok.other {numWork : Nat} {cnt cnt' : BitVec 32} (h : ph.Ok numWork cnt)
    (hfree : ph.holds = false ∨ cnt' = cnt) : ph.Ok numWork cnt' := by
  rcases hfree with hfree | rfl
  · cases ph <;> first | exact h | cases hfree
  · exact h

theorem Inv.running_lt (hi : Inv program s) (h : s.worker tid ≠ .notCreated) : tid < program.numThread := by
  have hlt := Nat.lt_of_not_le (mt (hi.created tid).mpr h)
  exact Nat.lt_of_lt_of_le hlt hi.bound

theorem Inv.step_worker (hi : Inv program s) (h : WorkerMove program s tid s') : Inv program s' := by
  obtain ⟨hmain, hprinted, hworker, hnew, hfin, hnew'⟩ := h.frame
  have htid := hi.running_lt hnew
  obtain ⟨hok, hcounts⟩ := h.counts (hi.phases tid)
  obtain ⟨owner, hguards, hobject⟩ := hi.lock
  obtain ⟨owner', huse, hobject'⟩ := h.use hobject
  refine ⟨⟨owner', hguards.step (fun u hu => by rw [Holds, Holds, hworker u hu]) huse, hobject'⟩,
    fun t => ?_, fun t => ?_, hmain ▸ hi.bound, fun t ht => ?_, ?_, fun hm => ?_⟩
  · by_cases ht : t = tid
    · exact ht ▸ hok
    · rw [hworker t ht]
      refine (hi.phases t).other ?_
      rcases hcounts with ⟨hsame, -⟩ | ⟨-, hholds, -⟩
      · exact .inr hsame
      · exact .inl (Bool.eq_false_iff.mpr fun hother => ht (hi.unique hother hholds))
  · by_cases ht : t = tid
    · subst ht
      rw [hmain, ← hi.created t]
      exact iff_of_false hnew' hnew
    · rw [hworker t ht, hmain]
      exact hi.created t
  · have hjoined := hi.joined t (hmain ▸ ht)
    by_cases htt : t = tid
    · exact absurd (htt ▸ hjoined) hfin
    · rw [hworker t htt, hjoined]
  · have hsum := sum_update (f := fun t => (s.worker t).count program.numWork)
      (g := fun t => (s'.worker t).count program.numWork) htid fun t ht => by rw [hworker t ht]
    have hcount := hi.count
    rcases hcounts with ⟨hcnt, hone⟩ | ⟨hcnt, -, hone⟩
    · have hincrements : s'.increments program = s.increments program := by
        simp only [increments]
        omega
      rw [hcnt, hcount, hincrements]
    · have hincrements : s'.increments program = s.increments program + 1 := by
        simp only [increments]
        omega
      rw [hcnt, hcount, hincrements, BitVec.ofNat_add]
      rfl
  · rw [hmain] at hm
    have hall := hi.joined tid (by rw [hm]; exact htid)
    exact absurd hall hfin

theorem mainStep_cases (h : s.mainStep program = some s') :
    (∃ i, s.main = .create i ∧ i < program.numThread ∧
      s' = { s.goto i (.next 0) with main := .create (i + 1) }) ∨
    (∃ i, s.main = .create i ∧ ¬ i < program.numThread ∧ s' = { s with main := .join 0 }) ∨
    (∃ i, s.main = .join i ∧ i < program.numThread ∧ s.worker i = .finished ∧
      s' = { s with main := .join (i + 1) }) ∨
    (∃ i, s.main = .join i ∧ ¬ i < program.numThread ∧ s' = { s with main := .print }) ∨
    (s.main = .print ∧ s' = { s with printed := some s.cntGlobal, main := .finished }) := by
  cases hm : s.main with
  | create i =>
    simp only [mainStep, hm] at h
    split at h <;> obtain rfl := Option.some.inj h
    · exact .inl ⟨i, rfl, ‹_›, rfl⟩
    · exact .inr (.inl ⟨i, rfl, ‹_›, rfl⟩)
  | join i =>
    simp only [mainStep, hm] at h
    split at h
    · split at h
      · obtain rfl := Option.some.inj h
        exact .inr (.inr (.inl ⟨i, rfl, ‹_›, ‹_›, rfl⟩))
      · cases h
    · obtain rfl := Option.some.inj h
      exact .inr (.inr (.inr (.inl ⟨i, rfl, ‹_›, rfl⟩)))
  | print =>
    simp only [mainStep, hm] at h
    obtain rfl := Option.some.inj h
    exact .inr (.inr (.inr (.inr ⟨rfl, rfl⟩)))
  | finished => simp only [mainStep, hm] at h; cases h

/-- The main thread does nothing but look at the others. -/
theorem Inv.of_main (hi : Inv program s) {main : MainPhase} {printed : Option (BitVec 32)}
    (hcreated : main.created program.numThread = s.main.created program.numThread)
    (hjoined : ∀ t < main.joined program.numThread, s.worker t = .finished)
    (hprinted : main = .finished → printed = some s.cntGlobal) :
    Inv program { s with main := main, printed := printed } :=
  ⟨hi.lock, hi.phases, fun t => hcreated ▸ hi.created t, hcreated ▸ hi.bound, hjoined, hi.count, hprinted⟩

theorem Inv.step_main (hi : Inv program s) (h : s.mainStep program = some s') : Inv program s' := by
  rcases mainStep_cases h with ⟨i, hm, hlt, rfl⟩ | ⟨i, hm, hge, rfl⟩ | ⟨i, hm, hlt, hf, rfl⟩ |
    ⟨i, hm, hge, rfl⟩ | ⟨hm, rfl⟩
  · have hfresh : s.worker i = .notCreated := (hi.created i).mpr (by rw [hm]; exact Nat.le_refl i)
    have hsum := sum_update (f := fun t => (s.worker t).count program.numWork)
      (g := fun t => ((s.goto i (.next 0)).worker t).count program.numWork) hlt
      fun t ht => by rw [goto_other ht]
    obtain ⟨owner, hguards, hobject⟩ := hi.lock
    refine ⟨⟨owner, hguards.congr fun t => ?_, hobject⟩, fun t => ?_, fun t => ?_, hlt,
      fun t ht => absurd ht (Nat.not_lt_zero t), ?_, fun hm => MainPhase.noConfusion hm⟩
    · by_cases ht : t = i
      · subst ht
        simp [Holds, hfresh, Phase.holds]
      · simp only [Holds, goto_other ht]
    · by_cases ht : t = i
      · subst ht
        simp [Phase.Ok]
      · simp only [goto_other ht]
        exact hi.phases t
    · have hold := hi.created t
      rw [hm] at hold
      by_cases ht : t = i
      · subst ht
        simp [MainPhase.created]
      · simp only [goto_other ht, hold, MainPhase.created]
        omega
    · have hsame : (s.goto i (.next 0)).increments program = s.increments program := by
        simp only [hfresh, goto_self, Phase.count] at hsum
        exact hsum
      exact hi.count.trans (congrArg (BitVec.ofNat 32) hsame.symm)
  · refine hi.of_main ?_ (fun t ht => absurd ht (Nat.not_lt_zero t)) fun hm => MainPhase.noConfusion hm
    have hbound := hi.bound
    rw [hm] at hbound ⊢
    simp only [MainPhase.created] at hbound ⊢
    omega
  · refine hi.of_main (by rw [hm]; rfl) (fun t ht => ?_) fun hm => MainPhase.noConfusion hm
    rcases Nat.lt_succ_iff_lt_or_eq.mp ht with ht | rfl
    · exact hi.joined t (by rw [hm]; exact ht)
    · exact hf
  · refine hi.of_main (by rw [hm]; rfl) (fun t ht => ?_) fun hm => MainPhase.noConfusion hm
    refine hi.joined t ?_
    rw [hm]
    exact Nat.lt_of_lt_of_le ht (Nat.not_lt.mp hge)
  · refine hi.of_main (by rw [hm]; rfl) (fun t ht => ?_) fun _ => rfl
    exact hi.joined t (by rw [hm]; exact ht)

theorem inv_new (program : Program) : Inv program .new := by
  refine ⟨⟨none, fun t => ?_, rfl⟩, fun t => trivial, fun t => ?_, Nat.zero_le _,
    fun t ht => absurd ht (Nat.not_lt_zero t), ?_, fun hm => MainPhase.noConfusion hm⟩
  · simp [Holds, State.new, Phase.holds]
  · simp [State.new, MainPhase.created]
  · simp [increments, State.new, Phase.count]

theorem inv_of_reachable (h : Reachable (spinSystem program) s) : Inv program s := by
  refine h.invariant ?_ fun s t s' _ hi hs => ?_
  · rintro s rfl
    exact inv_new program
  · cases t with
    | main => exact hi.step_main hs
    | worker tid => exact hi.step_worker (hi.workerMove hs)

/-! ### No run goes on for ever -/

/-- What a turn may cost: a release lets every other thread try once more. -/
def turnCost (program : Program) : Nat := 2 * program.numThread + 7

/-- The steps that are left of a turn. -/
def Phase.inTurn (numThread : Nat) (object : Int) : Phase → Nat
  | .test _ => 2 * numThread + if object = 0 then 6 else 4
  | .exchange _ => 2 * numThread + 5
  | .loadCnt _ => 2 * numThread + 3
  | .storeCnt _ _ => 2 * numThread + 2
  | .release _ => 2 * numThread + 1
  | _ => 0

/-- The turns behind the current one, and what the thread does outside its turns. -/
def Phase.outside (program : Program) : Phase → Nat
  | .notCreated => program.numWork * turnCost program + 2
  | .next i => (program.numWork - i) * turnCost program + 1
  | .test i | .exchange i | .loadCnt i | .storeCnt i _ | .release i =>
    (program.numWork - i - 1) * turnCost program
  | .finished => 0

def Phase.weight (program : Program) (object : Int) (ph : Phase) : Nat :=
  ph.outside program + ph.inTurn program.numThread object

def MainPhase.weight (numThread : Nat) : MainPhase → Nat
  | .create i => (numThread - i) + (numThread + 3)
  | .join i => (numThread - i) + 2
  | .print => 1
  | .finished => 0

def State.weight (program : Program) (s : State) : Nat :=
  s.main.weight program.numThread +
    ∑ t ∈ Finset.range program.numThread, (s.worker t).weight program s.object

theorem turn_left {i : Nat} (h : i < program.numWork) :
    (program.numWork - i) * turnCost program = (program.numWork - i - 1) * turnCost program + turnCost program := by
  obtain ⟨k, hk⟩ : ∃ k, program.numWork - i = k + 1 := ⟨program.numWork - i - 1, by omega⟩
  rw [hk, Nat.succ_mul, Nat.add_sub_cancel]

/-- A release is the only step that gives others something to do. -/
theorem weight_object (ph : Phase) (object : Int) :
    ph.weight program 1 ≤ ph.weight program object ∧ ph.weight program 0 ≤ ph.weight program object + 2 := by
  cases ph with
  | test i =>
    by_cases hobject : object = 0
    · simp [Phase.weight, Phase.inTurn, hobject]
    · simp [Phase.weight, Phase.inTurn, hobject]; omega
  | _ => exact ⟨Nat.le_refl _, Nat.le_add_right _ 2⟩

theorem WorkerMove.weight (h : WorkerMove program s tid s') :
    (s'.object = s.object ∨ s'.object = 1) ∧
        (s'.worker tid).weight program s'.object < (s.worker tid).weight program s.object ∨
      s'.object = 0 ∧
        (s'.worker tid).weight program s'.object + 2 * program.numThread ≤ (s.worker tid).weight program s.object := by
  cases h with
  | @begin i here more =>
    refine .inl ⟨.inl rfl, ?_⟩
    have hturn := turn_left more
    rw [here]
    rcases lock_eq program.kind i with hl | hl <;>
      simp only [goto_self, hl, Phase.weight, Phase.outside, Phase.inTurn, turnCost] at hturn ⊢
    · omega
    · split <;> omega
  | finish here all =>
    refine .inl ⟨.inl rfl, ?_⟩
    simp [here, Phase.weight, Phase.outside, Phase.inTurn]
  | test here free =>
    refine .inl ⟨.inl rfl, ?_⟩
    simp [here, free, goto, Phase.weight, Phase.outside, Phase.inTurn]
  | enter here free =>
    refine .inl ⟨.inr rfl, ?_⟩
    simp [here, Phase.weight, Phase.outside, Phase.inTurn]
  | fail here taken =>
    refine .inl ⟨.inl rfl, ?_⟩
    simp [here, taken, goto, Phase.weight, Phase.outside, Phase.inTurn]
  | loadCnt here =>
    refine .inl ⟨.inl rfl, ?_⟩
    simp [here, Phase.weight, Phase.outside, Phase.inTurn]
  | storeCnt here =>
    refine .inl ⟨.inl rfl, ?_⟩
    simp [here, Phase.weight, Phase.outside, Phase.inTurn]
  | @release i here =>
    refine .inr ⟨rfl, ?_⟩
    have hsub : program.numWork - (i + 1) = program.numWork - i - 1 := by omega
    rw [here]
    simp only [goto_self, Phase.weight, Phase.outside, Phase.inTurn, hsub]
    omega

theorem Inv.weight_lt (hi : Inv program s) {t : Thread} (h : threadStep program s t = some s') :
    s'.weight program < s.weight program := by
  cases t with
  | worker tid =>
    have hmove := hi.workerMove h
    obtain ⟨hmain, -, hworker, hnew, -, -⟩ := hmove.frame
    have htid := Finset.mem_range.mpr (hi.running_lt hnew)
    rw [State.weight, State.weight, hmain]
    refine Nat.add_lt_add_left ?_ _
    rcases hmove.weight with ⟨hobject, hlt⟩ | ⟨hobject, hle⟩
    · refine Finset.sum_lt_sum (fun t _ => ?_) ⟨tid, htid, hlt⟩
      by_cases ht : t = tid
      · exact ht ▸ Nat.le_of_lt hlt
      · rw [hworker t ht]
        rcases hobject with hsame | hone
        · rw [hsame]
        · rw [hone]
          exact (weight_object _ _).1
    · -- the others get at most 2 each, which the release has paid for
      have hothers : ∑ t ∈ (Finset.range program.numThread).erase tid, (s'.worker t).weight program s'.object ≤
          ∑ t ∈ (Finset.range program.numThread).erase tid, ((s.worker t).weight program s.object + 2) := by
        refine Finset.sum_le_sum fun t ht => ?_
        rw [hworker t (Finset.ne_of_mem_erase ht), hobject]
        exact (weight_object _ _).2
      rw [Finset.sum_add_distrib, Finset.sum_const_nat fun _ _ => rfl, Finset.card_erase_of_mem htid,
        Finset.card_range] at hothers
      have hpos := Finset.mem_range.mp htid
      rw [← Finset.sum_erase_add _ _ htid,
        ← Finset.sum_erase_add _ (fun t => (s.worker t).weight program s.object) htid]
      omega
  | main =>
    rcases mainStep_cases h with ⟨i, hm, hlt, rfl⟩ | ⟨i, hm, hge, rfl⟩ | ⟨i, hm, hlt, -, rfl⟩ |
      ⟨i, hm, -, rfl⟩ | ⟨hm, rfl⟩
    · have hfresh : s.worker i = .notCreated := (hi.created i).mpr (by rw [hm]; exact Nat.le_refl i)
      have hsum := sum_update (f := fun t => (s.worker t).weight program s.object)
        (g := fun t => ((s.goto i (.next 0)).worker t).weight program s.object) hlt
        fun t ht => by rw [goto_other ht]
      have hone : (Phase.next 0).weight program s.object + 1 = Phase.notCreated.weight program s.object := rfl
      rw [hfresh, goto_self] at hsum
      show (MainPhase.create (i + 1)).weight program.numThread +
        ∑ t ∈ Finset.range program.numThread, ((s.goto i (.next 0)).worker t).weight program s.object < _
      rw [State.weight, hm]
      simp only [MainPhase.weight]
      omega
    all_goals
      simp only [State.weight, hm, MainPhase.weight]
      omega

/-- A thread that waits for the lock waits for one that can go on. -/
theorem Inv.worker_enabled (hi : Inv program s) (hnew : s.worker tid ≠ .notCreated)
    (hfin : s.worker tid ≠ .finished) : ∃ t s', threadStep program s t = some s' := by
  obtain ⟨owner, hguards, hobject⟩ := hi.lock
  cases ho : owner with
  | none =>
    have hfree : s.object ≠ 1 := by
      rw [hobject, if_pos ho]
      decide
    refine ⟨.worker tid, ?_⟩
    cases hw : s.worker tid with
    | notCreated => exact absurd hw hnew
    | finished => exact absurd hw hfin
    | test i => exact ⟨_, by simp only [threadStep, workerStep, hw]; exact if_neg hfree⟩
    | exchange i =>
      cases hk : program.kind with
      | tas => exact ⟨_, by simp only [threadStep, workerStep, hw, exchange, hk]; exact if_neg hfree⟩
      | ttas => exact ⟨_, by simp only [threadStep, workerStep, hw, exchange, hk]; rfl⟩
    | _ => exact ⟨_, by simp only [threadStep, workerStep, hw]; rfl⟩
  | some u =>
    have hholds : (s.worker u).holds = true := (hguards u).mp ho
    refine ⟨.worker u, ?_⟩
    cases hw : s.worker u with
    | loadCnt i => exact ⟨_, by simp only [threadStep, workerStep, hw]; rfl⟩
    | storeCnt i cnt => exact ⟨_, by simp only [threadStep, workerStep, hw]; rfl⟩
    | release i => exact ⟨_, by simp only [threadStep, workerStep, hw]; rfl⟩
    | _ =>
      rw [hw] at hholds
      cases hholds

theorem Inv.enabled (hi : Inv program s) : s.main = .finished ∨ ∃ t s', threadStep program s t = some s' := by
  cases hm : s.main with
  | finished => exact .inl rfl
  | create i =>
    by_cases hlt : i < program.numThread
    · exact .inr ⟨.main, _, by simp only [threadStep, mainStep, hm]; exact if_pos hlt⟩
    · exact .inr ⟨.main, _, by simp only [threadStep, mainStep, hm]; exact if_neg hlt⟩
  | join i =>
    by_cases hlt : i < program.numThread
    · by_cases hf : s.worker i = .finished
      · exact .inr ⟨.main, _, by simp only [threadStep, mainStep, hm, if_pos hlt, if_pos hf]; rfl⟩
      · have hcreated : s.worker i ≠ .notCreated := by
          rw [Ne, hi.created i, hm]
          exact Nat.not_le.mpr hlt
        exact .inr (hi.worker_enabled hcreated hf)
    · exact .inr ⟨.main, _, by simp only [threadStep, mainStep, hm]; exact if_neg hlt⟩
  | print => exact .inr ⟨.main, _, by simp only [threadStep, mainStep, hm]; rfl⟩

theorem weight_new (program : Program) : State.new.weight program =
    program.numThread * (program.numWork * turnCost program + 2) + 2 * program.numThread + 3 := by
  have hsum : ∑ t ∈ Finset.range program.numThread, (State.new.worker t).weight program State.new.object =
      (Finset.range program.numThread).card * (program.numWork * turnCost program + 2) :=
    Finset.sum_const_nat fun _ _ => rfl
  rw [State.weight, hsum, Finset.card_range]
  simp only [State.new, MainPhase.weight]
  omega

theorem Inv.finished (hi : Inv program s) (hm : s.main = .finished) :
    s.printed = some (BitVec.ofNat 32 (program.numThread * program.numWork)) := by
  have hall : s.increments program = program.numThread * program.numWork := by
    rw [increments, Finset.sum_const_nat (m := program.numWork), Finset.card_range]
    intro t ht
    rw [hi.joined t (by rw [hm]; exact Finset.mem_range.mp ht)]
    rfl
  rw [hi.printed hm, hi.count, hall]

/-- At most one thread is between its exchange and its release. Nobody waits for ever, every run
ends, and then all increments have been counted, modulo `2^32`. -/
theorem spin_counts (program : Program) :
    (∀ s, Reachable (spinSystem program) s →
      (∀ t u, s.Holds t → s.Holds u → t = u) ∧
      (s.main = .finished → s.printed = some (BitVec.ofNat 32 (program.numThread * program.numWork))) ∧
      (s.main = .finished ∨ ∃ t s', threadStep program s t = some s')) ∧
    ∀ e : Execution (spinSystem program), e.length ≤
      program.numThread * (program.numWork * (2 * program.numThread + 7) + 4) + 3 := by
  refine ⟨fun s hs => ?_, fun e => ?_⟩
  · have hi := inv_of_reachable hs
    exact ⟨fun t u => hi.unique, hi.finished, hi.enabled⟩
  · have hbound := e.length_add_le (State.weight program)
      (fun _ _ _ hs h => (inv_of_reachable hs).weight_lt h) (Nat.le_refl _)
    rw [e.starts, weight_new, turnCost] at hbound
    rw [Nat.mul_add] at hbound ⊢
    omega

end SpinLock
