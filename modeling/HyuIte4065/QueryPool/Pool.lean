import HyuIte4065.QueryPool.Slots

/-!
# The thread pool keeps the order of the queries

In every reachable state the output, the results that the slots hold or will hold, and those
of the lines that are left make up the results of all lines, in order.
-/
namespace QueryPool

open Mutex State Transition

variable {Text Query Result : Type}

def MainPhase.ended : MainPhase Query → Bool
  | .wakeLast _ | .lockLast _ | .signalLast _ | .unlockLast _ | .join _ | .finished => true
  | _ => false

/-- The queries that have been read and whose results have not been printed. -/
def MainPhase.outstanding (batch : List Query) : MainPhase Query → List Query
  | .checkFull arg | .storeArg arg => batch ++ [arg]
  | .flush i held | .awaitRet i held | .print i held => batch.drop i ++ held.toList
  | .clear i held => batch.drop (i + 1) ++ held.toList
  | .clearActive held => held.toList
  | _ => batch

/-- How many queries the threads have been given. -/
def MainPhase.given (numActiveThread : Nat) : MainPhase Query → Nat
  | .storeRunning | .lock | .signal | .unlock | .activate => numActiveThread + 1
  | _ => numActiveThread

/-- The indices of the main thread are in range. -/
def MainPhase.InRange (numThread numActiveThread : Nat) : MainPhase Query → Prop
  | .create i => i ≤ numThread ∧ numActiveThread = 0
  | .awaitReady i => i < numThread ∧ numActiveThread = 0
  | .readLine | .checkFull _ | .clearActive _ => numActiveThread ≤ numThread
  | .flush i _ => i ≤ numActiveThread ∧ numActiveThread ≤ numThread
  | .awaitRet i _ | .print i _ | .clear i _ => i < numActiveThread ∧ numActiveThread ≤ numThread
  | .storeArg _ | .storeRunning | .lock | .signal | .unlock | .activate => numActiveThread < numThread
  | .lockLast i | .signalLast i | .unlockLast i | .join i => i < numThread
  | .setDone | .wakeLast _ | .finished => True

/-- There is an `F` to come for everything that has not been flushed. -/
def MainPhase.Closed (input : List (Line Text)) (batch : List Query) : MainPhase Query → Prop
  | .readLine => input.getLast? = some .flush ∨ input = [] ∧ batch = []
  | .flush _ held | .awaitRet _ held | .print _ held | .clear _ held | .clearActive held =>
    input.getLast? = some .flush ∨ input = [] ∧ held = none
  | .setDone | .wakeLast _ | .lockLast _ | .signalLast _ | .unlockLast _ | .join _ | .finished =>
    input = [] ∧ batch = []
  | _ => input.getLast? = some .flush

section
variable (program : Program Text Query Result) (lines : List (Line Text))

structure MainOk (s : State Text Query Result) : Prop where
  inRange : s.main.InRange program.numThread s.numActiveThread
  counted : s.batch.length = s.main.given s.numActiveThread
  owed : s.cout ++ (s.main.outstanding s.batch).map program.join ++ results program s.input =
    results program lines
  closed : s.main.Closed s.input s.batch

structure Inv (s : State Text Query Result) : Prop where
  locks : Locks s
  slots : ∀ i < program.numThread, s.SlotOk program i
  beyond : ∀ i, program.numThread ≤ i → s.worker i = .notCreated
  isDone : s.isDone = s.main.ended
  main : MainOk program lines s

end

variable {program : Program Text Query Result} {lines : List (Line Text)} {tid : Nat}
  {s s' : State Text Query Result}

theorem status_busy {arg : Query} (h : s.status tid = .busy arg) : s.main.ended = false := by
  unfold State.status at h
  cases hm : s.main <;> rw [hm] at h <;> try rfl
  all_goals
    simp only at h
    repeat' split at h
    all_goals cases h

theorem status_ending (h : s.status tid = .ending) : s.main.ended = true := by
  unfold State.status active giving printing at h
  cases hm : s.main <;> rw [hm] at h <;> try rfl
  all_goals
    simp only at h
    repeat' split at h
    all_goals cases h

theorem Inv.step_worker (hi : Inv program lines s) (h : WorkerMove program s tid s') : Inv program lines s' := by
  have hframe := h.frame
  have htid : tid < program.numThread := by
    by_contra hge
    exact h.created (hi.beyond tid (Nat.not_lt.mp hge))
  refine ⟨hi.locks.step_worker h, fun i hlt => ?_, fun i hge => ?_, ?_, ?_⟩
  · by_cases hit : i = tid
    · subst hit
      exact h.slotOk (hi.slots i hlt) (fun _ hb => by rw [hi.isDone, status_busy hb])
        fun he => by rw [hi.isDone, status_ending he]
    · have hok := hi.slots i hlt
      rw [State.SlotOk] at hok ⊢
      rwa [hframe.status, hframe.threadArg, hframe.worker i hit, hframe.threadRet i hit]
  · rw [hframe.worker i (by omega)]
    exact hi.beyond i hge
  · rw [hframe.isDone, hframe.main, hi.isDone]
  · obtain ⟨inRange, counted, owed, closed⟩ := hi.main
    rw [← hframe.main, ← hframe.numActiveThread] at inRange
    rw [← hframe.main, ← hframe.numActiveThread, ← hframe.batch] at counted
    rw [← hframe.main, ← hframe.batch, ← hframe.cout, ← hframe.input] at owed
    rw [← hframe.main, ← hframe.batch, ← hframe.input] at closed
    exact ⟨inRange, counted, owed, closed⟩

theorem State.SlotOk.congr (hok : s.SlotOk program tid) (hworker : s'.worker tid = s.worker tid)
    (hret : s'.threadRet tid = s.threadRet tid) (harg : s'.threadArg tid = s.threadArg tid)
    (hstatus : s'.status tid = s.status tid) : s'.SlotOk program tid := by
  rw [State.SlotOk] at hok ⊢
  rwa [hworker, hret, harg, hstatus]

/-- A parked worker whose mutex the main thread holds waits. -/
theorem waiting_of_held (hlocks : Locks s) (hp : Parked (s.worker tid)) (hh : s.held = some tid) :
    s.worker tid = .waiting := by
  rcases hp with hw | hw
  · have hthread : Thread.worker tid = .main := (hlocks tid).unique ⟨rfl, by rw [hw]; rfl⟩ hh
    cases hthread
  · exact hw

theorem active_of_le {batch : List Query} {i : Nat} (h : batch.length ≤ i) : active batch i = .idle := by
  rw [active, List.getElem?_eq_none h]

theorem active_of_getElem? {batch : List Query} {i : Nat} {arg : Query} (h : batch[i]? = some arg) :
    active batch i = .busy arg := by
  rw [active, h]

theorem giving_of_ne {batch : List Query} {n i : Nat} (h : i ≠ n) : giving batch n i = active batch i := by
  rw [giving, active]
  split
  · rw [if_neg h]
  · rfl

theorem giving_self {batch : List Query} {n : Nat} {arg : Query} (h : batch[n]? = some arg) :
    giving batch n n = .given arg := by
  rw [giving, h]
  exact if_pos rfl

theorem printing_of_ne {batch : List Query} {n i : Nat} (h : i ≠ n) :
    printing batch n i = if i < n then .idle else active batch i := by
  rw [printing, active]
  simp only [if_neg h]

theorem printing_self {batch : List Query} {n : Nat} {arg : Query} (h : batch[n]? = some arg) :
    printing batch n n = .done arg := by
  rw [printing, if_neg (Nat.lt_irrefl n), h]
  exact if_pos rfl

theorem active_append {batch : List Query} {i : Nat} {arg : Query} (h : i ≠ batch.length) :
    active (batch ++ [arg]) i = active batch i := by
  rcases Nat.lt_or_gt_of_ne h with hlt | hgt
  · rw [active, active, List.getElem?_append_left hlt]
  · rw [active_of_le (by rw [List.length_append, List.length_singleton]; omega),
      active_of_le (Nat.le_of_lt hgt)]

/-- A worker that has stored something has stored its result. -/
theorem Busy.done {arg : Query} {ph : WorkerPhase Query Result} {ret : Ret Result} {threadArg : Option Query}
    (h : Busy program arg ph ret threadArg) (hret : ret ≠ .running) :
    Parked ph ∧ ret = .result (program.join arg) := by
  cases ph
  case wait => exact ⟨.inl rfl, h⟩
  case waiting => exact ⟨.inr rfl, h⟩
  all_goals first | exact absurd h.1 hret | exact h.elim

/-- The slot that the next step of the main thread is about. -/
def MainPhase.slot (numActiveThread : Nat) : MainPhase Query → Option Nat
  | .create i | .awaitReady i | .awaitRet i _ | .clear i _ | .signalLast i | .join i => some i
  | .storeArg _ | .storeRunning | .signal => some numActiveThread
  | _ => none

/-- The query of the slot that the main thread is flushing or waking up. -/
theorem Inv.query_at {i : Nat} (hi : Inv program lines s) (h : i < s.main.given s.numActiveThread) :
    ∃ arg, s.batch[i]? = some arg :=
  ⟨_, List.getElem?_eq_getElem (hi.main.counted ▸ h)⟩

/-- A step of the main thread leaves every other slot as it is. -/
theorem MainMove.slotOk_other (hi : Inv program lines s) (h : MainMove program s s') {i : Nat}
    (hlt : i < program.numThread) (hother : s.main.slot s.numActiveThread ≠ some i) :
    s'.SlotOk program i := by
  have hok := hi.slots i hlt
  have hcounted := hi.main.counted
  have hrange := hi.main.inRange
  have hclosed := hi.main.closed
  cases h
  case create n here more =>
    rw [here] at hother
    have hne : i ≠ n := fun he => hother (congrArg some he.symm)
    refine hok.congr (Function.update_of_ne hne _ _) rfl rfl ?_
    simp only [State.status, setMain, here, if_neg hne]
  case created n here all =>
    rw [here] at hrange hcounted
    have hempty : active s.batch i = .idle := active_of_le (by rw [hcounted]; exact hrange.2 ▸ Nat.zero_le i)
    refine hok.congr rfl rfl rfl ?_
    simp only [State.status, setMain, here, hempty]
    rw [if_pos (by omega)]
  case awaitReady n here ready =>
    rw [here] at hother
    have hne : i ≠ n := fun he => hother (congrArg some he.symm)
    refine hok.congr rfl rfl rfl ?_
    simp only [State.status, setMain, here, if_neg hne, Nat.lt_succ_iff_lt_or_eq, or_iff_left hne]
  case endOfInput here line =>
    rw [here] at hclosed
    have hempty : s.batch = [] := by
      rcases hclosed with hlast | ⟨-, hbatch⟩
      · rw [line] at hlast
        cases hlast
      · exact hbatch
    refine hok.congr rfl rfl rfl ?_
    simp only [State.status, setMain, here, hempty]
    rfl
  case flushed n held here all =>
    rw [here] at hrange hcounted
    refine hok.congr rfl rfl rfl ?_
    simp only [State.status, setMain, here]
    split
    · rfl
    · exact (active_of_le (by rw [hcounted]; show s.numActiveThread ≤ i; omega)).symm
  case awaitRet n held here done =>
    rw [here] at hother
    have hne : i ≠ n := fun he => hother (congrArg some he.symm)
    refine hok.congr rfl rfl rfl ?_
    simp only [State.status, setMain, here, printing_of_ne hne]
  case clear n held here =>
    rw [here] at hother
    have hne : i ≠ n := fun he => hother (congrArg some he.symm)
    refine hok.congr rfl (Function.update_of_ne hne _ _) rfl ?_
    simp only [State.status, setMain, setRet, here, printing_of_ne hne, Nat.lt_succ_iff_lt_or_eq,
      or_iff_left hne]
  case clearActive here =>
    refine hok.congr rfl rfl rfl ?_
    simp only [State.status, setMain, here]
    rfl
  case clearActiveHeld here =>
    refine hok.congr rfl rfl rfl ?_
    simp only [State.status, setMain, here]
    rfl
  case storeArg arg here =>
    rw [here] at hcounted hother
    have hlen : s.batch.length = s.numActiveThread := hcounted
    have hne : i ≠ s.numActiveThread := fun he => hother (congrArg some he.symm)
    refine hok.congr rfl rfl (Function.update_of_ne hne _ _) ?_
    simp only [State.status, setMain, here, giving_of_ne hne]
    exact active_append (hlen ▸ hne)
  case storeRunning here =>
    rw [here] at hother
    have hne : i ≠ s.numActiveThread := fun he => hother (congrArg some he.symm)
    refine hok.congr rfl (Function.update_of_ne hne _ _) rfl ?_
    simp only [State.status, setMain, setRet, here]
  case signal here =>
    rw [here] at hother
    have hne : i ≠ s.numActiveThread := fun he => hother (congrArg some he.symm)
    rcases wake_cases s s.numActiveThread with ⟨-, he⟩ | ⟨-, he⟩ <;> rw [he]
    · refine hok.congr (Function.update_of_ne hne _ _) rfl rfl ?_
      simp only [State.status, setMain, setWorker, here, giving_of_ne hne]
    · refine hok.congr rfl rfl rfl ?_
      simp only [State.status, setMain, here, giving_of_ne hne]
  case wokenAll n here all =>
    refine hok.congr rfl rfl rfl ?_
    simp only [State.status, setMain, here]
    rw [if_pos (by omega)]
  case signalLast n here =>
    rw [here] at hother
    have hne : i ≠ n := fun he => hother (congrArg some he.symm)
    rcases wake_cases s n with ⟨-, he⟩ | ⟨-, he⟩ <;> rw [he]
    · refine hok.congr (Function.update_of_ne hne _ _) rfl rfl ?_
      simp only [State.status, setMain, setWorker, here, if_neg hne]
    · refine hok.congr rfl rfl rfl ?_
      simp only [State.status, setMain, here, if_neg hne]
  case join n here ended =>
    rw [here] at hother
    have hne : i ≠ n := fun he => hother (congrArg some he.symm)
    refine hok.congr rfl rfl rfl ?_
    simp only [State.status, setMain, here, if_neg hne, Nat.lt_succ_iff_lt_or_eq, or_iff_left hne]
  all_goals
    refine hok.congr rfl rfl rfl ?_
    simp only [State.status, setMain, setMtx, ‹s.main = _›]
    try rfl

/-- The slot that a step of the main thread is about gets the next status. -/
theorem MainMove.slotOk_self (hi : Inv program lines s) (h : MainMove program s s') {i : Nat}
    (hlt : i < program.numThread) (hself : s.main.slot s.numActiveThread = some i) :
    s'.SlotOk program i := by
  have hok := hi.slots i hlt
  have hrange := hi.main.inRange
  have hquery := hi.query_at (i := i)
  cases h
  case create n here more =>
    rw [here] at hself
    obtain rfl : n = i := Option.some.inj hself
    have hst : s.status n = .fresh := by simp only [State.status, here, Nat.lt_irrefl, if_false]
    have hst' : ((s.setWorker n .lockFirst).setMain (.awaitReady n)).status n = .created := by
      simp only [State.status, setMain, Nat.lt_irrefl, if_false, if_true]
    rw [State.SlotOk, hst] at hok
    rw [State.SlotOk, hst']
    exact .inl ⟨.inl (Function.update_self ..), hok.2⟩
  case created n here all =>
    rw [here] at hself
    exact absurd (Option.some.inj hself ▸ hlt) all
  case awaitReady n here ready =>
    rw [here] at hself
    obtain rfl : n = i := Option.some.inj hself
    have hst : s.status n = .created := by simp only [State.status, here, Nat.lt_irrefl, if_false, if_true]
    have hst' : (s.setMain (.create (n + 1))).status n = .idle := by
      simp only [State.status, setMain, Nat.lt_succ_self, if_true]
    rw [State.SlotOk, hst, ready] at hok
    rw [State.SlotOk, hst']
    rcases hok with ⟨-, hret⟩ | ⟨hp, -⟩
    · cases hret
    · exact ⟨hp, ready⟩
  case awaitRet n held here done =>
    rw [here] at hself hrange hquery
    obtain rfl : n = i := Option.some.inj hself
    obtain ⟨arg, harg⟩ := hquery hrange.1
    have hst : s.status n = .busy arg := by
      simp only [State.status, here, Nat.lt_irrefl, if_false, active_of_getElem? harg]
    have hst' : (s.setMain (.print n held)).status n = .done arg := by
      simp only [State.status, setMain, printing_self harg]
    rw [State.SlotOk, hst] at hok
    rw [State.SlotOk, hst']
    exact Busy.done hok done
  case clear n held here =>
    rw [here] at hself hrange hquery
    obtain rfl : n = i := Option.some.inj hself
    obtain ⟨arg, harg⟩ := hquery hrange.1
    have hst : s.status n = .done arg := by simp only [State.status, here, printing_self harg]
    have hst' : ((s.setRet n .running).setMain (.flush (n + 1) held)).status n = .idle := by
      simp only [State.status, setMain, Nat.lt_succ_self, if_true]
    rw [State.SlotOk, hst] at hok
    rw [State.SlotOk, hst']
    exact ⟨hok.1, Function.update_self ..⟩
  case storeArg arg here =>
    have hcounted := hi.main.counted
    rw [here] at hself hcounted
    have hlen : s.batch.length = s.numActiveThread := hcounted
    obtain rfl : s.numActiveThread = i := Option.some.inj hself
    have hst : s.status s.numActiveThread = .idle := by
      simp only [State.status, here, active_of_le (Nat.le_of_eq hlen)]
    rw [State.SlotOk, hst] at hok
    rw [State.SlotOk, State.status]
    simp only [setMain]
    rw [giving_self (by rw [← hlen, List.getElem?_concat_length])]
    exact ⟨hok.1, hok.2, Function.update_self ..⟩
  case storeRunning here =>
    rw [here] at hself hquery
    obtain rfl : s.numActiveThread = i := Option.some.inj hself
    obtain ⟨arg, harg⟩ := hquery (Nat.lt_succ_self _)
    have hst : s.status s.numActiveThread = .given arg := by simp only [State.status, here, giving_self harg]
    rw [State.SlotOk, hst] at hok
    rw [State.SlotOk, State.status]
    simp only [setMain, setRet, giving_self harg, Function.update_self]
    exact ⟨hok.1, rfl, hok.2.2⟩
  case signal here =>
    rw [here] at hself hquery
    obtain rfl : s.numActiveThread = i := Option.some.inj hself
    obtain ⟨arg, harg⟩ := hquery (Nat.lt_succ_self _)
    have hst : s.status s.numActiveThread = .given arg := by simp only [State.status, here, giving_self harg]
    rw [State.SlotOk, hst] at hok
    rw [wake_of_waiting (waiting_of_held hi.locks hok.1 (by rw [held, here])), State.SlotOk, State.status]
    simp only [setMain, setWorker, active_of_getElem? harg, Function.update_self]
    exact hok.2
  case signalLast n here =>
    rw [here] at hself
    obtain rfl : n = i := Option.some.inj hself
    have hst : s.status n = .idle := by simp only [State.status, here, Nat.lt_irrefl, if_false]
    rw [State.SlotOk, hst] at hok
    rw [wake_of_waiting (waiting_of_held hi.locks hok.1 (by rw [held, here])), State.SlotOk, State.status]
    simp only [setMain, setWorker, Nat.lt_irrefl, if_false, if_true, Function.update_self]
    exact .inl rfl
  case join n here ended =>
    rw [here] at hself
    obtain rfl : n = i := Option.some.inj hself
    rw [State.SlotOk, State.status]
    simp only [setMain, Nat.lt_succ_self, if_true]
    exact ended
  all_goals
    rw [‹s.main = _›] at hself
    cases hself

/-- A step of the main thread keeps to the status of every slot. -/
theorem MainMove.slotOk (hi : Inv program lines s) (h : MainMove program s s') {i : Nat}
    (hlt : i < program.numThread) : s'.SlotOk program i := by
  by_cases hself : s.main.slot s.numActiveThread = some i
  · exact h.slotOk_self hi hlt hself
  · exact h.slotOk_other hi hlt hself

theorem getLast_cons {line : Line Text} {rest : List (Line Text)}
    (h : (line :: rest).getLast? = some .flush) :
    rest.getLast? = some .flush ∨ rest = [] ∧ line = .flush := by
  cases rest with
  | nil => exact .inr ⟨rfl, Option.some.inj h⟩
  | cons next rest => exact .inl (List.getLast?_cons_cons ▸ h)

/-- A step of the main thread accounts for the line that it reads and the result that it prints. -/
theorem MainMove.mainOk (hk : 0 < program.numThread) (hi : Inv program lines s)
    (h : MainMove program s s') : MainOk program lines s' := by
  obtain ⟨inRange, counted, owed, closed⟩ := hi.main
  cases h
  case create here more =>
    rw [here] at inRange counted owed closed
    exact ⟨⟨more, inRange.2⟩, counted, owed, closed⟩
  case created here all =>
    rw [here] at inRange counted owed closed
    exact ⟨(Nat.le_of_eq inRange.2).trans (Nat.zero_le _), counted, owed, .inl closed⟩
  case awaitReady here ready =>
    rw [here] at inRange counted owed closed
    exact ⟨⟨inRange.1, inRange.2⟩, counted, owed, closed⟩
  case endOfInput here line =>
    rw [here] at inRange counted owed closed
    refine ⟨trivial, counted, owed, line, ?_⟩
    rcases closed with hlast | ⟨-, hbatch⟩
    · rw [line] at hlast
      cases hlast
    · exact hbatch
  case readFlush rest here line =>
    rw [here] at inRange counted owed closed
    rw [line] at owed closed
    refine ⟨⟨Nat.zero_le _, inRange⟩, counted, ?_, ?_⟩
    · show s.cout ++ (s.batch.drop 0 ++ []).map program.join ++ results program rest = _
      rw [List.append_nil]
      exact owed
    · rcases closed with hlast | ⟨hnil, -⟩
      · exact (getLast_cons hlast).imp id fun hr => ⟨hr.1, rfl⟩
      · cases hnil
  case readQuery text rest here line =>
    rw [here] at inRange counted owed closed
    rw [line] at owed closed
    refine ⟨inRange, counted, ?_, ?_⟩
    · show s.cout ++ (s.batch ++ [program.parseQuery text]).map program.join ++ results program rest = _
      rw [List.map_append, ← List.append_assoc, List.append_assoc]
      exact owed
    · rcases closed with hlast | ⟨hnil, -⟩
      · rcases getLast_cons hlast with hrest | ⟨-, hline⟩
        · exact hrest
        · cases hline
      · cases hnil
  case full here full =>
    rw [here] at inRange counted owed closed
    exact ⟨⟨Nat.zero_le _, inRange⟩, counted, owed, .inl closed⟩
  case notFull here free =>
    rw [here] at inRange counted owed closed
    exact ⟨Nat.lt_of_le_of_ne inRange free, counted, owed, closed⟩
  case flush here more =>
    rw [here] at inRange counted owed closed
    exact ⟨⟨more, inRange.2⟩, counted, owed, closed⟩
  case flushed i held here all =>
    rw [here] at inRange counted owed closed
    refine ⟨inRange.2, counted, ?_, closed⟩
    have hdrop : s.batch.drop i = [] := List.drop_eq_nil_of_le (by rw [counted]; exact Nat.not_lt.mp all)
    rw [MainPhase.outstanding, hdrop] at owed
    exact owed
  case print i held value here ret =>
    rw [here] at inRange counted owed closed
    have hlt : i < s.batch.length := by rw [counted]; exact inRange.1
    have hok := hi.slots i (Nat.lt_of_lt_of_le inRange.1 inRange.2)
    have hst : s.status i = .done s.batch[i] := by
      simp only [State.status, here, printing_self (List.getElem?_eq_getElem hlt)]
    rw [State.SlotOk, hst, ret] at hok
    have hvalue : value = program.join s.batch[i] := Ret.result.inj hok.2
    refine ⟨inRange, counted, ?_, closed⟩
    rw [MainPhase.outstanding, List.drop_eq_getElem_cons hlt, List.cons_append, List.map_cons, ← hvalue] at owed
    show s.cout ++ [value] ++ (s.batch.drop (i + 1) ++ held.toList).map program.join ++ _ = _
    rw [List.append_assoc s.cout]
    exact owed
  case clear here =>
    rw [here] at inRange counted owed closed
    exact ⟨⟨inRange.1, inRange.2⟩, counted, owed, closed⟩
  case clearActive here =>
    rw [here] at inRange counted owed closed
    exact ⟨Nat.zero_le _, rfl, owed, closed.imp id fun hnil => ⟨hnil.1, rfl⟩⟩
  case clearActiveHeld here =>
    rw [here] at inRange counted owed closed
    refine ⟨hk, rfl, owed, ?_⟩
    rcases closed with hlast | ⟨-, hheld⟩
    · exact hlast
    · cases hheld
  case storeArg here =>
    rw [here] at inRange counted owed closed
    exact ⟨inRange, by rw [List.length_append, counted]; rfl, owed, closed⟩
  case activate here =>
    rw [here] at inRange counted owed closed
    exact ⟨inRange, counted, owed, .inl closed⟩
  case signal here =>
    rw [here] at inRange counted owed closed
    rcases wake_cases s s.numActiveThread with ⟨-, he⟩ | ⟨-, he⟩ <;> rw [he] <;>
      exact ⟨inRange, counted, owed, closed⟩
  case signalLast i here =>
    rw [here] at inRange counted owed closed
    rcases wake_cases s i with ⟨-, he⟩ | ⟨-, he⟩ <;> rw [he] <;> exact ⟨inRange, counted, owed, closed⟩
  case wakeLast here more =>
    rw [here] at inRange counted owed closed
    exact ⟨more, counted, owed, closed⟩
  case setDone here =>
    rw [here] at inRange counted owed closed
    exact ⟨trivial, counted, owed, closed⟩
  case wokenAll here all =>
    rw [here] at inRange counted owed closed
    exact ⟨trivial, counted, owed, closed⟩
  case join here ended =>
    rw [here] at inRange counted owed closed
    exact ⟨trivial, counted, owed, closed⟩
  all_goals
    rw [‹s.main = _›] at inRange counted owed closed
    exact ⟨inRange, counted, owed, closed⟩

theorem Inv.fresh (hi : Inv program lines s) (i : Nat) (hc : s.main = .create i) :
    s.worker i = .notCreated := by
  by_cases hlt : i < program.numThread
  · have hok := hi.slots i hlt
    have hst : s.status i = .fresh := by simp only [State.status, hc, Nat.lt_irrefl, if_false]
    rw [State.SlotOk, hst] at hok
    exact hok.1
  · exact hi.beyond i (Nat.not_lt.mp hlt)

theorem Inv.step_main (hk : 0 < program.numThread) (hi : Inv program lines s)
    (h : MainMove program s s') : Inv program lines s' := by
  refine ⟨hi.locks.step_main h hi.fresh, fun i hlt => h.slotOk hi hlt, fun i hge => ?_, ?_, h.mainOk hk hi⟩
  · rcases h.worker i with hsame | ⟨hwait, -⟩ | ⟨-, hlt, -⟩
    · rw [hsame]
      exact hi.beyond i hge
    · rw [hi.beyond i hge] at hwait
      cases hwait
    · omega
  · have hdone := hi.isDone
    cases h
    case setDone => rfl
    case signal here =>
      rw [here] at hdone
      rcases wake_cases s s.numActiveThread with ⟨-, he⟩ | ⟨-, he⟩ <;> rw [he] <;> exact hdone
    case signalLast i here =>
      rw [here] at hdone
      rcases wake_cases s i with ⟨-, he⟩ | ⟨-, he⟩ <;> rw [he] <;> exact hdone
    all_goals
      rw [‹s.main = _›] at hdone
      exact hdone

theorem Inv.new (hlines : lines.getLast? = some .flush) : Inv program lines (.new lines) := by
  refine ⟨.new, fun i _ => ⟨rfl, rfl⟩, fun _ _ => rfl, rfl, ⟨Nat.zero_le _, rfl⟩, rfl, rfl, hlines⟩

theorem inv_of_reachable (hk : 0 < program.numThread) (hlines : lines.getLast? = some .flush)
    (hs : Reachable (poolSystem program lines) s) : Inv program lines s := by
  refine hs.invariant ?_ fun s t s' _ hi h => ?_
  · rintro s rfl
    exact .new hlines
  · cases t with
    | main => exact hi.step_main hk (mainMove h)
    | worker tid => exact hi.step_worker (workerMove h)

end QueryPool
