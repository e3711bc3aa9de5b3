import HyuIte4065.QueryPool.Progress
import Mathlib.Data.List.Basic

/-!
# The end of the thread pool

`main` wakes every worker up once after it has set `is_done`. A worker that is still computing
does not hear it, and then waits for a signal that does not come. This cannot happen when the last
batch has been flushed; otherwise the first worker can be slow enough.
-/
open Relation (ReflTransGen)

namespace QueryPool

open State Transition

variable {Text Query Result : Type}

/-- The main thread waits for the end of a worker that sleeps for good. -/
def State.Stranded (program : Program Text Query Result) (s : State Text Query Result) (i : Nat) : Prop :=
  s.main = .join i ∧ s.worker i = .waiting ∧
    ∀ s', ReflTransGen (fun s s' => ∃ t, threadStep program s t = some s') s s' → s'.worker i = .waiting

variable {program : Program Text Query Result} {lines rest : List (Line Text)} {lo hi tid i : Nat}
  {s s' s'' : State Text Query Result} {held : Option Query} {arg : Query}

theorem MainMove.step (h : MainMove program s s') : s.mainStep program = some s' := by
  have hgoto : ∀ {ph ph' : MainPhase Query}, ph = ph' → some (s.setMain ph) = some (s.setMain ph') :=
    fun he => congrArg (fun ph => some (s.setMain ph)) he
  cases h <;> rw [mainStep, ‹s.main = _›]
  case create more => exact if_pos more
  case created all => exact if_neg all
  case awaitReady ready => simp only [ready]
  case endOfInput line => simp only [line]
  case readFlush line => simp only [line]
  case readQuery line => simp only [line]
  case full full => exact hgoto (if_pos full)
  case notFull free => exact hgoto (if_neg free)
  case flush more => exact hgoto (if_pos more)
  case flushed all => exact hgoto (if_neg all)
  case awaitRet done =>
    dsimp only
    split
    · next he => exact absurd he done
    · rfl
  case print ret => simp only [ret]
  case lock free => exact if_pos free
  case wakeLast more => exact hgoto (if_pos more)
  case wokenAll all => exact hgoto (if_neg all)
  case lockLast free => exact if_pos free
  case join ended => simp only [ended]
  all_goals rfl

theorem WorkerMove.step (h : WorkerMove program s tid s') : s.workerStep program tid = some s' := by
  cases h <;> rw [workerStep, ‹s.worker tid = _›]
  case lockFirst free => exact if_pos free
  case relock free => exact if_pos free
  case leave ended => rw [ended]; rfl
  case enter goes => rw [goes]; rfl
  case loadArg given => simp only [given, Option.map_some]
  case lock free => exact if_pos free

theorem WorkerMove.reachable (h : WorkerMove program s tid s') (hr : Reachable (poolSystem program lines) s) :
    Reachable (poolSystem program lines) s' := hr.step (.worker tid) h.step

theorem MainMove.reachable (h : MainMove program s s') (hr : Reachable (poolSystem program lines) s) :
    Reachable (poolSystem program lines) s' := hr.step .main h.step

/-- Once there, nothing wakes the worker up any more. -/
theorem stranded_of_waiting (hm : s.main = .join i) (hw : s.worker i = .waiting) : s.Stranded program i := by
  refine ⟨hm, hw, fun s' hs => ?_⟩
  suffices hboth : s'.main = .join i ∧ s'.worker i = .waiting from hboth.2
  induction hs with
  | refl => exact ⟨hm, hw⟩
  | @tail s s' _ hstep ih =>
    obtain ⟨hm, hw⟩ := ih
    obtain ⟨t, ht⟩ := hstep
    cases t with
    | main =>
      have h := mainMove ht
      cases h <;> simp_all
    | worker tid =>
      have h := workerMove ht
      have hframe := h.frame
      have hne : i ≠ tid := by
        rintro rfl
        cases h <;> simp_all
      exact ⟨hframe.main.trans hm, (hframe.worker i hne).trans hw⟩

/-! ### Flushed input -/

theorem Inv.not_waiting (hi : Inv program lines s) (hm : s.main = .join i) : s.worker i ≠ .waiting := by
  intro hw
  have hrange := hi.main.inRange
  rw [hm] at hrange
  have hok := hi.slots i hrange
  have hst : s.status i = .ending := by simp only [State.status, hm, Nat.lt_irrefl, if_false, if_true]
  rw [State.SlotOk, hst, hw] at hok
  simp [SlotOk] at hok

/-- The same state, with an `F` to come. -/
def State.beforeFlush (s : State Text Query Result) : State Text Query Result := { s with input := [.flush] }

/-- The main thread has not got past the lines. -/
def MainPhase.starting : MainPhase Query → Bool
  | .create _ | .awaitReady _ | .readLine => true
  | _ => false

/-- On no input at all, everything goes as on one `F`, once this has been read. -/
def LikeFlush (program : Program Text Query Result) (s : State Text Query Result) : Prop :=
  (s.main.starting = true ∧ s.input = [] ∧ Reachable (poolSystem program [.flush]) s.beforeFlush) ∨
    Reachable (poolSystem program [.flush]) s

theorem WorkerMove.beforeFlush (h : WorkerMove program s tid s') :
    WorkerMove program s.beforeFlush tid s'.beforeFlush := by
  cases h
  case lockFirst here free => exact .lockFirst here free
  case storeReady here => exact .storeReady here
  case wait here => exact .wait here
  case relock here free => exact .relock here free
  case unlock here => exact .unlock here
  case leave here ended => exact .leave here ended
  case enter here goes => exact .enter here goes
  case loadArg here given => exact .loadArg here given
  case join here => exact .join here
  case lock here free => exact .lock here free
  case storeRet here => exact .storeRet here

/-- The main thread reads the `F` and flushes nothing. -/
theorem reachable_setDone (hk : 0 < program.numThread) (hm : s.main = .readLine)
    (hr : Reachable (poolSystem program [.flush]) s.beforeFlush) (hinput : s.input = []) :
    Reachable (poolSystem program [.flush]) (s.setMain .setDone) := by
  have hi := inv_of_reachable hk rfl hr
  have howed : s.cout ++ s.batch.map program.join ++ results program [.flush] = results program [.flush] := by
    have howed := hi.main.owed
    rwa [show s.beforeFlush.main = .readLine from hm] at howed
  have hnone : s.cout = [] ∧ s.batch = [] := by simpa [results] using howed
  have hbatch := hnone.2
  have hactive : s.numActiveThread = 0 := by
    have hcounted := hi.main.counted
    rw [show s.beforeFlush.main = .readLine from hm] at hcounted
    exact hcounted.symm.trans (by rw [show s.beforeFlush.batch = s.batch from rfl, hbatch]; rfl)
  have hnot : ¬ 0 < s.numActiveThread := by rw [hactive]; decide
  have h₁ : Reachable (poolSystem program [.flush]) (s.setMain (.flush 0 none)) := by
    have h := (MainMove.readFlush (s := s.beforeFlush) hm rfl).reachable hr
    rwa [show s.setMain (.flush 0 none) = { s.beforeFlush.setMain (.flush 0 none) with input := [] } by
      rw [← hinput]; rfl]
  have h₂ := (MainMove.flushed (s := s.setMain (.flush 0 none)) rfl hnot).reachable h₁
  have h₃ := (MainMove.clearActive (s := (s.setMain (.flush 0 none)).setMain (.clearActive none)) rfl).reachable h₂
  have hsame : { s.setMain .readLine with numActiveThread := 0, batch := [] } = s := by
    rw [← hactive, ← hbatch, ← hm]
    rfl
  have h₄ : Reachable (poolSystem program [.flush]) s := by
    rw [← hsame]
    exact h₃
  exact (MainMove.endOfInput hm hinput).reachable h₄

theorem LikeFlush.step (hk : 0 < program.numThread) (h : LikeFlush program s) {t : Thread}
    (hs : threadStep program s t = some s') : LikeFlush program s' := by
  rcases h with ⟨hstart, hinput, hr⟩ | hr
  · cases t with
    | worker tid =>
      have hw := workerMove hs
      have hframe := hw.frame
      exact .inl ⟨hframe.main ▸ hstart, hframe.input.trans hinput, hw.beforeFlush.reachable hr⟩
    | main =>
      have hm := mainMove hs
      cases hm
      case create here more =>
        exact .inl ⟨rfl, hinput, (MainMove.create (s := s.beforeFlush) here more).reachable hr⟩
      case created here all =>
        exact .inl ⟨rfl, hinput, (MainMove.created (s := s.beforeFlush) here all).reachable hr⟩
      case awaitReady here ready =>
        exact .inl ⟨rfl, hinput, (MainMove.awaitReady (s := s.beforeFlush) here ready).reachable hr⟩
      case endOfInput here line => exact .inr (reachable_setDone hk here hr hinput)
      case readFlush line => rw [hinput] at line; cases line
      case readQuery line => rw [hinput] at line; cases line
      all_goals
        rw [‹s.main = _›] at hstart
        cases hstart
  · exact .inr (hr.step t hs)

theorem likeFlush_of_reachable (hk : 0 < program.numThread) (hr : Reachable (poolSystem program []) s) :
    LikeFlush program s := by
  induction hr with
  | init hs =>
    obtain rfl := hs
    exact .inl ⟨rfl, rfl, .init rfl⟩
  | step t _ hs ih => exact ih.step hk hs

theorem not_stranded (hk : 0 < program.numThread) (hlines : lines = [] ∨ lines.getLast? = some .flush)
    (hr : Reachable (poolSystem program lines) s) : ¬ s.Stranded program i := by
  rintro ⟨hm, hw, -⟩
  rcases hlines with rfl | hlines
  · rcases likeFlush_of_reachable hk hr with ⟨hstart, -, -⟩ | hr
    · rw [hm] at hstart
      cases hstart
    · exact (inv_of_reachable hk rfl hr).not_waiting hm hw
  · exact (inv_of_reachable hk hlines hr).not_waiting hm hw

/-! ### Slow workers -/

theorem WorkerFrame.trans (h : WorkerFrame s s' tid) (h' : WorkerFrame s' s'' tid) : WorkerFrame s s'' tid where
  worker u hu := (h'.worker u hu).trans (h.worker u hu)
  threadRet u hu := (h'.threadRet u hu).trans (h.threadRet u hu)
  mtxForWorkers u hu := (h'.mtxForWorkers u hu).trans (h.mtxForWorkers u hu)
  threadArg := h'.threadArg.trans h.threadArg
  isDone := h'.isDone.trans h.isDone
  numActiveThread := h'.numActiveThread.trans h.numActiveThread
  input := h'.input.trans h.input
  cout := h'.cout.trans h.cout
  main := h'.main.trans h.main
  batch := h'.batch.trans h.batch

/-- A run in which one worker works, until it is at `ph` with this `ret`. -/
structure Works (program : Program Text Query Result) (lines : List (Line Text)) (tid : Nat)
    (ph : WorkerPhase Query Result) (ret : Ret Result) (s s' : State Text Query Result) : Prop where
  reachable : Reachable (poolSystem program lines) s'
  frame : WorkerFrame s s' tid
  phase : s'.worker tid = ph
  ret : s'.threadRet tid = ret
  free : s'.mtxForWorkers tid = none

/-- A new worker goes to sleep. -/
theorem works_created (hr : Reachable (poolSystem program lines) s) (hw : s.worker tid = .lockFirst)
    (hfree : s.mtxForWorkers tid = none) : ∃ s', Works program lines tid .waiting .running s s' := by
  let s₁ := (s.setMtx tid (some (.worker tid))).setWorker tid .storeReady
  let s₂ := (s₁.setRet tid .running).setWorker tid .wait
  have m₁ : WorkerMove program s tid s₁ := .lockFirst hw hfree
  have m₂ : WorkerMove program s₁ tid s₂ := .storeReady (Function.update_self ..)
  have m₃ : WorkerMove program s₂ tid ((s₂.setMtx tid none).setWorker tid .waiting) := .wait (Function.update_self ..)
  exact ⟨_, m₃.reachable (m₂.reachable (m₁.reachable hr)), (m₁.frame.trans m₂.frame).trans m₃.frame,
    Function.update_self .., Function.update_self .., Function.update_self ..⟩

/-- A worker that has been woken up begins with its query. -/
theorem works_woken (hr : Reachable (poolSystem program lines) s) (hw : s.worker tid = .relock)
    (hfree : s.mtxForWorkers tid = none) (harg : s.threadArg tid = some arg) (goes : s.isDone = false) :
    ∃ s', Works program lines tid (.join arg) (s.threadRet tid) s s' := by
  let s₁ := (s.setMtx tid (some (.worker tid))).setWorker tid .unlock
  let s₂ := (s₁.setMtx tid none).setWorker tid .checkDone
  have m₁ : WorkerMove program s tid s₁ := .relock hw hfree
  have m₂ : WorkerMove program s₁ tid s₂ := .unlock (Function.update_self ..)
  have m₃ : WorkerMove program s₂ tid (s₂.setWorker tid .loadArg) := .enter (Function.update_self ..) goes
  have m₄ : WorkerMove program (s₂.setWorker tid .loadArg) tid
      ((s₂.setWorker tid .loadArg).setWorker tid (.join arg)) :=
    .loadArg (Function.update_self ..) harg
  exact ⟨_, m₄.reachable (m₃.reachable (m₂.reachable (m₁.reachable hr))),
    ((m₁.frame.trans m₂.frame).trans m₃.frame).trans m₄.frame,
    Function.update_self .., rfl, Function.update_self ..⟩

/-- A worker stores its result and goes to sleep again. -/
theorem works_joined (hr : Reachable (poolSystem program lines) s) (hw : s.worker tid = .join arg)
    (hfree : s.mtxForWorkers tid = none) :
    ∃ s', Works program lines tid .waiting (.result (program.join arg)) s s' := by
  let s₁ := s.setWorker tid (.lock (program.join arg))
  let s₂ := (s₁.setMtx tid (some (.worker tid))).setWorker tid (.storeRet (program.join arg))
  let s₃ := (s₂.setRet tid (.result (program.join arg))).setWorker tid .wait
  have m₁ : WorkerMove program s tid s₁ := .join hw
  have m₂ : WorkerMove program s₁ tid s₂ := .lock (Function.update_self ..) hfree
  have m₃ : WorkerMove program s₂ tid s₃ := .storeRet (Function.update_self ..)
  have m₄ : WorkerMove program s₃ tid ((s₃.setMtx tid none).setWorker tid .waiting) := .wait (Function.update_self ..)
  exact ⟨_, m₄.reachable (m₃.reachable (m₂.reachable (m₁.reachable hr))),
    ((m₁.frame.trans m₂.frame).trans m₃.frame).trans m₄.frame,
    Function.update_self .., Function.update_self .., Function.update_self ..⟩

/-- The workers from `lo` up to `hi` are in the middle of their queries, and all others sleep. -/
structure Paused (program : Program Text Query Result) (lo hi : Nat) (s : State Text Query Result) : Prop where
  active : s.numActiveThread = hi
  le : hi ≤ program.numThread
  busy : ∀ i, lo ≤ i → i < hi → ∃ arg, s.worker i = .join arg
  waiting : ∀ i < program.numThread, i < lo ∨ hi ≤ i → s.worker i = .waiting
  ret : ∀ i < program.numThread, s.threadRet i = .running
  free : ∀ i, s.mtxForWorkers i = none
  goes : s.isDone = false

/-- A step of the main thread between its accesses to the workers. -/
theorem Paused.congr (h : Paused program lo hi s) (hactive : s'.numActiveThread = s.numActiveThread)
    (hworker : s'.worker = s.worker) (hret : s'.threadRet = s.threadRet)
    (hmtx : s'.mtxForWorkers = s.mtxForWorkers) (hdone : s'.isDone = s.isDone) : Paused program lo hi s' :=
  ⟨hactive.trans h.active, h.le, hworker ▸ h.busy, hworker ▸ h.waiting, hret ▸ h.ret, hmtx ▸ h.free,
    hdone.trans h.goes⟩

/-- The next worker finishes and is flushed. -/
theorem Paused.flushOne (h : Paused program lo hi s) (hr : Reachable (poolSystem program lines) s) (hlt : lo < hi)
    (hm : s.main = .flush lo held) :
    ∃ s', Reachable (poolSystem program lines) s' ∧ Paused program (lo + 1) hi s' ∧
      s'.main = .flush (lo + 1) held ∧ s'.input = s.input := by
  obtain ⟨arg, hw⟩ := h.busy lo le_rfl hlt
  obtain ⟨s₁, hs₁⟩ := works_joined hr hw (h.free lo)
  have hframe := hs₁.frame
  let s₂ := s₁.setMain (.awaitRet lo held)
  let s₃ := s₂.setMain (.print lo held)
  let s₄ := { s₃.setMain (.clear lo held) with cout := s₃.cout ++ [program.join arg] }
  have hactive : s₁.numActiveThread = hi := hframe.numActiveThread.trans h.active
  have m₁ : MainMove program s₁ s₂ := .flush (hframe.main.trans hm) (by rwa [hactive])
  have m₂ : MainMove program s₂ s₃ := .awaitRet rfl
    (by rw [show s₂.threadRet = s₁.threadRet from rfl, hs₁.ret]; exact nofun)
  have m₃ : MainMove program s₃ s₄ := .print rfl hs₁.ret
  have m₄ : MainMove program s₄ ((s₄.setRet lo .running).setMain (.flush (lo + 1) held)) := .clear rfl
  refine ⟨_, m₄.reachable (m₃.reachable (m₂.reachable (m₁.reachable hs₁.reachable))),
    ⟨hactive, h.le, fun i hle hi => ?_, fun i hi hout => ?_, fun i hi => ?_, fun i => ?_,
      hframe.isDone.trans h.goes⟩, rfl, hframe.input⟩
  · show ∃ arg, s₁.worker i = .join arg
    rw [hframe.worker i (by omega)]
    exact h.busy i (by omega) hi
  · show s₁.worker i = .waiting
    by_cases he : i = lo
    · exact he ▸ hs₁.phase
    · rw [hframe.worker i he]
      exact h.waiting i hi (by omega)
  · show Function.update s₁.threadRet lo .running i = .running
    by_cases he : i = lo
    · exact he ▸ Function.update_self ..
    · rw [Function.update_of_ne he, hframe.threadRet i he]
      exact h.ret i hi
  · show s₁.mtxForWorkers i = none
    by_cases he : i = lo
    · exact he ▸ hs₁.free
    · rw [hframe.mtxForWorkers i he]
      exact h.free i

theorem Paused.flushAll (h : Paused program lo hi s) (hr : Reachable (poolSystem program lines) s) (hle : lo ≤ hi)
    (hm : s.main = .flush lo held) :
    ∃ s', Reachable (poolSystem program lines) s' ∧ Paused program hi hi s' ∧ s'.main = .flush hi held ∧
      s'.input = s.input := by
  induction hn : hi - lo generalizing lo s with
  | zero =>
    obtain rfl : lo = hi := by omega
    exact ⟨s, hr, h, hm, rfl⟩
  | succ n ih =>
    obtain ⟨s₁, hr₁, h₁, hm₁, hinput₁⟩ := h.flushOne hr (by omega) hm
    obtain ⟨s₂, hr₂, h₂, hm₂, hinput₂⟩ := ih h₁ hr₁ (by omega) hm₁ (by omega)
    exact ⟨s₂, hr₂, h₂, hm₂, hinput₂.trans hinput₁⟩

/-- `flush_all_thread`, and the reset of the number behind it. -/
theorem Paused.flush (h : Paused program 0 hi s) (hr : Reachable (poolSystem program lines) s)
    (hm : s.main = .flush 0 held) :
    ∃ s', Reachable (poolSystem program lines) s' ∧ Paused program 0 0 s' ∧
      s'.main = held.elim .readLine .storeArg ∧ s'.input = s.input := by
  obtain ⟨s₁, hr₁, h₁, hm₁, hinput⟩ := h.flushAll hr (Nat.zero_le _) hm
  have m₁ : MainMove program s₁ (s₁.setMain (.clearActive held)) := .flushed hm₁ (by rw [h₁.active]; omega)
  have hclear : MainMove program (s₁.setMain (.clearActive held))
      { s₁.setMain (held.elim .readLine .storeArg) with numActiveThread := 0, batch := [] } := by
    cases held with
    | none => exact .clearActive rfl
    | some arg => exact .clearActiveHeld rfl
  refine ⟨_, hclear.reachable (m₁.reachable hr₁), ⟨rfl, Nat.zero_le _, fun i _ hi => absurd hi (Nat.not_lt_zero i),
    fun i hi _ => ?_, h₁.ret, h₁.free, h₁.goes⟩, rfl, hinput⟩
  exact h₁.waiting i hi (by omega)

/-- The next worker is given a query and begins with it. -/
theorem Paused.give (h : Paused program 0 hi s) (hr : Reachable (poolSystem program lines) s)
    (hlt : hi < program.numThread) (hm : s.main = .storeArg arg) :
    ∃ s', Reachable (poolSystem program lines) s' ∧ Paused program 0 (hi + 1) s' ∧ s'.main = .readLine ∧
      s'.input = s.input := by
  obtain rfl := h.active
  have hwait := h.waiting s.numActiveThread hlt (.inr le_rfl)
  let s₁ := { s.setMain .storeRunning with
    threadArg := Function.update s.threadArg s.numActiveThread (some arg)
    batch := s.batch ++ [arg] }
  let s₂ := (s₁.setRet s.numActiveThread .running).setMain .lock
  let s₃ := (s₂.setMtx s.numActiveThread (some .main)).setMain .signal
  let s₄ := (s₃.setWorker s.numActiveThread .relock).setMain .unlock
  let s₅ := (s₄.setMtx s.numActiveThread none).setMain .activate
  let s₆ := { s₅.setMain .readLine with numActiveThread := s.numActiveThread + 1 }
  have m₁ : MainMove program s s₁ := .storeArg hm
  have m₂ : MainMove program s₁ s₂ := .storeRunning rfl
  have m₃ : MainMove program s₂ s₃ := .lock rfl (h.free s.numActiveThread)
  have m₄ : MainMove program s₃ s₄ := by
    have hsignal : MainMove program s₃ ((s₃.wake s.numActiveThread).setMain .unlock) := .signal rfl
    rwa [wake_of_waiting (show s₃.worker s.numActiveThread = .waiting from hwait)] at hsignal
  have m₅ : MainMove program s₄ s₅ := .unlock rfl
  have m₆ : MainMove program s₅ s₆ := .activate rfl
  have hr₆ := m₆.reachable (m₅.reachable (m₄.reachable (m₃.reachable (m₂.reachable (m₁.reachable hr)))))
  obtain ⟨s', hs'⟩ := works_woken hr₆ (Function.update_self ..) (Function.update_self ..)
    (Function.update_self ..) h.goes
  have hframe := hs'.frame
  refine ⟨s', hs'.reachable, ⟨hframe.numActiveThread, hlt, fun i _ hi => ?_, fun i hi hout => ?_, fun i hi => ?_,
    fun i => ?_, hframe.isDone.trans h.goes⟩, hframe.main, hframe.input⟩
  · by_cases he : i = s.numActiveThread
    · exact ⟨arg, he ▸ hs'.phase⟩
    · rw [hframe.worker i he]
      obtain ⟨arg', hw⟩ := h.busy i (Nat.zero_le _) (by omega)
      exact ⟨arg', (Function.update_of_ne he _ _).trans hw⟩
  · have he : i ≠ s.numActiveThread := by omega
    rw [hframe.worker i he]
    exact (Function.update_of_ne he _ _).trans (h.waiting i hi (by omega))
  · by_cases he : i = s.numActiveThread
    · rw [he, hs'.ret]
      exact Function.update_self ..
    · rw [hframe.threadRet i he]
      exact (Function.update_of_ne he _ _).trans (h.ret i hi)
  · by_cases he : i = s.numActiveThread
    · exact he ▸ hs'.free
    · rw [hframe.mtxForWorkers i he]
      exact (Function.update_of_ne he _ _).trans ((Function.update_of_ne he _ _).trans (h.free i))

theorem Paused.query (h : Paused program 0 hi s) (hr : Reachable (poolSystem program lines) s)
    (hk : 0 < program.numThread) (hm : s.main = .readLine) {text : Text} (hinput : s.input = .query text :: rest) :
    ∃ s' hi', Reachable (poolSystem program lines) s' ∧ Paused program 0 hi' s' ∧ 0 < hi' ∧ s'.main = .readLine ∧
      s'.input = rest := by
  let s₁ := { s.setMain (.checkFull (program.parseQuery text)) with input := rest }
  have m₁ : MainMove program s s₁ := .readQuery hm hinput
  have h₁ : Paused program 0 hi s₁ := h.congr rfl rfl rfl rfl rfl
  have hr₁ := m₁.reachable hr
  have hactive : s₁.numActiveThread = hi := h₁.active
  by_cases hfull : hi = program.numThread
  · have m₂ : MainMove program s₁ (s₁.setMain (.flush 0 (some (program.parseQuery text)))) :=
      .full rfl (hactive.trans hfull)
    have h₂ : Paused program 0 hi (s₁.setMain (.flush 0 (some (program.parseQuery text)))) :=
      h₁.congr rfl rfl rfl rfl rfl
    obtain ⟨s₃, hr₃, h₃, hm₃, hinput₃⟩ := h₂.flush (m₂.reachable hr₁) rfl
    obtain ⟨s₄, hr₄, h₄, hm₄, hinput₄⟩ := h₃.give hr₃ hk hm₃
    exact ⟨s₄, 1, hr₄, h₄, Nat.one_pos, hm₄, hinput₄.trans hinput₃⟩
  · have m₂ : MainMove program s₁ (s₁.setMain (.storeArg (program.parseQuery text))) :=
      .notFull rfl (by rwa [hactive])
    have h₂ : Paused program 0 hi (s₁.setMain (.storeArg (program.parseQuery text))) :=
      h₁.congr rfl rfl rfl rfl rfl
    obtain ⟨s₃, hr₃, h₃, hm₃, hinput₃⟩ :=
      h₂.give (m₂.reachable hr₁) (Nat.lt_of_le_of_ne h.le hfull) rfl
    exact ⟨s₃, hi + 1, hr₃, h₃, Nat.succ_pos hi, hm₃, hinput₃⟩

/-- All lines up to some point are read and worked on, slowly. -/
theorem Paused.readAll (h : Paused program 0 hi s) (hr : Reachable (poolSystem program lines) s)
    (hk : 0 < program.numThread) (hm : s.main = .readLine) {before : List (Line Text)}
    (hinput : s.input = before ++ rest) :
    ∃ s' hi', Reachable (poolSystem program lines) s' ∧ Paused program 0 hi' s' ∧ s'.main = .readLine ∧
      s'.input = rest := by
  induction before generalizing s hi with
  | nil => exact ⟨s, hi, hr, h, hm, hinput⟩
  | cons line before ih =>
    cases line with
    | query text =>
      obtain ⟨s₁, hi₁, hr₁, h₁, -, hm₁, hinput₁⟩ := h.query hr hk hm hinput
      exact ih h₁ hr₁ hm₁ hinput₁
    | flush =>
      have m₁ : MainMove program s { s.setMain (.flush 0 none) with input := before ++ rest } :=
        .readFlush hm hinput
      have h₀ : Paused program 0 hi { s.setMain (.flush 0 none) with input := before ++ rest } :=
        h.congr rfl rfl rfl rfl rfl
      obtain ⟨s₁, hr₁, h₁, hm₁, hinput₁⟩ := h₀.flush (m₁.reachable hr) rfl
      exact ih h₁ hr₁ hm₁ hinput₁

/-- The first workers are asleep, and no other one has been created. -/
structure Creating (lines : List (Line Text)) (n : Nat) (s : State Text Query Result) : Prop where
  main : s.main = .create n
  asleep : ∀ i < n, s.worker i = .waiting ∧ s.threadRet i = .running
  free : ∀ i, s.mtxForWorkers i = none
  active : s.numActiveThread = 0
  goes : s.isDone = false
  input : s.input = lines

theorem exists_creating (n : Nat) (hn : n ≤ program.numThread) :
    ∃ s : State Text Query Result, Reachable (poolSystem program lines) s ∧ Creating lines n s := by
  induction n with
  | zero => exact ⟨_, .init rfl, rfl, fun i hi => absurd hi (Nat.not_lt_zero i), fun _ => rfl, rfl, rfl, rfl⟩
  | succ n ih =>
    obtain ⟨s, hr, h⟩ := ih (by omega)
    have m₁ : MainMove program s ((s.setWorker n .lockFirst).setMain (.awaitReady n)) := .create h.main hn
    obtain ⟨s₁, hs₁⟩ := works_created (m₁.reachable hr) (Function.update_self ..) (h.free n)
    have hframe := hs₁.frame
    have m₂ : MainMove program s₁ (s₁.setMain (.create (n + 1))) := .awaitReady hframe.main hs₁.ret
    refine ⟨_, m₂.reachable hs₁.reachable, rfl, fun i hi => ?_, fun i => ?_, hframe.numActiveThread.trans h.active,
      hframe.isDone.trans h.goes, hframe.input.trans h.input⟩
    · by_cases he : i = n
      · subst he
        exact ⟨hs₁.phase, hs₁.ret⟩
      · obtain ⟨hw, hret⟩ := h.asleep i (by omega)
        exact ⟨(hframe.worker i he).trans ((Function.update_of_ne he _ _).trans hw),
          (hframe.threadRet i he).trans hret⟩
    · by_cases he : i = n
      · exact he ▸ hs₁.free
      · exact (hframe.mtxForWorkers i he).trans (h.free i)

theorem exists_paused (program : Program Text Query Result) (lines : List (Line Text)) :
    ∃ s : State Text Query Result, Reachable (poolSystem program lines) s ∧ Paused program 0 0 s ∧
      s.main = .readLine ∧ s.input = lines := by
  obtain ⟨s, hr, h⟩ : ∃ s : State Text Query Result, Reachable (poolSystem program lines) s ∧
      Creating lines program.numThread s := exists_creating _ le_rfl
  have m₁ : MainMove program s (s.setMain .readLine) := .created h.main (Nat.lt_irrefl _)
  exact ⟨_, m₁.reachable hr, ⟨h.active, Nat.zero_le _, fun i _ hi => absurd hi (Nat.not_lt_zero i),
    fun i hi _ => (h.asleep i hi).1, fun i hi => (h.asleep i hi).2, h.free, h.goes⟩, rfl, h.input⟩

/-- Worker 0 misses its last signal. -/
theorem Paused.stranded (h : Paused program 0 hi s) (hr : Reachable (poolSystem program lines) s)
    (hpos : 0 < hi) (hm : s.main = .readLine) (hinput : s.input = []) :
    ∃ s', Reachable (poolSystem program lines) s' ∧ s'.Stranded program 0 := by
  obtain ⟨arg, hw⟩ := h.busy 0 le_rfl hpos
  have hk : 0 < program.numThread := Nat.lt_of_lt_of_le hpos h.le
  let s₁ := s.setMain .setDone
  let s₂ := { s₁.setMain (.wakeLast 0) with isDone := true }
  let s₃ := s₂.setMain (.lockLast 0)
  let s₄ := (s₃.setMtx 0 (some .main)).setMain (.signalLast 0)
  let s₅ := s₄.setMain (.unlockLast 0)
  let s₆ := (s₅.setMtx 0 none).setMain (.join 0)
  have m₁ : MainMove program s s₁ := .endOfInput hm hinput
  have m₂ : MainMove program s₁ s₂ := .setDone rfl
  have m₃ : MainMove program s₂ s₃ := .wakeLast rfl hk
  have m₄ : MainMove program s₃ s₄ := .lockLast rfl (h.free 0)
  have m₅ : MainMove program s₄ s₅ := by
    have hsignal : MainMove program s₄ ((s₄.wake 0).setMain (.unlockLast 0)) := .signalLast rfl
    rwa [wake_of_ne (show s₄.worker 0 ≠ .waiting from fun he => nomatch hw.symm.trans he)] at hsignal
  have m₆ : MainMove program s₅ s₆ := .unlockLast rfl
  have hr₆ := m₆.reachable (m₅.reachable (m₄.reachable (m₃.reachable (m₂.reachable (m₁.reachable hr)))))
  have hfree : s₆.mtxForWorkers 0 = none := by
    rw [show s₆.mtxForWorkers = Function.update s₅.mtxForWorkers 0 none from rfl, Function.update_self]
  have hw₆ : s₆.worker 0 = .join arg := hw
  obtain ⟨s', hs'⟩ := works_joined hr₆ hw₆ hfree
  exact ⟨s', hs'.reachable, stranded_of_waiting hs'.frame.main hs'.phase⟩

theorem stranded_of_query (hk : 0 < program.numThread) {before : List (Line Text)} {text : Text}
    (hlines : lines = before ++ [.query text]) :
    ∃ s, Reachable (poolSystem program lines) s ∧ s.Stranded program 0 := by
  obtain ⟨s, hr, h, hm, hinput⟩ := exists_paused program lines
  obtain ⟨s₁, hi₁, hr₁, h₁, hm₁, hinput₁⟩ := h.readAll hr hk hm (hinput.trans hlines)
  obtain ⟨s₂, hi₂, hr₂, h₂, hpos, hm₂, hinput₂⟩ := h₁.query hr₁ hk hm₁ hinput₁
  exact h₂.stranded hr₂ hpos hm₂ hinput₂

/-- The pool shuts down cleanly on exactly the inputs whose last batch is flushed. -/
theorem never_stranded_iff (hk : 0 < program.numThread) :
    (∀ s, Reachable (poolSystem program lines) s → ∀ i, ¬ s.Stranded program i) ↔
      lines = [] ∨ lines.getLast? = some .flush := by
  constructor
  · intro hok
    rcases List.eq_nil_or_concat' lines with rfl | ⟨before, line, rfl⟩
    · exact .inl rfl
    · cases line with
      | flush => exact .inr List.getLast?_concat
      | query text =>
        obtain ⟨s, hr, hs⟩ := stranded_of_query hk rfl
        exact absurd hs (hok s hr 0)
  · exact fun hlines s hr i => not_stranded hk hlines hr

theorem never_stranded_forcedFlush :
    ([.query 1, .query 2, .flush] : List (Line Nat)).getLast? = some .flush ∧
      ∀ s, Reachable (poolSystem ⟨1, id, Nat.succ⟩ [.query 1, .query 2, .flush]) s →
        ∀ i, ¬ s.Stranded ⟨1, id, Nat.succ⟩ i :=
  ⟨rfl, (never_stranded_iff (by decide)).mpr (.inr rfl)⟩

/-- One query and no `F`, with the 47 threads of the program. -/
theorem unflushed_stranded : ∃ s, Reachable (poolSystem ⟨47, id, Nat.succ⟩ [.query 1]) s ∧
    s.Stranded ⟨47, id, Nat.succ⟩ 0 :=
  stranded_of_query (by decide) (List.nil_append _).symm

end QueryPool
