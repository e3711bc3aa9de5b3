import HyuIte4065.BufferPool.Chunk
import Mathlib.Algebra.BigOperators.Group.Finset.Basic
import Mathlib.Algebra.Order.BigOperators.Group.Finset

/-!
# The threads do what the serial loop does

Thread `t` owns the blocks whose index is `t` modulo the number of threads. No other thread stores
to their pages, and `main` does so only after the thread has ended. A list in the middle of
an append or a concatenation is described by what the stores that are left would make of it.
-/
namespace BufferPool

open Transition

variable {c : Chunk} {s s' : State} {mem : Memory} {free : UtList} {t u : ThreadId} {a : Actor}
  {it : Loop} {todo : List AppendStore} {w : Worker} {m : Main} {l l₀ : List Page} {p : Page} {i b : Nat}

/-! ### The serial loop -/

def Chunk.call (c : Chunk) (b : Nat) : Page × Frame := (c.blocks + b, c.frame + b * c.srvPageSize)

/-- Every block of the chunk, in order. -/
def Chunk.pages (c : Chunk) : List Page := (List.range c.size).map (c.blocks + ·)

theorem serialLoop_spec {r : Serial} (n b : Nat) (hb : b + n = c.size)
    (h : WellFormed r.mem r.free (l₀ ++ (List.range b).map (c.blocks + ·)))
    (hi : r.inits = (List.range b).map c.call) (outside : ∀ p ∈ l₀, ∀ b < c.size, p ≠ c.blocks + b) :
    let r' := c.serialLoop n (c.blocks + b) (c.frame + b * c.srvPageSize) r
    r'.inits = (List.range c.size).map c.call ∧ WellFormed r'.mem r'.free (l₀ ++ c.pages) := by
  induction n generalizing b r with
  | zero =>
    obtain rfl : b = c.size := by omega
    exact ⟨hi, h⟩
  | succ n ih =>
    have fresh : c.blocks + b ∉ l₀ ++ (List.range b).map (c.blocks + ·) := by
      intro hmem
      rcases List.mem_append.mp hmem with hmem | hmem
      · exact outside _ hmem b (by omega) rfl
      · simp at hmem
    have hframe : c.frame + b * c.srvPageSize + c.srvPageSize = c.frame + (b + 1) * c.srvPageSize := by
      rw [Nat.succ_mul, Nat.add_assoc]
    have happ := utListAppend_wellFormed h fresh
    simp only [Chunk.serialLoop]
    rw [hframe, Nat.add_assoc c.blocks]
    refine ih (b + 1) (by omega) ?_ ?_
    · rw [List.range_succ, List.map_append, ← List.append_assoc]
      exact happ
    · rw [List.range_succ, List.map_append, hi]
      rfl

/-! ### Who owns which page -/

def Chunk.Owned (c : Chunk) (t : ThreadId) (p : Page) : Prop :=
  ∃ b < c.size, b % c.numThread = t ∧ p = c.blocks + b

/-- `l` consists of the blocks with an index in `P`. -/
def Chunk.Lists (c : Chunk) (P : Nat → Prop) (l : List Page) : Prop :=
  ∀ p, p ∈ l ↔ ∃ b < c.size, P b ∧ p = c.blocks + b

theorem Chunk.Owned.unique (h : c.Owned t p) (hu : c.Owned u p) : t = u := by
  obtain ⟨b, -, hb, rfl⟩ := h
  obtain ⟨b', -, hb', he⟩ := hu
  obtain rfl : b = b' := Nat.add_left_cancel he
  exact hb.symm.trans hb'

theorem Chunk.Lists.congr {P Q : Nat → Prop} (h : c.Lists P l) (hPQ : ∀ b < c.size, P b ↔ Q b) :
    c.Lists Q l := by
  intro p
  rw [h p]
  refine exists_congr fun b => and_congr_right fun hb => ?_
  rw [hPQ b hb]

theorem Chunk.lists_nil {P : Nat → Prop} (h : ∀ b < c.size, ¬ P b) : c.Lists P [] := by
  intro p
  refine ⟨nofun, ?_⟩
  rintro ⟨b, hb, hP, -⟩
  exact absurd hP (h b hb)

theorem Chunk.Lists.append {P Q : Nat → Prop} {l' : List Page} (h : c.Lists P l) (h' : c.Lists Q l') :
    c.Lists (fun b => P b ∨ Q b) (l ++ l') := by
  intro p
  rw [List.mem_append, h p, h' p]
  constructor
  · rintro (⟨b, hb, hP, rfl⟩ | ⟨b, hb, hQ, rfl⟩)
    · exact ⟨b, hb, .inl hP, rfl⟩
    · exact ⟨b, hb, .inr hQ, rfl⟩
  · rintro ⟨b, hb, hP | hQ, rfl⟩
    · exact .inl ⟨b, hb, hP, rfl⟩
    · exact .inr ⟨b, hb, hQ, rfl⟩

theorem Chunk.Lists.perm (h : c.Lists (fun _ => True) l) (nodup : l.Nodup) : l.Perm c.pages := by
  have hinj : Function.Injective (c.blocks + ·) := fun _ _ h => Nat.add_left_cancel h
  refine (List.perm_ext_iff_of_nodup nodup (List.nodup_range.map hinj)).mpr fun p => ?_
  rw [h p]
  simp [eq_comm]

/-! ### The invariant -/

/-- The variables of a loop of thread `t`. -/
structure Loop.Ok (c : Chunk) (t : ThreadId) (it : Loop) : Prop where
  stride : it.i % c.numThread = t
  block : it.localBlock = c.blocks + it.i
  frame : it.localFrame = c.frame + it.i * c.srvPageSize

/-- With the stores in `todo` done, the local list of `t` holds the blocks of `t` below `bound`. -/
def Filling (c : Chunk) (s : State) (t : ThreadId) (it : Loop) (todo : List AppendStore)
    (bound : Nat) : Prop :=
  ∃ l, WellFormed (runAppend it.localBlock todo (s.mem, s.localFreeLists t)).1
      (runAppend it.localBlock todo (s.mem, s.localFreeLists t)).2 l ∧
    c.Lists (fun b => b % c.numThread = t ∧ b < bound) l

/-- The local lists that `main` has begun to join to the free list. -/
def Chunk.merging (c : Chunk) : Main → Nat
  | .initList _ | .create _ => 0
  | .join i | .testCount i => i
  | .concat i _ => i + 1
  | .returned => c.numThread

def Chunk.created (c : Chunk) : Main → Nat
  | .initList i | .create i => i
  | _ => c.numThread

def Chunk.joined (c : Chunk) : Main → Nat
  | .initList _ | .create _ => 0
  | .join i => i
  | .testCount i | .concat i _ => i + 1
  | .returned => c.numThread

/-- The blocks of a thread below this index are initialised. -/
def Chunk.initialised (c : Chunk) : Worker → Nat
  | .unborn => 0
  | .test it | .init it => it.i
  | .append it _ => it.i + c.numThread
  | .done => c.size

def WorkerOk (c : Chunk) (s : State) (t : ThreadId) : Worker → Prop
  | .unborn => True
  | .test it => it.Ok c t ∧ Filling c s t it [] it.i
  | .init it => it.Ok c t ∧ it.i < c.size ∧ Filling c s t it [] it.i
  | .append it todo => it.Ok c t ∧ it.i < c.size ∧
      (∀ p, (s.localFreeLists t).end_ = some p → c.Owned t p) ∧
      Filling c s t it todo (it.i + c.numThread)
  | .done => c.merging s.main ≤ t →
      ∃ l, WellFormed s.mem (s.localFreeLists t) l ∧ c.Lists (fun b => b % c.numThread = t) l

/-- The free list holds what it held before, then the blocks of the first `i` threads. -/
def Merged (c : Chunk) (l₀ : List Page) (i : Nat) (r : Memory × UtList) : Prop :=
  ∃ l, WellFormed r.1 r.2 (l₀ ++ l) ∧ c.Lists (fun b => b % c.numThread < i) l

def MainOk (c : Chunk) (l₀ : List Page) (s : State) : Main → Prop
  | .concat i todo => i < c.numThread ∧
      (∀ p, s.free.end_ = some p → p ∈ l₀ ∨ ∃ u ≤ i, c.Owned u p) ∧
      (∀ p, (s.localFreeLists i).start = some p → c.Owned i p) ∧
      (∀ p, (s.localFreeLists i).end_ = some p → c.Owned i p) ∧
      ∃ r, runConcat (s.localFreeLists i) todo (s.mem, s.free) = some r ∧ Merged c l₀ (i + 1) r
  | .create i => i < c.numThread ∧ s.localFreeLists i = utListInit ∧
      Merged c l₀ (c.merging s.main) (s.mem, s.free)
  | .testCount i => i < c.numThread ∧ Merged c l₀ (c.merging s.main) (s.mem, s.free)
  | .initList i | .join i => i ≤ c.numThread ∧ Merged c l₀ (c.merging s.main) (s.mem, s.free)
  | .returned => Merged c l₀ (c.merging s.main) (s.mem, s.free)

structure Inv (c : Chunk) (l₀ : List Page) (s : State) : Prop where
  created : ∀ t, s.worker t = .unborn ↔ c.created s.main ≤ t
  joined : ∀ t < c.joined s.main, s.worker t = .done
  workers : ∀ t < c.numThread, WorkerOk c s t (s.worker t)
  main : MainOk c l₀ s s.main
  nodup : s.inits.Nodup
  inits : ∀ x, x ∈ s.inits ↔
    ∃ b < c.size, b < c.initialised (s.worker (b % c.numThread)) ∧ x = c.call b

theorem Merged.agree {r r' : Memory × UtList} (h : Merged c l₀ i r)
    (ha : Agree (fun p => p ∈ l₀ ∨ ∃ u < i, c.Owned u p) r r') : Merged c l₀ i r' := by
  obtain ⟨l, hwf, hl⟩ := h
  refine ⟨l, hwf.agree ha fun p hp => ?_, hl⟩
  rcases List.mem_append.mp hp with hp | hp
  · exact .inl hp
  · obtain ⟨b, hb, hi, he⟩ := (hl p).mp hp
    exact .inr ⟨_, hi, b, hb, rfl, he⟩

theorem Filling.agree {bound : Nat} (h : Filling c s t it todo bound)
    (hl : s'.localFreeLists t = s.localFreeLists t) (hm : ∀ p, c.Owned t p → s'.mem p = s.mem p) :
    Filling c s' t it todo bound := by
  obtain ⟨l, hwf, hlist⟩ := h
  have ha : Agree (c.Owned t) (s.mem, s.localFreeLists t) (s'.mem, s'.localFreeLists t) := ⟨hl, hm⟩
  refine ⟨l, hwf.agree (ha.runAppend todo) fun p hp => ?_, hlist⟩
  obtain ⟨b, hb, ⟨ht, -⟩, he⟩ := (hlist p).mp hp
  exact ⟨b, hb, ht, he⟩

/-- A worker does not notice what happens to other pages and lists. -/
theorem WorkerOk.frame (h : WorkerOk c s t w)
    (hl : w ≠ .unborn → s'.localFreeLists t = s.localFreeLists t)
    (hm : ∀ p, c.Owned t p → s'.mem p = s.mem p)
    (hmain : c.merging s'.main ≤ t → c.merging s.main ≤ t) : WorkerOk c s' t w := by
  cases w with
  | unborn => trivial
  | test it => exact ⟨h.1, h.2.agree (hl nofun) hm⟩
  | init it => exact ⟨h.1, h.2.1, h.2.2.agree (hl nofun) hm⟩
  | append it todo =>
    refine ⟨h.1, h.2.1, ?_, h.2.2.2.agree (hl nofun) hm⟩
    rw [hl nofun]
    exact h.2.2.1
  | done =>
    intro hle
    obtain ⟨l, hwf, hlist⟩ := h (hmain hle)
    rw [hl nofun]
    refine ⟨l, hwf.congr fun p hp => hm p ?_, hlist⟩
    obtain ⟨b, hb, ht, he⟩ := (hlist p).mp hp
    exact ⟨b, hb, ht, he⟩

theorem merging_le_joined (c : Chunk) (m : Main) : c.merging m ≤ c.joined m := by
  cases m <;> simp [Chunk.merging, Chunk.joined]

/-! ### Which threads run -/

theorem actWorker_cases (h : s.actWorker c t = some s') :
    (∃ it, s.worker t = .test it ∧ s' = s.goto t (if it.i < c.size then .init it else .done)) ∨
    (∃ it, s.worker t = .init it ∧
      s' = { s with inits := s.inits ++ [(it.localBlock, it.localFrame)] }.goto t (.append it appendStores)) ∨
    (∃ it, s.worker t = .append it [] ∧ s' = s.goto t (.test (c.next it))) ∨
    (∃ it x todo r, s.worker t = .append it (x :: todo) ∧
      r = x.run it.localBlock (s.mem, s.localFreeLists t) ∧
      s' = ({ s with mem := r.1 }.setLocal t r.2).goto t (.append it todo)) := by
  cases hw : s.worker t with
  | unborn => simp [State.actWorker, hw] at h
  | test it =>
    simp only [State.actWorker, hw] at h
    exact .inl ⟨it, rfl, (Option.some.inj h).symm⟩
  | init it =>
    simp only [State.actWorker, hw] at h
    exact .inr (.inl ⟨it, rfl, (Option.some.inj h).symm⟩)
  | append it todo =>
    cases todo with
    | nil =>
      simp only [State.actWorker, hw] at h
      exact .inr (.inr (.inl ⟨it, rfl, (Option.some.inj h).symm⟩))
    | cons x todo =>
      simp only [State.actWorker, hw] at h
      exact .inr (.inr (.inr ⟨it, x, todo, _, rfl, rfl, (Option.some.inj h).symm⟩))
  | done => simp [State.actWorker, hw] at h

theorem actWorker_alive (h : s.actWorker c t = some s') :
    s.worker t ≠ .unborn ∧ s.worker t ≠ .done ∧ s'.worker t ≠ .unborn := by
  rcases actWorker_cases h with ⟨it, hw, rfl⟩ | ⟨it, hw, rfl⟩ | ⟨it, hw, rfl⟩ | ⟨it, x, todo, r, hw, -, rfl⟩
  · rw [hw]
    by_cases hi : it.i < c.size <;> simp [State.goto, hi]
  all_goals simp [hw, State.goto]

/-- A worker moves itself only and leaves the other lists alone. -/
theorem actWorker_same (h : s.actWorker c t = some s') :
    s'.main = s.main ∧ s'.free = s.free ∧ (∀ u ≠ t, s'.worker u = s.worker u) ∧
    ∀ u ≠ t, s'.localFreeLists u = s.localFreeLists u := by
  rcases actWorker_cases h with ⟨it, hw, rfl⟩ | ⟨it, hw, rfl⟩ | ⟨it, hw, rfl⟩ | ⟨it, x, todo, r, hw, -, rfl⟩
  case inr.inr.inr =>
    exact ⟨rfl, rfl, fun u hu => by simp [State.goto, State.setLocal, hu],
      fun u hu => by simp [State.goto, State.setLocal, hu]⟩
  all_goals exact ⟨rfl, rfl, fun u hu => by simp [State.goto, hu], fun u _ => rfl⟩

theorem actMain_cases (h : s.actMain c = some s') :
    (∃ i, s.main = .initList i ∧ i < c.numThread ∧
      s' = { s.setLocal i utListInit with main := .create i }) ∨
    (∃ i, s.main = .initList i ∧ ¬ i < c.numThread ∧ s' = { s with main := .join 0 }) ∨
    (∃ i, s.main = .create i ∧ s' = { s.goto i (.test (c.start i)) with main := .initList (i + 1) }) ∨
    (∃ i, s.main = .join i ∧ i < c.numThread ∧ s.worker i = .done ∧ s' = { s with main := .testCount i }) ∨
    (∃ i, s.main = .join i ∧ ¬ i < c.numThread ∧ s' = { s with main := .returned }) ∨
    (∃ i, s.main = .testCount i ∧
      s' = { s with main := .concat i (concatStores s.free (s.localFreeLists i)) }) ∨
    (∃ i, s.main = .concat i [] ∧ s' = { s with main := .join (i + 1) }) ∨
    (∃ i x todo r, s.main = .concat i (x :: todo) ∧ x.run (s.localFreeLists i) (s.mem, s.free) = some r ∧
      s' = { s with mem := r.1, free := r.2, main := .concat i todo }) := by
  cases hm : s.main with
  | initList i =>
    by_cases hi : i < c.numThread
    · simp only [State.actMain, hm, if_pos hi] at h
      exact .inl ⟨i, rfl, hi, (Option.some.inj h).symm⟩
    · simp only [State.actMain, hm, if_neg hi] at h
      exact .inr (.inl ⟨i, rfl, hi, (Option.some.inj h).symm⟩)
  | create i =>
    simp only [State.actMain, hm] at h
    exact .inr (.inr (.inl ⟨i, rfl, (Option.some.inj h).symm⟩))
  | join i =>
    by_cases hi : i < c.numThread
    · by_cases hw : s.worker i = .done
      · simp only [State.actMain, hm, if_pos hi, if_pos hw] at h
        exact .inr (.inr (.inr (.inl ⟨i, rfl, hi, hw, (Option.some.inj h).symm⟩)))
      · simp [State.actMain, hm, hi, hw] at h
    · simp only [State.actMain, hm, if_neg hi] at h
      exact .inr (.inr (.inr (.inr (.inl ⟨i, rfl, hi, (Option.some.inj h).symm⟩))))
  | testCount i =>
    simp only [State.actMain, hm] at h
    exact .inr (.inr (.inr (.inr (.inr (.inl ⟨i, rfl, (Option.some.inj h).symm⟩)))))
  | concat i todo =>
    cases todo with
    | nil =>
      simp only [State.actMain, hm] at h
      exact .inr (.inr (.inr (.inr (.inr (.inr (.inl ⟨i, rfl, (Option.some.inj h).symm⟩))))))
    | cons x todo =>
      simp only [State.actMain, hm] at h
      obtain ⟨r, hr, rfl⟩ := Option.map_eq_some_iff.mp h
      exact .inr (.inr (.inr (.inr (.inr (.inr (.inr ⟨i, x, todo, r, rfl, hr, rfl⟩))))))
  | returned => simp [State.actMain, hm] at h

/-- Threads are created in order, and joined in order. -/
structure Started (c : Chunk) (s : State) : Prop where
  created : ∀ t, s.worker t = .unborn ↔ c.created s.main ≤ t
  joined : ∀ t < c.joined s.main, s.worker t = .done
  counter : ∀ i, (s.main = .initList i → i ≤ c.numThread) ∧ (s.main = .create i → i < c.numThread)

theorem Started.created_le (h : Started c s) : c.created s.main ≤ c.numThread := by
  cases hm : s.main with
  | initList i => exact (h.counter i).1 hm
  | create i => exact Nat.le_of_lt ((h.counter i).2 hm)
  | _ => exact Nat.le_refl _

theorem Started.lt_numThread (h : Started c s) (hs : s.actWorker c t = some s') : t < c.numThread :=
  Nat.lt_of_lt_of_le (Nat.lt_of_not_le (mt (h.created t).mpr (actWorker_alive hs).1)) h.created_le

theorem started_start (localFreeLists : ThreadId → UtList) :
    Started c (.start mem free localFreeLists) where
  created t := ⟨fun _ => Nat.zero_le t, fun _ => rfl⟩
  joined t ht := absurd ht (Nat.not_lt_zero t)
  counter i := ⟨fun hm => by cases hm; exact Nat.zero_le _, fun hm => by cases hm⟩

theorem Started.actWorker (h : Started c s) (hs : s.actWorker c t = some s') : Started c s' := by
  obtain ⟨hborn, hrun, hborn'⟩ := actWorker_alive hs
  obtain ⟨hmain, -, hother, -⟩ := actWorker_same hs
  refine ⟨fun u => ?_, fun u hu => ?_, by rw [hmain]; exact h.counter⟩
  · by_cases hut : u = t
    · subst hut
      rw [hmain]
      exact ⟨fun hn => absurd hn hborn', fun hle => absurd ((h.created u).mpr hle) hborn⟩
    · rw [hmain, hother u hut]
      exact h.created u
  · rw [hmain] at hu
    have hut : u ≠ t := by
      rintro rfl
      exact hrun (h.joined u hu)
    rw [hother u hut]
    exact h.joined u hu

/-- After the last thread has been created `main` only joins. -/
theorem Started.joining (h : Started c s) (hw : s'.worker = s.worker) (hc : c.created s.main = c.numThread)
    (hjoin : ∀ i, s'.main ≠ .initList i ∧ s'.main ≠ .create i)
    (hjoined : ∀ t < c.joined s'.main, s.worker t = .done) : Started c s' := by
  have hcreated : c.created s'.main = c.numThread := by
    cases hm : s'.main with
    | initList i => exact absurd hm (hjoin i).1
    | create i => exact absurd hm (hjoin i).2
    | _ => rfl
  refine ⟨fun t => ?_, fun t ht => ?_, fun i => ⟨fun hm => absurd hm (hjoin i).1, fun hm => absurd hm (hjoin i).2⟩⟩
  · rw [hw, hcreated, ← hc]
    exact h.created t
  · rw [hw]
    exact hjoined t ht

theorem Started.actMain (h : Started c s) (hs : s.actMain c = some s') : Started c s' := by
  have hcreated := h.created
  have hjoined := h.joined
  rcases actMain_cases hs with ⟨i, hm, hi, rfl⟩ | ⟨i, hm, hi, rfl⟩ | ⟨i, hm, rfl⟩ | ⟨i, hm, hi, hw, rfl⟩ |
    ⟨i, hm, hi, rfl⟩ | ⟨i, hm, rfl⟩ | ⟨i, hm, rfl⟩ | ⟨i, x, todo, r, hm, hx, rfl⟩ <;>
    rw [hm] at hcreated hjoined
  · refine ⟨hcreated, hjoined, fun j => ⟨fun hj => ?_, fun hj => ?_⟩⟩
    · cases hj
    · cases hj
      exact hi
  · have hle := (h.counter i).1 hm
    obtain rfl : i = c.numThread := by omega
    exact h.joining rfl (by rw [hm]; rfl) (fun j => ⟨by simp, by simp⟩) hjoined
  · have hi := (h.counter i).2 hm
    refine ⟨fun t => ?_, fun t ht => absurd ht (Nat.not_lt_zero t), fun j => ⟨fun hj => ?_, fun hj => ?_⟩⟩
    · by_cases hti : t = i
      · subst hti
        simp [State.goto, Chunk.created]
      · have hold : s.worker t = .unborn ↔ i ≤ t := hcreated t
        simp only [State.goto, Function.update_of_ne hti, Chunk.created, hold]
        exact ⟨fun hle => Nat.lt_of_le_of_ne hle (Ne.symm hti), Nat.le_of_succ_le⟩
    · cases hj
      exact hi
    · cases hj
  · refine h.joining rfl (by rw [hm]; rfl) (fun j => ⟨by simp, by simp⟩) fun t ht => ?_
    rcases Nat.lt_succ_iff_lt_or_eq.mp ht with ht | rfl
    · exact hjoined t ht
    · exact hw
  · exact h.joining rfl (by rw [hm]; rfl) (fun j => ⟨by simp, by simp⟩)
      fun t ht => hjoined t (Nat.lt_of_lt_of_le ht (Nat.le_of_not_lt hi))
  all_goals exact h.joining rfl (by rw [hm]; rfl) (fun j => ⟨by simp, by simp⟩) hjoined

theorem Inv.started (h : Inv c l₀ s) : Started c s := by
  have hok := h.main
  refine ⟨h.created, h.joined, fun i => ⟨fun hm => ?_, fun hm => ?_⟩⟩ <;> rw [hm] at hok
  · exact hok.1
  · exact hok.1

/-! ### A step of a worker -/

/-- A worker stores to its own pages and its own list. -/
theorem Inv.actWorker_frame (h : Inv c l₀ s) (ht : t < c.numThread) (hs : s.actWorker c t = some s') :
    s'.main = s.main ∧ s'.free = s.free ∧ (∀ u ≠ t, s'.worker u = s.worker u) ∧
    (∀ u ≠ t, s'.localFreeLists u = s.localFreeLists u) ∧ ∀ p, ¬ c.Owned t p → s'.mem p = s.mem p := by
  obtain ⟨hmain, hfree, hother, hlist⟩ := actWorker_same hs
  refine ⟨hmain, hfree, hother, hlist, fun p hp => ?_⟩
  have hok := h.workers t ht
  rcases actWorker_cases hs with ⟨it, hw, rfl⟩ | ⟨it, hw, rfl⟩ | ⟨it, hw, rfl⟩ |
    ⟨it, x, todo, r, hw, rfl, rfl⟩
  case inr.inr.inr =>
    rw [hw] at hok
    obtain ⟨hit, hsize, hend, -⟩ := hok
    refine x.run_of_ne ?_ fun he => hp (hend p he)
    rintro rfl
    exact hp ⟨it.i, hsize, hit.stride, hit.block⟩
  all_goals rfl

/-- Below the next index of a loop lie the indices below this one, and this one. -/
theorem lt_stride {n i b : Nat} (hn : 0 < n) (hb : b % n = i % n) : b < i + n ↔ b < i ∨ b = i := by
  constructor
  · intro hlt
    by_cases hi : b < i
    · exact .inl hi
    · have hmod : (b - i) % n = 0 := Nat.sub_mod_eq_zero_of_mod_eq hb
      rw [Nat.mod_eq_of_lt (by omega)] at hmod
      omega
  · omega

theorem Chunk.Lists.stride (h : c.Lists (fun b => b % c.numThread = t ∧ b < i) l) (hi : i < c.size)
    (ht : i % c.numThread = t) (hn : 0 < c.numThread) :
    c.Lists (fun b => b % c.numThread = t ∧ b < i + c.numThread) (l ++ [c.blocks + i]) := by
  have hone : c.Lists (· = i) [c.blocks + i] := by
    intro p
    rw [List.mem_singleton]
    exact ⟨fun hp => ⟨i, hi, rfl, hp⟩, fun ⟨b, _, hb, hp⟩ => hb ▸ hp⟩
  refine (h.append hone).congr fun b _ => ⟨?_, ?_⟩
  · rintro (⟨hb, hlt⟩ | rfl)
    · exact ⟨hb, by omega⟩
    · exact ⟨ht, by omega⟩
  · rintro ⟨hb, hlt⟩
    rcases (lt_stride hn (hb.trans ht.symm)).mp hlt with hlt | rfl
    · exact .inl ⟨hb, hlt⟩
    · exact .inr rfl

theorem Loop.Ok.next (h : it.Ok c t) : (c.next it).Ok c t where
  stride := by rw [Chunk.next, Nat.add_mod_right]; exact h.stride
  block := by rw [Chunk.next, h.block, Nat.add_assoc]
  frame := by rw [Chunk.next, h.frame, Nat.add_mul, Nat.mul_comm c.srvPageSize, Nat.add_assoc]

theorem Loop.Ok.start (ht : t < c.numThread) : (c.start t).Ok c t where
  stride := Nat.mod_eq_of_lt ht
  block := rfl
  frame := by rw [Chunk.start, Nat.mul_comm]

/-- What a worker has done after its own step. -/
theorem Inv.actWorker_self (h : Inv c l₀ s) (ht : t < c.numThread) (hs : s.actWorker c t = some s') :
    WorkerOk c s' t (s'.worker t) := by
  have hok := h.workers t ht
  rcases actWorker_cases hs with ⟨it, hw, rfl⟩ | ⟨it, hw, rfl⟩ | ⟨it, hw, rfl⟩ |
    ⟨it, x, todo, r, hw, rfl, rfl⟩
  · rw [hw] at hok
    obtain ⟨hit, l, hwf, hlist⟩ := hok
    by_cases hi : it.i < c.size
    · simp only [State.goto, Function.update_self, if_pos hi]
      exact ⟨hit, hi, l, hwf, hlist⟩
    · simp only [State.goto, Function.update_self, if_neg hi]
      refine fun _ => ⟨l, hwf, hlist.congr fun b hb => ⟨And.left, fun he => ⟨he, by omega⟩⟩⟩
  · rw [hw] at hok
    obtain ⟨hit, hi, l, hwf, hlist⟩ := hok
    simp only [State.goto, Function.update_self]
    have fresh : it.localBlock ∉ l := by
      rw [hit.block]
      intro hmem
      obtain ⟨b, -, ⟨-, hlt⟩, he⟩ := (hlist _).mp hmem
      exact Nat.ne_of_gt hlt (Nat.add_left_cancel he)
    refine ⟨hit, hi, fun p hp => ?_, l ++ [it.localBlock], utListAppend_wellFormed hwf fresh, ?_⟩
    · obtain ⟨b, hb, ⟨hbt, -⟩, he⟩ := (hlist p).mp (List.mem_of_getLast? (hwf.end_.symm.trans hp))
      exact ⟨b, hb, hbt, he⟩
    · rw [hit.block]
      exact hlist.stride hi hit.stride (Nat.zero_lt_of_lt ht)
  · rw [hw] at hok
    obtain ⟨hit, hi, -, hfill⟩ := hok
    simp only [State.goto, Function.update_self]
    exact ⟨hit.next, hfill⟩
  · rw [hw] at hok
    obtain ⟨hit, hi, hend, hfill⟩ := hok
    have hown : c.Owned t it.localBlock := ⟨it.i, hi, hit.stride, hit.block⟩
    simp only [State.goto, Function.update_self]
    refine ⟨hit, hi, fun p hp => ?_, ?_⟩
    · simp only [State.setLocal, Function.update_self] at hp
      rcases x.run_end it.localBlock (s.mem, s.localFreeLists t) with he | he
      · exact hend p (he ▸ hp)
      · rw [he] at hp
        obtain rfl := Option.some.inj hp
        exact hown
    · obtain ⟨l, hwf, hlist⟩ := hfill
      refine ⟨l, ?_, hlist⟩
      simp only [State.setLocal, Function.update_self]
      exact hwf

theorem inits_congr (h : Inv c l₀ s) (hi : s'.inits = s.inits)
    (hw : ∀ b < c.size, b < c.initialised (s'.worker (b % c.numThread)) ↔
      b < c.initialised (s.worker (b % c.numThread))) (x : Page × Frame) :
    x ∈ s'.inits ↔ ∃ b < c.size, b < c.initialised (s'.worker (b % c.numThread)) ∧ x = c.call b := by
  rw [hi, h.inits x]
  refine exists_congr fun b => and_congr_right fun hb => ?_
  rw [hw b hb]

theorem call_injective (c : Chunk) : Function.Injective c.call := by
  intro b b' h
  exact Nat.add_left_cancel (Prod.mk.inj h).1

/-- Each call of `buf_block_init` is one that has not been made before. -/
theorem Inv.actWorker_inits (h : Inv c l₀ s) (ht : t < c.numThread) (hs : s.actWorker c t = some s') :
    s'.inits.Nodup ∧ ∀ x, x ∈ s'.inits ↔
      ∃ b < c.size, b < c.initialised (s'.worker (b % c.numThread)) ∧ x = c.call b := by
  have hok := h.workers t ht
  -- only what `t` has initialised can change
  have hcongr : s'.inits = s.inits →
      (∀ b < c.size, b < c.initialised (s'.worker t) ↔ b < c.initialised (s.worker t)) →
      s'.inits.Nodup ∧ ∀ x, x ∈ s'.inits ↔
        ∃ b < c.size, b < c.initialised (s'.worker (b % c.numThread)) ∧ x = c.call b := by
    intro hi hw
    refine ⟨hi ▸ h.nodup, inits_congr h hi fun b hb => ?_⟩
    by_cases hbt : b % c.numThread = t
    · rw [hbt]
      exact hw b hb
    · rw [(h.actWorker_frame ht hs).2.2.1 _ hbt]
  rcases actWorker_cases hs with ⟨it, hw, rfl⟩ | ⟨it, hw, rfl⟩ | ⟨it, hw, rfl⟩ |
    ⟨it, x, todo, r, hw, rfl, rfl⟩
  · refine hcongr rfl fun b hb => ?_
    simp only [State.goto, Function.update_self, hw]
    by_cases hi : it.i < c.size
    · rw [if_pos hi]
      rfl
    · simp only [if_neg hi, Chunk.initialised]
      omega
  · rw [hw] at hok
    obtain ⟨hit, hi, -⟩ := hok
    have hcall : (it.localBlock, it.localFrame) = c.call it.i := by rw [hit.block, hit.frame]; rfl
    have hnew : ∀ b, b < c.initialised (s.worker (b % c.numThread)) → b ≠ it.i := by
      rintro b hb rfl
      rw [hit.stride, hw] at hb
      exact Nat.lt_irrefl _ hb
    simp only [State.goto, hcall]
    constructor
    · refine List.nodup_append.mpr ⟨h.nodup, by simp, fun x hx y hy => ?_⟩
      obtain ⟨b, -, hb, rfl⟩ := (h.inits x).mp hx
      rw [List.mem_singleton.mp hy]
      exact fun he => hnew b hb (call_injective c he)
    · intro x
      rw [List.mem_append, List.mem_singleton, h.inits x]
      have hdone : ∀ b, b < c.initialised (Function.update s.worker t (.append it appendStores)
          (b % c.numThread)) ↔ b < c.initialised (s.worker (b % c.numThread)) ∨ b = it.i := by
        intro b
        by_cases hbt : b % c.numThread = t
        · rw [hbt, Function.update_self, hw]
          exact lt_stride (Nat.zero_lt_of_lt ht) (hbt.trans hit.stride.symm)
        · rw [Function.update_of_ne hbt]
          refine (or_iff_left fun hb => hbt ?_).symm
          rw [hb]
          exact hit.stride
      constructor
      · rintro (⟨b, hb, hlt, rfl⟩ | rfl)
        · exact ⟨b, hb, (hdone b).mpr (.inl hlt), rfl⟩
        · exact ⟨it.i, hi, (hdone it.i).mpr (.inr rfl), rfl⟩
      · rintro ⟨b, hb, hlt, rfl⟩
        rcases (hdone b).mp hlt with hlt | rfl
        · exact .inl ⟨b, hb, hlt, rfl⟩
        · exact .inr rfl
  · refine hcongr rfl fun b hb => ?_
    simp only [State.goto, Function.update_self, hw]
    rfl
  · refine hcongr rfl fun b hb => ?_
    simp only [State.goto, Function.update_self, hw]
    rfl

/-- What `main` has made of the free list does not depend on a thread that is still running. -/
theorem Inv.actWorker_main (h : Inv c l₀ s) (outside : ∀ p ∈ l₀, ∀ b < c.size, p ≠ c.blocks + b)
    (ht : t < c.numThread) (hs : s.actWorker c t = some s') : MainOk c l₀ s' s'.main := by
  obtain ⟨hborn, hrun, -⟩ := actWorker_alive hs
  obtain ⟨hmain, hfree, -, hlist, hmem⟩ := h.actWorker_frame ht hs
  have hcreated : t < c.created s.main := Nat.lt_of_not_le (mt (h.created t).mpr hborn)
  have hjoined : c.joined s.main ≤ t := Nat.le_of_not_lt (mt (h.joined t) hrun)
  have hagree : ∀ i ≤ c.joined s.main,
      Agree (fun p => p ∈ l₀ ∨ ∃ u < i, c.Owned u p) (s.mem, s.free) (s'.mem, s'.free) := by
    refine fun i hi => ⟨hfree, fun p hp => hmem p ?_⟩
    rintro ⟨b, hb, hbt, rfl⟩
    rcases hp with hp | ⟨u, hu, hp⟩
    · exact outside _ hp b hb rfl
    · obtain rfl := hp.unique ⟨b, hb, hbt, rfl⟩
      omega
  have hmerged : Merged c l₀ (c.merging s.main) (s.mem, s.free) →
      Merged c l₀ (c.merging s'.main) (s'.mem, s'.free) := by
    rw [hmain]
    exact fun hm => hm.agree (hagree _ (merging_le_joined c s.main))
  have hok := h.main
  rw [hmain]
  cases hm : s.main with
  | concat i todo =>
    rw [hm] at hok hjoined hagree
    obtain ⟨hi, hend, hstart₂, hend₂, r, hr, l, hwf, hl⟩ := hok
    have hne : i ≠ t := Nat.ne_of_lt hjoined
    rw [MainOk, hlist i hne, hfree]
    obtain ⟨r', hr', ha⟩ := (hagree (i + 1) (Nat.le_refl _)).runConcat hr
    rw [hfree] at hr'
    exact ⟨hi, hend, hstart₂, hend₂, r', hr', Merged.agree ⟨l, hwf, hl⟩ ha⟩
  | create i =>
    rw [hm] at hok hcreated
    have hne : i ≠ t := Nat.ne_of_gt hcreated
    refine ⟨hok.1, by rw [hlist i hne]; exact hok.2.1, hmerged ?_⟩
    rw [hm]
    simpa [hm] using hok.2.2
  | initList i | join i | testCount i =>
    rw [hm] at hok
    exact ⟨hok.1, hmerged hok.2⟩
  | returned =>
    rw [hm] at hok
    exact hmerged hok

theorem Inv.actWorker (h : Inv c l₀ s) (outside : ∀ p ∈ l₀, ∀ b < c.size, p ≠ c.blocks + b)
    (hs : s.actWorker c t = some s') : Inv c l₀ s' := by
  have hstarted := h.started.actWorker hs
  have ht := h.started.lt_numThread hs
  obtain ⟨hmain, hfree, hother, hlist, hmem⟩ := h.actWorker_frame ht hs
  obtain ⟨hnodup, hinits⟩ := h.actWorker_inits ht hs
  refine ⟨hstarted.created, hstarted.joined, fun u hu => ?_, h.actWorker_main outside ht hs, hnodup, hinits⟩
  by_cases hut : u = t
  · subst hut
    exact h.actWorker_self ht hs
  · rw [hother u hut]
    refine (h.workers u hu).frame (fun _ => hlist u hut) (fun p hp => hmem p fun hpt => hut (hp.unique hpt)) ?_
    rw [hmain]
    exact id

/-! ### A step of `main` -/

/-- A step of `main` that creates no thread. -/
theorem Inv.main_frame (h : Inv c l₀ s) (hs : Started c s') (hw : s'.worker = s.worker)
    (hi : s'.inits = s.inits) (hmerging : c.merging s.main ≤ c.merging s'.main)
    (hl : ∀ t, s.worker t ≠ .unborn → s'.localFreeLists t = s.localFreeLists t)
    (hm : ∀ t p, c.merging s'.main ≤ t → c.Owned t p → s'.mem p = s.mem p)
    (hok : MainOk c l₀ s' s'.main) : Inv c l₀ s' := by
  refine ⟨hs.created, hs.joined, fun t ht => ?_, hok, hi ▸ h.nodup,
    inits_congr h hi fun b _ => by rw [hw]⟩
  by_cases hle : c.merging s'.main ≤ t
  · rw [hw]
    exact (h.workers t ht).frame (hl t) (fun p => hm t p hle) fun hle' => by omega
  · -- the list of `t` is no longer a list of its own
    rw [hs.joined t (Nat.lt_of_lt_of_le (Nat.lt_of_not_le hle) (merging_le_joined c s'.main))]
    exact fun hle' => absurd hle' hle

theorem Inv.initList (h : Inv c l₀ s) (hm : s.main = .initList i) (hi : i < c.numThread)
    (hs : Started c { s.setLocal i utListInit with main := .create i }) :
    Inv c l₀ { s.setLocal i utListInit with main := .create i } := by
  have hok := h.main
  rw [hm] at hok
  refine h.main_frame hs rfl rfl (Nat.le_of_eq (by rw [hm]; rfl)) ?_ (fun _ _ _ _ => rfl) ?_
  · intro t ht
    refine Function.update_of_ne ?_ _ _
    rintro rfl
    refine ht ((h.created t).mpr ?_)
    rw [hm]
    exact Nat.le_refl _
  · refine ⟨hi, Function.update_self _ _ _, ?_⟩
    have hmerged := hok.2
    rw [hm] at hmerged
    exact hmerged

theorem Inv.create (h : Inv c l₀ s) (hm : s.main = .create i)
    (hs : Started c { s.goto i (.test (c.start i)) with main := .initList (i + 1) }) :
    Inv c l₀ { s.goto i (.test (c.start i)) with main := .initList (i + 1) } := by
  have hok := h.main
  rw [hm] at hok
  obtain ⟨hi, hlist, hmerged⟩ := hok
  have hunborn : s.worker i = .unborn := (h.created i).mpr (by rw [hm]; exact Nat.le_refl i)
  refine ⟨hs.created, hs.joined, fun t ht => ?_, ⟨hi, by rw [hm] at hmerged; exact hmerged⟩, h.nodup, ?_⟩
  · by_cases hti : t = i
    · subst hti
      simp only [State.goto, Function.update_self]
      refine ⟨.start ht, [], ?_, Chunk.lists_nil fun b _ hb => ?_⟩
      · show WellFormed s.mem (s.localFreeLists t) []
        rw [hlist]
        exact wellFormed_init s.mem
      · have hle := Nat.mod_le b c.numThread
        rw [hb.1] at hle
        exact Nat.not_lt_of_le hle hb.2
    · simp only [State.goto, Function.update_of_ne hti]
      exact (h.workers t ht).frame (fun _ => rfl) (fun _ _ => rfl) fun _ => by rw [hm]; exact Nat.zero_le t
  · refine inits_congr h rfl fun b _ => ?_
    by_cases hti : b % c.numThread = i
    · simp only [State.goto, hti, Function.update_self, hunborn, Chunk.initialised, Chunk.start]
      have hle := Nat.mod_le b c.numThread
      omega
    · simp only [State.goto, Function.update_of_ne hti]

/-- The tests at the head of `ut_list_concat`. -/
theorem Inv.testCount (h : Inv c l₀ s) (outside : ∀ p ∈ l₀, ∀ b < c.size, p ≠ c.blocks + b)
    (hm : s.main = .testCount i)
    (hs : Started c { s with main := .concat i (concatStores s.free (s.localFreeLists i)) }) :
    Inv c l₀ { s with main := .concat i (concatStores s.free (s.localFreeLists i)) } := by
  have hok := h.main
  rw [hm] at hok
  obtain ⟨hi, hmerged⟩ := hok
  rw [hm] at hmerged
  obtain ⟨l, hwf, hl⟩ := hmerged
  have hdone : s.worker i = .done := h.joined i (by rw [hm]; exact Nat.lt_succ_self i)
  have hworker := h.workers i hi
  rw [hdone] at hworker
  obtain ⟨l', hwf', hl'⟩ := hworker (by rw [hm]; exact Nat.le_refl i)
  have hown : ∀ p ∈ l', c.Owned i p := fun p hp => (hl' p).mp hp
  have hown₀ : ∀ p ∈ l₀ ++ l, p ∈ l₀ ∨ ∃ u < i, c.Owned u p := by
    intro p hp
    rcases List.mem_append.mp hp with hp | hp
    · exact .inl hp
    · obtain ⟨b, hb, hlt, he⟩ := (hl p).mp hp
      exact .inr ⟨_, hlt, b, hb, rfl, he⟩
  have nodup : (l₀ ++ l ++ l').Nodup := by
    refine List.nodup_append.mpr ⟨hwf.nodup, hwf'.nodup, ?_⟩
    rintro p hp q hq rfl
    rcases hown₀ p hp with hp | ⟨u, hu, hp⟩
    · obtain ⟨b, hb, -, he⟩ := hown p hq
      exact outside p hp b hb he
    · exact Nat.ne_of_lt hu (hp.unique (hown p hq))
  obtain ⟨r, hr, hwfr⟩ := concatStores_wellFormed hwf hwf' nodup
  refine h.main_frame hs rfl rfl ?_ (fun _ _ => rfl) (fun _ _ _ _ => rfl)
    ⟨hi, fun p hp => ?_, fun p hp => ?_, fun p hp => ?_, r, hr, l ++ l', ?_, ?_⟩
  · rw [hm]
    exact Nat.le_succ i
  · rcases hown₀ p (List.mem_of_getLast? (hwf.end_.symm.trans hp)) with hp | ⟨u, hu, hp⟩
    · exact .inl hp
    · exact .inr ⟨u, Nat.le_of_lt hu, hp⟩
  · exact hown p (List.mem_of_head? (hwf'.start.symm.trans hp))
  · exact hown p (List.mem_of_getLast? (hwf'.end_.symm.trans hp))
  · rw [← List.append_assoc]
    exact hwfr
  · exact (hl.append hl').congr fun b _ => Nat.lt_succ_iff_lt_or_eq.symm

theorem Inv.concat {x : ConcatStore} {todo : List ConcatStore} {r : Memory × UtList} (h : Inv c l₀ s)
    (outside : ∀ p ∈ l₀, ∀ b < c.size, p ≠ c.blocks + b) (hm : s.main = .concat i (x :: todo))
    (hx : x.run (s.localFreeLists i) (s.mem, s.free) = some r)
    (hs : Started c { s with mem := r.1, free := r.2, main := .concat i todo }) :
    Inv c l₀ { s with mem := r.1, free := r.2, main := .concat i todo } := by
  have hok := h.main
  rw [hm] at hok
  obtain ⟨hi, hend, hstart₂, hend₂, r', hr', hmerged⟩ := hok
  obtain ⟨r₁, hx₁, hr⟩ := Option.bind_eq_some_iff.mp hr'
  obtain rfl : r = r₁ := Option.some.inj (hx.symm.trans hx₁)
  refine h.main_frame hs rfl rfl ?_ (fun _ _ => rfl) ?_
    ⟨hi, fun p hp => ?_, hstart₂, hend₂, r', hr, hmerged⟩
  · rw [hm]
    exact Nat.le_refl _
  · -- the pages of the threads that are not joined yet are not touched
    intro t p ht hp
    refine ConcatStore.run_of_ne hx (fun he => ?_) fun he => ?_
    · exact Nat.ne_of_lt ht ((hstart₂ p he).unique hp)
    · rcases hend p he with hl | ⟨u, hu, hp'⟩
      · obtain ⟨b, hb, -, he⟩ := hp
        exact outside p hl b hb he
      · exact Nat.ne_of_lt (Nat.lt_of_le_of_lt hu ht) (hp'.unique hp)
  · rcases ConcatStore.run_end hx with he | he
    · exact hend p (he ▸ hp)
    · exact .inr ⟨i, Nat.le_refl i, hend₂ p (he ▸ hp)⟩

theorem Inv.actMain (h : Inv c l₀ s) (outside : ∀ p ∈ l₀, ∀ b < c.size, p ≠ c.blocks + b)
    (hs : s.actMain c = some s') : Inv c l₀ s' := by
  have hok := h.main
  have hstarted := h.started.actMain hs
  rcases actMain_cases hs with ⟨i, hm, hi, rfl⟩ | ⟨i, hm, hi, rfl⟩ | ⟨i, hm, rfl⟩ | ⟨i, hm, hi, hw, rfl⟩ |
    ⟨i, hm, hi, rfl⟩ | ⟨i, hm, rfl⟩ | ⟨i, hm, rfl⟩ | ⟨i, x, todo, r, hm, hx, rfl⟩
  · exact h.initList hm hi hstarted
  · rw [hm] at hok
    obtain ⟨hle, hmerged⟩ := hok
    rw [hm] at hmerged
    exact h.main_frame hstarted rfl rfl (by rw [hm]; exact Nat.le_refl 0) (fun _ _ => rfl)
      (fun _ _ _ _ => rfl) ⟨Nat.zero_le _, hmerged⟩
  · exact h.create hm hstarted
  · rw [hm] at hok
    have hmerged := hok.2
    rw [hm] at hmerged
    exact h.main_frame hstarted rfl rfl (by rw [hm]; exact Nat.le_refl i) (fun _ _ => rfl)
      (fun _ _ _ _ => rfl) ⟨hi, hmerged⟩
  · rw [hm] at hok
    obtain ⟨hle, hmerged⟩ := hok
    obtain rfl : i = c.numThread := by omega
    rw [hm] at hmerged
    exact h.main_frame hstarted rfl rfl (by rw [hm]; exact Nat.le_refl _) (fun _ _ => rfl)
      (fun _ _ _ _ => rfl) hmerged
  · exact h.testCount outside hm hstarted
  · rw [hm] at hok
    obtain ⟨hi, -, -, -, r, hr, hmerged⟩ := hok
    obtain rfl : (s.mem, s.free) = r := Option.some.inj hr
    exact h.main_frame hstarted rfl rfl (by rw [hm]; exact Nat.le_refl _) (fun _ _ => rfl)
      (fun _ _ _ _ => rfl) ⟨hi, hmerged⟩
  · exact h.concat outside hm hx hstarted

theorem Inv.start (h : WellFormed mem free l₀) (localFreeLists : ThreadId → UtList) :
    Inv c l₀ (.start mem free localFreeLists) := by
  refine ⟨(started_start localFreeLists).created, (started_start localFreeLists).joined, fun t _ => trivial,
    ⟨Nat.zero_le _, [], ?_, Chunk.lists_nil fun b _ hb => Nat.not_lt_zero _ hb⟩, List.nodup_nil,
    fun x => ⟨nofun, ?_⟩⟩
  · rw [List.append_nil]
    exact h
  · rintro ⟨b, -, hb, -⟩
    exact absurd hb (Nat.not_lt_zero b)

theorem reachable_inv (h₀ : WellFormed mem free l₀) (outside : ∀ p ∈ l₀, ∀ b < c.size, p ≠ c.blocks + b)
    (h : Reachable (createSystem c mem free) s) : Inv c l₀ s := by
  refine h.invariant (I := Inv c l₀) ?_ ?_
  · rintro s ⟨localFreeLists, rfl⟩
    exact .start h₀ localFreeLists
  · intro s a s' _ hi hs
    cases a with
    | main => exact hi.actMain outside hs
    | worker t => exact hi.actWorker outside hs

/-! ### Progress -/

/-- Some thread can move until `create` returns. -/
theorem Inv.progress (h : Inv c l₀ s) (hm : s.main ≠ .returned) : ∃ a s', s.act c a = some s' := by
  have hok := h.main
  cases hs : s.main with
  | initList i =>
    by_cases hi : i < c.numThread
    · exact ⟨.main, _, by simp only [State.act, State.actMain, hs, if_pos hi]; rfl⟩
    · exact ⟨.main, _, by simp only [State.act, State.actMain, hs, if_neg hi]; rfl⟩
  | create i => exact ⟨.main, _, by simp only [State.act, State.actMain, hs]; rfl⟩
  | join i =>
    by_cases hi : i < c.numThread
    · -- either thread `i` has ended, or it can move
      cases hw : s.worker i with
      | unborn =>
        have hle := (h.created i).mp hw
        rw [hs] at hle
        exact absurd hi (Nat.not_lt_of_le hle)
      | done => exact ⟨.main, _, by simp only [State.act, State.actMain, hs, if_pos hi, if_pos hw]; rfl⟩
      | append it todo =>
        cases todo with
        | nil => exact ⟨.worker i, _, by simp only [State.act, State.actWorker, hw]; rfl⟩
        | cons x todo => exact ⟨.worker i, _, by simp only [State.act, State.actWorker, hw]; rfl⟩
      | _ => exact ⟨.worker i, _, by simp only [State.act, State.actWorker, hw]; rfl⟩
    · exact ⟨.main, _, by simp only [State.act, State.actMain, hs, if_neg hi]; rfl⟩
  | testCount i => exact ⟨.main, _, by simp only [State.act, State.actMain, hs]; rfl⟩
  | concat i todo =>
    cases todo with
    | nil => exact ⟨.main, _, by simp only [State.act, State.actMain, hs]; rfl⟩
    | cons x todo =>
      rw [hs] at hok
      obtain ⟨-, -, -, -, r', hr', -⟩ := hok
      obtain ⟨r, hx, -⟩ := Option.bind_eq_some_iff.mp hr'
      exact ⟨.main, _, by simp only [State.act, State.actMain, hs, hx]; rfl⟩
  | returned => exact absurd hs hm

/-- At most so many steps are left to a worker, and to `main`. -/
def Chunk.workerLeft (c : Chunk) : Worker → Nat
  | .unborn => 9 * c.size + 2
  | .test it => 9 * (c.size - it.i) + 1
  | .init it => 9 * (c.size - it.i)
  | .append it todo => 9 * (c.size - it.i) - 7 + todo.length
  | .done => 0

def Chunk.mainLeft (c : Chunk) : Main → Nat
  | .initList i => 8 * c.numThread + 2 + 2 * (c.numThread - i)
  | .create i => 8 * c.numThread + 1 + 2 * (c.numThread - i)
  | .join i => 8 * (c.numThread - i) + 1
  | .testCount i => 8 * (c.numThread - i)
  | .concat i todo => 8 * (c.numThread - i) - 6 + todo.length
  | .returned => 0

def Chunk.left (c : Chunk) (s : State) : Nat :=
  c.mainLeft s.main + ∑ t ∈ Finset.range c.numThread, c.workerLeft (s.worker t)

theorem concatStores_length (list1 list2 : UtList) : (concatStores list1 list2).length ≤ 4 := by
  rw [concatStores]
  split
  · exact Nat.zero_le 4
  · split <;> simp

theorem left_worker (hmain : s'.main = s.main) (ht : t < c.numThread)
    (hother : ∀ u ≠ t, s'.worker u = s.worker u)
    (hlt : c.workerLeft (s'.worker t) < c.workerLeft (s.worker t)) : c.left s' < c.left s := by
  rw [Chunk.left, Chunk.left, hmain]
  refine Nat.add_lt_add_left (Finset.sum_lt_sum (fun u _ => ?_) ⟨t, Finset.mem_range.mpr ht, hlt⟩) _
  by_cases hut : u = t
  · subst hut
    exact Nat.le_of_lt hlt
  · rw [hother u hut]

theorem Inv.left_actWorker (h : Inv c l₀ s) (hs : s.actWorker c t = some s') : c.left s' < c.left s := by
  have ht := h.started.lt_numThread hs
  have hok := h.workers t ht
  obtain ⟨hmain, -, hother, -⟩ := h.actWorker_frame ht hs
  refine left_worker hmain ht hother ?_
  rcases actWorker_cases hs with ⟨it, hw, rfl⟩ | ⟨it, hw, rfl⟩ | ⟨it, hw, rfl⟩ |
    ⟨it, x, todo, r, hw, rfl, rfl⟩
  · simp only [State.goto, Function.update_self, hw]
    by_cases hi : it.i < c.size
    · rw [if_pos hi]
      exact Nat.lt_succ_self _
    · rw [if_neg hi]
      exact Nat.succ_pos _
  · rw [hw] at hok
    have hi := hok.2.1
    simp only [State.goto, Function.update_self, hw, Chunk.workerLeft, appendStores, List.length_cons,
      List.length_nil]
    omega
  · rw [hw] at hok
    have hi := hok.2.1
    have hn := Nat.zero_lt_of_lt ht
    simp only [State.goto, Function.update_self, hw, Chunk.workerLeft, Chunk.next, List.length_nil]
    omega
  · simp only [State.goto, Function.update_self, hw, Chunk.workerLeft, List.length_cons]
    omega

theorem Inv.left_actMain (h : Inv c l₀ s) (hs : s.actMain c = some s') : c.left s' < c.left s := by
  have hok := h.main
  rcases actMain_cases hs with ⟨i, hm, hi, rfl⟩ | ⟨i, hm, hi, rfl⟩ | ⟨i, hm, rfl⟩ | ⟨i, hm, hi, hw, rfl⟩ |
    ⟨i, hm, hi, rfl⟩ | ⟨i, hm, rfl⟩ | ⟨i, hm, rfl⟩ | ⟨i, x, todo, r, hm, hx, rfl⟩
  case inr.inr.inl =>
    rw [hm] at hok
    have hi := hok.1
    have hsum : ∑ t ∈ Finset.range c.numThread, c.workerLeft ((s.goto i (.test (c.start i))).worker t) ≤
        ∑ t ∈ Finset.range c.numThread, c.workerLeft (s.worker t) := by
      refine Finset.sum_le_sum fun t _ => ?_
      by_cases hti : t = i
      · subst hti
        have hunborn : s.worker t = .unborn := (h.created t).mpr (by rw [hm]; exact Nat.le_refl t)
        simp only [State.goto, Function.update_self, hunborn, Chunk.workerLeft, Chunk.start]
        omega
      · simp [State.goto, hti]
    have hmain : c.mainLeft (.initList (i + 1)) < c.mainLeft s.main := by
      rw [hm]
      simp only [Chunk.mainLeft]
      omega
    exact Nat.add_lt_add_of_lt_of_le hmain hsum
  all_goals
    rw [hm] at hok
    refine Nat.add_lt_add_right ?_ _
    simp only [hm, Chunk.mainLeft]
  · omega
  · omega
  · omega
  · omega
  · have hi := hok.1
    have hlen := concatStores_length s.free (s.localFreeLists i)
    omega
  · have hi := hok.1
    simp only [List.length_nil]
    omega
  · simp only [List.length_cons]
    omega

theorem left_decreases (h₀ : WellFormed mem free l₀) (outside : ∀ p ∈ l₀, ∀ b < c.size, p ≠ c.blocks + b)
    {a : Actor} (hs : Reachable (createSystem c mem free) s) (h : s.act c a = some s') :
    c.left s' < c.left s := by
  have hinv := reachable_inv h₀ outside hs
  cases a with
  | main => exact hinv.left_actMain h
  | worker t => exact hinv.left_actWorker h

/-- Whatever the interleaving: no thread stops before `create` returns, which it does, and then
the blocks are initialised by the calls that the serial loop makes, and the free list holds
what it held before and then every block of the chunk. -/
theorem create_parallel (h₀ : WellFormed mem free l₀)
    (outside : ∀ p ∈ l₀, ∀ b < c.size, p ≠ c.blocks + b) (hn : 0 < c.numThread) :
    ((c.serialInit mem free).inits = (List.range c.size).map c.call ∧
      WellFormed (c.serialInit mem free).mem (c.serialInit mem free).free (l₀ ++ c.pages)) ∧
    (∀ s, Reachable (createSystem c mem free) s →
      (s.main ≠ .returned → ∃ a s', s.act c a = some s') ∧
      (s.main = .returned → s.inits.Perm (c.serialInit mem free).inits ∧
        ∃ l, l.Perm c.pages ∧ WellFormed s.mem s.free (l₀ ++ l))) ∧
    ∃ bound, ∀ e : Execution (createSystem c mem free), e.length ≤ bound := by
  have hserial : (c.serialInit mem free).inits = (List.range c.size).map c.call ∧
      WellFormed (c.serialInit mem free).mem (c.serialInit mem free).free (l₀ ++ c.pages) := by
    have h := serialLoop_spec (c := c) (r := ⟨mem, free, []⟩) c.size 0 (Nat.zero_add _)
      (by simpa using h₀) rfl outside
    simpa [Chunk.serialInit] using h
  refine ⟨hserial, fun s hr => ⟨fun hm => (reachable_inv h₀ outside hr).progress hm, fun hm => ?_⟩, ?_⟩
  · have h := reachable_inv h₀ outside hr
    have hmod : ∀ b, b % c.numThread < c.numThread := fun b => Nat.mod_lt b hn
    constructor
    · rw [hserial.1]
      refine (List.perm_ext_iff_of_nodup h.nodup (List.nodup_range.map (call_injective c))).mpr fun x => ?_
      have hdone : ∀ b, s.worker (b % c.numThread) = .done := by
        intro b
        refine h.joined _ ?_
        rw [hm]
        exact hmod b
      rw [h.inits x]
      simp only [hdone, Chunk.initialised, List.mem_map, List.mem_range]
      exact exists_congr fun b => ⟨fun ⟨hb, _, he⟩ => ⟨hb, he.symm⟩, fun ⟨hb, he⟩ => ⟨hb, hb, he.symm⟩⟩
    · have hok := h.main
      rw [hm] at hok
      obtain ⟨l, hwf, hl⟩ := hok
      rw [hm] at hl
      have hall : c.Lists (fun _ => True) l := hl.congr fun b _ => iff_true_intro (hmod b)
      exact ⟨l, hall.perm (List.nodup_append.mp hwf.nodup).2.1, hwf⟩
  · refine ⟨c.left (.start mem free fun _ => utListInit), fun e => ?_⟩
    have hleft := e.length_add_le c.left (fun s a s' hs h => left_decreases h₀ outside hs h) (Nat.le_refl e.length)
    obtain ⟨localFreeLists, hstart⟩ := e.starts
    rw [hstart] at hleft
    exact (Nat.le_add_right _ _).trans hleft

/-- Two threads and two blocks; page 7 is free already. The second thread is always a step ahead. -/
def twoThreads : Chunk := ⟨2, 2, 16384, 100, 0⟩

def oneFree : Memory := fun _ => ⟨none, none⟩

def twoThreadsRun : List Actor :=
  List.replicate 5 .main ++ (List.replicate 10 [.worker 1, .worker 0]).flatten ++ List.replicate 15 .main

theorem create_parallel_twoThreads :
    ∃ s, twoThreadsRun.foldlM (State.act twoThreads)
        (State.start oneFree ⟨1, some 7, some 7⟩ fun _ => utListInit) = some s ∧
      s.inits.Perm [(100, 0), (101, 16384)] ∧
      ∃ l, l.Perm [100, 101] ∧ WellFormed s.mem s.free ([7] ++ l) := by
  have h₀ : WellFormed oneFree ⟨1, some 7, some 7⟩ [7] := by
    refine ⟨fun xs a ys he => ?_, rfl, rfl, rfl, by simp⟩
    cases xs with
    | nil =>
      obtain ⟨rfl, rfl⟩ : 7 = a ∧ [] = ys := by simpa using he
      exact ⟨rfl, rfl⟩
    | cons x xs => simp at he
  have outside : ∀ p ∈ [7], ∀ b < twoThreads.size, p ≠ twoThreads.blocks + b := by
    intro p hp b _
    rw [List.mem_singleton.mp hp]
    exact Nat.ne_of_lt (Nat.lt_of_lt_of_le (by decide : 7 < 100) (Nat.le_add_right 100 b))
  have hrun : (twoThreadsRun.foldlM (State.act twoThreads)
      (State.start oneFree ⟨1, some 7, some 7⟩ fun _ => utListInit)).map (·.main) = some .returned := by
    decide +kernel
  obtain ⟨s, hs, hm⟩ := Option.map_eq_some_iff.mp hrun
  obtain ⟨⟨hinits, -⟩, hall, -⟩ := create_parallel h₀ outside (by decide : 0 < twoThreads.numThread)
  have hstart : Reachable (createSystem twoThreads oneFree ⟨1, some 7, some 7⟩)
      (State.start oneFree ⟨1, some 7, some 7⟩ fun _ => utListInit) := .init ⟨_, rfl⟩
  have h := (hall s (hstart.foldlM (fun _ _ _ h => ⟨_, h⟩) hs)).2 hm
  rw [hinits] at h
  exact ⟨s, hs, h⟩

end BufferPool
