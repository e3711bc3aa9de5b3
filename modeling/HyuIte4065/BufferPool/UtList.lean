import HyuIte4065.Library.LinkedList
import Mathlib.Logic.Function.Basic

/-!
# Two-way lists of the buffer pool

`ut_list_append` and `ut_list_concat` of the patch as sequences of stores. The links are fields
of the pages, and a page is named by the block it is embedded in.
-/
namespace BufferPool

open LinkedList

abbrev Page := Nat

structure Node where
  prev : Option Page
  next : Option Page
  deriving DecidableEq, Repr

abbrev Memory := Page → Node

structure UtList where
  count : Nat
  start : Option Page
  end_ : Option Page
  deriving DecidableEq, Repr

def utListInit : UtList := ⟨0, none, none⟩

def setPrev (mem : Memory) (p : Page) (prev : Option Page) : Memory :=
  Function.update mem p { mem p with prev := prev }

def setNext (mem : Memory) (p : Page) (next : Option Page) : Memory :=
  Function.update mem p { mem p with next := next }

inductive AppendStore where
  | next | prev | baseNext | end_ | start | count
  deriving DecidableEq, Repr

def appendStores : List AppendStore := [.next, .prev, .baseNext, .end_, .start, .count]

def AppendStore.run (elem : Page) : AppendStore → Memory × UtList → Memory × UtList
  | .next, (mem, list) => (setNext mem elem none, list)
  | .prev, (mem, list) => (setPrev mem elem list.end_, list)
  | .baseNext, (mem, list) =>
    match list.end_ with
    | none => (mem, list)
    | some p => (setNext mem p (some elem), list)
  | .end_, (mem, list) => (mem, { list with end_ := some elem })
  | .start, (mem, list) => (mem, if list.start = none then { list with start := some elem } else list)
  | .count, (mem, list) => (mem, { list with count := list.count + 1 })

def runAppend (elem : Page) (todo : List AppendStore) (r : Memory × UtList) : Memory × UtList :=
  todo.foldl (fun r x => x.run elem r) r

def utListAppend (elem : Page) (r : Memory × UtList) : Memory × UtList :=
  runAppend elem appendStores r

inductive ConcatStore where
  -- the first list is empty
  | copyStart | copyEnd | copyCount
  -- neither list is empty
  | linkPrev | linkNext | moveEnd | addCount
  deriving DecidableEq, Repr

def concatStores (list1 list2 : UtList) : List ConcatStore :=
  if list2.count = 0 then []
  else if list1.count = 0 then [.copyStart, .copyEnd, .copyCount]
  else [.linkPrev, .linkNext, .moveEnd, .addCount]

/-- There is no result where a null pointer would be followed. -/
def ConcatStore.run (list2 : UtList) : ConcatStore → Memory × UtList → Option (Memory × UtList)
  | .copyStart, (mem, list1) => some (mem, { list1 with start := list2.start })
  | .copyEnd, (mem, list1) => some (mem, { list1 with end_ := list2.end_ })
  | .copyCount, (mem, list1) => some (mem, { list1 with count := list2.count })
  | .linkPrev, (mem, list1) => list2.start.map fun p => (setPrev mem p list1.end_, list1)
  | .linkNext, (mem, list1) => list1.end_.map fun p => (setNext mem p list2.start, list1)
  | .moveEnd, (mem, list1) => some (mem, { list1 with end_ := list2.end_ })
  | .addCount, (mem, list1) => some (mem, { list1 with count := list1.count + list2.count })

def runConcat (list2 : UtList) (todo : List ConcatStore) (r : Memory × UtList) :
    Option (Memory × UtList) :=
  todo.foldlM (fun r x => x.run list2 r) r

/-- `prev` and `next` are inverse along the pages of `l`, and the base node fits them. -/
structure WellFormed (mem : Memory) (list : UtList) (l : List Page) : Prop where
  linked : Linked (fun p => (mem p).next) (fun p => (mem p).prev) l
  start : list.start = l.head?
  end_ : list.end_ = l.getLast?
  count : list.count = l.length
  nodup : l.Nodup

section

variable {mem mem' : Memory} {list list1 list2 list' : UtList} {l xs ys : List Page} {elem p q : Page}
  {x : Option Page} {P : Page → Prop} {r r' : Memory × UtList}

theorem wellFormed_init (mem : Memory) : WellFormed mem utListInit [] where
  linked := linked_nil
  start := rfl
  end_ := rfl
  count := rfl
  nodup := List.nodup_nil

theorem WellFormed.congr (h : WellFormed mem list l) (hm : ∀ p ∈ l, mem' p = mem p) :
    WellFormed mem' list l where
  linked := h.linked.congr (fun p hp => by rw [hm p hp]) fun p hp => by rw [hm p hp]
  start := h.start
  end_ := h.end_
  count := h.count
  nodup := h.nodup

theorem setNext_of_ne (h : q ≠ p) : setNext mem p x q = mem q := Function.update_of_ne h _ _
theorem setPrev_of_ne (h : q ≠ p) : setPrev mem p x q = mem q := Function.update_of_ne h _ _

theorem setNext_next (q : Page) : (setNext mem p x q).next = if q = p then x else (mem q).next := by
  by_cases h : q = p <;> simp [setNext, h]

theorem setNext_prev (q : Page) : (setNext mem p x q).prev = (mem q).prev := by
  by_cases h : q = p <;> simp [setNext, h]

theorem setPrev_prev (q : Page) : (setPrev mem p x q).prev = if q = p then x else (mem q).prev := by
  by_cases h : q = p <;> simp [setPrev, h]

theorem setPrev_next (q : Page) : (setPrev mem p x q).next = (mem q).next := by
  by_cases h : q = p <;> simp [setPrev, h]

theorem utListAppend_list : (utListAppend elem (mem, list)).2 =
    ⟨list.count + 1, if list.start = none then some elem else list.start, some elem⟩ := by
  cases he : list.end_ <;> by_cases hs : list.start = none <;>
  simp [utListAppend, runAppend, appendStores, AppendStore.run, he, hs]

theorem utListAppend_next (q : Page) : ((utListAppend elem (mem, list)).1 q).next =
    if list.end_ = some q then some elem else if q = elem then none else (mem q).next := by
  cases he : list.end_ with
  | none =>
    simp [utListAppend, runAppend, appendStores, AppendStore.run, he, setPrev_next, setNext_next]
  | some p =>
    simp [utListAppend, runAppend, appendStores, AppendStore.run, he, setPrev_next, setNext_next,
      eq_comm (a := q) (b := p)]

theorem utListAppend_prev (q : Page) : ((utListAppend elem (mem, list)).1 q).prev =
    if q = elem then list.end_ else (mem q).prev := by
  cases he : list.end_ with
  | none =>
    simp [utListAppend, runAppend, appendStores, AppendStore.run, he, setPrev_prev, setNext_prev]
  | some p =>
    simp [utListAppend, runAppend, appendStores, AppendStore.run, he, setPrev_prev, setNext_prev]

theorem utListAppend_wellFormed (h : WellFormed mem list l) (fresh : elem ∉ l) :
    WellFormed (utListAppend elem (mem, list)).1 (utListAppend elem (mem, list)).2 (l ++ [elem]) := by
  have hne : ∀ p ∈ l, p ≠ elem := by
    rintro p hp rfl
    exact fresh hp
  have hend : list.end_ ≠ some elem := by
    rw [h.end_]
    exact fun he => fresh (List.mem_of_getLast? he)
  refine ⟨?_, ?_, ?_, ?_, ?_⟩
  · refine h.linked.concat h.nodup (fun p hp => ?_) ?_ (fun p hp => ?_) ?_
    · rw [utListAppend_next, h.end_, if_neg (hne p hp)]
    · rw [utListAppend_next, if_neg hend, if_pos rfl]
    · rw [utListAppend_prev, if_neg (hne p hp)]
    · rw [utListAppend_prev, if_pos rfl, h.end_]
  · rw [utListAppend_list, h.start]
    cases l <;> simp
  · rw [utListAppend_list, List.getLast?_concat]
  · rw [utListAppend_list, h.count, List.length_append]
    rfl
  · exact List.nodup_append.mpr ⟨h.nodup, by simp, fun p hp q hq => by
      rw [List.mem_singleton.mp hq]
      exact hne p hp⟩

/-- Neither list empty: what the four stores leave. -/
theorem runConcat_link (hs : list2.start = some p) (he : list1.end_ = some q) :
    runConcat list2 [.linkPrev, .linkNext, .moveEnd, .addCount] (mem, list1) =
      some (setNext (setPrev mem p (some q)) q (some p),
        ⟨list1.count + list2.count, list1.start, list2.end_⟩) := by
  simp [runConcat, ConcatStore.run, hs, he]

theorem runConcat_copy : runConcat list2 [.copyStart, .copyEnd, .copyCount] (mem, list1) =
    some (mem, list2) := rfl

theorem WellFormed.count_eq_zero (h : WellFormed mem list l) : list.count = 0 ↔ l = [] := by
  rw [h.count]
  exact List.length_eq_zero_iff

/-- `ut_list_concat` joins two well-formed lists, also where one of them is empty. -/
theorem concatStores_wellFormed (h₁ : WellFormed mem list1 xs) (h₂ : WellFormed mem list2 ys)
    (nodup : (xs ++ ys).Nodup) :
    ∃ r, runConcat list2 (concatStores list1 list2) (mem, list1) = some r ∧
      WellFormed r.1 r.2 (xs ++ ys) := by
  rw [concatStores]
  by_cases hy : list2.count = 0
  · obtain rfl := h₂.count_eq_zero.mp hy
    rw [if_pos hy, List.append_nil]
    exact ⟨_, rfl, h₁⟩
  by_cases hx : list1.count = 0
  · obtain rfl := h₁.count_eq_zero.mp hx
    rw [if_neg hy, if_pos hx]
    exact ⟨_, runConcat_copy, h₂⟩
  have hxs : xs ≠ [] := mt h₁.count_eq_zero.mpr hx
  have hys : ys ≠ [] := mt h₂.count_eq_zero.mpr hy
  obtain ⟨p, hp⟩ := Option.ne_none_iff_exists'.mp (mt List.head?_eq_none_iff.mp hys)
  obtain ⟨q, hq⟩ := Option.ne_none_iff_exists'.mp (mt List.getLast?_eq_none_iff.mp hxs)
  rw [if_neg hy, if_neg hx]
  refine ⟨_, runConcat_link (h₂.start.trans hp) (h₁.end_.trans hq), ?_, ?_, ?_, ?_, nodup⟩
  · refine h₁.linked.append h₂.linked nodup (fun a _ => ?_) fun a _ => ?_
    · rw [setNext_next, setPrev_next, hp, hq]
      simp [eq_comm (a := a) (b := q)]
    · rw [setNext_prev, setPrev_prev, hp, hq]
      simp [eq_comm (a := a) (b := p)]
  · rw [List.head?_append_of_ne_nil _ hxs]
    exact h₁.start
  · rw [List.getLast?_append_of_ne_nil _ hys]
    exact h₂.end_
  · rw [List.length_append, ← h₁.count, ← h₂.count]

/-! ### What a store touches -/

theorem AppendStore.run_of_ne (x : AppendStore) (hq : q ≠ elem) (he : r.2.end_ ≠ some q) :
    (x.run elem r).1 q = r.1 q := by
  cases x with
  | next => exact setNext_of_ne hq
  | prev => exact setPrev_of_ne hq
  | baseNext =>
    cases hp : r.2.end_ with
    | none => simp [AppendStore.run, hp]
    | some p =>
      rw [hp] at he
      have hqp : q ≠ p := fun h => he (h ▸ rfl)
      simp [AppendStore.run, hp, setNext_of_ne hqp]
  | _ => rfl

theorem AppendStore.run_end (x : AppendStore) (elem : Page) (r : Memory × UtList) :
    (x.run elem r).2.end_ = r.2.end_ ∨ (x.run elem r).2.end_ = some elem := by
  cases x with
  | baseNext => cases hp : r.2.end_ <;> simp [AppendStore.run, hp]
  | start =>
    left
    simp only [AppendStore.run]
    split <;> rfl
  | end_ => exact .inr rfl
  | _ => exact .inl rfl

theorem ConcatStore.run_of_ne {x : ConcatStore} (h : x.run list2 r = some r') (hs : list2.start ≠ some q)
    (he : r.2.end_ ≠ some q) : r'.1 q = r.1 q := by
  cases x with
  | linkPrev =>
    obtain ⟨p, hp, rfl⟩ := Option.map_eq_some_iff.mp h
    exact setPrev_of_ne fun hq => hs (hq ▸ hp)
  | linkNext =>
    obtain ⟨p, hp, rfl⟩ := Option.map_eq_some_iff.mp h
    exact setNext_of_ne fun hq => he (hq ▸ hp)
  | _ =>
    obtain rfl := Option.some.inj h
    rfl

theorem ConcatStore.run_end {x : ConcatStore} (h : x.run list2 r = some r') :
    r'.2.end_ = r.2.end_ ∨ r'.2.end_ = list2.end_ := by
  cases x with
  | linkPrev =>
    obtain ⟨p, hp, rfl⟩ := Option.map_eq_some_iff.mp h
    exact .inl rfl
  | linkNext =>
    obtain ⟨p, hp, rfl⟩ := Option.map_eq_some_iff.mp h
    exact .inl rfl
  | _ =>
    obtain rfl := Option.some.inj h
    simp

/-- Equal base nodes, and memories that agree on the pages in `P`. -/
structure Agree (P : Page → Prop) (r r' : Memory × UtList) : Prop where
  list : r'.2 = r.2
  mem : ∀ p, P p → r'.1 p = r.1 p

theorem WellFormed.agree (h : WellFormed r.1 r.2 l) (ha : Agree P r r') (hl : ∀ p ∈ l, P p) :
    WellFormed r'.1 r'.2 l := by
  rw [ha.list]
  exact h.congr fun p hp => ha.mem p (hl p hp)

theorem setNext_agree (h : ∀ p, P p → mem' p = mem p) (hp : P p) :
    setNext mem' q x p = setNext mem q x p := by
  by_cases hq : p = q
  · subst hq
    simp [setNext, h p hp]
  · rw [setNext_of_ne hq, setNext_of_ne hq, h p hp]

theorem setPrev_agree (h : ∀ p, P p → mem' p = mem p) (hp : P p) :
    setPrev mem' q x p = setPrev mem q x p := by
  by_cases hq : p = q
  · subst hq
    simp [setPrev, h p hp]
  · rw [setPrev_of_ne hq, setPrev_of_ne hq, h p hp]

theorem Agree.append (h : Agree P (mem, list) (mem', list)) (x : AppendStore) :
    Agree P (x.run elem (mem, list)) (x.run elem (mem', list)) := by
  cases x with
  | next => exact ⟨rfl, fun p hp => setNext_agree h.mem hp⟩
  | prev => exact ⟨rfl, fun p hp => setPrev_agree h.mem hp⟩
  | baseNext =>
    cases he : list.end_ with
    | none => simpa [AppendStore.run, he] using h
    | some q =>
      simp only [AppendStore.run, he]
      exact ⟨rfl, fun p hp => setNext_agree h.mem hp⟩
  | _ => exact ⟨rfl, h.mem⟩

theorem Agree.runAppend (h : Agree P r r') (todo : List AppendStore) :
    Agree P (runAppend elem todo r) (runAppend elem todo r') := by
  induction todo generalizing r r' with
  | nil => exact h
  | cons x todo ih =>
    obtain ⟨mem, list⟩ := r
    obtain ⟨mem', list'⟩ := r'
    obtain rfl : list' = list := h.list
    exact ih (h.append x)

theorem Agree.concat (h : Agree P (mem, list1) (mem', list1)) {x : ConcatStore}
    (hr : x.run list2 (mem, list1) = some r) :
    ∃ r', x.run list2 (mem', list1) = some r' ∧ Agree P r r' := by
  cases x with
  | linkPrev =>
    obtain ⟨p, hp, rfl⟩ := Option.map_eq_some_iff.mp hr
    exact ⟨_, Option.map_eq_some_iff.mpr ⟨p, hp, rfl⟩, rfl, fun q hq => setPrev_agree h.mem hq⟩
  | linkNext =>
    obtain ⟨p, hp, rfl⟩ := Option.map_eq_some_iff.mp hr
    exact ⟨_, Option.map_eq_some_iff.mpr ⟨p, hp, rfl⟩, rfl, fun q hq => setNext_agree h.mem hq⟩
  | _ =>
    obtain rfl := Option.some.inj hr
    exact ⟨_, rfl, rfl, h.mem⟩

theorem Agree.runConcat {todo : List ConcatStore} {r₁ : Memory × UtList} (h : Agree P r r')
    (hr : runConcat list2 todo r = some r₁) :
    ∃ r₁', runConcat list2 todo r' = some r₁' ∧ Agree P r₁ r₁' := by
  induction todo generalizing r r' with
  | nil =>
    obtain rfl := Option.some.inj hr
    exact ⟨r', rfl, h⟩
  | cons x todo ih =>
    obtain ⟨mem, list⟩ := r
    obtain ⟨mem', list'⟩ := r'
    obtain rfl : list' = list := h.list
    obtain ⟨r₂, hx, hr⟩ := Option.bind_eq_some_iff.mp hr
    obtain ⟨r₂', hx', h'⟩ := h.concat hx
    obtain ⟨r₁', hr', h₁⟩ := ih h' hr
    exact ⟨r₁', Option.bind_eq_some_iff.mpr ⟨r₂', hx', hr'⟩, h₁⟩

end

end BufferPool
