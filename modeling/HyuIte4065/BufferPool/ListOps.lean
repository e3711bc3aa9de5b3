import HyuIte4065.BufferPool.UtList
import HyuIte4065.Library.Loops

/-!
# The rest of the list API

Every other operation of `ut0lst.h` in the patch, on the memory and the base node. `ulint` counts
pages of the memory, so it does not wrap around. The fuel of a loop bounds its turns; a failed
`ut_a` ends the server.
-/
namespace BufferPool

open LinkedList Loops

def utListPrepend (elem : Page) (r : Memory × UtList) : Memory × UtList :=
  let mem := setNext (setPrev r.1 elem none) elem r.2.start
  let mem := match r.2.start with
    | none => mem
    | some p => setPrev mem p (some elem)
  (mem, ⟨r.2.count + 1, some elem, if r.2.end_ = none then some elem else r.2.end_⟩)

def utListInsert (elem1 elem2 : Page) (r : Memory × UtList) : Memory × UtList :=
  let mem := setPrev r.1 elem2 (some elem1)
  let mem := setNext mem elem2 (mem elem1).next
  let mem := match (mem elem1).next with
    | none => mem
    | some p => setPrev mem p (some elem2)
  (setNext mem elem1 (some elem2),
    { r.2 with
      count := r.2.count + 1
      end_ := if r.2.end_ = some elem1 then some elem2 else r.2.end_ })

/-- There is no result where `ut_a` fails. -/
def utListRemove (elem : Page) (r : Memory × UtList) : Option (Memory × UtList) :=
  if r.2.count = 0 then none
  else
    let r := match (r.1 elem).next with
      | some p => (setPrev r.1 p (r.1 elem).prev, r.2)
      | none => (r.1, { r.2 with end_ := (r.1 elem).prev })
    let r := match (r.1 elem).prev with
      | some p => (setNext r.1 p (r.1 elem).next, r.2)
      | none => (r.1, { r.2 with start := (r.1 elem).next })
    some (setPrev (setNext r.1 elem none) elem none, { r.2 with count := r.2.count - 1 })

def utListMoveToFront (elem : Page) (r : Memory × UtList) : Option (Memory × UtList) :=
  if r.2.start ≠ some elem then (utListRemove elem r).map (utListPrepend elem) else some r

def Node.reverse (node : Node) : Node := ⟨node.next, node.prev⟩

def UtList.reverse (list : UtList) : UtList := ⟨list.count, list.end_, list.start⟩

/-- The loop of `ut_list_reverse`: a node is left through its `prev`, which has been exchanged. -/
def reverseLoop : Nat → Option Page → Memory → Option Memory
  | _, none, mem => some mem
  | 0, some _, _ => none
  | fuel + 1, some elem, mem =>
    let mem := Function.update mem elem (mem elem).reverse
    reverseLoop fuel (mem elem).prev mem

def utListReverse (fuel : Nat) (r : Memory × UtList) : Option (Memory × UtList) :=
  (reverseLoop fuel r.2.start r.1).map fun mem => (mem, r.2.reverse)

section

variable {σ : Type*}

/-- A loop over the elements with its `count`. -/
def countLoop (link : Page → Option Page) (functor : σ → Page → σ) :
    Nat → Option Page → σ → Nat → Option (σ × Nat)
  | _, none, x, count => some (x, count)
  | 0, some _, _, _ => none
  | fuel + 1, some elem, x, count =>
    countLoop link functor fuel (link elem) (functor x elem) (count + 1)

/-- What a function returns whose `ut_a` may fail. -/
inductive Checked (σ : Type*) where
  | returned (x : σ)
  | aborted
  deriving DecidableEq, Repr

/-- `ut_a(count == list.count)` -/
def checkCount (list : UtList) (r : σ × Nat) : Checked σ :=
  if r.2 = list.count then .returned r.1 else .aborted

/-- `x` is the state of the functor. -/
def utListMap (functor : σ → Page → σ) (x : σ) (mem : Memory) (list : UtList) (fuel : Nat) :
    Option (Checked σ) :=
  (countLoop (fun p => (mem p).next) functor fuel list.start x 0).map (checkCount list)

def utListValidate (functor : σ → Page → σ) (x : σ) (mem : Memory) (list : UtList) (fuel : Nat) :
    Option (Checked σ) :=
  utListMap functor x mem list fuel >>= fun
    | .aborted => some .aborted
    | .returned x =>
      (countLoop (fun p => (mem p).prev) (fun x _ => x) fuel list.end_ x 0).map (checkCount list)

end

def existsLoop (mem : Memory) (elem : Page) : Nat → Option Page → Option Bool
  | _, none => some false
  | 0, some _ => none
  | fuel + 1, some e1 => if elem = e1 then some true else existsLoop mem elem fuel (mem e1).next

def utListExists (elem : Page) (mem : Memory) (list : UtList) (fuel : Nat) : Option Bool :=
  existsLoop mem elem fuel list.start

section

variable {mem : Memory} {list : UtList} {l xs ys : List Page} {elem elem1 elem2 p q : Page}

theorem node_eq {node node' : Node} (hp : node.prev = node'.prev) (hn : node.next = node'.next) :
    node = node' := by
  cases node
  cases node'
  congr

/-! ### Adding an element -/

theorem utListPrepend_next (q : Page) : ((utListPrepend elem (mem, list)).1 q).next =
    if q = elem then list.start else (mem q).next := by
  cases hs : list.start <;> simp [utListPrepend, hs, setPrev_next, setNext_next]

theorem utListPrepend_prev (q : Page) : ((utListPrepend elem (mem, list)).1 q).prev =
    if list.start = some q then some elem else if q = elem then none else (mem q).prev := by
  cases hs : list.start with
  | none => simp [utListPrepend, hs, setPrev_prev, setNext_prev]
  | some p => simp [utListPrepend, hs, setPrev_prev, setNext_prev, eq_comm (a := q) (b := p)]

/-- What an operation makes of a list; it stores to the elements only, the old and the new ones. -/
structure Makes (mem : Memory) (l : List Page) (r : Memory × UtList) (l' : List Page) : Prop where
  wellFormed : WellFormed r.1 r.2 l'
  frame : ∀ q, q ∉ l → q ∉ l' → r.1 q = mem q

theorem utListPrepend_makes (h : WellFormed mem list l) (fresh : elem ∉ l) :
    Makes mem l (utListPrepend elem (mem, list)) (elem :: l) := by
  have hne : ∀ a ∈ l, a ≠ elem := by
    rintro a ha rfl
    exact fresh ha
  have hstart : list.start ≠ some elem := by
    rw [h.start]
    exact fun he => fresh (List.mem_of_head? he)
  refine ⟨⟨?_, rfl, ?_, ?_, List.nodup_cons.mpr ⟨fresh, h.nodup⟩⟩, fun q hl hl' => ?_⟩
  · have hlinked : Linked (fun p => (mem p).next) (fun p => (mem p).prev) ([] ++ l) := h.linked
    refine hlinked.insert h.nodup (fun a ha => ?_) (fun a ha => ?_) ?_ ?_
    · rw [utListPrepend_next, if_neg (hne a ha)]
      rfl
    · rw [utListPrepend_prev, h.start, if_neg (hne a ha)]
    · rw [utListPrepend_next, if_pos rfl, h.start]
    · rw [utListPrepend_prev, if_neg hstart, if_pos rfl]
      rfl
  · show (if list.end_ = none then some elem else list.end_) = (elem :: l).getLast?
    rw [h.end_]
    cases l with
    | nil => rfl
    | cons a l => simp [List.getLast?_cons_cons]
  · rw [List.length_cons, ← h.count]
    rfl
  · have hq : q ≠ elem := fun he => hl' (by simp [he])
    have hs : list.start ≠ some q := by
      rw [h.start]
      exact fun he => hl (List.mem_of_head? he)
    refine node_eq ?_ ?_
    · rw [utListPrepend_prev, if_neg hs, if_neg hq]
    · rw [utListPrepend_next, if_neg hq]

theorem utListAppend_makes (h : WellFormed mem list l) (fresh : elem ∉ l) :
    Makes mem l (utListAppend elem (mem, list)) (l ++ [elem]) := by
  refine ⟨utListAppend_wellFormed h fresh, fun q hl hl' => ?_⟩
  have hq : q ≠ elem := fun he => hl' (by simp [he])
  have hend : list.end_ ≠ some q := by
    rw [h.end_]
    exact fun he => hl (List.mem_of_getLast? he)
  refine node_eq ?_ ?_
  · rw [utListAppend_prev, if_neg hq]
  · rw [utListAppend_next, if_neg hend, if_neg hq]

theorem utListInsert_next (hne : elem1 ≠ elem2) (q : Page) :
    ((utListInsert elem1 elem2 (mem, list)).1 q).next =
      if q = elem1 then some elem2 else if q = elem2 then (mem elem1).next else (mem q).next := by
  cases hn : (mem elem1).next <;> simp [utListInsert, setPrev_next, setNext_next, hne, hn]

theorem utListInsert_prev (hne : elem1 ≠ elem2) (q : Page) :
    ((utListInsert elem1 elem2 (mem, list)).1 q).prev =
      if (mem elem1).next = some q then some elem2 else if q = elem2 then some elem1 else (mem q).prev := by
  cases hn : (mem elem1).next with
  | none => simp [utListInsert, setPrev_next, setNext_next, setPrev_prev, setNext_prev, hne, hn]
  | some p =>
    simp [utListInsert, setPrev_next, setNext_next, setPrev_prev, setNext_prev, hne, hn,
      eq_comm (a := q) (b := p)]

theorem utListInsert_makes (h : WellFormed mem list (xs ++ elem1 :: ys)) (fresh : elem2 ∉ xs ++ elem1 :: ys) :
    Makes mem (xs ++ elem1 :: ys) (utListInsert elem1 elem2 (mem, list)) (xs ++ elem1 :: elem2 :: ys) := by
  have hne : elem1 ≠ elem2 := by
    rintro rfl
    simp at fresh
  have hnew : ∀ a ∈ xs ++ elem1 :: ys, a ≠ elem2 := by
    rintro a ha rfl
    exact fresh ha
  have hnext : (mem elem1).next = ys.head? := h.linked.next_eq
  have hl : xs ++ elem1 :: ys = xs ++ [elem1] ++ ys := by simp
  have hl' : xs ++ elem1 :: elem2 :: ys = xs ++ [elem1] ++ elem2 :: ys := by simp
  refine ⟨⟨?_, ?_, ?_, ?_, ?_⟩, fun q hq hq' => ?_⟩
  · rw [hl']
    refine Linked.insert (hl ▸ h.linked) (hl ▸ h.nodup) (fun a ha => ?_) (fun a ha => ?_) ?_ ?_
    · rw [utListInsert_next hne, if_neg (hnew a (hl ▸ ha)), List.getLast?_concat]
      simp [eq_comm (a := a)]
    · rw [utListInsert_prev hne, if_neg (hnew a (hl ▸ ha)), hnext]
    · rw [utListInsert_next hne, if_neg hne.symm, if_pos rfl, hnext]
    · have hlast : ys.head? ≠ some elem2 :=
        fun he => hnew elem2 (by simp [List.mem_of_head? he]) rfl
      rw [utListInsert_prev hne, hnext, if_neg hlast, if_pos rfl, List.getLast?_concat]
  · show list.start = _
    rw [h.start]
    cases xs <;> rfl
  · show (if list.end_ = some elem1 then some elem2 else list.end_) = _
    rw [h.end_]
    cases ys with
    | nil => rw [List.getLast?_concat, if_pos rfl, List.append_cons, List.getLast?_concat]
    | cons b ys =>
      rw [if_neg (last_ne_of_nodup h.nodup (by simp))]
      simp [List.getLast?_append, List.getLast?_cons_cons]
  · show list.count + 1 = _
    rw [h.count]
    simp only [List.length_append, List.length_cons]
    omega
  · have hperm : (xs ++ elem1 :: elem2 :: ys).Perm (elem2 :: (xs ++ elem1 :: ys)) := by
      rw [hl', hl]
      exact List.perm_middle
    exact hperm.nodup_iff.mpr (List.nodup_cons.mpr ⟨fresh, h.nodup⟩)
  · have hq₁ : q ≠ elem1 := fun he => hq (by simp [he])
    have hq₂ : q ≠ elem2 := fun he => hq' (by simp [he])
    have hn : ys.head? ≠ some q := fun he => hq (by simp [List.mem_of_head? he])
    refine node_eq ?_ ?_
    · rw [utListInsert_prev hne, hnext, if_neg hn, if_neg hq₂]
    · rw [utListInsert_next hne, if_neg hq₁, if_neg hq₂]

/-! ### Removing an element -/

/-- `ut_list_remove` on a node that is not its own successor. -/
theorem utListRemove_eq (hcount : list.count ≠ 0) (hn : (mem elem).next ≠ some elem) :
    ∃ mem', utListRemove elem (mem, list) = some (mem',
        ⟨list.count - 1, if (mem elem).prev = none then (mem elem).next else list.start,
          if (mem elem).next = none then (mem elem).prev else list.end_⟩) ∧
      (∀ q, (mem' q).next = if q = elem then none
        else if (mem elem).prev = some q then (mem elem).next else (mem q).next) ∧
      ∀ q, (mem' q).prev = if q = elem then none
        else if (mem elem).next = some q then (mem elem).prev else (mem q).prev := by
  cases hnext : (mem elem).next with
  | none =>
    cases hprev : (mem elem).prev with
    | none =>
      exact ⟨_, by simp only [utListRemove, if_neg hcount, hnext, hprev, if_true]; rfl,
        fun q => by simp [setPrev_next, setNext_next], fun q => by simp [setPrev_prev, setNext_prev]⟩
    | some b =>
      exact ⟨_, by simp only [utListRemove, if_neg hcount, hnext, hprev, if_true]; rfl,
        fun q => by simp [setPrev_next, setNext_next, eq_comm (a := q) (b := b)],
        fun q => by simp [setPrev_prev, setNext_prev]⟩
  | some a =>
    -- the node is read again after the store to its successor
    have ha : elem ≠ a := fun he => hn (he ▸ hnext)
    have hsame : ∀ x, setPrev mem a x elem = mem elem := fun x => setPrev_of_ne ha
    cases hprev : (mem elem).prev with
    | none =>
      exact ⟨_, by simp only [utListRemove, if_neg hcount, hsame, hnext, hprev]; rfl,
        fun q => by simp [setPrev_next, setNext_next],
        fun q => by simp [setPrev_prev, setNext_prev, eq_comm (a := q) (b := a)]⟩
    | some b =>
      exact ⟨_, by simp only [utListRemove, if_neg hcount, hsame, hnext, hprev]; rfl,
        fun q => by simp [setPrev_next, setNext_next, eq_comm (a := q) (b := b)],
        fun q => by simp [setPrev_prev, setNext_prev, eq_comm (a := q) (b := a)]⟩

theorem utListRemove_makes (h : WellFormed mem list (xs ++ elem :: ys)) :
    ∃ r, utListRemove elem (mem, list) = some r ∧ Makes mem (xs ++ elem :: ys) r (xs ++ ys) := by
  have hprev : (mem elem).prev = xs.getLast? := h.linked.prev_eq
  have hnext : (mem elem).next = ys.head? := h.linked.next_eq
  have hmem : elem ∉ xs ++ ys := (List.nodup_middle.mp h.nodup |> List.nodup_cons.mp).1
  have hcount : list.count ≠ 0 := by
    rw [h.count]
    simp
  have hn : ys.head? ≠ some elem := fun he => hmem (by simp [List.mem_of_head? he])
  have hne : ∀ a ∈ xs ++ ys, a ≠ elem := by
    rintro a ha rfl
    exact hmem ha
  obtain ⟨mem', he, hn', hp'⟩ := utListRemove_eq hcount (hnext ▸ hn)
  rw [hprev, hnext] at he hn' hp'
  refine ⟨_, he, ⟨?_, ?_, ?_, ?_, ?_⟩, fun q hq hq' => ?_⟩
  · refine h.linked.erase h.nodup (fun a ha => ?_) fun a ha => ?_
    · rw [hn', if_neg (hne a ha)]
    · rw [hp', if_neg (hne a ha)]
  · show (if xs.getLast? = none then ys.head? else list.start) = _
    rw [h.start]
    cases xs with
    | nil => rfl
    | cons b xs => simp
  · show (if ys.head? = none then xs.getLast? else list.end_) = _
    rw [h.end_]
    cases ys with
    | nil => simp
    | cons b ys => simp [List.getLast?_append, List.getLast?_cons_cons]
  · show list.count - 1 = _
    rw [h.count]
    simp only [List.length_append, List.length_cons]
    omega
  · exact (List.nodup_cons.mp (List.nodup_middle.mp h.nodup)).2
  · have hq₀ : q ≠ elem := fun he => hq (by simp [he])
    refine node_eq ?_ ?_
    · rw [hp', if_neg hq₀, if_neg fun he => hq (by simp [List.mem_of_head? he])]
    · rw [hn', if_neg hq₀, if_neg fun he => hq (by simp [List.mem_of_getLast? he])]

theorem Makes.refl (h : WellFormed mem list l) : Makes mem l (mem, list) l := ⟨h, fun _ _ _ => rfl⟩

theorem utListMoveToFront_makes (h : WellFormed mem list (xs ++ elem :: ys)) :
    ∃ r, utListMoveToFront elem (mem, list) = some r ∧
      Makes mem (xs ++ elem :: ys) r (elem :: (xs ++ ys)) := by
  have hmem : elem ∉ xs ++ ys := (List.nodup_cons.mp (List.nodup_middle.mp h.nodup)).1
  by_cases hs : list.start = some elem
  · refine ⟨(mem, list), by rw [utListMoveToFront, if_neg (not_not_intro hs)], ?_⟩
    cases xs with
    | nil => exact Makes.refl h
    | cons b xs =>
      -- then the first element is another one
      rw [h.start] at hs
      exact absurd hs (head_ne_of_nodup h.nodup (by simp))
  · obtain ⟨⟨mem₁, list₁⟩, hr, hwf, hframe⟩ := utListRemove_makes h
    have hmakes := utListPrepend_makes hwf hmem
    refine ⟨utListPrepend elem (mem₁, list₁), ?_, hmakes.wellFormed, fun q hq hq' => ?_⟩
    · rw [utListMoveToFront, if_pos hs, hr]
      rfl
    · have hq₁ : q ∉ xs ++ ys := fun hmem => hq' (List.mem_cons_of_mem _ hmem)
      exact (hmakes.frame q hq₁ hq').trans (hframe q hq hq₁)

/-! ### Reversing a list -/

theorem reverseLoop_returns {start : Option Page} (h : Walk (fun p => (mem p).next) start l)
    (nodup : l.Nodup) {fuel : Nat} (hle : l.length ≤ fuel) :
    reverseLoop fuel start mem = some fun p => if p ∈ l then (mem p).reverse else mem p := by
  induction l generalizing mem start fuel with
  | nil =>
    cases h
    simp [reverseLoop]
  | cons a l ih =>
    cases h with
    | cons h =>
    obtain ⟨k, rfl⟩ : ∃ k, fuel = k + 1 := ⟨fuel - 1, by rw [List.length_cons] at hle; omega⟩
    have ha : a ∉ l := (List.nodup_cons.mp nodup).1
    have hother : ∀ p ∈ l, Function.update mem a (mem a).reverse p = mem p := by
      intro p hp
      have hne : p ≠ a := by
        rintro rfl
        exact ha hp
      exact Function.update_of_ne hne _ _
    have hself : Function.update mem a (mem a).reverse a = (mem a).reverse := Function.update_self _ _ _
    have hwalk : Walk (fun p => (Function.update mem a (mem a).reverse p).next) (mem a).next l :=
      h.congr fun p hp => by rw [hother p hp]
    rw [reverseLoop, hself]
    refine (ih hwalk (List.nodup_cons.mp nodup).2 (by simpa using hle)).trans ?_
    congr 1
    funext p
    by_cases hp : p ∈ l
    · simp [hp, hother p hp]
    · by_cases hpa : p = a
      · subst hpa
        simp [ha]
      · simp [hp, hpa, Function.update_of_ne]

theorem utListReverse_makes (h : WellFormed mem list l) :
    ∃ r, Returns (fun fuel => utListReverse fuel (mem, list)) r ∧ Makes mem l r l.reverse := by
  have hwalk : Walk (fun p => (mem p).next) list.start l := by
    rw [h.start]
    exact h.linked.walks.1
  refine ⟨(fun p => if p ∈ l then (mem p).reverse else mem p, list.reverse),
    ⟨l.length, fun fuel hle => ?_⟩, ⟨?_, ?_, ?_, ?_, ?_⟩, fun q hq _ => ?_⟩
  · show (reverseLoop fuel list.start mem).map _ = _
    rw [reverseLoop_returns hwalk h.nodup hle]
    rfl
  · refine h.linked.reverse.congr (fun a ha => ?_) fun a ha => ?_ <;>
    simp [List.mem_reverse.mp ha, Node.reverse]
  · show list.end_ = _
    rw [h.end_, List.head?_reverse]
  · show list.start = _
    rw [h.start, List.getLast?_reverse]
  · rw [List.length_reverse, ← h.count]
    rfl
  · exact List.nodup_reverse.mpr h.nodup
  · exact if_neg hq

/-! ### Walking a list -/

theorem existsLoop_returns {start : Option Page} (h : Walk (fun p => (mem p).next) start l) {fuel : Nat}
    (hle : l.length ≤ fuel) : existsLoop mem elem fuel start = some (decide (elem ∈ l)) := by
  induction h generalizing fuel with
  | nil => simp [existsLoop]
  | @cons a l _ ih =>
    obtain ⟨k, rfl⟩ : ∃ k, fuel = k + 1 := ⟨fuel - 1, by rw [List.length_cons] at hle; omega⟩
    rw [existsLoop, ih (by simpa using hle)]
    by_cases he : elem = a <;> simp [he]

variable {σ : Type*} {functor : σ → Page → σ} {link : Page → Option Page} {start : Option Page} {x y : σ}

theorem countLoop_of_walk (h : Walk link start l) {fuel : Nat} (hle : l.length ≤ fuel) (count : Nat) :
    countLoop link functor fuel start x count = some (l.foldl functor x, count + l.length) := by
  induction h generalizing fuel x count with
  | nil => simp [countLoop]
  | @cons a l _ ih =>
    obtain ⟨k, rfl⟩ : ∃ k, fuel = k + 1 := ⟨fuel - 1, by rw [List.length_cons] at hle; omega⟩
    rw [countLoop, ih (by simpa using hle), List.length_cons]
    congr 2
    omega

theorem walk_of_countLoop {fuel count : Nat} {r : σ × Nat}
    (h : countLoop link functor fuel start x count = some r) :
    ∃ l, Walk link start l ∧ r = (l.foldl functor x, count + l.length) := by
  induction fuel generalizing start x count with
  | zero =>
    cases start with
    | none => exact ⟨[], .nil, (Option.some.inj h).symm⟩
    | some a => cases h
  | succ fuel ih =>
    cases start with
    | none => exact ⟨[], .nil, (Option.some.inj h).symm⟩
    | some a =>
      obtain ⟨l, hwalk, rfl⟩ := ih h
      refine ⟨a :: l, .cons hwalk, ?_⟩
      rw [List.length_cons, List.foldl_cons]
      congr 1
      omega

theorem utListMap_of_walk (h : Walk (fun p => (mem p).next) list.start l) {fuel : Nat} (hle : l.length ≤ fuel) :
    utListMap functor x mem list fuel =
      some (if l.length = list.count then .returned (l.foldl functor x) else .aborted) := by
  rw [utListMap, countLoop_of_walk h hle, Option.map_some, checkCount, Nat.zero_add]

theorem utListMap_walk {fuel : Nat} {r : Checked σ} (h : utListMap functor x mem list fuel = some r) :
    ∃ l, Walk (fun p => (mem p).next) list.start l ∧
      r = if l.length = list.count then .returned (l.foldl functor x) else .aborted := by
  obtain ⟨c, hc, rfl⟩ := Option.map_eq_some_iff.mp h
  obtain ⟨l, hwalk, rfl⟩ := walk_of_countLoop hc
  exact ⟨l, hwalk, by rw [checkCount, Nat.zero_add]⟩

/-- Which functor state `ut_list_validate` ends with, if it ends: the walk backwards is not
compared with the one forwards. -/
theorem utListValidate_iff (result : Checked σ) :
    Returns (utListValidate functor x mem list) result ↔
      ∃ l, Walk (fun p => (mem p).next) list.start l ∧
        (l.length ≠ list.count ∧ result = .aborted ∨
          l.length = list.count ∧ ∃ l', Walk (fun p => (mem p).prev) list.end_ l' ∧
            result = if l'.length = list.count then .returned (l.foldl functor x) else .aborted) := by
  constructor
  · rintro ⟨n, hn⟩
    obtain ⟨r, hmap, hr⟩ := Option.bind_eq_some_iff.mp (hn n (Nat.le_refl n))
    obtain ⟨l, hwalk, rfl⟩ := utListMap_walk hmap
    refine ⟨l, hwalk, ?_⟩
    by_cases hl : l.length = list.count
    · rw [if_pos hl] at hr
      obtain ⟨c, hc, rfl⟩ := Option.map_eq_some_iff.mp hr
      obtain ⟨l', hwalk', rfl⟩ := walk_of_countLoop hc
      refine .inr ⟨hl, l', hwalk', ?_⟩
      rw [checkCount, Nat.zero_add, List.foldl_fixed]
    · rw [if_neg hl] at hr
      exact .inl ⟨hl, (Option.some.inj hr).symm⟩
  · rintro ⟨l, hwalk, ⟨hl, rfl⟩ | ⟨hl, l', hwalk', rfl⟩⟩
    · refine ⟨l.length, fun fuel hle => ?_⟩
      rw [utListValidate, utListMap_of_walk hwalk hle, if_neg hl]
      rfl
    · refine ⟨max l.length l'.length, fun fuel hle => ?_⟩
      rw [utListValidate, utListMap_of_walk hwalk (by omega), if_pos hl]
      show (countLoop _ _ fuel list.end_ _ 0).map (checkCount list) = _
      rw [countLoop_of_walk hwalk' (by omega), Option.map_some, checkCount, Nat.zero_add, List.foldl_fixed]

theorem WellFormed.walks (h : WellFormed mem list l) : Walk (fun p => (mem p).next) list.start l ∧
    Walk (fun p => (mem p).prev) list.end_ l.reverse := by
  rw [h.start, h.end_]
  exact h.linked.walks

theorem WellFormed.validate (h : WellFormed mem list l) :
    Returns (utListValidate functor x mem list) (.returned (l.foldl functor x)) := by
  obtain ⟨hwalk, hback⟩ := h.walks
  refine (utListValidate_iff _).mpr ⟨l, hwalk, .inr ⟨h.count.symm, l.reverse, hback, ?_⟩⟩
  rw [if_pos (by rw [List.length_reverse, h.count])]

theorem WellFormed.exists (h : WellFormed mem list l) (elem : Page) :
    Returns (utListExists elem mem list) (decide (elem ∈ l)) :=
  ⟨l.length, fun _ hle => existsLoop_returns h.walks.1 hle⟩

end

end BufferPool
