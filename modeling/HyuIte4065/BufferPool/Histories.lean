import HyuIte4065.BufferPool.ListOps

/-!
# Many lists over the same pages

A page may be on two lists, one after the other but never at the same time. Calls of the list API
on any number of base nodes are compared with the same calls on lists of pages.
-/
namespace BufferPool

open LinkedList Loops

variable {ι : Type*} [DecidableEq ι]

structure Store (ι : Type*) where
  mem : Memory
  lists : ι → UtList

inductive Call (ι : Type*) where
  | init (i : ι)
  | addFirst (i : ι) (elem : Page)
  | addLast (i : ι) (elem : Page)
  | concat (i j : ι)
  | insertAfter (i : ι) (elem1 elem2 : Page)
  | remove (i : ι) (elem : Page)
  | reverse (i : ι)
  | moveToFront (i : ι) (elem : Page)
  deriving DecidableEq, Repr

def Store.at (st : Store ι) (i : ι) : Memory × UtList := (st.mem, st.lists i)

def Store.put (st : Store ι) (i : ι) (r : Memory × UtList) : Store ι where
  mem := r.1
  lists := Function.update st.lists i r.2

def Call.run (fuel : Nat) (st : Store ι) : Call ι → Option (Store ι)
  | .init i => some (st.put i (st.mem, utListInit))
  | .addFirst i elem => some (st.put i (utListPrepend elem (st.at i)))
  | .addLast i elem => some (st.put i (utListAppend elem (st.at i)))
  | .concat i j =>
    (runConcat (st.lists j) (concatStores (st.lists i) (st.lists j)) (st.at i)).map (st.put i)
  | .insertAfter i elem1 elem2 => some (st.put i (utListInsert elem1 elem2 (st.at i)))
  | .remove i elem => (utListRemove elem (st.at i)).map (st.put i)
  | .reverse i => (utListReverse fuel (st.at i)).map (st.put i)
  | .moveToFront i elem => (utListMoveToFront elem (st.at i)).map (st.put i)

/-! ### The same calls on lists of pages -/

/-- The lists that are in use. -/
abbrev View (ι : Type*) := ι → Option (List Page)

def View.Free (v : View ι) (elem : Page) : Prop := ∀ i l, v i = some l → elem ∉ l

/-- `elem2` behind `elem1`. -/
def insertBehind (elem1 elem2 : Page) : List Page → List Page
  | [] => []
  | p :: l => if p = elem1 then p :: elem2 :: l else p :: insertBehind elem1 elem2 l

/-- What the caller has to see to. -/
def Call.Allowed (v : View ι) : Call ι → Prop
  | .init _ => True
  | .addFirst i elem | .addLast i elem => (v i).isSome ∧ v.Free elem
  | .concat i j => i ≠ j ∧ (v i).isSome ∧ (v j).isSome
  | .insertAfter i elem1 elem2 => (∃ l, v i = some l ∧ elem1 ∈ l) ∧ v.Free elem2
  | .remove i elem | .moveToFront i elem => ∃ l, v i = some l ∧ elem ∈ l
  | .reverse i => (v i).isSome

/-- A list whose elements have been moved to another one is not in use. -/
def Call.apply (v : View ι) : Call ι → View ι
  | .init i => Function.update v i (some [])
  | .addFirst i elem => Function.update v i ((v i).map (elem :: ·))
  | .addLast i elem => Function.update v i ((v i).map (· ++ [elem]))
  | .concat i j =>
    Function.update (Function.update v j (if v j = some [] then some [] else none)) i
      ((v i).bind fun xs => (v j).map fun ys => xs ++ ys)
  | .insertAfter i elem1 elem2 => Function.update v i ((v i).map (insertBehind elem1 elem2))
  | .remove i elem => Function.update v i ((v i).map (·.erase elem))
  | .reverse i => Function.update v i ((v i).map List.reverse)
  | .moveToFront i elem => Function.update v i ((v i).map fun l => elem :: l.erase elem)

/-- Every call is allowed when it is made. -/
def Permitted (v : View ι) : List (Call ι) → Prop
  | [] => True
  | call :: calls => call.Allowed v ∧ Permitted (call.apply v) calls

structure Store.Shows (st : Store ι) (v : View ι) : Prop where
  wellFormed : ∀ i l, v i = some l → WellFormed st.mem (st.lists i) l
  disjoint : ∀ i j l l', i ≠ j → v i = some l → v j = some l' → l.Disjoint l'

variable {st st' : Store ι} {v : View ι} {i j : ι} {l l' xs ys : List Page} {elem elem1 elem2 p : Page}
  {r : Memory × UtList}

theorem insertBehind_append (h : elem1 ∉ xs) :
    insertBehind elem1 elem2 (xs ++ elem1 :: ys) = xs ++ elem1 :: elem2 :: ys := by
  induction xs with
  | nil => simp [insertBehind]
  | cons p xs ih =>
    obtain ⟨hp, hxs⟩ := not_or.mp (mt List.mem_cons.mpr h)
    rw [List.cons_append, insertBehind, if_neg fun he => hp he.symm, ih hxs]
    rfl

theorem erase_middle (h : elem ∉ xs) : (xs ++ elem :: ys).erase elem = xs ++ ys := by
  rw [List.erase_append_right _ h, List.erase_cons_head]

/-- A base node and its elements change, and no other list has any of them. -/
theorem Store.Shows.replace (h : st.Shows v) (hr : WellFormed r.1 r.2 l')
    (apart : ∀ j xs, j ≠ i → v j = some xs → ∀ p ∈ xs, r.1 p = st.mem p ∧ p ∉ l') :
    (st.put i r).Shows (Function.update v i (some l')) := by
  refine ⟨fun j xs hxs => ?_, fun j k xs ys hjk hxs hys => ?_⟩
  · by_cases hj : j = i
    · subst hj
      rw [Function.update_self] at hxs
      obtain rfl := Option.some.inj hxs
      simpa [Store.put] using hr
    · rw [Function.update_of_ne hj] at hxs
      have hsame : (st.put i r).lists j = st.lists j := Function.update_of_ne hj _ _
      rw [hsame]
      exact (h.wellFormed j xs hxs).congr fun p hp => (apart j xs hj hxs p hp).1
  · by_cases hj : j = i
    · subst hj
      rw [Function.update_self] at hxs
      rw [Function.update_of_ne hjk.symm] at hys
      obtain rfl := Option.some.inj hxs
      exact fun p hp hp' => (apart k ys hjk.symm hys p hp').2 hp
    · rw [Function.update_of_ne hj] at hxs
      by_cases hk : k = i
      · subst hk
        rw [Function.update_self] at hys
        obtain rfl := Option.some.inj hys
        exact fun p hp hp' => (apart j xs hj hxs p hp).2 hp'
      · rw [Function.update_of_ne hk] at hys
        exact h.disjoint j k xs ys hjk hxs hys

/-- An operation on one list, which only takes elements that are on no list. -/
theorem Store.Shows.put (h : st.Shows v) (hi : v i = some l) (hr : Makes st.mem l r l')
    (hnew : ∀ p ∈ l', p ∈ l ∨ v.Free p) : (st.put i r).Shows (Function.update v i (some l')) := by
  refine h.replace hr.wellFormed fun j xs hj hxs p hp => ?_
  have hl : p ∉ l := fun hpl => h.disjoint j i xs l hj hxs hi hp hpl
  have hl' : p ∉ l' := fun hpl' => (hnew p hpl').elim hl fun hfree => hfree j xs hxs hp
  exact ⟨hr.frame p hl hl', hl'⟩

/-! ### Concatenation -/

theorem runConcat_of_ne {list2 : UtList} {todo : List ConcatStore} {r' : Memory × UtList}
    (hr : runConcat list2 todo r = some r') (hs : list2.start ≠ some p) (h₂ : list2.end_ ≠ some p)
    (h₁ : r.2.end_ ≠ some p) : r'.1 p = r.1 p := by
  induction todo generalizing r with
  | nil =>
    obtain rfl := Option.some.inj hr
    rfl
  | cons x todo ih =>
    obtain ⟨r₁, hx, hr⟩ := Option.bind_eq_some_iff.mp hr
    have hend : r₁.2.end_ ≠ some p := by
      rcases ConcatStore.run_end hx with he | he <;> rw [he]
      · exact h₁
      · exact h₂
    exact (ih hr hend).trans (ConcatStore.run_of_ne hx hs h₁)

theorem concat_makes {mem : Memory} {list1 list2 : UtList} (h₁ : WellFormed mem list1 xs)
    (h₂ : WellFormed mem list2 ys) (hd : xs.Disjoint ys) :
    ∃ r, runConcat list2 (concatStores list1 list2) (mem, list1) = some r ∧ Makes mem xs r (xs ++ ys) := by
  obtain ⟨r, hr, hwf⟩ := concatStores_wellFormed h₁ h₂ (List.nodup_append'.mpr ⟨h₁.nodup, h₂.nodup, hd⟩)
  refine ⟨r, hr, hwf, fun q hq hq' => ?_⟩
  have hy : q ∉ ys := fun hy => hq' (List.mem_append_right _ hy)
  refine runConcat_of_ne hr ?_ ?_ ?_
  · exact fun he => hy (List.mem_of_head? (h₂.start.symm.trans he))
  · exact fun he => hy (List.mem_of_getLast? (h₂.end_.symm.trans he))
  · exact fun he => hq (List.mem_of_getLast? (h₁.end_.symm.trans he))

/-- The second base node still visits its elements forwards. Backwards it comes to those of the
first list, too, and then `ut_list_validate` ends the server. -/
theorem concat_second {mem : Memory} {list1 list2 : UtList} (h₁ : WellFormed mem list1 xs)
    (h₂ : WellFormed mem list2 ys) (hd : xs.Disjoint ys) {σ : Type} (functor : σ → Page → σ) (x : σ) :
    ∃ r, runConcat list2 (concatStores list1 list2) (mem, list1) = some r ∧
      Returns (utListMap functor x r.1 list2) (.returned (ys.foldl functor x)) ∧
      Returns (utListValidate functor x r.1 list2)
        (if xs = [] ∨ ys = [] then .returned (ys.foldl functor x) else .aborted) := by
  obtain ⟨r, hr, hmakes⟩ := concat_makes h₁ h₂ hd
  have hnext : Walk (fun p => (r.1 p).next) list2.start ys := by
    rw [h₂.start]
    exact hmakes.wellFormed.linked.walk_next
  have hmap : Returns (utListMap functor x r.1 list2) (.returned (ys.foldl functor x)) :=
    ⟨ys.length, fun fuel hle => by rw [utListMap_of_walk hnext hle, if_pos h₂.count.symm]⟩
  refine ⟨r, hr, hmap, (utListValidate_iff _).mpr ⟨ys, hnext, .inr ⟨h₂.count.symm, ?_⟩⟩⟩
  by_cases hys : ys = []
  · subst hys
    refine ⟨[], ?_, by rw [if_pos (.inr rfl), if_pos h₂.count.symm]⟩
    rw [h₂.end_]
    exact .nil
  · have hend : list2.end_ = (xs ++ ys).getLast? := by
      rw [List.getLast?_append_of_ne_nil _ hys, h₂.end_]
    refine ⟨(xs ++ ys).reverse, hend ▸ hmakes.wellFormed.linked.walks.2, ?_⟩
    rw [List.length_reverse, List.length_append, h₂.count]
    by_cases hxs : xs = []
    · simp [hxs]
    · have hpos : xs.length ≠ 0 := mt List.length_eq_zero_iff.mp hxs
      rw [if_neg (not_or.mpr ⟨hxs, hys⟩), if_neg (by omega)]

/-- One element each. -/
theorem concat_second_one : ∃ r,
    runConcat ⟨1, some 2, some 2⟩ (concatStores ⟨1, some 1, some 1⟩ ⟨1, some 2, some 2⟩)
      (fun _ => ⟨none, none⟩, ⟨1, some 1, some 1⟩) = some r ∧
    Returns (utListMap (fun n _ => n + 1) 0 r.1 ⟨1, some 2, some 2⟩) (.returned 1) ∧
    Returns (utListValidate (fun n _ => n + 1) 0 r.1 ⟨1, some 2, some 2⟩) .aborted :=
  have one : ∀ p, WellFormed (fun _ => ⟨none, none⟩) ⟨1, some p, some p⟩ [p] := fun p =>
    (utListAppend_wellFormed (wellFormed_init fun _ => ⟨none, none⟩) (by simp)).congr
      fun q _ => by simp [utListAppend, runAppend, appendStores, AppendStore.run, utListInit, setNext, setPrev]
  concat_second (one 1) (one 2) (by simp) (fun n _ => n + 1) 0

/-- The second list is given up, unless it is empty. -/
theorem Store.Shows.concat (h : st.Shows v) (hij : i ≠ j) (hi : v i = some xs) (hj : v j = some ys) :
    ∃ st', (Call.concat i j).run 0 st = some st' ∧ st'.Shows ((Call.concat i j).apply v) := by
  have hd := h.disjoint i j xs ys hij hi hj
  obtain ⟨r, hr, hmakes⟩ := concat_makes (h.wellFormed i xs hi) (h.wellFormed j ys hj) hd
  refine ⟨st.put i r, congrArg (Option.map (st.put i)) hr, ?_⟩
  have hkept : ∀ k zs, Function.update v j (if v j = some [] then some [] else none) k = some zs →
      v k = some zs ∧ zs.Disjoint ys := by
    intro k zs hzs
    by_cases hk : k = j
    · subst hk
      rw [Function.update_self, hj] at hzs
      split at hzs
      · next hnil =>
        obtain rfl := Option.some.inj hzs
        exact ⟨hj.trans hnil, List.disjoint_nil_left ys⟩
      · cases hzs
    · rw [Function.update_of_ne hk] at hzs
      exact ⟨hzs, h.disjoint k j zs ys hk hzs hj⟩
  have hless : st.Shows (Function.update v j (if v j = some [] then some [] else none)) :=
    ⟨fun k zs hzs => h.wellFormed k zs (hkept k zs hzs).1,
      fun k k' zs zs' hne hzs hzs' => h.disjoint k k' zs zs' hne (hkept k zs hzs).1 (hkept k' zs' hzs').1⟩
  have hshows := hless.put ((Function.update_of_ne hij _ _).trans hi) hmakes fun p hp => ?_
  · simpa only [Call.apply, hi, hj, Option.bind_some, Option.map_some] using hshows
  · rcases List.mem_append.mp hp with hp | hp
    · exact .inl hp
    · exact .inr fun k zs hzs hpz => (hkept k zs hzs).2 hpz hp

/-! ### One call, and a history of calls -/

theorem Call.run_shows {call : Call ι} (h : st.Shows v) (hc : call.Allowed v) :
    ∃ st', Returns (fun fuel => call.run fuel st) st' ∧ st'.Shows (call.apply v) := by
  cases call with
  | init i =>
    exact ⟨_, .const rfl, h.replace (wellFormed_init _) fun _ _ _ _ _ _ => ⟨rfl, by simp⟩⟩
  | addFirst i elem =>
    obtain ⟨hi, hfree⟩ := hc
    obtain ⟨l, hl⟩ := Option.isSome_iff_exists.mp hi
    have hmakes := utListPrepend_makes (h.wellFormed i l hl) (hfree i l hl)
    refine ⟨_, .const rfl, ?_⟩
    rw [Call.apply, hl]
    refine h.put hl hmakes fun p hp => ?_
    rcases List.mem_cons.mp hp with rfl | hp
    · exact .inr hfree
    · exact .inl hp
  | addLast i elem =>
    obtain ⟨hi, hfree⟩ := hc
    obtain ⟨l, hl⟩ := Option.isSome_iff_exists.mp hi
    have hmakes := utListAppend_makes (h.wellFormed i l hl) (hfree i l hl)
    refine ⟨_, .const rfl, ?_⟩
    rw [Call.apply, hl]
    refine h.put hl hmakes fun p hp => ?_
    rcases List.mem_append.mp hp with hp | hp
    · exact .inl hp
    · exact .inr (List.mem_singleton.mp hp ▸ hfree)
  | concat i j =>
    obtain ⟨hij, hi, hj⟩ := hc
    obtain ⟨xs, hxs⟩ := Option.isSome_iff_exists.mp hi
    obtain ⟨ys, hys⟩ := Option.isSome_iff_exists.mp hj
    obtain ⟨st', hrun, hshows⟩ := h.concat hij hxs hys
    exact ⟨st', .const hrun, hshows⟩
  | insertAfter i elem1 elem2 =>
    obtain ⟨⟨l, hl, hmem⟩, hfree⟩ := hc
    obtain ⟨xs, ys, rfl, hxs⟩ := List.eq_append_cons_of_mem hmem
    have hmakes := utListInsert_makes (h.wellFormed i _ hl) (hfree i _ hl)
    refine ⟨_, .const rfl, ?_⟩
    rw [Call.apply, hl, Option.map_some, insertBehind_append hxs]
    refine h.put hl hmakes fun p hp => ?_
    have hor : p = elem2 ∨ p ∈ xs ++ elem1 :: ys := by
      simp only [List.mem_append, List.mem_cons] at hp ⊢
      tauto
    rcases hor with rfl | hp
    · exact .inr hfree
    · exact .inl hp
  | remove i elem =>
    obtain ⟨l, hl, hmem⟩ := hc
    obtain ⟨xs, ys, rfl, hxs⟩ := List.eq_append_cons_of_mem hmem
    obtain ⟨r, hr, hmakes⟩ := utListRemove_makes (h.wellFormed i _ hl)
    refine ⟨st.put i r, .const (congrArg (Option.map (st.put i)) hr), ?_⟩
    rw [Call.apply, hl, Option.map_some, erase_middle hxs]
    refine h.put hl hmakes fun p hp => .inl ?_
    rcases List.mem_append.mp hp with hp | hp <;> simp [hp]
  | reverse i =>
    obtain ⟨l, hl⟩ := Option.isSome_iff_exists.mp hc
    obtain ⟨r, hr, hmakes⟩ := utListReverse_makes (h.wellFormed i l hl)
    refine ⟨st.put i r, hr.map _, ?_⟩
    rw [Call.apply, hl]
    exact h.put hl hmakes fun p hp => .inl (List.mem_reverse.mp hp)
  | moveToFront i elem =>
    obtain ⟨l, hl, hmem⟩ := hc
    obtain ⟨xs, ys, rfl, hxs⟩ := List.eq_append_cons_of_mem hmem
    obtain ⟨r, hr, hmakes⟩ := utListMoveToFront_makes (h.wellFormed i _ hl)
    refine ⟨st.put i r, .const (congrArg (Option.map (st.put i)) hr), ?_⟩
    rw [Call.apply, hl, Option.map_some, erase_middle hxs]
    refine h.put hl hmakes fun p hp => .inl ?_
    simp only [List.mem_append, List.mem_cons] at hp ⊢
    tauto

theorem Permitted.run {calls : List (Call ι)} (h : st.Shows v) (hc : Permitted v calls) :
    ∃ st', Returns (fun fuel => calls.foldlM (fun st call => call.run fuel st) st) st' ∧
      st'.Shows (calls.foldl Call.apply v) := by
  induction calls generalizing st v with
  | nil => exact ⟨st, .const rfl, h⟩
  | cons call calls ih =>
    obtain ⟨st₁, hret₁, h₁⟩ := Call.run_shows h hc.1
    obtain ⟨st₂, hret₂, h₂⟩ := ih h₁ hc.2
    exact ⟨st₂, hret₁.bind hret₂, h₂⟩

/-- What can be seen of a list: its base node, the elements in their order, and which they are. -/
structure Observed (mem : Memory) (list : UtList) (l : List Page) : Prop where
  base : list = ⟨l.length, l.head?, l.getLast?⟩
  visited : ∀ {σ : Type} (functor : σ → Page → σ) (x : σ),
    Returns (utListValidate functor x mem list) (.returned (l.foldl functor x))
  members : ∀ elem, Returns (utListExists elem mem list) (decide (elem ∈ l))

theorem WellFormed.observed {mem : Memory} {list : UtList} (h : WellFormed mem list l) :
    Observed mem list l := by
  refine ⟨?_, fun _ _ => h.validate, h.exists⟩
  rw [← h.count, ← h.start, ← h.end_]

/-- Any permitted calls return, and leave what the same calls make of lists of pages. -/
theorem calls_refine (mem : Memory) (lists : ι → UtList) (calls : List (Call ι))
    (permitted : Permitted (fun _ => none) calls) :
    ∃ st, Returns (fun fuel => calls.foldlM (fun st call => call.run fuel st) ⟨mem, lists⟩) st ∧
      ∀ i l, calls.foldl Call.apply (fun _ => none) i = some l → Observed st.mem (st.lists i) l := by
  have hstart : Store.Shows ⟨mem, lists⟩ (fun _ : ι => none) := by
    constructor <;> intros <;> contradiction
  obtain ⟨st, hret, hshows⟩ := Permitted.run hstart permitted
  exact ⟨st, hret, fun i l hl => (hshows.wellFormed i l hl).observed⟩

/-- Two lists are filled and joined, and an element moves within the result and out of it. -/
def joinAndMove : List (Call Bool) :=
  [.init false, .init true, .addLast false 1, .addFirst true 3, .insertAfter true 3 4,
    .concat false true, .init true, .remove false 3, .addLast true 3, .reverse false,
    .moveToFront false 1]

theorem joinAndMove_permitted : Permitted (fun _ => none) joinAndMove := by
  simp [joinAndMove, Permitted, Call.Allowed, Call.apply, View.Free, insertBehind]

theorem calls_refine_joinAndMove :
    ∃ st, Returns (fun fuel => joinAndMove.foldlM (fun st call => call.run fuel st)
        ⟨fun p => ⟨some p, some p⟩, fun _ => ⟨9, none, some 5⟩⟩) st ∧
      ∀ i l, joinAndMove.foldl Call.apply (fun _ => none) i = some l → Observed st.mem (st.lists i) l :=
  calls_refine _ _ joinAndMove joinAndMove_permitted

example : joinAndMove.foldl Call.apply (fun _ => none) false = some [1, 4] := by decide

end BufferPool
