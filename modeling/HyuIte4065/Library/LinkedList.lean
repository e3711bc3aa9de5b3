import Mathlib.Data.List.Basic
import Mathlib.Data.List.Induction

/-!
# Doubly linked lists

Two link fields over nodes of any type. `Linked next prev l` says that the links
of the nodes of `l` thread exactly this list: in every split of the list around a
node, `next` is the first node after it and `prev` the last one before it.
-/
namespace LinkedList

variable {α : Type*} {next prev next' prev' : α → Option α} {l xs ys : List α} {a : α}

def Linked (next prev : α → Option α) (l : List α) : Prop :=
  ∀ xs a ys, l = xs ++ a :: ys → next a = ys.head? ∧ prev a = xs.getLast?

/-- Following `next` from a link visits exactly these nodes and ends in null. -/
inductive Walk (next : α → Option α) : Option α → List α → Prop where
  | nil : Walk next none []
  | cons {a : α} {l : List α} : Walk next (next a) l → Walk next (some a) (a :: l)

theorem Walk.unique {start : Option α} (h : Walk next start l) {l' : List α}
    (h' : Walk next start l') : l = l' := by
  induction h generalizing l' with
  | nil => cases h'; rfl
  | cons _ ih =>
    cases h' with
    | cons h' => rw [ih h']

theorem Walk.congr {start : Option α} (h : Walk next start l) (hn : ∀ a ∈ l, next' a = next a) :
    Walk next' start l := by
  induction h with
  | nil => exact .nil
  | @cons a l _ ih =>
    refine .cons ?_
    rw [hn a (by simp)]
    exact ih fun b hb => hn b (by simp [hb])

theorem Walk.start_eq {start : Option α} (h : Walk next start l) : start = l.head? := by
  cases h <;> rfl

theorem Walk.next_eq {start : Option α} (h : Walk next start (xs ++ a :: ys)) :
    next a = ys.head? := by
  induction xs generalizing start with
  | nil =>
    cases h with
    | cons h => exact h.start_eq
  | cons b xs ih =>
    cases h with
    | cons h => exact ih h

/-- The walk goes on from each of its nodes. -/
theorem Walk.from_node {start : Option α} (h : Walk next start (xs ++ a :: ys)) : Walk next (some a) (a :: ys) := by
  induction xs generalizing start with
  | nil =>
    obtain rfl : start = some a := h.start_eq
    exact h
  | cons b xs ih =>
    cases h with
    | cons h => exact ih h

/-- A node put behind the last one of a singly linked list. -/
theorem Walk.concat {start : Option α} {b x : α} (h : Walk next start (l ++ [b]))
    (hl : ∀ a ∈ l, next' a = next a) (hb : next' b = some x) (hx : next' x = none) :
    Walk next' start (l ++ [b] ++ [x]) := by
  induction l generalizing start with
  | nil =>
    cases h with
    | cons h =>
    refine .cons ?_
    rw [hb]
    refine .cons ?_
    rw [hx]
    exact .nil
  | cons a l ih =>
    cases h with
    | cons h =>
    refine .cons ?_
    rw [hl a (by simp)]
    exact ih h fun c hc => hl c (by simp [hc])

/-- Around a node and its successor. -/
theorem Walk.split {start : Option α} {b : α} (h : Walk next start l) (ha : a ∈ l) (hab : next a = some b) :
    ∃ xs ys, l = xs ++ a :: b :: ys := by
  obtain ⟨xs, ys, rfl⟩ := List.mem_iff_append.mp ha
  have hhead : some b = ys.head? := hab.symm.trans h.next_eq
  obtain ⟨zs, rfl⟩ := List.head?_eq_some_iff.mp hhead.symm
  exact ⟨xs, zs, rfl⟩

theorem Walk.next_mem {start : Option α} {b : α} (h : Walk next start l) (ha : a ∈ l) (hab : next a = some b) :
    b ∈ l := by
  obtain ⟨xs, ys, rfl⟩ := h.split ha hab
  simp

/-- A node put behind another one. -/
theorem Walk.insert {start : Option α} {x : α} (h : Walk next start (xs ++ a :: ys))
    (same : ∀ b ∈ xs ++ ys, next' b = next b) (hax : next' a = some x) (hx : next' x = next a) :
    Walk next' start (xs ++ a :: x :: ys) := by
  induction xs generalizing start with
  | nil =>
    cases h with
    | cons h =>
    refine .cons ?_
    rw [hax]
    refine .cons ?_
    rw [hx]
    exact h.congr same
  | cons b xs ih =>
    cases h with
    | cons h =>
    refine .cons ?_
    rw [same b (by simp)]
    exact ih h fun c hc => same c (List.mem_cons_of_mem b hc)

/-- The node behind another one taken out. -/
theorem Walk.remove {start : Option α} {b : α} (h : Walk next start (xs ++ a :: b :: ys))
    (same : ∀ c ∈ xs ++ ys, next' c = next c) (ha : next' a = next b) : Walk next' start (xs ++ a :: ys) := by
  induction xs generalizing start with
  | nil =>
    cases h with
    | cons h =>
    cases h.start_eq ▸ h with
    | cons h =>
    refine .cons ?_
    rw [ha]
    exact h.congr same
  | cons c xs ih =>
    cases h with
    | cons h =>
    refine .cons ?_
    rw [same c (by simp)]
    exact ih h fun d hd => same d (List.mem_cons_of_mem c hd)

theorem linked_nil : Linked next prev ([] : List α) := by
  intro xs a ys h
  simp at h

theorem Linked.next_eq (h : Linked next prev (xs ++ a :: ys)) : next a = ys.head? :=
  (h xs a ys rfl).1

theorem Linked.prev_eq (h : Linked next prev (xs ++ a :: ys)) : prev a = xs.getLast? :=
  (h xs a ys rfl).2

/-- Links of nodes outside the list do not matter. -/
theorem Linked.congr (h : Linked next prev l) (hn : ∀ a ∈ l, next' a = next a)
    (hp : ∀ a ∈ l, prev' a = prev a) : Linked next' prev' l := by
  intro xs a ys he
  have ha : a ∈ l := by simp [he]
  rw [hn a ha, hp a ha]
  exact h xs a ys he

theorem Linked.walk_next (h : Linked next prev (xs ++ ys)) : Walk next ys.head? ys := by
  induction ys generalizing xs with
  | nil => exact .nil
  | cons a ys ih =>
    refine .cons ?_
    rw [h.next_eq]
    have he : xs ++ a :: ys = (xs ++ [a]) ++ ys := by simp
    exact ih (he ▸ h)

theorem Linked.walk_prev (h : Linked next prev (xs ++ ys)) : Walk prev xs.getLast? xs.reverse := by
  induction xs using List.reverseRecOn generalizing ys with
  | nil => exact .nil
  | append_singleton xs a ih =>
    rw [List.getLast?_concat, List.reverse_concat]
    refine .cons ?_
    have he : xs ++ [a] ++ ys = xs ++ a :: ys := by simp
    rw [he] at h
    rw [h.prev_eq]
    exact ih h

/-- Both directions visit the same nodes, in opposite order. -/
theorem Linked.walks (h : Linked next prev l) :
    Walk next l.head? l ∧ Walk prev l.getLast? l.reverse := by
  constructor
  · exact Linked.walk_next (by simpa using h : Linked next prev ([] ++ l))
  · exact Linked.walk_prev (by simpa using h : Linked next prev (l ++ []))

/-- The same nodes from the other end. -/
theorem Linked.reverse (h : Linked next prev l) : Linked prev next l.reverse := by
  intro xs a ys he
  have hl : l = ys.reverse ++ a :: xs.reverse := by
    rw [← List.reverse_reverse l, he]
    simp
  obtain ⟨hn, hp⟩ := h _ a _ hl
  exact ⟨by rw [hp, List.getLast?_reverse], by rw [hn, List.head?_reverse]⟩

theorem last_ne_of_nodup (h : (xs ++ a :: ys).Nodup) (hy : ys ≠ []) :
    (xs ++ a :: ys).getLast? ≠ some a := by
  obtain ⟨zs, z, rfl⟩ := (List.eq_nil_or_concat' ys).resolve_left hy
  have hz : z ≠ a := by
    rintro rfl
    simp [List.nodup_append] at h
  have he : xs ++ a :: (zs ++ [z]) = (xs ++ a :: zs) ++ [z] := by simp
  rw [he, List.getLast?_concat]
  simpa using hz

theorem head_ne_of_nodup (h : (xs ++ a :: ys).Nodup) (hx : xs ≠ []) :
    (xs ++ a :: ys).head? ≠ some a := by
  cases xs with
  | nil => contradiction
  | cons b xs =>
    have hb : b ≠ a := by
      rintro rfl
      simp at h
    simpa using hb

variable [DecidableEq α]

/-- A node put behind the last one. -/
theorem Linked.concat {x : α} (h : Linked next prev l) (nodup : l.Nodup)
    (hn : ∀ a ∈ l, next' a = if l.getLast? = some a then some x else next a)
    (hnx : next' x = none) (hp : ∀ a ∈ l, prev' a = prev a) (hpx : prev' x = l.getLast?) :
    Linked next' prev' (l ++ [x]) := by
  intro xs a ys he
  rcases List.eq_nil_or_concat' ys with rfl | ⟨zs, z, rfl⟩
  · obtain ⟨rfl, hx⟩ := List.append_inj' he rfl
    obtain rfl : x = a := by simpa using hx
    exact ⟨by simpa using hnx, hpx⟩
  · have he' : l ++ [x] = (xs ++ a :: zs) ++ [z] := by simpa using he
    obtain ⟨rfl, hz⟩ := List.append_inj' he' rfl
    obtain rfl : x = z := by simpa using hz
    have ha : a ∈ xs ++ a :: zs := by simp
    rw [hn a ha, hp a ha, h.next_eq, h.prev_eq]
    refine ⟨?_, rfl⟩
    cases zs with
    | nil => simp
    | cons b zs => rw [if_neg (last_ne_of_nodup nodup (by simp))]; simp

/-- Two lists joined end to end. -/
theorem Linked.append (hx : Linked next prev xs) (hy : Linked next prev ys)
    (nodup : (xs ++ ys).Nodup)
    (hn : ∀ a ∈ xs ++ ys, next' a = if xs.getLast? = some a then ys.head? else next a)
    (hp : ∀ a ∈ xs ++ ys, prev' a = if ys.head? = some a then xs.getLast? else prev a) :
    Linked next' prev' (xs ++ ys) := by
  have hd : ∀ a ∈ xs, a ∉ ys := by
    intro a ha hb
    exact (List.nodup_append.mp nodup).2.2 a ha a hb rfl
  -- a node of the second list keeps its successor
  have second : ∀ ws a vs, ys = ws ++ a :: vs →
      next' a = vs.head? ∧ prev' a = (xs ++ ws).getLast? := by
    rintro ws a vs rfl
    have hl : xs.getLast? ≠ some a := fun hl => hd a (List.mem_of_getLast? hl) (by simp)
    rw [hn a (by simp), hp a (by simp), if_neg hl, hy.next_eq, hy.prev_eq]
    refine ⟨rfl, ?_⟩
    cases ws with
    | nil => simp
    | cons b ws =>
      rw [if_neg (head_ne_of_nodup (List.nodup_append.mp nodup).2.1 (by simp))]
      exact (List.getLast?_append_of_ne_nil _ (by simp)).symm
  intro us a vs he
  rcases List.append_eq_append_iff.mp he with ⟨ws, rfl, hys⟩ | ⟨ws, rfl, hv⟩
  · exact second ws a vs hys
  · cases ws with
    | nil =>
      have h := second [] a vs (by simpa using hv.symm)
      simpa using h
    | cons b ws =>
      obtain ⟨rfl, rfl⟩ : a = b ∧ vs = ws ++ ys := by simpa using hv
      have hh : ys.head? ≠ some a := fun hh => hd a (by simp) (List.mem_of_head? hh)
      rw [hn a (by simp), hp a (by simp), if_neg hh, hx.next_eq, hx.prev_eq]
      refine ⟨?_, rfl⟩
      cases ws with
      | nil => simp
      | cons c ws =>
        rw [if_neg (last_ne_of_nodup (List.nodup_append.mp nodup).1 (by simp))]
        simp

/-- A node taken out: its neighbours are linked to each other. -/
theorem Linked.erase {x : α} (h : Linked next prev (xs ++ x :: ys)) (nodup : (xs ++ x :: ys).Nodup)
    (hn : ∀ a ∈ xs ++ ys, next' a = if xs.getLast? = some a then ys.head? else next a)
    (hp : ∀ a ∈ xs ++ ys, prev' a = if ys.head? = some a then xs.getLast? else prev a) :
    Linked next' prev' (xs ++ ys) := by
  have hd : ∀ a ∈ xs, a ∉ ys := by
    intro a ha hb
    exact (List.nodup_append.mp nodup).2.2 a ha a (by simp [hb]) rfl
  intro us a vs he
  rw [hn a (by simp [he]), hp a (by simp [he])]
  rcases List.append_eq_append_iff.mp he with ⟨ws, rfl, rfl⟩ | ⟨ws, rfl, hv⟩
  · -- the split is behind the removed node
    have hl : xs.getLast? ≠ some a := fun hl => hd a (List.mem_of_getLast? hl) (by simp)
    have hs : Linked next prev ((xs ++ x :: ws) ++ a :: vs) := by simpa using h
    rw [if_neg hl, hs.next_eq, hs.prev_eq]
    refine ⟨rfl, ?_⟩
    rcases List.eq_nil_or_concat' ws with rfl | ⟨zs, z, rfl⟩
    · simp
    · have hy : (zs ++ [z] ++ a :: vs).Nodup := by
        have := (List.nodup_append.mp nodup).2.1
        exact (List.nodup_cons.mp this).2
      have hc : xs ++ x :: (zs ++ [z]) = (xs ++ x :: zs) ++ [z] := by simp
      rw [if_neg (head_ne_of_nodup hy (by simp)), hc, ← List.append_assoc]
      simp only [List.getLast?_concat]
  · cases ws with
    | nil =>
      obtain rfl : a :: vs = ys := by simpa using hv
      have hl : us.getLast? ≠ some a :=
        fun hl => hd a (by simpa using List.mem_of_getLast? hl) (by simp)
      have hs : Linked next prev ((us ++ [x]) ++ a :: vs) := by simpa using h
      rw [List.append_nil, if_neg hl, hs.next_eq]
      simp
    | cons b ws =>
      obtain ⟨rfl, rfl⟩ : a = b ∧ vs = ws ++ ys := by simpa using hv
      have hy : ys.head? ≠ some a := fun hy => hd a (by simp) (List.mem_of_head? hy)
      have hs : Linked next prev (us ++ a :: (ws ++ x :: ys)) := by simpa using h
      rw [if_neg hy, hs.next_eq, hs.prev_eq]
      refine ⟨?_, rfl⟩
      cases ws with
      | nil => simp
      | cons c ws =>
        have hxs : (us ++ a :: c :: ws).Nodup := (List.nodup_append.mp nodup).1
        rw [if_neg (last_ne_of_nodup hxs (by simp))]
        simp

/-- A node put between two others, before the first or behind the last one. -/
theorem Linked.insert {x : α} (h : Linked next prev (xs ++ ys)) (nodup : (xs ++ ys).Nodup)
    (hn : ∀ a ∈ xs ++ ys, next' a = if xs.getLast? = some a then some x else next a)
    (hp : ∀ a ∈ xs ++ ys, prev' a = if ys.head? = some a then some x else prev a)
    (hnx : next' x = ys.head?) (hpx : prev' x = xs.getLast?) : Linked next' prev' (xs ++ x :: ys) := by
  have hd : ∀ a ∈ xs, a ∉ ys := by
    intro a ha hb
    exact (List.nodup_append.mp nodup).2.2 a ha a hb rfl
  intro us a vs he
  rcases List.append_eq_append_iff.mp he with ⟨ws, rfl, hys⟩ | ⟨ws, rfl, hv⟩
  · cases ws with
    | nil =>
      obtain ⟨rfl, rfl⟩ : x = a ∧ ys = vs := by simpa using hys
      exact ⟨hnx, by simpa using hpx⟩
    | cons y ws =>
      -- behind the new node
      obtain ⟨rfl, rfl⟩ : x = y ∧ ys = ws ++ a :: vs := by simpa using hys
      have hl : xs.getLast? ≠ some a := fun hl => hd a (List.mem_of_getLast? hl) (by simp)
      have hs : Linked next prev ((xs ++ ws) ++ a :: vs) := by simpa using h
      rw [hn a (by simp), hp a (by simp), if_neg hl, hs.next_eq, hs.prev_eq]
      refine ⟨rfl, ?_⟩
      rcases List.eq_nil_or_concat' ws with rfl | ⟨zs, z, rfl⟩
      · simp
      · have hc : xs ++ x :: (zs ++ [z]) = (xs ++ x :: zs) ++ [z] := by simp
        rw [if_neg (head_ne_of_nodup (List.nodup_append.mp nodup).2.1 (by simp)), hc, ← List.append_assoc]
        simp only [List.getLast?_concat]
  · cases ws with
    | nil =>
      obtain ⟨rfl, rfl⟩ : a = x ∧ vs = ys := by simpa using hv
      exact ⟨hnx, by simpa using hpx⟩
    | cons y ws =>
      -- before the new node
      obtain ⟨rfl, rfl⟩ : a = y ∧ vs = ws ++ x :: ys := by simpa using hv
      have hy : ys.head? ≠ some a := fun hy => hd a (by simp) (List.mem_of_head? hy)
      have hs : Linked next prev (us ++ a :: (ws ++ ys)) := by simpa using h
      rw [hn a (by simp), hp a (by simp), if_neg hy, hs.next_eq, hs.prev_eq]
      refine ⟨?_, rfl⟩
      cases ws with
      | nil => simp
      | cons c ws =>
        rw [if_neg (last_ne_of_nodup (List.nodup_append.mp nodup).1 (by simp))]
        simp

end LinkedList
