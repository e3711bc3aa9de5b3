import HyuIte4065.Query.Groups
import Mathlib.Logic.Relation

/-!
# The join trees stay complete

After each turn of the loop the groups are the components of the predicates done so far, and the
tree of a component has a null pointer in it exactly when a predicate with two equal bindings
was the first to mention a binding of it.
-/
namespace Query

open Forest Loops
open Function (update)

/-! ### What should hold after a turn -/

def Seen (done : List PredicateInfo) (b : Nat) : Prop :=
  ∃ p ∈ done, p.left.binding = b ∨ p.right.binding = b

/-- The predicates connect the two bindings. -/
def Connected (done : List PredicateInfo) : Nat → Nat → Prop :=
  Relation.EqvGen fun a b => ∃ p ∈ done, p.left.binding = a ∧ p.right.binding = b

/-- What holds of the disjoint set, null pointers in the trees aside. -/
structure Components (done : List PredicateInfo) (disjointSet : DisjointSet) : Prop where
  terminates : ∀ b, Seen done b → ∃ r, Root disjointSet.parents b r
  connected : ∀ a b, Seen done a → Seen done b →
    ((∃ r, Root disjointSet.parents a r ∧ Root disjointSet.parents b r) ↔ Connected done a b)
  compression : ∀ b r, Root disjointSet.parents b r →
    ∃ ds', Returns (getRootOfJoinTree · disjointSet b) (r, ds') ∧
      ∀ c s, Root ds'.parents c s ↔ Root disjointSet.parents c s
  leaves : ∀ r, disjointSet.parents r = some r → ∃ tree, disjointSet.trees r = some tree ∧
    tree.leaves.Nodup ∧ ∀ b, b ∈ tree.leaves ↔ Root disjointSet.parents b r
  bare : ∀ b r, disjointSet.parents b = some r → r ≠ b → disjointSet.trees b = some .null

/-- No tree at a root has a null input. -/
def Whole (disjointSet : DisjointSet) : Prop :=
  ∀ r tree, disjointSet.parents r = some r → disjointSet.trees r = some tree → tree.Complete

/-- The first predicate that mentions the binding has it on both sides. -/
def Alone (done : List PredicateInfo) (b : Nat) : Prop :=
  ∃ before p after, done = before ++ p :: after ∧ p.left.binding = b ∧ p.right.binding = b ∧
    ¬ Seen before b

variable {relations : List Relation} {query : QueryInfo} {disjointSet ds' : DisjointSet}
  {find : Nat → Option Nat} {done : List PredicateInfo} {named : SelectInfo → Prop} {info : SelectInfo}
  {pInfo : PredicateInfo} {a b l r s : Nat} {tree : OperatorPtr} {state : Option Nat × DisjointSet}

theorem seen_append : Seen (done ++ [pInfo]) b ↔
    Seen done b ∨ pInfo.left.binding = b ∨ pInfo.right.binding = b := by
  constructor
  · rintro ⟨p, hp, hb⟩
    rcases List.mem_append.mp hp with hp | hp
    · exact .inl ⟨p, hp, hb⟩
    · rw [List.mem_singleton.mp hp] at hb
      exact .inr hb
  · rintro (⟨p, hp, hb⟩ | hb)
    · exact ⟨p, List.mem_append_left _ hp, hb⟩
    · exact ⟨pInfo, by simp, hb⟩

theorem Alone.seen (h : Alone done b) : Seen done b := by
  obtain ⟨before, p, after, rfl, hl, -⟩ := h
  exact ⟨p, by simp, .inl hl⟩

theorem alone_append : Alone (done ++ [pInfo]) b ↔
    Alone done b ∨ (pInfo.left.binding = b ∧ pInfo.right.binding = b ∧ ¬ Seen done b) := by
  constructor
  · rintro ⟨before, p, after, he, hl, hr, hn⟩
    rcases List.eq_nil_or_concat' after with rfl | ⟨zs, z, rfl⟩
    · obtain ⟨rfl, hp⟩ := List.append_inj' he rfl
      obtain rfl : pInfo = p := by simpa using hp
      exact .inr ⟨hl, hr, hn⟩
    · have he' : done ++ [pInfo] = (before ++ p :: zs) ++ [z] := by simpa using he
      obtain ⟨rfl, -⟩ := List.append_inj' he' rfl
      exact .inl ⟨before, p, zs, rfl, hl, hr, hn⟩
  · rintro (⟨before, p, after, rfl, hl, hr, hn⟩ | ⟨hl, hr, hn⟩)
    · exact ⟨before, p, after ++ [pInfo], by simp, hl, hr, hn⟩
    · exact ⟨done, pInfo, [], rfl, hl, hr, hn⟩

theorem Connected.mono (h : Connected done a b) : Connected (done ++ [pInfo]) a b :=
  Relation.EqvGen.mono (fun _ _ ⟨p, hp, he⟩ => ⟨p, List.mem_append_left _ hp, he⟩) _ _ h

theorem Connected.find_eq (h : Connected done a b)
    (hconnects : ∀ p ∈ done, find p.left.binding = find p.right.binding) : find a = find b := by
  induction h with
  | rel a b hab =>
    obtain ⟨p, hp, rfl, rfl⟩ := hab
    exact hconnects p hp
  | refl a => rfl
  | symm a b _ ih => exact ih.symm
  | trans a b c _ _ hab hbc => exact hab.trans hbc

/-! ### The loop -/

/-- The groups are the components of the predicates done so far. -/
structure Connects (done : List PredicateInfo) (find : Nat → Option Nat) : Prop where
  seen : ∀ b, find b ≠ none ↔ Seen done b
  root : ∀ b r, find b = some r → find r = some r
  joined : ∀ p ∈ done, find p.left.binding = find p.right.binding
  connected : ∀ a b r, find a = some r → find b = some r → Connected done a b

theorem addNew_cases (hs : addNew find b a = some s) : find a = some s ∨ (find b = none ∧ a = b ∧ s = b) := by
  rw [addNew] at hs
  by_cases hb : find b = none
  · rw [if_pos hb] at hs
    by_cases hab : a = b
    · rw [hab, Function.update_self] at hs
      exact .inr ⟨hb, hab, (Option.some.inj hs).symm⟩
    · rw [Function.update_of_ne hab] at hs
      exact .inl hs
  · rw [if_neg hb] at hs
    exact .inl hs

theorem addNew_of_some (hs : find a = some s) : addNew find b a = some s := by
  rw [addNew]
  split
  · rename_i hb
    have hab : a ≠ b := by
      rintro rfl
      rw [hb] at hs
      cases hs
    rw [Function.update_of_ne hab, hs]
  · exact hs

theorem addNew_ne_none : addNew find b a ≠ none ↔ find a ≠ none ∨ a = b := by
  rw [addNew]
  by_cases hb : find b = none
  · rw [if_pos hb]
    by_cases hab : a = b
    · simp [hab]
    · simp [hab]
  · rw [if_neg hb]
    refine (or_iff_left_of_imp ?_).symm
    rintro rfl
    exact hb

/-- Roots and connections survive a new group. -/
theorem addNew_connected (hroot : ∀ b r, find b = some r → find r = some r)
    (hconnected : ∀ a b r, find a = some r → find b = some r → Connected done a b) :
    (∀ c r, addNew find b c = some r → addNew find b r = some r) ∧
    ∀ a c r, addNew find b a = some r → addNew find b c = some r → Connected done a c := by
  have hnew : find b = none → ∀ c, find c ≠ some b := by
    intro hb c hc
    rw [hroot c b hc] at hb
    cases hb
  constructor
  · intro c r hc
    rcases addNew_cases hc with hc | ⟨hb, rfl, rfl⟩
    · exact addNew_of_some (hroot c r hc)
    · exact hc
  · intro a c r ha hc
    rcases addNew_cases ha with ha' | ⟨hb, rfl, rfl⟩
    · rcases addNew_cases hc with hc' | ⟨hb, rfl, rfl⟩
      · exact hconnected a c r ha' hc'
      · exact absurd ha' (hnew hb a)
    · rcases addNew_cases hc with hc' | ⟨-, rfl, -⟩
      · exact absurd hc' (hnew hb c)
      · exact .refl _

theorem Connects.addPredicate (h : Connects done find) (hl : addBoth find pInfo pInfo.left.binding = some l)
    (hr : addBoth find pInfo pInfo.right.binding = some r) :
    Connects (done ++ [pInfo]) (merge (addBoth find pInfo) l r) := by
  obtain ⟨hroot₁, hconn₁⟩ := addNew_connected (b := pInfo.left.binding) h.root h.connected
  obtain ⟨hroot₂, hconn₂⟩ := addNew_connected (b := pInfo.right.binding) hroot₁ hconn₁
  have hold : ∀ a s, find a = some s → addBoth find pInfo a = some s :=
    fun a s ha => addNew_of_some (addNew_of_some ha)
  have hedge : Connected (done ++ [pInfo]) pInfo.left.binding pInfo.right.binding :=
    .rel _ _ ⟨pInfo, by simp, rfl, rfl⟩
  have hmerge : ∀ c s, merge (addBoth find pInfo) l r c = some s →
      (addBoth find pInfo c = some l ∧ s = r) ∨ addBoth find pInfo c = some s := by
    intro c s hc
    rw [merge] at hc
    split at hc
    · rename_i hcl
      exact .inl ⟨hcl, (Option.some.inj hc).symm⟩
    · exact .inr hc
  have hsame : ∀ c s, addBoth find pInfo c = some s → merge (addBoth find pInfo) l r c =
      some (if s = l then r else s) := fun c s hc => merge_eq hc
  refine ⟨fun c => ?_, fun c s hc => ?_, fun p hp => ?_, fun a c s ha hc => ?_⟩
  · have hiff : merge (addBoth find pInfo) l r c ≠ none ↔ addBoth find pInfo c ≠ none := by
      rw [merge]
      by_cases hcl : addBoth find pInfo c = some l
      · simp [hcl]
      · rw [if_neg hcl]
    rw [hiff, addBoth, addNew_ne_none, addNew_ne_none, h.seen, seen_append, or_assoc, eq_comm (a := c),
      eq_comm (a := c)]
  · have hrr : merge (addBoth find pInfo) l r r = some r := merge_root.mpr (.inr (hroot₂ _ r hr))
    rcases hmerge c s hc with ⟨-, rfl⟩ | hcs
    · exact hrr
    · have hs := hsame c s hcs
      rw [hc] at hs
      have hs' := hsame s s (hroot₂ c s hcs)
      rw [← Option.some.inj hs] at hs'
      exact hs'
  · rcases List.mem_append.mp hp with hp | hp
    · obtain ⟨s, hs⟩ := Option.ne_none_iff_exists'.mp
        ((h.seen p.left.binding).mpr ⟨p, hp, .inl rfl⟩)
      have hs' := (h.joined p hp).symm.trans hs
      rw [hsame _ s (hold _ s hs), hsame _ s (hold _ s hs')]
    · rw [List.mem_singleton.mp hp, merge_root.mpr (.inl hl), merge_root.mpr (.inr hr)]
  · have hside : ∀ c, addBoth find pInfo c = some l → Connected (done ++ [pInfo]) c pInfo.right.binding :=
      fun c hc => .trans _ _ _ (hconn₂ c _ l hc hl).mono hedge
    rcases hmerge a s ha with ⟨hal, rfl⟩ | has
    · rcases hmerge c s hc with ⟨hcl, -⟩ | hcs
      · exact (hconn₂ a c l hal hcl).mono
      · exact .trans _ _ _ (hside a hal) (hconn₂ _ c s hr hcs).mono
    · rcases hmerge c s hc with ⟨hcl, rfl⟩ | hcs
      · exact .symm _ _ (.trans _ _ _ (hside c hcl) (hconn₂ _ a s hr has).mono)
      · exact (hconn₂ a c s has hcs).mono

theorem connects_empty : Connects [] fun _ => none := by
  refine ⟨fun b => iff_of_false (fun h => h rfl) ?_, nofun, nofun, nofun⟩
  rintro ⟨p, hp, -⟩
  cases hp

/-- One turn of the loop of `Joiner::join`. -/
def joinTurn (fuel : Nat) (relations : List Relation) (query : QueryInfo)
    (state : Option Nat × DisjointSet) (pInfo : PredicateInfo) : Option (Option Nat × DisjointSet) := do
  let (root, disjointSet) ← addPredicate fuel relations query state.2 pInfo
  return (some root, disjointSet)

def joinLoop (fuel : Nat) (relations : List Relation) (query : QueryInfo)
    (predicates : List PredicateInfo) : Option (Option Nat × DisjointSet) :=
  predicates.foldlM (joinTurn fuel relations query) (none, DisjointSet.empty)

/-- A column on one of the sides of the predicates. -/
def Side (predicates : List PredicateInfo) (info : SelectInfo) : Prop :=
  ∃ p ∈ predicates, info = p.left ∨ info = p.right

variable (relations query named) in
/-- What the loop has made of the predicates done so far. -/
def Processed (done : List PredicateInfo) (state : Option Nat × DisjointSet) : Prop :=
  ∃ find, Connects done find ∧ Grouped relations query named state.2 find done (Alone done) ∧
    ∀ p, done.getLast? = some p → ∃ r, state.1 = some r ∧ find p.left.binding = some r

theorem processed_empty : Processed relations query named [] (none, DisjointSet.empty) := by
  have halone : Alone [] = fun _ => False := by
    funext b
    refine eq_false fun h => ?_
    obtain ⟨p, hp, -⟩ := h.seen
    cases hp
  exact ⟨fun _ => none, connects_empty, halone ▸ grouped_empty, nofun⟩

/-- A turn whose new relations are there. -/
theorem Processed.turn (h : Processed relations query named done state) (hside : named pInfo.left ∧ named pInfo.right)
    (hrelLeft : ¬Seen done pInfo.left.binding → pInfo.left.relId < relations.length)
    (hrelRight : ¬Seen done pInfo.right.binding → pInfo.right.relId < relations.length) :
    ∃ state', Returns (joinTurn · relations query state pInfo) state' ∧
      Processed relations query named (done ++ [pInfo]) state' := by
  obtain ⟨find, hconnects, hgrouped, -⟩ := h
  have hnew : ∀ b, find b = none → ¬Seen done b := fun b hb hs => (hconnects.seen b).mpr hs hb
  obtain ⟨l, r, ds', hl, hr, hret, hgrouped'⟩ := hgrouped.addPredicate hside (fun hn => hrelLeft (hnew _ hn))
    fun hn => hrelRight (hnew _ hn)
  refine ⟨(some r, ds'), hret.bind (.const rfl), _, hconnects.addPredicate hl hr, ?_, fun p hp => ?_⟩
  · have halone : Alone (done ++ [pInfo]) = fun c => Alone done c ∨
        (pInfo.left.binding = c ∧ pInfo.right.binding = c ∧ find c = none) := by
      funext c
      rw [alone_append, ← hconnects.seen, not_not]
    rw [halone]
    exact hgrouped'
  · rw [List.getLast?_concat] at hp
    obtain rfl := Option.some.inj hp
    exact ⟨r, rfl, merge_root.mpr (.inl hl)⟩

theorem joinLoop_processed (query : QueryInfo)
    (hrel : ∀ p ∈ done, p.left.relId < relations.length ∧ p.right.relId < relations.length) :
    ∃ state, Returns (joinLoop · relations query done) state ∧ Processed relations query (Side done) done state := by
  refine Returns.foldlM processed_empty fun before p after he state hs => ?_
  have hp : p ∈ done := by rw [he]; simp
  exact hs.turn ⟨⟨p, hp, .inl rfl⟩, ⟨p, hp, .inr rfl⟩⟩ (fun _ => (hrel p hp).1) fun _ => (hrel p hp).2

theorem Processed.components (h : Processed relations query named done state) :
    Components done state.2 := by
  obtain ⟨find, hj, hg, -⟩ := h
  have hroots : ∀ b r, Root state.2.parents b r ↔ find b = some r :=
    fun b r => ⟨hg.find_of_root, hg.rooted b r⟩
  constructor
  · intro b hb
    obtain ⟨r, hr⟩ := Option.ne_none_iff_exists'.mp ((hj.seen b).mpr hb)
    exact ⟨r, hg.rooted b r hr⟩
  · intro a b ha hb
    constructor
    · rintro ⟨r, har, hbr⟩
      exact hj.connected a b r (hg.find_of_root har) (hg.find_of_root hbr)
    · intro hab
      obtain ⟨r, hr⟩ := Option.ne_none_iff_exists'.mp ((hj.seen a).mpr ha)
      exact ⟨r, hg.rooted a r hr, hg.rooted b r ((hab.find_eq hj.joined).symm.trans hr)⟩
  · intro b r hr
    obtain ⟨ds', hret, hg'⟩ := hg.getRoot (hg.find_of_root hr)
    exact ⟨ds', hret, fun c s => ⟨fun hc => hg.rooted c s (hg'.find_of_root hc),
      fun hc => hg'.rooted c s (hg.find_of_root hc)⟩⟩
  · intro r hr
    obtain ⟨tree, htree, hcovers⟩ := hg.tree r r (hg.find_of_root (.here hr))
    exact ⟨tree, htree, hcovers.nodup, fun b => (hcovers.leaves b).trans (hroots b r).symm⟩
  · intro b r hb hne
    obtain ⟨s, hs⟩ : ∃ s, find b = some s := by
      rw [← Option.isSome_iff_exists, ← hg.used, ← DisjointSet.isSome_parents, hb]
      rfl
    refine hg.bare b s hs ?_
    rintro rfl
    have hroot := (hg.rooted b b hs).isRoot
    rw [hb] at hroot
    exact hne (Option.some.inj hroot)

/-- A tree has a null pointer in it exactly when a binding of its group was alone. -/
theorem Processed.whole_iff (h : Processed relations query named done state) :
    Whole state.2 ↔ ∀ b, ¬ Alone done b := by
  obtain ⟨find, hj, hg, -⟩ := h
  constructor
  · intro hw b hb
    obtain ⟨r, hr⟩ := Option.ne_none_iff_exists'.mp ((hj.seen b).mpr hb.seen)
    obtain ⟨tree, htree, hcovers⟩ := hg.tree b r hr
    exact hcovers.complete.mp (hw r tree (hg.rooted b r hr).isRoot htree) b hb hr
  · intro hnone r tree hr htree
    obtain ⟨tree', htree', hcovers⟩ := hg.tree r r (hg.find_of_root (.here hr))
    obtain rfl : tree = tree' := Option.some.inj (htree.symm.trans htree')
    exact hcovers.complete.mpr fun b hb => absurd hb (hnone b)

/-- Every predicate with both sides on one binding comes after one that mentions the binding. -/
def Introduced (done : List PredicateInfo) : Prop :=
  ∀ before p after, done = before ++ p :: after → p.left.binding = p.right.binding →
    Seen before p.left.binding

theorem introduced_iff : Introduced done ↔ ∀ b, ¬ Alone done b := by
  constructor
  · rintro h b ⟨before, p, after, he, hl, hr, hn⟩
    exact hn (hl ▸ h before p after he (hl.trans hr.symm))
  · intro h before p after he hself
    by_contra hn
    exact h p.left.binding ⟨before, p, after, he, rfl, hself.symm, hn⟩

/-- After each turn of the loop the components, their roots and their leaves are right, and no tree
at a root has a null input exactly when every binding was introduced by a predicate with another
one. -/
theorem join_trees_complete_iff (relations : List Relation) (query : QueryInfo)
    (hrel : ∀ p ∈ query.predicates, p.left.relId < relations.length ∧ p.right.relId < relations.length)
    (k : Nat) :
    ∃ state, Returns (joinLoop · relations query (query.predicates.take k)) state ∧
      (Components (query.predicates.take k) state.2 ∧ Whole state.2 ↔ Introduced (query.predicates.take k)) ∧
      Components (query.predicates.take k) state.2 := by
  obtain ⟨state, hret, h⟩ := joinLoop_processed query fun p hp => hrel p (List.mem_of_mem_take hp)
  refine ⟨state, hret, ?_, h.components⟩
  rw [and_iff_right h.components, h.whole_iff, introduced_iff]

def twoColumns : Relation := ⟨1, [[1], [1]], by simp⟩

/-- The predicate `0.0=1.0`. -/
def twoBindings : QueryInfo := ⟨[0, 0], [⟨⟨0, 0, 0⟩, ⟨0, 1, 0⟩⟩], [], [⟨0, 0, 0⟩]⟩

theorem join_trees_complete_twoBindings :
    ∃ state, Returns (joinLoop · [twoColumns] twoBindings (twoBindings.predicates.take 1)) state ∧
      Components (twoBindings.predicates.take 1) state.2 ∧ Whole state.2 := by
  have hrel : ∀ p ∈ twoBindings.predicates,
      p.left.relId < [twoColumns].length ∧ p.right.relId < [twoColumns].length := by
    intro p hp
    rw [List.mem_singleton.mp hp]
    exact ⟨Nat.one_pos, Nat.one_pos⟩
  obtain ⟨state, hret, hiff, -⟩ := join_trees_complete_iff [twoColumns] twoBindings hrel 1
  refine ⟨state, hret, hiff.mpr fun before p after he hself => ?_⟩
  have hp : p ∈ twoBindings.predicates.take 1 := by simp [he]
  rw [List.mem_singleton.mp hp] at hself
  cases hself

/-- The predicate `0.0=0.1`. -/
def oneBinding : QueryInfo := ⟨[0], [⟨⟨0, 0, 0⟩, ⟨0, 0, 1⟩⟩], [], [⟨0, 0, 0⟩]⟩

/-- The first turn leaves a join without a right input. -/
theorem oneBinding_null :
    ∃ state, Returns (joinLoop · [twoColumns] oneBinding oneBinding.predicates) state ∧
      state.2.parents 0 = some 0 ∧
      state.2.trees 0 = some (.join (.scan twoColumns 0) .null ⟨⟨0, 0, 0⟩, ⟨0, 0, 1⟩⟩) ∧
      ¬ Whole state.2 := by
  refine ⟨(joinLoop 1 [twoColumns] oneBinding oneBinding.predicates).get rfl, ⟨1, fun fuel hle => ?_⟩, ?_⟩
  · obtain ⟨n, rfl⟩ : ∃ n, fuel = n + 1 := ⟨fuel - 1, by omega⟩
    rfl
  · exact ⟨rfl, rfl, fun hw => (hw 0 _ rfl rfl).2⟩

end Query
