import HyuIte4065.Query.DisjointSet

/-!
# How the predicates group the bindings

The disjoint set keeps one tree for each group of connected bindings. What `addScan`,
`unionTwoJoinTrees` and a turn of the loop do to the groups and to their trees. A predicate whose
two sides name one binding that was not seen before takes the branch for two new bindings: its
only tree is moved away twice, and a null pointer stays in the tree of its group for good.
-/
namespace Query

open Forest Loops
open Function (update)

section
variable (relations : List Relation) (query : QueryInfo) (named : SelectInfo → Prop)

/-- What the loop builds out of scans for some columns: the sides of a predicate are among the
bindings of the inputs, or an input that was moved away is missing. -/
inductive Grafted : OperatorPtr → Prop
  | leaf {info relation} (side : named info) (hrel : relations[info.relId]? = some relation) :
      Grafted (.leaf query.filters relation info.binding)
  | join {left right pInfo} (left_grafted : Grafted left) (right_grafted : Grafted right)
      (left_binding : pInfo.left.binding ∈ left.leaves) (right_binding : pInfo.right.binding ∈ right.leaves) :
      Grafted (.join left right pInfo)
  | torn {input pInfo} (input_grafted : Grafted input) : Grafted (.join input .null pInfo)
  | selfJoin {input pInfo} (input_grafted : Grafted input) (left_binding : pInfo.left.binding ∈ input.leaves)
      (right_binding : pInfo.right.binding ∈ input.leaves) : Grafted (.selfJoin input pInfo)

/-- The tree of the group whose root is `root`. -/
structure Covers (find : Nat → Option Nat) (done : List PredicateInfo) (alone : Nat → Prop) (root : Nat)
    (tree : OperatorPtr) : Prop where
  nodup : tree.leaves.Nodup
  leaves : ∀ b, b ∈ tree.leaves ↔ find b = some root
  complete : tree.Complete ↔ ∀ b, alone b → find b ≠ some root
  grafted : Grafted relations query named tree
  predicates : ∀ p, p ∈ tree.predicates ↔ p ∈ done ∧ find p.left.binding = some root

/-- `find` is the root of a binding; `alone` are the bindings that left a null pointer behind. -/
structure Grouped (disjointSet : DisjointSet) (find : Nat → Option Nat) (done : List PredicateInfo)
    (alone : Nat → Prop) : Prop where
  unseen : ∀ b, find b = none → disjointSet.trees b = none
  rooted : ∀ b r, find b = some r → Root disjointSet.parents b r
  tree : ∀ b r, find b = some r →
    ∃ tree, disjointSet.trees r = some tree ∧ Covers relations query named find done alone r tree
  bare : ∀ b r, find b = some r → b ≠ r → disjointSet.trees b = some .null
  alone : ∀ b, alone b → find b ≠ none
  linked : ∀ p ∈ done, find p.left.binding ≠ none

end

variable {relations : List Relation} {query : QueryInfo} {named : SelectInfo → Prop}
  {disjointSet ds ds' : DisjointSet} {find : Nat → Option Nat} {done : List PredicateInfo}
  {alone alone' : Nat → Prop} {info : SelectInfo} {pInfo : PredicateInfo} {a b l r s id : Nat}
  {tree opl opr : OperatorPtr}

theorem Covers.congr {find' : Nat → Option Nat} {done' : List PredicateInfo}
    (h : Covers relations query named find done alone r tree) (hsame : ∀ b, find' b = some r ↔ find b = some r)
    (hdone : ∀ p, find p.left.binding = some r → (p ∈ done' ↔ p ∈ done)) :
    Covers relations query named find' done' alone r tree where
  nodup := h.nodup
  leaves b := (h.leaves b).trans (hsame b).symm
  complete := h.complete.trans (forall_congr' fun b => by rw [Ne, Ne, hsame b])
  grafted := h.grafted
  predicates p := by
    rw [h.predicates, hsame]
    exact and_congr_left fun hp => (hdone p hp).symm

/-- The next predicate belongs to another group. -/
theorem mem_done_of_ne (hl : find pInfo.left.binding = some r) (hne : s ≠ r) (p : PredicateInfo)
    (hp : find p.left.binding = some s) : p ∈ done ++ [pInfo] ↔ p ∈ done := by
  rw [List.mem_append, List.mem_singleton, or_iff_left]
  rintro rfl
  rw [hl] at hp
  exact hne (Option.some.inj hp).symm

theorem grouped_empty : Grouped relations query named DisjointSet.empty (fun _ => none) [] fun _ => False :=
  ⟨fun _ _ => rfl, nofun, nofun, nofun, nofun, nofun⟩

theorem Grouped.used (h : Grouped relations query named disjointSet find done alone) (b : Nat) :
    (disjointSet b).isSome = (find b).isSome := by
  cases hb : find b with
  | none =>
    rw [← DisjointSet.isSome_trees, h.unseen b hb]
    rfl
  | some r =>
    rw [← DisjointSet.isSome_parents, (h.rooted b r hb).isSome]
    rfl

theorem Grouped.find_of_root (h : Grouped relations query named disjointSet find done alone)
    (hr : Root disjointSet.parents b r) :
    find b = some r := by
  have hsome := hr.isSome
  rw [DisjointSet.isSome_parents, h.used] at hsome
  obtain ⟨s, hs⟩ := Option.isSome_iff_exists.mp hsome
  rw [hs, hr.unique (h.rooted b s hs)]

theorem Grouped.find_root (h : Grouped relations query named disjointSet find done alone)
    (hr : find b = some r) : find r = some r :=
  h.find_of_root (.here (h.rooted b r hr).isRoot)

/-- A binding that is not in the map is the root of none. -/
theorem Grouped.fresh (h : Grouped relations query named disjointSet find done alone)
    (hb : find b = none) (hr : find a = some r) :
    r ≠ b := by
  rintro rfl
  rw [h.find_root hr] at hb
  cases hb

theorem Grouped.getRoot (h : Grouped relations query named disjointSet find done alone) (hr : find b = some r) :
    ∃ ds', Returns (getRootOfJoinTree · disjointSet b) (r, ds') ∧
        Grouped relations query named ds' find done alone := by
  obtain ⟨ds', hret, htrees, hroots⟩ := getRootOfJoinTree_returns (h.rooted b r hr)
  refine ⟨ds', hret, ?_, fun c s hc => hroots c s (h.rooted c s hc), ?_, ?_, h.alone, h.linked⟩ <;> rw [htrees]
  · exact h.unseen
  · exact h.tree
  · exact h.bare

/-! ### A new binding -/

theorem find_insert (hb : find b = none) (hs : s ≠ b) : update find b (some b) a = some s ↔ find a = some s := by
  by_cases hab : a = b
  · rw [hab, Function.update_self, hb]
    exact iff_of_false (fun he => hs (Option.some.inj he).symm) nofun
  · rw [Function.update_of_ne hab]

theorem find_insert_ne_none (ha : find a ≠ none) : update find b (some b) a ≠ none := by
  by_cases hab : a = b
  · rw [hab, Function.update_self]
    exact Option.some_ne_none b
  · rwa [Function.update_of_ne hab]

theorem Grouped.find_insert_self (h : Grouped relations query named disjointSet find done alone)
    (hb : find b = none) : update find b (some b) a = some b ↔ a = b := by
  by_cases hab : a = b
  · rw [hab, Function.update_self]
    exact iff_of_true rfl rfl
  · rw [Function.update_of_ne hab]
    exact iff_of_false (fun ha => h.fresh hb ha rfl) hab

/-- The tree of the new group. -/
theorem Grouped.covers_insert (h : Grouped relations query named disjointSet find done alone) (hb : find b = none)
    (hleaves : tree.leaves = [b]) (hcomplete : tree.Complete) (hgrafted : Grafted relations query named tree)
    (hpredicates : tree.predicates = []) :
    Covers relations query named (update find b (some b)) done alone b tree := by
  refine ⟨by rw [hleaves]; exact List.nodup_singleton b, fun c => ?_, ?_, hgrafted, fun p => ?_⟩
  · rw [hleaves, List.mem_singleton, h.find_insert_self hb]
  · refine iff_of_true hcomplete fun c hc hcb => ?_
    rw [(h.find_insert_self hb).mp hcb] at hc
    exact h.alone b hc hb
  · rw [hpredicates, h.find_insert_self hb]
    refine iff_of_false List.not_mem_nil fun hp => h.linked p hp.1 ?_
    rw [hp.2, hb]

theorem Grouped.insert (h : Grouped relations query named disjointSet find done alone) (hb : find b = none)
    (hparents : ds'.parents = update disjointSet.parents b (some b))
    (htrees : ds'.trees = update disjointSet.trees b (some tree))
    (hcovers : Covers relations query named (update find b (some b)) done alone b tree) :
    Grouped relations query named ds' (update find b (some b)) done alone := by
  have hparent : disjointSet.parents b = none := by
    rw [← Option.isNone_iff_eq_none, ← Option.not_isSome, DisjointSet.isSome_parents, h.used, hb]
    rfl
  refine ⟨fun c hc => ?_, fun c s hc => ?_, fun c s hc => ?_, fun c s hc hcs => ?_,
    fun c hc => find_insert_ne_none (h.alone c hc), fun p hp => find_insert_ne_none (h.linked p hp)⟩
  · have hcb : c ≠ b := by
      rintro rfl
      rw [Function.update_self] at hc
      cases hc
    rw [Function.update_of_ne hcb] at hc
    rw [htrees, Function.update_of_ne hcb, h.unseen c hc]
  · rw [hparents]
    by_cases hsb : s = b
    · rw [hsb] at hc ⊢
      rw [(h.find_insert_self hb).mp hc]
      exact .here (Function.update_self _ _ _)
    · exact (h.rooted c s ((find_insert hb hsb).mp hc)).add hparent
  · rw [htrees]
    by_cases hsb : s = b
    · rw [hsb]
      exact ⟨tree, Function.update_self _ _ _, hcovers⟩
    · obtain ⟨old, hold, hcovers'⟩ := h.tree c s ((find_insert hb hsb).mp hc)
      exact ⟨old, by rw [Function.update_of_ne hsb, hold],
        hcovers'.congr (fun _ => find_insert hb hsb) fun _ _ => Iff.rfl⟩
  · have hsb : s ≠ b := by
      rintro rfl
      exact hcs ((h.find_insert_self hb).mp hc)
    have hfind := (find_insert hb hsb).mp hc
    have hcb : c ≠ b := by
      rintro rfl
      rw [hb] at hfind
      cases hfind
    rw [htrees, Function.update_of_ne hcb, h.bare c s hfind hcs]

theorem Grouped.addScan (h : Grouped relations query named disjointSet find done alone) (hside : named info)
    (hrel : info.relId < relations.length) (hnew : find info.binding = none) :
    ∃ ds', Query.addScan relations disjointSet info query = some ds' ∧
      Grouped relations query named ds' (update find info.binding (some info.binding)) done alone := by
  have hget := List.getElem?_eq_getElem hrel
  have hcovers := h.covers_insert hnew leaves_leaf complete_leaf (.leaf hside hget) predicates_leaf
  exact ⟨_, by rw [addScan_eq, hget]; rfl,
    h.insert hnew DisjointSet.parents_set DisjointSet.trees_set hcovers⟩

/-- A second scan of the same binding takes the place of the first. -/
theorem addScan_again {right : SelectInfo} (hb : right.binding = info.binding)
    (hs : addScan relations disjointSet info query = some ds') :
    addScan relations ds' right query = addScan relations disjointSet right query := by
  rw [addScan_eq] at hs
  obtain ⟨relation, -, rfl⟩ := Option.map_eq_some_iff.mp hs
  simp only [addScan_eq, DisjointSet.set, hb, Function.update_idem]

/-- Another tree at the root of a group, with one more predicate. -/
theorem Grouped.replace (h : Grouped relations query named disjointSet find done alone)
    (hr : find pInfo.left.binding = some r) (hparents : ds'.parents = disjointSet.parents)
    (htrees : ds'.trees = update disjointSet.trees r (some tree))
    (hcovers : Covers relations query named find (done ++ [pInfo]) alone' r tree)
    (halone : ∀ c, find c ≠ some r → (alone' c ↔ alone c)) :
    Grouped relations query named ds' find (done ++ [pInfo]) alone' := by
  have hfind := h.find_root hr
  have hne : ∀ c s, find c = some s → s ≠ r → find c ≠ some r :=
    fun c s hc hs he => hs (Option.some.inj (hc.symm.trans he))
  refine ⟨fun c hc => ?_, fun c s hc => ?_, fun c s hc => ?_, fun c s hc hcs => ?_, fun c hc hnone => ?_,
    fun p hp => ?_⟩
  · rw [htrees, Function.update_of_ne (h.fresh hc hr).symm, h.unseen c hc]
  · rw [hparents]
    exact h.rooted c s hc
  · rw [htrees]
    by_cases hsr : s = r
    · rw [hsr]
      exact ⟨tree, Function.update_self _ _ _, hcovers⟩
    · obtain ⟨op, hop, hold⟩ := h.tree c s hc
      obtain ⟨nodup, leaves, complete, grafted, predicates⟩ :=
        hold.congr (fun _ => Iff.rfl) (mem_done_of_ne hr hsr)
      refine ⟨op, by rw [Function.update_of_ne hsr, hop], nodup, leaves, ?_, grafted, predicates⟩
      rw [complete]
      refine forall_congr' fun x => ?_
      by_cases hx : find x = some s
      · rw [halone x (hne x s hx hsr)]
      · exact iff_of_true (fun _ => hx) fun _ => hx
  · have hcr : c ≠ r := by
      rintro rfl
      rw [hfind] at hc
      exact hcs (Option.some.inj hc)
    rw [htrees, Function.update_of_ne hcr, h.bare c s hc hcs]
  · refine h.alone c ((halone c ?_).mp hc) hnone
    rw [hnone]
    exact nofun
  · rcases List.mem_append.mp hp with hp | hp
    · exact h.linked p hp
    · rw [List.mem_singleton.mp hp, hr]
      exact nofun

/-- The groups of `l` and `r` become one, with root `r`. -/
def merge (find : Nat → Option Nat) (l r : Nat) : Nat → Option Nat :=
  fun b => if find b = some l then some r else find b

theorem merge_root : merge find l r b = some r ↔ find b = some l ∨ find b = some r := by
  rw [merge]
  by_cases hb : find b = some l <;> simp [hb]

theorem merge_eq (h : find b = some s) : merge find l r b = some (if s = l then r else s) := by
  rw [merge, h]
  by_cases hs : s = l <;> simp [hs]

theorem merge_of_ne (hl : s ≠ l) (hr : s ≠ r) : merge find l r b = some s ↔ find b = some s := by
  rw [merge]
  by_cases hb : find b = some l
  · simp [hb, hl.symm, hr.symm]
  · rw [if_neg hb]

theorem merge_ne (hne : l ≠ r) : merge find l r b ≠ some l := by
  rw [merge]
  by_cases hb : find b = some l
  · rw [if_pos hb]; exact fun h => hne (Option.some.inj h).symm
  · rwa [if_neg hb]

theorem merge_self (find : Nat → Option Nat) (r : Nat) : merge find r r = find := by
  funext b
  rw [merge]
  split
  · rename_i hb
    exact hb.symm
  · rfl

/-- Who is in the group of `s` after the merge was there before, or came from the group of `l`. -/
theorem merge_cases {c s : Nat} (hne : l ≠ r) (hc : merge find l r c = some s) :
    s ≠ l ∧ (find c = some l ∧ s = r ∨ find c = some s) := by
  refine ⟨fun hsl => merge_ne hne (hsl ▸ hc), ?_⟩
  by_cases hcl : find c = some l
  · rw [merge, if_pos hcl] at hc
    exact .inl ⟨hcl, (Option.some.inj hc).symm⟩
  · rw [merge, if_neg hcl] at hc
    exact .inr hc

theorem find_of_merge {c : Nat} (hc : merge find l r c = none) : find c = none := by
  rw [merge] at hc
  split at hc
  · cases hc
  · exact hc

/-- The two trees become the inputs of a join at the second root. -/
theorem Covers.join (hcl : Covers relations query named find done alone l opl)
    (hcr : Covers relations query named find done alone r opr) (hne : l ≠ r)
    (hl : find pInfo.left.binding = some l) (hr : find pInfo.right.binding = some r) :
    Covers relations query named (merge find l r) (done ++ [pInfo]) alone r (.join opl opr pInfo) := by
  refine ⟨?_, fun x => ?_, ?_, ?_, fun p => ?_⟩
  · refine List.nodup_append.mpr ⟨hcl.nodup, hcr.nodup, ?_⟩
    rintro x hx y hy rfl
    rw [hcl.leaves] at hx
    rw [hcr.leaves, hx] at hy
    exact hne (Option.some.inj hy)
  · rw [OperatorPtr.leaves, List.mem_append, hcl.leaves, hcr.leaves, merge_root]
  · rw [OperatorPtr.Complete, hcl.complete, hcr.complete, ← forall_and]
    refine forall_congr' fun x => ?_
    rw [Ne, Ne, Ne, merge_root, not_or]
    exact forall_and.symm
  · exact .join hcl.grafted hcr.grafted ((hcl.leaves _).mpr hl) ((hcr.leaves _).mpr hr)
  · rw [merge_root, OperatorPtr.predicates, List.mem_cons, List.mem_append, hcl.predicates, hcr.predicates,
      List.mem_append, List.mem_singleton]
    by_cases hp : p = pInfo
    · subst hp
      exact iff_of_true (.inl rfl) ⟨.inr rfl, .inl hl⟩
    · simp only [hp, false_or, or_false, and_or_left]

theorem Grouped.merged (h : Grouped relations query named disjointSet find done alone)
    (hl : find pInfo.left.binding = some l) (hr : find pInfo.right.binding = some r) (hne : l ≠ r)
    (hcl : Covers relations query named find done alone l opl)
    (hcr : Covers relations query named find done alone r opr)
    (hparents : ds'.parents = update disjointSet.parents l (some r))
    (htrees : ds'.trees = update (update disjointSet.trees l (some .null)) r (some (.join opl opr pInfo))) :
    Grouped relations query named ds' (merge find l r) (done ++ [pInfo]) alone := by
  refine ⟨fun c hc => ?_, fun c s hc => ?_, fun c s hc => ?_, fun c s hc hcs => ?_, fun c hc hn =>
    h.alone c hc (find_of_merge hn), fun p hp hn => ?_⟩
  · have hfind := find_of_merge hc
    rw [htrees, Function.update_of_ne (h.fresh hfind hr).symm, Function.update_of_ne (h.fresh hfind hl).symm,
      h.unseen c hfind]
  · rw [hparents]
    cases hfc : find c with
    | none =>
      rw [merge, hfc, if_neg (Option.some_ne_none l).symm] at hc
      cases hc
    | some s₀ =>
      rw [merge_eq hfc] at hc
      rw [← Option.some.inj hc]
      exact (h.rooted c s₀ hfc).link (h.rooted _ l hl).isRoot (h.rooted _ r hr).isRoot hne
  · obtain ⟨hsl, hfrom⟩ := merge_cases hne hc
    rw [htrees]
    by_cases hsr : s = r
    · subst hsr
      exact ⟨_, Function.update_self _ _ _, hcl.join hcr hne hl hr⟩
    · have hc' : find c = some s := hfrom.resolve_left fun he => hsr he.2
      obtain ⟨op, hop, hcovers⟩ := h.tree c s hc'
      exact ⟨op, by rw [Function.update_of_ne hsr, Function.update_of_ne hsl, hop],
        hcovers.congr (fun x => by rw [merge_of_ne hsl hsr]) (mem_done_of_ne hl hsl)⟩
  · obtain ⟨-, hfrom⟩ := merge_cases hne hc
    have hcr : c ≠ r := by
      rintro rfl
      rcases hfrom with ⟨-, he⟩ | hc'
      · exact hcs he.symm
      · rw [h.find_root hr] at hc'
        exact hcs (Option.some.inj hc')
    rw [htrees, Function.update_of_ne hcr]
    by_cases hcl : c = l
    · rw [hcl, Function.update_self]
    · rw [Function.update_of_ne hcl]
      rcases hfrom with ⟨hc', -⟩ | hc'
      · exact h.bare c l hc' hcl
      · exact h.bare c s hc' hcs
  · have hnone := find_of_merge hn
    rcases List.mem_append.mp hp with hp | hp
    · exact h.linked p hp hnone
    · rw [List.mem_singleton.mp hp, hl] at hnone
      cases hnone

theorem Grouped.unionTwoJoinTrees (h : Grouped relations query named disjointSet find done alone)
    (hl : find pInfo.left.binding = some l) (hr : find pInfo.right.binding = some r) (hne : l ≠ r) :
    ∃ ds', Returns (Query.unionTwoJoinTrees · disjointSet pInfo pInfo.left.binding pInfo.right.binding) (r, ds') ∧
      Grouped relations query named ds' (merge find l r) (done ++ [pInfo]) alone := by
  obtain ⟨ds₁, hretl, h₁⟩ := h.getRoot hl
  obtain ⟨ds₂, hretr, h₂⟩ := h₁.getRoot hr
  obtain ⟨opl, htreel, hcl⟩ := h₂.tree _ l hl
  obtain ⟨opr, htreer, hcr⟩ := h₂.tree _ r hr
  obtain ⟨ds₃, hmove, hp₃, ht₃⟩ := DisjointSet.moveTree_spec htreel
  have htreer₃ : ds₃.trees r = some opr := by rw [ht₃, Function.update_of_ne hne.symm, htreer]
  obtain ⟨ds₄, hmove', hp₄, ht₄⟩ := DisjointSet.moveTree_spec htreer₃
  have hparents₄ : ds₄.parents = ds₂.parents := hp₄.trans hp₃
  have hrootl : ds₄.parents l = some l := by rw [hparents₄, (h₂.rooted _ l hl).isRoot]
  obtain ⟨ds₅, hset, hp₅, ht₅⟩ := DisjointSet.setRootId_spec r hrootl
  have hrootr : ds₅.parents r = some r := by
    rw [hp₅, Function.update_of_ne hne.symm, hparents₄, (h₂.rooted _ r hr).isRoot]
  obtain ⟨ds₆, hset', hp₆, ht₆⟩ := DisjointSet.setTree_spec (.join opl opr pInfo) hrootr
  have hparents : ds₆.parents = update ds₂.parents l (some r) := by rw [hp₆, hp₅, hparents₄]
  have htrees : ds₆.trees =
      update (update ds₂.trees l (some .null)) r (some (.join opl opr pInfo)) := by
    rw [ht₆, ht₅, ht₄, ht₃, Function.update_idem]
  refine ⟨ds₆, hretl.bind (hretr.bind (.const ?_)), h₂.merged hl hr hne hcl hcr hparents htrees⟩
  simp only [hmove, hmove', hset, hset', bind_some]
  rfl

/-- One more predicate at the top of a tree. -/
theorem Covers.mem_cons (h : Covers relations query named find done alone r tree)
    (hl : find pInfo.left.binding = some r) (p : PredicateInfo) :
    p ∈ pInfo :: tree.predicates ↔ p ∈ done ++ [pInfo] ∧ find p.left.binding = some r := by
  rw [List.mem_cons, h.predicates, List.mem_append, List.mem_singleton]
  by_cases hp : p = pInfo
  · subst hp
    exact iff_of_true (.inl rfl) ⟨.inr rfl, hl⟩
  · simp only [hp, false_or, or_false]

/-- A tree that is moved twice: the second pointer is null. -/
theorem Grouped.unionWithItself (h : Grouped relations query named disjointSet find done alone)
    (hl : find pInfo.left.binding = some r) (hsame : pInfo.left.binding = pInfo.right.binding) :
    ∃ ds', Returns (Query.unionTwoJoinTrees · disjointSet pInfo pInfo.left.binding pInfo.right.binding) (r, ds') ∧
      Grouped relations query named ds' find (done ++ [pInfo]) fun c => alone c ∨ c = pInfo.right.binding := by
  have hb := hsame ▸ hl
  obtain ⟨ds₁, hretl, h₁⟩ := h.getRoot hl
  obtain ⟨ds₂, hretr, h₂⟩ := h₁.getRoot hb
  obtain ⟨op, htree, hcovers⟩ := h₂.tree _ r hb
  obtain ⟨ds₃, hmove, hp₃, ht₃⟩ := DisjointSet.moveTree_spec htree
  have hnull : ds₃.trees r = some .null := by rw [ht₃, Function.update_self]
  obtain ⟨ds₄, hmove', hp₄, ht₄⟩ := DisjointSet.moveTree_spec hnull
  have hroot : ds₂.parents r = some r := (h₂.rooted _ r hb).isRoot
  have hroot₄ : ds₄.parents r = some r := by rw [hp₄, hp₃, hroot]
  obtain ⟨ds₅, hset, hp₅, ht₅⟩ := DisjointSet.setRootId_spec r hroot₄
  have hparents₅ : ds₅.parents = ds₂.parents := by
    rw [hp₅, hp₄, hp₃, Function.update_eq_self_iff, hroot]
  have hroot₅ : ds₅.parents r = some r := by rw [hparents₅, hroot]
  obtain ⟨ds₆, hset', hp₆, ht₆⟩ := DisjointSet.setTree_spec (.join op .null pInfo) hroot₅
  have htrees : ds₆.trees = update ds₂.trees r (some (.join op .null pInfo)) := by
    rw [ht₆, ht₅, ht₄, ht₃, Function.update_idem, Function.update_idem]
  have hnew : Covers relations query named find (done ++ [pInfo]) (fun c => alone c ∨ c = pInfo.right.binding) r
      (.join op .null pInfo) := by
    refine ⟨?_, fun x => ?_, iff_of_false (fun hc => hc.2) fun hall => hall _ (.inr rfl) hb, .torn hcovers.grafted,
      fun p => ?_⟩
    · rw [OperatorPtr.leaves, OperatorPtr.leaves, List.append_nil]
      exact hcovers.nodup
    · rw [OperatorPtr.leaves, OperatorPtr.leaves, List.append_nil, hcovers.leaves]
    · rw [OperatorPtr.predicates, OperatorPtr.predicates, List.append_nil, hcovers.mem_cons hl]
  refine ⟨ds₆, hretl.bind (hretr.bind (.const ?_)),
    h₂.replace hl (hp₆.trans hparents₅) htrees hnew fun c hc => or_iff_left ?_⟩
  · simp only [hmove, hmove', hset, hset', bind_some]
    rfl
  · rintro rfl
    exact hc hb

/-- A predicate within a group: its tree becomes the input of a self join. -/
theorem Grouped.moveToSelfJoin (h : Grouped relations query named disjointSet find done alone)
    (hl : find pInfo.left.binding = some r) (hr : find pInfo.right.binding = some r) :
    ∃ op ds₁ ds₂, disjointSet.moveTree r = some (op, ds₁) ∧
      ds₁.setTree r (.selfJoin op pInfo) = some ds₂ ∧
      Grouped relations query named ds₂ find (done ++ [pInfo]) alone := by
  obtain ⟨op, htree, hcovers⟩ := h.tree _ r hl
  obtain ⟨ds₁, hmove, hp₁, ht₁⟩ := DisjointSet.moveTree_spec htree
  have hroot : ds₁.parents r = some r := by rw [hp₁, (h.rooted _ r hl).isRoot]
  obtain ⟨ds₂, hset, hp₂, ht₂⟩ := DisjointSet.setTree_spec (.selfJoin op pInfo) hroot
  have htrees : ds₂.trees = update disjointSet.trees r (some (.selfJoin op pInfo)) := by
    rw [ht₂, ht₁, Function.update_idem]
  exact ⟨op, ds₁, ds₂, hmove, hset, h.replace hl (hp₂.trans hp₁) htrees
    ⟨hcovers.nodup, hcovers.leaves, hcovers.complete,
      .selfJoin hcovers.grafted ((hcovers.leaves _).mpr hl) ((hcovers.leaves _).mpr hr), hcovers.mem_cons hl⟩
    fun _ _ => Iff.rfl⟩

/-- A binding that is not in the map becomes a group of its own. -/
def addNew (find : Nat → Option Nat) (b : Nat) : Nat → Option Nat :=
  if find b = none then update find b (some b) else find

theorem addNew_none (hb : find b = none) : addNew find b = update find b (some b) := if_pos hb

theorem addNew_some (hb : find b = some r) : addNew find b = find := by
  rw [addNew, hb]
  rfl

/-- The groups after a turn of the loop. -/
def addBoth (find : Nat → Option Nat) (pInfo : PredicateInfo) : Nat → Option Nat :=
  addNew (addNew find pInfo.left.binding) pInfo.right.binding

variable (relations query named) in
/-- A turn of the loop that merges the groups of the two sides. -/
def Merges (disjointSet : DisjointSet) (find : Nat → Option Nat) (done : List PredicateInfo) (alone : Nat → Prop)
    (pInfo : PredicateInfo) : Prop :=
  ∃ l r ds', addBoth find pInfo pInfo.left.binding = some l ∧
    addBoth find pInfo pInfo.right.binding = some r ∧
    Returns (Query.addPredicate · relations query disjointSet pInfo) (r, ds') ∧
    Grouped relations query named ds' (merge (addBoth find pInfo) l r) (done ++ [pInfo]) alone

theorem Grouped.addScanLeft (h : Grouped relations query named disjointSet find done alone)
    (hside : named pInfo.left) (hrel : pInfo.left.relId < relations.length)
    (hl : find pInfo.left.binding = none) (hr : find pInfo.right.binding = some r) :
    Merges relations query named disjointSet find done alone pInfo := by
  have hne : pInfo.left.binding ≠ pInfo.right.binding := fun he => by rw [he, hr] at hl; cases hl
  have hanalyze : ∀ fuel, analyzeInputOfJoin fuel disjointSet pInfo.left pInfo.right =
      some (.addScanLeft, disjointSet) := fun fuel => by simp [analyzeInputOfJoin, h.used, hl, hr]
  obtain ⟨ds₁, hadd, h₁⟩ := h.addScan hside hrel hl
  have hr₁ : update find pInfo.left.binding (some pInfo.left.binding) pInfo.right.binding = some r := by
    rw [Function.update_of_ne hne.symm, hr]
  have hboth : addBoth find pInfo = update find pInfo.left.binding (some pInfo.left.binding) := by
    rw [addBoth, addNew_none hl, addNew_some hr₁]
  obtain ⟨ds₂, hret, h₂⟩ := h₁.unionTwoJoinTrees (Function.update_self _ _ _) hr₁ (h.fresh hl hr).symm
  rw [Merges, hboth]
  refine ⟨_, r, ds₂, Function.update_self _ _ _, hr₁, ?_, h₂⟩
  simp only [Query.addPredicate, hanalyze, bind_some, hadd]
  exact hret

theorem Grouped.addScanRight (h : Grouped relations query named disjointSet find done alone)
    (hside : named pInfo.right) (hrel : pInfo.right.relId < relations.length)
    (hl : find pInfo.left.binding = some l) (hr : find pInfo.right.binding = none) :
    Merges relations query named disjointSet find done alone pInfo := by
  have hne : pInfo.left.binding ≠ pInfo.right.binding := fun he => by rw [← he, hl] at hr; cases hr
  have hanalyze : ∀ fuel, analyzeInputOfJoin fuel disjointSet pInfo.left pInfo.right =
      some (.addScanRight, disjointSet) := fun fuel => by simp [analyzeInputOfJoin, h.used, hl, hr]
  obtain ⟨ds₁, hadd, h₁⟩ := h.addScan hside hrel hr
  have hl₁ : update find pInfo.right.binding (some pInfo.right.binding) pInfo.left.binding = some l := by
    rw [Function.update_of_ne hne, hl]
  have hboth : addBoth find pInfo = update find pInfo.right.binding (some pInfo.right.binding) := by
    rw [addBoth, addNew_some hl, addNew_none hr]
  obtain ⟨ds₂, hret, h₂⟩ := h₁.unionTwoJoinTrees hl₁ (Function.update_self _ _ _) (h.fresh hr hl)
  rw [Merges, hboth]
  refine ⟨l, _, ds₂, hl₁, Function.update_self _ _ _, ?_, h₂⟩
  simp only [Query.addPredicate, hanalyze, bind_some, hadd]
  exact hret

theorem Grouped.addScanBoth (h : Grouped relations query named disjointSet find done alone)
    (hside : named pInfo.left ∧ named pInfo.right)
    (hrel : pInfo.left.relId < relations.length ∧ pInfo.right.relId < relations.length)
    (hl : find pInfo.left.binding = none) (hr : find pInfo.right.binding = none)
    (hne : pInfo.left.binding ≠ pInfo.right.binding) :
    Merges relations query named disjointSet find done alone pInfo := by
  have hanalyze : ∀ fuel, analyzeInputOfJoin fuel disjointSet pInfo.left pInfo.right =
      some (.addScanBoth, disjointSet) := fun fuel => by simp [analyzeInputOfJoin, h.used, hl, hr]
  obtain ⟨ds₁, hadd₁, h₁⟩ := h.addScan hside.1 hrel.1 hl
  obtain ⟨ds₂, hadd₂, h₂⟩ := h₁.addScan hside.2 hrel.2 (by rw [Function.update_of_ne (Ne.symm hne), hr])
  have hboth : addBoth find pInfo = update (update find pInfo.left.binding (some pInfo.left.binding))
      pInfo.right.binding (some pInfo.right.binding) := by
    rw [addBoth, addNew_none hl, addNew_none (by rw [Function.update_of_ne (Ne.symm hne), hr])]
  have hl₂ : addBoth find pInfo pInfo.left.binding = some pInfo.left.binding := by
    rw [hboth, Function.update_of_ne hne, Function.update_self]
  have hr₂ : addBoth find pInfo pInfo.right.binding = some pInfo.right.binding := by
    rw [hboth, Function.update_self]
  rw [← hboth] at h₂
  obtain ⟨ds₃, hret, h₃⟩ := h₂.unionTwoJoinTrees hl₂ hr₂ hne
  refine ⟨_, _, ds₃, hl₂, hr₂, ?_, h₃⟩
  simp only [Query.addPredicate, hanalyze, bind_some, hadd₁, hadd₂]
  exact hret

/-- Both sides are the same new binding. -/
theorem Grouped.addScanSame (h : Grouped relations query named disjointSet find done alone)
    (hside : named pInfo.right)
    (hrel : pInfo.left.relId < relations.length ∧ pInfo.right.relId < relations.length)
    (hr : find pInfo.right.binding = none) (hsame : pInfo.left.binding = pInfo.right.binding) :
    Merges relations query named disjointSet find done (fun c => alone c ∨ c = pInfo.right.binding) pInfo := by
  have hanalyze : ∀ fuel, analyzeInputOfJoin fuel disjointSet pInfo.left pInfo.right =
      some (.addScanBoth, disjointSet) := fun fuel => by simp [analyzeInputOfJoin, h.used, hsame, hr]
  obtain ⟨ds₁, hadd₁⟩ : ∃ ds₁, Query.addScan relations disjointSet pInfo.left query = some ds₁ :=
    ⟨_, by rw [addScan_eq, List.getElem?_eq_getElem hrel.1]; rfl⟩
  obtain ⟨ds₂, hadd₂, h₂⟩ := h.addScan hside hrel.2 hr
  have hagain := (addScan_again hsame.symm hadd₁).trans hadd₂
  have hboth : addBoth find pInfo = update find pInfo.right.binding (some pInfo.right.binding) := by
    rw [addBoth, hsame, addNew_none hr, addNew_some (Function.update_self _ _ _)]
  have hl₂ : update find pInfo.right.binding (some pInfo.right.binding) pInfo.left.binding =
      some pInfo.right.binding := by rw [hsame, Function.update_self]
  obtain ⟨ds₃, hret, h₃⟩ := h₂.unionWithItself hl₂ hsame
  rw [Merges, hboth]
  refine ⟨_, _, ds₃, hl₂, Function.update_self _ _ _, ?_, ?_⟩
  · simp only [Query.addPredicate, hanalyze, bind_some, hadd₁, hagain]
    exact hret
  · rwa [merge_self]

/-- The two sides are in groups already, in one or in two. -/
theorem Grouped.connect (h : Grouped relations query named disjointSet find done alone)
    (hl : find pInfo.left.binding = some l) (hr : find pInfo.right.binding = some r) :
    Merges relations query named disjointSet find done alone pInfo := by
  have hboth : addBoth find pInfo = find := by rw [addBoth, addNew_some hl, addNew_some hr]
  obtain ⟨ds₁, hret₁, h₁⟩ := h.getRoot hl
  obtain ⟨ds₂, hret₂, h₂⟩ := h₁.getRoot hr
  have hanalyze : Returns (analyzeInputOfJoin · disjointSet pInfo.left pInfo.right)
      (if l = r then .alreadyConnected else .needConnect, ds₂) := by
    simp only [analyzeInputOfJoin, h.used, hl, hr, Option.isSome_some, Bool.xor_self, Bool.and_self,
      Bool.not_true, Bool.false_eq_true, if_false]
    exact hret₁.bind (hret₂.bind (.const rfl))
  rw [Merges, hboth]
  by_cases hlr : l = r
  · subst hlr
    rw [if_pos rfl] at hanalyze
    obtain ⟨ds₃, hret₃, h₃⟩ := h₂.getRoot hl
    obtain ⟨op, ds₄, ds₅, hmove, hset, h₅⟩ := h₃.moveToSelfJoin hl hr
    refine ⟨l, l, ds₅, hl, hr, hanalyze.bind (hret₃.bind (.const ?_)), by rwa [merge_self]⟩
    simp only [hmove, hset, bind_some]
    rfl
  · rw [if_neg hlr] at hanalyze
    obtain ⟨ds₃, hret, h₃⟩ := h₂.unionTwoJoinTrees hl hr hlr
    exact ⟨l, r, ds₃, hl, hr, hanalyze.bind hret, h₃⟩

/-- One turn of the loop, for all five results of `analyzeInputOfJoin`. -/
theorem Grouped.addPredicate (h : Grouped relations query named disjointSet find done alone)
    (hside : named pInfo.left ∧ named pInfo.right)
    (hrelLeft : find pInfo.left.binding = none → pInfo.left.relId < relations.length)
    (hrelRight : find pInfo.right.binding = none → pInfo.right.relId < relations.length) :
    Merges relations query named disjointSet find done (fun c => alone c ∨
      (pInfo.left.binding = c ∧ pInfo.right.binding = c ∧ find c = none)) pInfo := by
  have hstays : (pInfo.left.binding = pInfo.right.binding → find pInfo.left.binding ≠ none) →
      (fun c => alone c ∨ (pInfo.left.binding = c ∧ pInfo.right.binding = c ∧ find c = none)) = alone := by
    intro hself
    funext c
    refine propext (or_iff_left ?_)
    rintro ⟨hl, hr, hc⟩
    exact hself (hl.trans hr.symm) (hl ▸ hc)
  cases hl : find pInfo.left.binding with
  | none =>
    cases hr : find pInfo.right.binding with
    | none =>
      by_cases hsame : pInfo.left.binding = pInfo.right.binding
      · have hnew : (fun c => alone c ∨ (pInfo.left.binding = c ∧ pInfo.right.binding = c ∧ find c = none)) =
            fun c => alone c ∨ c = pInfo.right.binding := by
          funext c
          refine propext (or_congr_right ⟨fun hc => hc.2.1.symm, ?_⟩)
          rintro rfl
          exact ⟨hsame, rfl, hr⟩
        rw [hnew]
        exact h.addScanSame hside.2 ⟨hrelLeft hl, hrelRight hr⟩ hr hsame
      · rw [hstays fun he => absurd he hsame]
        exact h.addScanBoth hside ⟨hrelLeft hl, hrelRight hr⟩ hl hr hsame
    | some r =>
      rw [hstays fun he => absurd (he ▸ hl) (by rw [hr]; exact Option.some_ne_none r)]
      exact h.addScanLeft hside.1 (hrelLeft hl) hl hr
  | some l =>
    rw [hstays fun _ => by rw [hl]; exact Option.some_ne_none l]
    cases hr : find pInfo.right.binding with
    | none => exact h.addScanRight hside.2 (hrelRight hr) hl hr
    | some r => exact h.connect hl hr

end Query
