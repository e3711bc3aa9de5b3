import HyuIte4065.Library.Total
import HyuIte4065.SortedList.View

/-!
# Calls one after another

What the three implementations of the list have in common when one call is made at a time: the
nodes, how a search ends, and what a call makes of the set. The keys may be any ints.
-/
namespace SortedList

open SortedChain Total

/-- The nodes, apart from their mutexes. -/
structure Nodes where
  allocated : Addr → Bool
  key : Addr → Int
  next : Addr → Option Addr

namespace Nodes

def listInit : Nodes where
  allocated a := a = head || a = tail
  key a := if a = head then intMin else intMax
  next a := if a = head then some tail else none

def malloc (n : Nodes) (node : Addr) (key : Int) : Nodes where
  allocated := Function.update n.allocated node true
  key := Function.update n.key node key
  next := Function.update n.next node none

/-- `a->next = b`, where `b` may be null. -/
def store (n : Nodes) (a : Addr) (b : Option Addr) : Nodes :=
  { n with next := Function.update n.next a b }

def free (n : Nodes) (a : Addr) : Nodes :=
  { n with allocated := Function.update n.allocated a false }

def Edge (n : Nodes) (a b : Addr) : Prop := n.next a = some b

/-- The order of the list. No search looks at the key of the head, which is below every int. -/
def rank (n : Nodes) (a : Addr) : Int := if a = head then intMin - 1 else n.key a

/-- The keys between the two sentinels are this set in strictly increasing order, and the
sentinels are in place. -/
def Shows (n : Nodes) (keys : Finset Int) : Prop :=
  ∃ l, (head :: l ++ [tail]).IsChain n.Edge ∧ (l.map n.key).Pairwise (· < ·) ∧ (l.map n.key).toFinset = keys ∧
    n.key head = intMin ∧ n.key tail = intMax ∧ n.next tail = none ∧
    ∀ a ∈ head :: l ++ [tail], n.allocated a = true

end Nodes

/-- An implementation with one thread that makes calls. A call is under way until it has a result,
which is then returned. -/
structure Machine (σ : Type) where
  init : σ
  nodes : σ → Nodes
  call : Op → σ → σ
  inner : σ → σ → Prop
  result : σ → Option Bool
  ret : σ → σ

/-- The calls return, whatever `malloc` does, what the set returns, and the list shows the set
before and after each of them. -/
def Machine.Behaves {σ : Type} (m : Machine σ) : List Op → Finset Int → σ → Prop
  | [], keys, s => (m.nodes s).Shows keys
  | op :: ops, keys, s => (m.nodes s).Shows keys ∧
    Ends m.inner (fun s' => m.result s' = some (intSet.apply op keys).1 ∧
      m.Behaves ops (intSet.apply op keys).2 (m.ret s')) (m.call op s)

/-- There is always an address left for `malloc`. -/
def Nodes.Bounded (n : Nodes) : Prop := ∃ bound, ∀ a, bound ≤ a → n.allocated a = false

/-- The list with the inner nodes `l`. -/
structure Holds (n : Nodes) (l : List Addr) : Prop where
  chain : Chain n.Edge n.rank tail head l
  ends : n.key head = intMin ∧ n.key tail = intMax
  last : n.next tail = none
  allocated : ∀ a ∈ head :: tail :: l, n.allocated a = true

/-- Where a search for a key ends. -/
structure Spot (n : Nodes) (l : List Addr) (key : Int) (prev curr : Addr) : Prop where
  mem : prev ∈ head :: l
  edge : n.next prev = some curr
  lt : n.rank prev < key
  le : key ≤ n.key curr

variable {n n' : Nodes} {l : List Addr} {key : Int} {a b node prev curr : Addr} {op : Op} {res : Bool}

theorem edge_unique (n : Nodes) : Relator.RightUnique n.Edge := fun _ _ _ hb hc =>
  Option.some.inj (hb.symm.trans hc)

theorem rank_head (n : Nodes) : n.rank head = intMin - 1 := if_pos rfl

theorem rank_of_ne (h : a ≠ head) : n.rank a = n.key a := if_neg h

theorem rank_congr (h : n'.key a = n.key a) : n'.rank a = n.rank a := by
  rw [Nodes.rank, Nodes.rank, h]

theorem tail_ne_head : tail ≠ head := by decide

theorem Holds.ne_head (h : Holds n l) (ha : a ∈ l) : a ≠ head := fun he =>
  h.chain.first_notMem (he ▸ ha)

theorem Holds.rank_mem (h : Holds n l) (ha : a ∈ l) : n.rank a = n.key a := rank_of_ne (h.ne_head ha)

theorem Holds.rank_tail (h : Holds n l) : n.rank tail = intMax := (rank_of_ne tail_ne_head).trans h.ends.2

theorem Holds.rank_next (h : Holds n l) (hp : prev ∈ head :: l) (edge : n.next prev = some curr) :
    n.rank curr = n.key curr := by
  rcases h.chain.next_mem (edge_unique n) hp edge with hc | rfl
  · exact h.rank_mem hc
  · exact rank_of_ne tail_ne_head

theorem Holds.keys_rank (h : Holds n l) : keys n.rank l = keys n.key l :=
  keys_congr fun _ hb => h.rank_mem hb

theorem Holds.notMem_of_top (h : Holds n l) (htop : key = intMax) : key ∉ keys n.key l := by
  rw [htop]
  intro hmem
  obtain ⟨a, ha, hkey⟩ := mem_keys.mp hmem
  have hlt := h.chain.lt_last a (List.mem_cons_of_mem head ha)
  rw [h.rank_mem ha, h.rank_tail, hkey] at hlt
  exact lt_irrefl _ hlt

/-- In the order of the list the head comes first, and its key is no greater than any other. -/
theorem Holds.key_le (h : Holds n l) (ha : a ∈ head :: l) (hb : b ∈ head :: l) (hlt : n.rank a < n.rank b) :
    n.key a ≤ n.key b := by
  have hbl : b ∈ l := by
    refine (List.mem_cons.mp hb).resolve_left ?_
    rintro rfl
    rcases List.mem_cons.mp ha with rfl | ha
    · exact lt_irrefl _ hlt
    · exact lt_asymm hlt (h.chain.lt a ha)
  rw [h.rank_mem hbl] at hlt
  rcases List.mem_cons.mp ha with rfl | ha
  · rw [rank_head] at hlt
    rw [h.ends.1]
    exact Int.le_of_sub_one_lt hlt
  · exact (h.rank_mem ha ▸ hlt).le

theorem Chain.isChain {E : Addr → Addr → Prop} {rank : Addr → Int} {last : Addr} (h : Chain E rank last a l) :
    (a :: l ++ [last]).IsChain E := by
  induction h with
  | last edge => exact .cons_cons edge (.singleton _)
  | cons edge _ _ ih => exact .cons_cons edge ih

theorem Chain.pairwise {E : Addr → Addr → Prop} {rank : Addr → Int} {last : Addr} (h : Chain E rank last a l) :
    (l.map rank).Pairwise (· < ·) := by
  induction h with
  | last => exact .nil
  | cons _ _ rest ih => exact .cons (List.forall_mem_map.mpr rest.lt) ih

theorem Holds.shows (h : Holds n l) : n.Shows (keys n.key l) := by
  have hmap : l.map n.key = l.map n.rank := List.map_congr_left fun a ha => (h.rank_mem ha).symm
  refine ⟨l, Chain.isChain h.chain, hmap ▸ Chain.pairwise h.chain, rfl, h.ends.1, h.ends.2, h.last, fun a ha => ?_⟩
  refine h.allocated a ?_
  simp only [List.cons_append, List.mem_cons, List.mem_append, List.not_mem_nil, or_false] at ha ⊢
  tauto

theorem Spot.curr_mem (w : Spot n l key prev curr) (h : Holds n l) (hlt : n.key curr < intMax) : curr ∈ l := by
  refine h.chain.next_mem_of_lt (edge_unique n) w.mem w.edge ?_
  rwa [h.rank_next w.mem w.edge, h.rank_tail]

theorem Spot.prev_ne_curr (w : Spot n l key prev curr) (h : Holds n l) : prev ≠ curr :=
  h.chain.next_ne (edge_unique n) w.mem w.edge

theorem Spot.key_curr_le (w : Spot n l key prev curr) (h : Holds n l) : n.key curr ≤ intMax := by
  have hle := h.chain.key_next_le (edge_unique n) w.mem w.edge
  rwa [h.rank_next w.mem w.edge, h.rank_tail] at hle

theorem Spot.mem_keys_iff (w : Spot n l key prev curr) (h : Holds n l) (hlt : key < intMax) :
    key ∈ keys n.key l ↔ n.key curr = key := by
  have hnext := h.rank_next w.mem w.edge
  rw [← h.keys_rank, ← hnext]
  exact h.chain.mem_keys_iff (edge_unique n) w.mem w.edge w.lt (hnext ▸ w.le) (h.rank_tail ▸ hlt)

/-- A node that is not in the list may be anything. -/
theorem Holds.congr (h : Holds n l) (hnext : ∀ a ∈ head :: tail :: l, n'.next a = n.next a)
    (hkey : ∀ a ∈ head :: tail :: l, n'.key a = n.key a)
    (halloc : ∀ a ∈ head :: tail :: l, n'.allocated a = n.allocated a) : Holds n' l := by
  have hsub : ∀ a ∈ head :: l, a ∈ head :: tail :: l := fun a ha =>
    List.mem_cons.mpr ((List.mem_cons.mp ha).imp_right (List.mem_cons_of_mem tail))
  have htail : tail ∈ head :: tail :: l := List.mem_cons_of_mem head List.mem_cons_self
  refine ⟨h.chain.congr (fun b hb c hc => (hnext b (hsub b hb)).trans hc)
    (fun b hb => rank_congr (hkey b (hsub b hb))) (rank_congr (hkey tail htail)), ?_,
    (hnext tail htail).trans h.last, fun a ha => (halloc a ha).trans (h.allocated a ha)⟩
  exact ⟨(hkey head List.mem_cons_self).trans h.ends.1, (hkey tail htail).trans h.ends.2⟩

theorem Holds.fresh (h : Holds n l) (hfresh : n.allocated node = false) : node ∉ head :: tail :: l := by
  intro hmem
  rw [h.allocated node hmem] at hfresh
  cases hfresh

theorem Holds.malloc (h : Holds n l) (hfresh : n.allocated node = false) : Holds (n.malloc node key) l := by
  have hne : ∀ a ∈ head :: tail :: l, a ≠ node := fun a ha he => h.fresh hfresh (he ▸ ha)
  exact h.congr (fun a ha => Function.update_of_ne (hne a ha) _ _) (fun a ha => Function.update_of_ne (hne a ha) _ _)
    fun a ha => Function.update_of_ne (hne a ha) _ _

theorem holds_listInit : Holds .listInit [] := by
  refine ⟨.last rfl ?_, ⟨rfl, rfl⟩, rfl, fun a ha => ?_⟩
  · rw [rank_head, rank_of_ne tail_ne_head]
    decide
  · rcases List.mem_pair.mp ha with rfl | rfl <;> rfl

theorem Holds.keys_malloc (h : Holds n l) (hfresh : n.allocated node = false) :
    keys (n.malloc node key).key l = keys n.key l := by
  refine keys_congr fun a ha => Function.update_of_ne (fun he => h.fresh hfresh ?_) _ _
  rw [← he]
  exact List.mem_cons_of_mem head (List.mem_cons_of_mem tail ha)

theorem store_comm (hne : prev ≠ node) {c d : Option Addr} :
    (n.store prev c).store node d = (n.store node d).store prev c := by
  simp only [Nodes.store, Function.update_comm hne]

/-- The new node has been put between the two nodes where the search has ended. -/
theorem Holds.add (h : Holds n l) (w : Spot n l key prev curr) (hkey : n.key node = key)
    (halloc : n.allocated node = true) (hnode : node ∉ head :: tail :: l) (hlt : key < n.key curr) :
    ∃ l', Holds ((n.store prev node).store node curr) l' ∧
      keys n.key l' = insert key (keys n.key l) := by
  have hnodes : ∀ a ∈ head :: l, a ≠ node := fun a ha he =>
    hnode (List.mem_cons.mpr ((List.mem_cons.mp (he ▸ ha)).imp_right (List.mem_cons_of_mem tail)))
  have htail : tail ≠ node := fun he => hnode (he ▸ List.mem_cons_of_mem head List.mem_cons_self)
  have hprev : prev ≠ node := hnodes prev w.mem
  have hrank : n.rank node = key := (rank_of_ne fun he => hnodes head List.mem_cons_self he.symm).trans hkey
  have hcurr : n.rank curr = n.key curr := h.rank_next w.mem w.edge
  have hsame : ∀ a ≠ prev, a ≠ node → ((n.store prev node).store node curr).next a = n.next a := fun a ha ha' =>
    (Function.update_of_ne ha' _ _).trans (Function.update_of_ne ha _ _)
  have hpn : ((n.store prev node).store node curr).Edge prev node :=
    (Function.update_of_ne hprev _ _).trans (Function.update_self ..)
  have hnc : ((n.store prev node).store node curr).Edge node curr := Function.update_self ..
  obtain ⟨l', hchain, hperm⟩ := h.chain.insert (edge_unique n) w.mem w.edge
    (fun b hb hne c hc => (hsame b hne (hnodes b hb)).trans hc) hpn hnc (hrank.symm ▸ w.lt)
    (by rw [hrank, hcurr]; exact hlt)
  have htail' : tail ≠ prev := fun he => h.chain.last_notMem (he ▸ w.mem)
  refine ⟨l', ⟨hchain, h.ends, (hsame tail htail' htail).trans h.last, fun a ha => ?_⟩, hkey ▸ keys_of_perm hperm⟩
  simp only [List.mem_cons, hperm.mem_iff] at ha
  rcases ha with rfl | rfl | rfl | ha
  · exact h.allocated head List.mem_cons_self
  · exact h.allocated tail (List.mem_cons_of_mem head List.mem_cons_self)
  · exact halloc
  · exact h.allocated a (List.mem_cons_of_mem head (List.mem_cons_of_mem tail ha))

/-- The node where the search has ended has been taken out. -/
theorem Holds.remove (h : Holds n l) (w : Spot n l key prev curr) (hkey : n.key curr = key) (hlt : key < intMax) :
    ∃ l', Holds (n.store prev (n.next curr)) l' ∧ curr ∉ head :: tail :: l' ∧
      keys n.key l' = (keys n.key l).erase key := by
  have hcurr : curr ∈ l := w.curr_mem h (hkey ▸ hlt)
  obtain ⟨succ, hsucc⟩ := h.chain.exists_next (List.mem_cons_of_mem head hcurr)
  have hlinked : (n.store prev (n.next curr)).Edge prev succ := (Function.update_self ..).trans hsucc
  obtain ⟨l', hchain, hperm⟩ := h.chain.remove (edge_unique n) w.mem w.edge hcurr hsucc
    (fun b _ hne c hc => (Function.update_of_ne hne _ _).trans hc) hlinked
  have htail : tail ≠ prev := fun he => h.chain.last_notMem (he ▸ w.mem)
  refine ⟨l', ⟨hchain, h.ends, (Function.update_of_ne htail _ _).trans h.last, fun a ha => ?_⟩, ?_, ?_⟩
  · refine h.allocated a ?_
    simp only [List.mem_cons, hperm.mem_iff] at ha ⊢
    tauto
  · simp only [List.mem_cons, not_or]
    refine ⟨h.ne_head hcurr, fun he => ?_, (List.nodup_cons.mp (hperm.nodup_iff.mp h.chain.nodup)).1⟩
    exact h.chain.last_notMem (he ▸ List.mem_cons_of_mem head hcurr)
  · have herase := h.chain.keys_erase hperm
    have hkeys : keys n.rank l' = keys n.key l' := keys_congr fun a ha =>
      h.rank_mem (hperm.mem_iff.mpr (List.mem_cons_of_mem curr ha))
    rwa [hkeys, h.keys_rank, h.rank_mem hcurr, hkey] at herase

theorem Holds.free (h : Holds n l) (ha : a ∉ head :: tail :: l) : Holds (n.free a) l :=
  h.congr (fun _ _ => rfl) (fun _ _ => rfl) fun b hb => Function.update_of_ne (fun he => ha (by rwa [← he])) _ _

theorem bounded_listInit : Nodes.listInit.Bounded := by
  refine ⟨2, fun a ha => ?_⟩
  have hne : ∀ b, b < 2 → a ≠ b := fun b hb he => absurd (he ▸ ha) hb.not_ge
  exact Bool.or_eq_false_iff.mpr ⟨decide_eq_false (hne head (by decide)), decide_eq_false (hne tail (by decide))⟩

theorem Nodes.Bounded.malloc (h : n.Bounded) : (n.malloc node key).Bounded := by
  obtain ⟨bound, hbound⟩ := h
  refine ⟨max bound (node + 1), fun a ha => ?_⟩
  have hlt : node < a := le_of_max_le_right ha
  exact (Function.update_of_ne hlt.ne' _ _).trans (hbound a (le_of_max_le_left ha))

theorem Nodes.Bounded.free (h : n.Bounded) : (n.free a).Bounded := by
  obtain ⟨bound, hbound⟩ := h
  refine ⟨bound, fun b hb => ?_⟩
  by_cases hba : b = a
  · rw [hba]
    exact Function.update_self ..
  · exact (Function.update_of_ne hba _ _).trans (hbound b hb)

theorem Nodes.Bounded.exists_fresh (h : n.Bounded) : ∃ node, n.allocated node = false :=
  h.imp fun bound hbound => hbound bound le_rfl

/-- What a call leaves. A search for the greatest int ends at the tail, whose key it takes for one
of the set. -/
structure Outcome (n : Nodes) (l : List Addr) (op : Op) (res : Bool) (n' : Nodes) : Prop where
  right : op.key < intMax → res = (intSet.apply op (keys n.key l)).1 ∧
    ∃ l', Holds n' l' ∧ keys n'.key l' = (intSet.apply op (keys n.key l)).2
  wrong : op.key = intMax → res ≠ (intSet.apply op (keys n.key l)).1

theorem Outcome.of_keys {m : Nodes} (h : Outcome m l op res n') (hkeys : keys m.key l = keys n.key l) :
    Outcome n l op res n' := by
  obtain ⟨right, wrong⟩ := h
  rw [hkeys] at right wrong
  exact ⟨right, wrong⟩

theorem Spot.top_eq (w : Spot n l key prev curr) (h : Holds n l) (htop : key = intMax) : n.key curr = key :=
  le_antisymm (htop ▸ w.key_curr_le h) w.le

theorem Spot.add_present (w : Spot n l key prev curr) (h : Holds n l) (he : n.key curr = key) :
    Outcome n l (.add key) false n := by
  refine ⟨fun hlt => ?_, fun htop => ?_⟩
  · rw [SortedList.add_present ((w.mem_keys_iff h hlt).mpr he)]
    exact ⟨rfl, l, h, rfl⟩
  · have hout : key ∉ keys n.key l := h.notMem_of_top htop
    rw [SortedList.add_absent hout]
    exact Bool.false_ne_true

theorem Spot.add_absent (w : Spot n l key prev curr) (h : Holds n l) (hne : n.key curr ≠ key) (hkey : n.key node = key)
    (halloc : n.allocated node = true) (hnode : node ∉ head :: tail :: l) :
    Outcome n l (.add key) true ((n.store prev node).store node curr) := by
  refine ⟨fun hlt => ?_, fun htop => absurd (w.top_eq h htop) hne⟩
  rw [SortedList.add_absent fun hmem => hne ((w.mem_keys_iff h hlt).mp hmem)]
  exact ⟨rfl, h.add w hkey halloc hnode (lt_of_le_of_ne w.le hne.symm)⟩

theorem Spot.remove_absent (w : Spot n l key prev curr) (h : Holds n l) (hne : n.key curr ≠ key) :
    Outcome n l (.remove key) false n := by
  refine ⟨fun hlt => ?_, fun htop => absurd (w.top_eq h htop) hne⟩
  rw [SortedList.remove_absent fun hmem => hne ((w.mem_keys_iff h hlt).mp hmem)]
  exact ⟨rfl, l, h, rfl⟩

theorem Spot.remove_present (w : Spot n l key prev curr) (h : Holds n l) (he : n.key curr = key) :
    Outcome n l (.remove key) true (n.store prev (n.next curr)) := by
  refine ⟨fun hlt => ?_, fun htop => ?_⟩
  · rw [SortedList.remove_present ((w.mem_keys_iff h hlt).mpr he)]
    obtain ⟨l', hl', -, hkeys⟩ := h.remove w he hlt
    exact ⟨rfl, l', hl', hkeys⟩
  · have hout : key ∉ keys n.key l := h.notMem_of_top htop
    rw [SortedList.remove_absent hout]
    exact Bool.noConfusion

theorem Spot.remove_freed (w : Spot n l key prev curr) (h : Holds n l) (he : n.key curr = key) :
    Outcome n l (.remove key) true ((n.store prev (n.next curr)).free curr) := by
  refine ⟨fun hlt => ?_, (w.remove_present h he).wrong⟩
  rw [SortedList.remove_present ((w.mem_keys_iff h hlt).mpr he)]
  obtain ⟨l', hl', hout, hkeys⟩ := h.remove w he hlt
  exact ⟨rfl, l', hl'.free hout, hkeys⟩

theorem Spot.contains (w : Spot n l key prev curr) (h : Holds n l) :
    Outcome n l (.contains key) (n.key curr = key) n := by
  refine ⟨fun hlt => ?_, fun htop => ?_⟩
  · exact ⟨decide_eq_decide.mpr (w.mem_keys_iff h hlt).symm, l, h, rfl⟩
  · have hout : key ∉ keys n.key l := h.notMem_of_top htop
    simp only [intSet, hout, w.top_eq h htop, decide_true, decide_false]
    exact Bool.noConfusion

/-- A search from the head ends at the place of the key, if it can pass each node below the key. -/
theorem Holds.search (h : Holds n l) {Q : Addr → Addr → Prop} (lower : intMin ≤ key) (upper : key ≤ intMax)
    (stop : ∀ prev curr, Spot n l key prev curr → Q prev curr)
    (pass : ∀ prev ∈ head :: l, ∀ curr ∈ l, ∀ next, n.next prev = some curr → n.next curr = some next →
      n.key curr < key → Q curr next → Q prev curr) : ∃ first, n.next head = some first ∧ Q head first := by
  refine h.chain.search (by rw [rank_head]; exact Int.sub_one_lt_of_le lower) (h.rank_tail ▸ upper)
    (fun b hb c edge hlt hle => stop b c ⟨hb, edge, hlt, h.rank_next hb edge ▸ hle⟩)
    fun b hb c hc d edge edge' _ hlt => pass b hb c hc d edge edge' (h.rank_mem hc ▸ hlt)

/-- An implementation does with each call what it has to do, as long as the list is in order. -/
structure Machine.Correct {σ : Type} (m : Machine σ) (Rests : σ → Prop) : Prop where
  start : Rests m.init ∧ Holds (m.nodes m.init) []
  serve : ∀ s l op, Rests s → Holds (m.nodes s) l → intMin ≤ op.key → op.key ≤ intMax →
    Ends m.inner (fun s' => ∃ res, m.result s' = some res ∧ Rests (m.ret s') ∧
      Outcome (m.nodes s) l op res (m.nodes (m.ret s'))) (m.call op s)
  final : ∀ s res, m.result s = some res → ∀ s', ¬ m.inner s s'

variable {σ : Type} {m : Machine σ} {Rests : σ → Prop} {s : σ} {ops : List Op}

theorem Machine.Correct.behaves (hm : m.Correct Rests) (hs : Rests s) (hl : Holds (m.nodes s) l)
    (hrange : ∀ op ∈ ops, intMin ≤ op.key ∧ op.key ≤ intMax) (hops : ∀ op ∈ ops, op.key ≠ intMax) :
    m.Behaves ops (keys (m.nodes s).key l) s := by
  induction ops generalizing s l with
  | nil => exact hl.shows
  | cons op ops ih =>
    obtain ⟨⟨lower, upper⟩, hrange⟩ := List.forall_mem_cons.mp hrange
    obtain ⟨hop, hops⟩ := List.forall_mem_cons.mp hops
    refine ⟨hl.shows, (hm.serve s l op hs hl lower upper).mono ?_⟩
    rintro s' ⟨res, hres, hs', houtcome⟩
    obtain ⟨hright, l', hl', hkeys⟩ := houtcome.right (lt_of_le_of_ne upper hop)
    refine ⟨hright ▸ hres, ?_⟩
    rw [← hkeys]
    exact ih hs' hl' hrange hops

theorem Machine.Correct.ne_top (hm : m.Correct Rests) (hs : Rests s) (hl : Holds (m.nodes s) l)
    (hrange : ∀ op ∈ ops, intMin ≤ op.key ∧ op.key ≤ intMax) (h : m.Behaves ops (keys (m.nodes s).key l) s) :
    ∀ op ∈ ops, op.key ≠ intMax := by
  induction ops generalizing s l with
  | nil => exact fun _ ho => absurd ho List.not_mem_nil
  | cons op ops ih =>
    obtain ⟨⟨lower, upper⟩, hrange⟩ := List.forall_mem_cons.mp hrange
    obtain ⟨s', ⟨hres, hrest⟩, res, hres', hs', houtcome⟩ := h.2.meet (hm.serve s l op hs hl lower upper)
      (fun s hs => hm.final s _ hs.1) fun s ⟨res, hres, _⟩ => hm.final s res hres
    have hright : res = (intSet.apply op (keys (m.nodes s).key l)).1 := Option.some.inj (hres'.symm.trans hres)
    have hop : op.key ≠ intMax := fun htop => houtcome.wrong htop hright
    obtain ⟨-, l', hl', hkeys⟩ := houtcome.right (lt_of_le_of_ne upper hop)
    rw [← hkeys] at hrest
    exact List.forall_mem_cons.mpr ⟨hop, ih hs' hl' hrange hrest⟩

theorem Machine.Correct.behaves_iff (hm : m.Correct Rests) (hrange : ∀ op ∈ ops, intMin ≤ op.key ∧ op.key ≤ intMax) :
    m.Behaves ops ∅ m.init ↔ ∀ op ∈ ops, op.key ≠ intMax :=
  ⟨hm.ne_top hm.start.1 hm.start.2 hrange, hm.behaves hm.start.1 hm.start.2 hrange⟩

end SortedList
