import Mathlib.Data.List.Chain
import Mathlib.Data.Finset.Basic
import Mathlib.Data.Finset.Dedup
import Mathlib.Data.Finset.Image
import Mathlib.Logic.Relation
import Mathlib.Order.Basic

/-!
# Chains of nodes with rising keys

A singly linked list from any node to a last one, over any edge relation. Where an edge is
replaced by two, or two by one, the chain gains or loses a node.
-/
namespace SortedChain

variable {α κ : Type*} [LinearOrder κ] {E E' : α → α → Prop} {key key' : α → κ} {last a b c : α}
  {inner : List α}

/-- The edges from `a` visit the inner nodes and then the last one, and the keys rise. -/
inductive Chain (E : α → α → Prop) (key : α → κ) (last : α) : α → List α → Prop where
  | last {a : α} (edge : E a last) (rises : key a < key last) : Chain E key last a []
  | cons {a b : α} {inner : List α} (edge : E a b) (rises : key a < key b)
    (rest : Chain E key last b inner) : Chain E key last a (b :: inner)

theorem Chain.lt (h : Chain E key last a inner) : ∀ b ∈ inner, key a < key b := by
  induction h with
  | last => exact fun b hb => absurd hb List.not_mem_nil
  | cons _ rises _ ih =>
    intro c hc
    rcases List.mem_cons.mp hc with rfl | hc
    · exact rises
    · exact rises.trans (ih c hc)

theorem Chain.lt_last (h : Chain E key last a inner) : ∀ b ∈ a :: inner, key b < key last := by
  induction h with
  | last _ rises =>
    intro b hb
    rwa [List.mem_singleton.mp hb]
  | cons _ rises _ ih =>
    intro c hc
    rcases List.mem_cons.mp hc with rfl | hc
    · exact rises.trans (ih _ List.mem_cons_self)
    · exact ih c hc

theorem Chain.first_notMem (h : Chain E key last a inner) : a ∉ inner := fun ha =>
  lt_irrefl _ (h.lt a ha)

theorem Chain.last_notMem (h : Chain E key last a inner) : last ∉ a :: inner := fun hl =>
  lt_irrefl _ (h.lt_last last hl)

theorem Chain.nodup (h : Chain E key last a inner) : inner.Nodup := by
  induction h with
  | last => exact .nil
  | cons _ _ rest ih => exact List.nodup_cons.mpr ⟨rest.first_notMem, ih⟩

theorem Chain.key_injective (h : Chain E key last a inner) (hb : b ∈ a :: inner) (hc : c ∈ a :: inner)
    (he : key b = key c) : b = c := by
  induction h with
  | last => rw [List.mem_singleton.mp hb, List.mem_singleton.mp hc]
  | cons edge rises rest ih =>
    have hlt := (Chain.cons edge rises rest).lt
    rcases List.mem_cons.mp hb with rfl | hb'
    · rcases List.mem_cons.mp hc with rfl | hc'
      · rfl
      · exact absurd he (hlt c hc').ne
    · rcases List.mem_cons.mp hc with rfl | hc'
      · exact absurd he (hlt b hb').ne'
      · exact ih hb' hc'

theorem Chain.exists_next (h : Chain E key last a inner) (hb : b ∈ a :: inner) : ∃ c, E b c := by
  induction h with
  | last edge => exact ⟨_, List.mem_singleton.mp hb ▸ edge⟩
  | cons edge _ _ ih =>
    rcases List.mem_cons.mp hb with rfl | hb
    · exact ⟨_, edge⟩
    · exact ih hb

theorem Chain.exists_prev (h : Chain E key last a inner) (hc : c ∈ inner) : ∃ b, E b c := by
  induction h with
  | last => exact absurd hc List.not_mem_nil
  | cons edge _ _ ih =>
    rcases List.mem_cons.mp hc with rfl | hc
    · exact ⟨_, edge⟩
    · exact ih hc

/-- A chain depends on the edges and the keys of its own nodes only. -/
theorem Chain.congr (h : Chain E key last a inner) (hE : ∀ b ∈ a :: inner, ∀ c, E b c → E' b c)
    (hkey : ∀ b ∈ a :: inner, key' b = key b) (hlast : key' last = key last) : Chain E' key' last a inner := by
  induction h with
  | @last a edge rises =>
    refine .last (hE a List.mem_cons_self _ edge) ?_
    rwa [hkey a List.mem_cons_self, hlast]
  | @cons a b inner edge rises _ ih =>
    refine .cons (hE a List.mem_cons_self b edge) ?_ (ih (fun c hc => hE c (List.mem_cons_of_mem a hc))
      fun c hc => hkey c (List.mem_cons_of_mem a hc))
    rwa [hkey a List.mem_cons_self, hkey b (List.mem_cons_of_mem a List.mem_cons_self)]

/-- A search for a key, from the end of the chain backwards: it stops at the first node that is not
below the key. -/
theorem Chain.search {k : κ} {Q : α → α → Prop} (h : Chain E key last a inner) (hlt : key a < k) (hle : k ≤ key last)
    (stop : ∀ b ∈ a :: inner, ∀ c, E b c → key b < k → k ≤ key c → Q b c)
    (pass : ∀ b ∈ a :: inner, ∀ c ∈ inner, ∀ d, E b c → E c d → key b < k → key c < k → Q c d → Q b c) :
    ∃ b, E a b ∧ Q a b := by
  induction h with
  | last edge => exact ⟨last, edge, stop _ List.mem_cons_self last edge hlt hle⟩
  | @cons a b inner edge _ _ ih =>
    rcases lt_or_ge (key b) k with hbk | hkb
    · obtain ⟨c, hbc, hc⟩ := ih hbk (fun d hd => stop d (List.mem_cons_of_mem a hd)) fun d hd c hc =>
        pass d (List.mem_cons_of_mem a hd) c (List.mem_cons_of_mem b hc)
      exact ⟨b, edge, pass a List.mem_cons_self b List.mem_cons_self c edge hbc hlt hbk hc⟩
    · exact ⟨b, edge, stop a List.mem_cons_self b edge hlt hkb⟩

/-- A walk to a node of the chain, from there backwards. -/
theorem Chain.walk {p : α} {Q : α → Prop} (h : Chain E key last a inner) (hp : p ∈ a :: inner) (stop : Q p)
    (pass : ∀ b ∈ a :: inner, ∀ c, E b c → key b < key p → Q c → Q b) : Q a := by
  induction h with
  | last => exact List.mem_singleton.mp hp ▸ stop
  | @cons a b inner edge rises rest ih =>
    rcases List.mem_cons.mp hp with rfl | hp
    · exact stop
    · have hb : Q b := ih hp fun c hc => pass c (List.mem_cons_of_mem a hc)
      exact pass a List.mem_cons_self b edge ((Chain.cons edge rises rest).lt p hp) hb

section
variable (unique : Relator.RightUnique E)
include unique

theorem Chain.next_mem (h : Chain E key last a inner) (hb : b ∈ a :: inner) (edge : E b c) :
    c ∈ inner ∨ c = last := by
  induction h with
  | last edge' =>
    rw [List.mem_singleton.mp hb] at edge
    exact .inr (unique edge edge')
  | cons edge' _ _ ih =>
    rcases List.mem_cons.mp hb with rfl | hb
    · exact .inl (by rw [unique edge edge']; exact List.mem_cons_self)
    · exact (ih hb).imp (List.mem_cons_of_mem _) id

theorem Chain.rises (h : Chain E key last a inner) (hb : b ∈ a :: inner) (edge : E b c) : key b < key c := by
  induction h with
  | last edge' rises =>
    rw [List.mem_singleton.mp hb] at edge ⊢
    rwa [unique edge edge']
  | cons edge' rises _ ih =>
    rcases List.mem_cons.mp hb with rfl | hb
    · rwa [unique edge edge']
    · exact ih hb

theorem Chain.next_ne (h : Chain E key last a inner) (hb : b ∈ a :: inner) (edge : E b c) : b ≠ c := fun he =>
  (h.rises unique hb edge).ne (congrArg key he)

theorem Chain.key_next_le (h : Chain E key last a inner) (hb : b ∈ a :: inner) (edge : E b c) : key c ≤ key last := by
  rcases h.next_mem unique hb edge with hc | rfl
  · exact (h.lt_last c (List.mem_cons_of_mem a hc)).le
  · exact le_rfl

theorem Chain.next_mem_of_lt (h : Chain E key last a inner) (hb : b ∈ a :: inner) (edge : E b c)
    (hlt : key c < key last) : c ∈ inner := by
  refine (h.next_mem unique hb edge).resolve_right ?_
  rintro rfl
  exact lt_irrefl _ hlt

/-- No node of the chain lies between two neighbours. -/
theorem Chain.between (h : Chain E key last a inner) (hb : b ∈ a :: inner) (edge : E b c) :
    ∀ d ∈ a :: inner, key d ≤ key b ∨ key c ≤ key d := by
  induction h with
  | last edge' rises =>
    intro d hd
    rw [List.mem_singleton.mp hd, List.mem_singleton.mp hb]
    exact .inl le_rfl
  | @cons a a' inner edge' rises rest ih =>
    intro d hd
    rcases List.mem_cons.mp hb with rfl | hb'
    · rcases List.mem_cons.mp hd with rfl | hd'
      · exact .inl le_rfl
      · rw [unique edge edge']
        rcases List.mem_cons.mp hd' with rfl | hd'
        · exact .inr le_rfl
        · exact .inr (rest.lt d hd').le
    · rcases List.mem_cons.mp hd with rfl | hd'
      · exact .inl ((Chain.cons edge' rises rest).lt b hb').le
      · exact ih hb' d hd'

/-- Two nodes of the chain do not have the same successor. -/
theorem Chain.pred_unique (h : Chain E key last a inner) {d : α} (hb : b ∈ a :: inner) (hc : c ∈ a :: inner)
    (hbd : E b d) (hcd : E c d) : b = c := by
  have hcb : key c ≤ key b := (h.between unique hb hbd c hc).resolve_right (h.rises unique hc hcd).not_ge
  have hbc : key b ≤ key c := (h.between unique hc hcd b hb).resolve_right (h.rises unique hb hbd).not_ge
  exact h.key_injective hb hc (le_antisymm hbc hcb)

/-- Nothing but the nodes of the chain can be reached from one of them. -/
theorem Chain.reach_mem (h : Chain E key last a inner) (hend : ∀ d, ¬ E last d) (hb : b ∈ a :: inner)
    (hreach : Relation.ReflTransGen E b c) : c ∈ a :: inner ∨ c = last := by
  induction hreach with
  | refl => exact .inl hb
  | tail _ edge ih =>
    rcases ih with hd | rfl
    · exact (h.next_mem unique hd edge).imp (List.mem_cons_of_mem a) id
    · exact absurd edge (hend _)

/-- A node put between two neighbours. -/
theorem Chain.insert {p n : α} (h : Chain E key last a inner) (hp : p ∈ a :: inner) (edge : E p c)
    (hE : ∀ b ∈ a :: inner, b ≠ p → ∀ d, E b d → E' b d) (hpn : E' p n) (hnc : E' n c)
    (hlt : key p < key n) (hlt' : key n < key c) :
    ∃ inner', Chain E' key last a inner' ∧ inner'.Perm (n :: inner) := by
  induction h with
  | @last a edge' rises =>
    obtain rfl := List.mem_singleton.mp hp
    obtain rfl := unique edge edge'
    exact ⟨[n], .cons hpn hlt (.last hnc hlt'), .refl _⟩
  | @cons a b inner edge' rises rest ih =>
    rcases List.mem_cons.mp hp with rfl | hp
    · obtain rfl := unique edge edge'
      have hrest : Chain E' key last c inner := rest.congr
        (fun d hd => hE d (List.mem_cons_of_mem p hd) (fun he =>
          (Chain.cons edge' rises rest).first_notMem (he ▸ hd))) (fun _ _ => rfl) rfl
      exact ⟨n :: c :: inner, .cons hpn hlt (.cons hnc hlt' hrest), .refl _⟩
    · have hap : a ≠ p := fun he => (Chain.cons edge' rises rest).first_notMem (he ▸ hp)
      obtain ⟨inner', hinner', hperm⟩ := ih hp fun d hd => hE d (List.mem_cons_of_mem a hd)
      exact ⟨b :: inner', .cons (hE a List.mem_cons_self hap b edge') rises hinner',
        (hperm.cons b).trans (.swap n b inner)⟩

/-- The successor of a node taken out. -/
theorem Chain.remove {p d : α} (h : Chain E key last a inner) (hp : p ∈ a :: inner) (edge : E p c)
    (hc : c ∈ inner) (next : E c d) (hE : ∀ b ∈ a :: inner, b ≠ p → ∀ d, E b d → E' b d) (hpd : E' p d) :
    ∃ inner', Chain E' key last a inner' ∧ inner.Perm (c :: inner') := by
  induction h with
  | last => exact absurd hc List.not_mem_nil
  | @cons a b inner edge' rises rest ih =>
    rcases List.mem_cons.mp hp with rfl | hp
    · obtain rfl := unique edge edge'
      have hE' : ∀ b ∈ c :: inner, ∀ d, E b d → E' b d := fun b hb =>
        hE b (List.mem_cons_of_mem p hb) fun he => (Chain.cons edge' rises rest).first_notMem (he ▸ hb)
      cases rest with
      | last edge'' rises' =>
        obtain rfl := unique next edge''
        exact ⟨[], .last hpd (rises.trans rises'), .refl _⟩
      | @cons _ b inner edge'' rises' rest =>
        obtain rfl := unique next edge''
        have hrest : Chain E' key last d inner :=
          rest.congr (fun b hb => hE' b (List.mem_cons_of_mem c hb)) (fun _ _ => rfl) rfl
        exact ⟨d :: inner, .cons hpd (rises.trans rises') hrest, .refl _⟩
    · have hap : a ≠ p := fun he => (Chain.cons edge' rises rest).first_notMem (he ▸ hp)
      have hcb : c ≠ b := by
        rintro rfl
        have hlt := rest.rises unique hp edge
        rcases List.mem_cons.mp hp with rfl | hp
        · exact lt_irrefl _ hlt
        · exact lt_asymm hlt (rest.lt p hp)
      obtain ⟨inner', hinner', hperm⟩ := ih hp ((List.mem_cons.mp hc).resolve_left hcb)
        fun d hd => hE d (List.mem_cons_of_mem a hd)
      exact ⟨b :: inner', .cons (hE a List.mem_cons_self hap b edge') rises hinner',
        (hperm.cons b).trans (.swap c b inner')⟩

end

/-- The keys between the first node and the last one. -/
def keys (key : α → κ) (inner : List α) : Finset κ := (inner.map key).toFinset

theorem mem_keys {k : κ} : k ∈ keys key inner ↔ ∃ a ∈ inner, key a = k := by
  rw [keys, List.mem_toFinset, List.mem_map]

theorem keys_congr (h : ∀ b ∈ inner, key' b = key b) : keys key' inner = keys key inner := by
  rw [keys, keys, List.map_congr_left h]

theorem keys_of_perm {n : α} {inner' : List α} (h : inner'.Perm (n :: inner)) :
    keys key inner' = insert (key n) (keys key inner) := by
  rw [keys, List.toFinset_eq_of_perm _ _ (h.map key), List.map_cons, List.toFinset_cons, keys]

theorem Chain.keys_erase (h : Chain E key last a inner) {inner' : List α} (hperm : inner.Perm (c :: inner')) :
    keys key inner' = (keys key inner).erase (key c) := by
  have hnodup : (c :: inner').Nodup := hperm.nodup_iff.mp h.nodup
  have hc : key c ∉ keys key inner' := by
    intro hc
    obtain ⟨b, hb, he⟩ := mem_keys.mp hc
    have hbc : b = c := h.key_injective (List.mem_cons_of_mem a (hperm.mem_iff.mpr (List.mem_cons_of_mem c hb)))
      (List.mem_cons_of_mem a (hperm.mem_iff.mpr List.mem_cons_self)) he
    exact (List.nodup_cons.mp hnodup).1 (hbc ▸ hb)
  rw [keys_of_perm hperm, Finset.erase_insert hc]

/-- Where a search ends decides whether the chain has the key. -/
theorem Chain.mem_keys_iff {p : α} {k : κ} (unique : Relator.RightUnique E) (h : Chain E key last a inner)
    (hp : p ∈ a :: inner) (edge : E p c) (hlt : key p < k) (hle : k ≤ key c) (hlast : k < key last) :
    k ∈ keys key inner ↔ key c = k := by
  rw [mem_keys]
  constructor
  · rintro ⟨d, hd, rfl⟩
    rcases h.between unique hp edge d (List.mem_cons_of_mem a hd) with hdp | hcd
    · exact absurd hlt hdp.not_gt
    · exact le_antisymm hcd hle
  · intro he
    rcases h.next_mem unique hp edge with hc | rfl
    · exact ⟨c, hc, he⟩
    · exact absurd he hlast.ne'

end SortedChain
