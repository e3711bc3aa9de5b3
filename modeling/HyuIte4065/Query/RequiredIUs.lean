import HyuIte4065.Library.SearchTree
import HyuIte4065.Query.Operators
import Mathlib.Data.List.Dedup
import Mathlib.Data.List.Infix
import Mathlib.Order.Lattice

/-!
# The required columns of a self join

`SelfJoin::require` once more, with the set of `SelectInfo` as the search tree that it is and with
the comparison that `SelectInfo` has. That comparison is no order where one column has the lower
binding and the other one the lower column id.
-/
namespace Query

open SearchTree (Balance Sorted Present elements count emplace)

namespace SelectInfo

/-- `operator<`. -/
def less (info o : SelectInfo) : Bool := info.binding < o.binding || info.colId < o.colId

def column (info : SelectInfo) : Nat × Nat := (info.binding, info.colId)

theorem less_iff (a b : SelectInfo) : less a b = true ↔ ¬ b.column ≤ a.column := by
  simp only [less, column, Bool.or_eq_true, decide_eq_true_iff, Prod.mk_le_mk]
  omega

end SelectInfo

/-- The operator below. What it answers depends on the column alone. -/
structure Input where
  State : Type
  require : State → SelectInfo → Bool × State
  provides : SelectInfo → Bool
  answers : ∀ state info, (require state info).1 = provides info

structure SelfJoin (input : Input) where
  state : input.State
  requiredIUs : BinaryTree SelectInfo
  tmpResults : List Column

namespace SelfJoin

variable {input : Input}

def new (state : input.State) : SelfJoin input := ⟨state, .nil, []⟩

def require (balance : Balance SelectInfo) (selfJoin : SelfJoin input) (info : SelectInfo) :
    Bool × SelfJoin input :=
  if count SelectInfo.less info selfJoin.requiredIUs then (true, selfJoin)
  else
    let (answer, state) := input.require selfJoin.state info
    if answer then
      (true, ⟨state, emplace SelectInfo.less balance info selfJoin.requiredIUs, selfJoin.tmpResults ++ [[]]⟩)
    else (false, { selfJoin with state := state })

/-- One call, with the columns for which `require` has returned true so far. -/
def turn (balance : Balance SelectInfo) (run : List SelectInfo × SelfJoin input) (info : SelectInfo) :
    List SelectInfo × SelfJoin input :=
  let (answer, selfJoin) := run.2.require balance info
  (if answer then run.1 ++ [info] else run.1, selfJoin)

def requireAll (balance : Balance SelectInfo) (state : input.State) (infos : List SelectInfo) :
    List SelectInfo × SelfJoin input :=
  infos.foldl (turn balance) ([], new state)

/-- Every column that was granted is recognised, each is in the set once and has one result. -/
structure Recognises (balance : Balance SelectInfo) (run : List SelectInfo × SelfJoin input) : Prop where
  counted : ∀ info ∈ run.1, count SelectInfo.less info run.2.requiredIUs = true
  again : ∀ info ∈ run.1, run.2.require balance info = (true, run.2)
  once : ((elements run.2.requiredIUs).map SelectInfo.column).Nodup
  contained : ∀ c, c ∈ (elements run.2.requiredIUs).map SelectInfo.column ↔ c ∈ run.1.map SelectInfo.column
  results : run.2.tmpResults.length = (run.1.map SelectInfo.column).dedup.length

/-- One column has neither the higher binding nor the higher column id. -/
def Comparable (a b : SelectInfo) : Prop := a.column ≤ b.column ∨ b.column ≤ a.column

variable {balance : Balance SelectInfo} {run : List SelectInfo × SelfJoin input} {info : SelectInfo}
  {infos : List SelectInfo} {state : input.State}

theorem require_counted {selfJoin : SelfJoin input}
    (h : count SelectInfo.less info selfJoin.requiredIUs = true) :
    selfJoin.require balance info = (true, selfJoin) := if_pos h

theorem turn_counted (h : count SelectInfo.less info run.2.requiredIUs = true) :
    turn balance run info = (run.1 ++ [info], run.2) := by
  rw [turn, require_counted h]
  rfl

theorem turn_provided (balance : Balance SelectInfo) (h : count SelectInfo.less info run.2.requiredIUs = false)
    (hprovides : input.provides info = true) :
    ∃ state, turn balance run info = (run.1 ++ [info],
      ⟨state, emplace SelectInfo.less balance info run.2.requiredIUs, run.2.tmpResults ++ [[]]⟩) := by
  have hanswer := input.answers run.2.state info
  refine ⟨(input.require run.2.state info).2, ?_⟩
  simp [turn, require, h, hanswer, hprovides]

theorem turn_refused (balance : Balance SelectInfo) (h : count SelectInfo.less info run.2.requiredIUs = false)
    (hprovides : input.provides info = false) :
    ∃ state, turn balance run info = (run.1, { run.2 with state := state }) := by
  have hanswer := input.answers run.2.state info
  refine ⟨(input.require run.2.state info).2, ?_⟩
  simp [turn, require, h, hanswer, hprovides]

/-- What holds as long as the columns of the input that were asked for are comparable. -/
structure Kept (infos : List SelectInfo) (run : List SelectInfo × SelfJoin input) : Prop where
  sorted : Sorted SelectInfo.column run.2.requiredIUs
  asked : ∀ a ∈ elements run.2.requiredIUs, a ∈ infos ∧ input.provides a = true
  granted : ∀ a ∈ elements run.2.requiredIUs, a ∈ run.1
  present : ∀ info ∈ run.1, Present SelectInfo.column run.2.requiredIUs info.column
  provided : ∀ info ∈ infos, input.provides info = true →
    Present SelectInfo.column run.2.requiredIUs info.column
  results : run.2.tmpResults.length = (elements run.2.requiredIUs).length

theorem kept_new (state : input.State) : Kept [] (([], new state) : List SelectInfo × SelfJoin input) where
  sorted := .nil
  asked _ h := by cases h
  granted _ h := by cases h
  present _ h := by cases h
  provided _ h := by cases h
  results := rfl

theorem Kept.count_iff (h : Kept infos run) (info : SelectInfo) :
    count SelectInfo.less info run.2.requiredIUs = true ↔
      Present SelectInfo.column run.2.requiredIUs info.column :=
  h.sorted.count_iff SelectInfo.less_iff

theorem Kept.recognises (h : Kept infos run) : Recognises balance run := by
  have hcounted : ∀ info ∈ run.1, count SelectInfo.less info run.2.requiredIUs = true :=
    fun info hi => (h.count_iff info).mpr (h.present info hi)
  have honce : ((elements run.2.requiredIUs).map SelectInfo.column).Nodup :=
    List.pairwise_map.mpr (h.sorted.imp fun hlt => hlt.ne)
  have hcontained : ∀ c, c ∈ (elements run.2.requiredIUs).map SelectInfo.column ↔
      c ∈ run.1.map SelectInfo.column := by
    intro c
    constructor
    · intro hc
      obtain ⟨a, ha, rfl⟩ := List.mem_map.mp hc
      exact List.mem_map_of_mem (h.granted a ha)
    · intro hc
      obtain ⟨info, hi, rfl⟩ := List.mem_map.mp hc
      exact List.mem_map.mpr (h.present info hi)
  refine ⟨hcounted, fun info hi => require_counted (hcounted info hi), honce, hcontained, ?_⟩
  have hperm : ((elements run.2.requiredIUs).map SelectInfo.column).Perm
      (run.1.map SelectInfo.column).dedup :=
    (List.perm_ext_iff_of_nodup honce (List.nodup_dedup _)).mpr fun c => by
      rw [List.mem_dedup]
      exact hcontained c
  rw [h.results, ← hperm.length_eq, List.length_map]

theorem Kept.turn (h : Kept infos run)
    (hcomp : input.provides info = true → ∀ a ∈ infos, input.provides a = true → Comparable a info) :
    Kept (infos ++ [info]) (turn balance run info) := by
  have hasked : ∀ a ∈ elements run.2.requiredIUs, a ∈ infos ++ [info] ∧ input.provides a = true :=
    fun a ha => ⟨List.mem_append_left _ (h.asked a ha).1, (h.asked a ha).2⟩
  cases hcount : count SelectInfo.less info run.2.requiredIUs with
  | true =>
    have hinfo := (h.count_iff info).mp hcount
    rw [turn_counted hcount]
    refine ⟨h.sorted, hasked, fun a ha => List.mem_append_left _ (h.granted a ha), ?_, ?_, h.results⟩
    · exact List.forall_mem_append.mpr ⟨h.present, by simpa using hinfo⟩
    · exact List.forall_mem_append.mpr ⟨h.provided, by simpa using fun _ => hinfo⟩
  | false =>
    have hnew : ¬ Present SelectInfo.column run.2.requiredIUs info.column := fun hp =>
      Bool.eq_false_iff.mp hcount ((h.count_iff info).mpr hp)
    cases hprovides : input.provides info with
    | true =>
      obtain ⟨state, hturn⟩ := turn_provided balance hcount hprovides
      obtain ⟨hsorted, hperm⟩ := h.sorted.emplace balance SelectInfo.less_iff hnew
        fun a ha => hcomp hprovides a (h.asked a ha).1 (h.asked a ha).2
      have hmem : ∀ a, a ∈ elements (emplace SelectInfo.less balance info run.2.requiredIUs) ↔
          a = info ∨ a ∈ elements run.2.requiredIUs := fun a => by rw [hperm.mem_iff, List.mem_cons]
      have hkept : ∀ {c}, Present SelectInfo.column run.2.requiredIUs c →
          Present SelectInfo.column (emplace SelectInfo.less balance info run.2.requiredIUs) c :=
        fun ⟨a, ha, hc⟩ => ⟨a, (hmem a).mpr (.inr ha), hc⟩
      have hinfo : Present SelectInfo.column
          (emplace SelectInfo.less balance info run.2.requiredIUs) info.column :=
        ⟨info, (hmem info).mpr (.inl rfl), rfl⟩
      rw [hturn]
      refine ⟨hsorted, fun a ha => ?_, fun a ha => ?_, ?_, ?_, ?_⟩
      · rcases (hmem a).mp ha with rfl | ha
        · exact ⟨by simp, hprovides⟩
        · exact hasked a ha
      · rcases (hmem a).mp ha with rfl | ha
        · simp
        · exact List.mem_append_left _ (h.granted a ha)
      · exact List.forall_mem_append.mpr ⟨fun i hi => hkept (h.present i hi), by simpa using hinfo⟩
      · exact List.forall_mem_append.mpr
          ⟨fun i hi hp => hkept (h.provided i hi hp), by simpa using fun _ => hinfo⟩
      · rw [hperm.length_eq, List.length_append, h.results]
        rfl
    | false =>
      obtain ⟨state, hturn⟩ := turn_refused balance hcount hprovides
      rw [hturn]
      refine ⟨h.sorted, hasked, h.granted, h.present, ?_, h.results⟩
      exact List.forall_mem_append.mpr ⟨h.provided, by simp [hprovides]⟩

theorem requireAll_append (infos : List SelectInfo) (info : SelectInfo) :
    requireAll balance state (infos ++ [info]) = turn balance (requireAll balance state infos) info := by
  simp [requireAll]

theorem kept_requireAll (hcomp : ∀ a ∈ infos, ∀ b ∈ infos, input.provides a = true →
    input.provides b = true → Comparable a b) : Kept infos (requireAll balance state infos) := by
  induction infos using List.reverseRecOn with
  | nil => exact kept_new state
  | append_singleton infos info ih =>
    rw [requireAll_append]
    refine (ih fun a ha b hb => hcomp a (by simp [ha]) b (by simp [hb])).turn fun hinfo a ha hp => ?_
    exact hcomp a (by simp [ha]) info (by simp) hp hinfo

/-- A column of the input that is not comparable with one asked for before is not recognised. -/
theorem Kept.lost (h : Kept infos run) (hprovides : input.provides info = true)
    (hpairs : ∀ a ∈ infos, ∀ b ∈ infos, input.provides a = true → input.provides b = true → Comparable a b)
    (hboth : ∃ a ∈ infos, input.provides a = true ∧ ¬ Comparable a info) :
    ¬ Recognises .none (SelfJoin.turn .none run info) := by
  obtain ⟨a, ha, hpa, hnot⟩ := hboth
  obtain ⟨b, hb, hba⟩ := h.provided a ha hpa
  have hnew : ¬ Present SelectInfo.column run.2.requiredIUs info.column := by
    rintro ⟨c, hc, hci⟩
    have hac : Comparable a c := hpairs a ha c (h.asked c hc).1 hpa (h.asked c hc).2
    rw [Comparable, hci] at hac
    exact hnot hac
  have hlost := h.sorted.count_emplace_eq_false SelectInfo.less_iff hnew
    ⟨b, hb, fun hle => hnot (.inl (hba ▸ hle)), fun hge => hnot (.inr (hba ▸ hge))⟩
  have hcount : count SelectInfo.less info run.2.requiredIUs = false :=
    Bool.eq_false_iff.mpr fun hc => hnew ((h.count_iff info).mp hc)
  obtain ⟨state, hturn⟩ := turn_provided .none hcount hprovides
  intro hrec
  rw [hturn] at hrec
  have hcounted := hrec.counted info (by simp)
  rw [hlost] at hcounted
  cases hcounted

/-- However the tree is balanced: exactly where any two required columns are comparable. -/
theorem recognises_required_iff (input : Input) (state : input.State) (infos : List SelectInfo) :
    (∀ balance before, before <+: infos → Recognises balance (requireAll balance state before)) ↔
      ∀ a ∈ infos, ∀ b ∈ infos, input.provides a = true → input.provides b = true → Comparable a b := by
  constructor
  · intro hrec
    induction infos using List.reverseRecOn with
    | nil => simp
    | append_singleton infos info ih =>
      have hpairs := ih fun balance before hb => hrec balance before (hb.trans (List.prefix_append ..))
      have hkept : Kept infos (requireAll .none state infos) := kept_requireAll hpairs
      have hlast := hrec .none _ (List.prefix_refl (infos ++ [info]))
      rw [requireAll_append] at hlast
      have hinfo : input.provides info = true → ∀ a ∈ infos, input.provides a = true → Comparable a info := by
        intro hi a ha hp
        by_contra hnot
        exact hkept.lost hi hpairs ⟨a, ha, hp, hnot⟩ hlast
      simp only [List.mem_append, List.mem_singleton]
      rintro a (ha | rfl) b (hb | rfl) hpa hpb
      · exact hpairs a ha b hb hpa hpb
      · exact hinfo hpb a ha hpa
      · exact (hinfo hpa b hb hpb).symm
      · exact .inl le_rfl
  · intro hcomp balance before hb
    exact (kept_requireAll fun a ha b hb' => hcomp a (hb.subset ha) b (hb.subset hb')).recognises

/-- The input has every column; binding 1 is asked for first and then a higher column of binding 0. -/
theorem not_recognised : ¬ ∀ (input : Input) (state : input.State) (infos : List SelectInfo)
    (balance : Balance SelectInfo) (before : List SelectInfo), before <+: infos →
      Recognises balance (requireAll balance state before) := by
  intro h
  have hrec := h ⟨Unit, fun _ _ => (true, ()), fun _ => true, fun _ _ => rfl⟩ () [⟨1, 1, 0⟩, ⟨0, 0, 1⟩] .none
    [⟨1, 1, 0⟩, ⟨0, 0, 1⟩] (List.prefix_refl _)
  have hcounted := hrec.counted ⟨0, 0, 1⟩ (by decide)
  revert hcounted
  decide

end SelfJoin

end Query
