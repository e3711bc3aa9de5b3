import Mathlib.Data.List.Basic
import Mathlib.Data.BitVec

/-!
# Loops that may have no result

Loops whose turns all have one, and computations that have the same result for every large
enough fuel.
-/
namespace Loops

universe u
variable {ι : Type*} {α β σ : Type u}

theorem bind_some (a : α) (f : α → Option β) : (some a >>= f) = f a := rfl

theorem mapM_eq_pure {m : Type u → Type*} [Monad m] [LawfulMonad m] {f : ι → m β} {g : ι → β}
    {xs : List ι} (h : ∀ x ∈ xs, f x = pure (g x)) : xs.mapM f = pure (xs.map g) := by
  induction xs with
  | nil => rfl
  | cons x xs ih =>
    rw [List.mapM_cons, h x (by simp), ih fun x hx => h x (by simp [hx])]
    simp

theorem mapM_eq_some {f : ι → Option β} {g : ι → β} {xs : List ι}
    (h : ∀ x ∈ xs, f x = some (g x)) : xs.mapM f = some (xs.map g) := mapM_eq_pure h

/-- What each element is read back from, all of them are. -/
theorem mapM_print {read : β → Option ι} {print : ι → β} (h : ∀ x, read (print x) = some x)
    (xs : List ι) : (xs.map print).mapM read = some xs := by
  rw [List.mapM_map]
  refine (mapM_eq_some (g := fun x => x) fun x _ => h x).trans ?_
  rw [List.map_id']

theorem foldlM_eq_some {step : σ → ι → Option σ} (next : σ → ι → σ) {xs : List ι}
    (h : ∀ x ∈ xs, ∀ s, step s x = some (next s x)) (s : σ) :
    xs.foldlM step s = some (xs.foldl next s) := by
  induction xs generalizing s with
  | nil => rfl
  | cons x xs ih =>
    rw [List.foldlM_cons, h x (by simp)]
    exact ih (fun x hx => h x (by simp [hx])) _

theorem ok_of_bind {ε : Type*} {x : Except ε α} {f : α → Except ε β} {b : β}
    (h : (x >>= f) = .ok b) : ∃ a, x = .ok a ∧ f a = .ok b := by
  cases x with
  | error e => cases h
  | ok a => exact ⟨a, rfl, h⟩

theorem foldlM_keeps {ε : Type*} {step : σ → ι → Except ε σ} {I : σ → Prop}
    (hstep : ∀ x s s', step s x = .ok s' → I s → I s') {xs : List ι} {s s' : σ}
    (h : xs.foldlM step s = .ok s') (hs : I s) : I s' := by
  induction xs generalizing s with
  | nil => cases h; exact hs
  | cons x xs ih =>
    rw [List.foldlM_cons] at h
    obtain ⟨s₁, hturn, hrest⟩ := ok_of_bind h
    exact ih hrest (hstep x s s₁ hturn hs)

/-- What the turns that have a result keep, the loop keeps. -/
theorem foldlM_some_keeps {step : σ → ι → Option σ} {I : σ → Prop}
    (hstep : ∀ x s s', step s x = some s' → I s → I s') {xs : List ι} {s s' : σ}
    (h : xs.foldlM step s = some s') (hs : I s) : I s' := by
  induction xs generalizing s with
  | nil => cases h; exact hs
  | cons x xs ih =>
    rw [List.foldlM_cons] at h
    obtain ⟨s₁, hturn, hrest⟩ := Option.bind_eq_some_iff.mp h
    exact ih hrest (hstep x s s₁ hturn hs)

/-- In a loop that has a result every turn has one. -/
theorem foldlM_turns {step : σ → ι → Option σ} {xs : List ι} {s s' : σ}
    (h : xs.foldlM step s = some s') : ∀ x ∈ xs, ∃ a b, step a x = some b := by
  induction xs generalizing s with
  | nil => simp
  | cons x xs ih =>
    rw [List.foldlM_cons] at h
    obtain ⟨s₁, hturn, hrest⟩ := Option.bind_eq_some_iff.mp h
    exact List.forall_mem_cons.mpr ⟨⟨s, s₁, hturn⟩, ih hrest⟩

theorem mapM_yields {ε : Type*} {f : ι → Except ε β} {xs : List ι} {ys : List β}
    (h : xs.mapM f = .ok ys) : ∀ y ∈ ys, ∃ x ∈ xs, f x = .ok y := by
  induction xs generalizing ys with
  | nil => cases h; simp
  | cons x xs ih =>
    rw [List.mapM_cons] at h
    obtain ⟨y, hx, h⟩ := ok_of_bind h
    obtain ⟨ys', hxs, h⟩ := ok_of_bind h
    cases h
    rintro z (_ | ⟨_, hz⟩)
    · exact ⟨x, List.mem_cons_self, hx⟩
    · obtain ⟨x', hx', hfx⟩ := ih hxs z hz
      exact ⟨x', List.mem_cons_of_mem x hx', hfx⟩

theorem error_of_bind {ε : Type*} {x : Except ε α} {f : α → Except ε β} {e : ε}
    (h : (x >>= f) = .error e) : x = .error e ∨ ∃ a, x = .ok a ∧ f a = .error e := by
  cases x with
  | error e' => cases h; exact .inl rfl
  | ok a => exact .inr ⟨a, rfl, h⟩

theorem bind_ne_error_iff {ε : Type*} {x : Except ε α} {f : α → Except ε β} {e : ε} :
    (x >>= f) ≠ .error e ↔ x ≠ .error e ∧ ∀ a, x = .ok a → f a ≠ .error e := by
  constructor
  · intro h
    constructor
    · rintro rfl
      exact h rfl
    · rintro a rfl
      exact h
  · rintro ⟨hx, hf⟩ h
    rcases error_of_bind h with hstop | ⟨a, ha, hstop⟩
    · exact hx hstop
    · exact hf a ha hstop

theorem mapM_turns {ε : Type*} {f : ι → Except ε β} {xs : List ι} {ys : List β}
    (h : xs.mapM f = .ok ys) : ∀ x ∈ xs, ∃ y, f x = .ok y := by
  induction xs generalizing ys with
  | nil => simp
  | cons x xs ih =>
    rw [List.mapM_cons] at h
    obtain ⟨y, hx, h⟩ := ok_of_bind h
    obtain ⟨ys', hxs, _⟩ := ok_of_bind h
    exact List.forall_mem_cons.mpr ⟨⟨y, hx⟩, ih hxs⟩

theorem mapM_stops {ε : Type*} {f : ι → Except ε β} {xs : List ι} {e : ε}
    (h : xs.mapM f = .error e) : ∃ x ∈ xs, f x = .error e := by
  induction xs with
  | nil => cases h
  | cons x xs ih =>
    rw [List.mapM_cons] at h
    rcases error_of_bind h with hx | ⟨y, _, h⟩
    · exact ⟨x, List.mem_cons_self, hx⟩
    rcases error_of_bind h with hxs | ⟨ys, _, h⟩
    · obtain ⟨x', hmem, hx'⟩ := ih hxs
      exact ⟨x', List.mem_cons_of_mem x hmem, hx'⟩
    · cases h

/-- The first element that is not good is bad. -/
def FirstBad (good bad : ι → Prop) (xs : List ι) : Prop :=
  ∃ before x after, xs = before ++ x :: after ∧ (∀ y ∈ before, good y) ∧ bad x

theorem firstBad_cons {good bad : ι → Prop} {x : ι} {xs : List ι} :
    FirstBad good bad (x :: xs) ↔ bad x ∨ good x ∧ FirstBad good bad xs := by
  constructor
  · rintro ⟨before, y, after, he, hbefore, hy⟩
    cases before with
    | nil =>
      obtain ⟨rfl, rfl⟩ := List.cons.inj he
      exact .inl hy
    | cons z before =>
      obtain ⟨rfl, rfl⟩ := List.cons.inj he
      exact .inr ⟨hbefore x List.mem_cons_self, before, y, after, rfl,
        fun z hz => hbefore z (List.mem_cons_of_mem x hz), hy⟩
  · rintro (hx | ⟨hx, before, y, after, rfl, hbefore, hy⟩)
    · exact ⟨[], x, xs, rfl, by simp, hx⟩
    · exact ⟨x :: before, y, after, rfl, List.forall_mem_cons.mpr ⟨hx, hbefore⟩, hy⟩

/-- Where the element decides whether a turn has a result, all elements decide it for the loop. -/
theorem foldlM_ok_iff {ε : Type*} {step : σ → ι → Except ε σ} {good : ι → Prop}
    (hgood : ∀ s x, (∃ s', step s x = .ok s') ↔ good x) (xs : List ι) (s : σ) :
    (∃ s', xs.foldlM step s = .ok s') ↔ ∀ x ∈ xs, good x := by
  induction xs generalizing s with
  | nil => exact ⟨fun _ => by simp, fun _ => ⟨s, rfl⟩⟩
  | cons x xs ih =>
    rw [List.foldlM_cons, List.forall_mem_cons]
    constructor
    · rintro ⟨s', h⟩
      obtain ⟨s₁, hturn, hrest⟩ := ok_of_bind h
      exact ⟨(hgood s x).mp ⟨s₁, hturn⟩, (ih s₁).mp ⟨s', hrest⟩⟩
    · rintro ⟨hx, hxs⟩
      obtain ⟨s₁, hturn⟩ := (hgood s x).mpr hx
      rw [hturn]
      exact (ih s₁).mpr hxs

theorem foldlM_error_iff {ε : Type*} {step : σ → ι → Except ε σ} {good bad : ι → Prop} {e : ε}
    (hgood : ∀ s x, (∃ s', step s x = .ok s') ↔ good x)
    (hbad : ∀ s x, step s x = .error e ↔ bad x) (xs : List ι) (s : σ) :
    xs.foldlM step s = .error e ↔ FirstBad good bad xs := by
  induction xs generalizing s with
  | nil =>
    constructor
    · intro h
      cases h
    · rintro ⟨before, x, after, he, _⟩
      cases before <;> cases he
  | cons x xs ih =>
    rw [List.foldlM_cons, firstBad_cons]
    constructor
    · intro h
      rcases error_of_bind h with hx | ⟨s₁, hturn, hrest⟩
      · exact .inl ((hbad s x).mp hx)
      · exact .inr ⟨(hgood s x).mp ⟨s₁, hturn⟩, (ih s₁).mp hrest⟩
    · rintro (hx | ⟨hx, hxs⟩)
      · rw [(hbad s x).mpr hx]
        rfl
      · obtain ⟨s₁, hturn⟩ := (hgood s x).mpr hx
        rw [hturn]
        exact (ih s₁).mpr hxs

/-- What each turn adds to a set, the loop adds for all its elements. -/
theorem foldlM_collects {ε γ : Type*} {step : σ → ι → Except ε σ} {held : σ → γ → Prop}
    {adds : ι → γ → Prop} {xs : List ι} {s s' : σ} (h : xs.foldlM step s = .ok s')
    (hstep : ∀ s x s', step s x = .ok s' → ∀ c, held s' c ↔ held s c ∨ adds x c) (c : γ) :
    held s' c ↔ held s c ∨ ∃ x ∈ xs, adds x c := by
  induction xs generalizing s with
  | nil => cases h; simp
  | cons x xs ih =>
    rw [List.foldlM_cons] at h
    obtain ⟨s₁, hturn, hrest⟩ := ok_of_bind h
    rw [ih hrest, hstep s x s₁ hturn, List.exists_mem_cons_iff, or_assoc]

theorem foldl_and (q : ι → Bool) (xs : List ι) (pass : Bool) :
    xs.foldl (fun pass x => pass && q x) pass = (pass && xs.all q) := by
  induction xs generalizing pass with
  | nil => rw [List.foldl_nil, List.all_nil, Bool.and_true]
  | cons x xs ih => rw [List.foldl_cons, ih, List.all_cons, Bool.and_assoc]

theorem flatMap_ite (q : ι → Bool) (xs : List ι) :
    xs.flatMap (fun x => if q x then [x] else []) = xs.filter q := by
  induction xs with
  | nil => rfl
  | cons x xs ih =>
    rw [List.flatMap_cons, ih, List.filter_cons]
    by_cases hx : q x = true <;> simp [hx]

theorem all_congr_mem {q q' : ι → Bool} {xs : List ι} (h : ∀ x ∈ xs, q x = q' x) : xs.all q = xs.all q' := by
  induction xs with
  | nil => rfl
  | cons x xs ih => rw [List.all_cons, List.all_cons, h x List.mem_cons_self,
      ih fun y hy => h y (List.mem_cons_of_mem x hy)]

/-- A list as a loop over its indices. -/
theorem map_range_getD (xs : List ι) (default : ι) :
    (List.range xs.length).map (fun i => xs.getD i default) = xs := by
  refine List.ext_getElem (by simp) fun i _ hi => ?_
  rw [List.getElem_map, List.getElem_range, List.getD_eq_getElem?_getD, List.getElem?_eq_getElem hi]
  rfl

def Returns (f : Nat → Option α) (a : α) : Prop := ∃ n, ∀ fuel, n ≤ fuel → f fuel = some a

theorem Returns.const {o : Option α} {a : α} (h : o = some a) : Returns (fun _ => o) a :=
  ⟨0, fun _ _ => h⟩

theorem Returns.bind {f : Nat → Option α} {g : Nat → α → Option β} {a : α} {b : β}
    (hf : Returns f a) (hg : Returns (g · a) b) : Returns (fun fuel => f fuel >>= g fuel) b := by
  obtain ⟨n, hn⟩ := hf
  obtain ⟨m, hm⟩ := hg
  refine ⟨max n m, fun fuel hle => ?_⟩
  show f fuel >>= g fuel = some b
  rw [hn fuel (by omega)]
  exact hm fuel (by omega)

theorem Returns.map {β : Type*} {f : Nat → Option α} {a : α} (h : Returns f a) (g : α → β) :
    Returns (fun fuel => (f fuel).map g) (g a) := by
  obtain ⟨n, hn⟩ := h
  refine ⟨n, fun fuel hle => ?_⟩
  show (f fuel).map g = some (g a)
  rw [hn fuel hle, Option.map_some]

theorem Returns.succ {f : Nat → Option α} {a : α} (h : Returns (fun fuel => f (fuel + 1)) a) :
    Returns f a := by
  obtain ⟨n, hn⟩ := h
  refine ⟨n + 1, fun fuel hle => ?_⟩
  obtain ⟨k, rfl⟩ : ∃ k, fuel = k + 1 := ⟨fuel - 1, by omega⟩
  exact hn k (by omega)

/-- A loop whose turns have results that keep an invariant of the elements done so far. -/
theorem Returns.foldlM {step : Nat → σ → ι → Option σ} {I : List ι → σ → Prop} {xs : List ι}
    {s : σ} (hs : I [] s)
    (hstep : ∀ before x after, xs = before ++ x :: after → ∀ s, I before s →
      ∃ s', Returns (step · s x) s' ∧ I (before ++ [x]) s') :
    ∃ s', Returns (fun fuel => xs.foldlM (step fuel) s) s' ∧ I xs s' := by
  suffices hgo : ∀ before after, xs = before ++ after → ∀ s, I before s →
      ∃ s', Returns (fun fuel => after.foldlM (step fuel) s) s' ∧ I xs s' from hgo [] xs rfl s hs
  intro before after
  induction after generalizing before with
  | nil =>
    intro he s hs
    rw [List.append_nil] at he
    exact ⟨s, .const rfl, by rwa [he]⟩
  | cons x after ih =>
    intro he s hs
    obtain ⟨s₁, hret, hs₁⟩ := hstep before x after he s hs
    obtain ⟨s₂, hret₂, hs₂⟩ := ih (before ++ [x]) (by rw [he, List.append_assoc]; rfl) s₁ hs₁
    exact ⟨s₂, hret.bind hret₂, hs₂⟩

/-- A loop that counts up to a bound with a counter of fixed width, which wraps around. -/
def countUp {w : Nat} (bound : Nat) (body : Nat → σ → Option σ) : Nat → BitVec w → σ → Option σ
  | 0, _, _ => none
  | fuel + 1, i, s =>
    if i.toNat < bound then body i.toNat s >>= countUp bound body fuel (i + 1#w) else some s

/-- A bound that the counter can hold is reached. -/
theorem Returns.countUp {w bound : Nat} (hb : bound < 2 ^ w) {body : Nat → σ → Option σ}
    {I : Nat → σ → Prop} {s : σ} (hs : I 0 s)
    (hbody : ∀ i < bound, ∀ s, I i s → ∃ s', body i s = some s' ∧ I (i + 1) s') :
    ∃ s', Returns (fun fuel => countUp bound body fuel (0 : BitVec w) s) s' ∧ I bound s' := by
  suffices hgo : ∀ left (i : BitVec w), i.toNat + left = bound → ∀ s, I i.toNat s →
      ∃ s', Returns (fun fuel => Loops.countUp bound body fuel i s) s' ∧ I bound s' from
    hgo bound 0 (by simp) s (by simpa using hs)
  intro left
  induction left with
  | zero =>
    intro i hi s hs
    have hend : i.toNat = bound := by omega
    refine ⟨s, ⟨1, fun fuel hle => ?_⟩, hend ▸ hs⟩
    obtain ⟨k, rfl⟩ : ∃ k, fuel = k + 1 := ⟨fuel - 1, by omega⟩
    exact if_neg (by omega)
  | succ left ih =>
    intro i hi s hs
    have hlt : i.toNat < bound := by omega
    have hnext : (i + 1#w).toNat = i.toNat + 1 := by
      rw [BitVec.toNat_add, BitVec.toNat_ofNat, Nat.add_mod_mod]
      exact Nat.mod_eq_of_lt (by omega)
    obtain ⟨s₁, hturn, hs₁⟩ := hbody i.toNat hlt s hs
    obtain ⟨s₂, hret, hs₂⟩ := ih (i + 1#w) (by omega) s₁ (hnext ▸ hs₁)
    refine ⟨s₂, .succ ?_, hs₂⟩
    have hfirst : ∀ fuel, Loops.countUp bound body (fuel + 1) i s =
        Loops.countUp bound body fuel (i + 1#w) s₁ := fun fuel => by
      rw [Loops.countUp, if_pos hlt, hturn]
      rfl
    simpa only [hfirst] using hret

/-- The counter never gets to a bound that it cannot hold. -/
theorem countUp_endless {w bound : Nat} (hb : 2 ^ w ≤ bound) (body : Nat → σ → Option σ)
    (fuel : Nat) (i : BitVec w) (s : σ) : countUp bound body fuel i s = none := by
  induction fuel generalizing i s with
  | zero => rfl
  | succ fuel ih =>
    rw [countUp, if_pos (by omega)]
    cases body i.toNat s with
    | none => rfl
    | some s' => exact ih (i + 1#w) s'

theorem Returns.congr {f g : Nat → Option α} {a : α} {m : Nat} (h : ∀ fuel, m ≤ fuel → f fuel = g fuel) :
    Returns f a ↔ Returns g a := by
  constructor
  · rintro ⟨n, hn⟩
    exact ⟨max m n, fun fuel hle => by rw [← h fuel (by omega), hn fuel (by omega)]⟩
  · rintro ⟨n, hn⟩
    exact ⟨max m n, fun fuel hle => by rw [h fuel (by omega), hn fuel (by omega)]⟩

theorem Returns.unique {f : Nat → Option α} {a b : α} (ha : Returns f a) (hb : Returns f b) :
    a = b := by
  obtain ⟨n, hn⟩ := ha
  obtain ⟨m, hm⟩ := hb
  have heq := (hn (max n m) (by omega)).symm.trans (hm (max n m) (by omega))
  exact Option.some.inj heq

theorem countUp_eq_foldlM {w bound fuel : Nat} (hb : bound < 2 ^ w) (hf : bound < fuel)
    (body : Nat → σ → Option σ) (s : σ) :
    countUp bound body fuel (0 : BitVec w) s = (List.range bound).foldlM (fun s i => body i s) s := by
  suffices hgo : ∀ left fuel (i : BitVec w) (s : σ), i.toNat + left = bound → left < fuel →
      countUp bound body fuel i s = (List.range' i.toNat left).foldlM (fun s i => body i s) s by
    rw [hgo bound fuel 0 s (by simp) hf, List.range_eq_range']
    rfl
  intro left
  induction left with
  | zero =>
    intro fuel i s hi hf
    obtain ⟨fuel, rfl⟩ : ∃ k, fuel = k + 1 := ⟨fuel - 1, by omega⟩
    exact if_neg (by omega)
  | succ left ih =>
    intro fuel i s hi hf
    obtain ⟨fuel, rfl⟩ : ∃ k, fuel = k + 1 := ⟨fuel - 1, by omega⟩
    have hnext : (i + 1#w).toNat = i.toNat + 1 := by
      rw [BitVec.toNat_add, BitVec.toNat_ofNat, Nat.add_mod_mod]
      exact Nat.mod_eq_of_lt (by omega)
    rw [countUp, if_pos (by omega), List.range'_succ, List.foldlM_cons]
    refine congrArg (body i.toNat s >>= ·) (funext fun s' => ?_)
    rw [ih fuel (i + 1#w) s' (by omega) (by omega), hnext]

/-- The loop with as much fuel as it can need: after `2 ^ w` turns the counter is back at zero. -/
def countAll (w bound : Nat) (body : Nat → σ → Option σ) (s : σ) : Option σ :=
  countUp bound body (2 ^ w + 1) (0 : BitVec w) s

theorem countAll_eq_foldlM {w bound : Nat} (hb : bound < 2 ^ w) (body : Nat → σ → Option σ) (s : σ) :
    countAll w bound body s = (List.range bound).foldlM (fun s i => body i s) s :=
  countUp_eq_foldlM hb (by omega) body s

theorem countAll_endless {w bound : Nat} (hb : 2 ^ w ≤ bound) (body : Nat → σ → Option σ) (s : σ) :
    countAll w bound body s = none := countUp_endless hb body _ _ s

/-- It has a result exactly if the loop comes to an end, and the same one. -/
theorem returns_countUp_iff {w bound : Nat} {body : Nat → σ → Option σ} {s s' : σ} :
    Returns (fun fuel => countUp bound body fuel (0 : BitVec w) s) s' ↔ countAll w bound body s = some s' := by
  by_cases hb : bound < 2 ^ w
  · rw [Returns.congr (g := fun _ => countAll w bound body s) (m := bound + 1) fun fuel hf => by
      rw [countUp_eq_foldlM hb hf, countAll_eq_foldlM hb]]
    exact ⟨fun ⟨n, hn⟩ => hn n le_rfl, .const⟩
  · rw [countAll_endless (not_lt.mp hb)]
    refine ⟨fun ⟨n, hn⟩ => ?_, fun h => nomatch h⟩
    exact absurd ((hn n le_rfl).symm.trans (countUp_endless (not_lt.mp hb) body n 0 s)) (Option.some_ne_none s')

/-- A loop over the positions of a list, each of which is looked up. -/
theorem foldlM_range_getElem? (xs : List α) (body : σ → α → Nat → Option σ) (s : σ) :
    (List.range xs.length).foldlM (fun s i => xs[i]? >>= fun x => body s x i) s =
      xs.zipIdx.foldlM (fun s entry => body s entry.1 entry.2) s := by
  suffices hgo : ∀ before after (s : σ), xs = before ++ after →
      (List.range' before.length after.length).foldlM (fun s i => xs[i]? >>= fun x => body s x i) s =
        (after.zipIdx before.length).foldlM (fun s entry => body s entry.1 entry.2) s by
    rw [List.range_eq_range']
    exact hgo [] xs s rfl
  intro before after
  induction after generalizing before with
  | nil => exact fun _ _ => rfl
  | cons x after ih =>
    intro s hxs
    have hget : xs[before.length]? = some x := by rw [hxs, List.getElem?_append_right le_rfl, Nat.sub_self]; rfl
    rw [List.length_cons, List.range'_succ, List.foldlM_cons, hget, List.zipIdx_cons, List.foldlM_cons]
    refine congrArg (body s x before.length >>= ·) (funext fun s' => ?_)
    have hrest := ih (before ++ [x]) s' (by rw [hxs, List.append_assoc]; rfl)
    rwa [List.length_append, List.length_singleton] at hrest

theorem foldlM_zipIdx (xs : List α) (body : σ → α → Option σ) (k : Nat) (s : σ) :
    (xs.zipIdx k).foldlM (fun s entry => body s entry.1) s = xs.foldlM body s := by
  conv_rhs => rw [← List.zipIdx_map_fst k xs, List.foldlM_map]

/-- A counted loop over a list that the counter can number. -/
theorem countAll_eq {w : Nat} {xs : List α} (hb : xs.length < 2 ^ w) (body : σ → α → Option σ) (s : σ) :
    countAll w xs.length (fun i s => xs[i]? >>= body s) s = xs.foldlM body s := by
  rw [countAll_eq_foldlM hb, foldlM_range_getElem? xs fun s x _ => body s x]
  exact foldlM_zipIdx xs body 0 s

end Loops
