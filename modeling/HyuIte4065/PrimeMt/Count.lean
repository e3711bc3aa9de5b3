import HyuIte4065.Library.Loops
import HyuIte4065.PrimeMt.Split
import Mathlib.Algebra.Order.BigOperators.Group.Finset
import Mathlib.Data.Nat.Prime.Basic
import Mathlib.Order.Interval.Finset.Nat

/-!
# Counting primes with several threads

`prime_mt.cpp`: trial division, the count of each thread, and the sum of the counts. The loops
take fuel; a thread writes only its own element of `thread_ret`, and the main thread reads the
elements after all threads have ended.
-/
namespace PrimeMt

open Borders Loops

/-- The loop of `IsPrime`, where `i <= sqrt(n)` is taken exactly. -/
def trialLoop (n : Int) : Nat → Int → Option Bool
  | 0, _ => none
  | fuel + 1, i =>
    if i * i ≤ n then
      if n.tmod i = 0 then some false else int (i + 1) >>= trialLoop n fuel
    else some true

def isPrime (fuel : Nat) (n : Int) : Option Bool :=
  if n < 2 then some false else trialLoop n fuel 2

/-- The loop of `ThreadFunc`; `cnt_prime` is a `long`. -/
def countLoop (stop : Int) : Nat → Int → Int → Option Int
  | 0, _, _ => none
  | fuel + 1, i, cntPrime =>
    if i < stop then do
      let cntPrime ← if ← isPrime fuel i then long (cntPrime + 1) else some cntPrime
      let i ← int (i + 1)
      countLoop stop fuel i cntPrime
    else some cntPrime

/-- What a thread stores into its element of `thread_ret`. -/
def threadFunc (fuel : Nat) (rangeStart rangeEnd : Int) (tid : Nat) : Option Int := do
  let (start, stop) ← splitRange rangeStart rangeEnd tid
  let cntPrime ← countLoop stop fuel start 0
  int cntPrime

/-- `thread_ret` after all threads have ended, in the order in which they have stored their counts. -/
def runThreads (fuel : Nat) (rangeStart rangeEnd : Int) (order : List Nat) (threadRet : Nat → Int) :
    Option (Nat → Int) :=
  order.foldlM (fun threadRet tid => do
    let cntPrime ← threadFunc fuel rangeStart rangeEnd tid
    return Function.update threadRet tid cntPrime) threadRet

def collect (threadRet : Nat → Int) : Option Int :=
  (List.range numThread).foldlM (fun cntPrime i => int (cntPrime + threadRet i)) 0

/-- The number that `main` prints for a range. -/
def countPrimes (fuel : Nat) (rangeStart rangeEnd : Int) (order : List Nat) (threadRet : Nat → Int) : Option Int := do
  let threadRet ← runThreads fuel rangeStart rangeEnd order threadRet
  collect threadRet

/-- The primes from `a` up to, but not including, `b`. -/
noncomputable def primes (a b : Int) : Nat := ((Finset.Ico a b).filter fun n => n.toNat.Prime).card

variable {n i stop : Int} {rangeStart rangeEnd : Int} {m k : Nat}

theorem tmod_eq_zero_iff : (m : Int).tmod k = 0 ↔ k ∣ m := by
  rw [← Int.dvd_iff_tmod_eq_zero, Int.natCast_dvd_natCast]

/-- Trial division from `k` on decides whether one of the numbers from there to the root divides. -/
theorem returns_trialLoop (hm : m < 2 ^ 31) (hroot : k ≤ m.sqrt + 1) :
    Returns (trialLoop m · k) (decide (∀ d ∈ Finset.Icc k m.sqrt, ¬ d ∣ m)) := by
  induction hrest : m.sqrt + 1 - k generalizing k with
  | zero =>
    obtain rfl : k = m.sqrt + 1 := by omega
    have hlt : m < (m.sqrt + 1) * (m.sqrt + 1) := Nat.lt_succ_sqrt m
    have hnone : ∀ d ∈ Finset.Icc (m.sqrt + 1) m.sqrt, ¬ d ∣ m := by
      intro d hd
      rw [Finset.mem_Icc] at hd
      omega
    refine .succ ⟨0, fun fuel _ => ?_⟩
    rw [decide_eq_true hnone]
    exact if_neg (by exact_mod_cast hlt.not_ge)
  | succ r ih =>
    have hle : k * k ≤ m := Nat.le_sqrt.mp (by omega)
    have hk : (k : Int) + 1 < 2 ^ 31 := by
      rcases Nat.lt_or_ge k 2 with hk | hk
      · omega
      · have hself : 2 * k ≤ k * k := Nat.mul_le_mul_right k hk
        omega
    have hcase : ∀ fuel, trialLoop m (fuel + 1) k =
        if k ∣ m then some false else trialLoop m fuel (k + 1 : Nat) := by
      intro fuel
      rw [trialLoop, if_pos (by exact_mod_cast hle), int_eq (by omega) hk]
      exact if_congr tmod_eq_zero_iff rfl rfl
    by_cases hdvd : k ∣ m
    · have hsome : ¬ ∀ d ∈ Finset.Icc k m.sqrt, ¬ d ∣ m := fun h =>
        h k (Finset.mem_Icc.mpr ⟨le_rfl, by omega⟩) hdvd
      refine .succ ⟨0, fun fuel _ => ?_⟩
      rw [decide_eq_false hsome]
      exact (hcase fuel).trans (if_pos hdvd)
    · have hsame : (∀ d ∈ Finset.Icc (k + 1) m.sqrt, ¬ d ∣ m) ↔ ∀ d ∈ Finset.Icc k m.sqrt, ¬ d ∣ m := by
        simp only [Finset.mem_Icc]
        constructor
        · intro h d hd
          rcases Nat.eq_or_lt_of_le hd.1 with rfl | hlt
          · exact hdvd
          · exact h d ⟨hlt, hd.2⟩
        · exact fun h d hd => h d ⟨by omega, hd.2⟩
      have hrec := ih (k := k + 1) (by omega) (by omega)
      rw [decide_eq_decide.mpr hsame] at hrec
      refine .succ ?_
      simp only [hcase, if_neg hdvd]
      exact hrec

theorem returns_isPrime (h₀ : 0 ≤ n) (h₁ : n < 2 ^ 31) : Returns (isPrime · n) (decide n.toNat.Prime) := by
  obtain ⟨m, rfl⟩ := Int.eq_ofNat_of_zero_le h₀
  rw [Int.toNat_natCast]
  by_cases hm : m < 2
  · have hnot : ¬ m.Prime := fun h => absurd h.two_le hm.not_ge
    refine ⟨0, fun fuel _ => ?_⟩
    rw [decide_eq_false hnot]
    exact if_pos (by exact_mod_cast hm)
  · have hprime : (∀ d ∈ Finset.Icc 2 m.sqrt, ¬ d ∣ m) ↔ m.Prime := by
      simp only [Nat.prime_def_le_sqrt, Finset.mem_Icc, and_imp]
      exact (and_iff_right (by omega)).symm
    have hroot : 1 ≤ m.sqrt := Nat.le_sqrt.mpr (by omega)
    have hloop := returns_trialLoop (m := m) (k := 2) (by exact_mod_cast h₁) (by omega)
    rw [decide_eq_decide.mpr hprime] at hloop
    have hge : ¬ (m : Int) < 2 := by exact_mod_cast hm
    simp only [isPrime, if_neg hge]
    exact hloop

theorem primes_of_ge (h : stop ≤ i) : primes i stop = 0 := by
  rw [primes, Finset.Ico_eq_empty h.not_gt]
  rfl

theorem primes_next (h : i < stop) : primes i stop = (if i.toNat.Prime then 1 else 0) + primes (i + 1) stop := by
  have hcons : Finset.Ico i stop = insert i (Finset.Ico (i + 1) stop) := by
    ext x
    simp only [Finset.mem_insert, Finset.mem_Ico]
    omega
  have hnot : i ∉ (Finset.Ico (i + 1) stop).filter fun n => n.toNat.Prime := by
    simp only [Finset.mem_filter, Finset.mem_Ico]
    omega
  rw [primes, hcons, Finset.filter_insert]
  by_cases hp : i.toNat.Prime
  · rw [if_pos hp, if_pos hp, Finset.card_insert_of_notMem hnot, add_comm, primes]
  · rw [if_neg hp, if_neg hp, zero_add, primes]

/-- There are no more primes than numbers. -/
theorem primes_le (a b : Int) : (primes a b : Int) ≤ max 0 (b - a) := by
  have hcard : primes a b ≤ (b - a).toNat := by
    rw [← Int.card_Ico]
    exact Finset.card_filter_le _ _
  omega

theorem returns_countLoop {cntPrime : Int} (h₀ : 0 ≤ i) (hstop : stop < 2 ^ 31) (hc : 0 ≤ cntPrime)
    (hle : cntPrime ≤ i) : Returns (countLoop stop · i cntPrime) (cntPrime + primes i stop) := by
  induction hrest : (stop - i).toNat generalizing i cntPrime with
  | zero =>
    have hge : stop ≤ i := by omega
    refine .succ ⟨0, fun fuel _ => ?_⟩
    rw [primes_of_ge hge, Nat.cast_zero, add_zero]
    exact if_neg hge.not_gt
  | succ r ih =>
    have hlt : i < stop := by omega
    have hstep : ∀ fuel, countLoop stop (fuel + 1) i cntPrime = isPrime fuel i >>= fun p =>
        countLoop stop fuel (i + 1) (cntPrime + if p then 1 else 0) := by
      intro fuel
      rw [countLoop, if_pos hlt, int_eq (by omega) (by omega)]
      refine bind_congr fun p => ?_
      cases p with
      | false => simp
      | true => simp [long_eq (show -2 ^ 63 ≤ cntPrime + 1 by omega) (by omega)]
    have hturn : 0 ≤ cntPrime + (if decide i.toNat.Prime then 1 else 0) ∧
        cntPrime + (if decide i.toNat.Prime then 1 else 0) ≤ i + 1 := by
      split <;> omega
    have hrec := ih (i := i + 1) (by omega) hturn.1 hturn.2 (by omega)
    have hsum : cntPrime + (if decide i.toNat.Prime then 1 else 0) + (primes (i + 1) stop : Int) =
        cntPrime + primes i stop := by
      rw [primes_next hlt]
      by_cases hp : i.toNat.Prime
      · simp only [hp, decide_true, if_true]
        omega
      · simp only [hp, decide_false, if_false, Bool.false_eq_true]
        omega
    rw [hsum] at hrec
    refine .succ ?_
    simp only [hstep]
    exact (returns_isPrime h₀ (by omega)).bind hrec

section
variable (hs : 0 ≤ rangeStart) (hs' : rangeStart < 2 ^ 31 - 1) (he : 0 ≤ rangeEnd) (he' : rangeEnd < 2 ^ 31 - 1)
include hs hs' he he'

theorem returns_threadFunc {tid : Nat} (htid : tid < numThread) :
    Returns (threadFunc · rangeStart rangeEnd tid)
      (primes (evenBorder numThread rangeStart rangeEnd tid)
        (evenBorder numThread rangeStart rangeEnd (tid + 1))) := by
  have hstart := evenBorder_between rangeStart rangeEnd htid.le
  have hstop := evenBorder_between rangeStart rangeEnd (k := tid + 1) htid
  have hle := primes_le (evenBorder numThread rangeStart rangeEnd tid)
      (evenBorder numThread rangeStart rangeEnd (tid + 1))
  have hloop : Returns
      (countLoop (evenBorder numThread rangeStart rangeEnd (tid + 1)) ·
        (evenBorder numThread rangeStart rangeEnd tid) 0)
      (0 + primes (evenBorder numThread rangeStart rangeEnd tid)
        (evenBorder numThread rangeStart rangeEnd (tid + 1))) :=
    returns_countLoop (by omega) (by omega) le_rfl (by omega)
  rw [zero_add] at hloop
  simp only [threadFunc, splitRange_eq hs (by omega) he he' htid, Option.bind_eq_bind, Option.bind_some]
  exact hloop.bind (.const (int_eq (by omega) (by omega)))

/-- Every thread has stored its count, in whatever order. -/
theorem returns_runThreads {order : List Nat} (horder : order.Perm (List.range numThread)) (threadRet : Nat → Int) :
    ∃ threadRet', Returns (runThreads · rangeStart rangeEnd order threadRet) threadRet' ∧ ∀ tid < numThread,
      threadRet' tid = primes (evenBorder numThread rangeStart rangeEnd tid)
          (evenBorder numThread rangeStart rangeEnd (tid + 1)) := by
  have hfold : ∃ threadRet', Returns (runThreads · rangeStart rangeEnd order threadRet) threadRet' ∧ ∀ tid ∈ order,
      threadRet' tid = primes (evenBorder numThread rangeStart rangeEnd tid)
          (evenBorder numThread rangeStart rangeEnd (tid + 1)) := by
    refine Returns.foldlM (I := fun before (threadRet : Nat → Int) => ∀ tid ∈ before, threadRet tid =
      primes (evenBorder numThread rangeStart rangeEnd tid) (evenBorder numThread rangeStart rangeEnd (tid + 1))) nofun
      fun before tid after hsplit threadRet hbefore => ?_
    have htid : tid < numThread := by
      have hmem : tid ∈ order := by simp [hsplit]
      exact List.mem_range.mp (horder.mem_iff.mp hmem)
    refine ⟨_, (returns_threadFunc hs hs' he he' htid).bind (.const rfl), fun u hu => ?_⟩
    by_cases hut : u = tid
    · rw [hut, Function.update_self]
    · rw [Function.update_of_ne hut]
      exact hbefore u ((List.mem_append.mp hu).resolve_right fun h => hut (List.mem_singleton.mp h))
  obtain ⟨threadRet', hret, hinv⟩ := hfold
  refine ⟨threadRet', hret, fun tid htid => hinv tid ?_⟩
  exact horder.mem_iff.mpr (List.mem_range.mpr htid)

end

theorem collect_eq {threadRet : Nat → Int} {c : Nat → Nat} (hret : ∀ tid < numThread, threadRet tid = c tid)
    (hsum : ∑ tid ∈ Finset.range numThread, c tid < 2 ^ 31) :
    collect threadRet = some (∑ tid ∈ Finset.range numThread, c tid : Nat) := by
  have hgo : ∀ n ≤ numThread, (List.range n).foldlM (fun cntPrime i => int (cntPrime + threadRet i)) 0 =
      some ((∑ tid ∈ Finset.range n, c tid : Nat) : Int) := by
    intro n hn
    induction n with
    | zero => rfl
    | succ n ih =>
      have hpart : ∑ tid ∈ Finset.range (n + 1), c tid ≤ ∑ tid ∈ Finset.range numThread, c tid :=
        Finset.sum_le_sum_of_subset (Finset.range_subset_range.mpr hn)
      rw [List.range_succ, List.foldlM_append, ih (by omega), Option.bind_eq_bind, Option.bind_some, List.foldlM_cons,
        hret n hn, ← Nat.cast_add, ← Finset.sum_range_succ, int_eq (by omega) (by omega)]
      rfl
  exact hgo numThread le_rfl

/-- The parts of the threads are disjoint and make up the range, nothing overflows, and the sum of
the counts is the number of primes of the range, in whatever order the threads end. -/
theorem primes_counted_once (rangeStart rangeEnd : Int) (hs : 0 ≤ rangeStart ∧ rangeStart < 2 ^ 31 - 1)
    (he : 0 ≤ rangeEnd ∧ rangeEnd < 2 ^ 31 - 1) :
    ∃ start stop : Nat → Int,
      (∀ tid < numThread, splitRange rangeStart rangeEnd tid = some (start tid, stop tid)) ∧
      ((Set.Iio numThread).PairwiseDisjoint fun tid => Set.Ico (start tid) (stop tid)) ∧
      ⋃ tid ∈ Set.Iio numThread, Set.Ico (start tid) (stop tid) = Set.Icc rangeStart rangeEnd ∧
      ∀ order, order.Perm (List.range numThread) → ∀ threadRet,
        Returns (countPrimes · rangeStart rangeEnd order threadRet)
          ((Finset.Icc rangeStart rangeEnd).filter fun n => n.toNat.Prime).card := by
  obtain ⟨hs, hs'⟩ := hs
  obtain ⟨he, he'⟩ := he
  refine ⟨evenBorder numThread rangeStart rangeEnd, fun tid => evenBorder numThread rangeStart rangeEnd (tid + 1),
    fun tid htid => splitRange_eq hs (by omega) he he' htid, parts_disjoint, parts_union,
      fun order horder threadRet => ?_⟩
  obtain ⟨threadRet', hret, hcounts⟩ := returns_runThreads hs hs' he he' horder threadRet
  have hcard := card_parts rangeStart rangeEnd fun n => n.toNat.Prime
  have hle : ((Finset.Icc rangeStart rangeEnd).filter fun n => n.toNat.Prime).card ≤
      (rangeEnd + 1 - rangeStart).toNat := by
    rw [← Int.card_Icc]
    exact Finset.card_filter_le _ _
  have hcollect := collect_eq hcounts (hcard.trans_lt (by omega))
  rw [← hcard]
  exact hret.bind (.const hcollect)

/-- Six of the numbers from 0 to 16 are primes, here counted by parts of one number and a last one of eight. -/
theorem primes_counted_once_sixteen : ∃ start stop : Nat → Int,
    splitRange 0 16 9 = some (start 9, stop 9) ∧
      ∀ threadRet, Returns (countPrimes · 0 16 (List.range numThread).reverse threadRet) 6 := by
  obtain ⟨start, stop, hsplit, -, -, hcount⟩ := primes_counted_once 0 16 (by decide) (by decide)
  exact ⟨start, stop, hsplit 9 (by decide), hcount _ (List.reverse_perm _)⟩

end PrimeMt
