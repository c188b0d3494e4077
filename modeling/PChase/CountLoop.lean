import Mathlib.Data.Fintype.Pigeonhole
import Mathlib.Data.Int.Interval
import Mathlib.Logic.Function.Iterate
import PChase.CInt

/-!
# Counting loops

`for (c = start; cond c; c = step c)` over a counter of any type, and over an `int`.
An `int` counter has `2^32` values, so a loop that still runs after that many tests
has come back to a value it had before and never ends.
-/

namespace PChase.CountLoop

open CInt
set_option autoImplicit false

universe u
variable {α : Type u}

/-- The counter values for which the body runs, unless the loop outlives its fuel. -/
def forLoop (cond : α → Bool) (step : α → α) : Nat → α → Option (List α)
  | 0, _ => none
  | fuel + 1, c => if cond c then (forLoop cond step fuel (step c)).map (c :: ·) else some []

def Reaches (cond : α → Bool) (step : α → α) (start : α) (n : Nat) : Prop :=
  ∀ m ≤ n, cond (step^[m] start) = true

def Meets (cond : α → Bool) (step : α → α) (start c : α) : Prop :=
  ∃ n, Reaches cond step start n ∧ step^[n] start = c

def values (step : α → α) (start : α) (n : Nat) : List α :=
  (List.range n).map fun m => step^[m] start

@[simp] theorem values_length (step : α → α) (start : α) (n : Nat) :
    (values step start n).length = n := by simp [values]

theorem values_succ (step : α → α) (start : α) (n : Nat) :
    values step start (n + 1) = start :: values step (step start) n := by
  simp [values, List.range_succ_eq_map, Function.comp_def]

theorem forLoop_eq_some_iff (cond : α → Bool) (step : α → α) (fuel : Nat) (start : α)
    (xs : List α) : forLoop cond step fuel start = some xs ↔
      ∃ n < fuel, (∀ m < n, cond (step^[m] start) = true) ∧
        cond (step^[n] start) = false ∧ xs = values step start n := by
  induction fuel generalizing start xs with
  | zero => simp [forLoop]
  | succ fuel ih =>
    cases hc : cond start with
    | false =>
      simp only [forLoop, hc, Bool.false_eq_true, if_false, Option.some.injEq]
      constructor
      · rintro rfl
        exact ⟨0, by omega, by simp, hc, rfl⟩
      · rintro ⟨n, _, hbefore, _, rfl⟩
        cases n with
        | zero => rfl
        | succ n =>
          have h0 := hbefore 0 (by omega)
          simp [hc] at h0
    | true =>
      simp only [forLoop, hc, if_true, Option.map_eq_some_iff, ih]
      constructor
      · rintro ⟨ys, ⟨n, hn, hbefore, hend, rfl⟩, rfl⟩
        refine ⟨n + 1, by omega, ?_, hend, (values_succ step start n).symm⟩
        intro m hm
        cases m with
        | zero => exact hc
        | succ m => exact hbefore m (by omega)
      · rintro ⟨n, hn, hbefore, hend, rfl⟩
        cases n with
        | zero => simp [hc] at hend
        | succ n =>
          exact ⟨_, ⟨n, by omega, fun m hm => hbefore (m + 1) (by omega), hend, rfl⟩,
            (values_succ step start n).symm⟩

theorem forLoop_eq_none_iff (cond : α → Bool) (step : α → α) (fuel : Nat) (start : α) :
    forLoop cond step fuel start = none ↔ ∀ m < fuel, cond (step^[m] start) = true := by
  induction fuel generalizing start with
  | zero => simp [forLoop]
  | succ fuel ih =>
    cases hc : cond start with
    | false =>
      simp only [forLoop, hc, Bool.false_eq_true, if_false, reduceCtorEq, false_iff, not_forall]
      exact ⟨0, by omega, by simp [hc]⟩
    | true =>
      simp only [forLoop, hc, if_true, Option.map_eq_none_iff, ih]
      constructor
      · intro h m hm
        cases m with
        | zero => exact hc
        | succ m => exact h m (by omega)
      · exact fun h m hm => h (m + 1) (by omega)

theorem meets_iff_mem {cond : α → Bool} {step : α → α} {fuel : Nat} {start : α} {xs : List α}
    (h : forLoop cond step fuel start = some xs) (c : α) :
    Meets cond step start c ↔ c ∈ xs := by
  obtain ⟨n, _, hbefore, hend, rfl⟩ := (forLoop_eq_some_iff _ _ _ _ _).mp h
  constructor
  · rintro ⟨m, hreach, rfl⟩
    have hmn : m < n := by
      by_contra hge
      have := hreach n (by omega)
      simp [hend] at this
    exact List.mem_map.mpr ⟨m, List.mem_range.mpr hmn, rfl⟩
  · intro hc
    obtain ⟨m, hm, rfl⟩ := List.mem_map.mp hc
    have hmn := List.mem_range.mp hm
    exact ⟨m, fun k hk => hbefore k (by omega), rfl⟩

/-- A loop over an `int` counter. -/
def intLoop (cond : Int → Bool) (step : Int → Int) (start : Int) : Option (List Int) :=
  forLoop cond step 4294967296 start

theorem iterate_inInt32 {step : Int → Int} {start : Int} (hstart : InInt32 start)
    (hstep : ∀ i, InInt32 (step i)) (n : Nat) : InInt32 (step^[n] start) := by
  cases n with
  | zero => exact hstart
  | succ n =>
    rw [Function.iterate_succ_apply']
    exact hstep _

/-- Running out of `2^32` tests is running forever. -/
theorem intLoop_eq_none_iff (cond : Int → Bool) {step : Int → Int} {start : Int}
    (hstart : InInt32 start) (hstep : ∀ i, InInt32 (step i)) :
    intLoop cond step start = none ↔ ∀ n, Reaches cond step start n := by
  unfold intLoop
  rw [forLoop_eq_none_iff]
  constructor
  · intro h
    have hmaps : ∀ n ∈ Finset.range 4294967297,
        step^[n] start ∈ Finset.Ico (-2147483648 : Int) 2147483648 := by
      intro n _
      exact Finset.mem_Ico.mpr (iterate_inInt32 hstart hstep n)
    have hcard : (Finset.Ico (-2147483648 : Int) 2147483648).card
        < (Finset.range 4294967297).card := by simp
    obtain ⟨a, ha, b, hb, hab, heq⟩ :=
      Finset.exists_ne_map_eq_of_card_lt_of_maps_to hcard hmaps
    have hearly : ∀ i j, i < j → j < 4294967297 → step^[i] start = step^[j] start →
        ∀ n, cond (step^[n] start) = true := by
      intro i j hij hj hrep n
      induction n using Nat.strong_induction_on with
      | _ n ih =>
        by_cases hn : n < j
        · exact h n (by omega)
        · have hback : step^[n] start = step^[n - j + i] start := by
            have hsplit : n = (n - j) + j := by omega
            rw [hsplit, Function.iterate_add_apply, ← hrep, ← Function.iterate_add_apply]
            simp
          rw [hback]
          exact ih _ (by omega)
    intro n m _
    rcases Nat.lt_or_gt_of_ne hab with hlt | hgt
    · exact hearly a b hlt (Finset.mem_range.mp hb) heq m
    · exact hearly b a hgt (Finset.mem_range.mp ha) heq.symm m
  · exact fun h m _ => h m m (Nat.le_refl m)

/-- The values of a loop that ends, without its fuel. -/
theorem intLoop_eq_some_iff (cond : Int → Bool) {step : Int → Int} {start : Int}
    (hstart : InInt32 start) (hstep : ∀ i, InInt32 (step i)) (xs : List Int) :
    intLoop cond step start = some xs ↔ ∃ n, (∀ m < n, cond (step^[m] start) = true) ∧
      cond (step^[n] start) = false ∧ xs = values step start n := by
  constructor
  · intro h
    obtain ⟨n, _, hn⟩ := (forLoop_eq_some_iff _ _ _ _ _).mp h
    exact ⟨n, hn⟩
  · rintro ⟨n, hbefore, hend, rfl⟩
    cases hloop : intLoop cond step start with
    | none =>
      have := (intLoop_eq_none_iff cond hstart hstep).mp hloop n n (Nat.le_refl n)
      simp [hend] at this
    | some ys =>
      obtain ⟨n', _, hbefore', hend', rfl⟩ := (forLoop_eq_some_iff _ _ _ _ _).mp hloop
      have hle : ¬ n < n' := fun hlt => by simpa [hend] using hbefore' n hlt
      have hge : ¬ n' < n := fun hlt => by simpa [hend'] using hbefore n' hlt
      have heq : n' = n := by omega
      rw [heq]

/-- `i += s` on an `int`. -/
def addStep (s i : Int) : Int := wrap32 (i + s)

theorem addStep_inInt32 (s i : Int) : InInt32 (addStep s i) := wrap32_inInt32 _

theorem addStep_iterate (s start : Int) (n : Nat) (hstart : InInt32 start) :
    (addStep s)^[n] start = wrap32 (start + n * s) := by
  induction n with
  | zero => simp [wrap32_of_inInt32 hstart]
  | succ n ih =>
    rw [Function.iterate_succ_apply', ih, addStep, wrap32_wrap32_add]
    congr 1
    push_cast
    ring

/-- A loop down to zero meets the whole steps below its start. -/
theorem reaches_down_iff {s start : Int} (hs : 0 < s) (hs' : s < 2147483648) (h0 : 0 ≤ start)
    (h1 : start < 2147483648) (n : Nat) :
    Reaches (fun i => decide (0 ≤ i)) (addStep (-s)) start n ↔ n * s ≤ start := by
  have hvalue : ∀ m : Nat, (addStep (-s))^[m] start = wrap32 (start - m * s) := fun m => by
    rw [addStep_iterate _ start m ⟨by omega, h1⟩, Int.mul_neg]
    rfl
  constructor
  · intro h
    by_contra hpast
    have hdiv : 0 ≤ start / s := Int.ediv_nonneg h0 (by omega)
    have hle : (start / s) * s ≤ start := Int.ediv_mul_le start (by omega)
    have hgt := Int.lt_ediv_add_one_mul_self start hs
    have hfirst := h (start / s + 1).toNat (by
      have : start / s < n := Int.ediv_lt_of_lt_mul hs (by omega)
      omega)
    rw [hvalue, Int.toNat_of_nonneg (by omega)] at hfirst
    rw [Int.add_mul, Int.one_mul] at hfirst hgt
    rw [wrap32_of_inInt32 ⟨by omega, by omega⟩] at hfirst
    have := of_decide_eq_true hfirst
    omega
  · intro h m hm
    have hms : (m : Int) * s ≤ n * s := Int.mul_le_mul_of_nonneg_right (by omega) (by omega)
    have hms0 : 0 ≤ (m : Int) * s := Int.mul_nonneg (by omega) (by omega)
    rw [hvalue, wrap32_of_bounds (by omega) (by omega)]
    exact decide_eq_true (by omega)

/-- A loop whose counter stays in range until its test fails runs its full count. -/
theorem intLoop_addStep {cond : Int → Bool} {s start : Int} {n : Nat}
    (hrange : ∀ m ≤ n, InInt32 (start + m * s)) (hn : n < 4294967296)
    (hbefore : ∀ m < n, cond (start + m * s) = true) (hend : cond (start + n * s) = false) :
    intLoop cond (addStep s) start = some ((List.range n).map fun m : Nat => start + m * s) := by
  have hstart : InInt32 start := by simpa using hrange 0 (by omega)
  have hvalue : ∀ m ≤ n, (addStep s)^[m] start = start + m * s := by
    intro m hm
    rw [addStep_iterate s start m hstart, wrap32_of_inInt32 (hrange m hm)]
  apply (forLoop_eq_some_iff _ _ _ _ _).mpr
  refine ⟨n, hn, ?_, ?_, ?_⟩
  · intro m hm
    rw [hvalue m (by omega)]
    exact hbefore m hm
  · rw [hvalue n (Nat.le_refl n)]
    exact hend
  · apply List.map_congr_left
    intro m hm
    exact (hvalue m (Nat.le_of_lt (List.mem_range.mp hm))).symm

theorem intLoop_down {s : Int} (hs : 0 < s) (hs' : s < 2147483648) (n : Nat)
    (hstart : n * s < 2147483648) : intLoop (fun i => decide (0 ≤ i)) (addStep (-s)) (n * s) =
      some ((List.range (n + 1)).map fun m : Nat => ((n : Int) - m) * s) := by
  have hvalue : ∀ m : Nat, (n : Int) * s + m * -s = (n - m) * s := fun m => by ring
  have hn : (n : Int) * 1 ≤ n * s := Int.mul_le_mul_of_nonneg_left (by omega) (by omega)
  rw [intLoop_addStep (n := n + 1)]
  · simp only [hvalue]
  · intro m hm
    have hle : ((n : Int) - m) * s ≤ n * s := Int.mul_le_mul_of_nonneg_right (by omega) (by omega)
    have hge : -1 * s ≤ ((n : Int) - m) * s :=
      Int.mul_le_mul_of_nonneg_right (by omega) (by omega)
    rw [hvalue]
    exact ⟨by omega, by omega⟩
  · omega
  · intro m hm
    rw [hvalue]
    exact decide_eq_true (Int.mul_nonneg (by omega) (by omega))
  · rw [hvalue]
    refine decide_eq_false (Int.not_le.mpr (Int.mul_neg_of_neg_of_pos ?_ hs))
    omega

/-- `for (int i = 0; i < bound; i++)` -/
def countUp (bound : Int) : Option (List Int) :=
  intLoop (fun i => decide (i < bound)) (addStep 1) 0

theorem countUp_of_lt {bound : Int} (h : bound < 2147483648) :
    countUp bound = some ((List.range bound.toNat).map fun m : Nat => (m : Int)) := by
  unfold countUp
  rw [intLoop_addStep (n := bound.toNat)]
  · simp
  · intro m hm
    unfold InInt32
    omega
  · omega
  · intro m hm
    simp only [decide_eq_true_eq]
    omega
  · simp only [decide_eq_false_iff_not]
    omega

theorem countUp_of_ge {bound : Int} (h : 2147483648 ≤ bound) : countUp bound = none := by
  unfold countUp
  rw [intLoop_eq_none_iff _ inInt32_zero (addStep_inInt32 1)]
  intro n m _
  have hv := iterate_inInt32 inInt32_zero (addStep_inInt32 1) m
  unfold InInt32 at hv
  simp only [decide_eq_true_eq]
  omega

theorem reaches_countUp_iff (bound : Int) (n : Nat) :
    Reaches (fun i => decide (i < bound)) (addStep 1) 0 n ↔
      (n : Int) < bound ∨ 2147483648 ≤ bound := by
  have hvalue : ∀ m : Nat, (addStep 1)^[m] 0 = wrap32 m := fun m => by
    rw [addStep_iterate 1 0 m inInt32_zero]
    simp
  by_cases hbound : 2147483648 ≤ bound
  · simp only [hbound, or_true, iff_true]
    exact (intLoop_eq_none_iff _ inInt32_zero (addStep_inInt32 1)).mp
      (countUp_of_ge hbound) n
  · constructor
    · intro h
      refine .inl (Int.not_le.mp fun hge => ?_)
      have hfirst := h bound.toNat (by omega)
      rw [hvalue, wrap32_of_bounds (by omega) (by omega)] at hfirst
      have := of_decide_eq_true hfirst
      omega
    · intro h m hm
      rw [hvalue, wrap32_of_bounds (by omega) (by omega)]
      exact decide_eq_true (by omega)

theorem countUp_exit {bound : Int} {k : Nat} (hbefore : ∀ j < k, (addStep 1)^[j] 0 < bound)
    (hend : ¬ (addStep 1)^[k] 0 < bound) : k = bound.toNat := by
  have hreach : ∀ n < k, Reaches (fun i => decide (i < bound)) (addStep 1) 0 n := by
    intro n hn m hm
    exact decide_eq_true (hbefore m (by omega))
  have hnot : ¬ ((k : Int) < bound ∨ 2147483648 ≤ bound) := by
    rw [← reaches_countUp_iff]
    intro h
    exact hend (of_decide_eq_true (h k (Nat.le_refl k)))
  cases k with
  | zero => omega
  | succ k =>
    have hlast := (reaches_countUp_iff bound k).mp (hreach k (by omega))
    omega

theorem countUp_eq_some_iff (bound : Int) (xs : List Int) : countUp bound = some xs ↔
    bound < 2147483648 ∧ xs = (List.range bound.toNat).map fun m : Nat => (m : Int) := by
  by_cases h : bound < 2147483648
  · rw [countUp_of_lt h]
    simp only [Option.some.injEq, h, true_and]
    exact eq_comm
  · rw [countUp_of_ge (by omega)]
    simp [h]

end PChase.CountLoop
