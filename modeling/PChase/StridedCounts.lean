import PChase.MirrorRings

/-!
# How many steps the strided loops make

The counter is an `int` and the stride a `long long`. The loop over the lines makes one
step for each multiple of the stride exactly when the multiple that ends it is still past
the last line as an `int`.
-/

namespace PChase

open CInt CountLoop
set_option autoImplicit false

def CountsUp (n : Int) : Prop := ∃ xs, countUp n = some xs ∧ (xs.length : Int) = n

/-- The loop of `forward_mem_init` ends after as many steps as the stride has multiples
below the number of lines. -/
def ForwardCounts (e : Experiment) : Prop :=
  ∃ links, forwardLinks e = some links ∧ (links.length : Int) = strideCount e e.step

/-- Both loops of `reverse_mem_init` do; the second has no start unless the first saw a line. -/
def ReverseCounts (e : Experiment) : Prop :=
  ∃ seen last lines,
    intLoop (fun i => decide (i < e.linesPerChain)) (addStep (reverseStride e)) 0 = some seen ∧
    seen.getLast? = some last ∧
    intLoop (fun i => decide (0 ≤ i)) (addStep (-reverseStride e)) last = some lines ∧
    (seen.length : Int) = strideCount e e.step ∧ (lines.length : Int) = strideCount e e.step

/-- The first multiple of the stride that is no line of the chain is none as an `int`. -/
def Experiment.CounterPasses (e : Experiment) : Prop :=
  e.linesPerChain ≤ wrap32 (strideCount e e.step * e.step)

instance (e : Experiment) : Decidable e.CounterPasses := inferInstanceAs (Decidable (_ ≤ _))

theorem Experiment.CounterPasses.lines_lt {e : Experiment} (h : e.CounterPasses) :
    e.linesPerChain < 2147483648 := by
  have hrange := (wrap32_inInt32 (strideCount e e.step * e.step)).2
  unfold Experiment.CounterPasses at h
  omega

theorem countsUp_iff (n : Int) : CountsUp n ↔ 0 ≤ n ∧ n < 2147483648 := by
  constructor
  · rintro ⟨xs, hloop, hlength⟩
    obtain ⟨hlt, _⟩ := (countUp_eq_some_iff n xs).mp hloop
    omega
  · rintro ⟨h0, hlt⟩
    refine ⟨_, countUp_of_lt hlt, ?_⟩
    simp only [List.length_map, List.length_range]
    omega

section Counts
variable {e : Experiment} (hne : e.stride ≠ 0)
include hne

theorem strideCount_nonneg_iff : 0 ≤ strideCount e e.step ↔ -e.step < e.linesPerChain := by
  have hiff := lt_strideCount_iff e (step_pos hne) (-1)
  rw [Int.neg_one_mul] at hiff
  omega

theorem strideCount_pos_iff : 1 ≤ strideCount e e.step ↔ 1 ≤ e.linesPerChain := by
  have hiff := lt_strideCount_iff e (step_pos hne) 0
  omega

/-- Below the count no multiple leaves the range of an `int`, so only the last one matters. -/
theorem endsAt_count_iff {n : Nat} (hn : (n : Int) = strideCount e e.step) :
    EndsAt e.linesPerChain e.step n ↔ e.CounterPasses := by
  have hs := step_pos hne
  have hbounds := strideCount_bounds e hs
  rw [EndsAt, hn]
  constructor
  · exact fun h => h.2
  · intro h
    refine ⟨?_, h⟩
    intro m hm
    have hlt := h.lines_lt
    have hle : (m : Int) * e.step ≤ (strideCount e e.step - 1) * e.step :=
      Int.mul_le_mul_of_nonneg_right (by omega) (by omega)
    rw [wrap32_of_bounds (Int.mul_nonneg (by omega) (by omega)) (by omega)]
    omega

omit hne in
theorem upward_loop_iff {s : Int} (hs : ∀ m : Nat, wrap32 (m * s) = wrap32 (m * e.step))
    (seen : List Int) :
    intLoop (fun i => decide (i < e.linesPerChain)) (addStep s) 0 = some seen ↔
      ∃ n, EndsAt e.linesPerChain e.step n ∧
        seen = (List.range n).map fun m : Nat => wrap32 (m * e.step) := by
  simp only [intLoop_eq_some_iff _ inInt32_zero (addStep_inInt32 s), addStep_multiple, hs,
    decide_eq_true_eq, decide_eq_false_iff_not, Int.not_lt, EndsAt, values, and_assoc]

theorem forwardCounts_iff (hpos : 0 < e.stride) :
    ForwardCounts e ↔ -e.step < e.linesPerChain ∧ e.CounterPasses := by
  have hstep : e.stride = e.step := by
    unfold Experiment.step
    omega
  have hloop := upward_loop_iff (e := e) (s := e.stride) fun m => by rw [hstep]
  rw [← strideCount_nonneg_iff hne]
  constructor
  · rintro ⟨links, hlinks, hlength⟩
    obtain ⟨seen, hseen, hmap⟩ := Option.bind_eq_some_iff.mp hlinks
    obtain rfl := Option.some.inj hmap
    obtain ⟨n, hend, rfl⟩ := (hloop seen).mp hseen
    simp only [List.length_map, List.length_range] at hlength
    exact ⟨by omega, (endsAt_count_iff hne hlength).mp hend⟩
  · rintro ⟨h0, hpasses⟩
    have hcount : ((strideCount e e.step).toNat : Int) = strideCount e e.step :=
      Int.toNat_of_nonneg h0
    have hseen := (hloop _).mpr ⟨_, (endsAt_count_iff hne hcount).mpr hpasses, rfl⟩
    refine ⟨_, by rw [forwardLinks, hseen]; rfl, ?_⟩
    simp only [List.length_map, List.length_range]
    exact hcount

omit hne in
theorem reverseStride_eq (hneg : e.stride < 0) : reverseStride e = wrap32 e.step := by
  have hstep : -e.stride = e.step := by
    unfold Experiment.step
    omega
  rw [reverseStride, wrap32_wrap64, hstep]

theorem reverseStride_of_passes (hneg : e.stride < 0) (hlines : 1 ≤ e.linesPerChain)
    (h : e.CounterPasses) : 0 < reverseStride e ∧
      (strideCount e e.step - 1) * reverseStride e = (strideCount e e.step - 1) * e.step := by
  have hs := step_pos hne
  have hbounds := strideCount_bounds e hs
  have hcount := (strideCount_pos_iff hne).mpr hlines
  have hlt := h.lines_lt
  rw [reverseStride_eq hneg]
  by_cases hone : strideCount e e.step = 1
  · unfold Experiment.CounterPasses at h
    rw [hone, Int.one_mul] at h
    refine ⟨by omega, ?_⟩
    rw [hone, Int.sub_self, Int.zero_mul, Int.zero_mul]
  · have hle : 1 * e.step ≤ (strideCount e e.step - 1) * e.step :=
      Int.mul_le_mul_of_nonneg_right (by omega) (by omega)
    rw [wrap32_of_bounds (by omega) (by omega)]
    exact ⟨hs, rfl⟩

theorem reverseCounts_iff (hneg : e.stride < 0) :
    ReverseCounts e ↔ 1 ≤ e.linesPerChain ∧ e.CounterPasses := by
  have hloop := upward_loop_iff (e := e) (s := reverseStride e) fun m => by
    rw [reverseStride_eq hneg, Int.mul_comm, wrap32_wrap32_mul, Int.mul_comm]
  rw [← strideCount_pos_iff hne]
  constructor
  · rintro ⟨seen, last, _, hseen, hlast, _, hlength, _⟩
    obtain ⟨n, hend, rfl⟩ := (hloop seen).mp hseen
    simp only [List.length_map, List.length_range] at hlength
    refine ⟨?_, (endsAt_count_iff hne hlength).mp hend⟩
    by_contra hzero
    obtain rfl : n = 0 := by omega
    simp at hlast
  · rintro ⟨hpos, hpasses⟩
    have hlines := (strideCount_pos_iff hne).mp hpos
    obtain ⟨hreverse, hsame⟩ := reverseStride_of_passes hne hneg hlines hpasses
    have hs := step_pos hne
    have hbounds := strideCount_bounds e hs
    obtain ⟨n, hn⟩ : ∃ n : Nat, ((n + 1 : Nat) : Int) = strideCount e e.step :=
      ⟨(strideCount e e.step - 1).toNat, by omega⟩
    have hcast : (n : Int) = strideCount e e.step - 1 := by omega
    have hline : (n : Int) * e.step = n * reverseStride e := by rw [hcast, hsame]
    have hrange : (n : Int) * e.step < 2147483648 := by
      have hlt := hpasses.lines_lt
      rw [hcast]
      omega
    have hlast : wrap32 (n * e.step) = n * reverseStride e := by
      rw [wrap32_of_bounds (Int.mul_nonneg (by omega) (by omega)) hrange, hline]
    have hseen := (hloop _).mpr ⟨n + 1, (endsAt_count_iff hne hn).mpr hpasses, rfl⟩
    have hdown := intLoop_down hreverse (reverseStride_inInt32 e).2 n (hline ▸ hrange)
    refine ⟨_, n * reverseStride e, _, hseen, ?_, hdown, ?_, ?_⟩
    · simp [List.range_succ, hlast]
    · simpa using hn
    · simpa using hn

end Counts

end PChase
