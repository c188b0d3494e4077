import PChase.StridedBounds

/-!
# The ring of a strided chain

As long as the `int` counter gets past the last line without overflow, both routines
visit the multiples of the stride, one upwards and the other downwards.
-/

namespace PChase

open CInt CountLoop AffineCycle NextWalk
set_option autoImplicit false

def Experiment.step (e : Experiment) : Int := e.stride.natAbs

def Experiment.lastIndex (e : Experiment) : Int := (e.linesPerChain - 1) / e.step

/-- The counter passes the last line in the range of an `int`, and the last link is in
that range. -/
structure Experiment.StridedFits (e : Experiment) : Prop where
  lines_pos : 1 ≤ e.linesPerChain
  links_pos : 1 ≤ e.linksPerLine
  counter_fits : (e.lastIndex + 1) * e.step < 2147483648
  last_fits : e.lastIndex * e.step * e.linksPerLine < 2147483648

section
variable {e : Experiment} (h : e.StridedFits) (hne : e.stride ≠ 0)
include h hne

omit h in
theorem step_pos : 0 < e.step := by
  unfold Experiment.step
  omega

theorem lastIndex_nonneg : 0 ≤ e.lastIndex :=
  Int.ediv_nonneg (by have := h.lines_pos; omega) (Int.le_of_lt (step_pos hne))

omit h in
theorem last_line_bounds : e.lastIndex * e.step < e.linesPerChain ∧
    e.linesPerChain ≤ (e.lastIndex + 1) * e.step := by
  have hle := Int.ediv_mul_le (e.linesPerChain - 1) (b := e.step) (by have := step_pos hne; omega)
  have hlt := Int.lt_ediv_add_one_mul_self (e.linesPerChain - 1) (step_pos hne)
  unfold Experiment.lastIndex
  omega

omit h in
theorem multiple_le {m : Nat} (hm : m ≤ e.lastIndex) :
    0 ≤ m * e.step ∧ m * e.step ≤ e.lastIndex * e.step :=
  ⟨Int.mul_nonneg (by omega) (Int.le_of_lt (step_pos hne)),
    Int.mul_le_mul_of_nonneg_right hm (Int.le_of_lt (step_pos hne))⟩

theorem step_lt : e.step < 2147483648 := by
  have hfits := h.counter_fits
  have h0 : 0 ≤ e.lastIndex * e.step :=
    Int.mul_nonneg (lastIndex_nonneg h hne) (Int.le_of_lt (step_pos hne))
  rw [Int.add_mul, Int.one_mul] at hfits
  omega

theorem upward_lines : intLoop (fun i => decide (i < e.linesPerChain)) (addStep e.step) 0 =
    some ((List.range (e.lastIndex.toNat + 1)).map fun m : Nat => m * e.step) := by
  have hnonneg := lastIndex_nonneg h hne
  have hbounds := last_line_bounds hne
  have hfits := h.counter_fits
  have hend : (((e.lastIndex.toNat + 1 : Nat) : Int)) * e.step = (e.lastIndex + 1) * e.step := by
    push_cast
    rw [Int.toNat_of_nonneg hnonneg]
  rw [intLoop_addStep (n := e.lastIndex.toNat + 1)]
  · simp only [Int.zero_add]
  · intro m hm
    have hle : (m : Int) * e.step ≤ ((e.lastIndex.toNat + 1 : Nat) : Int) * e.step :=
      Int.mul_le_mul_of_nonneg_right (by omega) (Int.le_of_lt (step_pos hne))
    have h0 : 0 ≤ (m : Int) * e.step := Int.mul_nonneg (by omega) (Int.le_of_lt (step_pos hne))
    rw [Int.zero_add]
    exact ⟨by omega, by omega⟩
  · have hone : (e.lastIndex + 1) * 1 ≤ (e.lastIndex + 1) * e.step :=
      Int.mul_le_mul_of_nonneg_left (by have := step_pos hne; omega) (by omega)
    omega
  · intro m hm
    have hm' : (m : Int) ≤ e.lastIndex := by omega
    have hle := multiple_le hne hm'
    exact decide_eq_true (by omega)
  · exact decide_eq_false (by omega)

omit hne in
theorem lineLink_of_multiple {i : Int} (h0 : 0 ≤ i) (h1 : i ≤ e.lastIndex * e.step) :
    lineLink e i = i * e.linksPerLine := by
  have hfits := h.last_fits
  have hk := h.links_pos
  have hle : i * e.linksPerLine ≤ e.lastIndex * e.step * e.linksPerLine :=
    Int.mul_le_mul_of_nonneg_right h1 (by omega)
  rw [lineLink_eq, wrap32_of_bounds (Int.mul_nonneg h0 (by omega)) (by omega)]

theorem forwardLinks_eq (hpos : 0 < e.stride) : forwardLinks e =
    some ((List.range (e.lastIndex.toNat + 1)).map fun k : Nat =>
      k * e.step * e.linksPerLine) := by
  have hstep : e.stride = e.step := by
    unfold Experiment.step
    omega
  have hnonneg := lastIndex_nonneg h hne
  rw [forwardLinks, hstep, upward_lines h hne]
  simp only [Option.bind_eq_bind, Option.bind_some, Option.pure_def, List.map_map,
    Option.some.injEq]
  apply List.map_congr_left
  intro k hk
  have hk' := List.mem_range.mp hk
  have hlt : (k : Int) ≤ e.lastIndex := by omega
  have hle := multiple_le hne hlt
  exact lineLink_of_multiple h hle.1 hle.2

theorem downward_lines : intLoop (fun i => decide (0 ≤ i)) (addStep (-e.step))
    (e.lastIndex * e.step) = some ((List.range (e.lastIndex.toNat + 1)).map fun m : Nat =>
      (e.lastIndex - m) * e.step) := by
  have hcast : (e.lastIndex.toNat : Int) = e.lastIndex :=
    Int.toNat_of_nonneg (lastIndex_nonneg h hne)
  have hfits := h.counter_fits
  have hpos := step_pos hne
  rw [Int.add_mul, Int.one_mul] at hfits
  have hloop := intLoop_down hpos (step_lt h hne) e.lastIndex.toNat (by rw [hcast]; omega)
  rw [hcast] at hloop
  exact hloop

theorem reverseLinks_eq (hneg : e.stride < 0) : reverseLinks e =
    some ((List.range (e.lastIndex.toNat + 1)).map fun k : Nat =>
      (e.lastIndex - k) * e.step * e.linksPerLine) := by
  have hnonneg := lastIndex_nonneg h hne
  have hlt := step_lt h hne
  have hstep : reverseStride e = e.step := by
    unfold Experiment.step at hlt ⊢
    rw [reverseStride, wrap32_wrap64, wrap32_of_bounds (by omega) (by omega)]
    omega
  have hcast : (e.lastIndex.toNat : Int) = e.lastIndex := Int.toNat_of_nonneg hnonneg
  have hlast : ((List.range (e.lastIndex.toNat + 1)).map fun m : Nat => (m : Int) * e.step).getLast? =
      some (e.lastIndex * e.step) := by
    simp [List.range_succ, hcast]
  rw [reverseLinks, hstep, upward_lines h hne]
  simp only [Option.bind_eq_bind, Option.bind_some, hlast, downward_lines h hne, Option.pure_def,
    List.map_map, Option.some.injEq]
  apply List.map_congr_left
  intro k hk
  have hk' := List.mem_range.mp hk
  apply lineLink_of_multiple h
  · exact Int.mul_nonneg (by omega) (Int.le_of_lt (step_pos hne))
  · exact Int.mul_le_mul_of_nonneg_right (by omega) (Int.le_of_lt (step_pos hne))

end

end PChase
