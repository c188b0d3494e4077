import PChase.Geometry

/-!
# The links an initialiser forms

A loop of an initialiser may have no end, and it still computes links. These relations
say which ones; where every loop ends they are the members of the lists.
-/

namespace PChase

open CInt CountLoop AffineCycle NextWalk
set_option autoImplicit false

/-- A counter that wrapped agrees with the number of its step in the low 32 bits, which
is all that `randomLink` reads of it. A later page is reached only past a finished one. -/
def RandomForms (e : Experiment) (d : Draws) (link : Int) : Prop :=
  ∃ i j : Nat, Reaches (fun i => decide (i < e.pagesPerChain)) (addStep 1) 0 i ∧
    (0 < i → e.linesPerPage < 2147483648) ∧
    Reaches (fun j => decide (j < e.linesPerPage)) (addStep 1) 0 j ∧ randomLink e d i j = link

def ForwardForms (e : Experiment) (link : Int) : Prop :=
  ∃ i, Meets (fun i => decide (i < e.linesPerChain)) (addStep e.stride) 0 i ∧ lineLink e i = link

/-- What `last` holds behind the first loop: any `int` if the loop never ran. -/
def LastSeen (e : Experiment) (last : Int) : Prop :=
  ∃ seen, intLoop (fun i => decide (i < e.linesPerChain)) (addStep (reverseStride e)) 0 = some seen ∧
    (seen.getLast? = some last ∨ seen = [] ∧ InInt32 last)

def ReverseForms (e : Experiment) (link : Int) : Prop :=
  ∃ last i, LastSeen e last ∧ Meets (fun i => decide (0 ≤ i)) (addStep (-reverseStride e)) last i ∧
    lineLink e i = link

theorem affineCell_wrap32 (n f o k : Int) : affineCell n f o (wrap32 k) = affineCell n f o k := by
  rw [affineCell_eq, affineCell_eq, Int.mul_comm, ← wrap32_wrap32_add, wrap32_wrap32_mul,
    wrap32_wrap32_add, Int.mul_comm]

/-- The link as the source computes it, from the counters themselves. -/
theorem randomLink_counters (e : Experiment) (d : Draws) (i j : Nat) :
    randomLink e d i j = wrap32 (wrap64 (
      affineCell e.pagesPerChain d.pageFactor d.pageOffset ((addStep 1)^[i] 0) * e.linksPerPage +
      affineCell e.linesPerPage (d.lineFactor i) (d.lineOffset i) ((addStep 1)^[j] 0) *
        e.linksPerLine)) := by
  have hcounter : ∀ m : Nat, (addStep 1)^[m] 0 = wrap32 m := fun m => by
    rw [addStep_iterate 1 0 m inInt32_zero]
    simp
  simp only [randomLink, hcounter, affineCell_wrap32, add_zero]

theorem randomForms_iff {e : Experiment} {d : Draws} {link : Int}
    (hp : e.pagesPerChain < 2147483648) (hl : e.linesPerPage < 2147483648) :
    RandomForms e d link ↔ ∃ i j : Nat, i < e.pagesPerChain ∧ j < e.linesPerPage ∧
      randomLink e d i j = link := by
  simp only [RandomForms, reaches_countUp_iff, hl, implies_true, true_and]
  constructor
  · rintro ⟨i, j, hi, hj, hlink⟩
    exact ⟨i, j, by omega, by omega, hlink⟩
  · rintro ⟨i, j, hi, hj, hlink⟩
    exact ⟨i, j, .inl hi, .inl hj, hlink⟩

theorem mem_randomLinks {e : Experiment} {d : Draws} {links : List Int}
    (h : randomLinks e d = some links) (link : Int) : link ∈ links ↔ RandomForms e d link := by
  obtain ⟨pages, hpages, hrest⟩ := Option.bind_eq_some_iff.mp h
  obtain ⟨visited, hvisited, hflat⟩ := Option.bind_eq_some_iff.mp hrest
  obtain ⟨hp, rfl⟩ := (countUp_eq_some_iff _ _).mp hpages
  by_cases hl : e.linesPerPage < 2147483648
  · rw [randomForms_iff hp hl]
    simp only [countUp_of_lt hl, Option.bind_eq_bind, Option.bind_some, Option.pure_def,
      List.map_map, mapM_pure, Option.some.injEq] at hvisited hflat
    subst hvisited hflat
    simp only [List.mem_flatten, List.mem_map, List.mem_range, Function.comp_apply,
      Int.toNat_natCast]
    constructor
    · rintro ⟨_, ⟨i, hi, rfl⟩, hmem⟩
      obtain ⟨j, hj, hlink⟩ := List.mem_map.mp hmem
      have hj' := List.mem_range.mp hj
      exact ⟨i, j, by omega, by omega, hlink⟩
    · rintro ⟨i, j, hi, hj, hlink⟩
      exact ⟨_, ⟨i, by omega, rfl⟩,
        List.mem_map.mpr ⟨j, List.mem_range.mpr (by omega), hlink⟩⟩
  · have hnone : e.pagesPerChain ≤ 0 := by
      by_contra hpos
      have hcons : e.pagesPerChain.toNat = (e.pagesPerChain.toNat - 1) + 1 := by omega
      rw [hcons, List.range_succ_eq_map] at hvisited
      have hlarge : 2147483648 ≤ e.linesPerPage := by omega
      simp [List.mapM_cons, countUp_of_ge hlarge] at hvisited
    have hzero : e.pagesPerChain.toNat = 0 := by omega
    simp only [hzero, List.range_zero, List.map_nil, List.mapM_nil, Option.pure_def,
      Option.some.injEq] at hvisited hflat
    subst hvisited hflat
    constructor
    · intro hmem
      simp at hmem
    · rintro ⟨i, j, hi, _⟩
      have := (reaches_countUp_iff _ _).mp hi
      omega

theorem mem_forwardLinks {e : Experiment} {links : List Int} (h : forwardLinks e = some links)
    (link : Int) : link ∈ links ↔ ForwardForms e link := by
  obtain ⟨lines, hlines, hmap⟩ := Option.bind_eq_some_iff.mp h
  simp only [Option.pure_def, Option.some.injEq] at hmap
  subst hmap
  simp only [ForwardForms, List.mem_map, meets_iff_mem hlines]

theorem mem_reverseLinks {e : Experiment} {links : List Int} (h : reverseLinks e = some links)
    (link : Int) : link ∈ links ↔ ReverseForms e link := by
  obtain ⟨seen, hseen, hrest⟩ := Option.bind_eq_some_iff.mp h
  obtain ⟨last, hlast, hrest'⟩ := Option.bind_eq_some_iff.mp hrest
  obtain ⟨lines, hlines, hmap⟩ := Option.bind_eq_some_iff.mp hrest'
  simp only [Option.pure_def, Option.some.injEq] at hmap
  subst hmap
  have hunique : ∀ a, LastSeen e a ↔ a = last := by
    intro a
    simp only [LastSeen, hseen, Option.some.injEq, exists_eq_left', hlast]
    constructor
    · rintro (h | ⟨rfl, _⟩)
      · exact h.symm
      · simp at hlast
    · exact fun h => .inl h.symm
  simp only [ReverseForms, hunique, List.mem_map]
  constructor
  · rintro ⟨i, hi, hlink⟩
    exact ⟨last, i, rfl, (meets_iff_mem hlines i).mpr hi, hlink⟩
  · rintro ⟨_, i, rfl, hi, hlink⟩
    exact ⟨i, (meets_iff_mem hlines i).mp hi, hlink⟩

end PChase
