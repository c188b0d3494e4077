import PChase.Accepted
import PChase.MemInit

/-!
# The counts of a chain without overflow

`parse_args` multiplies its counts in 64 bits. For a line that holds a node the products
are exact, because each is bounded by a size in bytes that was rounded, not multiplied,
into range.
-/

namespace PChase

open CInt CountLoop AffineCycle NextWalk
set_option autoImplicit false

structure Experiment.Geometry (e : Experiment) : Prop where
  linksPerPage_eq : e.linksPerPage = e.linesPerPage * e.linksPerLine
  linesPerChain_eq : e.linesPerChain = e.pagesPerChain * e.linesPerPage
  linksPerChain_eq : e.linksPerChain = e.pagesPerChain * e.linesPerPage * e.linksPerLine

theorem inInt64_of_natAbs {x : Int} (h : x.natAbs < 9223372036854775808) : InInt64 x := by
  unfold InInt64
  omega

theorem natAbs_of_inInt64 {x : Int} (h : InInt64 x) : x.natAbs ≤ 9223372036854775808 := by
  unfold InInt64 at h
  omega

theorem natAbs_tdiv16 (b : Int) : 16 * (b.tdiv 16).natAbs ≤ b.natAbs := by
  have hb := mul_tdiv_between b 16
  rcases Int.le_total 0 b with h | h
  · have := hb.1 h
    omega
  · have := hb.2 h
    omega

theorem Experiment.SizesDerived.line_bound {e : Experiment} (h : e.SizesDerived) :
    16 * e.linksPerLine.natAbs ≤ e.bytesPerLine.natAbs :=
  h.linksPerLine_eq ▸ natAbs_tdiv16 e.bytesPerLine

theorem Experiment.SizesDerived.page_bound {e : Experiment} (h : e.SizesDerived) :
    16 * (e.linksPerLine.natAbs * e.linesPerPage.natAbs) ≤ 9223372036854775808 := by
  calc 16 * (e.linksPerLine.natAbs * e.linesPerPage.natAbs)
      = 16 * e.linksPerLine.natAbs * e.linesPerPage.natAbs := by ring
    _ ≤ e.bytesPerLine.natAbs * e.linesPerPage.natAbs := Nat.mul_le_mul_right _ h.line_bound
    _ = e.bytesPerPage.natAbs := by rw [h.bytesPerPage_eq, Int.natAbs_mul]
    _ ≤ 9223372036854775808 := natAbs_of_inInt64 h.bytesPerPage_range

theorem Experiment.SizesDerived.chain_bound {e : Experiment} (h : e.SizesDerived) :
    16 * (e.linksPerLine.natAbs * (e.linesPerPage.natAbs * e.pagesPerChain.natAbs)) ≤
      9223372036854775808 := by
  calc 16 * (e.linksPerLine.natAbs * (e.linesPerPage.natAbs * e.pagesPerChain.natAbs))
      = 16 * e.linksPerLine.natAbs * (e.linesPerPage.natAbs * e.pagesPerChain.natAbs) := by ring
    _ ≤ e.bytesPerLine.natAbs * (e.linesPerPage.natAbs * e.pagesPerChain.natAbs) :=
      Nat.mul_le_mul_right _ h.line_bound
    _ = e.bytesPerChain.natAbs := by
      rw [h.bytesPerChain_eq, h.bytesPerPage_eq, Int.natAbs_mul, Int.natAbs_mul, Nat.mul_assoc]
    _ ≤ 9223372036854775808 := natAbs_of_inInt64 h.bytesPerChain_range

theorem Experiment.SizesDerived.geometry {e : Experiment} (h : e.SizesDerived)
    (hk : e.linksPerLine ≠ 0) : e.Geometry := by
  have hpage := h.page_bound
  have hchain := h.chain_bound
  have hlines : e.linesPerPage.natAbs * e.pagesPerChain.natAbs ≤
      e.linksPerLine.natAbs * (e.linesPerPage.natAbs * e.pagesPerChain.natAbs) :=
    Nat.le_mul_of_pos_left _ (by omega)
  have hlpp : e.linksPerPage = e.linesPerPage * e.linksPerLine := by
    rw [h.linksPerPage_eq]
    apply wrap64_of_inInt64 (inInt64_of_natAbs _)
    rw [Int.natAbs_mul, Nat.mul_comm]
    omega
  have hlpc : e.linesPerChain = e.pagesPerChain * e.linesPerPage := by
    rw [h.linesPerChain_eq, Int.mul_comm]
    apply wrap64_of_inInt64 (inInt64_of_natAbs _)
    rw [Int.natAbs_mul, Nat.mul_comm]
    omega
  refine ⟨hlpp, hlpc, ?_⟩
  rw [h.linksPerChain_eq, hlpc]
  apply wrap64_of_inInt64 (inInt64_of_natAbs _)
  rw [Int.natAbs_mul, Int.natAbs_mul, Nat.mul_comm, Nat.mul_comm e.pagesPerChain.natAbs]
  omega

theorem linksPerChain_of_no_links {e : Experiment} (h : e.SizesDerived)
    (hk : e.linksPerLine = 0) : e.linksPerChain = 0 := by
  rw [h.linksPerChain_eq, hk, Int.mul_zero]
  rfl

theorem Experiment.SizesDerived.linksPerLine_pos {e : Experiment} (h : e.SizesDerived)
    (hp : 1 ≤ e.pagesPerChain) (hl : 1 ≤ e.linesPerPage) (hpos : 0 < e.linksPerChain) :
    1 ≤ e.linksPerLine := by
  by_contra hneg
  by_cases hk : e.linksPerLine = 0
  · rw [linksPerChain_of_no_links h hk] at hpos
    omega
  · rw [(h.geometry hk).linksPerChain_eq] at hpos
    have hpl : 0 < e.pagesPerChain * e.linesPerPage := Int.mul_pos (by omega) (by omega)
    have hneg : e.linksPerLine < 0 := by omega
    have := Int.mul_neg_of_pos_of_neg hpl hneg
    omega

theorem randomLink_eq_wrap {e : Experiment} (d : Draws) (hg : e.Geometry) (i j : Nat) :
    randomLink e d i j = wrap32 ((affineCell e.pagesPerChain d.pageFactor d.pageOffset i *
      e.linesPerPage + affineCell e.linesPerPage (d.lineFactor i) (d.lineOffset i) j) *
      e.linksPerLine) := by
  simp only [randomLink, wrap32_wrap64, hg.linksPerPage_eq, add_zero]
  congr 1
  ring

section RandomList
variable (e : Experiment) (d : Draws)

/-- The `k`-th link of `random_mem_init` over all pages. -/
def randomNode (k : Nat) : Int :=
  randomLink e d (k / e.linesPerPage.toNat) (k % e.linesPerPage.toNat)

theorem flatten_range_map {α : Type} (f : Nat → Nat → α) (p l : Nat) :
    ((List.range p).map fun i => (List.range l).map (f i)).flatten =
      (List.range (p * l)).map fun k => f (k / l) (k % l) := by
  induction p with
  | zero => simp
  | succ p ih =>
    rw [List.range_succ, List.map_append, List.flatten_append, ih, Nat.add_mul, Nat.one_mul,
      List.range_add, List.map_append]
    congr 1
    simp only [List.map_cons, List.map_nil, List.flatten_cons, List.flatten_nil,
      List.append_nil, List.map_map]
    apply List.map_congr_left
    intro j hj
    have hj' := List.mem_range.mp hj
    simp only [Function.comp_apply]
    rw [Nat.mul_comm p l, Nat.mul_add_div (by omega), Nat.div_eq_of_lt hj', Nat.mul_add_mod,
      Nat.mod_eq_of_lt hj', Nat.add_zero]

theorem mapM_pure {α β : Type} (f : α → β) (xs : List α) :
    (xs.mapM fun x => (some (f x) : Option β)) = some (xs.map f) := by
  induction xs with
  | nil => rfl
  | cons x xs ih => simp [List.mapM_cons, ih]

theorem randomLinks_of_lt (hp : e.pagesPerChain < 2147483648)
    (hl : e.linesPerPage < 2147483648) : randomLinks e d =
      some ((List.range (e.pagesPerChain.toNat * e.linesPerPage.toNat)).map (randomNode e d)) := by
  unfold randomLinks
  rw [countUp_of_lt hp, countUp_of_lt hl]
  simp only [Option.bind_eq_bind, Option.bind_some, Option.pure_def, List.map_map, mapM_pure,
    Option.some.injEq, Function.comp_def, Int.toNat_natCast]
  exact flatten_range_map (randomLink e d) e.pagesPerChain.toNat e.linesPerPage.toNat

theorem randomMemInit_of_lt (hp : e.pagesPerChain < 2147483648)
    (hl : e.linesPerPage < 2147483648) (r : Ring) : randomMemInit e d = some r ↔
    0 < e.pagesPerChain.toNat * e.linesPerPage.toNat ∧
    (∀ k < e.pagesPerChain.toNat * e.linesPerPage.toNat, InBlock e (randomNode e d k)) ∧
    r = ⟨randomNode e d 0,
      ring (fun _ => none) (randomNode e d) (e.pagesPerChain.toNat * e.linesPerPage.toNat),
      (e.pagesPerChain.toNat * e.linesPerPage.toNat : Nat)⟩ := by
  unfold randomMemInit
  rw [randomLinks_of_lt e d hp hl]
  exact buildRing_eq_some_iff e (randomNode e d) _ r

/-- The loops end, and a page has a line, or nothing is linked. -/
theorem randomMemInit_bounds {r : Ring} (h : randomMemInit e d = some r) :
    1 ≤ e.pagesPerChain ∧ e.pagesPerChain < 2147483648 ∧
      1 ≤ e.linesPerPage ∧ e.linesPerPage < 2147483648 := by
  obtain ⟨links, hlinks, hr⟩ := Option.bind_eq_some_iff.mp h
  have hne := ((buildRing_links e links r).mp hr).1
  obtain ⟨pages, hpages, hrest⟩ := Option.bind_eq_some_iff.mp hlinks
  obtain ⟨visited, hvisited, hflat⟩ := Option.bind_eq_some_iff.mp hrest
  obtain ⟨hp, rfl⟩ := (countUp_eq_some_iff _ _).mp hpages
  have hp1 : 1 ≤ e.pagesPerChain := by
    by_contra hneg
    have hzero : e.pagesPerChain.toNat = 0 := by omega
    simp only [hzero, List.range_zero, List.map_nil, List.mapM_nil, Option.pure_def,
      Option.some.injEq] at hvisited
    subst hvisited
    simp only [List.flatten_nil, Option.pure_def, Option.some.injEq] at hflat
    exact hne hflat.symm
  have hl : e.linesPerPage < 2147483648 := by
    by_contra hge
    have hcons : e.pagesPerChain.toNat = (e.pagesPerChain.toNat - 1) + 1 := by omega
    rw [hcons, List.range_succ_eq_map] at hvisited
    have hlarge : 2147483648 ≤ e.linesPerPage := by omega
    simp [List.mapM_cons, countUp_of_ge hlarge] at hvisited
  refine ⟨hp1, hp, ?_, hl⟩
  rw [randomLinks_of_lt e d hp hl, Option.some.injEq] at hlinks
  by_contra hneg
  have hzero : e.linesPerPage.toNat = 0 := by omega
  rw [hzero, Nat.mul_zero] at hlinks
  exact hne hlinks.symm

theorem randomMemInit_eq_some_iff (r : Ring) : randomMemInit e d = some r ↔
    (1 ≤ e.pagesPerChain ∧ e.pagesPerChain < 2147483648 ∧
      1 ≤ e.linesPerPage ∧ e.linesPerPage < 2147483648) ∧
    (∀ k < e.pagesPerChain.toNat * e.linesPerPage.toNat, InBlock e (randomNode e d k)) ∧
    r = ⟨randomNode e d 0,
      ring (fun _ => none) (randomNode e d) (e.pagesPerChain.toNat * e.linesPerPage.toNat),
      (e.pagesPerChain.toNat * e.linesPerPage.toNat : Nat)⟩ := by
  constructor
  · intro h
    have hb := randomMemInit_bounds e d h
    exact ⟨hb, ((randomMemInit_of_lt e d hb.2.1 hb.2.2.2 r).mp h).2⟩
  · rintro ⟨hb, hin⟩
    refine (randomMemInit_of_lt e d hb.2.1 hb.2.2.2 r).mpr ⟨?_, hin⟩
    exact Nat.mul_pos (by omega) (by omega)

end RandomList

end PChase
