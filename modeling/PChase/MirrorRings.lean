import PChase.StridedRing

/-!
# Forward and reverse rings mirror each other

A stride of `s` lines leads upwards through the line heads `0`, `s`, `2 s`, …, and a
stride of `-s` lines downwards through the same heads: each ring undoes the other.
-/

namespace PChase

open CInt CountLoop AffineCycle NextWalk
set_option autoImplicit false

/-- The multiples of `s` below the number of lines, counted by a division that rounds up. -/
def strideCount (e : Experiment) (s : Int) : Int := (e.linesPerChain + s - 1) / s

def lineHeads (e : Experiment) (s : Int) : List Int :=
  (List.range (strideCount e s).toNat).map fun k : Nat => k * s * e.linksPerLine

/-- A chain of lines that hold nodes, as many as `parse_args` derives, in which neither the
line counter of a stride of `s` lines nor a link leaves the range of an `int`. -/
structure Experiment.SmallChain (e : Experiment) (s : Int) : Prop where
  stride_pos : 1 ≤ s
  lines_pos : 1 ≤ e.linesPerChain
  links_pos : 1 ≤ e.linksPerLine
  links_eq : e.linksPerChain = e.linesPerChain * e.linksPerLine
  lines_lt : e.linesPerChain + s < 2147483648
  links_lt : e.linksPerChain < 2147483648

theorem strideCount_bounds (e : Experiment) {s : Int} (hs : 1 ≤ s) :
    (strideCount e s - 1) * s < e.linesPerChain ∧ e.linesPerChain ≤ strideCount e s * s := by
  have hle := Int.ediv_mul_le (e.linesPerChain + s - 1) (b := s) (by omega)
  have hlt := Int.lt_ediv_add_one_mul_self (e.linesPerChain + s - 1) (b := s) (by omega)
  change strideCount e s * s ≤ _ at hle
  change _ < (strideCount e s + 1) * s at hlt
  rw [Int.add_mul, Int.one_mul] at hlt
  rw [Int.sub_mul, Int.one_mul]
  omega

theorem lt_strideCount_iff (e : Experiment) {s : Int} (hs : 1 ≤ s) (k : Int) :
    k < strideCount e s ↔ k * s < e.linesPerChain := by
  have hbounds := strideCount_bounds e hs
  constructor
  · intro hk
    have hle : k * s ≤ (strideCount e s - 1) * s :=
      Int.mul_le_mul_of_nonneg_right (by omega) (by omega)
    omega
  · intro hk
    by_contra hge
    have hle : strideCount e s * s ≤ k * s := Int.mul_le_mul_of_nonneg_right (by omega) (by omega)
    omega

namespace Experiment.SmallChain
variable {e : Experiment} {s : Int} (h : e.SmallChain s)
include h

theorem count_pos : 1 ≤ strideCount e s := by
  have hlines := h.lines_pos
  have hfirst := (lt_strideCount_iff e h.stride_pos 0).mpr (by omega)
  omega

theorem heads_length : ((lineHeads e s).length : Int) = strideCount e s := by
  have hpos := h.count_pos
  simp only [lineHeads, List.length_map, List.length_range]
  omega

theorem mem_heads_iff (l : Int) : l ∈ lineHeads e s ↔
    ∃ i, 0 ≤ i ∧ i < e.linesPerChain ∧ s ∣ i ∧ l = i * e.linksPerLine := by
  have hs := h.stride_pos
  simp only [lineHeads, List.mem_map, List.mem_range]
  constructor
  · rintro ⟨k, hk, rfl⟩
    have hline := (lt_strideCount_iff e hs k).mp (by omega)
    exact ⟨k * s, Int.mul_nonneg (by omega) (by omega), hline, Int.dvd_mul_left k s, rfl⟩
  · rintro ⟨i, h0, hi, ⟨k, rfl⟩, rfl⟩
    have hk : 0 ≤ k := by
      by_contra hneg
      have := Int.mul_neg_of_pos_of_neg (a := s) (b := k) (by omega) (by omega)
      omega
    have hlt := (lt_strideCount_iff e hs k).mpr (by rw [Int.mul_comm]; exact hi)
    refine ⟨k.toNat, by omega, ?_⟩
    rw [Int.toNat_of_nonneg hk, Int.mul_comm k s]

theorem heads_ascend : (lineHeads e s).Pairwise (· < ·) := by
  have hs := h.stride_pos
  have hk := h.links_pos
  rw [lineHeads, List.pairwise_map]
  refine List.pairwise_lt_range.imp ?_
  intro a b hab
  have hline : (a : Int) * s < b * s := Int.mul_lt_mul_of_pos_right (by omega) (by omega)
  exact Int.mul_lt_mul_of_pos_right hline (by omega)

theorem heads_ne : lineHeads e s ≠ [] := by
  have hlen := h.heads_length
  have hpos := h.count_pos
  intro hnil
  rw [hnil, List.length_nil] at hlen
  omega

theorem heads_nodup : (lineHeads e s).Nodup := h.heads_ascend.imp Int.ne_of_lt

theorem heads_inBlock : ∀ l ∈ lineHeads e s, InBlock e l := by
  intro l hl
  obtain ⟨i, h0, hi, _, rfl⟩ := (h.mem_heads_iff l).mp hl
  have hk := h.links_pos
  have hlt : i * e.linksPerLine < e.linesPerChain * e.linksPerLine :=
    Int.mul_lt_mul_of_pos_right hi (by omega)
  rw [InBlock, h.links_eq]
  exact ⟨Int.mul_nonneg h0 (by omega), hlt⟩

end Experiment.SmallChain

theorem buildRing_lap {e : Experiment} {nodes : List Int} (hne : nodes ≠ [])
    (hin : ∀ l ∈ nodes, InBlock e l) (hnodup : nodes.Nodup) :
    ∃ r, buildRing e nodes = some r ∧ Lap r.next r.root nodes ∧
      r.opsPerChain = nodes.length := by
  refine ⟨_, (buildRing_links e nodes _).mpr ⟨hne, hin, rfl⟩, ?_, rfl⟩
  have hnodes : (List.range nodes.length).map (nodes.getD · 0) = nodes := by
    apply List.ext_getElem
    · simp
    · intro k _ hk
      simp [List.getD_eq_getElem?_getD, List.getElem?_eq_getElem hk]
  have hlap := ring_lap (nodes.getD · 0) (List.length_pos_iff.mpr hne) (by
    intro i hi j hj heq
    simp only [List.getD_eq_getElem?_getD, List.getElem?_eq_getElem hi,
      List.getElem?_eq_getElem hj, Option.getD_some] at heq
    exact (List.Nodup.getElem_inj_iff hnodup).mp heq)
  rw [hnodes] at hlap
  exact hlap

section Strided
variable {e : Experiment} (h : e.SmallChain e.step)
include h

theorem lastIndex_add_one : e.lastIndex + 1 = strideCount e e.step := by
  have hs := h.stride_pos
  have hsplit : e.linesPerChain + e.step - 1 = (e.linesPerChain - 1) + 1 * e.step := by ring
  rw [strideCount, hsplit, Int.add_mul_ediv_right _ _ (by omega)]
  rfl

theorem stridedFits_of_smallChain : e.StridedFits := by
  have hs := h.stride_pos
  have hk := h.links_pos
  have hlines := h.lines_lt
  have hlast : e.lastIndex * e.step ≤ e.linesPerChain - 1 :=
    Int.ediv_mul_le (e.linesPerChain - 1) (b := e.step) (by omega)
  have hlink : e.lastIndex * e.step * e.linksPerLine ≤ e.linesPerChain * e.linksPerLine :=
    Int.mul_le_mul_of_nonneg_right (by omega) (by omega)
  refine ⟨h.lines_pos, hk, ?_, ?_⟩
  · rw [Int.add_mul, Int.one_mul]
    omega
  · have hlinks := h.links_lt
    rw [h.links_eq] at hlinks
    omega

theorem lastIndex_toNat : e.lastIndex.toNat + 1 = (strideCount e e.step).toNat := by
  have hcount := lastIndex_add_one h
  have hpos := h.count_pos
  omega

theorem reverse_heads : (lineHeads e e.step).reverse =
    (List.range (strideCount e e.step).toNat).map fun k : Nat =>
      (e.lastIndex - k) * e.step * e.linksPerLine := by
  have hcount := lastIndex_add_one h
  apply List.ext_getElem
  · simp [lineHeads]
  · intro k hk hk'
    simp only [lineHeads, List.length_reverse, List.length_map, List.length_range] at hk
    simp only [lineHeads, List.getElem_reverse, List.getElem_map, List.getElem_range,
      List.length_map, List.length_range]
    have hindex : (((strideCount e e.step).toNat - 1 - k : Nat) : Int) = e.lastIndex - k := by
      omega
    rw [hindex]

theorem forwardMemInit_lap (hpos : 0 < e.stride) : ∃ r, forwardMemInit e = some r ∧
    Lap r.next r.root (lineHeads e e.step) ∧ r.opsPerChain = strideCount e e.step := by
  have hlinks := forwardLinks_eq (stridedFits_of_smallChain h) (by omega) hpos
  rw [lastIndex_toNat h] at hlinks
  obtain ⟨r, hr, hlap, hops⟩ := buildRing_lap (e := e) h.heads_ne h.heads_inBlock h.heads_nodup
  refine ⟨r, ?_, hlap, hops.trans h.heads_length⟩
  rw [forwardMemInit, hlinks]
  exact hr

theorem reverseMemInit_lap (hneg : e.stride < 0) : ∃ r, reverseMemInit e = some r ∧
    Lap r.next r.root (lineHeads e e.step).reverse ∧ r.opsPerChain = strideCount e e.step := by
  have hlinks := reverseLinks_eq (stridedFits_of_smallChain h) (by omega) hneg
  rw [lastIndex_toNat h, ← reverse_heads h] at hlinks
  have hin : ∀ l ∈ (lineHeads e e.step).reverse, InBlock e l := fun l hl =>
    h.heads_inBlock l (List.mem_reverse.mp hl)
  obtain ⟨r, hr, hlap, hops⟩ := buildRing_lap (by simpa using h.heads_ne) hin
    (List.nodup_reverse.mpr h.heads_nodup)
  rw [List.length_reverse] at hops
  refine ⟨r, ?_, hlap, hops.trans h.heads_length⟩
  rw [reverseMemInit, hlinks]
  exact hr

/-- Every chain gets the same ring, whatever was drawn. -/
theorem memInit_lap (hstrided : e.accessPattern = .strided) : ∃ r nodes,
    (∀ d, memInit e d = some r) ∧ Lap r.next r.root nodes ∧ nodes.Perm (lineHeads e e.step) ∧
      r.opsPerChain = strideCount e e.step := by
  by_cases hpos : 0 < e.stride
  · obtain ⟨r, hr, hlap, hops⟩ := forwardMemInit_lap h hpos
    refine ⟨r, _, fun d => ?_, hlap, List.Perm.refl _, hops⟩
    simp [memInit, hstrided, hpos, hr]
  · have hstep := h.stride_pos
    have hneg : e.stride < 0 := by
      unfold Experiment.step at hstep
      omega
    obtain ⟨r, hr, hlap, hops⟩ := reverseMemInit_lap h hneg
    refine ⟨r, _, fun d => ?_, hlap, List.reverse_perm _, hops⟩
    simp [memInit, hstrided, hpos, hr]

end Strided

theorem Experiment.Accepted.smallChain {e : Experiment} (ha : e.Accepted)
    (hlines : 1 ≤ e.linesPerChain) (hlinks : 1 ≤ e.linksPerLine)
    (hcounter : e.linesPerChain + e.step < 2147483648) (hnodes : e.linksPerChain < 2147483648) :
    e.SmallChain e.step := by
  have hstep := step_pos ha.stride_ne
  have hgeometry := ha.sizes.geometry (by omega)
  exact ⟨by omega, hlines, hlinks, hgeometry.links_eq, hcounter, hnodes⟩

/-- The two strides of one length build rings through the same line heads, upwards and
downwards, and the pointers of each lead back along those of the other. -/
theorem strides_mirror {e : Experiment} {s : Int} (h : e.SmallChain s) :
    ∃ up down, forwardMemInit { e with stride := s } = some up ∧
      reverseMemInit { e with stride := -s } = some down ∧
      ((lineHeads e s).Pairwise (· < ·) ∧ ∀ l, l ∈ lineHeads e s ↔
        ∃ i, 0 ≤ i ∧ i < e.linesPerChain ∧ s ∣ i ∧ l = i * e.linksPerLine) ∧
      Lap up.next up.root (lineHeads e s) ∧ Lap down.next down.root (lineHeads e s).reverse ∧
      (∀ a b, up.next a = some b ↔ down.next b = some a) ∧
      ((lineHeads e s).length : Int) = strideCount e s ∧
      up.opsPerChain = strideCount e s ∧ down.opsPerChain = strideCount e s := by
  have hs := h.stride_pos
  have hforward : ({ e with stride := s } : Experiment).step = s := by
    change (s.natAbs : Int) = s
    omega
  have hreverse : ({ e with stride := -s } : Experiment).step = s := by
    change ((-s).natAbs : Int) = s
    omega
  have hup : ({ e with stride := s } : Experiment).SmallChain
      ({ e with stride := s } : Experiment).step := by
    rw [hforward]
    exact { h with }
  have hdown : ({ e with stride := -s } : Experiment).SmallChain
      ({ e with stride := -s } : Experiment).step := by
    rw [hreverse]
    exact { h with }
  obtain ⟨up, hinit, hlap, hops⟩ := forwardMemInit_lap hup (by change 0 < s; omega)
  obtain ⟨down, hinit', hlap', hops'⟩ := reverseMemInit_lap hdown (by change -s < 0; omega)
  rw [hforward] at hlap hops
  rw [hreverse] at hlap' hops'
  exact ⟨up, down, hinit, hinit', ⟨h.heads_ascend, h.mem_heads_iff⟩, hlap, hlap',
    fun a b => hlap.next_iff_reverse hlap', h.heads_length, hops, hops'⟩

/-- Seven lines and a stride of three: the last stride ends on the last line. -/
theorem strides_mirror_of_seven_lines :
    let e : Experiment := { linesPerChain := 7, linksPerLine := 4, linksPerChain := 28 }
    ∃ up down, forwardMemInit { e with stride := 3 } = some up ∧
      reverseMemInit { e with stride := -3 } = some down ∧
      Lap up.next up.root [0, 12, 24] ∧ Lap down.next down.root [24, 12, 0] ∧
      (∀ a b, up.next a = some b ↔ down.next b = some a) ∧
      up.opsPerChain = 3 ∧ down.opsPerChain = 3 := by
  intro e
  have h : e.SmallChain 3 := ⟨by decide, by decide, by decide, rfl, by decide, by decide⟩
  obtain ⟨up, down, hup, hdown, _, hlap, hlap', hinverse, _, hops, hops'⟩ := strides_mirror h
  exact ⟨up, down, hup, hdown, hlap, hlap', hinverse, hops, hops'⟩

end PChase
