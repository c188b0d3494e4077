import PChase.FormedLinks
import PChase.RandomCoverage

/-!
# When random links stay inside the block

With an offset and a factor at the top of their ranges `random_mem_init` computes its
largest products, and a negative remainder of an overflowed product leaves the block.
-/

namespace PChase

open CInt CountLoop AffineCycle NextWalk
set_option autoImplicit false

/-- Every product of both loops and every index is in the range of an `int`. A line that
holds a multiple of `2^32` links gives the link zero at every step. -/
def Experiment.RandomFits (e : Experiment) : Prop :=
  e.pagesPerChain ≤ 0 ∨ e.linesPerPage ≤ 0 ∨ (1 ≤ e.linksPerLine ∧
    (e.linksPerLine % 4294967296 = 0 ∨
      (164 * (e.pagesPerChain - 1) < 2147483648 ∧ 164 * (e.linesPerPage - 1) < 2147483648 ∧
        (e.linesPerChain - 1) * (e.linksPerLine % 4294967296) < 2147483648)))

def RandomInBlock (e : Experiment) : Prop :=
  ∀ random : Nat → Nat, (∀ k, random k < 2147483648) →
    ∀ link, RandomForms e (draws e random) link → InBlock e link

theorem affineCell_range {n f o : Int} {k : Nat} (hn : 164 * (n - 1) < 2147483648)
    (hf : ∃ p ∈ primeTable, f = (p : Nat)) (ho : 0 ≤ o ∧ o < n) (hk : k < n) :
    0 ≤ affineCell n f o k ∧ affineCell n f o k < n := by
  obtain ⟨p, hp, rfl⟩ := hf
  obtain ⟨_, _, hp2⟩ := primeTable_bounds p hp
  have hle : (p : Int) * k ≤ 163 * (n - 1) := by
    calc (p : Int) * k ≤ 163 * k := Int.mul_le_mul_of_nonneg_right (by omega) (by omega)
      _ ≤ 163 * (n - 1) := Int.mul_le_mul_of_nonneg_left (by omega) (by omega)
  have hnonneg : 0 ≤ (p : Int) * k := Int.mul_nonneg (by omega) (by omega)
  rw [affineCell_eq, wrap32_of_bounds (by omega) (by omega)]
  exact ⟨Int.tmod_nonneg n (by omega), Int.tmod_lt_of_pos _ (by omega)⟩

theorem inBlock_of_line {e : Experiment} (hg : e.Geometry) (hk : 1 ≤ e.linksPerLine) {v : Int}
    (h0 : 0 ≤ v) (h1 : v < e.linesPerChain) : InBlock e (v * (e.linksPerLine % 4294967296)) := by
  rw [InBlock, hg.linksPerChain_eq, ← hg.linesPerChain_eq]
  refine ⟨Int.mul_nonneg h0 (by omega), ?_⟩
  calc v * (e.linksPerLine % 4294967296)
      ≤ v * e.linksPerLine := Int.mul_le_mul_of_nonneg_left (by omega) h0
    _ < e.linesPerChain * e.linksPerLine := Int.mul_lt_mul_of_pos_right h1 (by omega)

theorem line_bounds {p l page line : Int} (hl : 1 ≤ l) (hpage : 0 ≤ page ∧ page < p)
    (hline : 0 ≤ line ∧ line < l) : 0 ≤ page * l + line ∧ page * l + line < p * l := by
  have h0 : 0 ≤ page * l := Int.mul_nonneg (by omega) (by omega)
  have h1 : page * l ≤ (p - 1) * l := Int.mul_le_mul_of_nonneg_right (by omega) (by omega)
  rw [Int.sub_mul, Int.one_mul] at h1
  omega

/-- A formed link is the line it heads times the low 32 bits of the links of a line. -/
theorem random_link_value {e : Experiment} (hs : e.SizesDerived) (h : e.RandomFits)
    {random : Nat → Nat} (hr : ∀ k, random k < 2147483648) {link : Int}
    (hlink : RandomForms e (draws e random) link) : 1 ≤ e.linksPerLine ∧
      ∃ v, 0 ≤ v ∧ v < e.linesPerChain ∧ link = v * (e.linksPerLine % 4294967296) := by
  have hp : 1 ≤ e.pagesPerChain := by
    obtain ⟨i, _, hi, _⟩ := hlink
    have := (reaches_countUp_iff _ _).mp hi
    omega
  have hl : 1 ≤ e.linesPerPage := by
    obtain ⟨_, j, _, _, hj, _⟩ := hlink
    have := (reaches_countUp_iff _ _).mp hj
    omega
  obtain ⟨hk, hfits⟩ : 1 ≤ e.linksPerLine ∧ _ := (h.resolve_left (by omega)).resolve_left (by omega)
  have hg := hs.geometry (by omega)
  have hd := draws_valid hp hl hr
  refine ⟨hk, ?_⟩
  rcases hfits with hzero | ⟨hps, hls, hlast⟩
  · obtain ⟨i, j, _, _, _, rfl⟩ := hlink
    refine ⟨0, Int.le_refl 0, ?_, ?_⟩
    · rw [hg.linesPerChain_eq]
      exact Int.mul_pos (by omega) (by omega)
    · rw [randomLink_eq_wrap _ hg, ← wrap32_mul_emod, hzero, Int.mul_zero, wrap32_zero,
        Int.mul_zero]
  · obtain ⟨i, j, hi, hj, rfl⟩ := (randomForms_iff (by omega) (by omega)).mp hlink
    have hpage := affineCell_range hps hd.pageFactor_mem hd.pageOffset_range hi
    have hline := affineCell_range hls (hd.lineFactor_mem i hi) (hd.lineOffset_range i hi) hj
    have hv := line_bounds hl hpage hline
    rw [← hg.linesPerChain_eq] at hv
    refine ⟨_, hv.1, hv.2, ?_⟩
    rw [randomLink_eq_wrap _ hg, ← wrap32_mul_emod]
    apply wrap32_of_bounds (Int.mul_nonneg hv.1 (by omega))
    apply Int.lt_of_le_of_lt (Int.mul_le_mul_of_nonneg_right _ (by omega)) hlast
    omega

theorem randomInBlock_of_fits {e : Experiment} (hs : e.SizesDerived) (h : e.RandomFits) :
    RandomInBlock e := by
  intro random hr link hlink
  obtain ⟨hk, v, h0, h1, rfl⟩ := random_link_value hs h hr hlink
  exact inBlock_of_line (hs.geometry (by omega)) hk h0 h1

section Adversary
variable {e : Experiment} (hg : e.Geometry)
include hg

def fourValues (a b c d : Nat) (k : Nat) : Nat := [a, b, c, d].getD k 0

omit hg in
theorem fourValues_lt {a b c d : Nat} (ha : a < 2147483648) (hb : b < 2147483648)
    (hc : c < 2147483648) (hd : d < 2147483648) (k : Nat) : fourValues a b c d k < 2147483648 := by
  match k with
  | 0 => exact ha
  | 1 => exact hb
  | 2 => exact hc
  | 3 => exact hd
  | k + 4 => show (0 : Nat) < 2147483648; omega

omit hg in
theorem drawOffset_of_lt {size : Int} {r : Nat} (hr : r < size) (hr' : r < 2147483648) :
    drawOffset size r = r := by
  rw [drawOffset, Int.tmod_eq_of_lt (by omega) hr, wrap32_of_bounds (by omega) (by omega)]

omit hg in
theorem affineCell_zero {n f : Int} {o : Nat} (ho : o < n) (ho' : o < 2147483648) :
    affineCell n f o (0 : Nat) = o := by
  rw [affineCell_eq, Nat.cast_zero, Int.mul_zero, Int.zero_add,
    wrap32_of_bounds (by omega) (by omega), Int.tmod_eq_of_lt (by omega) ho]

theorem firstPage_link {q c r : Nat} (hq : q < e.pagesPerChain) (hq' : q < 2147483648)
    (hr : r < e.linesPerPage) (hr' : r < 2147483648) (j : Nat) :
    randomLink e (draws e (fourValues 0 q c r)) 0 j =
      wrap32 ((q * e.linesPerPage + affineCell e.linesPerPage (drawFactor c) r j) *
        e.linksPerLine) := by
  have hpage : (draws e (fourValues 0 q c r)).pageOffset = q := drawOffset_of_lt hq hq'
  have hline : (draws e (fourValues 0 q c r)).lineOffset 0 = r := drawOffset_of_lt hr hr'
  rw [randomLink_eq_wrap _ hg, hpage, hline, affineCell_zero hq hq']
  rfl

theorem firstLine_link {a o : Nat} (hl : 1 ≤ e.linesPerPage) (ho : o < e.pagesPerChain)
    (ho' : o < 2147483648) (i : Nat) :
    randomLink e (draws e (fourValues a o 0 0)) i 0 =
      wrap32 (affineCell e.pagesPerChain (drawFactor a) o i * e.linesPerPage * e.linksPerLine) := by
  have hpage : (draws e (fourValues a o 0 0)).pageOffset = o := drawOffset_of_lt ho ho'
  have hzero : ∀ k, fourValues a o 0 0 (k + 2) = 0
    | 0 => rfl
    | 1 => rfl
    | _ + 2 => rfl
  have hline : (draws e (fourValues a o 0 0)).lineOffset i = (0 : Nat) := by
    simp only [draws, hzero]
    exact drawOffset_of_lt (by omega) (by omega)
  rw [randomLink_eq_wrap _ hg, hpage, hline, affineCell_zero (by omega) (by omega),
    Nat.cast_zero, Int.add_zero]
  rfl

end Adversary

theorem exists_negative_cell {n : Nat} (hn : n < 2147483648) (h : 2147483648 ≤ 164 * (n - 1)) :
    ∃ i < n, ∃ o < n, affineCell n (163 : Nat) o i < 0 := by
  have hneg : ∀ i o : Nat, 2147483648 ≤ 163 * i + o → 163 * i + o < 4294967296 →
      ¬ (n : Int) ∣ wrap32 ((163 : Nat) * (i : Int) + o) → affineCell n (163 : Nat) o i < 0 := by
    intro i o h0 h1 hdvd
    have hle := affineCell_nonpos (n := n) h0 h1
    have hne : affineCell n (163 : Nat) o i ≠ 0 := by
      intro hz
      rw [affineCell_eq] at hz
      exact hdvd (Int.dvd_of_tmod_eq_zero hz)
    omega
  have hwrap : ∀ i o : Nat, 2147483648 ≤ 163 * i + o → 163 * i + o < 4294967296 →
      wrap32 ((163 : Nat) * (i : Int) + o) = 163 * i + o - 4294967296 := by
    intro i o h0 h1
    rw [wrap32_neg_of_overflow (by omega) (by omega)]
    rfl
  obtain ⟨i, hi0, hin, hbefore, hi1, hi2⟩ := exists_first_overflow (f := 163) (o := n - 1)
    (n := n) (by omega) (by omega) (by omega)
  by_cases hdvd : (n : Int) ∣ wrap32 ((163 : Nat) * (i : Int) + (n - 1 : Nat))
  · rw [hwrap i (n - 1) hi1 (by omega)] at hdvd
    by_cases hnext : i + 1 < n
    · refine ⟨i + 1, hnext, n - 1, by omega, hneg _ _ (by omega) (by omega) fun hdvd' => ?_⟩
      rw [hwrap (i + 1) (n - 1) (by omega) (by omega)] at hdvd'
      have hle := Int.le_of_dvd (by omega) (Int.dvd_sub hdvd' hdvd)
      omega
    · refine ⟨i, hin, n - 2, by omega, hneg _ _ (by omega) (by omega) fun hdvd' => ?_⟩
      rw [hwrap i (n - 2) (by omega) (by omega)] at hdvd'
      have hle := Int.le_of_dvd (by omega) (Int.dvd_sub hdvd hdvd')
      omega
  · exact ⟨i, hin, n - 1, by omega, hneg _ _ hi1 (by omega) hdvd⟩

section Necessity
variable {e : Experiment} (hs : e.SizesDerived) (hp : 1 ≤ e.pagesPerChain)
  (hl : 1 ≤ e.linesPerPage) (h : RandomInBlock e)
include hs hp hl h

theorem links_pos_of_inBlock : 1 ≤ e.linksPerLine := by
  have hfirst := h (fun _ => 0) (fun _ => by omega) _
    ⟨0, 0, (reaches_countUp_iff _ _).mpr (by omega), by omega,
      (reaches_countUp_iff _ _).mpr (by omega), rfl⟩
  exact hs.linksPerLine_pos hp hl (by unfold InBlock at hfirst; omega)

/-- A line step of the first page that the loop reaches gives no negative link. -/
theorem firstPage_nonneg {q c r : Nat} (hq : q < e.pagesPerChain) (hq' : q < 2147483648)
    (hc : c < 2147483648) (hr : r < e.linesPerPage) (hr' : r < 2147483648) {j : Nat}
    (hj : j < e.linesPerPage ∨ 2147483648 ≤ e.linesPerPage) :
    0 ≤ wrap32 ((q * e.linesPerPage + affineCell e.linesPerPage (drawFactor c) r j) *
      e.linksPerLine) := by
  have hk := links_pos_of_inBlock hs hp hl h
  rw [← firstPage_link (hs.geometry (by omega)) hq hq' hr hr' j]
  exact (h _ (fourValues_lt (by omega) hq' hc hr') _
    ⟨0, j, (reaches_countUp_iff _ _).mpr (by omega), by omega,
      (reaches_countUp_iff _ _).mpr hj, rfl⟩).1

theorem firstLine_nonneg (hl' : e.linesPerPage < 2147483648) {a o : Nat} (ha : a < 2147483648)
    (ho : o < e.pagesPerChain) (ho' : o < 2147483648) {i : Nat}
    (hi : i < e.pagesPerChain ∨ 2147483648 ≤ e.pagesPerChain) :
    0 ≤ wrap32 (affineCell e.pagesPerChain (drawFactor a) o i * e.linesPerPage *
      e.linksPerLine) := by
  have hk := links_pos_of_inBlock hs hp hl h
  rw [← firstLine_link (hs.geometry (by omega)) hl ho ho' i]
  exact (h _ (fourValues_lt ha ho' (by omega) (by omega)) _
    ⟨i, 0, (reaches_countUp_iff _ _).mpr hi, fun _ => hl',
      (reaches_countUp_iff _ _).mpr (by omega), rfl⟩).1

omit hs hp hl h in
theorem affineCell_minus_one {n : Int} (hn : 1 < n) :
    affineCell n (drawFactor 0) (0 : Nat) (858993459 : Nat) = -1 := by
  have hwrap : wrap32 (drawFactor 0 * (858993459 : Nat) + (0 : Nat)) = -1 := by decide
  rw [affineCell_eq, hwrap, Int.neg_tmod, Int.tmod_eq_of_lt (by omega) hn]

theorem lines_lt_of_inBlock : e.linesPerPage < 2147483648 := by
  by_contra hge
  have hk := links_pos_of_inBlock hs hp hl h
  have hneg := firstPage_nonneg hs hp hl h (q := 0) (c := 0) (r := 0) (j := 858993459)
    (by omega) (by omega) (by omega) (by omega) (by omega) (.inr (by omega))
  have hpage := hs.page_bound
  have hsmall : e.linksPerLine.natAbs * 2147483648 ≤ e.linksPerLine.natAbs * e.linesPerPage.natAbs :=
    Nat.mul_le_mul_left _ (by omega)
  rw [affineCell_minus_one (by omega), Nat.cast_zero, Int.zero_mul, Int.zero_add,
    wrap32_of_inInt32 ⟨by omega, by omega⟩] at hneg
  omega

theorem pages_lt_of_inBlock : e.pagesPerChain < 2147483648 := by
  by_contra hge
  have hk := links_pos_of_inBlock hs hp hl h
  have hneg := firstLine_nonneg hs hp hl h (lines_lt_of_inBlock hs hp hl h) (a := 0) (o := 0)
    (i := 858993459) (by omega) (by omega) (by omega) (.inr (by omega))
  have hchain := hs.chain_bound
  have hpos : 0 < e.linesPerPage * e.linksPerLine := Int.mul_pos (by omega) (by omega)
  have hsmall : e.linksPerLine.natAbs * e.linesPerPage.natAbs * 2147483648 ≤
      e.linksPerLine.natAbs * e.linesPerPage.natAbs * e.pagesPerChain.natAbs :=
    Nat.mul_le_mul_left _ (by omega)
  rw [← Nat.mul_assoc e.linksPerLine.natAbs] at hchain
  have habs : ((e.linksPerLine.natAbs * e.linesPerPage.natAbs : Nat) : Int) =
      e.linesPerPage * e.linksPerLine := by
    rw [← Int.natAbs_mul, Int.mul_comm]
    omega
  rw [affineCell_minus_one (by omega), Int.neg_mul, Int.one_mul, Int.neg_mul,
    wrap32_of_inInt32 ⟨by omega, by omega⟩] at hneg
  omega

theorem line_nonneg {v : Nat} (hv : v < e.linesPerChain) : 0 ≤ wrap32 (v * e.linksPerLine) := by
  have hk := links_pos_of_inBlock hs hp hl h
  have hp' := pages_lt_of_inBlock hs hp hl h
  have hl' := lines_lt_of_inBlock hs hp hl h
  rw [(hs.geometry (by omega)).linesPerChain_eq] at hv
  have hr : v % e.linesPerPage.toNat < e.linesPerPage.toNat := Nat.mod_lt _ (by omega)
  have hq : v / e.linesPerPage.toNat < e.pagesPerChain.toNat := by
    apply Nat.div_lt_of_lt_mul
    rw [Nat.mul_comm]
    have : ((e.pagesPerChain.toNat * e.linesPerPage.toNat : Nat) : Int) =
        e.pagesPerChain * e.linesPerPage := by
      push_cast
      rw [Int.toNat_of_nonneg (by omega), Int.toNat_of_nonneg (by omega)]
    omega
  have hpage : ((v / e.linesPerPage.toNat : Nat) : Int) < e.pagesPerChain := by omega
  have hline : ((v % e.linesPerPage.toNat : Nat) : Int) < e.linesPerPage := by omega
  have hnonneg := firstPage_nonneg hs hp hl h (c := 0) (j := 0) hpage (by omega) (by omega) hline
    (by omega) (by omega)
  have hsplit : ((v / e.linesPerPage.toNat : Nat) : Int) * e.linesPerPage +
      (v % e.linesPerPage.toNat : Nat) = v := by
    have := Nat.div_add_mod v e.linesPerPage.toNat
    rw [Nat.mul_comm] at this
    calc ((v / e.linesPerPage.toNat : Nat) : Int) * e.linesPerPage + (v % e.linesPerPage.toNat : Nat)
        = ((v / e.linesPerPage.toNat * e.linesPerPage.toNat + v % e.linesPerPage.toNat : Nat) : Int) := by
          push_cast
          rw [Int.toNat_of_nonneg (show 0 ≤ e.linesPerPage by omega)]
      _ = v := by rw [this]
  rwa [affineCell_zero (by omega) (by omega), hsplit] at hnonneg

theorem last_lt_of_inBlock :
    (e.linesPerChain - 1) * (e.linksPerLine % 4294967296) < 2147483648 := by
  have hk := links_pos_of_inBlock hs hp hl h
  have hcount : 0 < e.linesPerChain := by
    rw [(hs.geometry (by omega)).linesPerChain_eq]
    exact Int.mul_pos (by omega) (by omega)
  have hlast := mul_lt_of_wrap32_nonneg (n := e.linesPerChain.toNat)
    (fun v hv => line_nonneg hs hp hl h (by omega)) (e.linesPerChain.toNat - 1) (by omega)
  have hcast : ((e.linesPerChain.toNat - 1 : Nat) : Int) = e.linesPerChain - 1 := by omega
  rwa [hcast] at hlast

theorem negative_line_of_inBlock (hne : e.linksPerLine % 4294967296 ≠ 0) {v : Int}
    (hv : v < 0) (hv' : -e.linesPerChain < v) : wrap32 (v * e.linksPerLine) < 0 := by
  have hlast := last_lt_of_inBlock hs hp hl h
  have h0 : -(e.linesPerChain - 1) * (e.linksPerLine % 4294967296) ≤
      v * (e.linksPerLine % 4294967296) := Int.mul_le_mul_of_nonneg_right (by omega) (by omega)
  have h1 : v * (e.linksPerLine % 4294967296) ≤ -1 * (e.linksPerLine % 4294967296) :=
    Int.mul_le_mul_of_nonneg_right (by omega) (by omega)
  rw [Int.neg_mul] at h0
  rw [← wrap32_mul_emod, wrap32_of_inInt32 ⟨by omega, by omega⟩]
  omega

theorem fits_of_randomInBlock : e.RandomFits := by
  have hk := links_pos_of_inBlock hs hp hl h
  have hp' := pages_lt_of_inBlock hs hp hl h
  have hl' := lines_lt_of_inBlock hs hp hl h
  have hcount := (hs.geometry (by omega)).linesPerChain_eq
  refine .inr (.inr ⟨hk, or_iff_not_imp_left.mpr fun hne => ⟨?_, ?_, last_lt_of_inBlock hs hp hl h⟩⟩)
  · by_contra hover
    obtain ⟨i, hi, o, ho, hcell⟩ :=
      exists_negative_cell (n := e.pagesPerChain.toNat) (by omega) (by omega)
    rw [Int.toNat_of_nonneg (by omega)] at hcell
    have hnonneg := firstLine_nonneg hs hp hl h hl' (a := 28) (o := o) (i := i)
      (by omega) (by omega) (by omega) (by omega)
    have hp0 : 0 < e.pagesPerChain := by omega
    have hlow := (affineCell_lt hp0 (163 : Nat) o i).1
    have hneg := negative_line_of_inBlock hs hp hl h hne
      (v := affineCell e.pagesPerChain (163 : Nat) o i * e.linesPerPage)
      (Int.mul_neg_of_neg_of_pos hcell (by omega)) (by
        rw [hcount, ← Int.neg_mul]
        exact Int.mul_lt_mul_of_pos_right hlow (by omega))
    exact absurd hnonneg (Int.not_le.mpr hneg)
  · by_contra hover
    obtain ⟨j, hj, o, ho, hcell⟩ :=
      exists_negative_cell (n := e.linesPerPage.toNat) (by omega) (by omega)
    rw [Int.toNat_of_nonneg (by omega)] at hcell
    have hnonneg := firstPage_nonneg hs hp hl h (q := 0) (c := 28) (r := o) (j := j)
      (by omega) (by omega) (by omega) (by omega) (by omega) (by omega)
    rw [Nat.cast_zero, Int.zero_mul, Int.zero_add] at hnonneg
    have hl0 : 0 < e.linesPerPage := by omega
    have hlow := (affineCell_lt hl0 (163 : Nat) o j).1
    have hmany : 1 * e.linesPerPage ≤ e.pagesPerChain * e.linesPerPage :=
      Int.mul_le_mul_of_nonneg_right hp (by omega)
    have hneg := negative_line_of_inBlock hs hp hl h hne hcell (by omega)
    exact absurd hnonneg (Int.not_le.mpr hneg)

end Necessity

/-- The exact condition on the sizes. -/
theorem randomInBlock_iff {e : Experiment} (hs : e.SizesDerived) :
    RandomInBlock e ↔ e.RandomFits := by
  constructor
  · intro h
    by_cases hp : e.pagesPerChain ≤ 0
    · exact .inl hp
    by_cases hl : e.linesPerPage ≤ 0
    · exact .inr (.inl hl)
    exact fits_of_randomInBlock hs (by omega) (by omega) h
  · exact randomInBlock_of_fits hs

end PChase
