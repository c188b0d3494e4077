import Mathlib.Tactic.NormNum.GCD
import PChase.RandomCoverage

/-!
# The exact condition for coverage

A drawn factor suits a count when the two have no common divisor and its products stay in
the range of an `int`. The random ring covers the chain exactly for suitable draws.
-/

namespace PChase

open CInt CountLoop AffineCycle NextWalk
set_option autoImplicit false

/-- `(factor * k + offset) % size` meets every value below `size` without overflow. -/
def Suits (size factor offset : Int) : Prop :=
  Int.gcd factor size = 1 ∧ factor * (size - 1) + offset < 2147483648

theorem fills_iff_suits {size factor offset : Int} (hsize : 1 ≤ size)
    (hlt : size < 2147483648) (hfactor : ∃ f ∈ primeTable, factor = (f : Nat))
    (hoffset : 0 ≤ offset ∧ offset < size) :
    Fills size.toNat (fun k => affineCell size factor offset k) ↔ Suits size factor offset := by
  obtain ⟨f, hf, rfl⟩ := hfactor
  obtain ⟨hodd, hf1, hf2⟩ := primeTable_bounds f hf
  have hnonneg : 0 ≤ size := by omega
  obtain ⟨n, rfl⟩ := Int.eq_ofNat_of_zero_le hnonneg
  obtain ⟨o, rfl⟩ := Int.eq_ofNat_of_zero_le hoffset.1
  have hn : ((n - 1 : Nat) : Int) = n - 1 := by omega
  have hcast : ((f * (n - 1) + o : Nat) : Int) = f * ((n : Int) - 1) + o := by
    push_cast [hn]
    rfl
  rw [Int.toNat_natCast]
  refine (cellsFill_iff hodd hf1 (by omega) (by omega) (by omega)).trans ?_
  unfold Suits
  rw [Int.gcd_natCast_natCast, ← hcast]
  exact and_congr Iff.rfl (by omega)

def Draws.Suitable (d : Draws) (e : Experiment) : Prop :=
  Suits e.pagesPerChain d.pageFactor d.pageOffset ∧
    ∀ i : Nat, i < e.pagesPerChain → Suits e.linesPerPage (d.lineFactor i) (d.lineOffset i)

theorem cellsCover_iff_suitable {e : Experiment} {d : Draws} (he : e.Regular)
    (hd : d.Valid e) : CellsCover e d ↔ d.Suitable e := by
  have hline : ∀ i : Nat, i < e.pagesPerChain →
      (Fills e.linesPerPage.toNat (lineCell e d i) ↔
        Suits e.linesPerPage (d.lineFactor i) (d.lineOffset i)) := fun i hi =>
    fills_iff_suits he.lines_pos he.lines_lt (hd.lineFactor_mem i hi) (hd.lineOffset_range i hi)
  refine and_congr (fills_iff_suits he.pages_pos he.pages_lt hd.pageFactor_mem
    hd.pageOffset_range) ?_
  constructor
  · intro h i hi
    exact (hline i hi).mp (h i (by omega))
  · intro h i hi
    exact (hline i (by omega)).mpr (h i (by omega))

theorem covers_iff_suitable {e : Experiment} {d : Draws} (he : e.Regular) (hd : d.Valid e) :
    (∃ r, randomMemInit e d = some r ∧ CoversChain e r) ↔ d.Suitable e := by
  rw [← cellsCover_iff_suitable he hd]
  constructor
  · rintro ⟨r, hr, hcovers⟩
    exact cellsCover_of_covers he hd hr hcovers
  · exact covers_of_cellsCover he

/-- Small counts leave room for every product of the table. -/
theorem suits_iff_coprime {size factor offset : Int} (hsmall : 164 * size < 2147483648)
    (hfactor : ∃ f ∈ primeTable, factor = (f : Nat)) (hoffset : 0 ≤ offset ∧ offset < size) :
    Suits size factor offset ↔ Int.gcd factor size = 1 := by
  obtain ⟨f, hf, rfl⟩ := hfactor
  obtain ⟨_, _, hf2⟩ := primeTable_bounds f hf
  have hle : (f : Int) * (size - 1) ≤ 163 * (size - 1) :=
    Int.mul_le_mul_of_nonneg_right (by omega) (by omega)
  exact and_iff_left (by omega)

theorem gcd_pow_two {factor : Int} (hfactor : ∃ f ∈ primeTable, factor = (f : Nat)) (a : Nat) :
    Int.gcd factor (2 ^ a) = 1 := by
  obtain ⟨f, hf, rfl⟩ := hfactor
  obtain ⟨hodd, _, _⟩ := primeTable_bounds f hf
  have hcop : Nat.Coprime f (2 ^ a) :=
    Nat.Coprime.pow_right a (Nat.coprime_two_right.mpr (Nat.odd_iff.mpr hodd))
  have hcast : ((2 ^ a : Nat) : Int) = 2 ^ a := by push_cast; rfl
  rw [← hcast, Int.gcd_natCast_natCast]
  exact hcop

theorem Experiment.Geometry.regular {e : Experiment} (hg : e.Geometry) (hp : 1 ≤ e.pagesPerChain)
    (hl : 1 ≤ e.linesPerPage) (hk : 1 ≤ e.linksPerLine)
    (hps : 164 * e.pagesPerChain < 2147483648) (hls : 164 * e.linesPerPage < 2147483648)
    (hlinks : e.linksPerChain < 2147483648) : e.Regular := by
  refine ⟨hg, hp, by omega, hl, by omega, hk, ?_⟩
  have heq := hg.linksPerChain_eq
  rw [Int.sub_mul, Int.one_mul]
  omega

/-- The random ring of a chain of moderate size covers it exactly when every drawn factor
is coprime to its count. -/
theorem random_ring_covers_iff_coprime {e : Experiment} {d : Draws} (hg : e.Geometry)
    (hp : 1 ≤ e.pagesPerChain) (hl : 1 ≤ e.linesPerPage) (hk : 1 ≤ e.linksPerLine)
    (hps : 164 * e.pagesPerChain < 2147483648) (hls : 164 * e.linesPerPage < 2147483648)
    (hlinks : e.linksPerChain < 2147483648) (hd : d.Valid e) :
    ((∃ r, randomMemInit e d = some r ∧ CoversChain e r) ↔
      Int.gcd d.pageFactor e.pagesPerChain = 1 ∧
        ∀ i : Nat, i < e.pagesPerChain → Int.gcd (d.lineFactor i) e.linesPerPage = 1) ∧
    ((∃ a, e.pagesPerChain = 2 ^ a) → (∃ b, e.linesPerPage = 2 ^ b) →
      ∃ r, randomMemInit e d = some r ∧ CoversChain e r) := by
  have hiff : (∃ r, randomMemInit e d = some r ∧ CoversChain e r) ↔
      Int.gcd d.pageFactor e.pagesPerChain = 1 ∧
        ∀ i : Nat, i < e.pagesPerChain → Int.gcd (d.lineFactor i) e.linesPerPage = 1 := by
    refine (covers_iff_suitable (hg.regular hp hl hk hps hls hlinks) hd).trans
      (and_congr (suits_iff_coprime hps hd.pageFactor_mem hd.pageOffset_range) ?_)
    exact forall₂_congr fun i hi =>
      suits_iff_coprime hls (hd.lineFactor_mem i hi) (hd.lineOffset_range i hi)
  refine ⟨hiff, ?_⟩
  rintro ⟨a, ha⟩ ⟨b, hb⟩
  apply hiff.mpr
  refine ⟨ha ▸ gcd_pow_two hd.pageFactor_mem a, ?_⟩
  intro i hi
  exact hb ▸ gcd_pow_two (hd.lineFactor_mem i hi) b

/-- Three pages of four lines, with the page factor 11 and the line factor 13. -/
theorem random_ring_covers_three_pages :
    let e : Experiment := {
      pagesPerChain := 3, linesPerPage := 4, linksPerLine := 4, linksPerPage := 16,
      linesPerChain := 12, linksPerChain := 48 }
    ∃ r, randomMemInit e ⟨11, 2, fun _ => 13, fun _ => 3⟩ = some r ∧ CoversChain e r := by
  intro e
  refine (random_ring_covers_iff_coprime ⟨rfl, rfl, rfl⟩ (by decide) (by decide) (by decide)
    (by decide) (by decide) (by decide) ?_).1.mpr
    ⟨by decide, fun _ _ => show Int.gcd 13 4 = 1 by decide⟩
  exact ⟨⟨11, by decide, rfl⟩, by decide, fun _ _ => ⟨13, by decide, rfl⟩,
    fun _ _ => show (0 : Int) ≤ 3 ∧ (3 : Int) < 4 by decide⟩

theorem lineHead_computed {e : Experiment} {d : Draws} {r : Ring}
    (hr : randomMemInit e d = some r) (h : CoversChain e r) (line : Nat)
    (hline : line < e.linesPerChain) :
    ∃ k < e.pagesPerChain.toNat * e.linesPerPage.toNat, randomNode e d k = lineHead e line := by
  obtain ⟨hb, _, rfl⟩ := (randomMemInit_eq_some_iff e d r).mp hr
  obtain ⟨k, ⟨_, hk⟩, _⟩ := h.visits_once line hline
  have hpages : 0 < e.pagesPerChain.toNat := by omega
  have hlines : 0 < e.linesPerPage.toNat := by omega
  obtain ⟨b, hb', hmem⟩ := ring_walk_mem (fun _ => none) (randomNode e d)
    (Nat.mul_pos hpages hlines) k
  rw [hk, Option.some.injEq] at hb'
  exact hb' ▸ hmem

/-- Coverage itself shows that no size was out of range. -/
theorem regular_of_covers {e : Experiment} {d : Draws} (hs : e.SizesDerived) {r : Ring}
    (hr : randomMemInit e d = some r) (h : CoversChain e r) : e.Regular := by
  obtain ⟨⟨hp, hp', hl, hl'⟩, hin, _⟩ := (randomMemInit_eq_some_iff e d r).mp hr
  have hblock := hin 0 (Nat.mul_pos (by omega) (by omega))
  have hk := hs.linksPerLine_pos hp hl (by unfold InBlock at hblock; omega)
  have hg := hs.geometry (by omega)
  have hcount : 0 < e.pagesPerChain * e.linesPerPage := Int.mul_pos (by omega) (by omega)
  refine ⟨hg, hp, hp', hl, hl', hk, ?_⟩
  rw [← hg.linesPerChain_eq] at hcount ⊢
  obtain ⟨k, _, hnode⟩ := lineHead_computed hr h (e.linesPerChain - 1).toNat (by omega)
  have hrange := randomNode_eq_wrap d hg (by omega) k ▸ wrap32_inInt32 _
  rw [hnode, lineHead, Int.toNat_of_nonneg (by omega)] at hrange
  exact hrange.2

theorem regular_of_suitable {e : Experiment} {random : Nat → Nat} (hs : e.SizesDerived)
    (hp : 1 ≤ e.pagesPerChain) (hl : 1 ≤ e.linesPerPage) (hk : 1 ≤ e.linksPerLine)
    (hlast : (e.linesPerChain - 1) * e.linksPerLine < 2147483648)
    (hr : ∀ k, random k < 2147483648) (hd : (draws e random).Suitable e) : e.Regular := by
  have hg := hs.geometry (by omega)
  have hv := draws_valid hp hl hr
  have hbound : ∀ {size factor offset : Int}, 1 ≤ size → (∃ f ∈ primeTable, factor = (f : Nat)) →
      0 ≤ offset → Suits size factor offset → size < 2147483648 := by
    rintro size _ offset hsize ⟨f, hf, rfl⟩ hoffset ⟨_, hfit⟩
    obtain ⟨hodd, hf1, _⟩ := primeTable_bounds f hf
    have : 2 * (size - 1) ≤ f * (size - 1) := Int.mul_le_mul_of_nonneg_right (by omega) (by omega)
    omega
  refine ⟨hg, hp, hbound hp hv.pageFactor_mem hv.pageOffset_range.1 hd.1, hl, ?_, hk, ?_⟩
  · exact hbound hl (hv.lineFactor_mem 0 (by omega)) (hv.lineOffset_range 0 (by omega)).1
      (hd.2 0 (by omega))
  · rw [← hg.linesPerChain_eq]
    exact hlast

/-- Which accepted configurations and random values give a ring over the whole chain. -/
theorem random_access_covers_iff {p : Platform} {args : List CStr} {e : Experiment}
    {random : Nat → Nat} (ha : parseArgs p args = .accepted e)
    (hpattern : e.accessPattern = .random) (hr : ∀ k, random k < 2147483648) :
    (∃ r, memInit e (draws e random) = some r ∧ CoversChain e r) ↔
      1 ≤ e.pagesPerChain ∧ 1 ≤ e.linesPerPage ∧ 1 ≤ e.linksPerLine ∧
        (e.linesPerChain - 1) * e.linksPerLine < 2147483648 ∧ (draws e random).Suitable e := by
  have hs := (accepted_of_parseArgs ha).sizes
  simp only [memInit, hpattern]
  constructor
  · rintro ⟨r, hinit, hcovers⟩
    have he := regular_of_covers hs hinit hcovers
    have hd := draws_valid he.pages_pos he.lines_pos hr
    refine ⟨he.pages_pos, he.lines_pos, he.links_pos, ?_, ?_⟩
    · rw [he.geometry.linesPerChain_eq]
      exact he.last_fits
    · exact (covers_iff_suitable he hd).mp ⟨r, hinit, hcovers⟩
  · rintro ⟨hp, hl, hk, hlast, hsuit⟩
    have he := regular_of_suitable hs hp hl hk hlast hr hsuit
    exact (covers_iff_suitable he (draws_valid hp hl hr)).mpr hsuit

theorem random_access_covers_two_pages :
    ∃ e, parseArgs .single ["-p".toList, "128".toList, "-c".toList, "256".toList] = .accepted e ∧
      ∃ r, memInit e (draws e fun _ => 0) = some r ∧ CoversChain e r := by
  obtain ⟨e, he, hpattern, hp, hl, hk, hn⟩ : ∃ e, parseArgs .single
      ["-p".toList, "128".toList, "-c".toList, "256".toList] = .accepted e ∧
      e.accessPattern = .random ∧ e.pagesPerChain = 2 ∧ e.linesPerPage = 2 ∧
      e.linksPerLine = 4 ∧ e.linesPerChain = 4 := ⟨_, rfl, rfl, rfl, rfl, rfl, rfl⟩
  refine ⟨e, he, (random_access_covers_iff he hpattern fun _ => by decide).mpr ?_⟩
  have hsuits : Suits 2 (drawFactor 0) (drawOffset 2 0) := ⟨by decide, by decide⟩
  rw [hp, hl, hk, hn]
  refine ⟨by decide, by decide, by decide, by decide, ?_, fun i _ => ?_⟩
  · simpa only [draws, hp] using hsuits
  · simpa only [draws, hl] using hsuits

/-- Five lines to a page and the factor 5: every visit falls on the first line. -/
theorem random_access_misses_four_lines :
    ∃ e, parseArgs .single ["-p".toList, "320".toList, "-c".toList, "320".toList] = .accepted e ∧
      e.accessPattern = .random ∧
      ¬ ∃ r, memInit e (draws e fun _ => 0) = some r ∧ CoversChain e r := by
  refine ⟨_, rfl, rfl, ?_⟩
  rintro ⟨r, hr, hcovers⟩
  obtain ⟨k, hk, hnode⟩ := lineHead_computed hr hcovers 1 (by decide)
  revert k
  decide

end PChase
