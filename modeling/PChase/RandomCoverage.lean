import PChase.Geometry

/-!
# Which draws make the random ring cover its chain

The ring of `random_mem_init` walks pages in the order of one affine map and the lines of
each page in the order of another. It covers the chain exactly when every one of these
maps fills its range, which for a multiplier of the table is a question of common factors
and of the range of an `int`.
-/

namespace PChase

open CInt CountLoop AffineCycle NextWalk
set_option autoImplicit false

def lineHead (e : Experiment) (line : Nat) : Int := line * e.linksPerLine

/-- One lap of the ring visits every line of the chain once, page by page. -/
structure CoversChain (e : Experiment) (r : Ring) : Prop where
  ops_eq : r.opsPerChain = e.linesPerChain
  visits_once : ∀ line : Nat, line < e.linesPerChain →
    ∃! k : Nat, k < r.opsPerChain ∧ walk r.next r.root k = some (lineHead e line)
  page_by_page : ∀ i : Nat, i < e.pagesPerChain → ∃ page : Nat, ∀ j < e.linesPerPage.toNat,
    ∃ line < e.linesPerPage.toNat, walk r.next r.root (i * e.linesPerPage.toNat + j) =
      some (lineHead e (page * e.linesPerPage.toNat + line))
  returns : walk r.next r.root r.opsPerChain.toNat = some r.root
  no_earlier : ∀ k : Nat, 0 < k → k < r.opsPerChain → walk r.next r.root k ≠ some r.root

/-- Factors of the prime table and offsets below the sizes they are drawn for. -/
structure Draws.Valid (d : Draws) (e : Experiment) : Prop where
  pageFactor_mem : ∃ f ∈ primeTable, d.pageFactor = (f : Nat)
  pageOffset_range : 0 ≤ d.pageOffset ∧ d.pageOffset < e.pagesPerChain
  lineFactor_mem : ∀ i : Nat, i < e.pagesPerChain → ∃ f ∈ primeTable, d.lineFactor i = (f : Nat)
  lineOffset_range : ∀ i : Nat, i < e.pagesPerChain →
    0 ≤ d.lineOffset i ∧ d.lineOffset i < e.linesPerPage

/-- Sizes for which every loop ends and every head has an `int` index. -/
structure Experiment.Regular (e : Experiment) : Prop where
  geometry : e.Geometry
  pages_pos : 1 ≤ e.pagesPerChain
  pages_lt : e.pagesPerChain < 2147483648
  lines_pos : 1 ≤ e.linesPerPage
  lines_lt : e.linesPerPage < 2147483648
  links_pos : 1 ≤ e.linksPerLine
  last_fits : (e.pagesPerChain * e.linesPerPage - 1) * e.linksPerLine < 2147483648

theorem primeTable_bounds : ∀ f ∈ primeTable, f % 2 = 1 ∧ 1 < f ∧ f ≤ 163 := by decide

theorem drawFactor_mem (r : Nat) : ∃ f ∈ primeTable, drawFactor r = (f : Nat) := by
  have hlt : r % primeTableSize < primeTable.length := Nat.mod_lt r (by decide)
  refine ⟨primeTable[r % primeTableSize], List.getElem_mem hlt, ?_⟩
  simp [drawFactor, List.getD_eq_getElem?_getD, List.getElem?_eq_getElem hlt]

theorem drawOffset_range {size : Int} {r : Nat} (hs : 0 < size) (hr : r < 2147483648) :
    0 ≤ drawOffset size r ∧ drawOffset size r < size := by
  have h0 : 0 ≤ (r : Int).tmod size := Int.tmod_nonneg size (by omega)
  have h1 := Int.tmod_lt_of_pos (r : Int) hs
  have h2 : (r : Int).tmod size ≤ r := by
    have h := Int.mul_tdiv_add_tmod r size
    have hr0 : 0 ≤ (r : Int) := by omega
    have := Int.mul_nonneg (Int.le_of_lt hs) (Int.tdiv_nonneg hr0 (Int.le_of_lt hs))
    omega
  rw [drawOffset, wrap32_of_bounds h0 (by omega)]
  exact ⟨h0, h1⟩

theorem draws_valid {e : Experiment} {random : Nat → Nat} (hp : 1 ≤ e.pagesPerChain)
    (hl : 1 ≤ e.linesPerPage) (hr : ∀ k, random k < 2147483648) : (draws e random).Valid e where
  pageFactor_mem := drawFactor_mem _
  pageOffset_range := drawOffset_range (by omega) (hr _)
  lineFactor_mem _ _ := drawFactor_mem _
  lineOffset_range _ _ := drawOffset_range (by omega) (hr _)

def pageCell (e : Experiment) (d : Draws) (i : Nat) : Int :=
  affineCell e.pagesPerChain d.pageFactor d.pageOffset i

def lineCell (e : Experiment) (d : Draws) (i j : Nat) : Int :=
  affineCell e.linesPerPage (d.lineFactor i) (d.lineOffset i) j

def visitedLine (e : Experiment) (d : Draws) (k : Nat) : Int :=
  gridIndex e.linesPerPage.toNat (pageCell e d) (lineCell e d) k

theorem randomNode_eq_wrap {e : Experiment} (d : Draws) (hg : e.Geometry)
    (hl : 0 ≤ e.linesPerPage) (k : Nat) :
    randomNode e d k = wrap32 (visitedLine e d k * e.linksPerLine) := by
  rw [randomNode, randomLink_eq_wrap d hg]
  simp only [visitedLine, gridIndex, pageCell, lineCell, Int.toNat_of_nonneg hl]

section Regular
variable {e : Experiment} {d : Draws} (he : e.Regular)
include he

theorem Experiment.Regular.pages_cast : (e.pagesPerChain.toNat : Int) = e.pagesPerChain :=
  Int.toNat_of_nonneg (by have := he.pages_pos; omega)

theorem Experiment.Regular.lines_cast : (e.linesPerPage.toNat : Int) = e.linesPerPage :=
  Int.toNat_of_nonneg (by have := he.lines_pos; omega)

theorem Experiment.Regular.count_cast :
    ((e.pagesPerChain.toNat * e.linesPerPage.toNat : Nat) : Int) = e.linesPerChain := by
  push_cast
  rw [he.pages_cast, he.lines_cast, he.geometry.linesPerChain_eq]

theorem Experiment.Regular.pages_nat_pos : 0 < e.pagesPerChain.toNat := by
  have := he.pages_pos
  omega

theorem Experiment.Regular.lines_nat_pos : 0 < e.linesPerPage.toNat := by
  have := he.lines_pos
  omega

theorem pageCell_bounds (i : Nat) :
    -(e.pagesPerChain.toNat : Int) < pageCell e d i ∧ pageCell e d i < e.pagesPerChain.toNat := by
  rw [he.pages_cast]
  exact affineCell_lt (by have := he.pages_pos; omega) _ _ _

theorem lineCell_bounds (i j : Nat) :
    -(e.linesPerPage.toNat : Int) < lineCell e d i j ∧ lineCell e d i j < e.linesPerPage.toNat := by
  rw [he.lines_cast]
  exact affineCell_lt (by have := he.lines_pos; omega) _ _ _

/-- Even with negative cells the index of a visit stays in the range of an `int`. -/
theorem visitedLine_bounds (k : Nat) : -e.linesPerChain < visitedLine e d k ∧
    visitedLine e d k < e.linesPerChain := by
  have hb := pageCell_bounds he (d := d) (k / e.linesPerPage.toNat)
  have hc := lineCell_bounds he (d := d) (k / e.linesPerPage.toNat) (k % e.linesPerPage.toNat)
  rw [← he.count_cast]
  unfold visitedLine gridIndex
  have h0 : -((e.pagesPerChain.toNat : Int) - 1) * (e.linesPerPage.toNat : Int) ≤
      pageCell e d (k / e.linesPerPage.toNat) * (e.linesPerPage.toNat : Int) :=
    Int.mul_le_mul_of_nonneg_right (by omega) (by omega)
  have h1 : pageCell e d (k / e.linesPerPage.toNat) * (e.linesPerPage.toNat : Int) ≤
      ((e.pagesPerChain.toNat : Int) - 1) * (e.linesPerPage.toNat : Int) :=
    Int.mul_le_mul_of_nonneg_right (by omega) (by omega)
  have h2 : ((e.pagesPerChain.toNat : Int) - 1) * (e.linesPerPage.toNat : Int) =
      e.pagesPerChain.toNat * e.linesPerPage.toNat - e.linesPerPage.toNat := by ring
  rw [neg_mul, h2] at h0
  rw [h2] at h1
  push_cast
  omega

theorem randomNode_eq (k : Nat) : randomNode e d k = visitedLine e d k * e.linksPerLine := by
  rw [randomNode_eq_wrap d he.geometry (by have := he.lines_pos; omega)]
  have hv := visitedLine_bounds he (d := d) k
  have hlast := he.last_fits
  rw [← he.geometry.linesPerChain_eq] at hlast
  have hk := he.links_pos
  have h0 : -(e.linesPerChain - 1) * e.linksPerLine ≤ visitedLine e d k * e.linksPerLine :=
    Int.mul_le_mul_of_nonneg_right (by omega) (by omega)
  have h1 : visitedLine e d k * e.linksPerLine ≤ (e.linesPerChain - 1) * e.linksPerLine :=
    Int.mul_le_mul_of_nonneg_right (by omega) (by omega)
  rw [neg_mul] at h0
  exact wrap32_of_inInt32 ⟨by omega, by omega⟩

theorem linksPerLine_cancel {a b : Int} (h : a * e.linksPerLine = b * e.linksPerLine) : a = b :=
  Int.eq_of_mul_eq_mul_right (by have := he.links_pos; omega) h

theorem lineCell_zero (hd : d.Valid e) {i : Nat} (hi : i < e.pagesPerChain) :
    lineCell e d i 0 = d.lineOffset i := by
  obtain ⟨h0, h1⟩ := hd.lineOffset_range i hi
  have hlt := he.lines_lt
  rw [lineCell, affineCell_eq]
  simp only [Nat.cast_zero, Int.mul_zero, Int.zero_add]
  rw [wrap32_of_bounds h0 (by omega), Int.tmod_eq_of_lt h0 h1]

def CellsCover (e : Experiment) (d : Draws) : Prop :=
  Fills e.pagesPerChain.toNat (pageCell e d) ∧
    ∀ i < e.pagesPerChain.toNat, Fills e.linesPerPage.toNat (lineCell e d i)

omit he in
theorem lineHead_nat {e : Experiment} {line : Nat} {a : Int} (h : a = line) :
    a * e.linksPerLine = lineHead e line := by rw [h, lineHead]

theorem walk_visits {n : Nat}
    (hinj : ∀ a < n, ∀ b < n, randomNode e d a = randomNode e d b → a = b) {k : Nat} (hk : k < n) :
    walk (ring (fun _ => none) (randomNode e d) n) (randomNode e d 0) k =
      some (visitedLine e d k * e.linksPerLine) := by
  rw [ring_walk_of_injOn (fun _ => none) (randomNode e d) (by omega) hinj k, Nat.mod_eq_of_lt hk,
    randomNode_eq he]

theorem CellsCover.visitedLine_range (h : CellsCover e d) {k : Nat}
    (hk : k < e.pagesPerChain.toNat * e.linesPerPage.toNat) :
    0 ≤ visitedLine e d k ∧ visitedLine e d k < e.linesPerChain := by
  rw [← he.count_cast]
  exact gridIndex_range (fun i hi => ⟨h.1.1 i hi, (pageCell_bounds he i).2⟩)
    (fun i hi j hj => ⟨(h.2 i hi).1 j hj, (lineCell_bounds he i j).2⟩) hk

theorem CellsCover.visitedLine_injOn (h : CellsCover e d) :
    ∀ a < e.pagesPerChain.toNat * e.linesPerPage.toNat,
      ∀ b < e.pagesPerChain.toNat * e.linesPerPage.toNat,
        visitedLine e d a = visitedLine e d b → a = b :=
  gridIndex_injOn h.1 h.2 fun i _ j _ => (lineCell_bounds he (d := d) i j).2

theorem CellsCover.randomNode_inBlock (h : CellsCover e d) {k : Nat}
    (hk : k < e.pagesPerChain.toNat * e.linesPerPage.toNat) : InBlock e (randomNode e d k) := by
  obtain ⟨h0, hlt⟩ := h.visitedLine_range he hk
  have hlinks := he.geometry.linksPerChain_eq
  rw [← he.geometry.linesPerChain_eq] at hlinks
  unfold InBlock
  rw [randomNode_eq he, hlinks]
  exact ⟨Int.mul_nonneg h0 (by have := he.links_pos; omega),
    Int.mul_lt_mul_of_pos_right hlt (by have := he.links_pos; omega)⟩

theorem covers_of_cellsCover (h : CellsCover e d) :
    ∃ r, randomMemInit e d = some r ∧ CoversChain e r := by
  have hpn := he.pages_nat_pos
  have hln := he.lines_nat_pos
  have hcount := he.count_cast
  have hinjLine := h.visitedLine_injOn he
  have hinj : ∀ a < e.pagesPerChain.toNat * e.linesPerPage.toNat,
      ∀ b < e.pagesPerChain.toNat * e.linesPerPage.toNat,
      randomNode e d a = randomNode e d b → a = b := by
    intro a ha b hb heq
    rw [randomNode_eq he, randomNode_eq he] at heq
    exact hinjLine a ha b hb (linksPerLine_cancel he heq)
  have hpos : 0 < e.pagesPerChain.toNat * e.linesPerPage.toNat := Nat.mul_pos hpn hln
  have hwalk := ring_walk_of_injOn (fun _ => none) (randomNode e d) hpos hinj
  refine ⟨_, (randomMemInit_eq_some_iff e d _).mpr
    ⟨⟨he.pages_pos, he.pages_lt, he.lines_pos, he.lines_lt⟩,
      fun _ hk => h.randomNode_inBlock he hk, rfl⟩, ?_⟩
  refine ⟨hcount, ?_, ?_, ?_, ?_⟩
  · intro line hline
    have hfills : Fills (e.pagesPerChain.toNat * e.linesPerPage.toNat) (visitedLine e d) :=
      ⟨fun k hk => (h.visitedLine_range he hk).1, hinjLine⟩
    obtain ⟨k, hk, hkline⟩ := hfills.surjOn
      (fun k hk => hcount ▸ (h.visitedLine_range he hk).2) (r := line) (by omega) (by omega)
    refine ⟨k, ⟨by simp only; omega, ?_⟩, ?_⟩
    · rw [walk_visits he hinj hk]
      exact congrArg some (lineHead_nat hkline)
    · intro k' hvisit
      obtain ⟨hk', hwalk'⟩ := hvisit
      have hlt : k' < e.pagesPerChain.toNat * e.linesPerPage.toNat := by
        simp only at hk'
        omega
      rw [walk_visits he hinj hlt, Option.some.injEq] at hwalk'
      exact hinjLine k' hlt k hk ((linksPerLine_cancel he hwalk').trans hkline.symm)
  · intro i hi
    have hi' : i < e.pagesPerChain.toNat := by omega
    refine ⟨(pageCell e d i).toNat, ?_⟩
    intro j hj
    have hpage := h.1.1 i hi'
    have hline := (h.2 i hi').1 j hj
    have hlt := (lineCell_bounds he (d := d) i j).2
    have hindex := grid_position_lt hi' hj
    refine ⟨(lineCell e d i j).toNat, by omega, ?_⟩
    rw [walk_visits he hinj hindex]
    apply congrArg some (lineHead_nat _)
    rw [visitedLine, gridIndex_at _ _ _ hj]
    push_cast
    rw [Int.toNat_of_nonneg hpage, Int.toNat_of_nonneg hline]
  · simp only [hwalk, Int.toNat_natCast, Nat.mod_self]
  · intro k hk0 hk heq
    have hlt : k < e.pagesPerChain.toNat * e.linesPerPage.toNat := by
      simp only at hk
      omega
    simp only [hwalk, Nat.mod_eq_of_lt hlt, Option.some.injEq] at heq
    have := hinj k hlt 0 hpos heq
    omega

theorem cellsCover_of_covers (hd : d.Valid e) {r : Ring} (hr : randomMemInit e d = some r)
    (h : CoversChain e r) : CellsCover e d := by
  have hpn := he.pages_nat_pos
  have hln := he.lines_nat_pos
  have hcount := he.count_cast
  have hpos : 0 < e.pagesPerChain.toNat * e.linesPerPage.toNat := Nat.mul_pos hpn hln
  obtain ⟨_, _, rfl⟩ := (randomMemInit_eq_some_iff e d r).mp hr
  have hinj : ∀ a < e.pagesPerChain.toNat * e.linesPerPage.toNat,
      ∀ b < e.pagesPerChain.toNat * e.linesPerPage.toNat,
      randomNode e d a = randomNode e d b → a = b := by
    apply injOn_of_walk_covers (fun _ => none) (randomNode e d) hpos
      ((Finset.range (e.pagesPerChain.toNat * e.linesPerPage.toNat)).image (lineHead e))
    · rw [Finset.card_image_of_injective, Finset.card_range]
      intro a b heq
      have := linksPerLine_cancel he (heq : (a : Int) * e.linksPerLine = b * e.linksPerLine)
      omega
    · intro a ha
      obtain ⟨line, hline, rfl⟩ := Finset.mem_image.mp ha
      have hline' := Finset.mem_range.mp hline
      obtain ⟨k, ⟨_, hk⟩, _⟩ := h.visits_once line (by omega)
      exact ⟨k, hk⟩
  refine fills_of_gridIndex hln ?_ ?_ ?_
  · intro a ha b hb heq
    apply hinj a ha b hb
    rw [randomNode_eq he, randomNode_eq he]
    exact congrArg (· * e.linksPerLine) heq
  · intro i hi
    obtain ⟨page, hpage⟩ := h.page_by_page i (by omega)
    refine ⟨page, ?_⟩
    intro j hj
    obtain ⟨line, hline, heq⟩ := hpage j hj
    have hindex := grid_position_lt (p := e.pagesPerChain.toNat) (by omega) hj
    rw [walk_visits he hinj hindex, Option.some.injEq] at heq
    exact ⟨line, hline, linksPerLine_cancel he heq⟩
  · intro i hi
    rw [lineCell_zero he hd (by omega)]
    have := hd.lineOffset_range i (by omega)
    have := he.lines_cast
    omega

end Regular

end PChase
