import PChase.ExactNumbers
import PChase.StridedBounds

/-!
# Nodes and cache lines

Lines are counted in bytes and, by a truncating division, in links. The nodes lie on the
lines, and the block has the reported size, exactly when the division leaves no rest.
-/

namespace PChase

open CInt CountLoop AffineCycle
set_option autoImplicit false

/-- The node of a line of a page, as `random_mem_init` counts it. -/
def pageLink (e : Experiment) (page lineWithinPage : Int) : Int :=
  wrap32 (wrap64 (page * e.linksPerPage + lineWithinPage * e.linksPerLine + 0))

theorem randomLink_eq_pageLink (e : Experiment) (d : Draws) (i j : Nat) :
    randomLink e d i j = pageLink e (affineCell e.pagesPerChain d.pageFactor d.pageOffset i)
      (affineCell e.linesPerPage (d.lineFactor i) (d.lineOffset i) j) := rfl

/-- The node of line `i` is at byte `16 * i * links_per_line`, in all three routines, and
this is in the `i`-th line; the block has the bytes of the chain. -/
structure Experiment.OneNodePerLine (e : Experiment) : Prop where
  offset_eq : ∀ i, 0 ≤ i → i < e.linesPerChain → 16 * lineLink e i = 16 * i * e.linksPerLine
  page_eq : ∀ page line, 0 ≤ page → page < e.pagesPerChain → 0 ≤ line → line < e.linesPerPage →
    pageLink e page line = lineLink e (page * e.linesPerPage + line)
  inside : ∀ i, 0 ≤ i → i < e.linesPerChain → i * e.bytesPerLine ≤ 16 * i * e.linksPerLine ∧
    16 * i * e.linksPerLine < (i + 1) * e.bytesPerLine
  distinct : ∀ i j, 0 ≤ i → i < e.linesPerChain → 0 ≤ j → j < e.linesPerChain →
    16 * i * e.linksPerLine / e.bytesPerLine = 16 * j * e.linksPerLine / e.bytesPerLine → i = j
  size_eq : 16 * e.linksPerChain = e.bytesPerChain

section Sizes
variable {e : Experiment} (hs : e.SizesDerived)
include hs

theorem pageLink_eq_lineLink (page line : Int) :
    pageLink e page line = lineLink e (page * e.linesPerPage + line) := by
  by_cases hk : e.linksPerLine = 0
  · have hpage : e.linksPerPage = 0 := by
      rw [hs.linksPerPage_eq, hk, Int.mul_zero]
      rfl
    rw [pageLink, lineLink, hpage, hk]
    simp
  · rw [pageLink, lineLink, (hs.geometry hk).linksPerPage_eq]
    congr 2
    ring

theorem size_eq_iff (hlines : e.linesPerPage ≠ 0) : 16 * e.linksPerChain = e.bytesPerChain ↔
    e.pagesPerChain = 0 ∨ 16 ∣ e.bytesPerLine := by
  have hbytes : e.bytesPerChain = e.pagesPerChain * e.linesPerPage * e.bytesPerLine := by
    rw [hs.bytesPerChain_eq, hs.bytesPerPage_eq]
    ring
  have hrest := Int.mul_tdiv_add_tmod e.bytesPerLine 16
  rw [← hs.linksPerLine_eq] at hrest
  have hdvd : 16 ∣ e.bytesPerLine ↔ 16 * e.linksPerLine = e.bytesPerLine := by
    rw [Int.dvd_iff_tmod_eq_zero]
    omega
  rw [hdvd, hbytes]
  by_cases hp : e.pagesPerChain = 0
  · have hlines : e.linesPerChain = 0 := by
      rw [hs.linesPerChain_eq, hp, Int.mul_zero]
      rfl
    have hlinks : e.linksPerChain = 0 := by
      rw [hs.linksPerChain_eq, hlines, Int.zero_mul]
      rfl
    simp [hp, hlinks]
  · have hpl : e.pagesPerChain * e.linesPerPage ≠ 0 := mul_ne_zero hp hlines
    rw [or_iff_right hp]
    by_cases hk : e.linksPerLine = 0
    · rw [linksPerChain_of_no_links hs hk, hk, Int.mul_zero]
      have hline := hs.bytesPerLine_ne
      refine iff_of_false ?_ (Ne.symm hline)
      exact (mul_ne_zero hpl hline).symm
    · rw [(hs.geometry hk).linksPerChain_eq]
      have hcomm : 16 * (e.pagesPerChain * e.linesPerPage * e.linksPerLine) =
          e.pagesPerChain * e.linesPerPage * (16 * e.linksPerLine) := by ring
      rw [hcomm]
      exact mul_right_inj' hpl

theorem linesPerChain_of_no_page (hp : e.pagesPerChain = 0) : e.linesPerChain = 0 := by
  rw [hs.linesPerChain_eq, hp, Int.mul_zero]
  rfl

theorem line_eq_of_dvd (hdvd : 16 ∣ e.bytesPerLine) :
    16 * e.linksPerLine = e.bytesPerLine ∧ e.linksPerLine = e.bytesPerLine / 16 := by
  have hrest := Int.mul_tdiv_add_tmod e.bytesPerLine 16
  rw [← hs.linksPerLine_eq, Int.tmod_eq_zero_of_dvd hdvd] at hrest
  omega

theorem oneNodePerLine_iff (hlines : e.linesPerPage ≠ 0) : e.OneNodePerLine ↔
    e.pagesPerChain = 0 ∨ 16 ∣ e.bytesPerLine ∧ (e.linesPerPage * e.pagesPerChain ≤ 0 ∨
      0 < e.bytesPerLine ∧
        (e.linesPerPage * e.pagesPerChain - 1) * (e.bytesPerLine / 16) < 2147483648) := by
  constructor
  · intro h
    refine ((size_eq_iff hs hlines).mp h.size_eq).imp_right ?_
    intro hdvd
    obtain ⟨hline, hlinks⟩ := line_eq_of_dvd hs hdvd
    have hk : e.linksPerLine ≠ 0 := by
      have := hs.bytesPerLine_ne
      omega
    refine ⟨hdvd, or_iff_not_imp_left.mpr ?_⟩
    intro hsome
    have hcount : e.linesPerChain = e.linesPerPage * e.pagesPerChain := by
      rw [(hs.geometry hk).linesPerChain_eq, Int.mul_comm]
    have hfirst := (h.inside 0 (by omega) (by omega)).2
    have hlast := h.offset_eq (e.linesPerChain - 1) (by omega) (by omega)
    have hrange := (wrap32_inInt32 ((e.linesPerChain - 1) * e.linksPerLine)).2
    rw [lineLink_eq, Int.mul_assoc] at hlast
    rw [← hcount, ← hlinks]
    omega
  · intro h
    by_cases hp : e.pagesPerChain = 0
    · have hzero := linesPerChain_of_no_page hs hp
      refine ⟨?_, fun page line _ _ _ _ => pageLink_eq_lineLink hs page line, ?_, ?_,
        (size_eq_iff hs hlines).mpr (.inl hp)⟩
      all_goals
        intros
        omega
    · obtain ⟨hdvd, hfits⟩ := h.resolve_left hp
      obtain ⟨hline, hlinks⟩ := line_eq_of_dvd hs hdvd
      have hk : e.linksPerLine ≠ 0 := by
        have := hs.bytesPerLine_ne
        omega
      have hcount : e.linesPerChain = e.linesPerPage * e.pagesPerChain := by
        rw [(hs.geometry hk).linesPerChain_eq, Int.mul_comm]
      rw [← hcount, ← hlinks] at hfits
      have hoffset : ∀ i, 16 * i * e.linksPerLine = i * e.bytesPerLine := by
        intro i
        rw [← hline]
        ring
      refine ⟨?_, fun page line _ _ _ _ => pageLink_eq_lineLink hs page line, ?_, ?_,
        (size_eq_iff hs hlines).mpr (.inr hdvd)⟩
      · intro i h0 hi
        obtain ⟨hpos, hlt⟩ := hfits.resolve_left (by omega)
        have hle : i * e.linksPerLine ≤ (e.linesPerChain - 1) * e.linksPerLine :=
          Int.mul_le_mul_of_nonneg_right (by omega) (by omega)
        have hnonneg : 0 ≤ i * e.linksPerLine := Int.mul_nonneg h0 (by omega)
        rw [lineLink_eq, wrap32_of_bounds hnonneg (by omega), Int.mul_assoc]
      · intro i h0 hi
        obtain ⟨hpos, _⟩ := hfits.resolve_left (by omega)
        rw [hoffset, Int.add_mul]
        omega
      · intro i j h0 hi _ _ heq
        obtain ⟨hpos, _⟩ := hfits.resolve_left (by omega)
        rwa [hoffset, hoffset, Int.mul_ediv_cancel _ (by omega),
          Int.mul_ediv_cancel _ (by omega)] at heq

end Sizes

section Words
variable {p : Platform}

def linesOf (line page : Int) : Int := (wrap64 (page + line - 1)).tdiv line

def pagesOf (line page chain : Int) : Int :=
  (wrap64 (chain + line * linesOf line page - 1)).tdiv (line * linesOf line page)

/-- There is no page, or a line holds a whole number of nodes, and unless there is no line
either, it is positive and the last node has an `int` index. -/
def LinesHoldNodes (line page chain : Int) : Prop :=
  pagesOf line page chain = 0 ∨ 16 ∣ line ∧ (linesOf line page * pagesOf line page chain ≤ 0 ∨
    0 < line ∧ (linesOf line page * pagesOf line page chain - 1) * (line / 16) < 2147483648)

theorem requested_sizes (phrases : List (Phrase p)) :
    (requested phrases).bytesPerLine = wrap64 (lineSize phrases) ∧
      (requested phrases).bytesPerPage = wrap64 (pageSize phrases) ∧
      (requested phrases).bytesPerChain = wrap64 (chainSize phrases) := by
  have hsize : ∀ (o : NumberOption) (size : Nat), o ≠ .iterations → o.get {} = wrap64 size →
      o.get (requested phrases) = wrap64 ((statedNumber o phrases).getD size : Nat) := by
    intro o size ho hdefault
    cases hs : statedNumber o phrases with
    | none => rw [get_of_not_stated ho hs, hdefault, Option.getD_none]
    | some v => rw [(get_of_statedNumber hs).1, Option.getD_some]
  exact ⟨hsize .line 64 (by decide) (by decide), hsize .page 4096 (by decide) (by decide),
    hsize .chain 16777216 (by decide) (by decide)⟩

/-- The derived counts are those of the sizes asked for, and no divisor is zero. -/
theorem derived_counts {e e' : Experiment} (hp : e.pointerSize = 16)
    (hl : InInt64 e.bytesPerLine) (h : deriveSizes e = some e') :
    e'.bytesPerLine = e.bytesPerLine ∧ e'.linesPerPage = linesOf e.bytesPerLine e.bytesPerPage ∧
      e'.linesPerPage ≠ 0 ∧
      e'.pagesPerChain = pagesOf e.bytesPerLine e.bytesPerPage e.bytesPerChain := by
  have hpage := (deriveSizes_derived hp hl h).bytesPerPage_eq
  simp only [deriveSizes, Option.bind_eq_bind, Option.bind_eq_some_iff, Option.pure_def,
    Option.some.injEq, div64_eq_some_iff, hp] at h
  obtain ⟨L, ⟨_, _, rfl⟩, P, ⟨hne, _, rfl⟩, K, _, rfl⟩ := h
  simp only at hpage
  refine ⟨rfl, rfl, ?_, ?_⟩
  · intro hzero
    have hlines : (wrap64 (e.bytesPerPage + e.bytesPerLine - 1)).tdiv e.bytesPerLine = 0 := hzero
    rw [hlines, Int.mul_zero] at hne
    exact hne rfl
  · simp only [hpage]
    rfl

/-- Nodes and cache lines agree in an accepted configuration exactly when a line of the
size asked for holds a whole number of nodes, degenerate sizes apart. -/
theorem one_node_per_line_iff {args : List CStr} {e : Experiment}
    (h : parseArgs p args = .accepted e) :
    (∃ phrases : List (Phrase p), args = commandWords phrases) ∧
      ∀ phrases : List (Phrase p), args = commandWords phrases →
        (e.OneNodePerLine ↔ LinesHoldNodes (wrap64 (lineSize phrases)) (wrap64 (pageSize phrases))
          (wrap64 (chainSize phrases))) := by
  refine ⟨exists_phrases h, ?_⟩
  intro phrases hargs
  subst hargs
  have hs := (accepted_of_parseArgs h).sizes
  rw [parseArgs_commandWords] at h
  obtain ⟨hline, hpage, hchain⟩ := requested_sizes phrases
  obtain ⟨e₁, hd, hlines, hpages, _⟩ := allocate_sizes h
  have hrange : InInt64 (requested phrases).bytesPerLine := hline ▸ wrap64_inInt64 _
  have hkept : Slot.Kept (.number .line) := trivial
  have hline' : e.bytesPerLine = (requested phrases).bytesPerLine := allocate_read hkept h
  obtain ⟨_, hlines', hne, hpages'⟩ := derived_counts (requested_pointerSize phrases) hrange hd
  rw [oneNodePerLine_iff hs (hlines ▸ hne), hline', hlines, hpages, hlines', hpages', hline, hpage,
    hchain]
  rfl

theorem default_one_node_per_line : ∃ e, parseArgs .single [] = .accepted e ∧
    e.OneNodePerLine := by
  have hrun : ∃ e, parseArgs .single [] = .accepted e := ⟨_, rfl⟩
  obtain ⟨e, he⟩ := hrun
  refine ⟨e, he, ((one_node_per_line_iff he).2 [] rfl).mpr (.inr ⟨by decide, .inr ?_⟩)⟩
  exact ⟨by decide, by decide +kernel⟩

/-- In lines of 24 bytes the second node starts in the first line. -/
theorem short_line_shared : ∃ e, parseArgs .single ["-l".toList, "24".toList] = .accepted e ∧
    ¬ e.OneNodePerLine := by
  have hrun : ∃ e, parseArgs .single ["-l".toList, "24".toList] = .accepted e ∧
      e.bytesPerLine = 24 ∧ e.linksPerLine = 1 ∧ 1 < e.linesPerChain :=
    ⟨_, rfl, by decide +kernel, by decide +kernel, by decide +kernel⟩
  obtain ⟨e, he, hline, hlinks, hlines⟩ := hrun
  refine ⟨e, he, ?_⟩
  intro h
  have hinside := (h.inside 1 (by omega) hlines).1
  omega

end Words

end PChase
