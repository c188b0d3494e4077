import PChase.ChaseReturns
import PChase.StridedRing

/-!
# What the memory operation touches

An operation on all lines of a stride reaches from its node over the lines behind it. It
stays in the block when the last node has a full stride of lines, and on a strided chain
its stores then spare the nodes.
-/

namespace PChase

open CInt CountLoop AffineCycle NextWalk
set_option autoImplicit false

/-- The chain has lines with links, and the products of both loops of `random_mem_init` and
its last link are in the range of an `int`. -/
structure Experiment.RandomExact (e : Experiment) : Prop where
  pages_pos : 1 ≤ e.pagesPerChain
  lines_pos : 1 ≤ e.linesPerPage
  links_pos : 1 ≤ e.linksPerLine
  pages_fit : 164 * (e.pagesPerChain - 1) < 2147483648
  lines_fit : 164 * (e.linesPerPage - 1) < 2147483648
  last_fits : (e.linesPerChain - 1) * e.linksPerLine < 2147483648

/-- The initialiser that `Run::run` chooses forms its links in the range of an `int`. -/
def Experiment.NodesFit (e : Experiment) : Prop :=
  match e.accessPattern with
  | .random => e.RandomExact
  | .strided => e.StridedFits

def Experiment.lastLink (e : Experiment) : Int :=
  match e.accessPattern with
  | .random => (e.linesPerChain - 1) * e.linksPerLine
  | .strided => e.lastIndex * e.step * e.linksPerLine

/-- `abs(stride)` as the unsigned number of lines. -/
def Experiment.strideLines (e : Experiment) : Nat := e.stride.natAbs % 4294967296

/-- The last node has a full stride of lines, the last up to its `data` word, in the block. -/
def Experiment.StrideInside (e : Experiment) : Prop :=
  16 * e.lastLink + ((e.strideLines : Int) - 1) * e.bytesPerLine + 16 ≤ 16 * e.linksPerChain

/-- The operation touches one line of each node, or a full stride behind the last. -/
def Experiment.FanOutFits (e : Experiment) : Prop :=
  (e.memOperation ≠ .loadAll ∧ e.memOperation ≠ .storeAll) ∨ e.strideLines ≤ 1 ∨ e.StrideInside

/-- The stores of `store_all` meet lines of whole nodes, or full strides of lines. -/
def Experiment.StoresFit (e : Experiment) : Prop :=
  e.memOperation ≠ .storeAll ∨ e.strideLines ≤ 1 ∨ 16 ∣ e.bytesPerLine ∨
    e.accessPattern = .strided ∧ e.StrideInside

section Rings
variable {e : Experiment}

theorem Experiment.RandomExact.lines_of_chain (hs : e.SizesDerived) (h : e.RandomExact) :
    1 ≤ e.linesPerChain := by
  have hk := h.links_pos
  have hp := h.pages_pos
  have hl := h.lines_pos
  rw [(hs.geometry (by omega)).linesPerChain_eq]
  exact Int.mul_pos (by omega) (by omega)

theorem Experiment.RandomExact.fits (hs : e.SizesDerived) (h : e.RandomExact) : e.RandomFits := by
  have hk := h.links_pos
  have hn := h.lines_of_chain hs
  have hmod : (e.linesPerChain - 1) * (e.linksPerLine % 4294967296) ≤
      (e.linesPerChain - 1) * e.linksPerLine :=
    Int.mul_le_mul_of_nonneg_left (by omega) (by omega)
  have hlast := h.last_fits
  exact .inr (.inr ⟨hk, .inr ⟨h.pages_fit, h.lines_fit, by omega⟩⟩)

theorem Experiment.NodesFit.random (h : e.NodesFit) (hpattern : e.accessPattern = .random) :
    e.RandomExact := by
  unfold Experiment.NodesFit at h
  rw [hpattern] at h
  exact h

theorem Experiment.NodesFit.strided (h : e.NodesFit) (hpattern : e.accessPattern = .strided) :
    e.StridedFits := by
  unfold Experiment.NodesFit at h
  rw [hpattern] at h
  exact h

theorem Experiment.NodesFit.links_pos (h : e.NodesFit) : 1 ≤ e.linksPerLine := by
  cases hpattern : e.accessPattern with
  | random => exact (h.random hpattern).links_pos
  | strided => exact (h.strided hpattern).links_pos

theorem lastLink_random (hpattern : e.accessPattern = .random) :
    e.lastLink = (e.linesPerChain - 1) * e.linksPerLine := by
  rw [Experiment.lastLink, hpattern]

theorem lastLink_strided (hpattern : e.accessPattern = .strided) :
    e.lastLink = e.lastIndex * e.step * e.linksPerLine := by
  rw [Experiment.lastLink, hpattern]

/-- A node of the ring: in the block, up to the last one, and on a strided chain a
multiple of the stride. -/
structure OnRing (e : Experiment) (l : Int) : Prop where
  inBlock : InBlock e l
  le_last : l ≤ e.lastLink
  multiple : e.accessPattern = .strided → ∃ i : Int, l = i * e.step * e.linksPerLine

theorem onRing_of_multiple (hs : e.SizesDerived) (h : e.StridedFits) (hne : e.stride ≠ 0)
    (hpattern : e.accessPattern = .strided) {i : Int} (h0 : 0 ≤ i) (h1 : i ≤ e.lastIndex) :
    OnRing e (i * e.step * e.linksPerLine) := by
  have hk := h.links_pos
  have hstep := step_pos hne
  have hline : i * e.step ≤ e.lastIndex * e.step :=
    Int.mul_le_mul_of_nonneg_right h1 (by omega)
  have hlast := (last_line_bounds hne).1
  refine ⟨⟨Int.mul_nonneg (Int.mul_nonneg h0 (by omega)) (by omega), ?_⟩, ?_, fun _ => ⟨i, rfl⟩⟩
  · rw [(hs.geometry (by omega)).links_eq]
    exact Int.mul_lt_mul_of_pos_right (by omega) (by omega)
  · rw [lastLink_strided hpattern]
    exact Int.mul_le_mul_of_nonneg_right hline (by omega)

def memLinks (e : Experiment) (d : Draws) : Option (List Int) :=
  match e.accessPattern with
  | .random => randomLinks e d
  | .strided => if 0 < e.stride then forwardLinks e else reverseLinks e

theorem memInit_eq (e : Experiment) (d : Draws) :
    memInit e d = (memLinks e d).bind (buildRing e) := by
  unfold memInit memLinks
  cases e.accessPattern with
  | random => rfl
  | strided =>
    simp only
    split <;> rfl

theorem memLinks_strided (h : e.StridedFits) (hne : e.stride ≠ 0)
    (hpattern : e.accessPattern = .strided) (d : Draws) : memLinks e d =
      some ((List.range (e.lastIndex.toNat + 1)).map fun k : Nat =>
        (if 0 < e.stride then (k : Int) else e.lastIndex - k) * e.step * e.linksPerLine) := by
  simp only [memLinks, hpattern]
  by_cases hpos : 0 < e.stride
  · simp only [hpos, if_true]
    exact forwardLinks_eq h hne hpos
  · simp only [hpos, if_false]
    exact reverseLinks_eq h hne (by omega)

theorem memLinks_of_fits (hs : e.SizesDerived) (hne : e.stride ≠ 0) (h : e.NodesFit)
    (random : Nat → Nat) (hr : ∀ k, random k < 2147483648) :
    ∃ links, memLinks e (draws e random) = some links ∧ links ≠ [] ∧ ∀ l ∈ links, OnRing e l := by
  cases hpattern : e.accessPattern with
  | random =>
    obtain ⟨hp, hl, hk, hpages, hlines, _⟩ := h.random hpattern
    have hlist := randomLinks_of_lt e (draws e random) (by omega) (by omega)
    refine ⟨_, by rw [memLinks, hpattern]; exact hlist, ?_, ?_⟩
    · have hp0 : 0 < e.pagesPerChain.toNat := by omega
      have hl0 : 0 < e.linesPerPage.toNat := by omega
      have := Nat.mul_pos hp0 hl0
      simp only [ne_eq, List.map_eq_nil_iff, List.range_eq_nil]
      omega
    · intro l hmem
      obtain ⟨_, v, h0, h1, rfl⟩ :=
        random_link_value hs ((h.random hpattern).fits hs) hr ((mem_randomLinks hlist l).mp hmem)
      refine ⟨inBlock_of_line (hs.geometry (by omega)) hk h0 h1, ?_, ?_⟩
      · calc v * (e.linksPerLine % 4294967296)
            ≤ v * e.linksPerLine := Int.mul_le_mul_of_nonneg_left (by omega) h0
          _ ≤ (e.linesPerChain - 1) * e.linksPerLine :=
              Int.mul_le_mul_of_nonneg_right (by omega) (by omega)
          _ = e.lastLink := (lastLink_random hpattern).symm
      · rw [hpattern]
        exact fun h => nomatch h
  | strided =>
    have hfits := h.strided hpattern
    have hnonneg := lastIndex_nonneg hfits hne
    refine ⟨_, memLinks_strided hfits hne hpattern _, by simp, ?_⟩
    intro l hl
    obtain ⟨k, hk, rfl⟩ := List.mem_map.mp hl
    have hk' := List.mem_range.mp hk
    apply onRing_of_multiple hs hfits hne hpattern
    · split <;> omega
    · split <;> omega

theorem memInit_of_fits (hs : e.SizesDerived) (hne : e.stride ≠ 0) (h : e.NodesFit)
    (random : Nat → Nat) (hr : ∀ k, random k < 2147483648) :
    ∃ links r, memInit e (draws e random) = some r ∧ buildRing e links = some r ∧
      ∀ l ∈ links, OnRing e l := by
  obtain ⟨links, hlist, hnil, hring⟩ := memLinks_of_fits hs hne h random hr
  have hbuild := (buildRing_links e links _).mpr ⟨hnil, fun l hl => (hring l hl).inBlock, rfl⟩
  refine ⟨links, _, ?_, hbuild, hring⟩
  rw [memInit_eq, hlist]
  exact hbuild

theorem lastLink_nonneg (hs : e.SizesDerived) (hne : e.stride ≠ 0) (h : e.NodesFit) :
    0 ≤ e.lastLink := by
  obtain ⟨links, _, hnil, hring⟩ := memLinks_of_fits hs hne h (fun _ => 0) fun _ => Nat.zero_lt_succ _
  obtain ⟨l, hl⟩ := List.exists_mem_of_ne_nil links hnil
  have hlast := (hring l hl).le_last
  have hin := (hring l hl).inBlock.1
  omega

end Rings

section FanOut
variable {e : Experiment} (hs : e.SizesDerived) (hne : e.stride ≠ 0) (hfit : e.NodesFit)

include hs in
theorem block_bytes_le (hk : e.linksPerLine ≠ 0) : 16 * e.linksPerChain ≤ 9223372036854775808 := by
  have hbound := hs.chain_bound
  have habs : e.linksPerChain.natAbs =
      e.linksPerLine.natAbs * (e.linesPerPage.natAbs * e.pagesPerChain.natAbs) := by
    rw [(hs.geometry hk).linksPerChain_eq, Int.natAbs_mul, Int.natAbs_mul]
    ring
  omega

include hs in
theorem bytesPerLine_split (hk : 1 ≤ e.linksPerLine) :
    16 * e.linksPerLine ≤ e.bytesPerLine ∧ e.bytesPerLine < 16 * e.linksPerLine + 16 := by
  have hpos : 0 ≤ e.bytesPerLine := by
    by_contra hneg
    have := (mul_tdiv_between e.bytesPerLine 16).2 (by omega)
    have := hs.linksPerLine_eq
    omega
  have hsplit := Int.mul_tdiv_add_tmod e.bytesPerLine 16
  have h0 := Int.tmod_nonneg 16 hpos
  have h1 := Int.tmod_lt_of_pos e.bytesPerLine (show (0 : Int) < 16 by decide)
  rw [hs.linksPerLine_eq]
  omega

include hs hne hfit

/-- Line offsets of a stride inside the block are products without overflow. -/
theorem offset_of_inside (hinside : e.StrideInside) {j : Nat} (hj : j < e.strideLines) :
    wrap64 (j * e.bytesPerLine) = j * e.bytesPerLine ∧ 0 ≤ j * e.bytesPerLine ∧
      j * e.bytesPerLine ≤ ((e.strideLines : Int) - 1) * e.bytesPerLine := by
  have hk := hfit.links_pos
  have hbytes := bytesPerLine_split hs hk
  have hk0 : e.linksPerLine ≠ 0 := by omega
  have hblock := block_bytes_le hs hk0
  have hlast := lastLink_nonneg hs hne hfit
  have h0 : 0 ≤ (j : Int) * e.bytesPerLine := Int.mul_nonneg (by omega) (by omega)
  have h1 : (j : Int) * e.bytesPerLine ≤ ((e.strideLines : Int) - 1) * e.bytesPerLine :=
    Int.mul_le_mul_of_nonneg_right (by omega) (by omega)
  unfold Experiment.StrideInside at hinside
  exact ⟨wrap64_of_inInt64 ⟨by omega, by omega⟩, h0, h1⟩

omit hs hne hfit in
theorem mem_dataOffsets (o : Int) : o ∈ dataOffsets e ↔
    (e.memOperation = .load ∨ e.memOperation = .store) ∧ o = 8 ∨
    (e.memOperation = .loadAll ∨ e.memOperation = .storeAll) ∧
      ∃ j < e.strideLines, wrap64 ((j : Nat) * e.bytesPerLine) + 8 = o := by
  unfold dataOffsets valNum Experiment.strideLines
  cases hop : e.memOperation with
  | na => simp
  | load => simp
  | store => simp
  | loadAll => simp
  | storeAll => simp

theorem dataOffsets_of_fits (h : e.FanOutFits) {o : Int} (ho : o ∈ dataOffsets e) :
    o = 8 ∨ e.StrideInside ∧ ∃ j < e.strideLines, o = (j : Nat) * e.bytesPerLine + 8 := by
  rcases (mem_dataOffsets o).mp ho with ⟨_, rfl⟩ | ⟨hop, j, hj, rfl⟩
  · exact .inl rfl
  · rcases h with ⟨hload, hstore⟩ | hone | hinside
    · exact absurd hop (not_or.mpr ⟨hload, hstore⟩)
    · left
      simp [show j = 0 by omega, wrap64_of_inInt64 (show InInt64 0 by decide)]
    · right
      refine ⟨hinside, j, hj, ?_⟩
      rw [(offset_of_inside hs hne hfit hinside hj).1]

theorem inside_of_fits (h : e.FanOutFits) {c : Nat} {l : Int} (hl : OnRing e l) {a : Access}
    (ha : AccessAt e c l a) : a.Inside e := by
  obtain ⟨o, ho, rfl⟩ := ha
  have hin := hl.inBlock
  have hlast := hl.le_last
  unfold InBlock at hin
  rcases dataOffsets_of_fits hs hne hfit h ho with rfl | ⟨hinside, j, hj, rfl⟩
  · exact ⟨by simp only; omega, by simp only; omega⟩
  · have hoffset := offset_of_inside hs hne hfit hinside hj
    unfold Experiment.StrideInside at hinside
    exact ⟨by simp only; omega, by simp only; omega⟩

theorem rests_fit (hpattern : e.accessPattern = .strided) (hinside : e.StrideInside) :
    (e.step - 1) * (e.bytesPerLine - 16 * e.linksPerLine) + 16 ≤ 16 * e.linksPerLine := by
  have hk := hfit.links_pos
  have hbounds := (last_line_bounds hne).2
  have hlines : (e.strideLines : Int) = e.step := by
    have hlt := step_lt (hfit.strided hpattern) hne
    unfold Experiment.step at hlt ⊢
    unfold Experiment.strideLines
    omega
  have hblock : e.linesPerChain * e.linksPerLine ≤ (e.lastIndex + 1) * e.step * e.linksPerLine :=
    Int.mul_le_mul_of_nonneg_right hbounds (by omega)
  unfold Experiment.StrideInside at hinside
  rw [hlines, lastLink_strided hpattern, (hs.geometry (by omega)).links_eq] at hinside
  have h1 : (e.lastIndex + 1) * e.step * e.linksPerLine =
      e.lastIndex * e.step * e.linksPerLine + e.step * e.linksPerLine := by ring
  have h2 : (e.step - 1) * (e.bytesPerLine - 16 * e.linksPerLine) =
      (e.step - 1) * e.bytesPerLine - 16 * (e.step * e.linksPerLine) + 16 * e.linksPerLine := by
    ring
  omega

theorem overlaps_own_of_inside {chains : Nat} (pl : Placement e chains)
    (hpattern : e.accessPattern = .strided) (hinside : e.StrideInside) {c : Nat} {l l' : Int}
    (hl : OnRing e l) (hl' : OnRing e l') {j : Nat} (hj : j < e.strideLines) :
    overlaps pl c l' (pl.base c + 16 * l + (j * e.bytesPerLine + 8)) = false := by
  obtain ⟨i, rfl⟩ := hl.multiple hpattern
  obtain ⟨i', rfl⟩ := hl'.multiple hpattern
  have hk := hfit.links_pos
  have hbytes := bytesPerLine_split hs hk
  have hrests := rests_fit hs hne hfit hpattern hinside
  have hstep : (j : Int) ≤ e.step - 1 := by
    have := Nat.mod_le e.stride.natAbs 4294967296
    unfold Experiment.strideLines at hj
    unfold Experiment.step
    omega
  have hrest : (j : Int) * (e.bytesPerLine - 16 * e.linksPerLine) ≤
      (e.step - 1) * (e.bytesPerLine - 16 * e.linksPerLine) :=
    Int.mul_le_mul_of_nonneg_right hstep (by omega)
  have hrest0 : 0 ≤ (j : Int) * (e.bytesPerLine - 16 * e.linksPerLine) :=
    Int.mul_nonneg (by omega) (by omega)
  rw [Bool.eq_false_iff, ne_eq, overlaps_same_iff]
  rintro ⟨hbelow, habove⟩
  have hsplit : 16 * (i * e.step * e.linksPerLine) + (j * e.bytesPerLine + 8) + 8 -
      16 * (i' * e.step * e.linksPerLine) = j * (e.bytesPerLine - 16 * e.linksPerLine) + 16 -
        16 * (((i' - i) * e.step - j) * e.linksPerLine) := by ring
  have hpos : 1 ≤ (i' - i) * e.step - j := by
    by_contra hle
    have : ((i' - i) * e.step - j) * e.linksPerLine ≤ 0 :=
      Int.mul_nonpos_of_nonpos_of_nonneg (by omega) (by omega)
    omega
  have hone : 1 * e.linksPerLine ≤ ((i' - i) * e.step - j) * e.linksPerLine :=
    Int.mul_le_mul_of_nonneg_right hpos (by omega)
  omega

theorem storesSpare_of_inside {chains : Nat} (pl : Placement e chains)
    (hpattern : e.accessPattern = .strided) (hinside : e.StrideInside)
    {S : Nat → Int → Prop} (hS : ∀ c < chains, ∀ l, S c l → OnRing e l) : StoresSpare pl S := by
  have hfan : e.FanOutFits := .inr (.inr hinside)
  intro _ c hc l hl o ho c' hc' l' hl'
  have hnode := hS c hc l hl
  by_cases hcc : c = c'
  · subst c'
    rcases dataOffsets_of_fits hs hne hfit hfan ho with rfl | ⟨_, j, hj, rfl⟩
    · exact overlaps_of_data pl hc hc rfl
    · exact overlaps_own_of_inside hs hne hfit pl hpattern hinside hnode (hS c hc l' hl') hj
  · obtain ⟨h0, h1⟩ := inside_of_fits hs hne hfit hfan hnode (c := c) ⟨o, ho, rfl⟩
    exact overlaps_of_inside pl hc hc' hcc (hS c' hc' l' hl').inBlock h0 h1

theorem storesSpare_of_fits {chains : Nat} (pl : Placement e chains) (h : e.StoresFit)
    {S : Nat → Int → Prop} (hS : ∀ c < chains, ∀ l, S c l → OnRing e l) : StoresSpare pl S := by
  have hone : e.strideLines ≤ 1 → valNum e ≤ 1 := by
    intro hlines
    unfold valNum
    split
    · exact hlines
    · omega
  rcases h with h | h | h | ⟨hpattern, hinside⟩
  · exact storesSpare_of_data pl S (dataOffsets_data (.inl h))
  · exact storesSpare_of_data pl S (dataOffsets_data (.inr (.inl (hone h))))
  · exact storesSpare_of_data pl S (dataOffsets_data (.inr (.inr h)))
  · exact storesSpare_of_inside hs hne hfit pl hpattern hinside hS

omit hne in
/-- A random chain has no room for a second line behind its last node. -/
theorem storesFit_of_fanOut (h : e.FanOutFits) : e.StoresFit := by
  rcases h with ⟨_, h⟩ | h | hinside
  · exact .inl h
  · exact .inr (.inl h)
  · cases hpattern : e.accessPattern with
    | strided => exact .inr (.inr (.inr ⟨hpattern, hinside⟩))
    | random =>
      refine .inr (.inl ?_)
      by_contra hmany
      have hk := hfit.links_pos
      have hbytes := bytesPerLine_split hs hk
      have hone : 1 * e.bytesPerLine ≤ ((e.strideLines : Int) - 1) * e.bytesPerLine :=
        Int.mul_le_mul_of_nonneg_right (by omega) (by omega)
      unfold Experiment.StrideInside at hinside
      rw [lastLink_random hpattern, (hs.geometry (by omega)).links_eq, Int.sub_mul,
        Int.one_mul] at hinside
      omega

end FanOut

end PChase
