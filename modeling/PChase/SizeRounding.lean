import Mathlib.Algebra.Order.Floor.Div
import Mathlib.Order.Bounds.Basic
import PChase.DomainResidues
import PChase.MapText

/-!
# Rounded sizes

The page size is the least multiple of the line size that reaches the one asked for, and
the chain size the least multiple of that page size. As long as the sums and products fit
into a `long long`, all other sizes follow from these two, and the reported sizes are
rounded to themselves.
-/

namespace PChase

open CInt CountLoop
set_option autoImplicit false

section RoundUp

def roundUp (n x : Nat) : Nat := n * (x ⌈/⌉ n)

variable {n x : Nat} (hn : 0 < n)
include hn

theorem le_roundUp (x : Nat) : x ≤ roundUp n x := (ceilDiv_le_iff_le_mul hn).mp (Nat.le_refl _)

theorem roundUp_lt (x : Nat) : roundUp n x < x + n := by
  have hle : n * ((x + n - 1) / n) ≤ x + n - 1 := Nat.mul_div_le _ _
  unfold roundUp
  rw [Nat.ceilDiv_eq_add_pred_div]
  omega

theorem roundUp_least (x : Nat) : IsLeast {m | n ∣ m ∧ x ≤ m} (roundUp n x) := by
  refine ⟨⟨Nat.dvd_mul_right _ _, le_roundUp hn x⟩, ?_⟩
  intro m hm
  obtain ⟨⟨k, rfl⟩, hx⟩ := hm
  exact Nat.mul_le_mul_left n ((ceilDiv_le_iff_le_mul hn).mpr hx)

theorem roundUp_ceilDiv (x : Nat) : roundUp n x ⌈/⌉ n = x ⌈/⌉ n := smul_ceilDiv hn _

theorem roundUp_roundUp (x : Nat) : roundUp n (roundUp n x) = roundUp n x := by
  conv_lhs => rw [roundUp, roundUp_ceilDiv hn]
  rfl

theorem roundUp_pos (hx : 0 < x) : 0 < roundUp n x := Nat.lt_of_lt_of_le hx (le_roundUp hn x)

theorem roundUp_least_int (x : Nat) :
    IsLeast {m : Int | (n : Int) ∣ m ∧ (x : Int) ≤ m} (roundUp n x : Nat) := by
  obtain ⟨⟨hdvd, hle⟩, hleast⟩ := roundUp_least hn x
  refine ⟨⟨Int.natCast_dvd_natCast.mpr hdvd, by exact_mod_cast hle⟩, ?_⟩
  intro m hm
  obtain ⟨hm, hx⟩ := hm
  lift m to Nat using (by omega)
  exact_mod_cast hleast ⟨Int.natCast_dvd_natCast.mp hm, by exact_mod_cast hx⟩

end RoundUp

/-- The sums that round the sizes up fit into 63 bits. -/
structure SumsFit (line page chain : Nat) : Prop where
  line_pos : 0 < line
  page_pos : 0 < page
  chain_pos : 0 < chain
  page_sum : page + line ≤ 9223372036854775808
  chain_sum : chain + roundUp line page ≤ 9223372036854775808

structure Sizes where
  bytesPerLine : Int
  linksPerLine : Int
  bytesPerPage : Int
  linesPerPage : Int
  linksPerPage : Int
  bytesPerChain : Int
  linesPerChain : Int
  linksPerChain : Int
  pagesPerChain : Int
  bytesPerThread : Int
  bytesPerTest : Int
  deriving Repr, DecidableEq

def Experiment.sizes (e : Experiment) : Sizes where
  bytesPerLine := e.bytesPerLine
  linksPerLine := e.linksPerLine
  bytesPerPage := e.bytesPerPage
  linesPerPage := e.linesPerPage
  linksPerPage := e.linksPerPage
  bytesPerChain := e.bytesPerChain
  linesPerChain := e.linesPerChain
  linksPerChain := e.linksPerChain
  pagesPerChain := e.pagesPerChain
  bytesPerThread := e.bytesPerThread
  bytesPerTest := e.bytesPerTest

def roundedSizes (line page chain : Nat) (chains threads : Int) : Sizes where
  bytesPerLine := line
  linksPerLine := (line / 16 : Nat)
  bytesPerPage := roundUp line page
  linesPerPage := (page ⌈/⌉ line : Nat)
  linksPerPage := (page ⌈/⌉ line * (line / 16) : Nat)
  bytesPerChain := roundUp (roundUp line page) chain
  linesPerChain := (page ⌈/⌉ line * (chain ⌈/⌉ roundUp line page) : Nat)
  linksPerChain := (page ⌈/⌉ line * (chain ⌈/⌉ roundUp line page) * (line / 16) : Nat)
  pagesPerChain := (chain ⌈/⌉ roundUp line page : Nat)
  bytesPerThread := roundUp (roundUp line page) chain * chains
  bytesPerTest := roundUp (roundUp line page) chain * chains * threads

section Derived
variable {line page chain : Nat}

theorem SumsFit.rounded_pos (h : SumsFit line page chain) :
    0 < roundUp line page ∧ 0 < roundUp (roundUp line page) chain := by
  have hpage := roundUp_pos h.line_pos h.page_pos
  exact ⟨hpage, roundUp_pos hpage h.chain_pos⟩

theorem div64_roundUp {x n : Nat} (hn : 0 < n) (h : x + n ≤ 9223372036854775808) :
    div64 (wrap64 ((x : Int) + n - 1)) n = some ((x ⌈/⌉ n : Nat) : Int) := by
  have hsub : (x : Int) + n - 1 = (x + n - 1 : Nat) := by omega
  rw [hsub, wrap64_of_inInt64 ⟨by omega, by omega⟩, div64_of_pos (by omega),
    Int.tdiv_eq_ediv_of_nonneg (by omega), Nat.ceilDiv_eq_add_pred_div]
  rfl

theorem wrap64_mul_natCast {m n : Nat} (h : m * n < 9223372036854775808) :
    wrap64 (m * n : Int) = (m * n : Nat) := by
  rw [← Nat.cast_mul]
  exact (wrap64_natCast_eq_iff _).mpr h

theorem wrap64_roundUp {n x : Nat} (h : roundUp n x < 9223372036854775808) :
    wrap64 ((n : Int) * (x ⌈/⌉ n : Nat)) = (roundUp n x : Nat) := by
  unfold roundUp at h ⊢
  exact wrap64_mul_natCast h

def Sizes.recount (s : Sizes) (chains threads : Int) : Sizes :=
  { s with
    bytesPerThread := wrap64 (s.bytesPerChain * chains)
    bytesPerTest := wrap64 (wrap64 (s.bytesPerChain * chains) * threads) }

def Experiment.withSizes (e : Experiment) (s : Sizes) : Experiment :=
  { e with
    bytesPerLine := s.bytesPerLine
    linksPerLine := s.linksPerLine
    bytesPerPage := s.bytesPerPage
    linesPerPage := s.linesPerPage
    linksPerPage := s.linksPerPage
    bytesPerChain := s.bytesPerChain
    linesPerChain := s.linesPerChain
    linksPerChain := s.linksPerChain
    pagesPerChain := s.pagesPerChain
    bytesPerThread := s.bytesPerThread
    bytesPerTest := s.bytesPerTest }

theorem deriveSizes_rounded {e : Experiment} (hp : e.pointerSize = 16)
    (hline : e.bytesPerLine = line) (hpage : e.bytesPerPage = page)
    (hchain : e.bytesPerChain = chain) (h : SumsFit line page chain) :
    deriveSizes e = some (e.withSizes ((roundedSizes line page chain e.chainsPerThread
      e.numThreads).recount e.chainsPerThread e.numThreads)) := by
  obtain ⟨hpos, _⟩ := h.rounded_pos
  have hpage_lt : roundUp line page < 9223372036854775808 :=
    Nat.lt_of_lt_of_le (roundUp_lt h.line_pos page) h.page_sum
  have hchain_lt : roundUp (roundUp line page) chain < 9223372036854775808 :=
    Nat.lt_of_lt_of_le (roundUp_lt hpos chain) h.chain_sum
  have hlinks : page ⌈/⌉ line * (line / 16) ≤ roundUp line page := by
    rw [roundUp, Nat.mul_comm line]
    exact Nat.mul_le_mul_left _ (Nat.div_le_self _ _)
  have hlinks' : page ⌈/⌉ line * (chain ⌈/⌉ roundUp line page) * (line / 16) ≤
      roundUp (roundUp line page) chain := by
    rw [roundUp, Nat.mul_right_comm]
    exact Nat.mul_le_mul_right _ hlinks
  have hlines : page ⌈/⌉ line * (chain ⌈/⌉ roundUp line page) ≤
      roundUp (roundUp line page) chain :=
    Nat.mul_le_mul_right _ (Nat.le_mul_of_pos_left _ h.line_pos)
  have hlinksPerLine : div64 (line : Int) 16 = some ((line / 16 : Nat) : Int) := by
    rw [div64_sixteen, Int.tdiv_eq_ediv_of_nonneg (Int.natCast_nonneg line)]
    rfl
  simp only [deriveSizes, Option.bind_eq_bind, Option.bind_eq_some_iff, Option.pure_def,
    Option.some.injEq, hp, hline, hpage, hchain]
  refine ⟨_, div64_roundUp h.line_pos h.page_sum, ?_⟩
  rw [wrap64_roundUp hpage_lt]
  refine ⟨_, div64_roundUp hpos h.chain_sum, _, hlinksPerLine, ?_⟩
  rw [wrap64_roundUp hchain_lt, wrap64_mul_natCast (Nat.lt_of_le_of_lt hlinks hpage_lt),
    wrap64_mul_natCast (Nat.lt_of_le_of_lt hlines hchain_lt),
    wrap64_mul_natCast (Nat.lt_of_le_of_lt hlinks' hchain_lt), ← hp]
  rfl

end Derived

section Accepted
variable {p : Platform} {e e' : Experiment}

theorem allocate_recount (h : allocate p e = .accepted e') : ∃ e₁, deriveSizes e = some e₁ ∧
    e'.sizes = e₁.sizes.recount e'.chainsPerThread e'.numThreads := by
  obtain ⟨e₁, hd, ⟨_, ha⟩ | ⟨_, hc⟩⟩ := (allocate_eq_accepted_iff p e e').mp h
  · obtain ⟨_, _, m, _, rfl⟩ := (allocMap_eq_ok_iff _ _ _).mp ha
    exact ⟨e₁, hd, rfl⟩
  · obtain ⟨_, seeds, _, _, hplaced⟩ := (allocComputed_eq_some_iff _ _).mp hc
    rw [allocPlaced_eq] at hplaced
    obtain ⟨threads, _, hrest⟩ := Option.bind_eq_some_iff.mp hplaced
    obtain ⟨chains, _, he⟩ := Option.bind_eq_some_iff.mp hrest
    simp only [Option.pure_def, Option.some.injEq] at he
    subst he
    refine ⟨e₁, hd, ?_⟩
    simp only [deriveSizes, Option.bind_eq_bind, Option.bind_eq_some_iff, Option.pure_def,
      Option.some.injEq] at hd
    obtain ⟨L, _, K, _, P, _, rfl⟩ := hd
    rfl

theorem requested_number (phrases : List (Phrase p)) (o : NumberOption) (default : Nat)
    (ho : o ≠ .iterations) (hdefault : o.get {} = default)
    (h : (statedNumber o phrases).getD default < 9223372036854775808) :
    o.get (requested phrases) = ((statedNumber o phrases).getD default : Nat) := by
  cases hs : statedNumber o phrases with
  | none => exact (get_of_not_stated ho hs).trans hdefault
  | some v =>
    rw [hs, Option.getD_some] at h
    exact (get_of_statedNumber hs).1.trans ((wrap64_natCast_eq_iff v).mpr h)

end Accepted

variable {p : Platform}

/-- The chains of a thread and the threads that a command line asks for. The numbers of a
map are what its two counting passes find. -/
def askedCounts (phrases : List (Phrase p)) : Int × Int :=
  match placementOf phrases with
  | .computed _ => (((statedNumber .references phrases).getD 1 : Nat),
      ((statedNumber .threads phrases).getD 1 : Nat))
  | .map text => (countChains 1 text, countThreads 1 text)

def roundedChain (phrases : List (Phrase p)) : Nat :=
  roundUp (roundUp (lineSize phrases) (pageSize phrases)) (chainSize phrases)

/-- The sizes and counts that a command line asks for are positive, and their sums and
products fit into 63 bits. -/
structure SizesFit (phrases : List (Phrase p)) : Prop where
  sums : SumsFit (lineSize phrases) (pageSize phrases) (chainSize phrases)
  chains_pos : 0 < (askedCounts phrases).1
  threads_pos : 0 < (askedCounts phrases).2
  product : roundedChain phrases * (askedCounts phrases).1 * (askedCounts phrases).2 <
    9223372036854775808

/-- The sizes of a configuration against those its command line asks for. -/
structure Experiment.RoundedUp (e : Experiment) (phrases : List (Phrase p)) : Prop where
  bytesPerLine_eq : e.bytesPerLine = lineSize phrases
  bytesPerPage_least : IsLeast {m : Int | e.bytesPerLine ∣ m ∧ (pageSize phrases : Int) ≤ m}
    e.bytesPerPage
  bytesPerChain_least : IsLeast {m : Int | e.bytesPerPage ∣ m ∧ (chainSize phrases : Int) ≤ m}
    e.bytesPerChain
  linesPerChain_eq : e.linesPerChain * e.bytesPerLine = e.bytesPerChain
  linksPerChain_eq : e.linksPerChain = e.pagesPerChain * e.linksPerPage
  counts_eq : (e.chainsPerThread, e.numThreads) = askedCounts phrases
  bytesPerTest_eq : e.bytesPerTest = e.bytesPerChain * e.chainsPerThread * e.numThreads

def Experiment.reportedSizes (e : Experiment) : List CStr :=
  ["-l".toList, printInt e.bytesPerLine, "-p".toList, printInt e.bytesPerPage, "-c".toList,
    printInt e.bytesPerChain]

section Fit
variable {phrases : List (Phrase p)} {e : Experiment}

theorem SizesFit.counts_lt (h : SizesFit phrases) :
    roundedChain phrases * (askedCounts phrases).1 < 9223372036854775808 ∧
      (askedCounts phrases).1 < 9223372036854775808 ∧
      (askedCounts phrases).2 < 9223372036854775808 := by
  have hchain : 1 ≤ (roundedChain phrases : Int) := by exact_mod_cast h.sums.rounded_pos.2
  have hchains := h.chains_pos
  have hthreads := h.threads_pos
  have hthread : (askedCounts phrases).1 ≤ roundedChain phrases * (askedCounts phrases).1 :=
    le_mul_of_one_le_left (by omega) hchain
  have htest := le_mul_of_one_le_right (b := (askedCounts phrases).2)
    (a := roundedChain phrases * (askedCounts phrases).1) (by omega) (by omega)
  have htest' := le_mul_of_one_le_left (b := (askedCounts phrases).2)
    (a := roundedChain phrases * (askedCounts phrases).1) (by omega) (by omega)
  have hproduct := h.product
  exact ⟨by omega, by omega, by omega⟩

theorem counts_of_allocate (h : allocate p (requested phrases) = .accepted e)
    (hfit : SizesFit phrases) : (e.chainsPerThread, e.numThreads) = askedCounts phrases := by
  have hplaces := requested_places phrases
  obtain ⟨_, hchains_lt, hthreads_lt⟩ := hfit.counts_lt
  obtain ⟨_, _, _, _, hcounts⟩ := allocate_sizes h
  unfold askedCounts at hchains_lt hthreads_lt ⊢
  cases hplacement : placementOf phrases with
  | computed chainOf =>
    rw [hplacement] at hplaces
    simp only [hplacement] at hchains_lt hthreads_lt ⊢
    obtain ⟨hthreads, hchains⟩ := hcounts hplaces.1
    have hthreads' := requested_number phrases .threads 1 (by decide) rfl (by omega)
    have hchains' := requested_number phrases .references 1 (by decide) rfl (by omega)
    rw [hthreads, hchains]
    exact Prod.ext hchains' hthreads'
  | map text =>
    rw [hplacement] at hplaces
    obtain ⟨hmode, htext⟩ := hplaces
    obtain ⟨e₁, hd, ⟨_, ha⟩ | ⟨hne, _⟩⟩ := (allocate_eq_accepted_iff p _ e).mp h
    · have hkept : Slot.Kept .placementMap := trivial
      have htext' : e₁.placementMap = some text := (deriveSizes_read hkept hd).trans htext
      rw [htext', Option.getD_some] at ha
      obtain ⟨_, _, hthreads, hchains, _⟩ := allocMap_ok ha
      exact Prod.ext hchains hthreads
    · have hkept : Slot.Kept .numaPlacement := trivial
      exact absurd ((deriveSizes_read hkept hd).trans hmode) hne

theorem deriveSizes_requested (h : SumsFit (lineSize phrases) (pageSize phrases)
    (chainSize phrases)) : deriveSizes (requested phrases) = some ((requested phrases).withSizes
      ((roundedSizes (lineSize phrases) (pageSize phrases) (chainSize phrases)
        (requested phrases).chainsPerThread (requested phrases).numThreads).recount
          (requested phrases).chainsPerThread (requested phrases).numThreads)) := by
  have hpage := h.page_sum
  have hchain := h.chain_sum
  have hpage_pos := h.page_pos
  have hline_pos := h.line_pos
  have hround := h.rounded_pos.1
  exact deriveSizes_rounded (requested_pointerSize phrases)
    (requested_number phrases .line 64 (by decide) rfl (by unfold lineSize at *; omega))
    (requested_number phrases .page 4096 (by decide) rfl (by unfold pageSize at *; omega))
    (requested_number phrases .chain 16777216 (by decide) rfl (by unfold chainSize at *; omega)) h

/-- All size fields of an accepted configuration. -/
theorem sizes_of_allocate (h : allocate p (requested phrases) = .accepted e)
    (hfit : SizesFit phrases) : e.sizes = roundedSizes (lineSize phrases) (pageSize phrases)
      (chainSize phrases) (askedCounts phrases).1 (askedCounts phrases).2 := by
  obtain ⟨e₁, hd, hsizes⟩ := allocate_recount h
  rw [deriveSizes_requested hfit.sums, Option.some.injEq] at hd
  subst hd
  have hcounts := counts_of_allocate h hfit
  have hchains : e.chainsPerThread = (askedCounts phrases).1 := congrArg Prod.fst hcounts
  have hthreads : e.numThreads = (askedCounts phrases).2 := congrArg Prod.snd hcounts
  rw [hsizes, hchains, hthreads]
  have hthread_pos : 0 ≤ (roundedChain phrases : Int) * (askedCounts phrases).1 :=
    Int.mul_nonneg (Int.natCast_nonneg _) (Int.le_of_lt hfit.chains_pos)
  have htest_pos : 0 ≤ (roundedChain phrases : Int) * (askedCounts phrases).1 *
      (askedCounts phrases).2 := Int.mul_nonneg hthread_pos (Int.le_of_lt hfit.threads_pos)
  have hthread : wrap64 ((roundedChain phrases : Int) * (askedCounts phrases).1) =
      roundedChain phrases * (askedCounts phrases).1 :=
    wrap64_of_inInt64 ⟨by omega, hfit.counts_lt.1⟩
  have htest : wrap64 ((roundedChain phrases : Int) * (askedCounts phrases).1 *
      (askedCounts phrases).2) = roundedChain phrases * (askedCounts phrases).1 *
        (askedCounts phrases).2 := wrap64_of_inInt64 ⟨by omega, hfit.product⟩
  unfold roundedChain at hthread htest
  simp only [Experiment.sizes, Experiment.withSizes, Sizes.recount, roundedSizes, hthread, htest]

theorem reported_of_sizes {chains threads : Int} (h : e.sizes = roundedSizes (lineSize phrases)
    (pageSize phrases) (chainSize phrases) chains threads) : e.bytesPerLine = lineSize phrases ∧
      e.bytesPerPage = (roundUp (lineSize phrases) (pageSize phrases) : Nat) ∧
      e.bytesPerChain = (roundedChain phrases : Nat) :=
  ⟨congrArg Sizes.bytesPerLine h, congrArg Sizes.bytesPerPage h, congrArg Sizes.bytesPerChain h⟩

theorem roundedUp_of_sizes (hfit : SizesFit phrases)
    (hcounts : (e.chainsPerThread, e.numThreads) = askedCounts phrases)
    (hsizes : e.sizes = roundedSizes (lineSize phrases) (pageSize phrases) (chainSize phrases)
      (askedCounts phrases).1 (askedCounts phrases).2) : e.RoundedUp phrases := by
  obtain ⟨hline, hpage, hchain⟩ := reported_of_sizes hsizes
  have hlines := congrArg Sizes.linesPerChain hsizes
  have hlinks := congrArg Sizes.linksPerChain hsizes
  have hpages := congrArg Sizes.pagesPerChain hsizes
  have hlinksPage := congrArg Sizes.linksPerPage hsizes
  have htest := congrArg Sizes.bytesPerTest hsizes
  simp only [Experiment.sizes, roundedSizes] at hlines hlinks hpages hlinksPage htest
  refine ⟨hline, ?_, ?_, ?_, ?_, hcounts, ?_⟩
  · rw [hline, hpage]
    exact roundUp_least_int hfit.sums.line_pos _
  · rw [hpage, hchain]
    exact roundUp_least_int hfit.sums.rounded_pos.1 _
  · rw [hlines, hline, hchain, ← Nat.cast_mul, Nat.cast_inj, Nat.mul_comm _ (lineSize phrases),
      ← Nat.mul_assoc]
    rfl
  · rw [hlinks, hpages, hlinksPage, ← Nat.cast_mul, Nat.cast_inj]
    ring
  · have hchains : e.chainsPerThread = (askedCounts phrases).1 := congrArg Prod.fst hcounts
    have hthreads : e.numThreads = (askedCounts phrases).2 := congrArg Prod.snd hcounts
    rw [htest, hchain, hchains, hthreads]
    rfl

theorem roundedSizes_again {line page chain : Nat} (h : SumsFit line page chain)
    (chains threads : Int) : roundedSizes line (roundUp line page)
      (roundUp (roundUp line page) chain) chains threads =
        roundedSizes line page chain chains threads := by
  have hpage := h.rounded_pos.1
  simp only [roundedSizes, roundUp_roundUp h.line_pos, roundUp_ceilDiv h.line_pos,
    roundUp_roundUp hpage, roundUp_ceilDiv hpage]

end Fit

section Again

theorem parseNumber_printInt {n : Nat} (h : n < 9223372036854775808) :
    parseNumber (printInt n) = n := by
  have hsign : ¬ (n : Int) < 0 := by omega
  rw [printInt, if_neg hsign, Int.natAbs_natCast]
  exact parseNumber_toDigits n h

def printedPhrase (p : Platform) (o : NumberOption) (word : CStr)
    (hword : optionOf word = some (.number o)) (n : Nat) (hpos : 0 < n)
    (hlt : n < 9223372036854775808) : Phrase p :=
  ⟨[word, printInt n], .number o (parseNumber (printInt n)), .number hword fun _ => by
    rw [parseNumber_printInt hlt]
    omega⟩

def Experiment.asking (e : Experiment) (line page chain : Nat) : Experiment :=
  { e with bytesPerLine := line, bytesPerPage := page, bytesPerChain := chain }

theorem SumsFit.lt {line page chain : Nat} (h : SumsFit line page chain) :
    line < 9223372036854775808 ∧ page < 9223372036854775808 ∧ chain < 9223372036854775808 := by
  have hsum := h.page_sum
  have hsum' := h.chain_sum
  have hline := h.line_pos
  have hpage := h.page_pos
  have hround := h.rounded_pos.1
  exact ⟨by omega, by omega, by omega⟩

def sizePhrases (p : Platform) {line page chain : Nat} (h : SumsFit line page chain) :
    List (Phrase p) :=
  [printedPhrase p .line "-l".toList (by decide) line h.line_pos h.lt.1,
    printedPhrase p .page "-p".toList (by decide) page h.page_pos h.lt.2.1,
    printedPhrase p .chain "-c".toList (by decide) chain h.chain_pos h.lt.2.2]

variable {phrases : List (Phrase p)} {e : Experiment}

theorem requested_sizePhrases {line page chain : Nat} (h : SumsFit line page chain) :
    requested (phrases ++ sizePhrases p h) = (requested phrases).asking line page chain := by
  unfold Experiment.asking
  rw [← parseNumber_printInt h.lt.1, ← parseNumber_printInt h.lt.2.1,
    ← parseNumber_printInt h.lt.2.2]
  simp only [requested, List.foldl_append]
  rfl

/-- What is derived from the reported sizes is what was derived before. -/
theorem deriveSizes_again (hfit : SumsFit (lineSize phrases) (pageSize phrases) (chainSize phrases))
    (hagain : SumsFit (lineSize phrases) (roundUp (lineSize phrases) (pageSize phrases))
      (roundedChain phrases)) :
    deriveSizes (requested (phrases ++ sizePhrases p hagain)) = deriveSizes (requested phrases) := by
  have hasked := deriveSizes_rounded (e := (requested phrases).asking (lineSize phrases)
    (roundUp (lineSize phrases) (pageSize phrases)) (roundedChain phrases))
    (requested_pointerSize phrases) rfl rfl rfl hagain
  rw [requested_sizePhrases, hasked, deriveSizes_requested hfit]
  unfold roundedChain
  rw [roundedSizes_again hfit]
  rfl

/-- The reported sizes behind the options that led to them change nothing. -/
theorem parseArgs_reportedSizes (hfit : SizesFit phrases)
    (hagain : SumsFit e.bytesPerLine.toNat e.bytesPerPage.toNat e.bytesPerChain.toNat)
    (h : parseArgs p (commandWords phrases) = .accepted e) :
    parseArgs p (commandWords phrases ++ e.reportedSizes) = .accepted e := by
  rw [parseArgs_commandWords] at h
  obtain ⟨hline, hpage, hchain⟩ := reported_of_sizes (sizes_of_allocate h hfit)
  rw [hline, hpage, hchain, Int.toNat_natCast, Int.toNat_natCast, Int.toNat_natCast] at hagain
  have hwords : commandWords phrases ++ e.reportedSizes =
      commandWords (phrases ++ sizePhrases p hagain) := by
    simp only [commandWords, List.flatMap_append, Experiment.reportedSizes, hline, hpage, hchain]
    rfl
  rw [hwords, parseArgs_commandWords]
  unfold allocate at h ⊢
  rw [deriveSizes_again hfit.sums]
  exact h

/-- A command line that asks for the sizes that were reported. -/
structure AsksReported (phrases : List (Phrase p)) (e : Experiment) : Prop where
  line : (lineSize phrases : Int) = e.bytesPerLine
  page : (pageSize phrases : Int) = e.bytesPerPage
  chain : (chainSize phrases : Int) = e.bytesPerChain

theorem sizes_of_asksReported {phrases' : List (Phrase p)} {e' : Experiment}
    (hfit : SizesFit phrases) (h : allocate p (requested phrases) = .accepted e)
    (hfit' : SizesFit phrases') (h' : allocate p (requested phrases') = .accepted e')
    (hasks : AsksReported phrases' e) (hcounts : askedCounts phrases' = askedCounts phrases) :
    e'.sizes = e.sizes := by
  have hsizes := sizes_of_allocate h hfit
  have hline : lineSize phrases' = lineSize phrases :=
    Int.natCast_inj.mp (hasks.line.trans (congrArg Sizes.bytesPerLine hsizes))
  have hpage : pageSize phrases' = roundUp (lineSize phrases) (pageSize phrases) :=
    Int.natCast_inj.mp (hasks.page.trans (congrArg Sizes.bytesPerPage hsizes))
  have hchain : chainSize phrases' = roundUp (roundUp (lineSize phrases) (pageSize phrases))
      (chainSize phrases) :=
    Int.natCast_inj.mp (hasks.chain.trans (congrArg Sizes.bytesPerChain hsizes))
  rw [sizes_of_allocate h' hfit', hsizes, hline, hpage, hchain, hcounts,
    roundedSizes_again hfit.sums]

end Again

/-- The sizes of an accepted configuration are rounded exactly, and asking for the reported
ones, whose own sums have to fit as well, gives the same. -/
theorem sizes_rounded_up {args : List CStr} {e : Experiment}
    (h : parseArgs p args = .accepted e) :
    (∃ phrases : List (Phrase p), args = commandWords phrases) ∧
      ∀ phrases : List (Phrase p), args = commandWords phrases → SizesFit phrases →
        e.RoundedUp phrases ∧
        (SumsFit e.bytesPerLine.toNat e.bytesPerPage.toNat e.bytesPerChain.toNat →
          parseArgs p (args ++ e.reportedSizes) = .accepted e) ∧
        ∀ (phrases' : List (Phrase p)) (e' : Experiment), SizesFit phrases' →
          parseArgs p (commandWords phrases') = .accepted e' → AsksReported phrases' e →
          askedCounts phrases' = askedCounts phrases → e'.sizes = e.sizes := by
  refine ⟨exists_phrases h, ?_⟩
  intro phrases hargs hfit
  subst hargs
  have hallocate := h
  rw [parseArgs_commandWords] at hallocate
  refine ⟨?_, fun hagain => parseArgs_reportedSizes hfit hagain h, ?_⟩
  · exact roundedUp_of_sizes hfit (counts_of_allocate hallocate hfit)
      (sizes_of_allocate hallocate hfit)
  · intro phrases' e' hfit' h' hasks hcounts
    rw [parseArgs_commandWords] at h'
    exact sizes_of_asksReported hfit hallocate hfit' h' hasks hcounts

def oddSizes : List (Phrase Platform.single) :=
  [printedPhrase .single .line "-l".toList (by decide) 48 (by decide) (by decide),
    printedPhrase .single .page "-p".toList (by decide) 100 (by decide) (by decide),
    printedPhrase .single .chain "-c".toList (by decide) 1000 (by decide) (by decide),
    printedPhrase .single .threads "-t".toList (by decide) 3 (by decide) (by decide)]

theorem odd_sizes_rounded_up : ∃ e, parseArgs .single (commandWords oddSizes) = .accepted e ∧
    e.RoundedUp oddSizes ∧ e.bytesPerPage = 144 ∧ e.bytesPerChain = 1008 ∧
    parseArgs .single (commandWords oddSizes ++ e.reportedSizes) = .accepted e := by
  have hrun : ∃ e, parseArgs .single (commandWords oddSizes) = .accepted e ∧
      e.bytesPerLine = 48 ∧ e.bytesPerPage = 144 ∧ e.bytesPerChain = 1008 :=
    ⟨_, rfl, by decide +kernel, by decide +kernel, by decide +kernel⟩
  obtain ⟨e, he, hline, hpage, hchain⟩ := hrun
  have hfit : SizesFit oddSizes :=
    ⟨⟨by decide +kernel, by decide +kernel, by decide +kernel, by decide +kernel,
      by decide +kernel⟩, by decide +kernel, by decide +kernel, by decide +kernel⟩
  obtain ⟨hrounded, hagain, _⟩ := (sizes_rounded_up he).2 oddSizes rfl hfit
  refine ⟨e, he, hrounded, hpage, hchain, hagain ?_⟩
  rw [hline, hpage, hchain]
  exact ⟨by decide, by decide, by decide, by decide +kernel, by decide +kernel⟩

def ParseResult.passes (test : Experiment → Bool) : ParseResult → Bool
  | .accepted e => test e
  | _ => false

theorem ParseResult.exists_of_passes {test : Experiment → Bool} {r : ParseResult}
    (h : r.passes test = true) : ∃ e, r = .accepted e ∧ test e = true := by
  cases r with
  | accepted e => exact ⟨e, rfl, h⟩
  | _ => cases h

def hugeSizes : List (Phrase Platform.single) :=
  [printedPhrase .single .page "-p".toList (by decide) 3458764513820540928 (by decide) (by decide),
    printedPhrase .single .chain "-c".toList (by decide) 5764607523034234780 (by decide) (by decide)]

/-- The sums of these sizes fit, but not those of the sizes that are reported: to ask for them
gives a negative chain. -/
theorem huge_sizes_not_again : SizesFit hugeSizes ∧
    lineSize hugeSizes + pageSize hugeSizes + chainSize hugeSizes < 9223372036854775808 ∧
    ∃ e e', parseArgs .single (commandWords hugeSizes) = .accepted e ∧
      parseArgs .single (commandWords hugeSizes ++ e.reportedSizes) = .accepted e' ∧
      e.bytesPerChain = 6917529027641081856 ∧ e'.bytesPerChain = -6917529027641081856 := by
  have hfit : SizesFit hugeSizes :=
    ⟨⟨by decide +kernel, by decide +kernel, by decide +kernel, by decide +kernel,
      by decide +kernel⟩, by decide +kernel, by decide +kernel, by decide +kernel⟩
  have hrun : (parseArgs .single (commandWords hugeSizes)).passes (fun e =>
      e.bytesPerChain = 6917529027641081856 && (parseArgs .single
        (commandWords hugeSizes ++ e.reportedSizes)).passes fun e' =>
          e'.bytesPerChain = -6917529027641081856) = true := by
    decide +kernel
  obtain ⟨e, he, htest⟩ := ParseResult.exists_of_passes hrun
  rw [Bool.and_eq_true, decide_eq_true_eq] at htest
  obtain ⟨e', he', hchain'⟩ := ParseResult.exists_of_passes htest.2
  exact ⟨hfit, by decide +kernel, e, e', he, he', htest.1, of_decide_eq_true hchain'⟩

end PChase
