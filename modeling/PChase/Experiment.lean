import Mathlib.Data.Rat.Defs
import PChase.CInt

/-!
# The experiment record

The configuration of a run: what the command line sets, what `parse_args` derives from
it, and the two routines that read numbers. Sizes are kept in bytes and in links, a link
being one `Chain` object of a pointer and a data word.
-/

namespace PChase

open CInt
set_option autoImplicit false

/-- A C string without its terminating zero. -/
abbrev CStr := List Char

inductive PrefetchHint where
  | none
  | t0
  | t1
  | t2
  | nta
  deriving Repr, DecidableEq

inductive MemOperation where
  | na
  | load
  | store
  | loadAll
  | storeAll
  deriving Repr, DecidableEq

inductive OutputMode where
  | csv
  | both
  | header
  | table
  deriving Repr, DecidableEq

inductive AccessPattern where
  | random
  | strided
  deriving Repr, DecidableEq

inductive NumaPlacement where
  | numaLocal
  | numaXor
  | numaAdd
  | numaMap
  deriving Repr, DecidableEq

/-- `sizeof(Chain)`: a pointer and a `uint64_t`. -/
def defaultPointerSize : Int := 16
def defaultBytesPerLine : Int := 64
def defaultLinksPerLine : Int := defaultBytesPerLine / defaultPointerSize
def defaultBytesPerPage : Int := 4096
def defaultLinesPerPage : Int := defaultBytesPerPage / defaultBytesPerLine
def defaultLinksPerPage : Int := defaultLinesPerPage * defaultLinksPerLine
def defaultPagesPerChain : Int := 4096
def defaultBytesPerChain : Int := defaultBytesPerPage * defaultPagesPerChain
def defaultLinesPerChain : Int := defaultLinesPerPage * defaultPagesPerChain
def defaultLinksPerChain : Int := defaultLinesPerChain * defaultBytesPerLine / defaultPointerSize
def defaultChainsPerThread : Int := 1
def defaultBytesPerThread : Int := defaultBytesPerChain * defaultChainsPerThread
def defaultThreads : Int := 1
def defaultBytesPerTest : Int := defaultBytesPerThread * defaultThreads
def defaultLooplength : Int := 0
def defaultSeconds : ℚ := 1
def defaultIterations : Int := 0
def defaultExperiments : Int := 1

/-- A domain entry is `none` when it was computed from an array element nobody wrote.
`randomState` holds, for each thread, the seed its generator buffer was initialised with. -/
structure Experiment where
  pointerSize : Int := defaultPointerSize
  bytesPerLine : Int := defaultBytesPerLine
  linksPerLine : Int := defaultLinksPerLine
  bytesPerPage : Int := defaultBytesPerPage
  linesPerPage : Int := defaultLinesPerPage
  linksPerPage : Int := defaultLinksPerPage
  bytesPerChain : Int := defaultBytesPerChain
  linesPerChain : Int := defaultLinesPerChain
  linksPerChain : Int := defaultLinksPerChain
  pagesPerChain : Int := defaultPagesPerChain
  bytesPerThread : Int := defaultBytesPerThread
  chainsPerThread : Int := defaultChainsPerThread
  numThreads : Int := defaultThreads
  bytesPerTest : Int := defaultBytesPerTest
  loopLength : Int := defaultLooplength
  seconds : ℚ := defaultSeconds
  iterations : Int := defaultIterations
  experiments : Int := defaultExperiments
  prefetchHint : PrefetchHint := .none
  memOperation : MemOperation := .na
  outputMode : OutputMode := .table
  accessPattern : AccessPattern := .random
  stride : Int := 1
  numaPlacement : NumaPlacement := .numaLocal
  offsetOrMask : Int := 0
  placementMap : Option CStr := none
  threadDomain : List (Option Int) := []
  chainDomain : List (List (Option Int)) := []
  numaMaxDomain : Int := 0
  numNumaDomains : Int := 1
  randomState : List Int := []
  strict : Bool := false
  deriving Repr, DecidableEq

/-- What `parse_args` finds on the machine: the highest NUMA node, and the rounding of
single-precision arithmetic, about which nothing is assumed. -/
structure Platform where
  numaMaxNode : Int
  round : ℚ → ℚ
  numaMaxNode_nonneg : 0 ≤ numaMaxNode
  numaMaxNode_lt : numaMaxNode + 1 < 2147483648

/-- One NUMA node and exact arithmetic. -/
def Platform.single : Platform := ⟨0, id, by decide, by decide⟩

def isDigit (c : Char) : Bool := decide ('0' ≤ c ∧ c ≤ '9')

def digitValue (c : Char) : Int := (c.toNat : Int) - 48

/-- The loop of `parse_number`: digits accumulate, a suffix shifts and ends the number,
any other character ends it. -/
def parseDigits : Int → CStr → Int
  | result, [] => result
  | result, c :: s =>
    if isDigit c then parseDigits (wrap64 (result * 10 + digitValue c)) s
    else if c = 'k' ∨ c = 'K' then wrap64 (result * 1024)
    else if c = 'm' ∨ c = 'M' then wrap64 (result * 1048576)
    else if c = 'g' ∨ c = 'G' then wrap64 (result * 1073741824)
    else if c = 't' ∨ c = 'T' then wrap64 (result * 1099511627776)
    else result

def parseNumber (s : CStr) : Int := parseDigits 0 s

/-- The loop of `parse_real`, every operation rounded. -/
def parseRealFrom (round : ℚ → ℚ) : ℚ → Bool → ℚ → CStr → ℚ
  | result, _, _, [] => result
  | result, decimal, power, c :: s =>
    if isDigit c then
      if decimal then
        let power := round (power / 10)
        parseRealFrom round (round (result + round (digitValue c * power))) decimal power s
      else
        parseRealFrom round (round (round (round (result * 10) + c.toNat) - 48)) decimal power s
    else if c = '.' then parseRealFrom round result true power s
    else result

def parseReal (round : ℚ → ℚ) (s : CStr) : ℚ := parseRealFrom round 0 false 1 s

/-- Lines 484 to 493 of `parse_args`: the sizes derived from the requested line, page and
chain sizes, in the order of the source. A quotient without value stops the program. -/
def deriveSizes (e : Experiment) : Option Experiment := do
  let linesPerPage ← div64 (wrap64 (e.bytesPerPage + e.bytesPerLine - 1)) e.bytesPerLine
  let bytesPerPage := wrap64 (e.bytesPerLine * linesPerPage)
  let pagesPerChain ← div64 (wrap64 (e.bytesPerChain + bytesPerPage - 1)) bytesPerPage
  let bytesPerChain := wrap64 (bytesPerPage * pagesPerChain)
  let bytesPerThread := wrap64 (bytesPerChain * e.chainsPerThread)
  let bytesPerTest := wrap64 (bytesPerThread * e.numThreads)
  let linksPerLine ← div64 e.bytesPerLine e.pointerSize
  let linksPerPage := wrap64 (linesPerPage * linksPerLine)
  let linesPerChain := wrap64 (linesPerPage * pagesPerChain)
  let linksPerChain := wrap64 (linesPerChain * linksPerLine)
  return { e with
    linesPerPage, bytesPerPage, pagesPerChain, bytesPerChain, bytesPerThread, bytesPerTest,
    linksPerLine, linksPerPage, linesPerChain, linksPerChain }

/-- `access()`, the name the report prints for the access pattern. -/
def Experiment.access (e : Experiment) : Option String :=
  if e.accessPattern = .random then some "random"
  else if e.accessPattern = .strided ∧ 0 < e.stride then some "forward"
  else if e.accessPattern = .strided ∧ e.stride < 0 then some "reverse"
  else none

/-- `placement()`, the name the report prints for the NUMA placement. -/
def Experiment.placement (e : Experiment) : Option String :=
  if e.numaPlacement = .numaLocal then some "local"
  else if e.numaPlacement = .numaXor then some "xor"
  else if e.numaPlacement = .numaAdd then some "add"
  else if e.numaPlacement = .numaMap then some "map"
  else none

theorem parseDigits_inInt64 (s : CStr) (result : Int) (h : InInt64 result) :
    InInt64 (parseDigits result s) := by
  induction s generalizing result with
  | nil => exact h
  | cons c s ih =>
    simp only [parseDigits]
    split
    · exact ih _ (wrap64_inInt64 _)
    · repeat' split
      all_goals first | exact wrap64_inInt64 _ | exact h

theorem parseNumber_inInt64 (s : CStr) : InInt64 (parseNumber s) :=
  parseDigits_inInt64 s 0 (by unfold InInt64; omega)

/-- The sizes that `deriveSizes` relates, as equations between fields. -/
structure Experiment.SizesDerived (e : Experiment) : Prop where
  bytesPerLine_ne : e.bytesPerLine ≠ 0
  bytesPerLine_range : InInt64 e.bytesPerLine
  bytesPerPage_eq : e.bytesPerPage = e.bytesPerLine * e.linesPerPage
  bytesPerPage_range : InInt64 e.bytesPerPage
  bytesPerChain_eq : e.bytesPerChain = e.bytesPerPage * e.pagesPerChain
  bytesPerChain_range : InInt64 e.bytesPerChain
  linksPerLine_eq : e.linksPerLine = e.bytesPerLine.tdiv 16
  linksPerPage_eq : e.linksPerPage = wrap64 (e.linesPerPage * e.linksPerLine)
  linesPerChain_eq : e.linesPerChain = wrap64 (e.linesPerPage * e.pagesPerChain)
  linksPerChain_eq : e.linksPerChain = wrap64 (e.linesPerChain * e.linksPerLine)

theorem deriveSizes_derived {e e' : Experiment} (hp : e.pointerSize = 16)
    (hl : InInt64 e.bytesPerLine) (h : deriveSizes e = some e') : e'.SizesDerived := by
  simp only [deriveSizes, Option.bind_eq_bind, Option.bind_eq_some_iff, Option.pure_def,
    Option.some.injEq, div64_eq_some_iff, hp] at h
  obtain ⟨L, ⟨hne, _, rfl⟩, P, ⟨_, _, rfl⟩, K, ⟨_, _, rfl⟩, rfl⟩ := h
  have hround : ∀ x n : Int, InInt64 x → InInt64 (n * x.tdiv n) := by
    intro x n hx
    have hb := mul_tdiv_between x n
    unfold InInt64 at *
    rcases Int.le_total 0 x with h0 | h0
    · have := hb.1 h0
      omega
    · have := hb.2 h0
      omega
  have hpage := hround _ e.bytesPerLine (wrap64_inInt64 (e.bytesPerPage + e.bytesPerLine - 1))
  have hpage' := wrap64_of_inInt64 hpage
  have hchain := hround _ (wrap64 (e.bytesPerLine * (wrap64 (e.bytesPerPage +
    e.bytesPerLine - 1)).tdiv e.bytesPerLine)) (wrap64_inInt64 (e.bytesPerChain + wrap64
    (e.bytesPerLine * (wrap64 (e.bytesPerPage + e.bytesPerLine - 1)).tdiv e.bytesPerLine) - 1))
  exact ⟨hne, hl, hpage', wrap64_inInt64 _, wrap64_of_inInt64 hchain, wrap64_inInt64 _,
    rfl, rfl, rfl, rfl⟩

end PChase
