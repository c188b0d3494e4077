import Mathlib.Data.NNRat.Defs
import PChase.DomainMap
import PChase.LineAccesses

/-!
# The report

`Output::print` and the three reports it chooses from. A text is the list of what the
`printf` calls of the source print; a conversion `%s` of a null pointer has no value.
-/

namespace PChase

open CInt
set_option autoImplicit false

inductive Double where
  | finite (negative : Bool) (magnitude : ℚ≥0)
  | infinite (negative : Bool)
  | nan (negative : Bool)
  deriving DecidableEq

/-- The floating operations of the report, on `double` and on `long double`. Nothing is
assumed about them. -/
structure Arithmetic where
  mul : Double → Double → Double
  div : Double → Double → Double
  ofInt : Int → Double
  literal : ℚ → Double
  addLong : Double → Double → Double
  divLong : Double → Double → Double
  ofSize : Nat → Double
  toDouble : Double → Double

def roundHalfEven (x : ℚ≥0) : Nat :=
  let whole := x.num / x.den
  let rest := 2 * (x.num % x.den)
  if rest < x.den ∨ rest = x.den ∧ whole % 2 = 0 then whole else whole + 1

def printPlaces (places n : Nat) : CStr :=
  if places = 0 then Nat.toDigits 10 n
  else
    let fraction := Nat.toDigits 10 (n % 10 ^ places)
    Nat.toDigits 10 (n / 10 ^ places) ++
      '.' :: (List.replicate (places - fraction.length) '0' ++ fraction)

/-- `%.nf` -/
def printDouble (places : Nat) (x : Double) : CStr :=
  let sign (negative : Bool) : CStr := if negative then ['-'] else []
  match x with
  | .finite negative magnitude =>
    sign negative ++ printPlaces places (roundHalfEven (magnitude * 10 ^ places))
  | .infinite negative => sign negative ++ "inf".toList
  | .nan negative => sign negative ++ "nan".toList

def prefetchHintString : PrefetchHint → String
  | .t0 => "t0"
  | .t1 => "t1"
  | .t2 => "t2"
  | .nta => "nta"
  | .none => "none"

def operationString : MemOperation → String
  | .load => "load"
  | .store => "store"
  | .loadAll => "load_all"
  | .storeAll => "store_all"
  | .na => "none"

/-- `*` on `int64` operands. -/
def mul64 (x y : Int) : Int := wrap64 (x * y)

namespace Output

/-- `secs/ck_res` -/
def ticks (a : Arithmetic) (secs ckRes : Double) : Double := a.div secs ckRes

def resolution (a : Arithmetic) (ckRes : Double) : Double := a.mul ckRes (a.literal 1000000000)

def latency (a : Arithmetic) (e : Experiment) (ops : Int) (secs : Double) : Double :=
  a.mul (a.div secs (a.ofInt (mul64 ops e.iterations))) (a.literal 1000000000)

def bandwidth (a : Arithmetic) (e : Experiment) (ops : Int) (secs : Double) : Double :=
  let bytes := [e.iterations, e.chainsPerThread, e.numThreads, e.bytesPerLine,
    (lineNum e : Int)].foldl mul64 ops
  a.mul (a.div (a.ofInt bytes) secs) (a.literal (1 / 1000000))

def totalOps (e : Experiment) (ops : Int) : Int :=
  mul64 (mul64 ops e.chainsPerThread) e.numThreads

def header : CStr :=
  ["pointer size (bytes),",
    "cache line size (bytes),",
    "page size (bytes),",
    "chain size (bytes),",
    "thread size (bytes),",
    "test size (bytes),",
    "chains per thread,",
    "number of threads,",
    "iterations,",
    "loop length,",
    "prefetch hint,",
    "memory operation,",
    "experiments,",
    "access pattern,",
    "stride,",
    "numa placement,",
    "offset or mask,",
    "numa domains,",
    "domain map,",
    "operations per chain,",
    "total operations,",
    "elapsed time (seconds),",
    "elapsed time (timer ticks),",
    "clock resolution (ns),",
    "memory latency (ns),",
    "memory bandwidth (MB/s)\n"].flatMap String.toList

def csv (a : Arithmetic) (e : Experiment) (ops : Int) (secs ckRes : Double) : Option CStr := do
  let access ← e.access
  let placement ← e.placement
  let map ← e.domainMap
  return List.flatten
    [printInt e.pointerSize ++ [','],
      printInt e.bytesPerLine ++ [','],
      printInt e.bytesPerPage ++ [','],
      printInt e.bytesPerChain ++ [','],
      printInt e.bytesPerThread ++ [','],
      printInt e.bytesPerTest ++ [','],
      printInt e.chainsPerThread ++ [','],
      printInt e.numThreads ++ [','],
      printInt e.iterations ++ [','],
      printInt e.loopLength ++ [','],
      (prefetchHintString e.prefetchHint).toList ++ [','],
      (operationString e.memOperation).toList ++ [','],
      printInt e.experiments ++ [','],
      access.toList ++ [','],
      printInt e.stride ++ [','],
      placement.toList ++ [','],
      printInt e.offsetOrMask ++ [','],
      printInt e.numNumaDomains ++ [','],
      ['"'],
      map,
      ['"', ','],
      printInt ops ++ [','],
      printInt (totalOps e ops) ++ [','],
      printDouble 3 secs ++ [','],
      printDouble 0 (ticks a secs ckRes) ++ [','],
      printDouble 2 (resolution a ckRes) ++ [','],
      printDouble 2 (latency a e ops secs) ++ [','],
      printDouble 3 (bandwidth a e ops secs) ++ ['\n']]

def line (label : String) (value : CStr) (unit : String) : CStr :=
  label.toList ++ value ++ unit.toList ++ ['\n']

def table (a : Arithmetic) (e : Experiment) (ops : Int) (secs ckRes : Double) : Option CStr := do
  let access ← e.access
  let placement ← e.placement
  let map ← e.domainMap
  return List.flatten
    [line "pointer size         = " (printInt e.pointerSize) " (bytes)",
      line "cache line size      = " (printInt e.bytesPerLine) " (bytes)",
      line "page size            = " (printInt e.bytesPerPage) " (bytes)",
      line "chain size           = " (printInt e.bytesPerChain) " (bytes)",
      line "thread size          = " (printInt e.bytesPerThread) " (bytes)",
      line "test size            = " (printInt e.bytesPerTest) " (bytes)",
      line "chains per thread    = " (printInt e.chainsPerThread) "",
      line "number of threads    = " (printInt e.numThreads) "",
      line "iterations           = " (printInt e.iterations) "",
      line "loop length          = " (printInt e.loopLength) "",
      line "prefetch hint        = " (prefetchHintString e.prefetchHint).toList "",
      line "memory operation     = " (operationString e.memOperation).toList "",
      line "experiments          = " (printInt e.experiments) "",
      line "access pattern       = " access.toList "",
      line "stride               = " (printInt e.stride) "",
      line "numa placement       = " placement.toList "",
      line "offset or mask       = " (printInt e.offsetOrMask) "",
      line "numa domains         = " (printInt e.numNumaDomains) "",
      line "domain map           = " ('"' :: (map ++ ['"'])) "",
      line "operations per chain = " (printInt ops) "",
      line "total operations     = " (printInt (totalOps e ops)) "",
      line "elapsed time         = " (printDouble 3 secs) " (seconds)",
      line "elapsed time         = " (printDouble 0 (ticks a secs ckRes)) " (timer ticks)",
      line "clock resolution     = " (printDouble 2 (resolution a ckRes)) " (ns)",
      line "memory latency       = " (printDouble 2 (latency a e ops secs)) " (ns)",
      line "memory bandwidth     = " (printDouble 3 (bandwidth a e ops secs)) " (MB/s)"]

/-- The average of the durations, summed up and divided in `long double`. -/
def average (a : Arithmetic) (seconds : List Double) : Double :=
  a.toDouble (a.divLong (seconds.foldl a.addLong (.finite false 0)) (a.ofSize seconds.length))

def print (a : Arithmetic) (e : Experiment) (ops : Int) (seconds : List Double)
    (ckRes : Double) : Option CStr :=
  match e.outputMode with
  | .header => some header
  | .csv => (seconds.mapM fun secs => csv a e ops secs ckRes).map List.flatten
  | .both => (seconds.mapM fun secs => csv a e ops secs ckRes).map fun rows => header ++ rows.flatten
  | .table => table a e ops (average a seconds) ckRes

end Output

end PChase
