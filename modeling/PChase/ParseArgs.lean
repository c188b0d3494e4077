import PChase.DomainMap

/-!
# The command line

`Experiment::parse_args`: the option loop, the derived sizes and the allocation of the
domain tables. An option reads its arguments from the words behind it and says how many
it used; the loop skips those, as the increments of `i` do.
-/

namespace PChase

open CInt CountLoop
set_option autoImplicit false

/-- `strcasecmp(a, b) == 0` -/
def strcasecmp (a : CStr) (b : String) : Bool :=
  a.map Char.toLower == b.toList.map Char.toLower

/-- An option: the fields it changes and the words it takes, or `errorString`. -/
abbrev Handler := Experiment → List CStr → Except CStr (Experiment × Nat)

/-- What `snprintf` leaves of a message with a word in it, `errorStringSize` being 100. -/
def wordError (message : String) (word : CStr) : CStr :=
  (message.toList ++ " -- '".toList ++ word ++ ['\'']).take 99

def withWord {α : Type} (missing : String) (rest : List CStr) (k : CStr → Except CStr α) :
    Except CStr α :=
  match rest with
  | [] => .error missing.toList
  | word :: _ => k word

/-- An option with a number: the field is set, then `bad` is tested. -/
def numberOption (missing invalid : String) (set : Experiment → Int → Experiment)
    (bad : Experiment → Bool) : Handler := fun e rest =>
  withWord missing rest fun word =>
    let e := set e (parseNumber word)
    if bad e then .error invalid.toList else .ok (e, 1)

def keywordOption {β : Type} (missing invalid : String) (table : List (String × β))
    (set : Experiment → β → Experiment) : Handler := fun e rest =>
  withWord missing rest fun word =>
    match table.find? fun entry => strcasecmp word entry.1 with
    | some entry => .ok (set e entry.2, 1)
    | none => .error (wordError invalid word)

def strictOption : Handler := fun e _ => .ok ({ e with strict := true }, 0)

def secondsOption (p : Platform) : Handler := fun e rest =>
  withWord "amount of seconds missing" rest fun word =>
    let e := { e with seconds := parseReal p.round word, iterations := 0 }
    if e.seconds = 0 then .error "invalid amount of seconds".toList else .ok (e, 1)

def lineOption : Handler := numberOption "cache line size missing" "invalid cache line size"
  (fun e n => { e with bytesPerLine := n }) fun e => e.bytesPerLine == 0

def pageOption : Handler := numberOption "page size missing" "invalid page size"
  (fun e n => { e with bytesPerPage := n }) fun e => e.bytesPerPage == 0

def chainOption : Handler := numberOption "chain size missing" "invalid chain size"
  (fun e n => { e with bytesPerChain := n }) fun e => e.bytesPerChain == 0

def referencesOption : Handler :=
  numberOption "amount of chains per thread missing" "invalid amount of chains per thread"
    (fun e n => { e with chainsPerThread := n }) fun e => e.chainsPerThread == 0

def threadsOption : Handler := numberOption "amount of threads missing" "invalid amount of threads"
  (fun e n => { e with numThreads := n }) fun e => e.numThreads == 0

def iterationsOption : Handler :=
  numberOption "amount of iterations missing" "invalid amount of iterations"
    (fun e n => { e with iterations := n, seconds := 0 }) fun e => e.iterations == 0

def experimentsOption : Handler :=
  numberOption "amount of experiments missing" "invalid amount of experiments"
    (fun e n => { e with experiments := n }) fun e => e.experiments == 0

/-- The loop length is set, but it is the number of experiments that is tested. -/
def loopOption : Handler := numberOption "loop length missing" "invalid loop length"
  (fun e n => { e with loopLength := n }) fun e => e.experiments == 0

def prefetchOption : Handler :=
  keywordOption "type of prefetch hint missing" "invalid type of prefetch hint"
    [("none", .none), ("nta", .nta), ("t0", .t0), ("t1", .t1), ("t2", .t2)]
    fun e hint => { e with prefetchHint := hint }

def operationOption : Handler :=
  keywordOption "type of operartion missing" "invalid type of operartion"
    [("none", .na), ("load", .load), ("store", .store), ("load_all", .loadAll),
      ("store_all", .storeAll)]
    fun e operation => { e with memOperation := operation }

def outputOption : Handler := keywordOption "output format missing" "invalid output format"
  [("table", .table), ("csv", .csv), ("both", .both), ("hdr", .header), ("header", .header)]
  fun e mode => { e with outputMode := mode }

/-- The two strided patterns; `signed` negates the stride of `reverse`. -/
def strideArgument (missing invalid : String) (signed : Int → Int) : Handler := fun e rest =>
  withWord missing rest fun word =>
    let e := { e with accessPattern := .strided, stride := signed (parseNumber word) }
    if e.stride = 0 then .error invalid.toList else .ok (e, 2)

def accessOption : Handler := fun e rest =>
  withWord "type of memory access pattern missing" rest fun word =>
    if strcasecmp word "random" then .ok ({ e with accessPattern := .random }, 1)
    else if strcasecmp word "forward" then
      strideArgument "stride of forward memory access pattern missing"
        "invalid stride of forward memory access pattern" (fun n => n) e rest.tail
    else if strcasecmp word "reverse" then
      strideArgument "stride of reverse memory access pattern missing"
        "invalid stride of reverse memory access pattern" (fun n => wrap64 (-n)) e rest.tail
    else .error (wordError "invalid type of memory access pattern" word)

def numaOption : Handler := fun e rest =>
  withWord "numa placement missing" rest fun word =>
    if strcasecmp word "local" then .ok ({ e with numaPlacement := .numaLocal }, 1)
    else if strcasecmp word "xor" then
      withWord "numa placement local map missing" rest.tail fun mask =>
        .ok ({ e with numaPlacement := .numaXor, offsetOrMask := parseNumber mask }, 2)
    else if strcasecmp word "add" then
      withWord "numa placement addition offset missing" rest.tail fun offset =>
        .ok ({ e with numaPlacement := .numaAdd, offsetOrMask := parseNumber offset }, 2)
    else if strcasecmp word "map" then
      withWord "numa placement map specification missing" rest.tail fun map =>
        .ok ({ e with numaPlacement := .numaMap, placementMap := some map }, 2)
    else .error (wordError "invalid numa placement" word)

/-- The options in the order of the `else if` chain, each under its two names. -/
def optionTable (p : Platform) : List (String × String × Handler) :=
  [("-x", "--strict", strictOption), ("-s", "--seconds", secondsOption p),
    ("-l", "--line", lineOption), ("-p", "--page", pageOption), ("-c", "--chain", chainOption),
    ("-r", "--references", referencesOption), ("-t", "--threads", threadsOption),
    ("-i", "--iterations", iterationsOption), ("-e", "--experiments", experimentsOption),
    ("-g", "--loop", loopOption), ("-f", "--prefetch", prefetchOption),
    ("-m", "--operartion", operationOption), ("-a", "--access", accessOption),
    ("-o", "--output", outputOption), ("-n", "--numa", numaOption)]

def handleOption (p : Platform) (word : CStr) : Handler := fun e rest =>
  match (optionTable p).find? fun entry =>
      strcasecmp word entry.1 || strcasecmp word entry.2.1 with
  | some entry => entry.2.2 e rest
  | none => .error (wordError "invalid option" word)

/-- The option loop over `argv[1]`, `argv[2]`, ...; the first number is how many words
the last option still takes, the flag is `usage`. -/
def parseLoop (p : Platform) :
    Nat → Experiment → Bool → List CStr → Except CStr (Experiment × Bool)
  | _, e, usage, [] => .ok (e, usage)
  | skip + 1, e, usage, _ :: rest => parseLoop p skip e usage rest
  | 0, e, usage, word :: rest =>
    if strcasecmp word "-h" || strcasecmp word "--help" then parseLoop p 0 e true rest
    else do
      let (e, used) ← handleOption p word e rest
      parseLoop p used e usage rest

inductive ParseResult where
  /-- it returns 0 -/
  | accepted (e : Experiment)
  /-- it prints the message and returns 1 -/
  | rejected (message : CStr)
  /-- it prints the usage and returns 1 -/
  | usage
  /-- `alloc_map` calls `exit(1)` -/
  | malformedMap
  /-- it does not return: a quotient without value, an array of negative length, a write
  past an array or a loop without end -/
  | noReturn

/-- `new T[n]` throws for a negative length. -/
def newArray (n : Int) : Option Unit := if 0 ≤ n then some () else none

/-- `initstate` for each thread, with its number as the seed. -/
def Experiment.setRandomState (e : Experiment) (seeds : List Int) : Experiment :=
  { e with randomState := seeds }

def Experiment.setNuma (e : Experiment) (p : Platform) : Experiment :=
  { e with numaMaxDomain := p.numaMaxNode, numNumaDomains := p.numaMaxNode + 1 }

/-- The second `switch` on a computed placement. -/
def allocPlaced (e : Experiment) : Option Experiment :=
  match e.numaPlacement with
  | .numaXor => allocXor e
  | .numaAdd => allocAdd e
  | _ => allocLocal e

/-- Lines 499 to 537: the tables of the three computed placements, allocated and filled. -/
def allocComputed (e : Experiment) : Option Experiment := do
  newArray e.numThreads
  let threads ← countUp e.numThreads
  if threads ≠ [] then newArray e.chainsPerThread
  allocPlaced (e.setRandomState threads)

/-- What `parse_args` does after its option loop. -/
def allocate (p : Platform) (e : Experiment) : ParseResult :=
  match deriveSizes e with
  | none => .noReturn
  | some e =>
    match e.numaPlacement with
    | .numaMap =>
      match allocMap (e.setNuma p) (e.placementMap.getD []) with
      | .ok e => .accepted e
      | .error .malformed => .malformedMap
      | .error _ => .noReturn
    | _ =>
      match allocComputed (e.setNuma p) with
      | some e => .accepted e
      | none => .noReturn

/-- `parse_args` on a fresh `Experiment`; `args` are the words behind the program's name. -/
def parseArgs (p : Platform) (args : List CStr) : ParseResult :=
  match parseLoop p 0 {} false args with
  | .error message => .rejected message
  | .ok (_, true) => .usage
  | .ok (e, false) => allocate p e

end PChase
