import PChase.CommandLine
import PChase.ConvertedReport
import PChase.LaterOptions
import PChase.MapRoundTrip

/-!
# The script that measures memory

`scripts/test-memory.sh` runs the program for every memory operation, access pattern and
number of threads, and collects the reports. Every run is accepted, so the file has the
rows of all of them.
-/

namespace PChase

open CInt Csv
set_option autoImplicit false

section Script

/-- The values of `mem_op`. -/
def memOps : List CStr := ["none", "load", "store", "load_all", "store_all"].map String.toList

/-- The words that the values of `access` are split into. -/
def accesses : List (List CStr) :=
  ["random".toList] :: ["forward", "reverse"].flatMap fun way =>
    ["1", "2", "4", "8", "16"].map fun stride => [way.toList, stride.toList]

/-- What `seq` prints of a number. -/
def decimal (n : Nat) : CStr := Nat.toDigits 10 n

/-- `t_map` after the loop over `seq 1 $thread`. -/
def threadMap (memBind thread : Nat) : CStr :=
  (List.range' 1 thread).foldl (fun tMap i =>
    if i = 1 then "0:".toList ++ decimal memBind else tMap ++ ";0:".toList ++ decimal memBind) []

def command (memOp : CStr) (access : List CStr) (thread memBind : Nat) : List CStr :=
  ["-c".toList, "32m".toList, "-p".toList, "32m".toList, "-m".toList, memOp, "-a".toList] ++
    access ++ ["-s".toList, "3.0".toList, "-t".toList, decimal thread, "-n".toList, "map".toList,
      threadMap memBind thread, "-o".toList, "csv".toList]

def commands (threadNum memBind : Nat) : List (List CStr) :=
  memOps.flatMap fun memOp => accesses.flatMap fun access =>
    (List.range' 1 threadNum).map fun thread => command memOp access thread memBind

structure Measured where
  iterations : Int
  ops : Int
  seconds : List Double
  ckRes : Double

def printed (a : Arithmetic) (p : Platform) (args : List CStr) (r : Measured) : Option CStr :=
  match parseArgs p args with
  | .accepted e => Output.print a { e with iterations := r.iterations } r.ops r.seconds r.ckRes
  | _ => some []

/-- `chase.csv` behind the loops. -/
def testMemory (a : Arithmetic) (p : Platform) (threadNum memBind : Nat)
    (measured : List CStr → Measured) : Option CStr := do
  let header ← printed a p ["-o".toList, "hdr".toList] (measured ["-o".toList, "hdr".toList])
  let reports ← (commands threadNum memBind).mapM fun args => printed a p args (measured args)
  return header ++ reports.flatten

end Script

section Maps
variable {memBind thread : Nat}

theorem threadMap_succ (memBind k : Nat) :
    threadMap memBind (k + 1) = "0:".toList ++ decimal memBind ++
      (List.range k).flatMap fun _ => ";0:".toList ++ decimal memBind := by
  induction k with
  | zero => simp [threadMap]
  | succ k ih =>
    have hlast : List.range' 1 (k + 1 + 1) = List.range' 1 (k + 1) ++ [k + 2] := by
      rw [List.range'_concat]
      congr 2
      omega
    rw [threadMap, hlast, List.foldl_concat, if_neg (by omega)]
    change threadMap memBind (k + 1) ++ _ ++ _ = _
    rw [ih, List.range_succ, List.flatMap_append, List.flatMap_singleton]
    simp only [List.append_assoc]

/-- The map of the script is the printed map of so many threads with one chain each. -/
theorem threadMap_eq (hthread : 1 ≤ thread) (hbind : memBind < 2147483648) :
    threadMap memBind thread = mapText thread 1 (fun _ => 0) fun _ _ => memBind := by
  obtain ⟨k, rfl⟩ := Nat.exists_eq_add_of_le' hthread
  have hdomain : IsDomain (memBind : Int) := ⟨by omega, by omega⟩
  have hprint : printInt (memBind : Int) = decimal memBind := printInt_of_isDomain hdomain
  have hgroup : groupText 1 0 (fun _ => (memBind : Int)) = "0:".toList ++ decimal memBind := by
    rw [groupText, printChains, hprint]
    rfl
  rw [threadMap_succ, mapText, printGroups_eq, hgroup]
  rfl

end Maps

section Settings
variable {p : Platform}

theorem operation_of_memOps {memOp : CStr} (h : memOp ∈ memOps) :
    ∃ o, lookup operationWords memOp = some o ∧ (operationString o).toList = memOp := by
  simp only [memOps, List.map_cons, List.map_nil, List.mem_cons, List.not_mem_nil, or_false] at h
  rcases h with rfl | rfl | rfl | rfl | rfl
  · exact ⟨.na, by decide, by decide⟩
  · exact ⟨.load, by decide, by decide⟩
  · exact ⟨.store, by decide, by decide⟩
  · exact ⟨.loadAll, by decide, by decide⟩
  · exact ⟨.storeAll, by decide, by decide⟩

/-- The stride that the words of an access pattern ask for. -/
inductive AsksStride : List CStr → Int → Prop
  | random : AsksStride ["random".toList] 1
  | forward (n : Nat) : AsksStride ["forward".toList, decimal n] n
  | reverse (n : Nat) : AsksStride ["reverse".toList, decimal n] (-n)

inductive AccessSetting : Setting → String → Int → Prop
  | random : AccessSetting .random "random" 1
  | forward {stride : Int} (h : 0 < stride) : AccessSetting (.strided stride) "forward" stride
  | reverse {stride : Int} (h : stride < 0) : AccessSetting (.strided stride) "reverse" stride

theorem setting_of_accesses {access : List CStr} (h : access ∈ accesses) :
    ∃ x name stride, Reads p ("-a".toList :: access) x ∧ AccessSetting x name stride ∧
      AsksStride access stride ∧ access.head? = some name.toList := by
  have hword : optionOf "-a".toList = some .access := by decide
  have hstrides : ∀ stride ∈ ["1", "2", "4", "8", "16"], ∃ n ∈ [1, 2, 4, 8, 16],
      stride.toList = decimal n ∧ parseNumber (decimal n) = n ∧
        wrap64 (-parseNumber (decimal n)) = -n ∧ 0 < (n : Int) := by decide
  rcases List.mem_cons.mp h with rfl | h
  · exact ⟨_, _, _, .random hword (by decide), .random, .random, rfl⟩
  · obtain ⟨way, hway, hwords⟩ := List.mem_flatMap.mp h
    obtain ⟨stride, hstride, rfl⟩ := List.mem_map.mp hwords
    obtain ⟨n, _, hn, hforward, hreverse, hpos⟩ := hstrides stride hstride
    rw [List.mem_cons, List.mem_singleton] at hway
    rcases hway with rfl | rfl
    · have hset : AccessSetting (.strided (parseNumber stride.toList)) "forward" n := by
        rw [hn, hforward]
        exact .forward hpos
      have hreads : Reads p ["-a".toList, "forward".toList, stride.toList] _ :=
        .forward hword (by decide) (by
          rw [hn, hforward]
          exact hpos.ne')
      exact ⟨_, _, _, hreads, hset, hn ▸ .forward n, rfl⟩
    · have hset : AccessSetting (.strided (wrap64 (-parseNumber stride.toList))) "reverse" (-n) := by
        rw [hn, hreverse]
        exact .reverse (by omega)
      have hreads : Reads p ["-a".toList, "reverse".toList, stride.toList] _ :=
        .reverse hword (by decide) (by
          rw [hn, hreverse]
          omega)
      exact ⟨_, _, _, hreads, hset, hn ▸ .reverse n, rfl⟩

theorem parseReal_three (hround : ∀ n : Nat, n < 16777216 → p.round n = n) :
    parseReal p.round "3.0".toList = 3 := by
  have hzero := hround 0 (by decide)
  have hthree := hround 3 (by decide)
  have hdigit := hround 51 (by decide)
  push_cast at hzero hthree hdigit
  have hchars : "3.0".toList = ['3', '.', '0'] := by decide
  have hvalue : ('3'.toNat : ℚ) = 51 ∧ digitValue '0' = 0 := by
    refine ⟨?_, by decide⟩
    rw [show '3'.toNat = 51 from rfl]
    norm_num
  rw [parseReal, hchars]
  simp only [parseRealFrom, show isDigit '3' = true by decide, show isDigit '.' = false by decide,
    show isDigit '0' = true by decide, hvalue.1, hvalue.2]
  norm_num [hzero, hthree, hdigit]

end Settings

section Accepted
variable {p : Platform}

theorem deriveSizes_script {e : Experiment} (hpointer : e.pointerSize = 16)
    (hline : e.bytesPerLine = 64) (hpage : e.bytesPerPage = 33554432)
    (hchain : e.bytesPerChain = 33554432) :
    ∃ e', deriveSizes e = some e' ∧ e'.bytesPerPage = 33554432 ∧ e'.bytesPerChain = 33554432 := by
  have hlines : div64 (wrap64 (33554432 + 64 - 1)) 64 = some 524288 := by decide
  have hpages : div64 (wrap64 (33554432 + wrap64 (64 * 524288) - 1)) (wrap64 (64 * 524288)) =
      some 1 := by decide
  have hlinks : div64 64 16 = some 4 := by decide
  have hpage' : wrap64 (64 * 524288) = 33554432 := by decide
  have hchain' : wrap64 (wrap64 (64 * 524288) * 1) = 33554432 := by decide
  simp only [deriveSizes, hpointer, hline, hpage, hchain, hlines, hpages, hlinks,
    Option.bind_eq_bind, Option.bind_some, Option.pure_def]
  exact ⟨_, rfl, hpage', hchain'⟩

def scriptSettings (o : MemOperation) (x : Setting) (thread : Nat) (map : CStr) : List Setting :=
  [.number .chain 33554432, .number .page 33554432, .operation o, x, .seconds 3,
    .number .threads thread, .numaMap map, .output .csv]

def scriptRecord (o : MemOperation) (x : Setting) (thread : Nat) (map : CStr) : Experiment :=
  (scriptSettings o x thread map).foldl (fun e x => x.apply e) {}

theorem parseArgs_command (hround : ∀ n : Nat, n < 16777216 → p.round n = n) {memOp : CStr}
    {o : MemOperation} (ho : lookup operationWords memOp = some o) {access : List CStr}
    {x : Setting} (hx : Reads p ("-a".toList :: access) x) {thread : Nat} (hpos : 1 ≤ thread)
    (hlt : thread < 2147483648) (memBind : Nat) :
    parseArgs p (command memOp access thread memBind) =
      allocate p (scriptRecord o x thread (threadMap memBind thread)) := by
  have hsize : parseNumber "32m".toList = 33554432 := by decide
  have hthread : parseNumber (decimal thread) = thread := parseNumber_toDigits thread (by omega)
  have hseconds := parseReal_three hround
  have hchainPhrase : Reads p ["-c".toList, "32m".toList] (.number .chain 33554432) := by
    rw [← hsize]
    exact .number (by decide) fun _ => by decide
  have hpagePhrase : Reads p ["-p".toList, "32m".toList] (.number .page 33554432) := by
    rw [← hsize]
    exact .number (by decide) fun _ => by decide
  have hsecondsPhrase : Reads p ["-s".toList, "3.0".toList] (.seconds 3) := by
    rw [← hseconds]
    refine .seconds (by decide) ?_
    rw [hseconds]
    norm_num
  have hthreadPhrase : Reads p ["-t".toList, decimal thread] (.number .threads thread) := by
    rw [← hthread]
    refine .number (by decide) fun _ => ?_
    rw [hthread]
    omega
  let phrases : List (Phrase p) :=
    [⟨_, _, hchainPhrase⟩, ⟨_, _, hpagePhrase⟩,
      ⟨["-m".toList, memOp], _, .operation (by decide) ho⟩, ⟨_, _, hx⟩, ⟨_, _, hsecondsPhrase⟩,
      ⟨_, _, hthreadPhrase⟩,
      ⟨["-n".toList, "map".toList, threadMap memBind thread], _, .numaMap (by decide) (by decide)⟩,
      ⟨["-o".toList, "csv".toList], .output .csv, .output (by decide) (by decide)⟩]
  have hwords : command memOp access thread memBind = commandWords phrases := by
    rw [command, List.append_assoc]
    rfl
  rw [hwords, parseArgs_commandWords]
  rfl

theorem AccessSetting.record {x : Setting} {name : String} {stride : Int}
    (h : AccessSetting x name stride) (o : MemOperation) (thread : Nat) (map : CStr) :
    ∃ e : Experiment, scriptRecord o x thread map = e ∧ e.pointerSize = 16 ∧ e.bytesPerLine = 64 ∧
      e.bytesPerPage = 33554432 ∧ e.bytesPerChain = 33554432 ∧ e.memOperation = o ∧
      e.access = some name ∧ e.stride = stride ∧ e.seconds = 3 ∧ e.iterations = 0 ∧
      e.numaPlacement = .numaMap ∧ e.placementMap = some map ∧ e.outputMode = .csv := by
  cases h with
  | random => exact ⟨_, rfl, rfl, rfl, rfl, rfl, rfl, rfl, rfl, rfl, rfl, rfl, rfl, rfl⟩
  | forward h =>
    refine ⟨_, rfl, rfl, rfl, rfl, rfl, rfl, ?_, rfl, rfl, rfl, rfl, rfl, rfl⟩
    simp [Experiment.access, scriptRecord, scriptSettings, Setting.apply, NumberOption.set, h]
  | reverse h =>
    refine ⟨_, rfl, rfl, rfl, rfl, rfl, rfl, ?_, rfl, rfl, rfl, rfl, rfl, rfl⟩
    simp [Experiment.access, scriptRecord, scriptSettings, Setting.apply, NumberOption.set, h, h.le]

/-- What is accepted of a run: the settings of the script, and a map that puts every thread
on the first domain and its only chain on one of those there are. -/
structure ScriptRun (p : Platform) (memOp : CStr) (access : List CStr) (thread memBind : Nat)
    (e : Experiment) : Prop where
  accepted : parseArgs p (command memOp access thread memBind) = .accepted e
  bytesPerPage_eq : e.bytesPerPage = 33554432
  bytesPerChain_eq : e.bytesPerChain = 33554432
  chainsPerThread_eq : e.chainsPerThread = 1
  numThreads_eq : e.numThreads = thread
  operation_eq : (operationString e.memOperation).toList = memOp
  access_eq : e.access.map String.toList = access.head?
  stride_asked : AsksStride access e.stride
  seconds_eq : e.seconds = 3
  iterations_eq : e.iterations = 0
  mode_eq : e.outputMode = .csv
  map_eq : e.domainMap = some (threadMap (memBind % (p.numaMaxNode.toNat + 1)) thread)

theorem domainMap_of_hasMap {e : Experiment} {thread d : Nat} (hpos : 1 ≤ thread)
    (hlt : thread < 2147483648) (hd : d < 2147483648)
    (h : e.HasMap thread 1 (fun _ => 0) fun _ _ => d) :
    e.domainMap = some (threadMap d thread) := by
  rw [threadMap_eq hpos hd, Experiment.domainMap, h.numThreads_eq, h.chainsPerThread_eq,
    ← Nat.cast_one, printMap_of_lt hlt (by decide), Option.some.injEq]
  apply mapText_congr thread 1 hpos (by decide)
  · intro i hi
    simp [h.threadDomain_eq, hi]
  · intro i hi j hj
    obtain rfl : j = 0 := by omega
    simp [h.chainDomain_eq, hi]

/-- Every run of the script is accepted, whatever the machine. -/
theorem exists_scriptRun (hround : ∀ n : Nat, n < 16777216 → p.round n = n) {memOp : CStr}
    (hop : memOp ∈ memOps) {access : List CStr} (haccess : access ∈ accesses) {thread memBind : Nat}
    (hpos : 1 ≤ thread) (hlt : thread < 2147483648) (hbind : memBind < 2147483648) :
    ∃ e, ScriptRun p memOp access thread memBind e := by
  obtain ⟨o, ho, hmemOp⟩ := operation_of_memOps hop
  obtain ⟨x, name, stride, hx, hsetting, hasks, hname⟩ := setting_of_accesses (p := p) haccess
  obtain ⟨e₀, hrecord, hpointer, hline, hpage, hchain, hoperation, haccess', hstrided, hseconds,
    hiterations, hmode, hmap, houtput⟩ := hsetting.record o thread (threadMap memBind thread)
  obtain ⟨e₁, hsizes, hpage₁, hchain₁⟩ := deriveSizes_script hpointer hline hpage hchain
  have hnodes := p.numaMaxNode_nonneg
  have hzero : IsDomain 0 := ⟨by decide, by decide⟩
  have hdomain : IsDomain (memBind : Int) := ⟨by omega, by omega⟩
  have hthreads : ∀ i < thread, IsDomain ((fun _ => 0 : Nat → Int) i) := fun _ _ => hzero
  have hchains : ∀ i < thread, ∀ j < 1, IsDomain ((fun _ _ => memBind : Nat → Nat → Int) i j) :=
    fun _ _ _ _ => hdomain
  obtain ⟨e, halloc, hhas⟩ := allocMap_mapText (e₁.setNuma p) hpos (Nat.le_refl 1) hlt (by decide)
    hthreads hchains
  rw [← threadMap_eq hpos hbind] at halloc
  have haccepted : allocate p e₀ = .accepted e := allocate_map hmode hmap hsizes halloc
  have hread : ∀ slot : Slot, slot.Kept → slot.read e = slot.read e₀ :=
    fun _ hkept => allocate_read hkept haccepted
  obtain ⟨_, _, m, _, hset⟩ := (allocMap_eq_ok_iff _ _ _).mp halloc
  have hstride : e.stride = e₀.stride := hread .stride trivial
  refine ⟨e, ?_, ?_, ?_, hhas.chainsPerThread_eq, hhas.numThreads_eq, ?_, ?_, ?_,
    (hread .seconds trivial).trans hseconds, (hread (.number .iterations) trivial).trans hiterations,
    (hread .outputMode trivial).trans houtput, ?_⟩
  · rw [parseArgs_command hround ho hx hpos hlt, hrecord]
    exact haccepted
  · rw [hset]
    exact hpage₁
  · rw [hset]
    exact hchain₁
  · have hsame : e.memOperation = e₀.memOperation := hread .memOperation trivial
    rw [hsame, hoperation, hmemOp]
  · have hpattern : e.accessPattern = e₀.accessPattern := hread .accessPattern trivial
    have hsame : e.access = e₀.access := by
      unfold Experiment.access
      rw [hpattern, hstride]
    rw [hsame, haccess', hname]
    rfl
  · rw [hstride, hstrided]
    exact hasks
  · have hdomains : (e₁.setNuma p).numNumaDomains = ((p.numaMaxNode.toNat + 1 : Nat) : Int) := by
      change p.numaMaxNode + 1 = _
      omega
    have hlow := Nat.mod_le memBind (p.numaMaxNode.toNat + 1)
    refine domainMap_of_hasMap hpos hlt (by omega) ?_
    rw [hdomains] at hhas
    simpa only [Int.zero_tmod, ← Int.ofNat_tmod] using hhas

end Accepted

section File
variable {a : Arithmetic} {p : Platform}

def runRows (a : Arithmetic) (p : Platform) (args : List CStr) (r : Measured) :
    List (List CStr) :=
  match parseArgs p args with
  | .accepted e => r.seconds.map (reportRow a { e with iterations := r.iterations } r.ops r.ckRes)
  | _ => []

theorem collected_runs (measured : List CStr → Measured) (runs : List (List CStr))
    (hruns : ∀ args ∈ runs, ∃ e, parseArgs p args = .accepted e ∧ e.outputMode = .csv)
    {file : CStr} {rows : List (List CStr)} (hfile : Collected a file rows) :
    ∃ reports, (runs.mapM fun args => printed a p args (measured args)) = some reports ∧
      Collected a (file ++ reports.flatten)
        (rows ++ runs.flatMap fun args => runRows a p args (measured args)) := by
  induction runs generalizing file rows with
  | nil => exact ⟨[], rfl, by simpa using hfile⟩
  | cons args runs ih =>
    obtain ⟨⟨e, he, hmode⟩, hruns⟩ := List.forall_mem_cons.mp hruns
    obtain ⟨texts, htexts, _⟩ := lines_csv (a := a) he (measured args).iterations
      (measured args).ops (measured args).ckRes (measured args).seconds
    have hprint := print_csv (e := { e with iterations := (measured args).iterations }) hmode htexts
    obtain ⟨reports, hreports, hcollected⟩ := ih hruns (hfile.append he hmode hprint)
    refine ⟨texts.flatten :: reports, ?_, ?_⟩
    · rw [List.mapM_cons, hreports]
      simp only [printed, he, hprint]
      rfl
    · rw [List.flatten_cons, List.flatMap_cons, ← List.append_assoc, ← List.append_assoc]
      simp only [runRows, he]
      exact hcollected

/-- What a row says about its run. -/
structure RowOf (p : Platform) (memOp : CStr) (access : List CStr) (thread memBind : Nat)
    (row : List CStr) : Prop where
  length_eq : row.length = columns.length
  operation_eq : row[columns.idxOf "memory operation".toList]? = some memOp
  access_eq : row[columns.idxOf "access pattern".toList]? = access.head?
  stride_asked : ∃ stride, AsksStride access stride ∧
    row[columns.idxOf "stride".toList]? = some (printInt stride)
  thread_eq : row[columns.idxOf "number of threads".toList]? = some (decimal thread)
  chain_eq : row[columns.idxOf "chain size (bytes)".toList]? = some (decimal 33554432)
  map_eq : row[columns.idxOf "domain map".toList]? =
    some (threadMap (memBind % (p.numaMaxNode.toNat + 1)) thread)

theorem ScriptRun.rowOf {memOp : CStr} {access : List CStr} {thread memBind : Nat} {e : Experiment}
    (h : ScriptRun p memOp access thread memBind e) (hlt : thread < 2147483648) (r : Measured) :
    ∀ row ∈ runRows a p (command memOp access thread memBind) r,
      RowOf p memOp access thread memBind row := by
  have hplaces : columns.idxOf "memory operation".toList = 11 ∧
      columns.idxOf "access pattern".toList = 13 ∧ columns.idxOf "number of threads".toList = 7 ∧
      columns.idxOf "chain size (bytes)".toList = 3 ∧ columns.idxOf "domain map".toList = 18 ∧
      columns.idxOf "stride".toList = 14 := by decide +kernel
  obtain ⟨hop, haccess, hthread, hchain, hmap, hstride⟩ := hplaces
  intro row hrow
  simp only [runRows, h.accepted] at hrow
  obtain ⟨secs, _, rfl⟩ := List.mem_map.mp hrow
  obtain ⟨name, hname⟩ : ∃ name, e.access = some name := by
    obtain ⟨name, _, hname, _⟩ := names_of_parseArgs h.accepted 0
    exact ⟨name, hname⟩
  refine ⟨List.length_map _, ?_, ?_, ⟨e.stride, h.stride_asked, ?_⟩, ?_, ?_, ?_⟩
  · rw [hop, ← h.operation_eq]
    rfl
  · rw [haccess, ← h.access_eq, hname]
    change some (e.access.getD "").toList = _
    rw [hname]
    rfl
  · rw [hstride]
    rfl
  · rw [hthread]
    change some (printInt e.numThreads) = _
    rw [h.numThreads_eq, printInt_of_isDomain ⟨by omega, by omega⟩]
    rfl
  · rw [hchain]
    change some (printInt e.bytesPerChain) = _
    rw [h.bytesPerChain_eq, printInt_of_isDomain ⟨by omega, by omega⟩]
    rfl
  · rw [hmap]
    change some (e.domainMap.getD []) = _
    rw [h.map_eq]
    rfl

/-- For every number of threads, every domain and whatever is measured, each run of the script
is accepted, and its file holds the header and then, run after run, a row for each duration
that names what the run was asked for. -/
theorem test_memory_collects (a : Arithmetic) (hround : ∀ n : Nat, n < 16777216 → p.round n = n)
    {threadNum memBind : Nat} (hlt : threadNum < 2147483648) (hbind : memBind < 2147483648)
    (measured : List CStr → Measured) :
    ∃ file, testMemory a p threadNum memBind measured = some file ∧
      Collected a file (columns :: (commands threadNum memBind).flatMap fun args =>
        runRows a p args (measured args)) ∧
      ∀ memOp ∈ memOps, ∀ access ∈ accesses, ∀ thread, 1 ≤ thread → thread ≤ threadNum →
        ∀ args, args = command memOp access thread memBind →
          (∃ e, ScriptRun p memOp access thread memBind e) ∧
          (runRows a p args (measured args)).length = (measured args).seconds.length ∧
          ∀ row ∈ runRows a p args (measured args), RowOf p memOp access thread memBind row := by
  have hheader : ∃ e, parseArgs p ["-o".toList, "hdr".toList] = .accepted e ∧
      e.outputMode = .header := by
    have hphrase : Reads p ["-o".toList, "hdr".toList] (.output .header) :=
      .output (by decide) (by decide)
    have hallocate : ∃ e, allocate p { outputMode := .header } = .accepted e := ⟨_, rfl⟩
    obtain ⟨e, he⟩ := hallocate
    have hkept : Slot.Kept .outputMode := trivial
    have hmode : Slot.read .outputMode e = OutputMode.header := allocate_read hkept he
    exact ⟨e, (parseArgs_commandWords [⟨_, _, hphrase⟩]).trans he, hmode⟩
  have hruns : ∀ args ∈ commands threadNum memBind, ∃ e, parseArgs p args = .accepted e ∧
      e.outputMode = .csv := by
    intro args hargs
    obtain ⟨memOp, hop, hargs⟩ := List.mem_flatMap.mp hargs
    obtain ⟨access, haccess, hargs⟩ := List.mem_flatMap.mp hargs
    obtain ⟨thread, hthread, rfl⟩ := List.mem_map.mp hargs
    rw [List.mem_range'_1] at hthread
    obtain ⟨e, he⟩ := exists_scriptRun hround hop haccess hthread.1 (by omega) hbind
    exact ⟨e, he.accepted, he.mode_eq⟩
  obtain ⟨e, he, hmode⟩ := hheader
  have hprint : printed a p ["-o".toList, "hdr".toList] (measured ["-o".toList, "hdr".toList]) =
      some Output.header := by
    simp only [printed, he]
    exact print_header hmode
  have hfirst : Output.print a { e with iterations := 0 } 0 [] (.finite false 0) =
      some Output.header := print_header hmode
  have hfile : Collected a Output.header [columns] := .header he hmode hfirst
  obtain ⟨reports, hreports, hcollected⟩ := collected_runs measured _ hruns hfile
  refine ⟨Output.header ++ reports.flatten, ?_, hcollected, ?_⟩
  · rw [testMemory, hprint, hreports]
    rfl
  · rintro memOp hop access haccess thread hpos hle _ rfl
    obtain ⟨e, he⟩ := exists_scriptRun hround hop haccess hpos (by omega) hbind
    refine ⟨⟨e, he⟩, ?_, he.rowOf (by omega) _⟩
    simp only [runRows, he.accepted, List.length_map]

/-- The script as it stands, on a machine with one domain. -/
theorem four_threads_collect :
    let measured : List CStr → Measured := fun _ => ⟨3, 262144, [.ofRat 1], .ofRat 1⟩
    let args := command "load".toList ["forward".toList, ['2']] 2 1
    (commands 4 1).length = 220 ∧
      ∃ file rows, testMemory exactArithmetic .single 4 1 measured = some file ∧
        Collected exactArithmetic file rows ∧
        ∃ row ∈ runRows exactArithmetic .single args (measured args),
          row[columns.idxOf "domain map".toList]? = some "0:0;0:0".toList := by
  intro measured args
  have hround : ∀ n : Nat, n < 16777216 → Platform.single.round n = n := fun _ _ => rfl
  obtain ⟨file, hfile, hcollected, hruns⟩ := test_memory_collects exactArithmetic hround
    (show 4 < 2147483648 by decide) (show 1 < 2147483648 by decide) measured
  obtain ⟨_, hlength, hrows⟩ := hruns "load".toList (by decide) ["forward".toList, ['2']]
    (by decide) 2 (by decide) (by decide) args rfl
  refine ⟨by decide +kernel, file, _, hfile, hcollected, ?_⟩
  obtain ⟨row, hrow⟩ := List.exists_mem_of_length_pos (by
    rw [hlength]
    exact Nat.one_pos)
  refine ⟨row, hrow, (hrows row hrow).map_eq.trans ?_⟩
  decide +kernel

end File

end PChase
