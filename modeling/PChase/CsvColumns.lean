import PChase.Coherence
import PChase.CsvReader
import PChase.MapText
import PChase.Output

/-!
# Rows and columns of the report

Every row of the csv report is one record of as many fields as the header has columns: the
domain map is printed between quotes and has none itself, and no other field has a comma.
-/

namespace PChase

open CInt Csv
set_option autoImplicit false

section Texts

theorem safe_of_digits {s : CStr} (h : ∀ c ∈ s, isDigit c = true) : (Csv.Field.plain s).Safe := by
  intro c hc
  have hdigit := h c hc
  refine ⟨?_, ?_, ?_⟩
  all_goals
    intro heq
    subst heq
    exact absurd hdigit (by decide)

theorem safe_append {s t : CStr} (hs : (Csv.Field.plain s).Safe) (ht : (Csv.Field.plain t).Safe) :
    (Csv.Field.plain (s ++ t)).Safe :=
  List.forall_mem_append.mpr ⟨hs, ht⟩

theorem safe_sign (negative : Bool) :
    (Csv.Field.plain (if negative then ['-'] else [])).Safe := by
  cases negative
  all_goals simp [Csv.Field.Safe]

theorem printInt_eq_sign (x : Int) :
    printInt x = (if x < 0 then ['-'] else []) ++ Nat.toDigits 10 x.natAbs := by
  unfold printInt
  split
  · rfl
  · rfl

theorem safe_printInt (x : Int) : (Csv.Field.plain (printInt x)).Safe := by
  rw [printInt_eq_sign]
  refine safe_append ?_ (safe_of_digits (toDigits_isDigit _))
  simpa using safe_sign (decide (x < 0))

theorem safe_printPlaces (places n : Nat) : (Csv.Field.plain (printPlaces places n)).Safe := by
  unfold printPlaces
  split
  · exact safe_of_digits (toDigits_isDigit n)
  · have hpoint : (Csv.Field.plain ['.']).Safe := by simp [Csv.Field.Safe]
    have hzeros : ∀ k, (Csv.Field.plain (List.replicate k '0')).Safe := by
      intro k
      apply safe_of_digits
      intro c hc
      rw [List.eq_of_mem_replicate hc]
      decide
    exact safe_append (safe_of_digits (toDigits_isDigit _))
      (safe_append hpoint (safe_append (hzeros _) (safe_of_digits (toDigits_isDigit _))))

theorem safe_printDouble (places : Nat) (x : Double) :
    (Csv.Field.plain (printDouble places x)).Safe := by
  cases x with
  | finite negative magnitude => exact safe_append (safe_sign negative) (safe_printPlaces _ _)
  | infinite negative =>
    exact safe_append (safe_sign negative) (by simp [Csv.Field.Safe])
  | nan negative =>
    exact safe_append (safe_sign negative) (by simp [Csv.Field.Safe])

theorem safe_prefetchHintString (hint : PrefetchHint) :
    (Csv.Field.plain (prefetchHintString hint).toList).Safe := by
  cases hint
  all_goals simp [Csv.Field.Safe, prefetchHintString]

theorem safe_operationString (operation : MemOperation) :
    (Csv.Field.plain (operationString operation).toList).Safe := by
  cases operation
  all_goals simp [Csv.Field.Safe, operationString]

theorem access_mem {e : Experiment} {access : String} (h : e.access = some access) :
    access ∈ ["random", "forward", "reverse"] := by
  unfold Experiment.access at h
  split at h
  · simp [← Option.some.inj h]
  split at h
  · simp [← Option.some.inj h]
  split at h
  · simp [← Option.some.inj h]
  · simp at h

theorem placement_mem {e : Experiment} {placement : String} (h : e.placement = some placement) :
    placement ∈ ["local", "xor", "add", "map"] := by
  unfold Experiment.placement at h
  split at h
  · simp [← Option.some.inj h]
  split at h
  · simp [← Option.some.inj h]
  split at h
  · simp [← Option.some.inj h]
  split at h
  · simp [← Option.some.inj h]
  · simp at h

theorem safe_access {e : Experiment} {access : String} (h : e.access = some access) :
    (Csv.Field.plain access.toList).Safe := by
  have hsafe : ∀ name ∈ ["random", "forward", "reverse"],
      (Csv.Field.plain name.toList).Safe := by simp [Csv.Field.Safe]
  exact hsafe access (access_mem h)

theorem safe_placement {e : Experiment} {placement : String} (h : e.placement = some placement) :
    (Csv.Field.plain placement.toList).Safe := by
  have hsafe : ∀ name ∈ ["local", "xor", "add", "map"],
      (Csv.Field.plain name.toList).Safe := by simp [Csv.Field.Safe]
  exact hsafe placement (placement_mem h)

end Texts

section Maps

theorem quote_not_mem_printInt (x : Int) : '"' ∉ printInt x :=
  fun hmem => (safe_printInt x '"' hmem).2.1 rfl

theorem quote_not_mem_printChains (cs : Nat → Int) (j k : Nat) : '"' ∉ printChains cs j k := by
  induction k generalizing j with
  | zero => exact quote_not_mem_printInt _
  | succ k ih => simp [printChains, quote_not_mem_printInt, ih]

theorem quote_not_mem_groupText (m : Nat) (t : Int) (cs : Nat → Int) : '"' ∉ groupText m t cs := by
  simp [groupText, quote_not_mem_printInt, quote_not_mem_printChains]

theorem quote_not_mem_printGroups (m : Nat) (ts : Nat → Int) (cs : Nat → Nat → Int) (i k : Nat) :
    '"' ∉ printGroups m ts cs i k := by
  induction k generalizing i with
  | zero => exact quote_not_mem_groupText m (ts i) (cs i)
  | succ k ih => simp [printGroups, quote_not_mem_groupText, ih]

theorem doubleQuotes_of_not_mem {s : CStr} (h : '"' ∉ s) : doubleQuotes s = s := by
  induction s with
  | nil => rfl
  | cons c s ih =>
    obtain ⟨hc, hs⟩ := not_or.mp (List.mem_cons.not.mp h)
    have hrest := ih hs
    unfold doubleQuotes at hrest ⊢
    rw [List.flatMap_cons, if_neg (Ne.symm hc), hrest]
    rfl

/-- The map of an accepted configuration is printed. -/
theorem domainMap_of_parseArgs {p : Platform} {args : List CStr} {e : Experiment}
    (h : parseArgs p args = .accepted e) : ∃ map, e.domainMap = some map ∧ '"' ∉ map := by
  have htables := tables_of_parseArgs h
  have haccepted := accepted_of_parseArgs h
  obtain ⟨n, hn⟩ := Int.eq_ofNat_of_zero_le (show 0 ≤ e.numThreads by
    have := haccepted.numThreads_pos
    omega)
  obtain ⟨m, hm⟩ := Int.eq_ofNat_of_zero_le (show 0 ≤ e.chainsPerThread by
    have := haccepted.chainsPerThread_pos
    omega)
  have hthreads := htables.numThreads_lt
  have hchains := htables.chainsPerThread_lt
  have hprint : ∃ ts cs, e.domainMap = some (mapText n m ts cs) := by
    refine ⟨fun i => (e.threadDomain.getD i none).getD 0,
      fun i j => ((e.chainDomain.getD i []).getD j none).getD 0, ?_⟩
    unfold Experiment.domainMap
    rw [hn, hm]
    exact printMap_of_lt (by omega) (by omega) _ _
  obtain ⟨ts, cs, hprint⟩ := hprint
  exact ⟨_, hprint, quote_not_mem_printGroups m ts cs 0 (n - 1)⟩

end Maps

section Rows
variable {a : Arithmetic} {e : Experiment} {ops : Int} {secs ckRes : Double}

def columns : List CStr :=
  ["pointer size (bytes)", "cache line size (bytes)", "page size (bytes)", "chain size (bytes)",
    "thread size (bytes)", "test size (bytes)", "chains per thread", "number of threads",
    "iterations", "loop length", "prefetch hint", "memory operation", "experiments",
    "access pattern", "stride", "numa placement", "offset or mask", "numa domains", "domain map",
    "operations per chain", "total operations", "elapsed time (seconds)",
    "elapsed time (timer ticks)", "clock resolution (ns)", "memory latency (ns)",
    "memory bandwidth (MB/s)"].map String.toList

def csvFields (a : Arithmetic) (e : Experiment) (ops : Int) (secs ckRes : Double)
    (access placement : String) (map : CStr) : List Csv.Field :=
  [.plain (printInt e.pointerSize), .plain (printInt e.bytesPerLine),
    .plain (printInt e.bytesPerPage), .plain (printInt e.bytesPerChain),
    .plain (printInt e.bytesPerThread), .plain (printInt e.bytesPerTest),
    .plain (printInt e.chainsPerThread), .plain (printInt e.numThreads),
    .plain (printInt e.iterations), .plain (printInt e.loopLength),
    .plain (prefetchHintString e.prefetchHint).toList,
    .plain (operationString e.memOperation).toList, .plain (printInt e.experiments),
    .plain access.toList, .plain (printInt e.stride), .plain placement.toList,
    .plain (printInt e.offsetOrMask), .plain (printInt e.numNumaDomains), .quoted map,
    .plain (printInt ops), .plain (printInt (Output.totalOps e ops)),
    .plain (printDouble 3 secs), .plain (printDouble 0 (Output.ticks a secs ckRes)),
    .plain (printDouble 2 (Output.resolution a ckRes)),
    .plain (printDouble 2 (Output.latency a e ops secs)),
    .plain (printDouble 3 (Output.bandwidth a e ops secs))]

theorem header_eq : Output.header = rowText (columns.map .plain) := eq_of_beq (by decide +kernel)

theorem length_columns : columns.length = 26 := rfl

theorem idxOf_columns : columns.idxOf "domain map".toList = 18 ∧
    columns.idxOf "operations per chain".toList = 19 ∧
    columns.idxOf "total operations".toList = 20 := by
  decide +kernel

theorem length_csvFields (access placement : String) (map : CStr) :
    (csvFields a e ops secs ckRes access placement map).length = 26 := rfl

theorem properRow_columns : ProperRow (columns.map .plain) := by
  have hsafe : columns.all (fun name => name.all fun c => c != ',' && (c != '"' && c != '\n')) =
      true := by
    decide +kernel
  refine ⟨by decide, by decide, List.forall_mem_map.mpr ?_⟩
  intro name hname c hc
  have hall := List.all_eq_true.mp (List.all_eq_true.mp hsafe name hname) c hc
  simpa using hall

theorem readCsv_header : readCsv Output.header = [columns] := by
  have hread := readCsv_rows [columns.map .plain] (by simpa using properRow_columns)
  rw [List.flatMap_singleton, ← header_eq] at hread
  rw [hread, List.map_singleton, List.map_map]
  rfl

theorem csv_eq {access placement : String} {map : CStr} (haccess : e.access = some access)
    (hplacement : e.placement = some placement) (hmap : e.domainMap = some map)
    (hquote : '"' ∉ map) : Output.csv a e ops secs ckRes =
      some (rowText (csvFields a e ops secs ckRes access placement map)) := by
  simp only [Output.csv, haccess, hplacement, hmap, Option.bind_eq_bind, Option.bind_some,
    Option.pure_def, csvFields, rowText, Csv.Field.text, doubleQuotes_of_not_mem hquote]
  simp

theorem properRow_csvFields {access placement : String} (map : CStr)
    (haccess : e.access = some access) (hplacement : e.placement = some placement) :
    ProperRow (csvFields a e ops secs ckRes access placement map) := by
  refine ⟨by simp [csvFields], by simp [csvFields], ?_⟩
  simp only [csvFields, List.forall_mem_cons, safe_printInt, safe_prefetchHintString,
    safe_operationString, safe_access haccess, safe_placement hplacement, safe_printDouble]
  simp [Csv.Field.Safe]

/-- A text is one record that lines up with the header, the map and the operations in their
columns. -/
structure LinesUp (e : Experiment) (ops : Int) (map text : CStr) : Prop where
  record : ∃ record, readCsv text = [record] ∧ record.length = columns.length ∧
    record[columns.idxOf "domain map".toList]? = some map ∧
    record[columns.idxOf "operations per chain".toList]? = some (printInt ops) ∧
    record[columns.idxOf "total operations".toList]? = some (printInt (Output.totalOps e ops))

theorem linesUp_csvFields {access placement : String} (map : CStr)
    (haccess : e.access = some access) (hplacement : e.placement = some placement) :
    LinesUp e ops map (rowText (csvFields a e ops secs ckRes access placement map)) := by
  have hread := readCsv_rows [csvFields a e ops secs ckRes access placement map]
    (by simpa using properRow_csvFields map haccess hplacement)
  rw [List.flatMap_singleton, List.map_singleton] at hread
  obtain ⟨hmap, hops, htotal⟩ := idxOf_columns
  refine ⟨_, hread, ?_, ?_, ?_, ?_⟩
  · rw [List.length_map, length_csvFields, length_columns]
  · rw [hmap]
    rfl
  · rw [hops]
    rfl
  · rw [htotal]
    rfl

/-- The report on a list of durations, read as records. -/
theorem readCsv_print {access placement : String} {map : CStr} (haccess : e.access = some access)
    (hplacement : e.placement = some placement) (hmap : e.domainMap = some map)
    (hquote : '"' ∉ map) (seconds : List Double) :
    ∃ rows : List (List CStr), rows.length = seconds.length ∧
      (∀ row ∈ rows, row.length = columns.length) ∧
      (e.outputMode = .csv → ∃ text, Output.print a e ops seconds ckRes = some text ∧
        readCsv text = rows) ∧
      (e.outputMode = .both → ∃ text, Output.print a e ops seconds ckRes = some text ∧
        readCsv text = columns :: rows) := by
  let fields secs := csvFields a e ops secs ckRes access placement map
  have hproper : ∀ secs, ProperRow (fields secs) :=
    fun _ => properRow_csvFields map haccess hplacement
  have hprint : (seconds.mapM fun secs => Output.csv a e ops secs ckRes) =
      some (seconds.map fun secs => rowText (fields secs)) := by
    simp only [csv_eq haccess hplacement hmap hquote]
    exact List.mapM_pure
  have htext : (seconds.map fun secs => rowText (fields secs)).flatten =
      (seconds.map fields).flatMap rowText := by
    rw [List.flatMap_map, List.flatMap_def]
  refine ⟨(seconds.map fields).map (List.map Csv.Field.value), by simp, ?_, ?_, ?_⟩
  · intro row hrow
    rw [List.map_map, List.mem_map] at hrow
    obtain ⟨secs, _, rfl⟩ := hrow
    rw [Function.comp_apply, List.length_map, length_csvFields, length_columns]
  · intro hmode
    refine ⟨_, by rw [Output.print, hmode, hprint]; rfl, ?_⟩
    rw [htext]
    exact readCsv_rows _ (by simpa using fun secs _ => hproper secs)
  · intro hmode
    refine ⟨_, by rw [Output.print, hmode, hprint]; rfl, ?_⟩
    have hrows := readCsv_rows (columns.map .plain :: seconds.map fields) (by
      rw [List.forall_mem_cons]
      exact ⟨properRow_columns, by simpa using fun secs _ => hproper secs⟩)
    rw [List.flatMap_cons, ← header_eq, ← htext] at hrows
    rw [hrows, List.map_cons, List.map_map]
    rfl

end Rows

theorem names_of_parseArgs {p : Platform} {args : List CStr} {e : Experiment}
    (h : parseArgs p args = .accepted e) (iterations : Int) :
    ∃ access placement, Experiment.access { e with iterations } = some access ∧
      Experiment.placement { e with iterations } = some placement := by
  obtain ⟨access, haccess⟩ :=
    Option.isSome_iff_exists.mp (access_isSome (accepted_of_parseArgs h).stride_ne)
  obtain ⟨placement, hplacement⟩ := Option.isSome_iff_exists.mp (placement_isSome e)
  exact ⟨access, placement, haccess, hplacement⟩

theorem readCsv_print_of_parseArgs {p : Platform} {args : List CStr} {e : Experiment}
    (h : parseArgs p args = .accepted e) (a : Arithmetic) (iterations ops : Int)
    (seconds : List Double) (ckRes : Double) :
    ∃ rows : List (List CStr), rows.length = seconds.length ∧
      (∀ row ∈ rows, row.length = columns.length) ∧
      (e.outputMode = .csv → ∃ report,
        Output.print a { e with iterations } ops seconds ckRes = some report ∧
          readCsv report = rows) ∧
      (e.outputMode = .both → ∃ report,
        Output.print a { e with iterations } ops seconds ckRes = some report ∧
          readCsv report = columns :: rows) := by
  obtain ⟨map, hmap, hquote⟩ := domainMap_of_parseArgs h
  obtain ⟨access, placement, haccess, hplacement⟩ := names_of_parseArgs h iterations
  exact readCsv_print haccess hplacement hmap hquote seconds

/-- Every row of the report of an accepted configuration lines up with the header, also after
the calibration has set the number of iterations. -/
theorem rows_line_up {p : Platform} {args : List CStr} {e : Experiment}
    (h : parseArgs p args = .accepted e) (a : Arithmetic) (iterations ops : Int)
    (secs ckRes : Double) :
    readCsv Output.header = [columns] ∧
      columns.idxOf "total operations".toList =
        columns.idxOf "operations per chain".toList + 1 ∧
      ∃ map text, e.domainMap = some map ∧
        Output.csv a { e with iterations } ops secs ckRes = some text ∧
        LinesUp { e with iterations } ops map text ∧
        ∀ seconds : List Double, ∃ rows : List (List CStr), rows.length = seconds.length ∧
          (∀ row ∈ rows, row.length = columns.length) ∧
          (e.outputMode = .csv → ∃ report,
            Output.print a { e with iterations } ops seconds ckRes = some report ∧
              readCsv report = rows) ∧
          (e.outputMode = .both → ∃ report,
            Output.print a { e with iterations } ops seconds ckRes = some report ∧
              readCsv report = columns :: rows) := by
  obtain ⟨map, hmap, hquote⟩ := domainMap_of_parseArgs h
  obtain ⟨access, placement, haccess, hplacement⟩ := names_of_parseArgs h iterations
  obtain ⟨_, hops, htotal⟩ := idxOf_columns
  refine ⟨readCsv_header, by rw [hops, htotal], map, _, hmap,
    csv_eq haccess hplacement hmap hquote, linesUp_csvFields map haccess hplacement, ?_⟩
  intro seconds
  exact readCsv_print_of_parseArgs h a iterations ops seconds ckRes

def Double.ofRat (x : ℚ) : Double := .finite (decide (x < 0)) x.nnabs

def Double.lift (f : ℚ → ℚ → ℚ) : Double → Double → Double
  | .finite s x, .finite t y => .ofRat (f (if s then -x else x) (if t then -y else y))
  | _, _ => .nan false

def Double.quotient (x y : Double) : Double :=
  match x, y with
  | .finite s x, .finite t 0 => if x = 0 then .nan false else .infinite (s != t)
  | x, y => Double.lift (· / ·) x y

def exactArithmetic : Arithmetic where
  mul := Double.lift (· * ·)
  div := Double.quotient
  ofInt n := .ofRat n
  literal := .ofRat
  addLong := Double.lift (· + ·)
  divLong := Double.quotient
  ofSize n := .ofRat n
  toDouble x := x

theorem two_threads_line_up : ∃ e,
    parseArgs .single ["-t".toList, "2".toList, "-r".toList, "2".toList] = .accepted e ∧
      ∃ map text, e.domainMap = some map ∧ map = "0:0,0;0:0,0".toList ∧
        Output.csv exactArithmetic { e with iterations := 3 } 262144 (.ofRat (1 / 2))
          (.ofRat (1 / 1000000000)) = some text ∧
        LinesUp { e with iterations := 3 } 262144 map text := by
  have hrun : ∃ e, parseArgs .single ["-t".toList, "2".toList, "-r".toList, "2".toList] =
      .accepted e ∧ e.domainMap = some "0:0,0;0:0,0".toList :=
    ⟨_, rfl, by decide +kernel⟩
  obtain ⟨e, he, hprinted⟩ := hrun
  obtain ⟨_, _, map, text, hmap, htext, hlines, _⟩ := rows_line_up he exactArithmetic 3 262144
    (.ofRat (1 / 2)) (.ofRat (1 / 1000000000))
  exact ⟨e, he, map, text, hmap, Option.some.inj (hmap.symm.trans hprinted), htext, hlines⟩

end PChase
