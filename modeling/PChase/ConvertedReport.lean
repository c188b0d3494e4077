import PChase.ConvertScript
import PChase.CsvColumns

/-!
# Columns of a report

What `scripts/convert.py` makes of the report that the program has printed: for every
selection of columns, the names and the values that were printed for them, in order.
-/

namespace PChase

open CInt Csv
set_option autoImplicit false

section Texts

theorem carriage_not_mem_digits {s : List Char} (h : ∀ c ∈ s, isDigit c = true) : '\r' ∉ s :=
  fun hc => absurd (h _ hc) (by decide)

theorem carriage_not_mem_sign (negative : Bool) : '\r' ∉ (if negative then ['-'] else []) := by
  cases negative
  all_goals simp

theorem carriage_not_mem_printInt (x : Int) : '\r' ∉ printInt x := by
  have hsign := carriage_not_mem_sign (decide (x < 0))
  rw [printInt_eq_sign, List.mem_append, not_or]
  exact ⟨by simpa only [decide_eq_true_eq] using hsign, carriage_not_mem_digits (toDigits_isDigit _)⟩

theorem carriage_not_mem_printPlaces (places n : Nat) : '\r' ∉ printPlaces places n := by
  have hdigits := fun k => carriage_not_mem_digits (toDigits_isDigit k)
  unfold printPlaces
  split
  · exact hdigits n
  · simp [hdigits]

theorem carriage_not_mem_printDouble (places : Nat) (x : Double) : '\r' ∉ printDouble places x := by
  cases x with
  | finite negative magnitude =>
    have hsign := carriage_not_mem_sign negative
    have hplaces := carriage_not_mem_printPlaces places
    simp only [printDouble, List.mem_append, not_or]
    exact ⟨hsign, hplaces _⟩
  | infinite negative | nan negative =>
    have hsign := carriage_not_mem_sign negative
    simp only [printDouble, List.mem_append, not_or]
    exact ⟨hsign, by decide⟩

theorem carriage_not_mem_printChains (cs : Nat → Int) (j k : Nat) : '\r' ∉ printChains cs j k := by
  induction k generalizing j with
  | zero => exact carriage_not_mem_printInt _
  | succ k ih => simp [printChains, carriage_not_mem_printInt, ih]

theorem carriage_not_mem_printGroups (m : Nat) (ts : Nat → Int) (cs : Nat → Nat → Int)
    (i k : Nat) : '\r' ∉ printGroups m ts cs i k := by
  have hgroup : ∀ i, '\r' ∉ groupText m (ts i) (cs i) := fun i => by
    simp [groupText, carriage_not_mem_printInt, carriage_not_mem_printChains]
  induction k generalizing i with
  | zero => exact hgroup i
  | succ k ih => simp [printGroups, hgroup, ih]

end Texts

section Report
variable {p : Platform} {args : List CStr} {e : Experiment}

theorem carriage_not_mem_domainMap (h : parseArgs p args = .accepted e) {map : CStr}
    (hmap : e.domainMap = some map) :
    '\r' ∉ map := by
  have htables := tables_of_parseArgs h
  have haccepted := accepted_of_parseArgs h
  obtain ⟨n, hn⟩ := Int.eq_ofNat_of_zero_le (show 0 ≤ e.numThreads by
    have := haccepted.numThreads_pos
    omega)
  obtain ⟨m, hm⟩ := Int.eq_ofNat_of_zero_le (show 0 ≤ e.chainsPerThread by
    have := haccepted.chainsPerThread_pos
    omega)
  have hthreads := htables.numThreads_lt
  have hchains := htables.chainsPerThread_lt
  unfold Experiment.domainMap at hmap
  rw [hn, hm] at hmap
  rw [hn] at hthreads
  rw [hm] at hchains
  have hprint := printMap_of_lt (n := n) (m := m) (by omega) (by omega)
    (fun i => (e.threadDomain.getD i none).getD 0)
    (fun i j => ((e.chainDomain.getD i []).getD j none).getD 0)
  rw [hprint, Option.some.injEq] at hmap
  rw [← hmap]
  exact carriage_not_mem_printGroups m _ _ 0 (n - 1)

end Report

section Rows
variable (a : Arithmetic) (e : Experiment) (ops : Int) (ckRes secs : Double)

def reportFields : List Csv.Field :=
  csvFields a e ops secs ckRes (e.access.getD "") (e.placement.getD "") (e.domainMap.getD [])

def reportRow : List CStr := (reportFields a e ops ckRes secs).map Csv.Field.value

end Rows

/-- A file that the reports of several runs are collected in, and the values printed there:
one report that begins with the header, then reports without it. -/
inductive Collected (a : Arithmetic) : CStr → List (List CStr) → Prop
  | header {p : Platform} {args : List CStr} {e : Experiment} {ops iterations : Int}
      {seconds : List Double} {ckRes : Double} {report : CStr}
      (accepted : parseArgs p args = .accepted e) (mode : e.outputMode = .header)
      (prints : Output.print a { e with iterations } ops seconds ckRes = some report) :
      Collected a report [columns]
  | both {p : Platform} {args : List CStr} {e : Experiment} {ops iterations : Int}
      {seconds : List Double} {ckRes : Double} {report : CStr}
      (accepted : parseArgs p args = .accepted e) (mode : e.outputMode = .both)
      (prints : Output.print a { e with iterations } ops seconds ckRes = some report) :
      Collected a report (columns :: seconds.map (reportRow a { e with iterations } ops ckRes))
  | append {file : CStr} {rows : List (List CStr)} {p : Platform} {args : List CStr}
      {e : Experiment} {ops iterations : Int} {seconds : List Double} {ckRes : Double}
      {report : CStr} (before : Collected a file rows)
      (accepted : parseArgs p args = .accepted e) (mode : e.outputMode = .csv)
      (prints : Output.print a { e with iterations } ops seconds ckRes = some report) :
      Collected a (file ++ report)
        (rows ++ seconds.map (reportRow a { e with iterations } ops ckRes))

section Collected
variable {a : Arithmetic} {p : Platform} {args : List CStr} {e : Experiment}

theorem carriage_not_mem_csvFields {access placement : String} {map : CStr}
    (haccess : e.access = some access) (hplacement : e.placement = some placement)
    (hmap : '\r' ∉ map) (ops : Int) (ckRes secs : Double) :
    ∀ f ∈ csvFields a e ops secs ckRes access placement map, '\r' ∉ f.value := by
  have hhint : '\r' ∉ (prefetchHintString e.prefetchHint).toList := by
    cases e.prefetchHint
    all_goals decide
  have hoperation : '\r' ∉ (operationString e.memOperation).toList := by
    cases e.memOperation
    all_goals decide
  have haccess' : '\r' ∉ access.toList := by
    have hnames : ∀ name ∈ ["random", "forward", "reverse"], '\r' ∉ name.toList := by decide
    exact hnames access (access_mem haccess)
  have hplacement' : '\r' ∉ placement.toList := by
    have hnames : ∀ name ∈ ["local", "xor", "add", "map"], '\r' ∉ name.toList := by decide
    exact hnames placement (placement_mem hplacement)
  simp only [csvFields, List.forall_mem_cons, Csv.Field.value]
  simp [carriage_not_mem_printInt, carriage_not_mem_printDouble, hhint, hoperation, haccess',
    hplacement', hmap]

theorem csv_of_parseArgs (h : parseArgs p args = .accepted e) (iterations ops : Int)
    (ckRes secs : Double) :
    Output.csv a { e with iterations } ops secs ckRes =
        some (rowText (reportFields a { e with iterations } ops ckRes secs)) ∧
      ProperRow (reportFields a { e with iterations } ops ckRes secs) ∧
      ∀ f ∈ reportFields a { e with iterations } ops ckRes secs, '\r' ∉ f.value := by
  obtain ⟨map, hmap, hquote⟩ := domainMap_of_parseArgs h
  obtain ⟨access, placement, haccess, hplacement⟩ := names_of_parseArgs h iterations
  have hmap' : Experiment.domainMap { e with iterations } = some map := hmap
  have hfields : reportFields a { e with iterations } ops ckRes secs =
      csvFields a { e with iterations } ops secs ckRes access placement map := by
    rw [reportFields, haccess, hplacement, hmap']
    rfl
  rw [hfields]
  exact ⟨csv_eq haccess hplacement hmap' hquote, properRow_csvFields map haccess hplacement,
    carriage_not_mem_csvFields haccess hplacement (carriage_not_mem_domainMap h hmap) ops ckRes secs⟩

def Lines (text : CStr) (rows : List (List CStr)) : Prop :=
  ∃ fields : List (List Csv.Field), text = fields.flatMap rowText ∧
    rows = fields.map (List.map Csv.Field.value) ∧
    ∀ row ∈ fields, ProperRow row ∧ ∀ f ∈ row, '\r' ∉ f.value

theorem Lines.append {text text' : CStr} {rows rows' : List (List CStr)} (h : Lines text rows)
    (h' : Lines text' rows') : Lines (text ++ text') (rows ++ rows') := by
  obtain ⟨fields, rfl, rfl, hproper⟩ := h
  obtain ⟨fields', rfl, rfl, hproper'⟩ := h'
  exact ⟨fields ++ fields', List.flatMap_append.symm, List.map_append.symm,
    List.forall_mem_append.mpr ⟨hproper, hproper'⟩⟩

theorem lines_header : Lines Output.header [columns] := by
  refine ⟨[columns.map .plain], ?_, ?_, ?_⟩
  · rw [List.flatMap_singleton, header_eq]
  · rw [List.map_singleton, List.map_map]
    rfl
  · have hcarriage : ∀ name ∈ columns, '\r' ∉ name := by decide +kernel
    intro row hrow
    rw [List.mem_singleton.mp hrow]
    exact ⟨properRow_columns, List.forall_mem_map.mpr hcarriage⟩

theorem lines_csv (h : parseArgs p args = .accepted e) (iterations ops : Int) (ckRes : Double)
    (seconds : List Double) :
    ∃ rows, (seconds.mapM fun secs => Output.csv a { e with iterations } ops secs ckRes) =
        some rows ∧
      Lines rows.flatten (seconds.map (reportRow a { e with iterations } ops ckRes)) := by
  have hprint : (seconds.mapM fun secs => Output.csv a { e with iterations } ops secs ckRes) =
      some (seconds.map fun secs =>
        rowText (reportFields a { e with iterations } ops ckRes secs)) := by
    simp only [fun secs => (csv_of_parseArgs (a := a) h iterations ops ckRes secs).1]
    exact List.mapM_pure
  refine ⟨_, hprint, seconds.map (reportFields a { e with iterations } ops ckRes), ?_, ?_, ?_⟩
  · rw [List.flatMap_map, List.flatMap_def]
  · rw [List.map_map]
    rfl
  · intro row hrow
    obtain ⟨secs, _, rfl⟩ := List.mem_map.mp hrow
    exact (csv_of_parseArgs h iterations ops ckRes secs).2

theorem print_header {ops : Int} {seconds : List Double} {ckRes : Double}
    (hmode : e.outputMode = .header) :
    Output.print a e ops seconds ckRes = some Output.header := by
  rw [Output.print, hmode]

theorem print_csv {ops : Int} {seconds : List Double} {ckRes : Double} {rows : List CStr}
    (hmode : e.outputMode = .csv)
    (hrows : (seconds.mapM fun secs => Output.csv a e ops secs ckRes) = some rows) :
    Output.print a e ops seconds ckRes = some rows.flatten := by
  rw [Output.print, hmode, hrows]
  rfl

theorem print_both {ops : Int} {seconds : List Double} {ckRes : Double} {rows : List CStr}
    (hmode : e.outputMode = .both)
    (hrows : (seconds.mapM fun secs => Output.csv a e ops secs ckRes) = some rows) :
    Output.print a e ops seconds ckRes = some (Output.header ++ rows.flatten) := by
  rw [Output.print, hmode, hrows]
  rfl

theorem Collected.lines {file : CStr} {rows : List (List CStr)} (h : Collected a file rows) :
    Lines file rows := by
  induction h with
  | @header _ _ e _ iterations _ _ _ accepted mode prints =>
    rw [print_header (e := { e with iterations }) mode, Option.some.injEq] at prints
    subst prints
    exact lines_header
  | @both _ _ e ops iterations seconds ckRes _ accepted mode prints =>
    obtain ⟨texts, htexts, hlines⟩ := lines_csv (a := a) accepted iterations ops ckRes seconds
    rw [print_both (e := { e with iterations }) mode htexts, Option.some.injEq] at prints
    subst prints
    exact lines_header.append hlines
  | @append _ _ _ _ e ops iterations seconds ckRes _ before accepted mode prints ih =>
    obtain ⟨texts, htexts, hlines⟩ := lines_csv (a := a) accepted iterations ops ckRes seconds
    rw [print_csv (e := { e with iterations }) mode htexts, Option.some.injEq] at prints
    subst prints
    exact ih.append hlines

theorem carriage_not_mem_rowText {row : List Csv.Field} (h : ∀ f ∈ row, '\r' ∉ f.value) :
    '\r' ∉ rowText row := by
  rw [rowText_eq, List.mem_append, not_or]
  exact ⟨carriage_not_mem_join h, by decide⟩

theorem Lines.readFile_eq {file : CStr} {rows : List (List CStr)} (h : Lines file rows) :
    readFile file = rows := by
  obtain ⟨fields, rfl, rfl, hproper⟩ := h
  have hcarriage : '\r' ∉ fields.flatMap rowText := by
    intro hmem
    obtain ⟨row, hrow, hr⟩ := List.mem_flatMap.mp hmem
    exact carriage_not_mem_rowText (hproper row hrow).2 hr
  have hlines := universalNewlines_append hcarriage []
  rw [List.append_nil, universalNewlines, List.append_nil] at hlines
  rw [readFile, hlines]
  exact readCsv_rows fields fun row hrow => (hproper row hrow).1

theorem Collected.rows_eq {file : CStr} {rows : List (List CStr)} (h : Collected a file rows) :
    ∃ values, rows = columns :: values ∧ ∀ row ∈ rows, row.length = columns.length := by
  have hvalues : ∀ (e : Experiment) ops ckRes (seconds : List Double) row,
      row ∈ seconds.map (reportRow a e ops ckRes) → row.length = columns.length := by
    intro e ops ckRes seconds row hrow
    obtain ⟨secs, _, rfl⟩ := List.mem_map.mp hrow
    exact List.length_map _
  induction h with
  | header => exact ⟨[], rfl, by simp⟩
  | both => exact ⟨_, rfl, List.forall_mem_cons.mpr ⟨rfl, hvalues _ _ _ _⟩⟩
  | append _ _ _ _ ih =>
    obtain ⟨values, rfl, hlen⟩ := ih
    exact ⟨_, rfl, List.forall_mem_append.mpr ⟨hlen, hvalues _ _ _ _⟩⟩

theorem columns_nodup : columns.Nodup := by decide +kernel

theorem columnNames_of_collected {file : CStr} {rows : List (List CStr)}
    (h : Collected a file rows) : columnNames rows = columns := by
  obtain ⟨values, hrows, hlen⟩ := h.rows_eq
  have hshort : shortest rows = columns.length := shortest_eq (by simp [hrows]) hlen
  rw [columnNames, hshort, hrows, List.headD_cons, List.take_length]

/-- Of the file that runs of the program have been collected in, the script makes the columns
that it is asked for, with the values that each run has printed there, and nothing if one of
them is not a column or is asked for twice, or if a run has printed a value, such as a map of
many threads, that is longer than the limit. -/
theorem collected_converts {file : CStr} {rows : List (List CStr)} (h : Collected a file rows)
    (arg : CStr) :
    readFile file = rows ∧
      (FieldsFit fieldSizeLimit rows ∧ (arg.splitOn ',').Nodup ∧
          (∀ name ∈ arg.splitOn ',', name ∈ columns) →
        readFile (convert file arg) = rows.map fun row =>
          (arg.splitOn ',').map fun name => row.getD (columns.idxOf name) []) ∧
      (¬ (FieldsFit fieldSizeLimit rows ∧ (arg.splitOn ',').Nodup ∧
          ∀ name ∈ arg.splitOn ',', name ∈ columns) →
        convert file arg = []) := by
  have hread := h.lines.readFile_eq
  have hnames := columnNames_of_collected h
  have hselects : Selects (readFile file) (arg.splitOn ',') ↔
      (arg.splitOn ',').Nodup ∧ ∀ name ∈ arg.splitOn ',', name ∈ columns := by
    rw [hread, Selects, hnames]
  refine ⟨hread, fun ⟨hfit, hselected⟩ => ?_, fun hnot => ?_⟩
  · obtain ⟨place, hplace, hrows⟩ := readFile_convert (hread ▸ hfit) (hselects.mpr hselected)
    rw [hrows, hread]
    apply List.map_congr_left
    intro row _
    apply List.map_congr_left
    intro name hname
    have hlast := hplace name hname
    rw [hread] at hlast
    rw [← hlast.idxOf_eq (hnames ▸ columns_nodup), hnames]
  · by_cases hfit : FieldsFit fieldSizeLimit rows
    · exact convert_of_not_selects fun hs => hnot ⟨hfit, hselects.mp hs⟩
    · exact convert_of_long (hread ▸ hfit)

/-- The file of a run with two threads of two chains, cut down to the quoted map and the
number of threads. -/
theorem threads_of_collected : ∃ file rows, Collected exactArithmetic file rows ∧
    readFile (convert file "domain map,number of threads".toList) =
      [["domain map".toList, "number of threads".toList], ["0:0,0;0:0,0".toList, ['2']]] := by
  have hheader : ∃ e, parseArgs .single ["-o".toList, "hdr".toList] = .accepted e ∧
      e.outputMode = .header := ⟨_, rfl, rfl⟩
  have hcsv : ∃ e, parseArgs .single ["-t".toList, "2".toList, "-r".toList, "2".toList,
      "-o".toList, "csv".toList] = .accepted e ∧ e.outputMode = .csv ∧
      FieldsFit fieldSizeLimit [columns,
        reportRow exactArithmetic { e with iterations := 3 } 262144 (.ofRat 1) (.ofRat 1)] ∧
      e.domainMap = some "0:0,0;0:0,0".toList ∧ e.numThreads = 2 :=
    ⟨_, rfl, rfl, by decide +kernel, rfl, rfl⟩
  obtain ⟨e, he, hmode⟩ := hheader
  obtain ⟨e', he', hmode', hfit, hmap, hthreads⟩ := hcsv
  obtain ⟨texts, htexts, _⟩ := lines_csv (a := exactArithmetic) he' 3 262144 (.ofRat 1) [.ofRat 1]
  have hprint : Output.print exactArithmetic { e with iterations := 1 } 0 [] (.ofRat 1) =
      some Output.header := print_header hmode
  have hfile := (Collected.header he hmode hprint).append he' hmode'
    (print_csv (e := { e' with iterations := 3 }) hmode' htexts)
  have hsplit : "domain map,number of threads".toList.splitOn ',' =
      ["domain map".toList, "number of threads".toList] := by decide +kernel
  have hplaces : columns.idxOf "domain map".toList = 18 ∧
      columns.idxOf "number of threads".toList = 7 := by decide +kernel
  have hmap' : (reportRow exactArithmetic { e' with iterations := 3 } 262144 (.ofRat 1)
      (.ofRat 1)).getD 18 [] = "0:0,0;0:0,0".toList := by
    change e'.domainMap.getD [] = _
    rw [hmap]
    rfl
  have hthreads' : (reportRow exactArithmetic { e' with iterations := 3 } 262144 (.ofRat 1)
      (.ofRat 1)).getD 7 [] = ['2'] := by
    change printInt e'.numThreads = _
    rw [hthreads]
    rfl
  refine ⟨_, _, hfile, ?_⟩
  rw [((collected_converts hfile "domain map,number of threads".toList).2.1
    ⟨hfit, by decide +kernel⟩), hsplit]
  simp only [List.map_cons, List.map_nil, List.singleton_append, hplaces.1, hplaces.2, hmap',
    hthreads']
  rfl

end Collected

end PChase
