import Mathlib.Data.List.Induction
import Mathlib.Data.List.Nodup
import PChase.CsvWriter

/-!
# The script that selects columns

`scripts/convert.py` reads a report and writes the columns that its second argument names.
The output is the projection of the rows to these columns, in the order in which they are
named. Where one is missing or named twice, or a field is too long to be read, there is no
output at all.
-/

namespace PChase

open Csv
set_option autoImplicit false

section Zip
variable {α : Type}

def shortest (rows : List (List α)) : Nat := ((rows.map List.length).min?).getD 0

/-- `zip(*rows)` -/
def zipRows (rows : List (List α)) : List (List α) :=
  (List.range (shortest rows)).map fun j => rows.filterMap (·[j]?)

end Zip

/-- `data[headers.index(col[0])] = col`, unless no header has this name. -/
def takeColumn (headers : List (List Char)) (data : List (List (List Char))) (col : List (List Char)) :
    List (List (List Char)) :=
  match col with
  | [] => data
  | name :: _ => if name ∈ headers then data.set (headers.idxOf name) col else data

def convertData (headers : List (List Char)) (rows : List (List (List Char))) : List (List (List Char)) :=
  (zipRows rows).foldl (takeColumn headers) (headers.map fun _ => [])

/-- `csv.field_size_limit()` -/
def fieldSizeLimit : Nat := 131072

/-- What the script writes for a file and its second argument. -/
def convert (file arg : List Char) : List Char :=
  match readWithin fieldSizeLimit (universalNewlines file) with
  | none => []
  | some rows => writeRows (zipRows (convertData (arg.splitOn ',') rows))

section Zip
variable {α : Type} {rows : List (List α)}

theorem shortest_le {row : List α} (h : row ∈ rows) : shortest rows ≤ row.length := by
  unfold shortest
  cases hmin : (rows.map List.length).min? with
  | none => exact Nat.zero_le _
  | some n => exact (List.min?_eq_some_iff.mp hmin).2 _ (List.mem_map_of_mem h)

theorem shortest_mem (hne : rows ≠ []) : ∃ row ∈ rows, row.length = shortest rows := by
  unfold shortest
  cases hmin : (rows.map List.length).min? with
  | none => simp [hne] at hmin
  | some n => simpa using (List.min?_eq_some_iff.mp hmin).1

theorem length_zipRows (rows : List (List α)) : (zipRows rows).length = shortest rows := by
  simp [zipRows]

/-- Within the reach of all rows a column has an entry of each. -/
theorem column_eq (x : α) {j : Nat} (hj : j < shortest rows) :
    (zipRows rows)[j]? = some (rows.map fun row => row.getD j x) := by
  rw [zipRows, List.getElem?_map, List.getElem?_range hj, Option.map_some, Option.some.injEq]
  have hall : ∀ row ∈ rows, row[j]? = some (row.getD j x) := by
    intro row hrow
    have hlt := Nat.lt_of_lt_of_le hj (shortest_le hrow)
    rw [List.getElem?_eq_getElem hlt, List.getD_eq_getElem?_getD, List.getElem?_eq_getElem hlt]
    rfl
  rw [List.filterMap_congr hall]
  exact congrFun List.filterMap_eq_map rows

end Zip

section Data
variable {headers : List (List Char)}

def lastNamed (cols : List (List (List Char))) (name : List Char) : Option (List (List Char)) :=
  cols.reverse.find? fun col => col.head? == some name

theorem lastNamed_append (cols : List (List (List Char))) (col : List (List Char))
    (name : List Char) : lastNamed (cols ++ [col]) name =
      if col.head? = some name then some col else lastNamed cols name := by
  rw [lastNamed, List.reverse_append, List.reverse_singleton, List.singleton_append,
    List.find?_cons]
  by_cases h : col.head? = some name
  · have hfound : (col.head? == some name) = true := beq_iff_eq.mpr h
    rw [hfound, if_pos h]
  · have hnot : (col.head? == some name) = false := beq_eq_false_iff_ne.mpr h
    rw [hnot, if_neg h]
    rfl

theorem length_takeColumn (data : List (List (List Char))) (col : List (List Char)) :
    (takeColumn headers data col).length = data.length := by
  unfold takeColumn
  split
  · rfl
  · split
    · exact List.length_set
    · rfl

theorem length_takeColumns (headers : List (List Char)) (cols data : List (List (List Char))) :
    (cols.foldl (takeColumn headers) data).length = data.length := by
  induction cols generalizing data with
  | nil => rfl
  | cons col cols ih => rw [List.foldl_cons, ih, length_takeColumn]

/-- A header gets the last column of its name, but only where it stands for the first time. -/
theorem takeColumns (cols : List (List (List Char))) {i : Nat} (hi : i < headers.length) :
    (cols.foldl (takeColumn headers) (headers.map fun _ => []))[i]? =
      some (if headers.idxOf headers[i] = i then (lastNamed cols headers[i]).getD [] else []) := by
  induction cols using List.reverseRecOn with
  | nil => simp [lastNamed, hi]
  | append_singleton cols col ih =>
    rw [List.foldl_concat, lastNamed_append]
    cases col with
    | nil => simpa [takeColumn] using ih
    | cons name col =>
      have hlen := length_takeColumns headers cols (headers.map fun _ => [])
      rw [List.length_map] at hlen
      simp only [takeColumn, List.head?_cons, Option.some.injEq]
      by_cases hmem : name ∈ headers
      · rw [if_pos hmem, List.getElem?_set]
        by_cases hplace : headers.idxOf name = i
        · have hname : headers[i] = name := by
            subst hplace
            exact List.getElem_idxOf hi
          rw [if_pos hplace, if_pos (by omega)]
          simp [hplace, hname]
        · rw [if_neg hplace, ih]
          by_cases hname : name = headers[i]
          · rw [← hname, if_neg hplace]
            simp [hplace]
          · simp [hname]
      · have hname : name ≠ headers[i] := fun h => hmem (h ▸ List.getElem_mem hi)
        rw [if_neg hmem, ih]
        simp [hname]

theorem lastNamed_eq_none_iff (cols : List (List (List Char))) (name : List Char) :
    lastNamed cols name = none ↔ ∀ col ∈ cols, col.head? ≠ some name := by
  simp [lastNamed]

theorem lastNamed_spec {cols : List (List (List Char))} {name : List Char}
    {col : List (List Char)} (h : lastNamed cols name = some col) :
    ∃ j, cols[j]? = some col ∧ col.head? = some name ∧
      ∀ (k : Nat) (c : List (List Char)), cols[k]? = some c → c.head? = some name → k ≤ j := by
  induction cols using List.reverseRecOn with
  | nil => simp [lastNamed] at h
  | append_singleton cols last ih =>
    rw [lastNamed_append] at h
    split at h
    · rename_i hlast
      obtain rfl := Option.some.inj h
      refine ⟨cols.length, by simp, hlast, ?_⟩
      intro k c hk _
      have hlt := (List.getElem?_eq_some_iff.mp hk).1
      rw [List.length_append, List.length_singleton] at hlt
      omega
    · rename_i hlast
      obtain ⟨j, hj, hhead, hmost⟩ := ih h
      have hlt := (List.getElem?_eq_some_iff.mp hj).1
      refine ⟨j, by rw [List.getElem?_append_left hlt, hj], hhead, ?_⟩
      intro k c hk hc
      by_cases hkl : k < cols.length
      · rw [List.getElem?_append_left hkl] at hk
        exact hmost k c hk hc
      · rw [List.getElem?_append_right (by omega), List.getElem?_singleton] at hk
        split at hk
        · obtain rfl := Option.some.inj hk
          exact absurd hc hlast
        · simp at hk

end Data

section Selection
variable (rows : List (List (List Char)))

def columnNames : List (List Char) := (rows.headD []).take (shortest rows)

/-- The headers name columns, and no two of them the same. -/
def Selects (headers : List (List Char)) : Prop :=
  headers.Nodup ∧ ∀ h ∈ headers, h ∈ columnNames rows

instance (headers : List (List Char)) : Decidable (Selects rows headers) :=
  inferInstanceAs (Decidable (_ ∧ _))

def LastPlace (name : List Char) (j : Nat) : Prop :=
  (columnNames rows)[j]? = some name ∧ ∀ k, (columnNames rows)[k]? = some name → k ≤ j

variable {rows} {headers : List (List Char)}

theorem head_column (j : Nat) (col : List (List Char)) (name : List Char)
    (h : (zipRows rows)[j]? = some col) : col.head? = some name ↔ (columnNames rows)[j]? = some name := by
  have hj : j < shortest rows := by
    rw [← length_zipRows]
    exact (List.getElem?_eq_some_iff.mp h).1
  rw [column_eq [] hj, Option.some.injEq] at h
  subst h
  rw [columnNames, List.getElem?_take_of_lt hj]
  cases rows with
  | nil => simp [shortest] at hj
  | cons row rows =>
    have hlt : j < row.length := Nat.lt_of_lt_of_le hj (shortest_le (List.mem_cons_self ..))
    simp [List.getD_eq_getElem?_getD, List.getElem?_eq_getElem hlt]

/-- What a header gets: the last column of its name. -/
theorem lastNamed_columns {name : List Char} (h : name ∈ columnNames rows) :
    ∃ j, LastPlace rows name j ∧
      lastNamed (zipRows rows) name = some (rows.map fun row => row.getD j []) := by
  cases hlast : lastNamed (zipRows rows) name with
  | none =>
    obtain ⟨j, hj, hname⟩ := List.mem_iff_getElem.mp h
    have hlt : j < shortest rows := by
      rw [columnNames, List.length_take] at hj
      omega
    have hcol := column_eq ([] : List Char) hlt
    have hnone := (lastNamed_eq_none_iff _ _).mp hlast _ (List.mem_of_getElem? hcol)
    exact absurd ((head_column j _ name hcol).mpr (by rw [List.getElem?_eq_getElem hj, hname])) hnone
  | some col =>
    obtain ⟨j, hj, hhead, hmost⟩ := lastNamed_spec hlast
    have hlt : j < shortest rows := by
      rw [← length_zipRows]
      exact (List.getElem?_eq_some_iff.mp hj).1
    refine ⟨j, ⟨(head_column j col name hj).mp hhead, ?_⟩, ?_⟩
    · intro k hk
      have hklt : k < shortest rows := by
        have := (List.getElem?_eq_some_iff.mp hk).1
        rw [columnNames, List.length_take] at this
        omega
      have hcol := column_eq ([] : List Char) hklt
      exact hmost k _ hcol ((head_column k _ name hcol).mpr hk)
    · rw [column_eq [] hlt] at hj
      exact hj.symm

theorem convertData_of_selects (h : Selects rows headers) {place : List Char → Nat}
    (hplace : ∀ name ∈ headers, LastPlace rows name (place name) ∧
      lastNamed (zipRows rows) name = some (rows.map fun row => row.getD (place name) [])) :
    convertData headers rows =
      headers.map fun name => rows.map fun row => row.getD (place name) [] := by
  apply List.ext_getElem?
  intro i
  by_cases hi : i < headers.length
  · rw [convertData, takeColumns _ hi, if_pos (h.1.idxOf_getElem i hi), List.getElem?_map,
      List.getElem?_eq_getElem hi, (hplace _ (List.getElem_mem hi)).2]
    rfl
  · have hlen := length_takeColumns headers (zipRows rows) (headers.map fun _ => [])
    rw [List.length_map] at hlen
    rw [convertData, List.getElem?_eq_none (by omega), List.getElem?_eq_none (by
      rw [List.length_map]
      omega)]

/-- Otherwise one of them is left empty. -/
theorem empty_mem_convertData (h : ¬ Selects rows headers) : [] ∈ convertData headers rows := by
  have hsplit : (∃ i, ∃ hi : i < headers.length, headers.idxOf headers[i] ≠ i) ∨
      ∃ i, ∃ hi : i < headers.length, headers[i] ∉ columnNames rows := by
    by_contra hnot
    simp only [not_or, not_exists, not_not] at hnot
    refine h ⟨List.nodup_iff_getElem?_ne_getElem?.mpr ?_, ?_⟩
    · intro i j hij hj heq
      have hi : i < headers.length := by omega
      rw [List.getElem?_eq_getElem hi, List.getElem?_eq_getElem hj, Option.some.injEq] at heq
      have hfirst := hnot.1 i hi
      rw [heq, hnot.1 j hj] at hfirst
      omega
    · intro name hname
      obtain ⟨i, hi, rfl⟩ := List.mem_iff_getElem.mp hname
      exact hnot.2 i hi
  rcases hsplit with ⟨i, hi, hfirst⟩ | ⟨i, hi, hmissing⟩
  · refine List.mem_of_getElem? (i := i) ?_
    rw [convertData, takeColumns _ hi, if_neg hfirst]
  · refine List.mem_of_getElem? (i := i) ?_
    have hnone : lastNamed (zipRows rows) headers[i] = none := by
      rw [lastNamed_eq_none_iff]
      intro col hcol hhead
      obtain ⟨j, hj, rfl⟩ := List.mem_iff_getElem.mp hcol
      have hname := (head_column j _ _ (List.getElem?_eq_getElem hj)).mp hhead
      exact hmissing (List.mem_of_getElem? hname)
    rw [convertData, takeColumns _ hi, hnone]
    split
    all_goals rfl

theorem shortest_eq {data : List (List (List Char))} {n : Nat} (hne : data ≠ [])
    (h : ∀ col ∈ data, col.length = n) : shortest data = n := by
  obtain ⟨col, hcol, hlen⟩ := shortest_mem hne
  rw [← hlen, h col hcol]

/-- Turned back into rows, the named columns are the projection of the rows. -/
theorem zipRows_of_selects (hne : headers ≠ []) (place : List Char → Nat) :
    zipRows (headers.map fun name => rows.map fun row => row.getD (place name) []) =
      rows.map fun row => headers.map fun name => row.getD (place name) [] := by
  have hshort : shortest (headers.map fun name => rows.map fun row => row.getD (place name) []) =
      rows.length := by
    refine shortest_eq (by simpa using hne) ?_
    intro col hcol
    obtain ⟨name, _, rfl⟩ := List.mem_map.mp hcol
    exact List.length_map _
  apply List.ext_getElem?
  intro k
  by_cases hk : k < rows.length
  · rw [column_eq [] (hshort ▸ hk), List.map_map, List.getElem?_map, List.getElem?_eq_getElem hk]
    simp [List.getD_eq_getElem?_getD, List.getElem?_eq_getElem hk]
  · rw [List.getElem?_eq_none (by
        rw [length_zipRows, hshort]
        omega), List.getElem?_eq_none (by
        rw [List.length_map]
        omega)]

/-- The rows of the output: a projection, or none. -/
theorem zipRows_convertData (hne : headers ≠ []) :
    (Selects rows headers → ∃ place : List Char → Nat,
      (∀ name ∈ headers, LastPlace rows name (place name)) ∧
      zipRows (convertData headers rows) =
        rows.map fun row => headers.map fun name => row.getD (place name) []) ∧
      (¬ Selects rows headers → zipRows (convertData headers rows) = []) := by
  constructor
  · intro h
    have hcolumns : ∀ name, ∃ j, name ∈ headers → LastPlace rows name j ∧
        lastNamed (zipRows rows) name = some (rows.map fun row => row.getD j []) := by
      intro name
      by_cases hname : name ∈ headers
      · obtain ⟨j, hj⟩ := lastNamed_columns (h.2 name hname)
        exact ⟨j, fun _ => hj⟩
      · exact ⟨0, fun hmem => absurd hmem hname⟩
    choose place hplace using hcolumns
    refine ⟨place, fun name hname => (hplace name hname).1, ?_⟩
    rw [convertData_of_selects h hplace, zipRows_of_selects hne]
  · intro h
    have hshort := shortest_le (empty_mem_convertData h)
    rw [List.length_nil, Nat.le_zero] at hshort
    rw [zipRows, hshort]
    rfl

end Selection

theorem LastPlace.idxOf_eq {rows : List (List (List Char))} {name : List Char} {j : Nat}
    (h : LastPlace rows name j) (hnames : (columnNames rows).Nodup) :
    (columnNames rows).idxOf name = j := by
  obtain ⟨hlt, hat⟩ := List.getElem?_eq_some_iff.mp h.1
  rw [← hat]
  exact hnames.idxOf_getElem j hlt

section Script
variable {file arg : List Char}

theorem convert_eq (h : FieldsFit fieldSizeLimit (readFile file)) :
    convert file arg = writeRows (zipRows (convertData (arg.splitOn ',') (readFile file))) := by
  rw [convert, readWithin_eq, ← readFile, if_pos h]

theorem convert_of_long (h : ¬ FieldsFit fieldSizeLimit (readFile file)) :
    convert file arg = [] := by
  rw [convert, readWithin_eq, ← readFile, if_neg h]

theorem convert_of_not_selects (h : ¬ Selects (readFile file) (arg.splitOn ',')) :
    convert file arg = [] := by
  by_cases hfit : FieldsFit fieldSizeLimit (readFile file)
  · rw [convert_eq hfit, (zipRows_convertData (List.splitOn_ne_nil ',' arg)).2 h]
    rfl
  · exact convert_of_long hfit

theorem readFile_convert (hfit : FieldsFit fieldSizeLimit (readFile file))
    (h : Selects (readFile file) (arg.splitOn ',')) :
    ∃ place : List Char → Nat,
      (∀ name ∈ arg.splitOn ',', LastPlace (readFile file) name (place name)) ∧
      readFile (convert file arg) = (readFile file).map fun row =>
        (arg.splitOn ',').map fun name => row.getD (place name) [] := by
  obtain ⟨place, hplace, hrows⟩ := (zipRows_convertData (List.splitOn_ne_nil ',' arg)).1 h
  refine ⟨place, hplace, ?_⟩
  rw [convert_eq hfit, hrows]
  apply readFile_writeRows
  intro fields hfields
  obtain ⟨row, hrow, rfl⟩ := List.mem_map.mp hfields
  refine ⟨by simp, ?_⟩
  intro f hf
  obtain ⟨name, hname, rfl⟩ := List.mem_map.mp hf
  rw [List.getD_eq_getElem?_getD]
  cases hfield : row[place name]? with
  | none => simp
  | some f => exact carriage_not_mem_readFile hrow (List.mem_of_getElem? hfield)

theorem fieldsFit_projection {rows : List (List (List Char))} {limit : Nat}
    (h : FieldsFit limit rows) (headers : List (List Char)) (place : List Char → Nat) :
    FieldsFit limit (rows.map fun row => headers.map fun name => row.getD (place name) []) := by
  intro fields hfields f hf
  obtain ⟨row, hrow, rfl⟩ := List.mem_map.mp hfields
  obtain ⟨name, _, rfl⟩ := List.mem_map.mp hf
  rw [List.getD_eq_getElem?_getD]
  cases hfield : row[place name]? with
  | none => exact Nat.zero_le limit
  | some f => exact h row hrow f (List.mem_of_getElem? hfield)

end Script

/-- For every file and every list of headers: where no field is longer than the limit and the
headers name columns and are distinct, the output is read back as the rows cut down to the
named columns, in the order of the headers and from the last column of a name; otherwise
nothing is written. -/
theorem convert_projects (file arg : List Char) :
    (FieldsFit fieldSizeLimit (readFile file) ∧ Selects (readFile file) (arg.splitOn ',') →
      ∃ place : List Char → Nat,
        (∀ name ∈ arg.splitOn ',', LastPlace (readFile file) name (place name)) ∧
        readFile (convert file arg) = (readFile file).map fun row =>
          (arg.splitOn ',').map fun name => row.getD (place name) []) ∧
    (¬ (FieldsFit fieldSizeLimit (readFile file) ∧ Selects (readFile file) (arg.splitOn ',')) →
      convert file arg = []) := by
  refine ⟨fun h => readFile_convert h.1 h.2, fun h => ?_⟩
  by_cases hfit : FieldsFit fieldSizeLimit (readFile file)
  · exact convert_of_not_selects fun hs => h ⟨hfit, hs⟩
  · exact convert_of_long hfit

/-- A quoted field is selected, and a column that is not there refused. -/
theorem quoted_column_projected :
    readFile (convert "a,b,c\n1,\"2,3\",4\n".toList "c,b".toList) =
      [["c".toList, "b".toList], ["4".toList, "2,3".toList]] ∧
    convert "a,b,c\n1,\"2,3\",4\n".toList "c,d".toList = [] := by
  have hread : readFile "a,b,c\n1,\"2,3\",4\n".toList =
      [["a".toList, "b".toList, "c".toList], ["1".toList, "2,3".toList, "4".toList]] := by
    decide +kernel
  have hnames : (columnNames (readFile "a,b,c\n1,\"2,3\",4\n".toList)).Nodup := by
    decide +kernel
  have hsplit : "c,b".toList.splitOn ',' = ["c".toList, "b".toList] := by decide +kernel
  obtain ⟨place, hplace, hrows⟩ := (convert_projects "a,b,c\n1,\"2,3\",4\n".toList
    "c,b".toList).1 (by decide +kernel)
  have hc : place "c".toList = 2 :=
    ((hplace _ (by decide +kernel)).idxOf_eq hnames).symm.trans (by decide +kernel)
  have hb : place "b".toList = 1 :=
    ((hplace _ (by decide +kernel)).idxOf_eq hnames).symm.trans (by decide +kernel)
  refine ⟨?_, (convert_projects _ _).2 (by decide +kernel)⟩
  rw [hrows, hread, hsplit]
  simp only [List.map_cons, List.map_nil, hc, hb]
  rfl

theorem LastPlace.unique {rows : List (List (List Char))} {name : List Char} {j k : Nat}
    (hj : LastPlace rows name j) (hk : LastPlace rows name k) : j = k :=
  Nat.le_antisymm (hk.2 j hj.1) (hj.2 k hk.1)

theorem columnNames_projection {rows : List (List (List Char))} {headers : List (List Char)}
    (hne : rows ≠ []) {place : List Char → Nat}
    (hplace : ∀ name ∈ headers, LastPlace rows name (place name)) :
    columnNames (rows.map fun row => headers.map fun name => row.getD (place name) []) =
      headers := by
  have hshort : shortest (rows.map fun row => headers.map fun name => row.getD (place name) []) =
      headers.length := by
    refine shortest_eq (by simpa using hne) ?_
    intro row hrow
    obtain ⟨_, _, rfl⟩ := List.mem_map.mp hrow
    exact List.length_map _
  obtain ⟨first, rest, rfl⟩ := List.exists_cons_of_ne_nil hne
  have hfirst : (headers.map fun name => first.getD (place name) []) = headers := by
    refine (List.map_congr_left fun name hname => ?_).trans (List.map_id headers)
    have hlast := (hplace name hname).1
    rw [columnNames, List.headD_cons, List.getElem?_take] at hlast
    split at hlast
    · rw [List.getD_eq_getElem?_getD, hlast]
      rfl
    · simp at hlast
  rw [columnNames, hshort, List.map_cons, List.headD_cons, hfirst, List.take_length]

theorem projection_twice {rows : List (List (List Char))} {headers headers' : List (List Char)}
    (h : Selects rows headers) (hne : headers ≠ []) (hne' : headers' ≠ [])
    (hsub : ∀ name ∈ headers', name ∈ headers) {place : List Char → Nat}
    (hplace : ∀ name ∈ headers, LastPlace rows name (place name)) :
    zipRows (convertData headers'
        (rows.map fun row => headers.map fun name => row.getD (place name) [])) =
      zipRows (convertData headers' rows) := by
  have hrows : rows ≠ [] := by
    rintro rfl
    obtain ⟨name, hname⟩ := List.exists_mem_of_ne_nil _ hne
    have hmem := h.2 name hname
    simp [columnNames] at hmem
  have hnames := columnNames_projection hrows hplace
  generalize hcut : (rows.map fun row => headers.map fun name => row.getD (place name) []) = cut
    at hnames ⊢
  by_cases hdistinct : headers'.Nodup
  · obtain ⟨place₁, hplace₁, hrows₁⟩ := (zipRows_convertData hne').1
      (show Selects rows headers' from ⟨hdistinct, fun name hname => h.2 name (hsub name hname)⟩)
    obtain ⟨place₂, hplace₂, hrows₂⟩ := (zipRows_convertData hne').1
      (show Selects cut headers' from ⟨hdistinct, fun name hname => by
        rw [hnames]
        exact hsub name hname⟩)
    rw [hrows₁, hrows₂, ← hcut, List.map_map]
    apply List.map_congr_left
    intro row _
    apply List.map_congr_left
    intro name hname
    have hheader : headers[place₂ name]? = some name := by
      rw [← hnames]
      exact (hplace₂ name hname).1
    rw [(hplace₁ name hname).unique (hplace name (hsub name hname))]
    simp [List.getD_eq_getElem?_getD, hheader]
  · rw [(zipRows_convertData hne').2 fun hs => hdistinct hs.1,
      (zipRows_convertData hne').2 fun hs => hdistinct hs.1]

/-- Selecting from a selection is selecting at once. -/
theorem convert_twice {file arg arg' : List Char}
    (h : Selects (readFile file) (arg.splitOn ','))
    (hsub : ∀ name ∈ arg'.splitOn ',', name ∈ arg.splitOn ',') :
    convert (convert file arg) arg' = convert file arg' := by
  by_cases hfit : FieldsFit fieldSizeLimit (readFile file)
  · obtain ⟨place, hplace, hrows⟩ := readFile_convert hfit h
    have htwice := projection_twice h (List.splitOn_ne_nil ',' arg)
      (List.splitOn_ne_nil ',' arg') hsub hplace
    have hfit' := fieldsFit_projection hfit (arg.splitOn ',') place
    rw [← hrows] at htwice hfit'
    rw [convert_eq hfit', htwice, convert_eq hfit]
  · rw [convert_of_long hfit, convert_of_long hfit]
    exact convert_of_not_selects fun hs => by
      obtain ⟨name, hname⟩ := List.exists_mem_of_ne_nil _ (List.splitOn_ne_nil ',' arg')
      have hmem := hs.2 name hname
      simp [readFile, universalNewlines, readCsv, Reader.finish, columnNames] at hmem

/-- A quoted field goes through both selections. -/
theorem quoted_column_twice :
    convert (convert "a,b,c\n1,\"2,3\",4\n".toList "c,b".toList) "b".toList =
      "b\r\n\"2,3\"\r\n".toList :=
  (convert_twice (by decide +kernel) (by decide +kernel)).trans (by decide +kernel)

end PChase
