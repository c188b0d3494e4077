import PChase.FieldLimit

/-!
# Writing comma-separated values

A writer that puts quotes around a field only where it must, and ends a record with a
carriage return and a line feed. Opened as a text file, where every kind of line end is
read as a line feed, what it has written is read back.
-/

namespace PChase.Csv

set_option autoImplicit false

/-- Every kind of line end as a line feed. -/
def universalNewlines : List Char → List Char
  | [] => []
  | '\r' :: '\n' :: s => '\n' :: universalNewlines s
  | '\r' :: s => '\n' :: universalNewlines s
  | c :: s => c :: universalNewlines s

def readFile (s : List Char) : List (List (List Char)) := readCsv (universalNewlines s)

def mustQuote (s : List Char) : Bool :=
  s.any fun c => c == ',' || c == '"' || c == '\r' || c == '\n'

def quoteMinimal (s : List Char) : Field := if mustQuote s then .quoted s else .plain s

/-- The fields of a record as they are written; one that would leave an empty line is quoted. -/
def rowFields : List (List Char) → List Field
  | [[]] => [.quoted []]
  | row => row.map quoteMinimal

def joinFields : List Field → List Char
  | [] => []
  | [f] => f.text
  | f :: g :: row => f.text ++ ',' :: joinFields (g :: row)

def writeRow (row : List (List Char)) : List Char := joinFields (rowFields row) ++ ['\r', '\n']

def writeRows (rows : List (List (List Char))) : List Char := rows.flatMap writeRow

theorem universalNewlines_append {s : List Char} (hs : '\r' ∉ s) (t : List Char) :
    universalNewlines (s ++ t) = s ++ universalNewlines t := by
  induction s with
  | nil => rfl
  | cons c s ih =>
    obtain ⟨hc, hs⟩ := not_or.mp (mt List.mem_cons.mpr hs)
    rw [List.cons_append, universalNewlines, ih hs]
    · rfl
    · rintro _ rfl
      exact absurd rfl hc
    · rintro rfl
      exact absurd rfl hc

theorem carriage_not_mem (s : List Char) : '\r' ∉ universalNewlines s := by
  fun_induction universalNewlines s with
  | case1 => simp
  | case2 s ih => simpa using ih
  | case3 s _ ih => simpa using ih
  | case4 c s _ hc ih => simp [ih, Ne.symm (show c ≠ '\r' from hc)]

theorem carriage_not_mem_text {f : Field} (hf : '\r' ∉ f.value) : '\r' ∉ f.text := by
  cases f with
  | plain s => exact hf
  | quoted s =>
    have hdoubled : '\r' ∉ doubleQuotes s := by
      intro hmem
      obtain ⟨c, hc, hr⟩ := List.mem_flatMap.mp hmem
      split at hr
      · rename_i hquote
        simp [hquote] at hr
      · rw [List.mem_singleton] at hr
        exact hf (hr ▸ hc)
    simp [Field.text, hdoubled]

theorem value_quoteMinimal (s : List Char) : (quoteMinimal s).value = s := by
  unfold quoteMinimal
  split <;> rfl

theorem safe_quoteMinimal (s : List Char) : (quoteMinimal s).Safe := by
  unfold quoteMinimal
  split
  · trivial
  · rename_i hplain
    intro c hc
    simp only [mustQuote, List.any_eq_true, not_exists, not_and] at hplain
    have hspecial := hplain c hc
    simp only [Bool.or_eq_true, beq_iff_eq, not_or] at hspecial
    exact ⟨hspecial.1.1.1, hspecial.1.1.2, hspecial.2⟩

theorem values_rowFields (row : List (List Char)) : (rowFields row).map Field.value = row := by
  unfold rowFields
  split
  · rfl
  · rw [List.map_map]
    exact (List.map_congr_left fun s _ => value_quoteMinimal s).trans (List.map_id row)

theorem properRow_rowFields {row : List (List Char)} (hne : row ≠ []) :
    ProperRow (rowFields row) := by
  refine ⟨?_, ?_, ?_⟩
  · intro hnil
    have hrow := values_rowFields row
    rw [hnil] at hrow
    exact hne hrow.symm
  · intro hempty
    have hrow := values_rowFields row
    rw [hempty] at hrow
    subst hrow
    simp [rowFields, Field.value] at hempty
  · unfold rowFields
    split
    · intro f hf
      rw [List.mem_singleton.mp hf]
      trivial
    · intro f hf
      obtain ⟨s, _, rfl⟩ := List.mem_map.mp hf
      exact safe_quoteMinimal s

theorem rowText_eq (row : List Field) : rowText row = joinFields row ++ ['\n'] := by
  induction row with
  | nil => rfl
  | cons f row ih =>
    cases row with
    | nil => rfl
    | cons g row => rw [rowText, joinFields, ih, List.append_assoc, List.cons_append]

theorem carriage_not_mem_join {row : List Field} (h : ∀ f ∈ row, '\r' ∉ f.value) :
    '\r' ∉ joinFields row := by
  induction row with
  | nil => simp [joinFields]
  | cons f row ih =>
    have hf := carriage_not_mem_text (h f (List.mem_cons_self ..))
    have hrest := ih fun g hg => h g (List.mem_cons_of_mem f hg)
    cases row with
    | nil => exact hf
    | cons g row => simp [joinFields, hf, hrest]

/-- What is written is read back, however the fields look, as long as no line end in them
gets lost as a line end of the file. -/
theorem readFile_writeRows {rows : List (List (List Char))}
    (h : ∀ row ∈ rows, row ≠ [] ∧ ∀ f ∈ row, '\r' ∉ f) : readFile (writeRows rows) = rows := by
  have hlines : universalNewlines (writeRows rows) = (rows.map rowFields).flatMap rowText := by
    induction rows with
    | nil => rfl
    | cons row rows ih =>
      obtain ⟨hrow, hrows⟩ := List.forall_mem_cons.mp h
      have hvalues : ∀ f ∈ rowFields row, '\r' ∉ f.value := by
        intro f hf
        apply hrow.2
        rw [← values_rowFields row]
        exact List.mem_map_of_mem hf
      rw [writeRows, List.flatMap_cons, writeRow, List.append_assoc,
        universalNewlines_append (carriage_not_mem_join hvalues), List.map_cons, List.flatMap_cons,
        rowText_eq, List.append_assoc]
      congr 1
      exact congrArg (List.cons '\n') (ih hrows)
  rw [readFile, hlines, readCsv_rows]
  · rw [List.map_map]
    exact (List.map_congr_left fun row _ => values_rowFields row).trans (List.map_id rows)
  · intro fields hfields
    obtain ⟨row, hrow, rfl⟩ := List.mem_map.mp hfields
    exact properRow_rowFields (h row hrow).1

theorem carriage_not_mem_readFile {s : List Char} {row : List (List Char)} (hrow : row ∈ readFile s)
    {f : List Char} (hf : f ∈ row) : '\r' ∉ f :=
  fun hc => carriage_not_mem s (mem_of_readCsv hrow hf hc)

end PChase.Csv
