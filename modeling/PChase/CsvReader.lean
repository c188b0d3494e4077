import Mathlib.Data.List.Basic

/-!
# Comma-separated values

A reader of the usual quoted format, character by character: a comma ends a field, a line
end the record, and a field that begins with a quote ends at the next quote that is not
doubled. Fields that are written plainly or in quotes are read back as they are.
-/

namespace PChase.Csv

set_option autoImplicit false

inductive Mode where
  | startRecord
  | startField
  | inField
  | inQuotedField
  | quoteInQuotedField
  deriving Repr, DecidableEq

structure Reader where
  mode : Mode := .startRecord
  field : List Char := []
  record : List (List Char) := []
  records : List (List (List Char)) := []
  deriving Repr, DecidableEq

namespace Reader

def add (r : Reader) (mode : Mode) (c : Char) : Reader := { r with mode, field := r.field ++ [c] }

def saveField (r : Reader) : Reader :=
  { r with mode := .startField, field := [], record := r.record ++ [r.field] }

def saveRecord (r : Reader) : Reader where
  records := r.records ++ [r.record ++ [r.field]]

def beginField (r : Reader) (c : Char) : Reader :=
  if c = '\n' then r.saveRecord
  else if c = '"' then { r with mode := .inQuotedField }
  else if c = ',' then r.saveField
  else r.add .inField c

def step (r : Reader) (c : Char) : Reader :=
  match r.mode with
  | .startRecord =>
    -- an empty line is a record without fields
    if c = '\n' then { r with records := r.records ++ [[]] } else r.beginField c
  | .startField => r.beginField c
  | .inField =>
    if c = '\n' then r.saveRecord else if c = ',' then r.saveField else r.add .inField c
  | .inQuotedField =>
    if c = '"' then { r with mode := .quoteInQuotedField } else r.add .inQuotedField c
  | .quoteInQuotedField =>
    if c = '"' then r.add .inQuotedField c
    else if c = '\n' then r.saveRecord
    else if c = ',' then r.saveField
    else r.add .inField c

/-- The end of the text ends a record that has begun. -/
def finish (r : Reader) : List (List (List Char)) :=
  if r.mode = .startRecord then r.records else r.records ++ [r.record ++ [r.field]]

end Reader

/-- The records of a text, with fields of any length. -/
def readCsv (s : List Char) : List (List (List Char)) := (s.foldl Reader.step {}).finish

inductive Field where
  | plain (s : List Char)
  | quoted (s : List Char)
  deriving Repr, DecidableEq

def Field.value : Field → List Char
  | plain s => s
  | quoted s => s

def doubleQuotes (s : List Char) : List Char := s.flatMap fun c => if c = '"' then [c, c] else [c]

def Field.text : Field → List Char
  | plain s => s
  | quoted s => '"' :: (doubleQuotes s ++ ['"'])

def Field.Safe : Field → Prop
  | plain s => ∀ c ∈ s, c ≠ ',' ∧ c ≠ '"' ∧ c ≠ '\n'
  | quoted _ => True

def rowText : List Field → List Char
  | [] => ['\n']
  | [f] => f.text ++ ['\n']
  | f :: g :: row => f.text ++ ',' :: rowText (g :: row)

def ProperRow (row : List Field) : Prop := row ≠ [] ∧ row ≠ [.plain []] ∧ ∀ f ∈ row, f.Safe

section Reading
open Reader
variable {record : List (List Char)} {records : List (List (List Char))}

theorem read_plain (s : List Char) (h : (Field.plain s).Safe) (field : List Char) :
    s.foldl step ⟨.inField, field, record, records⟩ = ⟨.inField, field ++ s, record, records⟩ := by
  induction s generalizing field with
  | nil => simp
  | cons c s ih =>
    obtain ⟨hcomma, _, hline⟩ := h c (List.mem_cons_self ..)
    have hrest : (Field.plain s).Safe := fun d hd => h d (List.mem_cons_of_mem c hd)
    simp only [List.foldl_cons, step, if_neg hline, if_neg hcomma, add]
    rw [ih hrest, List.append_assoc]
    rfl

theorem read_doubled (s field : List Char) :
    (doubleQuotes s).foldl step ⟨.inQuotedField, field, record, records⟩ =
      ⟨.inQuotedField, field ++ s, record, records⟩ := by
  induction s generalizing field with
  | nil => simp [doubleQuotes]
  | cons c s ih =>
    have hone : (if c = '"' then [c, c] else [c]).foldl step
        ⟨.inQuotedField, field, record, records⟩ =
          ⟨.inQuotedField, field ++ [c], record, records⟩ := by
      split
      · rename_i hc
        simp [step, add, hc]
      · rename_i hc
        simp [step, add, hc]
    rw [doubleQuotes, List.flatMap_cons, List.foldl_append, hone]
    have hrest := ih (field ++ [c])
    rw [doubleQuotes, List.append_assoc] at hrest
    exact hrest

def HasRead (r : Reader) (s : List Char) (record : List (List Char))
    (records : List (List (List Char))) : Prop :=
  (r.mode = .startField ∨ r.mode = .inField ∨ r.mode = .quoteInQuotedField) ∧ r.field = s ∧
    r.record = record ∧ r.records = records

theorem HasRead.comma {r : Reader} {s : List Char} (h : HasRead r s record records) :
    r.step ',' = ⟨.startField, [], record ++ [s], records⟩ := by
  obtain ⟨hmode, rfl, rfl, rfl⟩ := h
  rcases hmode with hmode | hmode | hmode
  all_goals simp [step, beginField, saveField, hmode]

theorem HasRead.line {r : Reader} {s : List Char} (h : HasRead r s record records) :
    r.step '\n' = ⟨.startRecord, [], [], records ++ [record ++ [s]]⟩ := by
  obtain ⟨hmode, rfl, rfl, rfl⟩ := h
  rcases hmode with hmode | hmode | hmode
  all_goals simp [step, beginField, saveRecord, hmode]

theorem Field.read (f : Field) (h : f.Safe) :
    HasRead (f.text.foldl step ⟨.startField, [], record, records⟩) f.value record records := by
  cases f with
  | plain s =>
    cases s with
    | nil => exact ⟨.inl rfl, rfl, rfl, rfl⟩
    | cons c s =>
      obtain ⟨hcomma, hquote, hline⟩ := h c (List.mem_cons_self ..)
      have hrest : (Field.plain s).Safe := fun d hd => h d (List.mem_cons_of_mem c hd)
      have hfirst : step ⟨.startField, [], record, records⟩ c =
          ⟨.inField, [c], record, records⟩ := by
        simp [step, beginField, add, hcomma, hquote, hline]
      rw [Field.text, List.foldl_cons, hfirst, read_plain s hrest]
      exact ⟨.inr (.inl rfl), rfl, rfl, rfl⟩
  | quoted s =>
    have hfirst : step ⟨.startField, [], record, records⟩ '"' =
        ⟨.inQuotedField, [], record, records⟩ := rfl
    rw [Field.text, List.foldl_cons, hfirst, List.foldl_append, read_doubled]
    exact ⟨.inr (.inr rfl), rfl, rfl, rfl⟩

theorem read_fields (f : Field) (row : List Field) (h : ∀ g ∈ f :: row, g.Safe) :
    (rowText (f :: row)).foldl step ⟨.startField, [], record, records⟩ =
      ⟨.startRecord, [], [], records ++ [record ++ (f :: row).map Field.value]⟩ := by
  induction row generalizing f record with
  | nil =>
    have hread : HasRead (f.text.foldl step ⟨.startField, [], record, records⟩) f.value record
        records := f.read (h f (List.mem_cons_self ..))
    rw [rowText, List.foldl_append, List.foldl_cons, List.foldl_nil, hread.line]
    rfl
  | cons g row ih =>
    have hread : HasRead (f.text.foldl step ⟨.startField, [], record, records⟩) f.value record
        records := f.read (h f (List.mem_cons_self ..))
    have hrest : ∀ k ∈ g :: row, k.Safe := fun k hk => h k (List.mem_cons_of_mem f hk)
    rw [rowText, List.foldl_append, List.foldl_cons, hread.comma, ih g hrest, List.append_assoc]
    rfl

theorem foldl_startRecord {s : List Char} (hne : s ≠ []) (hline : s.head? ≠ some '\n') :
    s.foldl step ⟨.startRecord, [], record, records⟩ =
      s.foldl step ⟨.startField, [], record, records⟩ := by
  cases s with
  | nil => exact absurd rfl hne
  | cons c s =>
    have hc : c ≠ '\n' := by simpa using hline
    simp only [List.foldl_cons, step, if_neg hc]
    rfl

theorem rowText_begins {row : List Field} (h : ProperRow row) :
    rowText row ≠ [] ∧ (rowText row).head? ≠ some '\n' := by
  obtain ⟨hne, hempty, hsafe⟩ := h
  obtain ⟨f, rest, rfl⟩ := List.exists_cons_of_ne_nil hne
  cases f with
  | quoted s =>
    cases rest with
    | nil => simp [rowText, Field.text]
    | cons g rest => simp [rowText, Field.text]
  | plain s =>
    cases s with
    | nil =>
      cases rest with
      | nil => exact absurd rfl hempty
      | cons g rest => simp [rowText, Field.text]
    | cons c s =>
      obtain ⟨_, _, hline⟩ := hsafe _ (List.mem_cons_self ..) c (List.mem_cons_self ..)
      cases rest with
      | nil => simp [rowText, Field.text, hline]
      | cons g rest => simp [rowText, Field.text, hline]

theorem read_row {row : List Field} (h : ProperRow row) :
    (rowText row).foldl step ⟨.startRecord, [], [], records⟩ =
      ⟨.startRecord, [], [], records ++ [row.map Field.value]⟩ := by
  obtain ⟨hne, hline⟩ := rowText_begins h
  obtain ⟨f, rest, rfl⟩ := List.exists_cons_of_ne_nil h.1
  rw [foldl_startRecord hne hline, read_fields f rest h.2.2]
  rfl

/-- Rows of safe fields are read back. -/
theorem readCsv_rows (rows : List (List Field)) (h : ∀ row ∈ rows, ProperRow row) :
    readCsv (rows.flatMap rowText) = rows.map (List.map Field.value) := by
  have hread : ∀ records, (rows.flatMap rowText).foldl step ⟨.startRecord, [], [], records⟩ =
      ⟨.startRecord, [], [], records ++ rows.map (List.map Field.value)⟩ := by
    induction rows with
    | nil => simp
    | cons row rows ih =>
      intro records
      obtain ⟨hrow, hrows⟩ := List.forall_mem_cons.mp h
      rw [List.flatMap_cons, List.foldl_append, read_row hrow, ih hrows, List.append_assoc]
      rfl
  rw [readCsv, hread]
  rfl

end Reading

end PChase.Csv
