import PChase.CsvReader

/-!
# A reader with a limit for its fields

`csv.reader` fails at the first character that its field has no room for. What a reader
holds is known by its fields: a step saves the field as it is, or makes it longer by the
character read. So the limit fails exactly the texts with a longer field.
-/

namespace PChase.Csv

set_option autoImplicit false

/-- A step that adds no character to a full field. -/
def Reader.stepWithin (limit : Nat) (r : Reader) (c : Char) : Option Reader :=
  let r' := r.step c
  if r'.field.length ≤ limit then some r' else none

def readWithin (limit : Nat) (s : List Char) : Option (List (List (List Char))) :=
  (s.foldlM (Reader.stepWithin limit) {}).map Reader.finish

def FieldsFit (limit : Nat) (rows : List (List (List Char))) : Prop :=
  ∀ row ∈ rows, ∀ f ∈ row, f.length ≤ limit

instance (limit : Nat) (rows : List (List (List Char))) : Decidable (FieldsFit limit rows) :=
  inferInstanceAs (Decidable (∀ row ∈ rows, ∀ f ∈ row, f.length ≤ limit))

namespace Reader

def Each (Q : List Char → Prop) (r : Reader) : Prop :=
  Q r.field ∧ (∀ f ∈ r.record, Q f) ∧ ∀ row ∈ r.records, ∀ f ∈ row, Q f

variable {Q : List Char → Prop} {r : Reader} {c : Char}

inductive Move (r : Reader) (c : Char) : Reader → Prop
  | empty (h : r.mode = .startRecord) : Move r c { r with records := r.records ++ [[]] }
  | quote (mode : Mode) (h : mode ≠ .startRecord) : Move r c { r with mode }
  | add (mode : Mode) (h : mode ≠ .startRecord) : Move r c (r.add mode c)
  | saveField : Move r c r.saveField
  | saveRecord : Move r c r.saveRecord

theorem step_moves (r : Reader) (c : Char) : Move r c (r.step c) := by
  have hbegin : Move r c (r.beginField c) := by
    unfold beginField
    split
    · exact .saveRecord
    split
    · exact .quote _ (by simp)
    split
    · exact .saveField
    · exact .add _ (by simp)
  unfold step
  split
  case h_1 hmode =>
    split
    · exact .empty hmode
    · exact hbegin
  case h_2 => exact hbegin
  case h_3 =>
    split
    · exact .saveRecord
    split
    · exact .saveField
    · exact .add _ (by simp)
  case h_4 =>
    split
    · exact .quote _ (by simp)
    · exact .add _ (by simp)
  case h_5 =>
    split
    · exact .add _ (by simp)
    split
    · exact .saveRecord
    split
    · exact .saveField
    · exact .add _ (by simp)

theorem each_record_iff : (∀ f ∈ r.record ++ [r.field], Q f) ↔ (∀ f ∈ r.record, Q f) ∧ Q r.field := by
  rw [List.forall_mem_append, List.forall_mem_singleton]

theorem Move.each {r' : Reader} (hm : Move r c r') (h : r.Each Q) (hfield : Q r'.field) :
    r'.Each Q := by
  obtain ⟨hf, hrecord, hrecords⟩ := h
  refine ⟨hfield, ?_⟩
  cases hm with
  | empty => exact ⟨hrecord, List.forall_mem_append.mpr ⟨hrecords, by simp⟩⟩
  | quote | add => exact ⟨hrecord, hrecords⟩
  | saveField => exact ⟨each_record_iff.mpr ⟨hrecord, hf⟩, hrecords⟩
  | saveRecord =>
    refine ⟨by simp [Reader.saveRecord], List.forall_mem_append.mpr ⟨hrecords, ?_⟩⟩
    exact List.forall_mem_singleton.mpr (each_record_iff.mpr ⟨hrecord, hf⟩)

theorem Move.each_before {r' : Reader} (hm : Move r c r') (hshort : ∀ f, Q (f ++ [c]) → Q f)
    (h : r'.Each Q) : r.Each Q := by
  obtain ⟨hf, hrecord, hrecords⟩ := h
  cases hm with
  | empty => exact ⟨hf, hrecord, (List.forall_mem_append.mp hrecords).1⟩
  | quote => exact ⟨hf, hrecord, hrecords⟩
  | add => exact ⟨hshort _ hf, hrecord, hrecords⟩
  | saveField =>
    obtain ⟨hrecord, hf⟩ := each_record_iff.mp hrecord
    exact ⟨hf, hrecord, hrecords⟩
  | saveRecord =>
    obtain ⟨hrecords, hlast⟩ := List.forall_mem_append.mp hrecords
    obtain ⟨hrecord, hf⟩ := each_record_iff.mp (List.forall_mem_singleton.mp hlast)
    exact ⟨hf, hrecord, hrecords⟩

theorem Move.field {r' : Reader} (hm : Move r c r') (hnil : Q []) (h : Q r.field)
    (hadd : Q (r.field ++ [c])) : Q r'.field := by
  cases hm with
  | empty | quote => exact h
  | add => exact hadd
  | saveField | saveRecord => exact hnil

theorem Each.finish (h : r.Each Q) : ∀ row ∈ r.finish, ∀ f ∈ row, Q f := by
  obtain ⟨hf, hrecord, hrecords⟩ := h
  unfold Reader.finish
  split
  · exact hrecords
  · exact List.forall_mem_append.mpr
      ⟨hrecords, List.forall_mem_singleton.mpr (each_record_iff.mpr ⟨hrecord, hf⟩)⟩

def Settled (r : Reader) : Prop := r.mode = .startRecord → r.field = [] ∧ r.record = []

theorem Settled.step (h : r.Settled) : (r.step c).Settled := by
  intro hmode
  generalize hr : r.step c = r' at hmode
  cases hr ▸ step_moves r c with
  | empty hempty => exact h hempty
  | quote _ hne | add _ hne => exact absurd hmode hne
  | saveField => simp [saveField] at hmode
  | saveRecord => exact ⟨rfl, rfl⟩

theorem Settled.each_iff (h : r.Settled) (hnil : Q []) :
    (∀ row ∈ r.finish, ∀ f ∈ row, Q f) ↔ r.Each Q := by
  refine ⟨fun hrows => ?_, Each.finish⟩
  unfold Reader.finish at hrows
  split at hrows
  · rename_i hmode
    obtain ⟨hfield, hrecord⟩ := h hmode
    exact ⟨hfield ▸ hnil, by simp [hrecord], hrows⟩
  · obtain ⟨hrecords, hlast⟩ := List.forall_mem_append.mp hrows
    obtain ⟨hrecord, hf⟩ := each_record_iff.mp (List.forall_mem_singleton.mp hlast)
    exact ⟨hf, hrecord, hrecords⟩

end Reader

open Reader

theorem settled_fold (s : List Char) {r : Reader} (h : r.Settled) : (s.foldl step r).Settled := by
  induction s generalizing r with
  | nil => exact h
  | cons c s ih => exact ih h.step

theorem mem_of_readCsv {s : List Char} {row : List (List Char)} (hrow : row ∈ readCsv s)
    {f : List Char} (hf : f ∈ row) {c : Char} (hc : c ∈ f) : c ∈ s := by
  let Q : List Char → Prop := fun f => ∀ d ∈ f, d ∈ s
  have hread : ∀ (t : List Char) (r : Reader), (∀ d ∈ t, d ∈ s) → r.Each Q →
      (t.foldl step r).Each Q := by
    intro t
    induction t with
    | nil => exact fun r _ h => h
    | cons d t ih =>
      intro r hmem h
      obtain ⟨hd, hmem⟩ := List.forall_mem_cons.mp hmem
      have hfield : Q (r.step d).field := by
        refine (step_moves r d).field (by simp [Q]) h.1 ?_
        exact List.forall_mem_append.mpr ⟨h.1, List.forall_mem_singleton.mpr hd⟩
      exact ih _ hmem ((step_moves r d).each h hfield)
  have hstart : Reader.Each Q {} := ⟨by simp [Q], by simp, by simp⟩
  exact (hread s {} (fun _ hd => hd) hstart).finish row hrow f hf c hc

section Limit
variable {limit : Nat}

theorem short_of_longer (c : Char) (f : List Char) (h : (f ++ [c]).length ≤ limit) :
    f.length ≤ limit := by
  rw [List.length_append] at h
  omega

theorem each_before_fold (s : List Char) {r : Reader}
    (h : (s.foldl step r).Each (·.length ≤ limit)) : r.Each (·.length ≤ limit) := by
  induction s generalizing r with
  | nil => exact h
  | cons c s ih => exact (step_moves r c).each_before (short_of_longer c) (ih h)

theorem foldlM_stepWithin (s : List Char) {r : Reader} (h : r.Each (·.length ≤ limit)) :
    ((s.foldl step r).Each (·.length ≤ limit) →
      s.foldlM (stepWithin limit) r = some (s.foldl step r)) ∧
    (¬ (s.foldl step r).Each (·.length ≤ limit) → s.foldlM (stepWithin limit) r = none) := by
  induction s generalizing r with
  | nil => exact ⟨fun _ => rfl, fun hnot => absurd h hnot⟩
  | cons c s ih =>
    rw [List.foldlM_cons, List.foldl_cons]
    by_cases hfield : (r.step c).field.length ≤ limit
    · have hstep : stepWithin limit r c = some (r.step c) := if_pos hfield
      rw [hstep, Option.bind_eq_bind, Option.bind_some]
      exact ih ((step_moves r c).each h hfield)
    · have hstep : stepWithin limit r c = none := if_neg hfield
      rw [hstep]
      exact ⟨fun heach => absurd (each_before_fold s heach).1 hfield, fun _ => rfl⟩

/-- The limit fails exactly the texts with a longer field. -/
theorem readWithin_eq (limit : Nat) (s : List Char) :
    readWithin limit s = if FieldsFit limit (readCsv s) then some (readCsv s) else none := by
  have hstart : Reader.Each (·.length ≤ limit) {} := ⟨Nat.zero_le _, by simp, by simp⟩
  have hsettled : (s.foldl step {}).Settled := settled_fold s fun _ => ⟨rfl, rfl⟩
  have hfit : FieldsFit limit (readCsv s) ↔ (s.foldl step {}).Each (·.length ≤ limit) :=
    hsettled.each_iff (Nat.zero_le _)
  obtain ⟨hsome, hnone⟩ := foldlM_stepWithin s hstart
  by_cases h : FieldsFit limit (readCsv s)
  · rw [if_pos h, readWithin, hsome (hfit.mp h)]
    rfl
  · rw [if_neg h, readWithin, hnone (mt hfit.mpr h)]
    rfl

end Limit

end PChase.Csv
