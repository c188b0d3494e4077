import PChase.CommandLine

/-!
# Numbers that are zero

Where an option stands in its position with a number of zero behind it, the command line is
refused, except for `-g`: it tests the number of experiments in place of its own.
-/

namespace PChase

open CInt
set_option autoImplicit false

/-- `parse_args` returns 1. -/
def ParseResult.ReturnsOne : ParseResult → Prop
  | .rejected _ | .usage => True
  | _ => False

def argumentCount (word : CStr) (next : Option CStr) : Nat :=
  match optionOf word with
  | some .access => if next.any fun w => strcasecmp w "forward" || strcasecmp w "reverse" then 2 else 1
  | some .numa =>
    if next.any fun w => strcasecmp w "xor" || strcasecmp w "add" || strcasecmp w "map" then 2 else 1
  | some .strict | none => 0
  | some _ => 1

/-- The rest of the command line from each word on that stands in option position; the
number is how many words the last option still takes. -/
def optionPositions : Nat → List CStr → List (List CStr)
  | _, [] => []
  | skip + 1, _ :: rest => optionPositions skip rest
  | 0, word :: rest => (word :: rest) :: optionPositions (argumentCount word rest.head?) rest

def IsZeroOption (p : Platform) : List CStr → Prop
  | word :: w :: rest =>
    match optionOf word with
    | some .seconds => parseReal p.round w = 0
    | some (.number _) => parseNumber w = 0
    | some .access => (strcasecmp w "forward" ∨ strcasecmp w "reverse") ∧
        ∃ v ∈ rest.head?, parseNumber v = 0
    | _ => False
  | _ => False

def RefusesZero (p : Platform) (args : List CStr) : Prop :=
  (∃ here ∈ optionPositions 0 args, IsZeroOption p here) → (parseArgs p args).ReturnsOne

variable {p : Platform}

section Positions

theorem optionPositions_skip (args tail : List CStr) :
    optionPositions args.length (args ++ tail) = optionPositions 0 tail := by
  induction args with
  | nil => rfl
  | cons _ args ih => exact ih

theorem Reads.argumentCount_eq {word : CStr} {args : List CStr} {s : Setting}
    (h : Reads p (word :: args) s) (tail : List CStr) :
    argumentCount word (args ++ tail).head? = args.length := by
  unfold argumentCount
  cases h with
  | strict h | seconds h | number h | prefetch h | operation h | output h =>
    rw [h]
    rfl
  | random h hw =>
    rw [h]
    simp [strcasecmp_eq_of hw]
  | forward h hw | reverse h hw =>
    rw [h]
    simp [hw]
  | numaLocal h hw =>
    rw [h]
    simp [strcasecmp_eq_of hw]
  | numaXor h hw | numaAdd h hw | numaMap h hw =>
    rw [h]
    simp [hw]

theorem optionPositions_phrase (x : Phrase p) (tail : List CStr) :
    optionPositions 0 (x.words ++ tail) = (x.words ++ tail) :: optionPositions 0 tail := by
  obtain ⟨words, s, hreads⟩ := x
  obtain ⟨word, args, rfl, _⟩ := hreads.option
  rw [List.cons_append, optionPositions, hreads.argumentCount_eq, optionPositions_skip]

theorem isZeroOption_phrase_iff (x : Phrase p) (tail : List CStr) :
    IsZeroOption p (x.words ++ tail) ↔ x.setting = .number .loop 0 := by
  obtain ⟨words, s, hreads⟩ := x
  cases hreads with
  | strict h =>
    cases tail with
    | nil => simp [IsZeroOption]
    | cons w tail => simp [IsZeroOption, h]
  | seconds h hne => simp [IsZeroOption, h, hne]
  | @number o _ w h hne =>
    by_cases ho : o = .loop
    · simp [IsZeroOption, h, ho]
    · simp [IsZeroOption, h, ho, hne ho]
  | prefetch h | operation h | output h => simp [IsZeroOption, h]
  | random h hw => simp [IsZeroOption, h, strcasecmp_eq_of hw]
  | forward h _ hne => simp [IsZeroOption, h, hne]
  | @reverse _ w stride h _ hne =>
    have hstride : parseNumber stride ≠ 0 := by
      intro hzero
      rw [hzero] at hne
      exact hne rfl
    simp [IsZeroOption, h, hstride]
  | numaLocal h | numaXor h | numaAdd h | numaMap h => simp [IsZeroOption, h]

theorem zero_in_position_iff (phrases : List (Phrase p)) :
    (∃ here ∈ optionPositions 0 (commandWords phrases), IsZeroOption p here) ↔
      ∃ x ∈ phrases, x.setting = .number .loop 0 := by
  induction phrases with
  | nil => simp [commandWords, optionPositions]
  | cons x phrases ih =>
    have hwords : commandWords (x :: phrases) = x.words ++ commandWords phrases := rfl
    rw [hwords, optionPositions_phrase, List.exists_mem_cons_iff, List.exists_mem_cons_iff, ih,
      isZeroOption_phrase_iff]

end Positions

theorem not_returnsOne_phrases (phrases : List (Phrase p)) :
    ¬ (parseArgs p (commandWords phrases)).ReturnsOne := by
  rw [parseArgs_commandWords]
  unfold allocate
  split
  · exact id
  · split
    · split
      all_goals exact id
    · split
      all_goals exact id

theorem exists_phrases_of_not_returnsOne {args : List CStr}
    (h : ¬ (parseArgs p args).ReturnsOne) :
    ∃ phrases : List (Phrase p), args = commandWords phrases := by
  unfold parseArgs at h
  split at h
  · exact absurd trivial h
  · exact absurd trivial h
  · rename_i e₀ hloop
    exact exists_phrases_of_parseLoop (by decide) hloop

/-- Every zero that stands as the number of an option is refused, unless all options can be
read and one of them is `-g` with a zero. -/
theorem zero_refused_iff (p : Platform) (args : List CStr) : RefusesZero p args ↔
    ¬ ∃ phrases : List (Phrase p), args = commandWords phrases ∧
      ∃ x ∈ phrases, x.setting = .number .loop 0 := by
  constructor
  · intro hrefuses hloop
    obtain ⟨phrases, rfl, hzero⟩ := hloop
    exact not_returnsOne_phrases phrases (hrefuses ((zero_in_position_iff phrases).mpr hzero))
  · intro hcond hzero
    by_contra hone
    obtain ⟨phrases, rfl⟩ := exists_phrases_of_not_returnsOne hone
    exact hcond ⟨phrases, rfl, (zero_in_position_iff phrases).mp hzero⟩

/-- `-g 0` is accepted. -/
theorem zero_loop_accepted : (∃ e, parseArgs .single ["-g".toList, "0".toList] = .accepted e) ∧
    ¬ RefusesZero .single ["-g".toList, "0".toList] := by
  have hrun : ∃ e, parseArgs .single ["-g".toList, "0".toList] = .accepted e := ⟨_, rfl⟩
  obtain ⟨e, he⟩ := hrun
  refine ⟨⟨e, he⟩, ?_⟩
  intro hrefuses
  have hone := hrefuses ⟨["-g".toList, "0".toList], by decide +kernel, rfl⟩
  rw [he] at hone
  exact hone

end PChase
