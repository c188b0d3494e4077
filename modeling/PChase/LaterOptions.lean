import PChase.CommandLine
import PChase.LastWrite

/-!
# Options given more than once

The fields that the options set are slots, and a setting overwrites some of them. From
this follows which occurrences of an option may be left out and which may be exchanged.
-/

namespace PChase

open CInt
set_option autoImplicit false

/-- The fields of the record that some option sets, and the rest of it. -/
inductive Slot where
  | strict
  | seconds
  | number (o : NumberOption)
  | prefetchHint
  | memOperation
  | accessPattern
  | stride
  | outputMode
  | numaPlacement
  | offsetOrMask
  | placementMap
  | derived
  deriving DecidableEq

namespace Slot

abbrev Value : Slot → Type
  | strict => Bool
  | seconds => ℚ
  | number _ | stride | offsetOrMask => Int
  | prefetchHint => PrefetchHint
  | memOperation => MemOperation
  | accessPattern => AccessPattern
  | outputMode => OutputMode
  | numaPlacement => NumaPlacement
  | placementMap => Option CStr
  | derived => Experiment

def withoutSettings (e : Experiment) : Experiment :=
  { e with
    strict := false, seconds := 0, bytesPerLine := 0, bytesPerPage := 0, bytesPerChain := 0
    chainsPerThread := 0, numThreads := 0, iterations := 0, experiments := 0, loopLength := 0
    prefetchHint := .none, memOperation := .na, accessPattern := .random, stride := 0
    outputMode := .table, numaPlacement := .numaLocal, offsetOrMask := 0, placementMap := none }

def read : (slot : Slot) → Experiment → slot.Value
  | strict, e => e.strict
  | seconds, e => e.seconds
  | number o, e => o.get e
  | prefetchHint, e => e.prefetchHint
  | memOperation, e => e.memOperation
  | accessPattern, e => e.accessPattern
  | stride, e => e.stride
  | outputMode, e => e.outputMode
  | numaPlacement, e => e.numaPlacement
  | offsetOrMask, e => e.offsetOrMask
  | placementMap, e => e.placementMap
  | derived, e => withoutSettings e

/-- What a setting puts into a slot; `-s` and `-i` clear the field of the other. -/
def write : (slot : Slot) → Setting → Option slot.Value
  | strict, .strict => some true
  | seconds, .seconds x => some x
  | seconds, .number .iterations _ => some 0
  | number .iterations, .seconds _ => some 0
  | number o, .number o' n => if o = o' then some n else none
  | prefetchHint, .prefetch hint => some hint
  | memOperation, .operation o => some o
  | accessPattern, .random => some .random
  | accessPattern, .strided _ => some .strided
  | stride, .strided n => some n
  | outputMode, .output mode => some mode
  | numaPlacement, .numaLocal => some .numaLocal
  | numaPlacement, .numaXor _ => some .numaXor
  | numaPlacement, .numaAdd _ => some .numaAdd
  | numaPlacement, .numaMap _ => some .numaMap
  | offsetOrMask, .numaXor mask => some mask
  | offsetOrMask, .numaAdd offset => some offset
  | placementMap, .numaMap map => some (some map)
  | _, _ => none

theorem read_apply (slot : Slot) (x : Setting) (e : Experiment) :
    slot.read (x.apply e) = (slot.write x).getD (slot.read e) := by
  cases slot with
  | number o =>
    cases x with
    | number o' n =>
      cases o
      all_goals
        cases o'
        all_goals rfl
    | _ =>
      cases o
      all_goals rfl
  | _ =>
    cases x with
    | number o' n =>
      cases o'
      all_goals rfl
    | _ => rfl

theorem read_ext {e e' : Experiment} (h : ∀ slot : Slot, slot.read e = slot.read e') : e = e' := by
  have hstrict := h .strict
  have hseconds := h .seconds
  have hline := h (.number .line)
  have hpage := h (.number .page)
  have hchain := h (.number .chain)
  have hreferences := h (.number .references)
  have hthreads := h (.number .threads)
  have hiterations := h (.number .iterations)
  have hexperiments := h (.number .experiments)
  have hloop := h (.number .loop)
  have hhint := h .prefetchHint
  have hoperation := h .memOperation
  have hpattern := h .accessPattern
  have hstride := h .stride
  have hmode := h .outputMode
  have hplacement := h .numaPlacement
  have hmask := h .offsetOrMask
  have hmap := h .placementMap
  have hderived := h .derived
  cases e
  cases e'
  simp only [read, NumberOption.get, withoutSettings, Experiment.mk.injEq] at *
  simp_all

end Slot

def settings : Overwriting Experiment Setting Slot where
  Value := Slot.Value
  read := Slot.read
  write := Slot.write
  apply := Setting.apply
  read_apply := Slot.read_apply
  ext := fun _ _ h => Slot.read_ext h

variable {p : Platform}

def settingsOf (phrases : List (Phrase p)) : List Setting := phrases.map Phrase.setting

theorem requested_eq_run (phrases : List (Phrase p)) :
    requested phrases = settings.run (settingsOf phrases) {} := by
  unfold requested settingsOf Overwriting.run
  rw [List.foldl_map]
  rfl

/-- A field after the option loop: the last value written, or the default. -/
theorem read_requested (slot : Slot) (phrases : List (Phrase p)) :
    slot.read (requested phrases) =
      (settings.written slot (settingsOf phrases)).getD (slot.read {}) := by
  rw [requested_eq_run]
  exact settings.read_run slot _ _

/-- The kinds of options that another one of the same kind replaces. -/
def OptionKind.Replaced : OptionKind → Prop
  | .strict | .seconds | .number .iterations => False
  | _ => True

def Setting.ClearEachOther (x y : Setting) : Prop :=
  x.kind = .seconds ∧ y.kind = .number .iterations ∨
    x.kind = .number .iterations ∧ y.kind = .seconds

/-- An occurrence that a later one of its kind follows may be left out, and neighbours of
different kinds may be exchanged. -/
def LaterReplaces (phrases : List (Phrase p)) : Prop :=
  (∀ A x B y C, phrases = A ++ x :: (B ++ y :: C) → x.setting.kind = y.setting.kind →
      x.setting.kind.Replaced →
      parseArgs p (commandWords (A ++ (B ++ y :: C))) = parseArgs p (commandWords phrases)) ∧
    ∀ A x y C, phrases = A ++ x :: y :: C → x.setting.kind ≠ y.setting.kind →
      ¬ x.setting.ClearEachOther y.setting →
      parseArgs p (commandWords (A ++ y :: x :: C)) = parseArgs p (commandWords phrases)

def Slot.ofSomeWords : List Slot := [.stride, .offsetOrMask, .placementMap]

/-- A stride, mask, offset or map that is overridden is written again later, or was the
value before. -/
def NothingLeftOver (phrases : List (Phrase p)) : Prop :=
  ∀ A x rest, phrases = A ++ x :: rest → (∃ y ∈ rest, y.setting.kind = x.setting.kind) →
    ∀ slot ∈ Slot.ofSomeWords, ∀ v, slot.write x.setting = some v →
      (∃ y ∈ rest, (slot.write y.setting).isSome) ∨
        v = (settings.written slot (settingsOf A)).getD (slot.read {})

def Slot.kinds : Slot → List OptionKind
  | .strict => [.strict]
  | .seconds | .number .iterations => [.seconds, .number .iterations]
  | .number o => [.number o]
  | .prefetchHint => [.prefetch]
  | .memOperation => [.operation]
  | .accessPattern | .stride => [.access]
  | .outputMode => [.output]
  | .numaPlacement | .offsetOrMask | .placementMap => [.numa]
  | .derived => []

theorem Slot.mem_ofSomeWords {slot : Slot} (h : slot ∈ Slot.ofSomeWords) :
    slot = .stride ∨ slot = .offsetOrMask ∨ slot = .placementMap := by
  simpa [Slot.ofSomeWords] using h

theorem Slot.write_isSome_iff {slot : Slot} (h : slot ∉ Slot.ofSomeWords) (x : Setting) :
    (slot.write x).isSome ↔ x.kind ∈ slot.kinds := by
  cases slot with
  | number o =>
    cases x with
    | number o' n =>
      cases o
      all_goals
        cases o'
        all_goals simp [Slot.write, Slot.kinds, Setting.kind]
    | _ =>
      cases o
      all_goals simp [Slot.write, Slot.kinds, Setting.kind]
  | stride => exact absurd (by decide) h
  | offsetOrMask => exact absurd (by decide) h
  | placementMap => exact absurd (by decide) h
  | _ =>
    cases x with
    | number o n =>
      cases o
      all_goals simp [Slot.write, Slot.kinds, Setting.kind]
    | _ => simp [Slot.write, Slot.kinds, Setting.kind]

theorem Slot.kind_mem_kinds {slot : Slot} {x : Setting} (h : (slot.write x).isSome) :
    x.kind ∈ slot.kinds := by
  by_cases hslot : slot ∈ Slot.ofSomeWords
  · rcases Slot.mem_ofSomeWords hslot with rfl | rfl | rfl
    all_goals
      cases x
      all_goals first | exact List.mem_singleton_self _ | cases h
  · exact (Slot.write_isSome_iff hslot x).mp h

theorem Slot.kinds_cases (slot : Slot) : slot.kinds = [] ∨ (∃ k, slot.kinds = [k]) ∨
    slot.kinds = [.seconds, .number .iterations] := by
  cases slot with
  | derived => exact .inl rfl
  | seconds => exact .inr (.inr rfl)
  | number o =>
    cases o with
    | iterations => exact .inr (.inr rfl)
    | _ => exact .inr (.inl ⟨_, rfl⟩)
  | _ => exact .inr (.inl ⟨_, rfl⟩)

theorem kind_of_write {slot : Slot} {x y : Setting} (hx : (slot.write x).isSome)
    (hy : (slot.write y).isSome) : x.kind = y.kind ∨ x.ClearEachOther y := by
  have hx' := Slot.kind_mem_kinds hx
  have hy' := Slot.kind_mem_kinds hy
  rcases slot.kinds_cases with hkinds | ⟨k, hkinds⟩ | hkinds
  · rw [hkinds] at hx'
    simp at hx'
  · rw [hkinds, List.mem_singleton] at hx' hy'
    exact .inl (hx'.trans hy'.symm)
  · simp only [hkinds, List.mem_cons, List.not_mem_nil, or_false] at hx' hy'
    cases hx' with
    | inl hx' =>
      cases hy' with
      | inl hy' => exact .inl (hx'.trans hy'.symm)
      | inr hy' => exact .inr (.inl ⟨hx', hy'⟩)
    | inr hx' =>
      cases hy' with
      | inl hy' => exact .inr (.inr ⟨hx', hy'⟩)
      | inr hy' => exact .inl (hx'.trans hy'.symm)

theorem write_of_kind_eq {slot : Slot} {x y : Setting} (hkind : x.kind = y.kind)
    (hslot : slot ∉ Slot.ofSomeWords) (hx : (slot.write x).isSome) : (slot.write y).isSome := by
  rw [Slot.write_isSome_iff hslot] at hx ⊢
  rwa [← hkind]

/-- The fields that stay as the option loop leaves them: sizes are rounded up, a map brings
its own counts. -/
def Slot.Kept : Slot → Prop
  | .number .page | .number .chain | .number .references | .number .threads | .derived => False
  | _ => True

section Kept
variable {e e' : Experiment} {slot : Slot} (hkept : slot.Kept)
include hkept

theorem deriveSizes_read (h : deriveSizes e = some e') : slot.read e' = slot.read e := by
  simp only [deriveSizes, Option.bind_eq_bind, Option.bind_eq_some_iff, Option.pure_def,
    Option.some.injEq] at h
  obtain ⟨L, _, P, _, K, _, rfl⟩ := h
  cases slot with
  | number o =>
    cases o
    all_goals first | rfl | exact False.elim hkept
  | derived => exact False.elim hkept
  | _ => rfl

theorem setMap_read (threads chains : Int) (m : MapTables) :
    slot.read (e.setMap threads chains m) = slot.read e := by
  cases slot with
  | number o =>
    cases o
    all_goals first | rfl | exact False.elim hkept
  | derived => exact False.elim hkept
  | _ => rfl

theorem allocDomains_read {chainOf : Int → Int} (h : allocDomains e chainOf = some e') :
    slot.read e' = slot.read e := by
  obtain ⟨threads, _, hrest⟩ := Option.bind_eq_some_iff.mp h
  obtain ⟨chains, _, he⟩ := Option.bind_eq_some_iff.mp hrest
  simp only [Option.pure_def, Option.some.injEq] at he
  subst he
  cases slot with
  | derived => exact False.elim hkept
  | _ => rfl

theorem setNuma_read (p : Platform) : slot.read (e.setNuma p) = slot.read e := by
  cases slot with
  | derived => exact False.elim hkept
  | _ => rfl

theorem allocComputed_read (h : allocComputed e = some e') : slot.read e' = slot.read e := by
  obtain ⟨_, threads, _, _, hplaced⟩ := (allocComputed_eq_some_iff _ _).mp h
  have hseeds : slot.read (e.setRandomState threads) = slot.read e := by
    cases slot with
    | derived => exact False.elim hkept
    | _ => rfl
  unfold allocPlaced at hplaced
  split at hplaced
  · exact (allocDomains_read hkept hplaced).trans hseeds
  · exact (allocDomains_read hkept hplaced).trans hseeds
  · exact (allocDomains_read hkept hplaced).trans hseeds

theorem allocate_read {p : Platform} (h : allocate p e = .accepted e') :
    slot.read e' = slot.read e := by
  obtain ⟨e₁, hd, ⟨_, hmap⟩ | ⟨_, hc⟩⟩ := (allocate_eq_accepted_iff p e e').mp h
  · obtain ⟨_, _, m, _, rfl⟩ := (allocMap_eq_ok_iff _ _ _).mp hmap
    rw [setMap_read hkept, setNuma_read hkept, deriveSizes_read hkept hd]
  · rw [allocComputed_read hkept hc, setNuma_read hkept, deriveSizes_read hkept hd]

end Kept

theorem replaced_of_write {slot : Slot} (hslot : slot ∈ Slot.ofSomeWords) {x : Setting}
    {v : slot.Value} (h : slot.write x = some v) : x.kind.Replaced := by
  have hkind := Slot.kind_mem_kinds (Option.isSome_of_eq_some h)
  rcases Slot.mem_ofSomeWords hslot with rfl | rfl | rfl
  all_goals
    rw [List.mem_singleton.mp hkind]
    trivial

section Deletion
variable {A rest : List (Phrase p)} {x : Phrase p}

theorem requested_append_cons (A rest : List (Phrase p)) (x : Phrase p) :
    requested (A ++ x :: rest) =
      settings.run (settingsOf rest) (settings.apply x.setting (requested A)) := by
  rw [requested_eq_run, requested_eq_run, settingsOf, List.map_append, settings.run_append]
  rfl

theorem requested_append (A rest : List (Phrase p)) :
    requested (A ++ rest) = settings.run (settingsOf rest) (requested A) := by
  rw [requested_eq_run, requested_eq_run, settingsOf, List.map_append, settings.run_append]
  rfl

theorem exists_settingsOf (slot : Slot) : (∃ b ∈ settingsOf rest, (settings.write slot b).isSome) ↔
    ∃ y ∈ rest, (slot.write y.setting).isSome := by
  simp only [settingsOf, List.mem_map, exists_exists_and_eq_and]
  rfl

/-- The fields that only some words write are all that an overridden option may leave. -/
theorem requested_delete (hlater : ∃ y ∈ rest, y.setting.kind = x.setting.kind)
    (h : ∀ slot ∈ Slot.ofSomeWords, slot.read (requested (A ++ x :: rest)) =
      slot.read (requested (A ++ rest))) :
    requested (A ++ x :: rest) = requested (A ++ rest) := by
  apply Slot.read_ext
  intro slot
  by_cases hslot : slot ∈ Slot.ofSomeWords
  · exact h slot hslot
  · rw [requested_append_cons, requested_append]
    apply (settings.read_run_apply_eq_iff slot _ _ _).mpr
    intro v hv
    obtain ⟨y, hy, hkind⟩ := hlater
    have hwrite : (slot.write x.setting).isSome := Option.isSome_of_eq_some hv
    exact .inl ((exists_settingsOf slot).mpr ⟨y, hy, write_of_kind_eq hkind.symm hslot hwrite⟩)

theorem parseArgs_delete_iff {e : Experiment}
    (h : parseArgs p (commandWords (A ++ x :: rest)) = .accepted e)
    (hlater : ∃ y ∈ rest, y.setting.kind = x.setting.kind) :
    parseArgs p (commandWords (A ++ rest)) = parseArgs p (commandWords (A ++ x :: rest)) ↔
      ∀ slot ∈ Slot.ofSomeWords, ∀ v, slot.write x.setting = some v →
        (∃ y ∈ rest, (slot.write y.setting).isSome) ∨
          v = (settings.written slot (settingsOf A)).getD (slot.read {}) := by
  have hslots : ∀ slot : Slot, slot.read (requested (A ++ x :: rest)) =
      slot.read (requested (A ++ rest)) ↔ ∀ v, slot.write x.setting = some v →
        (∃ y ∈ rest, (slot.write y.setting).isSome) ∨
          v = (settings.written slot (settingsOf A)).getD (slot.read {}) := by
    intro slot
    rw [requested_append_cons, requested_append, ← read_requested, ← exists_settingsOf]
    exact settings.read_run_apply_eq_iff slot _ _ _
  simp only [← hslots]
  constructor
  · intro heq slot hslot
    have hkept : slot.Kept := by
      rcases Slot.mem_ofSomeWords hslot with rfl | rfl | rfl
      all_goals trivial
    rw [h] at heq
    rw [parseArgs_commandWords] at h heq
    rw [← allocate_read hkept h, ← allocate_read hkept heq]
  · intro heq
    rw [parseArgs_commandWords, parseArgs_commandWords, requested_delete hlater heq]

end Deletion

theorem requested_exchange {A C : List (Phrase p)} {x y : Phrase p}
    (hkind : x.setting.kind ≠ y.setting.kind) (hclear : ¬ x.setting.ClearEachOther y.setting) :
    requested (A ++ y :: x :: C) = requested (A ++ x :: y :: C) := by
  have hslots : ∀ slot, settings.write slot x.setting = none ∨
      settings.write slot y.setting = none := by
    intro slot
    by_contra hboth
    rw [not_or, ← ne_eq, ← ne_eq, Option.ne_none_iff_isSome, Option.ne_none_iff_isSome] at hboth
    exact (kind_of_write hboth.1 hboth.2).elim hkind hclear
  rw [requested_append_cons, requested_append_cons]
  exact congrArg (settings.run (settingsOf C)) (settings.apply_comm hslots (requested A))

/-- Later options replace earlier ones of an accepted command line exactly when nothing is
left over of a stride, mask, offset or map. -/
theorem later_options_replace_iff (args : List CStr) (e : Experiment)
    (h : parseArgs p args = .accepted e) :
    (∃ phrases : List (Phrase p), args = commandWords phrases) ∧
      ∀ phrases : List (Phrase p), args = commandWords phrases →
        (LaterReplaces phrases ↔ NothingLeftOver phrases) := by
  refine ⟨exists_phrases h, ?_⟩
  intro phrases hargs
  subst hargs
  constructor
  · intro hreplaces A x rest hphrases hlater slot hslot v hv
    subst hphrases
    obtain ⟨y, hy, hkind⟩ := hlater
    obtain ⟨B, C, rfl⟩ := List.mem_iff_append.mp hy
    have hkept := hreplaces.1 A x B y C rfl hkind.symm (replaced_of_write hslot hv)
    exact (parseArgs_delete_iff h ⟨y, hy, hkind⟩).mp hkept slot hslot v hv
  · intro hnothing
    constructor
    · intro A x B y C hphrases hkind _
      subst hphrases
      have hlater : ∃ z ∈ B ++ y :: C, z.setting.kind = x.setting.kind :=
        ⟨y, by simp, hkind.symm⟩
      exact (parseArgs_delete_iff h hlater).mpr (hnothing A x _ rfl hlater)
    · intro A x y C hphrases hkind hclear
      rw [hphrases, parseArgs_commandWords, parseArgs_commandWords,
        requested_exchange hkind hclear]

section LeftOverStride

def forwardFour : Phrase Platform.single :=
  ⟨["-a".toList, "forward".toList, "4".toList], .strided (parseNumber "4".toList),
    .forward (by decide) (by decide) (by decide)⟩

def randomAccess : Phrase Platform.single :=
  ⟨["-a".toList, "random".toList], .random, .random (by decide) (by decide)⟩

def loadAll : Phrase Platform.single :=
  ⟨["-m".toList, "load_all".toList], .operation .loadAll, .operation (by decide) (by decide)⟩

theorem later_options_replace_same_stride : LaterReplaces [forwardFour, forwardFour] := by
  have hrun : ∃ e, parseArgs .single (commandWords [forwardFour, forwardFour]) =
      .accepted e := ⟨_, rfl⟩
  obtain ⟨e, he⟩ := hrun
  apply ((later_options_replace_iff _ e he).2 _ rfl).mpr
  intro A x rest hphrases hlater slot _ v hv
  have hsame : ∀ y ∈ A ++ x :: rest, y = forwardFour := by
    rw [← hphrases]
    simp
  obtain ⟨y, hy, _⟩ := hlater
  refine .inl ⟨y, hy, ?_⟩
  rw [hsame y (by simp [hy]), ← hsame x (by simp)]
  exact Option.isSome_of_eq_some hv

/-- `-a forward 4 -a random` keeps the stride 4, which `load_all` reads. -/
theorem random_keeps_stride :
    (∃ e, parseArgs .single (commandWords [forwardFour, randomAccess, loadAll]) = .accepted e) ∧
      ¬ LaterReplaces [forwardFour, randomAccess, loadAll] := by
  have hrun : ∃ e, parseArgs .single (commandWords [forwardFour, randomAccess, loadAll]) =
      .accepted e := ⟨_, rfl⟩
  obtain ⟨e, he⟩ := hrun
  refine ⟨⟨e, he⟩, ?_⟩
  intro hreplaces
  have hdelete := hreplaces.1 [] forwardFour [] randomAccess [loadAll] rfl rfl trivial
  have hread := (parseArgs_delete_iff (A := []) he ⟨randomAccess, by simp, rfl⟩).mp hdelete
    .stride (by decide) 4 (by decide)
  cases hread with
  | inl hlater => simp [randomAccess, loadAll, Slot.write] at hlater
  | inr hbefore =>
    have hstride : (4 : Int) = 1 := hbefore
    omega

end LeftOverStride

end PChase
