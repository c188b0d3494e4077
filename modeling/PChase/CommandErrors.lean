import PChase.CommandLine

/-!
# Command lines that are rejected

The other words of the grammar: requests for the usage, which the loop passes by, and the
faults that end it. A command line is rejected exactly when a fault follows what can be
read, and the message is that of the fault.
-/

namespace PChase

open CInt CountLoop
set_option autoImplicit false

section Texts

/-- What an option says when its first argument is missing. -/
def OptionKind.missing : OptionKind → Option String
  | .strict => none
  | .seconds => some "amount of seconds missing"
  | .number .line => some "cache line size missing"
  | .number .page => some "page size missing"
  | .number .chain => some "chain size missing"
  | .number .references => some "amount of chains per thread missing"
  | .number .threads => some "amount of threads missing"
  | .number .iterations => some "amount of iterations missing"
  | .number .experiments => some "amount of experiments missing"
  | .number .loop => some "loop length missing"
  | .prefetch => some "type of prefetch hint missing"
  | .operation => some "type of operartion missing"
  | .access => some "type of memory access pattern missing"
  | .output => some "output format missing"
  | .numa => some "numa placement missing"

def NumberOption.invalid : NumberOption → String
  | .line => "invalid cache line size"
  | .page => "invalid page size"
  | .chain => "invalid chain size"
  | .references => "invalid amount of chains per thread"
  | .threads => "invalid amount of threads"
  | .iterations => "invalid amount of iterations"
  | .experiments => "invalid amount of experiments"
  | .loop => "invalid loop length"

def OptionKind.keywords : OptionKind → Option (List String × String)
  | .prefetch => some (prefetchWords.map (·.1), "invalid type of prefetch hint")
  | .operation => some (operationWords.map (·.1), "invalid type of operartion")
  | .output => some (outputWords.map (·.1), "invalid output format")
  | .access => some (["random", "forward", "reverse"], "invalid type of memory access pattern")
  | .numa => some (["local", "xor", "add", "map"], "invalid numa placement")
  | _ => none

def secondArguments : List (OptionKind × String × String) :=
  [(.access, "forward", "stride of forward memory access pattern missing"),
    (.access, "reverse", "stride of reverse memory access pattern missing"),
    (.numa, "xor", "numa placement local map missing"),
    (.numa, "add", "numa placement addition offset missing"),
    (.numa, "map", "numa placement map specification missing")]

def strides : List (String × String) :=
  [("forward", "invalid stride of forward memory access pattern"),
    ("reverse", "invalid stride of reverse memory access pattern")]

end Texts

def asksForUsage (word : CStr) : Bool := strcasecmp word "-h" || strcasecmp word "--help"

/-- The beginnings of a command line that the loop stops at, and its messages. -/
inductive Fault (p : Platform) : List CStr → CStr → Prop where
  | unknown {word : CStr} {rest : List CStr} (hhelp : asksForUsage word = false)
    (h : optionOf word = none) : Fault p (word :: rest) (wordError "invalid option" word)
  | missing {word : CStr} {kind : OptionKind} {text : String} (h : optionOf word = some kind)
    (htext : kind.missing = some text) : Fault p [word] text.toList
  | seconds {word w : CStr} {rest : List CStr} (h : optionOf word = some .seconds)
    (hw : parseReal p.round w = 0) : Fault p (word :: w :: rest) "invalid amount of seconds".toList
  | number {word w : CStr} {rest : List CStr} {o : NumberOption}
    (h : optionOf word = some (.number o)) (ho : o ≠ .loop) (hw : parseNumber w = 0) :
    Fault p (word :: w :: rest) o.invalid.toList
  | keyword {word w : CStr} {rest : List CStr} {kind : OptionKind} {names : List String}
    {text : String} (h : optionOf word = some kind) (hkind : kind.keywords = some (names, text))
    (hw : ∀ name ∈ names, strcasecmp w name = false) :
    Fault p (word :: w :: rest) (wordError text w)
  | argument {word w : CStr} {kind : OptionKind} {name text : String}
    (h : optionOf word = some kind) (hname : (kind, name, text) ∈ secondArguments)
    (hw : strcasecmp w name = true) : Fault p [word, w] text.toList
  | stride {word w v : CStr} {rest : List CStr} {name text : String}
    (h : optionOf word = some .access) (hname : (name, text) ∈ strides)
    (hw : strcasecmp w name = true) (hv : parseNumber v = 0) :
    Fault p (word :: w :: v :: rest) text.toList

/-- What the loop reads, and what is left: phrases with their settings, and requests for the
usage in between. -/
inductive Begins (p : Platform) : List CStr → List (Option Setting) → List CStr → Prop where
  | nothing {args : List CStr} : Begins p args [] args
  | help {word : CStr} {args tail : List CStr} {xs : List (Option Setting)}
    (h : asksForUsage word = true) (ht : Begins p args xs tail) :
    Begins p (word :: args) (none :: xs) tail
  | phrase {words args tail : List CStr} {x : Setting} {xs : List (Option Setting)}
    (h : Reads p words x) (ht : Begins p args xs tail) :
    Begins p (words ++ args) (some x :: xs) tail

section Handlers
variable {p : Platform} {word : CStr} {e : Experiment} {rest : List CStr} {message : CStr}

theorem withWord_error {α : Type} {missing : String} {k : CStr → Except CStr α}
    (h : withWord missing rest k = .error message) :
    (rest = [] ∧ message = missing.toList) ∨ ∃ w tail, rest = w :: tail ∧ k w = .error message := by
  cases rest with
  | nil => exact .inl ⟨rfl, (Except.error.inj h).symm⟩
  | cons w tail => exact .inr ⟨w, tail, rfl, h⟩

theorem handlerOf_invalid (o : NumberOption) : ∃ missing, (OptionKind.number o).missing = some missing ∧
    handlerOf p (.number o) = numberOption missing o.invalid o.set o.bad := by
  cases o
  all_goals exact ⟨_, rfl, rfl⟩

theorem lookup_eq_none_iff {β : Type} {table : List (String × β)} {w : CStr} :
    lookup table w = none ↔ ∀ name ∈ table.map (·.1), strcasecmp w name = false := by
  simp [lookup]

theorem fault_of_number {o : NumberOption} (hword : optionOf word = some (.number o))
    (he : e.experiments ≠ 0) (h : handlerOf p (.number o) e rest = .error message) :
    Fault p (word :: rest) message := by
  obtain ⟨missing, hmissing, hhandler⟩ := handlerOf_invalid (p := p) o
  rw [hhandler] at h
  rcases withWord_error h with ⟨rfl, rfl⟩ | ⟨w, tail, rfl, hrun⟩
  · exact .missing hword hmissing
  · simp only at hrun
    split at hrun
    · rename_i hbad
      obtain rfl := Except.error.inj hrun
      rw [NumberOption.bad_set] at hbad
      split at hbad
      · exact absurd (beq_iff_eq.mp hbad) he
      · rename_i ho
        exact .number hword ho (beq_iff_eq.mp hbad)
    · simp at hrun

theorem fault_of_keyword {β : Type} {missing invalid : String} {table : List (String × β)}
    {set : Experiment → β → Experiment} {kind : OptionKind} (hword : optionOf word = some kind)
    (hmissing : kind.missing = some missing)
    (hkind : kind.keywords = some (table.map (·.1), invalid))
    (h : keywordOption missing invalid table set e rest = .error message) :
    Fault p (word :: rest) message := by
  rcases withWord_error h with ⟨rfl, rfl⟩ | ⟨w, tail, rfl, hrun⟩
  · exact .missing hword hmissing
  · split at hrun
    · simp at hrun
    · rename_i hfind
      obtain rfl := Except.error.inj hrun
      refine .keyword hword hkind (lookup_eq_none_iff.mp ?_)
      rw [lookup, hfind]
      rfl

theorem fault_of_stride {name missing invalid : String} {signed : Int → Int} {w : CStr}
    (hword : optionOf word = some .access) (hw : strcasecmp w name = true)
    (hmissing : (.access, name, missing) ∈ secondArguments) (hinvalid : (name, invalid) ∈ strides)
    (hsigned : ∀ v, signed (parseNumber v) = 0 → parseNumber v = 0)
    (h : strideArgument missing invalid signed e rest = .error message) :
    Fault p (word :: w :: rest) message := by
  rcases withWord_error h with ⟨rfl, rfl⟩ | ⟨v, tail, rfl, hrun⟩
  · exact .argument hword hmissing hw
  · simp only at hrun
    split at hrun
    · rename_i hzero
      obtain rfl := Except.error.inj hrun
      exact .stride hword hinvalid hw (hsigned v hzero)
    · simp at hrun

theorem parseNumber_of_neg {v : CStr} (h : wrap64 (-parseNumber v) = 0) : parseNumber v = 0 := by
  have hrange := parseNumber_inInt64 v
  unfold InInt64 at hrange
  rw [wrap64_eq] at h
  omega

theorem fault_of_access (hword : optionOf word = some .access)
    (h : accessOption e rest = .error message) : Fault p (word :: rest) message := by
  rcases withWord_error h with ⟨rfl, rfl⟩ | ⟨w, tail, rfl, hrun⟩
  · exact .missing hword rfl
  · split at hrun
    · simp at hrun
    rename_i hrandom
    split at hrun
    · rename_i hforward
      exact fault_of_stride hword hforward (by decide) (by decide) (fun _ hv => hv) hrun
    rename_i hforward
    split at hrun
    · rename_i hreverse
      exact fault_of_stride hword hreverse (by decide) (by decide)
        (fun _ hv => parseNumber_of_neg hv) hrun
    rename_i hreverse
    obtain rfl := Except.error.inj hrun
    refine .keyword hword rfl ?_
    simp [hrandom, hforward, hreverse]

theorem fault_of_argument {kind : OptionKind} {name missing : String} {w : CStr}
    {set : CStr → Experiment} {taken : Nat} (hword : optionOf word = some kind)
    (hw : strcasecmp w name = true) (hmissing : (kind, name, missing) ∈ secondArguments)
    (h : withWord missing rest (fun v => .ok (set v, taken)) = .error message) :
    Fault p (word :: w :: rest) message := by
  rcases withWord_error h with ⟨rfl, rfl⟩ | ⟨v, tail, rfl, hrun⟩
  · exact .argument hword hmissing hw
  · simp at hrun

theorem fault_of_numa (hword : optionOf word = some .numa)
    (h : numaOption e rest = .error message) : Fault p (word :: rest) message := by
  rcases withWord_error h with ⟨rfl, rfl⟩ | ⟨w, tail, rfl, hrun⟩
  · exact .missing hword rfl
  · split at hrun
    · simp at hrun
    rename_i hlocal
    split at hrun
    · rename_i hxor
      exact fault_of_argument hword hxor (by decide) hrun
    rename_i hxor
    split at hrun
    · rename_i hadd
      exact fault_of_argument hword hadd (by decide) hrun
    rename_i hadd
    split at hrun
    · rename_i hmap
      exact fault_of_argument hword hmap (by decide) hrun
    rename_i hmap
    obtain rfl := Except.error.inj hrun
    refine .keyword hword rfl ?_
    simp [hlocal, hxor, hadd, hmap]

theorem fault_of_handleOption (hhelp : asksForUsage word = false) (he : e.experiments ≠ 0)
    (h : handleOption p word e rest = .error message) : Fault p (word :: rest) message := by
  rw [handleOption_eq] at h
  cases hword : optionOf word with
  | none =>
    rw [hword] at h
    obtain rfl := Except.error.inj h
    exact .unknown hhelp hword
  | some kind =>
    simp only [hword] at h
    cases kind with
    | strict => simp [handlerOf, strictOption] at h
    | seconds =>
      rcases withWord_error h with ⟨rfl, rfl⟩ | ⟨w, tail, rfl, hrun⟩
      · exact .missing hword rfl
      · simp only at hrun
        split at hrun
        · rename_i hzero
          obtain rfl := Except.error.inj hrun
          exact .seconds hword hzero
        · simp at hrun
    | number o => exact fault_of_number hword he h
    | prefetch =>
      unfold handlerOf prefetchOption at h
      exact fault_of_keyword hword rfl rfl h
    | operation =>
      unfold handlerOf operationOption at h
      exact fault_of_keyword hword rfl rfl h
    | access => exact fault_of_access hword h
    | output =>
      unfold handlerOf outputOption at h
      exact fault_of_keyword hword rfl rfl h
    | numa => exact fault_of_numa hword h

theorem keyword_not_found {β : Type} {missing invalid : String} {table : List (String × β)}
    {set : Experiment → β → Experiment} {w : CStr}
    (hw : ∀ name ∈ table.map (·.1), strcasecmp w name = false) :
    keywordOption missing invalid table set e (w :: rest) = .error (wordError invalid w) := by
  have hfind := Option.map_eq_none_iff.mp (lookup_eq_none_iff.mpr hw)
  simp only [keywordOption, withWord, hfind]

theorem stride_zero (missing invalid : String) (signed : Int → Int) (rest : List CStr) {v : CStr}
    (hv : signed (parseNumber v) = 0) :
    strideArgument missing invalid signed e (v :: rest) = .error invalid.toList := by
  simp only [strideArgument, withWord, hv, if_true]

theorem handleOption_of_fault (h : Fault p (word :: rest) message) :
    handleOption p word e rest = .error message := by
  rw [handleOption_eq]
  cases h with
  | unknown _ h => rw [h]
  | @missing _ kind _ h htext =>
    rw [h]
    cases kind with
    | strict => simp [OptionKind.missing] at htext
    | number o =>
      cases o
      all_goals
        obtain rfl := Option.some.inj htext
        rfl
    | _ =>
      obtain rfl := Option.some.inj htext
      rfl
  | seconds h hw =>
    rw [h]
    exact if_pos hw
  | @number _ w _ o h ho hw =>
    rw [h]
    obtain ⟨missing, _, hhandler⟩ := handlerOf_invalid (p := p) o
    have hbad : o.bad (o.set e (parseNumber w)) = true := by
      rw [NumberOption.bad_set, if_neg ho, hw]
      rfl
    simp only [hhandler, numberOption, withWord, hbad, if_true]
  | @keyword _ w _ kind names text h hkind hw =>
    rw [h]
    cases kind with
    | strict | seconds | number => simp [OptionKind.keywords] at hkind
    | prefetch | operation | output =>
      obtain ⟨rfl, rfl⟩ := Prod.mk.inj (Option.some.inj hkind)
      simp only [handlerOf, prefetchOption, operationOption, outputOption]
      exact keyword_not_found hw
    | access =>
      obtain ⟨rfl, rfl⟩ := Prod.mk.inj (Option.some.inj hkind)
      simp only [List.forall_mem_cons] at hw
      simp [handlerOf, accessOption, withWord, hw.1, hw.2.1, hw.2.2.1]
    | numa =>
      obtain ⟨rfl, rfl⟩ := Prod.mk.inj (Option.some.inj hkind)
      simp only [List.forall_mem_cons] at hw
      simp [handlerOf, numaOption, withWord, hw.1, hw.2.1, hw.2.2.1, hw.2.2.2.1]
  | @argument _ w kind name text h hname hw =>
    rw [h]
    have hother := strcasecmp_eq_of hw
    simp only [secondArguments, List.mem_cons, Prod.mk.injEq, List.not_mem_nil, or_false] at hname
    rcases hname with ⟨rfl, rfl, rfl⟩ | ⟨rfl, rfl, rfl⟩ | ⟨rfl, rfl, rfl⟩ | ⟨rfl, rfl, rfl⟩ |
      ⟨rfl, rfl, rfl⟩
    all_goals
      simp only [handlerOf, accessOption, numaOption, withWord, hother]
      rfl
  | @stride _ w v tail name text h hname hw hv =>
    rw [h]
    have hother := strcasecmp_eq_of hw
    have hneg : wrap64 (-parseNumber v) = 0 := by
      rw [hv]
      rfl
    simp only [strides, List.mem_cons, Prod.mk.injEq, List.not_mem_nil, or_false] at hname
    rcases hname with ⟨rfl, rfl⟩ | ⟨rfl, rfl⟩
    · simp only [handlerOf, accessOption, withWord, hother]
      exact stride_zero "stride of forward memory access pattern missing" _ (fun n => n) tail hv
    · simp only [handlerOf, accessOption, withWord, hother]
      exact stride_zero "stride of reverse memory access pattern missing" _
        (fun n => wrap64 (-n)) tail hneg

end Handlers

section Loop
variable {p : Platform} {e : Experiment}

def applyAll (xs : List (Option Setting)) (e : Experiment) : Experiment :=
  xs.foldl (fun e x => x.elim e fun x => x.apply e) e

theorem Begins.loop {args tail : List CStr} {xs : List (Option Setting)}
    (h : Begins p args xs tail) (he : e.experiments ≠ 0) (usage : Bool) :
    (applyAll xs e).experiments ≠ 0 ∧ parseLoop p 0 e usage args =
      parseLoop p 0 (applyAll xs e) (usage || xs.contains none) tail := by
  induction h generalizing e usage with
  | nothing => exact ⟨he, by simp [applyAll]⟩
  | help h _ ih =>
    obtain ⟨hne, hloop⟩ := ih he true
    refine ⟨hne, ?_⟩
    unfold asksForUsage at h
    rw [parseLoop, if_pos h, hloop]
    simp [applyAll]
  | @phrase _ _ _ x xs h _ ih =>
    obtain ⟨hne, hloop⟩ := ih (h.experiments_ne he) usage
    refine ⟨hne, ?_⟩
    rw [parseLoop_phrase h he, hloop]
    simp [applyAll]

/-- Every command line is read up to its end or up to a fault. -/
theorem exists_begins (p : Platform) (args : List CStr) (he : e.experiments ≠ 0) :
    ∃ xs tail, Begins p args xs tail ∧ (tail = [] ∨ ∃ message, Fault p tail message) := by
  induction hn : args.length using Nat.strong_induction_on generalizing args e with
  | _ n ih =>
    cases args with
    | nil => exact ⟨[], [], .nothing, .inl rfl⟩
    | cons word rest =>
      cases hhelp : asksForUsage word with
      | true =>
        obtain ⟨xs, tail, hbegins, hend⟩ := ih rest.length (by
          rw [← hn]
          exact Nat.lt_succ_self _) rest he rfl
        exact ⟨none :: xs, tail, .help hhelp hbegins, hend⟩
      | false =>
        cases hrun : handleOption p word e rest with
        | error message =>
          exact ⟨[], word :: rest, .nothing, .inr ⟨message, fault_of_handleOption hhelp he hrun⟩⟩
        | ok r =>
          obtain ⟨e', used⟩ := r
          obtain ⟨args, tail, x, rfl, _, hreads, rfl⟩ := tookPhrase_of_handleOption hrun
          obtain ⟨xs, tail', hbegins, hend⟩ := ih tail.length (by
            rw [← hn, List.length_cons, List.length_append]
            omega) tail (hreads.experiments_ne he) rfl
          exact ⟨some x :: xs, tail', .phrase hreads hbegins, hend⟩

theorem Fault.head {args : List CStr} {message : CStr} (h : Fault p args message) :
    ∃ word rest, args = word :: rest ∧ asksForUsage word = false := by
  have hoption : ∀ {word : CStr} {kind : OptionKind}, optionOf word = some kind →
      asksForUsage word = false := by
    intro word kind hword
    rw [Bool.eq_false_iff]
    intro hhelp
    rw [optionOf_help hhelp] at hword
    simp at hword
  cases h with
  | unknown hhelp => exact ⟨_, _, rfl, hhelp⟩
  | missing h | seconds h | number h | keyword h | argument h | stride h =>
    exact ⟨_, _, rfl, hoption h⟩

theorem Fault.loop {args : List CStr} {message : CStr} (h : Fault p args message) (usage : Bool) :
    parseLoop p 0 e usage args = .error message := by
  obtain ⟨word, rest, rfl, hhelp⟩ := h.head
  unfold asksForUsage at hhelp
  rw [parseLoop, hhelp, handleOption_of_fault h]
  rfl

theorem parseArgs_of_fault {args tail : List CStr} {xs : List (Option Setting)} {message : CStr}
    (h : Begins p args xs tail) (hfault : Fault p tail message) :
    parseArgs p args = .rejected message := by
  rw [parseArgs, (h.loop (by decide) false).2, hfault.loop]

theorem parseArgs_of_begins {args : List CStr} {xs : List (Option Setting)}
    (h : Begins p args xs []) :
    parseArgs p args = if xs.contains none then .usage else allocate p (applyAll xs {}) := by
  rw [parseArgs, (h.loop (by decide) false).2, parseLoop, Bool.false_or]
  cases xs.contains none
  all_goals rfl

theorem Begins.phrases {args tail : List CStr} {xs : List (Option Setting)}
    (h : Begins p args xs tail) (hxs : none ∉ xs) :
    ∃ phrases : List (Phrase p), args = commandWords phrases ++ tail := by
  induction h with
  | nothing => exact ⟨[], rfl⟩
  | help => simp at hxs
  | @phrase words _ _ x _ hreads _ ih =>
    obtain ⟨phrases, rfl⟩ := ih fun hmem => hxs (List.mem_cons_of_mem _ hmem)
    refine ⟨⟨words, x, hreads⟩ :: phrases, ?_⟩
    rw [commandWords, commandWords, List.flatMap_cons, List.append_assoc]

end Loop

theorem allocate_ne_rejected {p : Platform} {e : Experiment} {message : CStr} :
    allocate p e ≠ .rejected message := by
  unfold allocate
  repeat' split
  all_goals simp

theorem allocate_ne_usage {p : Platform} {e : Experiment} : allocate p e ≠ .usage := by
  unfold allocate
  repeat' split
  all_goals simp

theorem parseArgs_of_asked {p : Platform} {args : List CStr} {xs : List (Option Setting)}
    (h : Begins p args xs []) (hasked : none ∈ xs) : parseArgs p args = .usage := by
  rw [parseArgs_of_begins h, if_pos (List.contains_iff_mem.mpr hasked)]

theorem parseArgs_cases (p : Platform) (args : List CStr) :
    (∃ xs tail message, Begins p args xs tail ∧ Fault p tail message) ∨
      (∃ xs, Begins p args xs [] ∧ none ∈ xs) ∨
      ∃ phrases : List (Phrase p), args = commandWords phrases ∧
        parseArgs p args = allocate p (requested phrases) := by
  obtain ⟨xs, tail, hbegins, rfl | ⟨message, hfault⟩⟩ :=
    exists_begins p args (e := {}) (by decide)
  · by_cases hasked : none ∈ xs
    · exact .inr (.inl ⟨xs, hbegins, hasked⟩)
    · obtain ⟨phrases, hargs⟩ := hbegins.phrases hasked
      rw [List.append_nil] at hargs
      exact .inr (.inr ⟨phrases, hargs, hargs ▸ parseArgs_commandWords phrases⟩)
  · exact .inl ⟨xs, tail, message, hbegins, hfault⟩

/-- A command line is refused with the message of the fault behind what can be read, it asks
for the usage, or it is a list of phrases for `allocate`. -/
theorem command_line_decided (p : Platform) (args : List CStr) :
    (∀ message, parseArgs p args = .rejected message ↔
      ∃ xs tail, Begins p args xs tail ∧ Fault p tail message) ∧
    (parseArgs p args = .usage ↔ ∃ xs, Begins p args xs [] ∧ none ∈ xs) ∧
    ((∃ xs tail message, Begins p args xs tail ∧ Fault p tail message) ∨
      (∃ xs, Begins p args xs [] ∧ none ∈ xs) ∨
      ∃ phrases : List (Phrase p), args = commandWords phrases ∧
        parseArgs p args = allocate p (requested phrases)) := by
  refine ⟨fun message => ⟨fun h => ?_, ?_⟩, ⟨fun h => ?_, ?_⟩, parseArgs_cases p args⟩
  · rcases parseArgs_cases p args with
      ⟨xs, tail, message', hb, hfault⟩ | ⟨xs, hb, hasked⟩ | ⟨phrases, _, hrun⟩
    · rw [parseArgs_of_fault hb hfault] at h
      exact ⟨xs, tail, hb, ParseResult.rejected.inj h ▸ hfault⟩
    · simp [parseArgs_of_asked hb hasked] at h
    · exact absurd (hrun ▸ h) allocate_ne_rejected
  · rintro ⟨xs, tail, hb, hfault⟩
    exact parseArgs_of_fault hb hfault
  · rcases parseArgs_cases p args with
      ⟨xs, tail, message, hb, hfault⟩ | hasked | ⟨phrases, _, hrun⟩
    · simp [parseArgs_of_fault hb hfault] at h
    · exact hasked
    · exact absurd (hrun ▸ h) allocate_ne_usage
  · rintro ⟨xs, hb, hasked⟩
    exact parseArgs_of_asked hb hasked

end PChase
