import PChase.Accepted

/-!
# The command line as a list of settings

What the option loop reads, as a grammar: a phrase is an option with the words it takes,
and it stands for one setting. The loop accepts exactly the sequences of phrases, and the
record it leaves is that of the settings applied one after the other.
-/

namespace PChase

open CInt CountLoop
set_option autoImplicit false

inductive NumberOption where
  | line
  | page
  | chain
  | references
  | threads
  | iterations
  | experiments
  | loop
  deriving Repr, DecidableEq

inductive OptionKind where
  | strict
  | seconds
  | number (o : NumberOption)
  | prefetch
  | operation
  | access
  | output
  | numa
  deriving Repr, DecidableEq

/-- The names of the options, in the order of the `else if` chain. -/
def optionNames : List (String × String × OptionKind) :=
  [("-x", "--strict", .strict), ("-s", "--seconds", .seconds),
    ("-l", "--line", .number .line), ("-p", "--page", .number .page),
    ("-c", "--chain", .number .chain), ("-r", "--references", .number .references),
    ("-t", "--threads", .number .threads), ("-i", "--iterations", .number .iterations),
    ("-e", "--experiments", .number .experiments), ("-g", "--loop", .number .loop),
    ("-f", "--prefetch", .prefetch), ("-m", "--operartion", .operation), ("-a", "--access", .access),
    ("-o", "--output", .output), ("-n", "--numa", .numa)]

def optionOf (word : CStr) : Option OptionKind :=
  (optionNames.find? fun entry => strcasecmp word entry.1 || strcasecmp word entry.2.1).map (·.2.2)

def prefetchWords : List (String × PrefetchHint) :=
  [("none", .none), ("nta", .nta), ("t0", .t0), ("t1", .t1), ("t2", .t2)]

def operationWords : List (String × MemOperation) :=
  [("none", .na), ("load", .load), ("store", .store), ("load_all", .loadAll),
    ("store_all", .storeAll)]

def outputWords : List (String × OutputMode) :=
  [("table", .table), ("csv", .csv), ("both", .both), ("hdr", .header), ("header", .header)]

def lookup {β : Type} (table : List (String × β)) (word : CStr) : Option β :=
  (table.find? fun entry => strcasecmp word entry.1).map (·.2)

inductive Setting where
  | strict
  | seconds (x : ℚ)
  | number (o : NumberOption) (n : Int)
  | prefetch (hint : PrefetchHint)
  | operation (o : MemOperation)
  | random
  | strided (stride : Int)
  | output (mode : OutputMode)
  | numaLocal
  | numaXor (mask : Int)
  | numaAdd (offset : Int)
  | numaMap (map : CStr)
  deriving Repr, DecidableEq

def Setting.kind : Setting → OptionKind
  | .strict => .strict
  | .seconds _ => .seconds
  | .number o _ => .number o
  | .prefetch _ => .prefetch
  | .operation _ => .operation
  | .random | .strided _ => .access
  | .output _ => .output
  | .numaLocal | .numaXor _ | .numaAdd _ | .numaMap _ => .numa

def NumberOption.set (o : NumberOption) (e : Experiment) (n : Int) : Experiment :=
  match o with
  | .line => { e with bytesPerLine := n }
  | .page => { e with bytesPerPage := n }
  | .chain => { e with bytesPerChain := n }
  | .references => { e with chainsPerThread := n }
  | .threads => { e with numThreads := n }
  | .iterations => { e with iterations := n, seconds := 0 }
  | .experiments => { e with experiments := n }
  | .loop => { e with loopLength := n }

def NumberOption.get (o : NumberOption) (e : Experiment) : Int :=
  match o with
  | .line => e.bytesPerLine
  | .page => e.bytesPerPage
  | .chain => e.bytesPerChain
  | .references => e.chainsPerThread
  | .threads => e.numThreads
  | .iterations => e.iterations
  | .experiments => e.experiments
  | .loop => e.loopLength

def Setting.apply (s : Setting) (e : Experiment) : Experiment :=
  match s with
  | .strict => { e with strict := true }
  | .seconds x => { e with seconds := x, iterations := 0 }
  | .number o n => o.set e n
  | .prefetch hint => { e with prefetchHint := hint }
  | .operation o => { e with memOperation := o }
  | .random => { e with accessPattern := .random }
  | .strided stride => { e with accessPattern := .strided, stride }
  | .output mode => { e with outputMode := mode }
  | .numaLocal => { e with numaPlacement := .numaLocal }
  | .numaXor mask => { e with numaPlacement := .numaXor, offsetOrMask := mask }
  | .numaAdd offset => { e with numaPlacement := .numaAdd, offsetOrMask := offset }
  | .numaMap map => { e with numaPlacement := .numaMap, placementMap := some map }

/-- The phrases of the command line and what they set. A zero is refused where the option
tests its own field, which `-g` does not. -/
inductive Reads (p : Platform) : List CStr → Setting → Prop where
  | strict {word : CStr} (h : optionOf word = some .strict) : Reads p [word] .strict
  | seconds {word w : CStr} (h : optionOf word = some .seconds) (hne : parseReal p.round w ≠ 0) :
    Reads p [word, w] (.seconds (parseReal p.round w))
  | number {o : NumberOption} {word w : CStr} (h : optionOf word = some (.number o))
    (hne : o ≠ .loop → parseNumber w ≠ 0) : Reads p [word, w] (.number o (parseNumber w))
  | prefetch {word w : CStr} {hint : PrefetchHint} (h : optionOf word = some .prefetch)
    (hw : lookup prefetchWords w = some hint) : Reads p [word, w] (.prefetch hint)
  | operation {word w : CStr} {operation : MemOperation} (h : optionOf word = some .operation)
    (hw : lookup operationWords w = some operation) : Reads p [word, w] (.operation operation)
  | random {word w : CStr} (h : optionOf word = some .access) (hw : strcasecmp w "random" = true) :
    Reads p [word, w] .random
  | forward {word w stride : CStr} (h : optionOf word = some .access)
    (hw : strcasecmp w "forward" = true) (hne : parseNumber stride ≠ 0) :
    Reads p [word, w, stride] (.strided (parseNumber stride))
  | reverse {word w stride : CStr} (h : optionOf word = some .access)
    (hw : strcasecmp w "reverse" = true) (hne : wrap64 (-parseNumber stride) ≠ 0) :
    Reads p [word, w, stride] (.strided (wrap64 (-parseNumber stride)))
  | output {word w : CStr} {mode : OutputMode} (h : optionOf word = some .output)
    (hw : lookup outputWords w = some mode) : Reads p [word, w] (.output mode)
  | numaLocal {word w : CStr} (h : optionOf word = some .numa) (hw : strcasecmp w "local" = true) :
    Reads p [word, w] .numaLocal
  | numaXor {word w mask : CStr} (h : optionOf word = some .numa)
    (hw : strcasecmp w "xor" = true) : Reads p [word, w, mask] (.numaXor (parseNumber mask))
  | numaAdd {word w offset : CStr} (h : optionOf word = some .numa)
    (hw : strcasecmp w "add" = true) : Reads p [word, w, offset] (.numaAdd (parseNumber offset))
  | numaMap {word w map : CStr} (h : optionOf word = some .numa)
    (hw : strcasecmp w "map" = true) : Reads p [word, w, map] (.numaMap map)

structure Phrase (p : Platform) where
  words : List CStr
  setting : Setting
  reads : Reads p words setting

variable {p : Platform}

def commandWords (phrases : List (Phrase p)) : List CStr := phrases.flatMap Phrase.words

/-- The record behind the option loop. -/
def requested (phrases : List (Phrase p)) : Experiment :=
  phrases.foldl (fun e x => x.setting.apply e) {}

section Handlers

def handlerOf (p : Platform) : OptionKind → Handler
  | .strict => strictOption
  | .seconds => secondsOption p
  | .number .line => lineOption
  | .number .page => pageOption
  | .number .chain => chainOption
  | .number .references => referencesOption
  | .number .threads => threadsOption
  | .number .iterations => iterationsOption
  | .number .experiments => experimentsOption
  | .number .loop => loopOption
  | .prefetch => prefetchOption
  | .operation => operationOption
  | .access => accessOption
  | .output => outputOption
  | .numa => numaOption

theorem handleOption_eq (p : Platform) (word : CStr) (e : Experiment) (rest : List CStr) :
    handleOption p word e rest =
      match optionOf word with
      | some kind => handlerOf p kind e rest
      | none => .error (wordError "invalid option" word) := by
  have htable : optionTable p = optionNames.map fun entry =>
      (entry.1, entry.2.1, handlerOf p entry.2.2) := rfl
  unfold handleOption optionOf
  rw [htable, List.find?_map]
  simp only [Function.comp_def]
  cases optionNames.find? fun entry => strcasecmp word entry.1 || strcasecmp word entry.2.1 with
  | none => rfl
  | some entry => rfl

def NumberOption.bad (o : NumberOption) (e : Experiment) : Bool :=
  match o with
  | .loop => e.experiments == 0
  | o => o.get e == 0

theorem handlerOf_number (o : NumberOption) : ∃ missing invalid : String,
    handlerOf p (.number o) = numberOption missing invalid o.set o.bad := by
  cases o
  all_goals exact ⟨_, _, rfl⟩

theorem NumberOption.bad_set {o : NumberOption} {e : Experiment} {n : Int} :
    o.bad (o.set e n) = if o = .loop then e.experiments == 0 else n == 0 := by
  cases o
  all_goals rfl

theorem keyword_find {β : Type} {table : List (String × β)} {word : CStr} {b : β}
    (h : lookup table word = some b) : ∃ entry, (table.find? fun entry =>
      strcasecmp word entry.1) = some entry ∧ entry.2 = b :=
  Option.map_eq_some_iff.mp h

theorem strcasecmp_eq_of {word : CStr} {a : String} (h : strcasecmp word a = true) (b : String) :
    strcasecmp word b = (a.toList.map Char.toLower == b.toList.map Char.toLower) := by
  unfold strcasecmp at h ⊢
  rw [beq_iff_eq.mp h]

end Handlers

section Soundness
variable {word : CStr} {e e' : Experiment} {rest : List CStr} {used : Nat}

def TookPhrase (p : Platform) (word : CStr) (e e' : Experiment) (rest : List CStr) (used : Nat) :
    Prop :=
  ∃ args tail s, rest = args ++ tail ∧ used = args.length ∧ Reads p (word :: args) s ∧
    e' = s.apply e

theorem head_eq {w : CStr} (h : rest.head? = some w) : ∃ tail, rest = w :: tail := by
  cases rest with
  | nil => simp at h
  | cons a tail => exact ⟨tail, by simpa using h⟩

theorem TookPhrase.one {w : CStr} {s : Setting} (hw : rest.head? = some w)
    (hread : Reads p [word, w] s) (he : e' = s.apply e) : TookPhrase p word e e' rest 1 := by
  obtain ⟨tail, rfl⟩ := head_eq hw
  exact ⟨[w], tail, s, rfl, rfl, hread, he⟩

theorem TookPhrase.two {w v : CStr} {s : Setting} (hw : rest.head? = some w)
    (hv : rest.tail.head? = some v) (hread : Reads p [word, w, v] s) (he : e' = s.apply e) :
    TookPhrase p word e e' rest 2 := by
  obtain ⟨tail, rfl⟩ := head_eq hw
  obtain ⟨tail', rfl⟩ := head_eq hv
  exact ⟨[w, v], tail', s, rfl, rfl, hread, he⟩

theorem took_keyword {β : Type} {missing invalid : String} {table : List (String × β)}
    {set : Experiment → β → Experiment} {s : β → Setting} (hset : ∀ b e, set e b = (s b).apply e)
    (hread : ∀ {w b}, lookup table w = some b → Reads p [word, w] (s b))
    (h : keywordOption missing invalid table set e rest = .ok (e', used)) :
    TookPhrase p word e e' rest used := by
  obtain ⟨w, hw, hk⟩ := withWord_ok h
  split at hk
  · rename_i entry hfind
    obtain ⟨rfl, rfl⟩ := Prod.mk.inj (Except.ok.inj hk)
    exact .one hw (hread (by rw [lookup, hfind]; rfl)) (hset _ _)
  · simp at hk

theorem took_number {o : NumberOption} (hword : optionOf word = some (.number o))
    (h : handlerOf p (.number o) e rest = .ok (e', used)) :
    TookPhrase p word e e' rest used := by
  obtain ⟨missing, invalid, hhandler⟩ := handlerOf_number (p := p) o
  rw [hhandler] at h
  obtain ⟨w, hw, hk⟩ := withWord_ok h
  simp only at hk
  split at hk
  · simp at hk
  · rename_i hbad
    obtain ⟨rfl, rfl⟩ := Prod.mk.inj (Except.ok.inj hk)
    refine .one hw (.number hword ?_) rfl
    intro hne hzero
    rw [NumberOption.bad_set, if_neg hne] at hbad
    simp [hzero] at hbad

theorem took_seconds (hword : optionOf word = some .seconds)
    (h : secondsOption p e rest = .ok (e', used)) : TookPhrase p word e e' rest used := by
  obtain ⟨w, hw, hk⟩ := withWord_ok h
  simp only at hk
  split at hk
  · simp at hk
  · rename_i hne
    obtain ⟨rfl, rfl⟩ := Prod.mk.inj (Except.ok.inj hk)
    exact .one hw (.seconds hword hne) rfl

theorem strideArgument_used {missing invalid : String} {signed : Int → Int}
    (h : strideArgument missing invalid signed e rest = .ok (e', used)) : used = 2 := by
  obtain ⟨w, _, hk⟩ := withWord_ok h
  simp only at hk
  split at hk
  · simp at hk
  · exact (Prod.mk.inj (Except.ok.inj hk)).2.symm

theorem took_access (hword : optionOf word = some .access)
    (h : accessOption e rest = .ok (e', used)) : TookPhrase p word e e' rest used := by
  obtain ⟨w, hw, hk⟩ := withWord_ok h
  split at hk
  · rename_i hrandom
    obtain ⟨rfl, rfl⟩ := Prod.mk.inj (Except.ok.inj hk)
    exact .one hw (.random hword hrandom) rfl
  split at hk
  · rename_i hforward
    obtain ⟨v, hv, hne, rfl⟩ := strideArgument_ok hk
    obtain rfl := strideArgument_used hk
    exact .two hw hv (.forward hword hforward hne) rfl
  split at hk
  · rename_i hreverse
    obtain ⟨v, hv, hne, rfl⟩ := strideArgument_ok hk
    obtain rfl := strideArgument_used hk
    exact .two hw hv (.reverse hword hreverse hne) rfl
  · simp at hk

theorem took_numa (hword : optionOf word = some .numa)
    (h : numaOption e rest = .ok (e', used)) : TookPhrase p word e e' rest used := by
  obtain ⟨w, hw, hk⟩ := withWord_ok h
  split at hk
  · rename_i hlocal
    obtain ⟨rfl, rfl⟩ := Prod.mk.inj (Except.ok.inj hk)
    exact .one hw (.numaLocal hword hlocal) rfl
  split at hk
  · rename_i hxor
    obtain ⟨v, hv, hval⟩ := withWord_ok hk
    obtain ⟨rfl, rfl⟩ := Prod.mk.inj (Except.ok.inj hval)
    exact .two hw hv (.numaXor hword hxor) rfl
  split at hk
  · rename_i hadd
    obtain ⟨v, hv, hval⟩ := withWord_ok hk
    obtain ⟨rfl, rfl⟩ := Prod.mk.inj (Except.ok.inj hval)
    exact .two hw hv (.numaAdd hword hadd) rfl
  split at hk
  · rename_i hmap
    obtain ⟨v, hv, hval⟩ := withWord_ok hk
    obtain ⟨rfl, rfl⟩ := Prod.mk.inj (Except.ok.inj hval)
    exact .two hw hv (.numaMap hword hmap) rfl
  · simp at hk

theorem tookPhrase_of_handleOption (h : handleOption p word e rest = .ok (e', used)) :
    TookPhrase p word e e' rest used := by
  rw [handleOption_eq] at h
  cases hword : optionOf word with
  | none => simp [hword] at h
  | some kind =>
    simp only [hword] at h
    cases kind with
    | strict =>
      obtain ⟨rfl, rfl⟩ := Prod.mk.inj (Except.ok.inj h)
      exact ⟨[], rest, .strict, rfl, rfl, .strict hword, rfl⟩
    | seconds => exact took_seconds hword h
    | number o => exact took_number hword h
    | prefetch => exact took_keyword (fun _ _ => rfl) (fun hw => .prefetch hword hw) h
    | operation => exact took_keyword (fun _ _ => rfl) (fun hw => .operation hword hw) h
    | access => exact took_access hword h
    | output => exact took_keyword (fun _ _ => rfl) (fun hw => .output hword hw) h
    | numa => exact took_numa hword h

end Soundness

section Completeness
variable {word : CStr} {e : Experiment}

theorem keywordOption_of_lookup {β : Type} (missing invalid : String) {table : List (String × β)}
    (set : Experiment → β → Experiment) {w : CStr} {b : β} (h : lookup table w = some b)
    (tail : List CStr) : keywordOption missing invalid table set e (w :: tail) = .ok (set e b, 1) := by
  obtain ⟨entry, hfind, rfl⟩ := keyword_find h
  simp only [keywordOption, withWord, hfind]

theorem handleOption_of_reads {args : List CStr} {s : Setting} (h : Reads p (word :: args) s)
    (he : e.experiments ≠ 0) (tail : List CStr) :
    handleOption p word e (args ++ tail) = .ok (s.apply e, args.length) := by
  rw [handleOption_eq]
  cases h with
  | strict h =>
    rw [h]
    rfl
  | seconds h hne =>
    rw [h]
    exact if_neg hne
  | @number o _ w h hne =>
    rw [h]
    obtain ⟨missing, invalid, hhandler⟩ := handlerOf_number (p := p) o
    have hgood : o.bad (o.set e (parseNumber w)) = false := by
      rw [NumberOption.bad_set]
      split
      · simpa using he
      · rename_i ho
        simpa using hne ho
    simp only [hhandler, numberOption, withWord, List.cons_append, hgood]
    rfl
  | prefetch h hw =>
    rw [h]
    exact keywordOption_of_lookup "type of prefetch hint missing" "invalid type of prefetch hint"
      (fun e hint => { e with prefetchHint := hint }) hw tail
  | operation h hw =>
    rw [h]
    exact keywordOption_of_lookup "type of operartion missing" "invalid type of operartion"
      (fun e o => { e with memOperation := o }) hw tail
  | output h hw =>
    rw [h]
    exact keywordOption_of_lookup "output format missing" "invalid output format"
      (fun e mode => { e with outputMode := mode }) hw tail
  | random h hw =>
    rw [h]
    exact if_pos hw
  | forward h hw hne =>
    rw [h]
    have hrandom := strcasecmp_eq_of hw "random"
    simp only [handlerOf, accessOption, withWord, List.cons_append, hrandom, hw]
    exact if_neg hne
  | reverse h hw hne =>
    rw [h]
    have hrandom := strcasecmp_eq_of hw "random"
    have hforward := strcasecmp_eq_of hw "forward"
    simp only [handlerOf, accessOption, withWord, List.cons_append, hrandom, hforward, hw]
    exact if_neg hne
  | numaLocal h hw =>
    rw [h]
    exact if_pos hw
  | numaXor h hw =>
    rw [h]
    have hlocal := strcasecmp_eq_of hw "local"
    simp only [handlerOf, numaOption, withWord, List.cons_append, hlocal, hw]
    rfl
  | numaAdd h hw =>
    rw [h]
    have hlocal := strcasecmp_eq_of hw "local"
    have hxor := strcasecmp_eq_of hw "xor"
    simp only [handlerOf, numaOption, withWord, List.cons_append, hlocal, hxor, hw]
    rfl
  | numaMap h hw =>
    rw [h]
    have hlocal := strcasecmp_eq_of hw "local"
    have hxor := strcasecmp_eq_of hw "xor"
    have hadd := strcasecmp_eq_of hw "add"
    simp only [handlerOf, numaOption, withWord, List.cons_append, hlocal, hxor, hadd, hw]
    rfl

end Completeness

section Loop
variable {e e' : Experiment}

theorem optionOf_help {word : CStr}
    (h : (strcasecmp word "-h" || strcasecmp word "--help") = true) : optionOf word = none := by
  have hnames : ∀ a, strcasecmp word a = true → optionOf word = optionOf a.toList := by
    intro a ha
    have hlower : word.map Char.toLower = a.toList.map Char.toLower := by
      simpa [strcasecmp] using ha
    simp only [optionOf, strcasecmp, hlower]
  rcases Bool.or_eq_true _ _ ▸ h with h | h
  · rw [hnames _ h]
    decide
  · rw [hnames _ h]
    decide

theorem Reads.option {words : List CStr} {s : Setting} (h : Reads p words s) :
    ∃ word args, words = word :: args ∧ optionOf word = some s.kind := by
  cases h
  all_goals exact ⟨_, _, rfl, by assumption⟩

theorem parseLoop_skip (args tail : List CStr) (usage : Bool) :
    parseLoop p args.length e usage (args ++ tail) = parseLoop p 0 e usage tail := by
  induction args with
  | nil => rfl
  | cons _ args ih => exact ih

theorem parseLoop_phrase {words : List CStr} {s : Setting} (h : Reads p words s)
    (he : e.experiments ≠ 0) (usage : Bool) (tail : List CStr) :
    parseLoop p 0 e usage (words ++ tail) = parseLoop p 0 (s.apply e) usage tail := by
  obtain ⟨word, args, rfl, hword⟩ := h.option
  have hhelp : ¬ (strcasecmp word "-h" || strcasecmp word "--help") = true := by
    intro hhelp
    rw [optionOf_help hhelp] at hword
    simp at hword
  rw [List.cons_append, parseLoop, if_neg hhelp, handleOption_of_reads h he]
  exact parseLoop_skip args tail usage

/-- The number of experiments is never zero, so that the test of `-g` never fails. -/
theorem Reads.experiments_ne {words : List CStr} {s : Setting} (h : Reads p words s)
    (he : e.experiments ≠ 0) : (s.apply e).experiments ≠ 0 := by
  cases h with
  | @number o _ w _ hne =>
    cases o
    case experiments => exact hne (by decide)
    all_goals exact he
  | _ => exact he

theorem parseLoop_phrases (phrases : List (Phrase p)) (he : e.experiments ≠ 0) :
    parseLoop p 0 e false (commandWords phrases) =
      .ok (phrases.foldl (fun e x => x.setting.apply e) e, false) := by
  induction phrases generalizing e with
  | nil => rfl
  | cons x phrases ih =>
    rw [commandWords, List.flatMap_cons, parseLoop_phrase x.reads he]
    exact ih (x.reads.experiments_ne he)

/-- A loop that ends without a message has read phrases and no request for help. -/
theorem exists_phrases_of_parseLoop {args : List CStr} (he : e.experiments ≠ 0)
    (h : parseLoop p 0 e false args = .ok (e', false)) :
    ∃ phrases : List (Phrase p), args = commandWords phrases := by
  have hlen : ∀ n (args : List CStr), args.length ≤ n → ∀ e : Experiment, e.experiments ≠ 0 →
      ∀ usage, parseLoop p 0 e usage args = .ok (e', false) →
        ∃ phrases : List (Phrase p), args = commandWords phrases := by
    intro n
    induction n with
    | zero =>
      intro args hargs e _ usage _
      exact ⟨[], List.length_eq_zero_iff.mp (by omega)⟩
    | succ n ih =>
      intro args hargs e he usage h
      cases args with
      | nil => exact ⟨[], rfl⟩
      | cons word rest =>
        rw [List.length_cons] at hargs
        have hstep := h
        rw [parseLoop] at hstep
        split at hstep
        · have husage : ∀ (args : List CStr) (skip : Nat) (e : Experiment),
              parseLoop p skip e true args ≠ .ok (e', false) := by
            intro args
            induction args with
            | nil =>
              intro skip e h
              simp [parseLoop] at h
            | cons word rest ih =>
              intro skip e h
              cases skip with
              | succ skip => exact ih skip e h
              | zero =>
                rw [parseLoop] at h
                split at h
                · exact ih 0 e h
                · cases hrun : handleOption p word e rest with
                  | error message => simp [hrun, bind, Except.bind] at h
                  | ok r =>
                    rw [hrun] at h
                    exact ih r.2 r.1 h
          exact absurd hstep (husage rest 0 e)
        · cases hrun : handleOption p word e rest with
          | error message => simp [hrun, bind, Except.bind] at hstep
          | ok r =>
            obtain ⟨e₁, used⟩ := r
            obtain ⟨args, tail, s, rfl, _, hreads, _⟩ := tookPhrase_of_handleOption hrun
            rw [← List.cons_append, parseLoop_phrase hreads he] at h
            rw [List.length_append] at hargs
            obtain ⟨phrases, hphrases⟩ := ih tail (by omega) _ (hreads.experiments_ne he) usage h
            refine ⟨⟨word :: args, s, hreads⟩ :: phrases, ?_⟩
            rw [commandWords, List.flatMap_cons, ← List.cons_append, hphrases]
            rfl
  exact hlen args.length args (Nat.le_refl _) e he false h

end Loop

theorem parseArgs_commandWords (phrases : List (Phrase p)) :
    parseArgs p (commandWords phrases) = allocate p (requested phrases) := by
  rw [parseArgs, parseLoop_phrases phrases (by decide)]
  rfl

theorem exists_phrases {args : List CStr} {e : Experiment} (h : parseArgs p args = .accepted e) :
    ∃ phrases : List (Phrase p), args = commandWords phrases := by
  obtain ⟨e₀, hloop, _⟩ := parseLoop_of_parseArgs h
  exact exists_phrases_of_parseLoop (by decide) hloop

end PChase
