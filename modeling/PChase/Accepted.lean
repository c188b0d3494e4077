import PChase.ParseArgs

/-!
# What every accepted configuration has in common

An invariant of the option loop, carried through each option, and the facts it leaves
behind once the sizes are derived and the tables allocated.
-/

namespace PChase

open CInt CountLoop
set_option autoImplicit false

structure Experiment.Requested (e : Experiment) : Prop where
  pointerSize_eq : e.pointerSize = 16
  bytesPerLine_range : InInt64 e.bytesPerLine
  chainsPerThread_ne : e.chainsPerThread ≠ 0
  numThreads_ne : e.numThreads ≠ 0
  stride_ne : e.stride ≠ 0
  stride_range : InInt64 e.stride

theorem requested_default : Experiment.Requested {} := by
  refine ⟨rfl, ?_, ?_, ?_, ?_, ?_⟩ <;> decide

theorem withWord_ok {α : Type} {missing : String} {rest : List CStr} {k : CStr → Except CStr α}
    {a : α} (h : withWord missing rest k = .ok a) : ∃ word, rest.head? = some word ∧ k word = .ok a := by
  cases rest with
  | nil => simp [withWord] at h
  | cons word rest => exact ⟨word, rfl, h⟩

theorem withWord_argument_ok {missing : String} {rest : List CStr} {set : CStr → Experiment}
    {e' : Experiment} {taken used : Nat}
    (h : withWord missing rest (fun word => .ok (set word, taken)) = .ok (e', used)) :
    ∃ word, e' = set word := by
  obtain ⟨word, _, hword⟩ := withWord_ok h
  simp only [Except.ok.injEq, Prod.mk.injEq] at hword
  exact ⟨word, hword.1.symm⟩

theorem numberOption_ok {missing invalid : String} {set : Experiment → Int → Experiment}
    {bad : Experiment → Bool} {e e' : Experiment} {rest : List CStr} {used : Nat}
    (h : numberOption missing invalid set bad e rest = .ok (e', used)) :
    ∃ word, rest.head? = some word ∧ e' = set e (parseNumber word) ∧ bad e' = false := by
  obtain ⟨word, hword, hk⟩ := withWord_ok h
  refine ⟨word, hword, ?_⟩
  simp only at hk
  split at hk
  · simp at hk
  · rename_i hbad
    simp only [Except.ok.injEq, Prod.mk.injEq] at hk
    obtain ⟨rfl, _⟩ := hk
    exact ⟨rfl, by simpa using hbad⟩

theorem keywordOption_ok {β : Type} {missing invalid : String} {table : List (String × β)}
    {set : Experiment → β → Experiment} {e e' : Experiment} {rest : List CStr} {used : Nat}
    (h : keywordOption missing invalid table set e rest = .ok (e', used)) :
    ∃ b, e' = set e b := by
  obtain ⟨word, _, hk⟩ := withWord_ok h
  split at hk
  · rename_i entry _
    simp only [Except.ok.injEq, Prod.mk.injEq] at hk
    exact ⟨entry.2, hk.1.symm⟩
  · simp at hk

theorem strideArgument_ok {missing invalid : String} {signed : Int → Int} {e e' : Experiment}
    {rest : List CStr} {used : Nat}
    (h : strideArgument missing invalid signed e rest = .ok (e', used)) :
    ∃ word, rest.head? = some word ∧ signed (parseNumber word) ≠ 0 ∧
      e' = { e with accessPattern := .strided, stride := signed (parseNumber word) } := by
  obtain ⟨word, hword, hk⟩ := withWord_ok h
  refine ⟨word, hword, ?_⟩
  simp only at hk
  split at hk
  · simp at hk
  · rename_i hne
    simp only [Except.ok.injEq, Prod.mk.injEq] at hk
    exact ⟨hne, hk.1.symm⟩

theorem handleOption_ok {p : Platform} {word : CStr} {e e' : Experiment} {rest : List CStr}
    {used : Nat} (h : handleOption p word e rest = .ok (e', used)) :
    ∃ entry ∈ optionTable p, entry.2.2 e rest = .ok (e', used) := by
  unfold handleOption at h
  split at h
  · rename_i entry hfind
    exact ⟨entry, List.mem_of_find?_eq_some hfind, h⟩
  · simp at h

theorem accessOption_requested {e e' : Experiment} {rest : List CStr} {used : Nat}
    (he : e.Requested) (h : accessOption e rest = .ok (e', used)) : e'.Requested := by
  obtain ⟨word, _, hk⟩ := withWord_ok h
  split at hk
  · simp only [Except.ok.injEq, Prod.mk.injEq] at hk
    obtain ⟨rfl, _⟩ := hk
    exact { he with }
  split at hk
  · obtain ⟨w, _, hne, rfl⟩ := strideArgument_ok hk
    exact { he with stride_ne := hne, stride_range := parseNumber_inInt64 w }
  split at hk
  · obtain ⟨w, _, hne, rfl⟩ := strideArgument_ok hk
    exact { he with stride_ne := hne, stride_range := wrap64_inInt64 _ }
  · simp at hk

theorem numaOption_requested {e e' : Experiment} {rest : List CStr} {used : Nat}
    (he : e.Requested) (h : numaOption e rest = .ok (e', used)) : e'.Requested := by
  obtain ⟨word, _, hk⟩ := withWord_ok h
  split at hk
  · simp only [Except.ok.injEq, Prod.mk.injEq] at hk
    obtain ⟨rfl, _⟩ := hk
    exact { he with }
  split at hk
  · obtain ⟨w, rfl⟩ := withWord_argument_ok hk
    exact { he with }
  split at hk
  · obtain ⟨w, rfl⟩ := withWord_argument_ok hk
    exact { he with }
  split at hk
  · obtain ⟨w, rfl⟩ := withWord_argument_ok hk
    exact { he with }
  · simp at hk

theorem secondsOption_requested {p : Platform} {e e' : Experiment} {rest : List CStr} {used : Nat}
    (he : e.Requested) (h : secondsOption p e rest = .ok (e', used)) : e'.Requested := by
  obtain ⟨word, _, hk⟩ := withWord_ok h
  simp only at hk
  split at hk
  · simp at hk
  · simp only [Except.ok.injEq, Prod.mk.injEq] at hk
    obtain ⟨rfl, _⟩ := hk
    exact { he with }

theorem handleOption_requested {p : Platform} {word : CStr} {e e' : Experiment}
    {rest : List CStr} {used : Nat} (he : e.Requested)
    (h : handleOption p word e rest = .ok (e', used)) : e'.Requested := by
  obtain ⟨entry, hmem, hrun⟩ := handleOption_ok h
  simp only [optionTable, List.mem_cons, List.not_mem_nil, or_false] at hmem
  rcases hmem with rfl | rfl | rfl | rfl | rfl | rfl | rfl | rfl | rfl | rfl | rfl | rfl | rfl |
    rfl | rfl
  all_goals simp only [lineOption, pageOption, chainOption, referencesOption, threadsOption,
    iterationsOption, experimentsOption, loopOption, prefetchOption, operationOption,
    outputOption] at hrun
  · simp only [strictOption, Except.ok.injEq, Prod.mk.injEq] at hrun
    obtain ⟨rfl, _⟩ := hrun
    exact { he with }
  · exact secondsOption_requested he hrun
  · obtain ⟨w, _, rfl, _⟩ := numberOption_ok hrun
    exact { he with bytesPerLine_range := parseNumber_inInt64 w }
  · obtain ⟨w, _, rfl, _⟩ := numberOption_ok hrun
    exact { he with }
  · obtain ⟨w, _, rfl, _⟩ := numberOption_ok hrun
    exact { he with }
  · obtain ⟨w, _, rfl, hbad⟩ := numberOption_ok hrun
    exact { he with chainsPerThread_ne := by simpa using hbad }
  · obtain ⟨w, _, rfl, hbad⟩ := numberOption_ok hrun
    exact { he with numThreads_ne := by simpa using hbad }
  · obtain ⟨w, _, rfl, _⟩ := numberOption_ok hrun
    exact { he with }
  · obtain ⟨w, _, rfl, _⟩ := numberOption_ok hrun
    exact { he with }
  · obtain ⟨w, _, rfl, _⟩ := numberOption_ok hrun
    exact { he with }
  · obtain ⟨b, rfl⟩ := keywordOption_ok hrun
    exact { he with }
  · obtain ⟨b, rfl⟩ := keywordOption_ok hrun
    exact { he with }
  · exact accessOption_requested he hrun
  · obtain ⟨b, rfl⟩ := keywordOption_ok hrun
    exact { he with }
  · exact numaOption_requested he hrun

/-- What every option keeps, the loop keeps. -/
theorem parseLoop_invariant {p : Platform} {P : Experiment → Prop}
    (hstep : ∀ {word e e' rest used}, P e → handleOption p word e rest = .ok (e', used) → P e')
    {skip : Nat} {e e' : Experiment} {usage usage' : Bool} {args : List CStr} (he : P e)
    (h : parseLoop p skip e usage args = .ok (e', usage')) : P e' := by
  induction args generalizing skip e usage with
  | nil =>
    simp only [parseLoop, Except.ok.injEq, Prod.mk.injEq] at h
    exact h.1 ▸ he
  | cons word rest ih =>
    cases skip with
    | succ skip => exact ih he h
    | zero =>
      simp only [parseLoop] at h
      split at h
      · exact ih he h
      · cases hrun : handleOption p word e rest with
        | error message => simp [hrun, bind, Except.bind] at h
        | ok r =>
          obtain ⟨e₁, used⟩ := r
          simp only [hrun, bind, Except.bind] at h
          exact ih (hstep he hrun) h

theorem parseLoop_of_parseArgs {p : Platform} {args : List CStr} {e : Experiment}
    (h : parseArgs p args = .accepted e) :
    ∃ e₀, parseLoop p 0 {} false args = .ok (e₀, false) ∧ allocate p e₀ = .accepted e := by
  unfold parseArgs at h
  split at h
  · simp at h
  · simp at h
  · rename_i e₀ hloop
    exact ⟨e₀, hloop, h⟩

theorem parseArgs_accepted {p : Platform} {args : List CStr} {e : Experiment}
    (h : parseArgs p args = .accepted e) :
    ∃ e₀ : Experiment, e₀.Requested ∧ allocate p e₀ = .accepted e := by
  obtain ⟨e₀, hloop, hallocate⟩ := parseLoop_of_parseArgs h
  exact ⟨e₀, parseLoop_invariant handleOption_requested requested_default hloop, hallocate⟩

/-- What holds of every configuration that `parse_args` accepts. -/
structure Experiment.Accepted (e : Experiment) : Prop where
  sizes : e.SizesDerived
  stride_ne : e.stride ≠ 0
  stride_range : InInt64 e.stride
  numThreads_pos : 1 ≤ e.numThreads
  chainsPerThread_pos : 1 ≤ e.chainsPerThread

theorem deriveSizes_keeps {e e' : Experiment} (h : deriveSizes e = some e') :
    e'.stride = e.stride ∧ e'.numThreads = e.numThreads ∧
      e'.chainsPerThread = e.chainsPerThread := by
  simp only [deriveSizes, Option.bind_eq_bind, Option.bind_eq_some_iff, Option.pure_def,
    Option.some.injEq] at h
  obtain ⟨L, _, P, _, K, _, rfl⟩ := h
  exact ⟨rfl, rfl, rfl⟩

theorem Experiment.Accepted.of_sizes {e e' : Experiment} (h : e.Requested)
    (hd : deriveSizes e = some e') (ht : 1 ≤ e.numThreads) (hc : 1 ≤ e.chainsPerThread) :
    e'.Accepted := by
  obtain ⟨hstride, hthreads, hchains⟩ := deriveSizes_keeps hd
  exact ⟨deriveSizes_derived h.pointerSize_eq h.bytesPerLine_range hd, hstride ▸ h.stride_ne,
    hstride ▸ h.stride_range, hthreads ▸ ht, hchains ▸ hc⟩

theorem Experiment.Accepted.setNuma {e : Experiment} (h : e.Accepted) (p : Platform) :
    (e.setNuma p).Accepted :=
  ⟨{ h.sizes with }, h.stride_ne, h.stride_range, h.numThreads_pos, h.chainsPerThread_pos⟩

theorem Experiment.Accepted.setRandomState {e : Experiment} (h : e.Accepted)
    (seeds : List Int) : (e.setRandomState seeds).Accepted :=
  ⟨{ h.sizes with }, h.stride_ne, h.stride_range, h.numThreads_pos, h.chainsPerThread_pos⟩

theorem allocDomains_accepted {e e' : Experiment} {chainOf : Int → Int} (he : e.Accepted)
    (h : allocDomains e chainOf = some e') : e'.Accepted := by
  simp only [allocDomains, Option.bind_eq_bind, Option.bind_eq_some_iff, Option.pure_def,
    Option.some.injEq] at h
  obtain ⟨threads, _, chains, _, rfl⟩ := h
  exact ⟨{ he.sizes with }, he.stride_ne, he.stride_range, he.numThreads_pos,
    he.chainsPerThread_pos⟩

theorem allocPlaced_accepted {e e' : Experiment} (he : e.Accepted)
    (h : allocPlaced e = some e') : e'.Accepted := by
  unfold allocPlaced at h
  split at h <;> exact allocDomains_accepted he h

theorem allocComputed_eq_some_iff (e e' : Experiment) : allocComputed e = some e' ↔
    0 ≤ e.numThreads ∧ ∃ threads, countUp e.numThreads = some threads ∧
      (threads ≠ [] → 0 ≤ e.chainsPerThread) ∧
      allocPlaced (e.setRandomState threads) = some e' := by
  unfold allocComputed newArray
  by_cases h0 : 0 ≤ e.numThreads
  · cases countUp e.numThreads with
    | none => simp [h0]
    | some threads =>
      by_cases hne : threads = []
      · simp [h0, hne]
      · by_cases hc : 0 ≤ e.chainsPerThread <;> simp [h0, hne, hc]
  · simp [h0]

theorem allocComputed_counts {e e' : Experiment} (ht : e.numThreads ≠ 0)
    (hc : e.chainsPerThread ≠ 0) (h : allocComputed e = some e') :
    1 ≤ e.numThreads ∧ 1 ≤ e.chainsPerThread := by
  obtain ⟨h0, threads, hthreads, hchains, _⟩ := (allocComputed_eq_some_iff e e').mp h
  have hne : threads ≠ [] := by
    obtain ⟨_, rfl⟩ := (countUp_eq_some_iff _ _).mp hthreads
    intro hnil
    have := congrArg List.length hnil
    simp only [List.length_map, List.length_range, List.length_nil] at this
    omega
  have := hchains hne
  omega

theorem allocMap_accepted {e e' : Experiment} {map : CStr} (hs : e.SizesDerived)
    (hne : e.stride ≠ 0) (hr : InInt64 e.stride) (h : allocMap e map = .ok e') : e'.Accepted := by
  obtain ⟨hthreads, hchains, m, _, rfl⟩ := (allocMap_eq_ok_iff _ _ _).mp h
  exact ⟨{ hs with }, hne, hr, hthreads, hchains⟩

theorem allocate_eq_accepted_iff (p : Platform) (e e' : Experiment) :
    allocate p e = .accepted e' ↔ ∃ e₁, deriveSizes e = some e₁ ∧
      (e₁.numaPlacement = .numaMap ∧
          allocMap (e₁.setNuma p) (e₁.placementMap.getD []) = .ok e' ∨
        e₁.numaPlacement ≠ .numaMap ∧ allocComputed (e₁.setNuma p) = some e') := by
  unfold allocate
  cases deriveSizes e with
  | none => simp
  | some e₁ =>
    simp only [Option.some.injEq, exists_eq_left']
    by_cases hmap : e₁.numaPlacement = .numaMap
    · simp only [hmap, true_and, ne_eq, not_true_eq_false, false_and, or_false]
      cases allocMap (e₁.setNuma p) (e₁.placementMap.getD []) with
      | ok e₂ => simp
      | error err => cases err <;> simp
    · simp only [hmap, false_and, ne_eq, not_false_eq_true, true_and, false_or]
      cases allocComputed (e₁.setNuma p) with
      | none => simp
      | some e₂ => simp

theorem allocate_accepted {p : Platform} {e e' : Experiment} (he : e.Requested)
    (h : allocate p e = .accepted e') : e'.Accepted := by
  obtain ⟨e₁, hd, ⟨_, hmap⟩ | ⟨_, hc⟩⟩ := (allocate_eq_accepted_iff p e e').mp h
  · obtain ⟨hstride, _, _⟩ := deriveSizes_keeps hd
    have hs := deriveSizes_derived he.pointerSize_eq he.bytesPerLine_range hd
    have hne : e₁.stride ≠ 0 := hstride ▸ he.stride_ne
    have hr : InInt64 e₁.stride := hstride ▸ he.stride_range
    exact allocMap_accepted (e := e₁.setNuma p) { hs with } hne hr hmap
  · obtain ⟨_, hthreads, hchains⟩ := deriveSizes_keeps hd
    have ht : e₁.numThreads ≠ 0 := hthreads ▸ he.numThreads_ne
    have hch : e₁.chainsPerThread ≠ 0 := hchains ▸ he.chainsPerThread_ne
    obtain ⟨ht', hch'⟩ := allocComputed_counts (e := e₁.setNuma p) ht hch hc
    have ha : e₁.Accepted := .of_sizes he hd (hthreads ▸ ht') (hchains ▸ hch')
    obtain ⟨_, threads, _, _, hplaced⟩ := (allocComputed_eq_some_iff _ _).mp hc
    exact allocPlaced_accepted ((ha.setNuma p).setRandomState threads) hplaced

theorem accepted_of_parseArgs {p : Platform} {args : List CStr} {e : Experiment}
    (h : parseArgs p args = .accepted e) : e.Accepted := by
  obtain ⟨e₀, hr, ha⟩ := parseArgs_accepted h
  exact allocate_accepted hr ha

/-- The tables have an entry for each thread and for each of its chains, and `int`
counters reach them all. -/
structure Experiment.Tables (e : Experiment) : Prop where
  threads : e.threadDomain.length = e.numThreads.toNat
  groups : e.chainDomain.length = e.numThreads.toNat
  chains : ∀ row ∈ e.chainDomain, row.length = e.chainsPerThread.toNat
  numThreads_lt : e.numThreads < 2147483648
  chainsPerThread_lt : e.chainsPerThread < 2147483648

theorem allocDomains_tables {e e' : Experiment} {chainOf : Int → Int}
    (h : allocDomains e chainOf = some e') : e'.Tables := by
  obtain ⟨threads, hthreads, hrest⟩ := Option.bind_eq_some_iff.mp h
  obtain ⟨chains, hchains, he⟩ := Option.bind_eq_some_iff.mp hrest
  obtain ⟨hthreads_lt, rfl⟩ := (countUp_eq_some_iff _ _).mp hthreads
  obtain ⟨hchains_lt, rfl⟩ := (countUp_eq_some_iff _ _).mp hchains
  simp only [Option.pure_def, Option.some.injEq] at he
  subst he
  refine ⟨by simp, by simp, ?_, hthreads_lt, hchains_lt⟩
  intro row hrow
  obtain ⟨d, _, rfl⟩ := List.mem_map.mp hrow
  simp

theorem allocMap_tables {e e' : Experiment} {map : CStr} (h : allocMap e map = .ok e') :
    e'.Tables := by
  obtain ⟨_, _, m, _, rfl⟩ := (allocMap_eq_ok_iff _ _ _).mp h
  refine ⟨by simp [Experiment.setMap], by simp [Experiment.setMap], ?_,
    (countThreads_inInt32 map 1 inInt32_one).2, (countChains_inInt32 map 1 inInt32_one).2⟩
  intro row hrow
  obtain ⟨i, _, rfl⟩ := List.mem_map.mp hrow
  simp [Experiment.setMap]

theorem allocPlaced_tables {e e' : Experiment} (h : allocPlaced e = some e') : e'.Tables := by
  unfold allocPlaced at h
  split at h
  · exact allocDomains_tables h
  · exact allocDomains_tables h
  · exact allocDomains_tables h

theorem tables_of_parseArgs {p : Platform} {args : List CStr} {e : Experiment}
    (h : parseArgs p args = .accepted e) : e.Tables := by
  obtain ⟨e₀, _, ha⟩ := parseArgs_accepted h
  obtain ⟨e₁, _, ⟨_, hmap⟩ | ⟨_, hc⟩⟩ := (allocate_eq_accepted_iff p e₀ e).mp ha
  · exact allocMap_tables hmap
  · obtain ⟨_, _, _, _, hplaced⟩ := (allocComputed_eq_some_iff _ _).mp hc
    exact allocPlaced_tables hplaced

theorem allocDomains_randomState {e e' : Experiment} {chainOf : Int → Int}
    (h : allocDomains e chainOf = some e') : e'.randomState = e.randomState ∧
      e'.numThreads = e.numThreads := by
  obtain ⟨threads, _, hrest⟩ := Option.bind_eq_some_iff.mp h
  obtain ⟨chains, _, he⟩ := Option.bind_eq_some_iff.mp hrest
  simp only [Option.pure_def, Option.some.injEq] at he
  subst he
  exact ⟨rfl, rfl⟩

theorem allocPlaced_randomState {e e' : Experiment} (h : allocPlaced e = some e') :
    e'.randomState = e.randomState ∧ e'.numThreads = e.numThreads := by
  unfold allocPlaced at h
  split at h
  · exact allocDomains_randomState h
  · exact allocDomains_randomState h
  · exact allocDomains_randomState h

/-- Every thread has a generator buffer, seeded with its number. -/
theorem randomState_of_parseArgs {p : Platform} {args : List CStr} {e : Experiment}
    (h : parseArgs p args = .accepted e) :
    e.randomState = (List.range e.numThreads.toNat).map fun t : Nat => (t : Int) := by
  obtain ⟨e₀, _, ha⟩ := parseArgs_accepted h
  obtain ⟨e₁, _, ⟨_, hmap⟩ | ⟨_, hc⟩⟩ := (allocate_eq_accepted_iff p e₀ e).mp ha
  · obtain ⟨_, _, m, _, rfl⟩ := (allocMap_eq_ok_iff _ _ _).mp hmap
    rfl
  · obtain ⟨_, threads, hthreads, _, hplaced⟩ := (allocComputed_eq_some_iff _ _).mp hc
    obtain ⟨hstate, hcount⟩ := allocPlaced_randomState hplaced
    obtain ⟨_, rfl⟩ := (countUp_eq_some_iff _ _).mp hthreads
    rw [hstate, hcount]
    rfl

end PChase
