import PChase.CsvColumns

/-!
# The durations that a run records

Thread 0 reads the clock twice in every experiment and keeps the difference if it is
positive. What it has kept when it returns is therefore the list of the positive durations
in their order, and the report has a row for each of these.
-/

namespace PChase

open CInt CountLoop BarrierProgram Csv
set_option autoImplicit false

/-- The duration of experiment `k`, if the clock was read `first` times before all of them. -/
def Clocks.duration (m : Clocks) (first k : Nat) : ℚ :=
  m.round (m.clock (first + 2 * k + 1) - m.clock (first + 2 * k))

def recorded (m : Clocks) (first k : Nat) : List ℚ :=
  ((List.range k).map (m.duration first)).filter fun delta => decide (0 < delta)

theorem recorded_succ (m : Clocks) (first k : Nat) : recorded m first (k + 1) =
    recorded m first k ++ if 0 < m.duration first k then [m.duration first k] else [] := by
  unfold recorded
  rw [List.range_succ, List.map_append, List.filter_append, List.map_singleton,
    List.filter_singleton]
  simp

theorem length_recorded_eq_iff (m : Clocks) (first k : Nat) :
    (recorded m first k).length = k ↔ ∀ j < k, 0 < m.duration first j := by
  have hall := List.length_filter_eq_length_iff (p := fun delta => decide (0 < delta))
    (l := (List.range k).map (m.duration first))
  rw [List.length_map, List.length_range] at hall
  unfold recorded
  rw [hall]
  simp

structure Recording (m : Clocks) (σ : RunShared) (first k used : Nat) : Prop where
  readings_eq : σ.readings = first + 2 * k + used
  seconds_eq : σ.seconds = recorded m first k

def Timing (e : Experiment) (m : Clocks) (σ : RunShared) (l : RunLocal) : Prop :=
  match l.point with
  | .testExp => ∃ first k : Nat, Recording m σ first k 0 ∧ l.e = k ∧ k ≤ e.experiments.toNat
  | .barrier .expTop | .startExp =>
    ∃ first k : Nat, Recording m σ first k 0 ∧ l.e = k ∧ k < e.experiments.toNat
  | .barrier .expStarted | .testCall | .bench | .barrier .expCalled | .stopExp =>
    ∃ first k : Nat, Recording m σ first k 1 ∧ l.e = k ∧ k < e.experiments.toNat ∧
      l.start = m.clock (first + 2 * k)
  | .barrier .expStopped | .record =>
    ∃ first k : Nat, Recording m σ first k 2 ∧ l.e = k ∧ k < e.experiments.toNat ∧
      l.start = m.clock (first + 2 * k) ∧ l.stop = m.clock (first + 2 * k + 1)
  | .barrier .runEnd | .finished => ∃ first : Nat, Recording m σ first e.experiments.toNat 0
  | _ => σ.seconds = []

section Steps
variable {e : Experiment} {m : Clocks} {t : Nat} {σ σ' : RunShared} {l l' : RunLocal}

theorem runStep_others (ht : t ≠ 0) (h : runStep e m t σ l = some (σ', l')) :
    σ'.readings = σ.readings ∧ σ'.seconds = σ.seconds := by
  cases runStep_moves h with
  | startCal _ h0 => exact absurd h0 ht
  | stopCal _ h0 => exact absurd h0 ht
  | startExp _ h0 => exact absurd h0 ht
  | stopExp _ h0 => exact absurd h0 ht
  | record _ hkept => exact absurd hkept.2.1 ht
  | _ => exact ⟨rfl, rfl⟩

theorem Recording.congr {first k used : Nat} (h : Recording m σ first k used)
    (hreadings : σ'.readings = σ.readings) (hseconds : σ'.seconds = σ.seconds) :
    Recording m σ' first k used :=
  ⟨hreadings.trans h.readings_eq, hseconds.trans h.seconds_eq⟩

theorem recording_begins (h : σ.seconds = []) : Recording m σ σ.readings 0 0 := ⟨rfl, h⟩

theorem Recording.tick {first k used : Nat} (h : Recording m σ first k used) :
    Recording m σ.tick first k (used + 1) := by
  refine ⟨?_, h.seconds_eq⟩
  exact congrArg (· + 1) h.readings_eq

theorem Timing.congr (h : Timing e m σ l) (hreadings : σ'.readings = σ.readings)
    (hseconds : σ'.seconds = σ.seconds) : Timing e m σ' l := by
  have hiff : ∀ first k used, Recording m σ' first k used ↔ Recording m σ first k used :=
    fun _ _ _ => ⟨fun h => h.congr hreadings.symm hseconds.symm,
      fun h => h.congr hreadings hseconds⟩
  unfold Timing at h ⊢
  simp only [hiff, hseconds]
  exact h

/-- The difference of the two readings is the duration, kept or not. -/
theorem Recording.next {first k : Nat} {seconds : List ℚ} (h : Recording m σ first k 2)
    (hkept : seconds = σ.seconds ++
      if 0 < m.duration first k then [m.duration first k] else []) :
    Recording m { σ with seconds } first (k + 1) 0 := by
  refine ⟨?_, ?_⟩
  · have hreadings := h.readings_eq
    exact hreadings.trans (by omega)
  · rw [recorded_succ, ← h.seconds_eq]
    exact hkept

theorem delta_eq {first k : Nat} (hstart : l.start = m.clock (first + 2 * k))
    (hstop : l.stop = m.clock (first + 2 * k + 1)) :
    m.round (l.stop - l.start) = m.duration first k := by
  rw [hstart, hstop]
  rfl

theorem experiment_next {k : Nat} (hlt : e.experiments < 2147483648) (he : l.e = k)
    (hk : k < e.experiments.toNat) : addStep 1 l.e = (k + 1 : Nat) :=
  (wrap32_of_bounds (by omega) (by omega)).trans (by omega)

/-- A step of thread 0. -/
theorem Timing.own (hlt : e.experiments < 2147483648) (hI : Timing e m σ l)
    (h : runStep e m 0 σ l = some (σ', l')) : Timing e m σ' l' := by
  cases runStep_moves h with
  | skipCalibration hp =>
    simp only [Timing, hp] at hI
    exact ⟨_, 0, recording_begins hI, rfl, Nat.zero_le _⟩
  | enterExp hp hlt =>
    simp only [Timing, hp] at hI
    obtain ⟨first, k, hrec, he, _⟩ := hI
    exact ⟨first, k, hrec, he, by omega⟩
  | leaveExps hp hge =>
    simp only [Timing, hp] at hI
    obtain ⟨first, k, hrec, he, hle⟩ := hI
    obtain rfl : k = e.experiments.toNat := by omega
    exact ⟨first, hrec⟩
  | startExp hp =>
    simp only [Timing, hp] at hI
    obtain ⟨first, k, hrec, he, hk⟩ := hI
    refine ⟨first, k, hrec.tick, he, hk, ?_⟩
    exact congrArg m.clock hrec.readings_eq
  | stopExp hp =>
    simp only [Timing, hp] at hI
    obtain ⟨first, k, hrec, he, hk, hstart⟩ := hI
    refine ⟨first, k, hrec.tick, he, hk, hstart, ?_⟩
    exact congrArg m.clock hrec.readings_eq
  | record hp hkept =>
    simp only [Timing, hp] at hI
    obtain ⟨first, k, hrec, he, hk, hstart, hstop⟩ := hI
    have hdelta := delta_eq hstart hstop
    have hnext := experiment_next hlt he hk
    have hpos := hkept.2.2
    rw [hdelta] at hpos ⊢
    refine ⟨first, k + 1, hrec.next (by rw [if_pos hpos]), hnext, hk⟩
  | drop hp hdropped =>
    simp only [Timing, hp] at hI
    obtain ⟨first, k, hrec, he, hk, hstart, hstop⟩ := hI
    have hdelta := delta_eq hstart hstop
    have hnext := experiment_next hlt he hk
    have hpos : ¬ 0 < m.duration first k := by
      rw [← hdelta]
      exact fun hpos => hdropped ⟨by omega, rfl, hpos⟩
    refine ⟨first, k + 1, hrec.next (by rw [if_neg hpos, List.append_nil]), hnext, hk⟩
  | passStartCal _ ht => exact absurd rfl ht
  | passStopCal _ ht => exact absurd rfl ht
  | passStartExp _ ht => exact absurd rfl ht
  | passStopExp _ ht => exact absurd rfl ht
  | await _ _ ht => exact absurd rfl ht
  | _ hp =>
    simp only [Timing, hp] at hI
    exact hI

theorem Timing.resume {c : BarrierCall} (hI : Timing e m σ l) (hc : l.point = .barrier c) :
    Timing e m σ (afterBarrier l c) := by
  cases c
  all_goals simp only [Timing, hc] at hI
  case calDone => exact ⟨_, 0, recording_begins hI, rfl, Nat.zero_le _⟩
  all_goals exact hI

end Steps

section Runs
variable {e : Experiment} {m : Clocks}

theorem timing_of_reachable (hlt : e.experiments < 2147483648) {s : RunState}
    (hs : RunReachable e m s) (hn : 0 < e.numThreads.toNat) :
    Timing e m s.shared (s.locals 0) := by
  have hall := each_thread (I := fun t σ l _ => t = 0 → Timing e m σ l) ?_ ?_ ?_ ?_ hs
  · exact hall 0 hn rfl
  · exact fun _ _ _ => rfl
  · intro t σ l _ σ' l' _ hI h ht
    subst ht
    exact (hI rfl).own hlt h
  · intro s t u σ' l' _ _ _ hut h hI hu
    subst hu
    obtain ⟨hreadings, hseconds⟩ := runStep_others (Ne.symm hut) h
    exact (hI rfl).congr hreadings hseconds
  · intro t σ l _ c _ hI hcall ht
    have hc := (call_eq_some_iff l c).mp hcall
    change Timing e m σ l.resume
    rw [resume_of_call hc]
    exact (hI ht).resume hc

/-- An `int` never reaches so many experiments. -/
theorem never_ends (hge : 2147483648 ≤ e.experiments) {s : RunState} (hs : RunReachable e m s) :
    ∀ t < e.numThreads.toNat, (s.locals t).point ≠ .finished := by
  have hall := each_thread (I := fun _ _ l _ =>
    InInt32 l.e ∧ l.point ≠ .barrier .runEnd ∧ l.point ≠ .finished) ?_ ?_ ?_ ?_ hs
  · exact fun t ht => (hall t ht).2.2
  · exact fun _ _ => ⟨inInt32_zero, by simp, by simp⟩
  · intro t σ l _ σ' l' _ hI h
    obtain ⟨he, hend, hfinished⟩ := hI
    cases runStep_moves h with
    | leaveExps _ hge' =>
      unfold InInt32 at he
      omega
    | skipCalibration _ => exact ⟨inInt32_zero, by simp, by simp⟩
    | record _ | drop _ => exact ⟨wrap32_inInt32 _, by simp, by simp⟩
    | _ => exact ⟨he, by simp, by simp⟩
  · exact fun _ _ _ _ _ hI => hI
  · intro t σ l _ c _ hI hcall
    obtain ⟨he, hend, _⟩ := hI
    have hc := (call_eq_some_iff l c).mp hcall
    change InInt32 l.resume.e ∧ l.resume.point ≠ _ ∧ l.resume.point ≠ _
    rw [resume_of_call hc]
    cases c
    case runEnd => exact absurd hc hend
    case calDone => exact ⟨inInt32_zero, by simp [afterBarrier], by simp [afterBarrier]⟩
    all_goals exact ⟨he, by simp [afterBarrier], by simp [afterBarrier]⟩

end Runs

/-- The report on some durations has a row for each, or the average, the sum divided by
their number. -/
structure ReportsDurations (a : Arithmetic) (e : Experiment) (ops : Int) (seconds : List ℚ)
    (ckRes : Double) : Prop where
  csv : e.outputMode = .csv → ∃ report,
    Output.print a e ops (seconds.map Double.ofRat) ckRes = some report ∧
      (readCsv report).length = seconds.length
  both : e.outputMode = .both → ∃ report,
    Output.print a e ops (seconds.map Double.ofRat) ckRes = some report ∧
      (readCsv report).length = 1 + seconds.length
  table : e.outputMode = .table →
    Output.print a e ops (seconds.map Double.ofRat) ckRes = Output.table a e ops (a.toDouble
      (a.divLong ((seconds.map Double.ofRat).foldl a.addLong (.finite false 0))
        (a.ofSize seconds.length))) ckRes

theorem reportsDurations {p : Platform} {args : List CStr} {e : Experiment}
    (h : parseArgs p args = .accepted e) (a : Arithmetic) (iterations ops : Int)
    (seconds : List ℚ) (ckRes : Double) :
    ReportsDurations a { e with iterations } ops seconds ckRes := by
  obtain ⟨rows, hlength, _, hcsv, hboth⟩ :=
    readCsv_print_of_parseArgs h a iterations ops (seconds.map Double.ofRat) ckRes
  rw [List.length_map] at hlength
  refine ⟨?_, ?_, ?_⟩
  · intro hmode
    obtain ⟨report, hreport, hread⟩ := hcsv hmode
    exact ⟨report, hreport, by rw [hread, hlength]⟩
  · intro hmode
    obtain ⟨report, hreport, hread⟩ := hboth hmode
    exact ⟨report, hreport, by rw [hread, List.length_cons, hlength, Nat.add_comm]⟩
  · intro hmode
    rw [Output.print, hmode, Output.average, List.length_map]

/-- What thread 0 has recorded when it returns is the list of the positive durations, one for
each experiment just when all are positive, and this is what the report is about. -/
theorem durations_recorded {p : Platform} {args : List CStr} {e : Experiment}
    (h : parseArgs p args = .accepted e) (m : Clocks) {s : RunState} (hs : RunReachable e m s)
    (hend : (s.locals 0).point = .finished) (a : Arithmetic) (ops : Int) (ckRes : Double) :
    (∃ first, s.shared.readings = first + 2 * e.experiments.toNat ∧
      s.shared.seconds = recorded m first e.experiments.toNat ∧
      (s.shared.seconds.length = e.experiments.toNat ↔
        ∀ k < e.experiments.toNat, 0 < m.duration first k)) ∧
    (0 < e.experiments → s.shared.seconds.length = e.experiments.toNat →
      s.shared.seconds.length ≠ 0) ∧
    ReportsDurations a { e with iterations := s.shared.iterations } ops s.shared.seconds ckRes := by
  have hn := (accepted_of_parseArgs h).numThreads_pos
  have hthread : 0 < e.numThreads.toNat := by omega
  have hlt : e.experiments < 2147483648 := by
    by_contra hge
    exact never_ends (by omega) hs 0 hthread hend
  have htiming := timing_of_reachable hlt hs hthread
  simp only [Timing, hend] at htiming
  obtain ⟨first, hreadings, hseconds⟩ := htiming
  refine ⟨⟨first, hreadings, hseconds, ?_⟩, ?_, reportsDurations h a _ ops _ ckRes⟩
  · rw [hseconds]
    exact length_recorded_eq_iff m first _
  · intro hpos hlength
    omega

def shortRun : List (Option Nat) :=
  [some 0, some 0, none, some 0, none, some 0, some 0, some 0, none, some 0, none, some 0, some 0,
    none]

theorem unit_duration_recorded : ∃ e s,
    parseArgs .single ["-i".toList, "1".toList, "-o".toList, "csv".toList] = .accepted e ∧
      RunReachable e unitClocks s ∧ s.shared.seconds = [1] ∧
      ReportsDurations exactArithmetic { e with iterations := s.shared.iterations } 262144
        s.shared.seconds (.ofRat (1 / 1000000000)) := by
  obtain ⟨e, he, hthreads, hrun⟩ :
      ∃ e, parseArgs .single ["-i".toList, "1".toList, "-o".toList, "csv".toList] = .accepted e ∧
        e.numThreads = 1 ∧ (((runProgram e unitClocks).follow 1 1 shortRun
          (initial { iterations := e.iterations } fun _ => {})).map fun s =>
            ((s.locals 0).point, s.shared.seconds)) = some (.finished, [1]) :=
    ⟨_, rfl, rfl, by decide +kernel⟩
  obtain ⟨s, hs, hstate⟩ := Option.map_eq_some_iff.mp hrun
  obtain ⟨hpoint, hseconds⟩ := Prod.mk.inj hstate
  have hreach : RunReachable e unitClocks s := by
    rw [RunReachable, hthreads]
    exact run_of_follow hs
  obtain ⟨_, _, hreport⟩ := durations_recorded he unitClocks hreach hpoint exactArithmetic 262144
    (.ofRat (1 / 1000000000))
  exact ⟨e, s, he, hreach, hseconds, hreport⟩

def stillClocks : Clocks := { unitClocks with clock := fun _ => 0 }

/-- On a clock that stands still the only experiment leaves no duration: the csv report has
no row, and an average would divide by zero. -/
theorem still_clock_records_nothing : Monotone stillClocks.clock ∧ ∃ e s,
    parseArgs .single ["-i".toList, "1".toList, "-o".toList, "csv".toList] = .accepted e ∧
      e.experiments = 1 ∧ RunReachable e stillClocks s ∧ (s.locals 0).point = .finished ∧
      s.shared.seconds = [] ∧
      (∀ a ops ckRes, Output.print a { e with iterations := s.shared.iterations } ops
        (s.shared.seconds.map Double.ofRat) ckRes = some []) ∧
      Output.average exactArithmetic (s.shared.seconds.map Double.ofRat) = .nan false := by
  obtain ⟨e, he, hthreads, hexperiments, hmode, hrun⟩ :
      ∃ e, parseArgs .single ["-i".toList, "1".toList, "-o".toList, "csv".toList] = .accepted e ∧
        e.numThreads = 1 ∧ e.experiments = 1 ∧ e.outputMode = .csv ∧
        (((runProgram e stillClocks).follow 1 1 shortRun
          (initial { iterations := e.iterations } fun _ => {})).map fun s =>
            ((s.locals 0).point, s.shared.seconds)) = some (.finished, []) :=
    ⟨_, rfl, rfl, rfl, rfl, by decide +kernel⟩
  obtain ⟨s, hs, hstate⟩ := Option.map_eq_some_iff.mp hrun
  obtain ⟨hpoint, hseconds⟩ := Prod.mk.inj hstate
  refine ⟨monotone_const, e, s, he, hexperiments, ?_, hpoint, hseconds, ?_, ?_⟩
  · rw [RunReachable, hthreads]
    exact run_of_follow hs
  · intro a ops ckRes
    rw [hseconds, Output.print]
    simp only [hmode]
    rfl
  · rw [hseconds]
    decide +kernel

end PChase
