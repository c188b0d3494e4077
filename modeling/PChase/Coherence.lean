import PChase.CalibrationCondition
import PChase.ExactNumbers

/-!
# Coherent configurations

An accepted configuration wants either a duration or a number of iterations, so that the
calibration is entered exactly for a duration and never meets a duration of zero. What the
report prints of the access pattern and the placement has a name.
-/

namespace PChase

open CInt BarrierProgram
set_option autoImplicit false

/-- What single precision guarantees of the rounding. -/
structure Platform.RoundsInOrder (p : Platform) : Prop where
  mono : Monotone p.round
  zero : p.round 0 = 0
  fortyEight : p.round 48 = 48

theorem single_rounds : Platform.single.RoundsInOrder := ⟨monotone_id, rfl, rfl⟩

section Seconds
variable {p : Platform} (hp : p.RoundsInOrder)
include hp

theorem Platform.RoundsInOrder.nonneg {x : ℚ} (hx : 0 ≤ x) : 0 ≤ p.round x := by
  have hle := hp.mono hx
  rwa [hp.zero] at hle

/-- Digits are added before `'0'` is subtracted, and this never goes below zero. -/
theorem parseRealFrom_nonneg (s : CStr) {result power : ℚ} {decimal : Bool} (hr : 0 ≤ result)
    (hpower : 0 ≤ power) : 0 ≤ parseRealFrom p.round result decimal power s := by
  induction s generalizing result power decimal with
  | nil => exact hr
  | cons c s ih =>
    rw [parseRealFrom]
    split
    · rename_i hdigit
      have hvalue : (0 : ℚ) ≤ digitValue c := by
        rw [digitValue_eq hdigit]
        positivity
      split
      · have hpower' : 0 ≤ p.round (power / 10) := hp.nonneg (by positivity)
        have hdigits : 0 ≤ p.round (digitValue c * p.round (power / 10)) :=
          hp.nonneg (mul_nonneg hvalue hpower')
        exact ih (hp.nonneg (add_nonneg hr hdigits)) hpower'
      · have hten : 0 ≤ p.round (result * 10) := hp.nonneg (by positivity)
        have hchar : (48 : ℚ) ≤ c.toNat := by
          unfold digitValue at hvalue
          push_cast at hvalue
          linarith
        have hsum : 48 ≤ p.round (p.round (result * 10) + c.toNat) := by
          have hle := hp.mono (show 48 ≤ p.round (result * 10) + c.toNat by linarith)
          rwa [hp.fortyEight] at hle
        exact ih (hp.nonneg (by linarith)) hpower
    · split
      · exact ih hr hpower
      · exact hr

end Seconds

structure Experiment.Coherent (e : Experiment) (p : Platform) : Prop where
  either : e.seconds ≠ 0 ∧ e.iterations = 0 ∨ e.seconds = 0 ∧ e.iterations ≠ 0
  seconds_nonneg : p.RoundsInOrder → 0 ≤ e.seconds

section Options
variable {p : Platform} {e e' : Experiment}

theorem coherent_default : Experiment.Coherent {} p :=
  ⟨.inl ⟨by decide, rfl⟩, fun _ => by decide⟩

theorem Reads.coherent {words : List CStr} {s : Setting} (h : Reads p words s)
    (he : e.Coherent p) : (s.apply e).Coherent p := by
  cases h with
  | seconds _ hne => exact ⟨.inl ⟨hne, rfl⟩, fun hp => parseRealFrom_nonneg hp _ (by decide) (by decide)⟩
  | @number o _ _ _ hne =>
    cases o
    case iterations => exact ⟨.inr ⟨rfl, hne (by decide)⟩, fun _ => le_refl _⟩
    all_goals exact ⟨he.either, he.seconds_nonneg⟩
  | _ => exact ⟨he.either, he.seconds_nonneg⟩

theorem coherent_requested (phrases : List (Phrase p)) : (requested phrases).Coherent p := by
  have hfold : ∀ (phrases : List (Phrase p)) (e : Experiment), e.Coherent p →
      (phrases.foldl (fun e x => x.setting.apply e) e).Coherent p := by
    intro phrases
    induction phrases with
    | nil => exact fun _ he => he
    | cons x phrases ih => exact fun e he => ih _ (x.reads.coherent he)
  exact hfold phrases {} coherent_default

theorem coherent_of_parseArgs {args : List CStr} (h : parseArgs p args = .accepted e) :
    e.Coherent p := by
  obtain ⟨phrases, rfl⟩ := exists_phrases h
  rw [parseArgs_commandWords] at h
  have hkept : Slot.Kept .seconds ∧ Slot.Kept (.number .iterations) := ⟨trivial, trivial⟩
  have hseconds : e.seconds = (requested phrases).seconds := allocate_read hkept.1 h
  have hiterations : e.iterations = (requested phrases).iterations := allocate_read hkept.2 h
  have hrequested := coherent_requested phrases
  refine ⟨?_, ?_⟩
  · rw [hseconds, hiterations]
    exact hrequested.either
  · rw [hseconds]
    exact hrequested.seconds_nonneg

theorem access_isSome (h : e.stride ≠ 0) : e.access.isSome := by
  unfold Experiment.access
  cases hpattern : e.accessPattern with
  | random => rfl
  | strided =>
    rcases Int.lt_or_gt_of_ne h with hneg | hpos
    · have hnot : ¬ 0 < e.stride := by omega
      simp [hneg, hnot]
    · simp [hpos]

theorem placement_isSome (e : Experiment) : e.placement.isSome := by
  unfold Experiment.placement
  cases e.numaPlacement
  all_goals rfl

end Options

def Point.first : Point → Bool
  | .guard | .initIters | .testElapsed | .testExp => true
  | .barrier c => c == .calTop || c == .expTop || c == .runEnd
  | _ => false

section FirstPhase
variable {e : Experiment} {m : Clocks}

structure FirstPhase (e : Experiment) (T : Nat) (s : RunState) : Prop where
  iterations_eq : s.shared.iterations = e.iterations
  elapsed_eq : s.shared.elapsed = 0
  first : ∀ t < T, (s.locals t).point.first

theorem runStep_first {t : Nat} {σ σ' : RunShared} {l l' : RunLocal} (helapsed : σ.elapsed = 0)
    (hl : l.point.first) (h : runStep e m t σ l = some (σ', l')) :
    σ'.iterations = σ.iterations ∧ σ'.elapsed = 0 ∧ l'.point.first := by
  have hbound : σ.elapsed ≤ m.bound t := helapsed ▸ (bound_nonneg m).trans (le_max_left _ _)
  cases runStep_moves h with
  | settle _ hgt => exact absurd hbound hgt
  | await _ hgt => exact absurd hbound hgt
  | _ hp =>
    first
      | exact ⟨rfl, helapsed, rfl⟩
      | simp [hp, Point.first] at hl

theorem runStep_not_guard {t : Nat} {σ σ' : RunShared} {l l' : RunLocal}
    (h : runStep e m t σ l = some (σ', l')) : l'.point ≠ .guard := by
  cases runStep_moves h
  all_goals simp

theorem resume_not_guard {l : RunLocal} {c : BarrierCall} (h : l.point = .barrier c) :
    l.resume.point ≠ .guard := by
  rw [resume_of_call h]
  cases c
  all_goals simp [afterBarrier]

theorem firstPhase_of_guard {T : Nat} {s : RunState}
    (hs : (runProgram e m).Run T T (initial { iterations := e.iterations } fun _ => {}) s) :
    FirstPhase e T s ∨ ∀ t < T, (s.locals t).point ≠ .guard := by
  induction hs with
  | refl => exact .inl ⟨rfl, rfl, fun _ _ => rfl⟩
  | @tail s s' _ hstep ih =>
    cases hstep with
    | run t r ht h =>
      cases ih with
      | inl hfirst =>
        obtain ⟨hiterations, helapsed, hpoint⟩ :=
          runStep_first hfirst.elapsed_eq (hfirst.first t ht) h
        refine .inl ⟨hiterations.trans hfirst.iterations_eq, helapsed, ?_⟩
        intro u hu
        by_cases hut : u = t
        · subst u
          simpa [advance] using hpoint
        · simpa [advance, Function.update_of_ne hut] using hfirst.first u hu
      | inr hnone =>
        refine .inr ?_
        intro u hu
        by_cases hut : u = t
        · subst u
          simpa [advance] using runStep_not_guard h
        · simpa [advance, Function.update_of_ne hut] using hnone u hu
    | release h =>
      refine .inr ?_
      intro t ht
      obtain ⟨c, hc⟩ := (waiting_eq_iff T s).mp h t ht
      have hp := (call_eq_some_iff _ c).mp hc
      simp only [release, goOn_of_call hc]
      exact resume_not_guard hp

end FirstPhase

/-- In a state of a run, a thread enters the calibration exactly if a duration is wanted, and
the calculation finds a positive one. -/
structure CalibratesForDuration (e : Experiment) (p : Platform) (m : Clocks) (s : RunState) :
    Prop where
  enters : ∀ t < e.numThreads.toNat, (s.locals t).point = .guard →
    (runStep e m t s.shared (s.locals t) = some (s.shared, (s.locals t).goto .initIters) ↔
      e.seconds ≠ 0)
  wanted : ∀ t, (s.locals t).point.calibrates → e.seconds ≠ 0
  positive : p.RoundsInOrder → ∀ t, (s.locals t).point = .schedule → 0 < e.seconds

/-- Every accepted configuration is coherent, and its runs calibrate exactly for a duration. -/
theorem accepted_coherent {p : Platform} {args : List CStr} {e : Experiment}
    (h : parseArgs p args = .accepted e) :
    Xor (e.seconds ≠ 0) (e.iterations ≠ 0) ∧ e.stride ≠ 0 ∧ e.access.isSome ∧
      e.placement.isSome ∧ ∀ m s, RunReachable e m s → CalibratesForDuration e p m s := by
  have haccepted := accepted_of_parseArgs h
  have hcoherent := coherent_of_parseArgs h
  have hiff : e.iterations = 0 ↔ e.seconds ≠ 0 := by
    rcases hcoherent.either with ⟨hseconds, hiterations⟩ | ⟨hseconds, hiterations⟩
    · exact iff_of_true hiterations hseconds
    · exact iff_of_false hiterations (not_not_intro hseconds)
  refine ⟨?_, haccepted.stride_ne, access_isSome haccepted.stride_ne, placement_isSome e, ?_⟩
  · rcases hcoherent.either with ⟨hseconds, hiterations⟩ | ⟨hseconds, hiterations⟩
    · exact .inl ⟨hseconds, not_not_intro hiterations⟩
    · exact .inr ⟨hiterations, not_not_intro hseconds⟩
  · intro m s hs
    unfold RunReachable at hs
    rw [participants_eq (tables_of_parseArgs h).numThreads_lt haccepted.numThreads_pos] at hs
    have hwanted : ∀ t, (s.locals t).point.calibrates → e.seconds ≠ 0 := by
      intro t hpoint
      rw [← hiff]
      by_contra hne
      have hnot := (skips_calibration hne hs).2 t
      rw [hnot] at hpoint
      exact Bool.false_ne_true hpoint
    refine ⟨?_, hwanted, ?_⟩
    · intro t ht hp
      cases firstPhase_of_guard hs with
      | inr hnone => exact absurd hp (hnone t ht)
      | inl hfirst =>
        rw [← hiff, ← hfirst.iterations_eq]
        constructor
        · intro hstep
          by_contra hne
          simp only [runStep, hp, if_neg hne] at hstep
          have hpoint := congrArg (fun r => r.2.point) (Option.some.inj hstep)
          simp at hpoint
        · intro hzero
          simp only [runStep, hp, if_pos hzero]
    · intro hround t hp
      have hne := hwanted t (by rw [hp]; rfl)
      exact lt_of_le_of_ne (hcoherent.seconds_nonneg hround) hne.symm

def fiveIterations : Phrase Platform.single :=
  ⟨["-i".toList, "5".toList], .number .iterations (parseNumber "5".toList),
    .number (by decide) (by decide)⟩

def twoSeconds : Phrase Platform.single :=
  ⟨["-s".toList, "2".toList], .seconds (parseReal id "2".toList),
    .seconds (by decide) (by decide +kernel)⟩

/-- `-i 5 -s 2` wants a duration, and it is positive where thread 0 schedules the calls. -/
theorem duration_after_iterations_coherent : Platform.single.RoundsInOrder ∧ ∃ e,
    parseArgs .single (commandWords [fiveIterations, twoSeconds]) = .accepted e ∧
      e.seconds = 2 ∧ Xor (e.seconds ≠ 0) (e.iterations ≠ 0) ∧ e.access.isSome ∧
      e.placement.isSome ∧ (∀ m s, RunReachable e m s → CalibratesForDuration e .single m s) ∧
      ∃ s, RunReachable e unitClocks s ∧ (s.locals 0).point = .schedule ∧ 0 < e.seconds := by
  have hrequested : requested [fiveIterations, twoSeconds] = { seconds := 2 } := by decide +kernel
  have hrun : ∃ e, parseArgs .single (commandWords [fiveIterations, twoSeconds]) =
      .accepted e ∧ e.seconds = 2 ∧ e.numThreads = 1 ∧
      (((runProgram e unitClocks).follow 1 1
          (List.replicate 3 (some 0) ++ [none, some 0, none] ++ List.replicate 3 (some 0) ++
            [none, some 0, some 0, none] ++ List.replicate 4 (some 0))
          (initial { iterations := e.iterations } fun _ => {})).map fun s =>
            (s.locals 0).point) = some .schedule := by
    rw [parseArgs_commandWords, hrequested]
    exact ⟨_, rfl, rfl, rfl, by decide +kernel⟩
  obtain ⟨e, he, hseconds, hthreads, hfollow⟩ := hrun
  obtain ⟨s, hs, hpoint⟩ := Option.map_eq_some_iff.mp hfollow
  have hreach : RunReachable e unitClocks s := by
    rw [RunReachable, hthreads]
    exact run_of_follow hs
  obtain ⟨hone, _, haccess, hplacement, hruns⟩ := accepted_coherent he
  exact ⟨single_rounds, e, he, hseconds, hone, haccess, hplacement, hruns, s, hreach, hpoint,
    (hruns unitClocks s hreach).positive single_rounds 0 hpoint⟩

end PChase
