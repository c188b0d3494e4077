import PChase.CalibrationRuns

/-!
# When the calibration is right

It is never entered when the number of iterations is given. Otherwise it is right in every
run just when one thread runs and one of its first 31 rounds is long enough.
-/

namespace PChase

open CInt CountLoop BarrierProgram Relation
set_option autoImplicit false

def Point.calibrates : Point → Bool
  | .initIters | .testElapsed | .startCal | .testCal | .benchCal | .stopCal | .setElapsed
  | .readIters | .storeIters | .calculate | .schedule => true
  | .barrier c => c.isCalibration
  | _ => false

section Skipped
variable {e : Experiment} {m : Clocks} {t : Nat} {σ σ' : RunShared} {l l' : RunLocal}

theorem runStep_skips (hne : σ.iterations ≠ 0) (hl : l.point.calibrates = false)
    (h : runStep e m t σ l = some (σ', l')) :
    σ'.iterations ≠ 0 ∧ l'.point.calibrates = false := by
  have hframe := (runStep_frame h).1
  constructor
  · rw [hframe]
    · exact hne
    · intro hp
      simp [hp, Point.calibrates] at hl
  · cases runStep_moves h with
    | calibrate hp hzero => exact absurd hzero hne
    | _ hp =>
      first
        | rfl
        | simp [hp, Point.calibrates] at hl

theorem afterBarrier_skips {c : BarrierCall} (hc : c.isCalibration = false) :
    (afterBarrier l c).point.calibrates = false := by
  cases c
  case calTop | calStarted | calCalled | calStopped => simp [BarrierCall.isCalibration] at hc
  all_goals rfl

/-- With a given number of iterations no thread ever calibrates. -/
theorem skips_calibration (he : e.iterations ≠ 0) {T participants : Nat} {s : RunState}
    (hs : (runProgram e m).Run T participants
      (initial { iterations := e.iterations } fun _ => {}) s) :
    s.shared.iterations ≠ 0 ∧ ∀ t, (s.locals t).point.calibrates = false := by
  induction hs with
  | refl => exact ⟨he, fun _ => rfl⟩
  | tail _ hstep ih =>
    obtain ⟨hne, hpoints⟩ := ih
    cases hstep with
    | run t r ht h =>
      obtain ⟨hne', hpoint'⟩ := runStep_skips hne (hpoints t) h
      refine ⟨hne', ?_⟩
      intro u
      by_cases hut : u = t
      · subst u
        simpa [advance] using hpoint'
      · simpa [advance, Function.update_of_ne hut] using hpoints u
    | release h =>
      refine ⟨hne, ?_⟩
      intro t
      have hpoint := hpoints t
      simp only [release, goOn]
      split
      · rename_i hcall
        obtain ⟨c, hc⟩ := Option.isSome_iff_exists.mp hcall
        have hp := (call_eq_some_iff _ c).mp hc
        rw [hp] at hpoint
        rw [show (runProgram e m).resume = RunLocal.resume from rfl, resume_of_call hp]
        exact afterBarrier_skips hpoint
      · exact hpoint

theorem CalibrationRight.of_skipped {T : Nat} {s : RunState}
    (h : ∀ t, (s.locals t).point.calibrates = false) : CalibrationRight T s := by
  have hnot : ∀ t p, p.calibrates = true → (s.locals t).point ≠ p := by
    intro t p hp heq
    rw [← heq, h t] at hp
    simp at hp
  refine ⟨?_, fun t _ hp => absurd hp (hnot t _ rfl), fun hp => absurd hp (hnot 0 _ rfl)⟩
  intro t _ hp
  rcases hp with hp | hp
  · exact absurd hp (hnot t _ rfl)
  · exact absurd hp (hnot t _ rfl)

end Skipped

/-- The calibration is right in every run of an accepted configuration if and only if the
number of iterations is given, or a single thread runs and one of its first 31 rounds takes
longer than its bound. -/
theorem calibration_right_iff {p : Platform} {args : List CStr} {e : Experiment}
    (h : parseArgs p args = .accepted e) (m : Clocks) :
    (∀ s, RunReachable e m s → CalibrationRight e.numThreads.toNat s) ↔
      e.iterations ≠ 0 ∨ e.numThreads = 1 ∧ ∃ k < 31, m.bound 0 < m.lap k := by
  have hn := (accepted_of_parseArgs h).numThreads_pos
  unfold RunReachable
  rw [participants_eq (tables_of_parseArgs h).numThreads_lt hn]
  constructor
  · intro hall
    by_contra hcond
    rw [not_or, not_not] at hcond
    obtain ⟨he, hcond⟩ := hcond
    by_cases hone : e.numThreads = 1
    · have hshort : ∀ j < 31, m.lap j ≤ m.bound 0 := by
        intro j hj
        apply not_lt.mp
        intro hlong
        exact hcond ⟨hone, j, hj, hlong⟩
      obtain ⟨s, hs, hwrong⟩ := wrong_alone he hshort
      rw [hone] at hall
      exact hwrong (hall s hs)
    · obtain ⟨s, hs, hwrong⟩ := wrong_together (m := m) (T := e.numThreads.toNat) (by omega) he
      exact hwrong (hall s hs)
  · intro hcond s hs
    rcases hcond with he | ⟨hone, k, hk, hlong⟩
    · exact .of_skipped (skips_calibration he hs).2
    · rw [hone] at hs ⊢
      exact calibration_right_alone hk hlong hs

/-- A clock that ticks once a reading, read without rounding. -/
def unitClocks : Clocks := ⟨fun n => n, fun _ => 0, id, monotone_id, rfl⟩

theorem unitClocks_long : unitClocks.bound 0 < unitClocks.lap 0 := by
  norm_num [unitClocks, Clocks.bound, Clocks.lap]

theorem calibration_right_of_one_thread :
    ∃ e, parseArgs Platform.single [] = .accepted e ∧ e.iterations = 0 ∧
      ∀ s, RunReachable e unitClocks s → CalibrationRight e.numThreads.toNat s := by
  have hrun : ∃ e, parseArgs Platform.single [] = .accepted e ∧ e.iterations = 0 ∧
      e.numThreads = 1 := ⟨_, rfl, by decide +kernel, by decide +kernel⟩
  obtain ⟨e, he, hiterations, hthreads⟩ := hrun
  exact ⟨e, he, hiterations, (calibration_right_iff he unitClocks).mpr
    (.inr ⟨hthreads, 0, by omega, unitClocks_long⟩)⟩

/-- Two threads, one round of one second: thread 0 may calculate with 4 for one timed call. -/
theorem calibration_wrong_of_two_threads :
    ∃ e, parseArgs Platform.single ["-t".toList, "2".toList] = .accepted e ∧
      ∃ s, RunReachable e unitClocks s ∧ ¬ CalibrationRight 2 s ∧
        (s.locals 0).point = .schedule ∧ (s.locals 0).tmp = 4 ∧ rounds (s.calls 0) = 1 := by
  have hrun : ∃ e, parseArgs Platform.single ["-t".toList, "2".toList] = .accepted e ∧
      e.iterations = 0 ∧ e.numThreads = 2 := ⟨_, rfl, by decide +kernel, by decide +kernel⟩
  obtain ⟨e, he, hiterations, hthreads⟩ := hrun
  obtain ⟨s, hs, hp, htmp, hrounds⟩ := wrong_after_long (e := e) (Nat.le_refl 2) hiterations
    unitClocks_long
  refine ⟨e, he, s, ?_, ?_, hp, htmp, hrounds⟩
  · rw [RunReachable, hthreads]
    exact hs
  · intro hright
    have hdoubled := hright.doubled hp
    rw [htmp, hrounds] at hdoubled
    norm_num at hdoubled

end PChase
