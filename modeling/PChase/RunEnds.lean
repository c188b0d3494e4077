import PChase.CountingLoops
import PChase.StagedThreads

/-!
# A run comes to its end

Bounds for the rounds of the calibration, for the calls of a round and for those of an
experiment make a bound for the steps that a thread has left; each of its steps and each
barrier takes from it. And as long as not all have returned, some thread goes on or all are
released.
-/

namespace PChase

open CInt CountLoop BarrierProgram Relation
set_option autoImplicit false

structure Budget where
  rounds : Nat
  iters : Nat
  iterations : Nat
  iters_lt : iters < 2147483648
  iterations_lt : iterations < 2147483648

namespace Budget
variable (b : Budget)

structure Suffices (e : Experiment) (m : Clocks) : Prop where
  rounds_lt : ∀ {s}, RunReachable e m s → ∀ {t}, t < e.numThreads.toNat →
    (s.locals t).point = .testElapsed → s.shared.elapsed ≤ m.bound t →
      PChase.rounds (s.calls t) < b.rounds
  iters_le : ∀ {s}, RunReachable e m s → ∀ {t}, t < e.numThreads.toNat →
    (s.locals t).point = .testCal → s.shared.iters ≤ b.iters
  iterations_le : ∀ {s}, RunReachable e m s → ∀ {t}, t < e.numThreads.toNat →
    (s.locals t).point = .testCall → s.shared.iterations ≤ b.iterations

def experimentsLeft (experiments : Int) : Nat := experiments.toNat * (2 * b.iterations + 9)

def roundsLeft (n : Nat) : Nat := (b.rounds - n) * (2 * b.iters + 11)

/-- An upper bound for the steps that a thread has left, its waits at barriers included. -/
def left (e : Experiment) (x : RunLocal × List BarrierCall) : Nat :=
  let behind := b.experimentsLeft (e.experiments - x.1.e - 1)
  let all := b.experimentsLeft e.experiments
  let round := all + b.roundsLeft (PChase.rounds x.2)
  match x.1.point with
  | .guard => round + 8
  | .initIters => round + 7
  | .testElapsed => round + 6
  | .barrier .calTop => round + 2 * b.iters + 16
  | .startCal => round + 2 * b.iters + 15
  | .barrier .calStarted => round + 2 * b.iters + 14
  | .benchCal => round + 2 * (b.iters - x.1.i - 1).toNat + 14
  | .testCal => round + 2 * (b.iters - x.1.i).toNat + 13
  | .barrier .calCalled => round + 12
  | .stopCal => round + 11
  | .setElapsed => round + 10
  | .barrier .calStopped => round + 9
  | .readIters => round + 8
  | .storeIters => round + 7
  | .calculate => all + 5
  | .schedule => all + 4
  | .barrier .calDone => all + 3
  | .testExp => b.experimentsLeft (e.experiments - x.1.e) + 2
  | .barrier .expTop => behind + 2 * b.iterations + 10
  | .startExp => behind + 2 * b.iterations + 9
  | .barrier .expStarted => behind + 2 * b.iterations + 8
  | .bench => behind + 2 * (b.iterations - x.1.i - 1).toNat + 8
  | .testCall => behind + 2 * (b.iterations - x.1.i).toNat + 7
  | .barrier .expCalled => behind + 6
  | .stopExp => behind + 5
  | .barrier .expStopped => behind + 4
  | .record => behind + 3
  | .barrier .runEnd => 1
  | .finished => 0

def Looping (e : Experiment) (l : RunLocal) : Prop :=
  match l.point with
  | .testCal => 0 ≤ l.i
  | .benchCal => 0 ≤ l.i ∧ l.i < b.iters
  | .testExp => 0 ≤ l.e
  | .barrier .expTop | .startExp | .barrier .expStarted | .barrier .expCalled | .stopExp |
    .barrier .expStopped | .record => 0 ≤ l.e ∧ l.e < e.experiments
  | .testCall => (0 ≤ l.e ∧ l.e < e.experiments) ∧ 0 ≤ l.i
  | .bench => (0 ≤ l.e ∧ l.e < e.experiments) ∧ 0 ≤ l.i ∧ l.i < b.iterations
  | _ => True

variable {b}

theorem experimentsLeft_next {n : Int} (hn : 1 ≤ n) :
    b.experimentsLeft n = b.experimentsLeft (n - 1) + (2 * b.iterations + 9) := by
  have hsplit : n.toNat = (n - 1).toNat + 1 := by omega
  rw [experimentsLeft, experimentsLeft, hsplit, Nat.succ_mul]

theorem roundsLeft_next {n : Nat} (hn : n < b.rounds) :
    b.roundsLeft n = b.roundsLeft (n + 1) + (2 * b.iters + 11) := by
  have hsplit : b.rounds - n = (b.rounds - (n + 1)) + 1 := by omega
  rw [roundsLeft, roundsLeft, hsplit, Nat.succ_mul]

section Steps
variable {e : Experiment} {m : Clocks} {t : Nat} {σ σ' : RunShared} {l l' : RunLocal}
  {calls : List BarrierCall}

theorem looping_step (hlt : e.experiments < 2147483648)
    (hiters : l.point = .testCal → σ.iters ≤ b.iters)
    (hiterations : l.point = .testCall → σ.iterations ≤ b.iterations)
    (hl : b.Looping e l) (h : runStep e m t σ l = some (σ', l')) : b.Looping e l' := by
  have hsmall := b.iters_lt
  have hsmall' := b.iterations_lt
  cases runStep_moves h with
  | skipCalibration hp => exact Int.le_refl 0
  | callCal hp hlt =>
    simp only [Looping, hp] at hl
    have hle := hiters hp
    refine ⟨hl, ?_⟩
    rw [goto_i]
    omega
  | benchCal hp =>
    simp only [Looping, hp] at hl
    have hnext : addStep 1 l.i = l.i + 1 := wrap32_of_bounds (by omega) (by omega)
    simp only [Looping, calledOnce_point, calledOnce_i, hnext]
    omega
  | enterExp hp hlt =>
    simp only [Looping, hp] at hl
    exact ⟨hl, hlt⟩
  | startExp hp | passStartExp hp | stopExp hp | passStopExp hp =>
    simp only [Looping, hp] at hl
    exact hl
  | call hp hlt =>
    simp only [Looping, hp] at hl
    have hle := hiterations hp
    refine ⟨hl.1, hl.2, ?_⟩
    rw [goto_i]
    omega
  | called hp =>
    simp only [Looping, hp] at hl
    exact hl.1
  | bench hp =>
    simp only [Looping, hp] at hl
    obtain ⟨he, h0, hlast⟩ := hl
    have hnext : addStep 1 l.i = l.i + 1 := wrap32_of_bounds (by omega) (by omega)
    refine ⟨he, ?_⟩
    rw [calledOnce_i, hnext]
    omega
  | record hp | drop hp =>
    simp only [Looping, hp] at hl
    have hnext : addStep 1 l.e = l.e + 1 := wrap32_of_bounds (by omega) (by omega)
    simp only [Looping, hnext]
    omega
  | _ => trivial

theorem looping_resume {c : BarrierCall} (hl : b.Looping e l) (hc : l.point = .barrier c) :
    b.Looping e (afterBarrier l c) := by
  cases c
  all_goals simp only [Looping, hc] at hl
  case calStarted | calDone => exact Int.le_refl 0
  case expTop | expCalled | expStopped => exact hl
  case expStarted => exact ⟨hl, Int.le_refl 0⟩
  all_goals trivial

theorem left_step (hlt : e.experiments < 2147483648)
    (hrounds : l.point = .testElapsed → σ.elapsed ≤ m.bound t → PChase.rounds calls < b.rounds)
    (hiters : l.point = .testCal → σ.iters ≤ b.iters)
    (hiterations : l.point = .testCall → σ.iterations ≤ b.iterations)
    (hl : b.Looping e l) (h : runStep e m t σ l = some (σ', l')) :
    b.left e (l', calls ++ l'.call.toList) < b.left e (l, calls) := by
  have hsmall := b.iters_lt
  have hsmall' := b.iterations_lt
  have hcount := rounds_append calls l'.call
  cases runStep_moves h with
  | skipCalibration hp =>
    simp only [left, hp, Int.sub_zero]
    omega
  | goOn hp hle =>
    have hnext := roundsLeft_next (hrounds hp hle)
    simp only [RunLocal.call, goto_point, if_true] at hcount
    simp only [left, RunLocal.call, goto_point, hp, hcount]
    omega
  | callCal hp hlt =>
    have hle := hiters hp
    simp only [RunLocal.call, goto_point, reduceCtorEq, if_false, Nat.add_zero] at hcount
    simp only [left, RunLocal.call, goto_point, goto_i, hp, hcount]
    omega
  | benchCal hp =>
    simp only [Looping, hp] at hl
    have hnext : addStep 1 l.i = l.i + 1 := wrap32_of_bounds (by omega) (by omega)
    simp only [RunLocal.call, calledOnce_point, reduceCtorEq, if_false, Nat.add_zero] at hcount
    simp only [left, RunLocal.call, calledOnce_point, calledOnce_i, hp, hcount, hnext]
    omega
  | enterExp hp hlt =>
    have hnext := b.experimentsLeft_next (n := e.experiments - l.e) (by omega)
    simp only [left, goto_point, goto_e, hp]
    omega
  | call hp hlt =>
    have hle := hiterations hp
    simp only [left, goto_point, goto_i, goto_e, hp]
    omega
  | bench hp =>
    simp only [Looping, hp] at hl
    have hnext : addStep 1 l.i = l.i + 1 := wrap32_of_bounds (by omega) (by omega)
    simp only [left, calledOnce_point, calledOnce_i, calledOnce_e, hp, hnext]
    omega
  | record hp | drop hp =>
    simp only [Looping, hp] at hl
    have hnext : addStep 1 l.e = l.e + 1 := wrap32_of_bounds (by omega) (by omega)
    have hbehind : e.experiments - (l.e + 1) = e.experiments - l.e - 1 := by omega
    simp only [left, hp, hnext, hbehind]
    omega
  | _ hp =>
    simp only [RunLocal.call, goto_point, reduceCtorEq, Option.some.injEq, if_false,
      Nat.add_zero] at hcount
    simp only [left, RunLocal.call, goto_point, goto_e, hp, hcount]
    omega

theorem left_resume {c : BarrierCall} (hc : l.point = .barrier c) :
    b.left e (afterBarrier l c, calls) < b.left e (l, calls) := by
  cases c
  all_goals
    simp only [left, afterBarrier, goto_point, goto_e, hc, Int.sub_zero, Int.toNat_natCast]
    omega

end Steps

section Runs
variable {e : Experiment} {m : Clocks} (hlt : e.experiments < 2147483648) (hb : b.Suffices e m)
  {s s' : RunState} (hs : RunReachable e m s)
include hlt hb hs

theorem looping_of_reachable : ∀ t < e.numThreads.toNat, b.Looping e (s.locals t) := by
  refine own_thread (J := fun _ l _ => b.Looping e l) ?_ ?_ ?_ hs
  · exact fun _ _ => trivial
  · intro s t σ' l' hs ht hl h
    exact looping_step hlt (hb.iters_le hs ht) (hb.iterations_le hs ht) hl h
  · intro t l calls c _ hl hcall
    have hc := (call_eq_some_iff l c).mp hcall
    change b.Looping e l.resume
    rw [resume_of_call hc]
    exact looping_resume hl hc

theorem left_decreases (hT : 0 < e.numThreads.toNat)
    (hstep : (runProgram e m).Step e.numThreads.toNat e.numThreads.toNat s s') :
    totalLeft (b.left e) e.numThreads.toNat (fun t => (s'.locals t, s'.calls t)) <
      totalLeft (b.left e) e.numThreads.toNat (fun t => (s.locals t, s.calls t)) := by
  have hl := looping_of_reachable hlt hb hs
  refine totalLeft_step hT hstep ?_ ?_
  · intro t ht σ l h
    exact left_step hlt (hb.rounds_lt hs ht) (hb.iters_le hs ht) (hb.iterations_le hs ht) (hl t ht) h
  · intro t ht c hcall
    have hc := (call_eq_some_iff _ c).mp hcall
    change b.left e ((s.locals t).resume, s.calls t) < _
    rw [resume_of_call hc]
    exact left_resume hc

end Runs

end Budget

/-- Only the calibration asks for the resolution of the clock. -/
theorem runStep_resolution {e : Experiment} {m : Clocks} (resolution : Nat → ℚ) {t : Nat}
    {σ : RunShared} {l : RunLocal} (hl : l.point.calibrates = false) :
    runStep e { m with resolution } t σ l = runStep e m t σ l := by
  cases hp : l.point
  case testElapsed | schedule => simp [hp, Point.calibrates] at hl
  all_goals simp only [runStep, hp]

section Given
variable {e : Experiment} {m : Clocks} {s : RunState} (he : e.iterations ≠ 0)

section Reachable
variable (hs : RunReachable e m s)
include he hs

/-- Nobody stores another number of iterations than the one that was given. -/
theorem given_iterations : s.shared.iterations = e.iterations := by
  induction hs with
  | refl => rfl
  | tail hrun hstep ih =>
    cases hstep with
    | run t r ht h =>
      have hskip := (skips_calibration he hrun).2 t
      refine ((runStep_frame h).1 fun hp => ?_).trans ih
      rw [hp] at hskip
      simp [Point.calibrates] at hskip
    | release => exact ih

/-- The resolution of the clock plays no part. -/
theorem reachable_of_given (resolution : Nat → ℚ) :
    RunReachable e { m with resolution } s := by
  unfold RunReachable at hs ⊢
  induction hs with
  | refl => exact .refl
  | tail hrun hstep ih =>
    cases hstep with
    | run t r ht h =>
      exact ih.tail (.run t r ht ((runStep_resolution resolution
        ((skips_calibration he hrun).2 t)).trans h))
    | release h => exact ih.tail (.release h)

end Reachable

include he in
theorem suffices_of_given (hlt : e.iterations < 2147483648) :
    Budget.Suffices ⟨0, 0, e.iterations.toNat, by omega, by omega⟩ e m := by
  have hskip : ∀ {s : RunState}, RunReachable e m s → ∀ t p, (s.locals t).point = p →
      p.calibrates = false := fun hs t p hp => hp ▸ (skips_calibration he hs).2 t
  refine ⟨?_, ?_, ?_⟩
  · intro s hs t _ hp
    simpa [Point.calibrates] using hskip hs t _ hp
  · intro s hs t _ hp
    simpa [Point.calibrates] using hskip hs t _ hp
  · intro s hs t _ _
    rw [given_iterations he hs]
    exact Int.self_le_toNat _

end Given

/-- As long as not all have returned, some thread goes on or all wait and are released. -/
theorem run_go_on {p : Platform} {args : List CStr} {e : Experiment}
    (ha : parseArgs p args = .accepted e) {m : Clocks}
    (hm : e.iterations ≠ 0 ∨ ∀ t < e.numThreads.toNat, m.resolution t ≤ 1 / 50) {s : RunState}
    (hs : RunReachable e m s) :
    (∀ t < e.numThreads.toNat, (s.locals t).point = .finished) ∨
      ∃ s', (runProgram e m).Step e.numThreads.toNat e.numThreads.toNat s s' := by
  have hn := (accepted_of_parseArgs ha).numThreads_pos
  have hparticipants := participants_eq (tables_of_parseArgs ha).numThreads_lt hn
  by_cases hlive : ∃ t < e.numThreads.toNat, ∃ r, runStep e m t s.shared (s.locals t) = some r
  · obtain ⟨t, ht, r, hstep⟩ := hlive
    exact .inr ⟨_, .run t r ht hstep⟩
  · have hall : ∀ t < e.numThreads.toNat, (s.locals t).point = .finished ∨
        ∃ c, (s.locals t).point = .barrier c := by
      intro t ht
      apply (runStep_eq_none_iff e m t s.shared _).mp
      apply Option.eq_none_iff_forall_ne_some.mpr
      intro r hr
      exact hlive ⟨t, ht, r, hr⟩
    obtain ⟨m', hres, hs'⟩ : ∃ m' : Clocks, (∀ t < e.numThreads.toNat, m'.resolution t ≤ 1 / 50) ∧
        RunReachable e m' s := by
      rcases hm with he | hres
      · exact ⟨_, fun _ _ => by norm_num, reachable_of_given he hs fun _ => 0⟩
      · exact ⟨m, hres, hs⟩
    unfold RunReachable at hs'
    rw [hparticipants] at hs'
    obtain ⟨τ, hat⟩ := (runPhases e m' e.numThreads.toNat (m'.round (1 / 5)) (bound_nonneg m')
      fun t ht => bound_of_resolution (hres t ht)).reachable (by omega) hs'
    rcases blocked_together _ _ hat hall with hfinished | ⟨c, hc⟩
    · exact .inl hfinished
    · exact .inr ⟨_, .release ((waiting_eq_iff _ s).mpr fun t ht =>
        ⟨c, (call_eq_some_iff _ c).mpr (hc t ht)⟩)⟩

end PChase
