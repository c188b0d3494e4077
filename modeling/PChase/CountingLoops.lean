import PChase.CalibrationCondition
import PChase.CountLoop

/-!
# The counts of the threads

What the counters of a thread say at each point of `Run::run`: as long as the bounds are in
the range of an `int`, nobody is ahead of them or leaves a loop short of them.
-/

namespace PChase

open CInt CountLoop BarrierProgram
set_option autoImplicit false

/-- No thread is ahead of the numbers it counts to, and one that leaves a loop has made
them full. -/
structure CountsRight (e : Experiment) (threads : Nat) (s : RunState) : Prop where
  calling : ∀ t < threads, (s.locals t).point = .testCall ∨ (s.locals t).point = .bench →
    ((s.locals t).calls : Int) ≤ s.shared.iterations
  called : ∀ t < threads, (s.locals t).point = .barrier .expCalled →
    ((s.locals t).calls : Int) = s.shared.iterations
  begun : ∀ t < threads, ((s.calls t).count .expTop : Int) ≤ e.experiments
  ended : ∀ t < threads, (s.locals t).point = .barrier .runEnd ∨ (s.locals t).point = .finished →
    ((s.calls t).count .expTop : Int) = e.experiments ∧
      ((s.calls t).count .expCalled : Int) = e.experiments

/-- `exp->iterations` is a count that an `int` can reach. -/
def CountFits (σ : RunShared) : Prop := 0 ≤ σ.iterations ∧ σ.iterations < 2147483648

structure Experimented (e : Experiment) (calls : List BarrierCall) (begun done : Int) : Prop where
  begun_eq : (calls.count .expTop : Int) = begun
  done_eq : (calls.count .expCalled : Int) = done
  begun_le : begun ≤ e.experiments

/-- What the counters of a thread say at each point. -/
def Counting (e : Experiment) (σ : RunShared) (l : RunLocal) (calls : List BarrierCall) : Prop :=
  match l.point with
  | .testExp => Experimented e calls l.e l.e
  | .barrier .expTop | .startExp | .barrier .expStarted => Experimented e calls (l.e + 1) l.e
  | .testCall => Experimented e calls (l.e + 1) l.e ∧
      (CountFits σ → l.i = l.calls ∧ l.calls ≤ σ.iterations)
  | .bench => Experimented e calls (l.e + 1) l.e ∧
      (CountFits σ → l.i = l.calls ∧ l.calls < σ.iterations)
  | .barrier .expCalled => Experimented e calls (l.e + 1) (l.e + 1) ∧
      (CountFits σ → l.calls = σ.iterations)
  | .stopExp | .barrier .expStopped | .record => Experimented e calls (l.e + 1) (l.e + 1)
  | .barrier .runEnd | .finished => Experimented e calls e.experiments e.experiments
  | _ => Experimented e calls 0 0

def Point.inCalls : Point → Bool
  | .testCall | .bench | .barrier .expCalled => true
  | _ => false

theorem count_append_call (b : BarrierCall) (calls : List BarrierCall) (c : Option BarrierCall) :
    (calls ++ c.toList).count b = calls.count b + if c = some b then 1 else 0 := by
  rw [List.count_append]
  cases c with
  | none => rfl
  | some c =>
    rw [Option.toList_some, List.count_singleton]
    simp

section Steps
variable {e : Experiment} {m : Clocks} {t : Nat} {σ σ' : RunShared} {l l' : RunLocal}
variable {calls : List BarrierCall} {begun done : Int}

theorem Experimented.append (h : Experimented e calls begun done) {c : Option BarrierCall}
    (htop : c ≠ some .expTop) (hcalled : c ≠ some .expCalled) :
    Experimented e (calls ++ c.toList) begun done := by
  refine ⟨?_, ?_, h.begun_le⟩
  · rw [count_append_call, if_neg htop, Nat.add_zero, h.begun_eq]
  · rw [count_append_call, if_neg hcalled, Nat.add_zero, h.done_eq]

theorem Experimented.top (h : Experimented e calls begun done) (hlt : begun < e.experiments) :
    Experimented e (calls ++ [.expTop]) (begun + 1) done := by
  have hbegun := count_append_call .expTop calls (some .expTop)
  have hdone := count_append_call .expCalled calls (some .expTop)
  simp only [Option.toList_some, if_true, reduceCtorEq, Option.some.injEq, if_false] at hbegun hdone
  exact ⟨by rw [hbegun, Nat.cast_add, h.begun_eq]; rfl, by rw [hdone, ← h.done_eq]; rfl, by omega⟩

theorem Experimented.called (h : Experimented e calls begun done) :
    Experimented e (calls ++ [.expCalled]) begun (done + 1) := by
  have hbegun := count_append_call .expTop calls (some .expCalled)
  have hdone := count_append_call .expCalled calls (some .expCalled)
  simp only [Option.toList_some, if_true, reduceCtorEq, Option.some.injEq, if_false] at hbegun hdone
  exact ⟨by rw [hbegun, ← h.begun_eq]; rfl, by rw [hdone, Nat.cast_add, h.done_eq]; rfl, h.begun_le⟩

theorem Counting.experimented (h : Counting e σ l calls) :
    ∃ begun done, Experimented e calls begun done := by
  cases hp : l.point
  case testCall | bench =>
    simp only [Counting, hp] at h
    exact ⟨_, _, h.1⟩
  case barrier c =>
    cases c
    case expCalled =>
      simp only [Counting, hp] at h
      exact ⟨_, _, h.1⟩
    all_goals
      simp only [Counting, hp] at h
      exact ⟨_, _, h⟩
  all_goals
    simp only [Counting, hp] at h
    exact ⟨_, _, h⟩

theorem Counting.congr (h : Counting e σ l calls)
    (hsame : l.point.inCalls = true → σ'.iterations = σ.iterations) : Counting e σ' l calls := by
  by_cases hin : l.point.inCalls = true
  · have hiterations := hsame hin
    cases hp : l.point
    case testCall | bench =>
      simp only [Counting, hp, CountFits, hiterations] at h ⊢
      exact h
    case barrier c =>
      cases c
      case expCalled =>
        simp only [Counting, hp, CountFits, hiterations] at h ⊢
        exact h
      all_goals simp [hp, Point.inCalls] at hin
    all_goals simp [hp, Point.inCalls] at hin
  · cases hp : l.point
    case testCall | bench => simp [hp, Point.inCalls] at hin
    case barrier c =>
      cases c
      case expCalled => simp [hp, Point.inCalls] at hin
      all_goals
        simp only [Counting, hp] at h ⊢
        exact h
    all_goals
      simp only [Counting, hp] at h ⊢
      exact h

theorem Counting.own (hlt : e.experiments < 2147483648) (hI : Counting e σ l calls)
    (h : runStep e m t σ l = some (σ', l')) : Counting e σ' l' (calls ++ l'.call.toList) := by
  cases runStep_moves h with
  | enterExp hp hlt =>
    simp only [Counting, hp] at hI
    exact hI.top hlt
  | leaveExps hp hge =>
    simp only [Counting, hp] at hI
    have hall : l.e = e.experiments := by
      have := hI.begun_le
      omega
    rw [hall] at hI
    exact hI.append (by simp [RunLocal.call]) (by simp [RunLocal.call])
  | call hp hlt =>
    simp only [Counting, hp] at hI
    obtain ⟨hexp, hcalls⟩ := hI
    refine ⟨hexp.append (by simp [RunLocal.call]) (by simp [RunLocal.call]), fun hfits => ?_⟩
    obtain ⟨hi, _⟩ := hcalls hfits
    exact ⟨hi, by simp only [goto_calls]; omega⟩
  | called hp hge =>
    simp only [Counting, hp] at hI
    obtain ⟨hexp, hcalls⟩ := hI
    refine ⟨hexp.called, fun hfits => ?_⟩
    obtain ⟨hi, hle⟩ := hcalls hfits
    simp only [goto_calls]
    omega
  | bench hp =>
    simp only [Counting, hp] at hI
    obtain ⟨hexp, hcalls⟩ := hI
    refine ⟨hexp.append (by simp [RunLocal.call]) (by simp [RunLocal.call]), fun hfits => ?_⟩
    obtain ⟨hi, hle⟩ := hcalls hfits
    have hnext : addStep 1 l.i = l.i + 1 := by
      unfold CountFits at hfits
      exact wrap32_of_bounds (by omega) (by omega)
    simp only [calledOnce_i, calledOnce_calls, hnext]
    omega
  | record hp | drop hp =>
    simp only [Counting, hp] at hI
    have hnext : addStep 1 l.e = l.e + 1 := by
      have hbegun := hI.begun_eq
      have hle := hI.begun_le
      exact wrap32_of_bounds (by omega) (by omega)
    have hexp := hI.append (c := none) (by simp) (by simp)
    rw [← hnext] at hexp
    exact hexp
  | _ hp =>
    simp only [Counting, hp] at hI
    exact hI.append (by simp [RunLocal.call]) (by simp [RunLocal.call])

theorem Counting.resume {c : BarrierCall} (hI : Counting e σ l calls) (hc : l.point = .barrier c) :
    Counting e σ (afterBarrier l c) calls := by
  cases c
  all_goals simp only [Counting, hc] at hI
  case expStarted =>
    refine ⟨hI, fun hfits => ⟨rfl, ?_⟩⟩
    simpa [afterBarrier] using hfits.1
  case expCalled => exact hI.1
  all_goals exact hI

end Steps

section Runs
variable {p : Platform} {args : List CStr} {e : Experiment} (ha : parseArgs p args = .accepted e)
  {m : Clocks} (hm : e.iterations ≠ 0 ∨ ∀ t < e.numThreads.toNat, m.resolution t ≤ 1 / 50)
include ha hm

/-- Nobody makes the calls of an experiment while thread 0 stores `exp->iterations`. -/
theorem nobody_calls_at_schedule {s : RunState} (hs : RunReachable e m s) {t u : Nat}
    (ht : t < e.numThreads.toNat) (hu : u < e.numThreads.toNat)
    (hp : (s.locals t).point = .schedule) : (s.locals u).point.inCalls = false := by
  cases hm with
  | inl he =>
    have hskip := (skips_calibration he hs).2 t
    rw [hp] at hskip
    simp [Point.calibrates] at hskip
  | inr hres =>
    have hn := (accepted_of_parseArgs ha).numThreads_pos
    unfold RunReachable at hs
    rw [participants_eq (tables_of_parseArgs ha).numThreads_lt hn] at hs
    let phases := runPhases e m e.numThreads.toNat (m.round (1 / 5)) (bound_nonneg m)
      fun t ht => bound_of_resolution (hres t ht)
    obtain ⟨τ, hat⟩ := phases.reachable (by omega) hs
    have hlast : τ.getLast? = some .calStopped := by
      rcases hat.thread t ht with ⟨_, hrun⟩ | ⟨c, hcall, _⟩
      · have hcame := hrun.came
        rw [hp] at hcame
        simpa [cameFrom] using hcame
      · rw [(call_eq_some_iff _ c).mp hcall] at hp
        simp at hp
    rcases hat.thread u hu with ⟨_, hrun⟩ | ⟨c, hcall, hnext, _⟩
    · have hcame := hrun.came
      rw [hlast] at hcame
      cases hpu : (s.locals u).point
      case testCall | bench => simp [hpu, cameFrom] at hcame
      case barrier c => simp [hpu, cameFrom] at hcame
      all_goals rfl
    · rw [(call_eq_some_iff _ c).mp hcall]
      change nextCall e _ τ s.shared = some c at hnext
      simp only [nextCall, hlast] at hnext
      split at hnext
      · obtain rfl := Option.some.inj hnext
        rfl
      · obtain rfl := Option.some.inj hnext
        rfl

theorem counting_of_reachable (h0 : 0 ≤ e.experiments) (hlt : e.experiments < 2147483648)
    {s : RunState} (hs : RunReachable e m s) :
    ∀ t < e.numThreads.toNat, Counting e s.shared (s.locals t) (s.calls t) := by
  refine each_thread (I := fun _ σ l calls => Counting e σ l calls) ?_ ?_ ?_ ?_ hs
  · exact fun _ _ => ⟨rfl, rfl, h0⟩
  · exact fun _ hI h => hI.own hlt h
  · intro s t u σ' l' hs ht hu _ h hI
    refine hI.congr fun hin => (runStep_frame h).1 fun hp => ?_
    rw [nobody_calls_at_schedule ha hm hs ht hu hp] at hin
    simp at hin
  · intro t σ l calls c _ hI hcall
    have hc := (call_eq_some_iff l c).mp hcall
    change Counting e σ l.resume calls
    rw [resume_of_call hc]
    exact hI.resume hc

theorem countsRight_of_reachable (h0 : 0 ≤ e.experiments) (hlt : e.experiments < 2147483648)
    {s : RunState} (hs : RunReachable e m s) (hfits : CountFits s.shared) :
    CountsRight e e.numThreads.toNat s := by
  have hcounting := counting_of_reachable ha hm h0 hlt hs
  constructor
  · intro t ht hp
    have hI := hcounting t ht
    cases hp with
    | inl hp =>
      simp only [Counting, hp] at hI
      exact (hI.2 hfits).2
    | inr hp =>
      simp only [Counting, hp] at hI
      exact Int.le_of_lt (hI.2 hfits).2
  · intro t ht hp
    have hI := hcounting t ht
    simp only [Counting, hp] at hI
    exact hI.2 hfits
  · intro t ht
    obtain ⟨begun, done, hexp⟩ := (hcounting t ht).experimented
    rw [hexp.begun_eq]
    exact hexp.begun_le
  · intro t ht hp
    have hI := hcounting t ht
    cases hp with
    | inl hp =>
      simp only [Counting, hp] at hI
      exact ⟨hI.begun_eq, hI.done_eq⟩
    | inr hp =>
      simp only [Counting, hp] at hI
      exact ⟨hI.begun_eq, hI.done_eq⟩

end Runs

end PChase
