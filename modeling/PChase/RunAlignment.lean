import PChase.Accepted
import PChase.RunThreads

/-!
# The barriers of a run stay aligned

Which barrier comes next is settled by the barriers called so far and by variables that
nobody writes before it: `exp->iterations` up to the first barrier, `elapsed` between two
rounds of the calibration, the experiment number afterwards.
-/

namespace PChase

open CInt CountLoop BarrierProgram
set_option autoImplicit false

/-- Where a thread at this point has been last, `none` being the start of `run`. -/
def cameFrom : Point → List (Option BarrierCall)
  | .guard => [none]
  | .initIters => [none]
  | .testElapsed => [none, some .calStopped]
  | .startCal => [some .calTop]
  | .testCal => [some .calStarted]
  | .benchCal => [some .calStarted]
  | .stopCal => [some .calCalled]
  | .setElapsed => [some .calCalled]
  | .readIters => [some .calStopped]
  | .storeIters => [some .calStopped]
  | .calculate => [some .calStopped]
  | .schedule => [some .calStopped]
  | .testExp => [none, some .calDone, some .expStopped]
  | .startExp => [some .expTop]
  | .testCall => [some .expStarted]
  | .bench => [some .expStarted]
  | .stopExp => [some .expCalled]
  | .record => [some .expStopped]
  | .barrier _ => []
  | .finished => [some .runEnd]

def BarrierCall.isCalibration : BarrierCall → Bool
  | .calTop | .calStarted | .calCalled | .calStopped => true
  | _ => false

def experimentNumber (τ : List BarrierCall) : Int := (addStep 1)^[τ.count .expStopped] 0

def BarrierCall.isExperiment : BarrierCall → Bool
  | .expTop | .expStarted | .expCalled | .expStopped => true
  | _ => false

section Phases
variable (e : Experiment) (limit : ℚ)

def nextExperiment (τ : List BarrierCall) : BarrierCall :=
  if experimentNumber τ < e.experiments then .expTop else .runEnd

/-- The barrier that ends the current phase. -/
def nextCall (τ : List BarrierCall) (σ : RunShared) : Option BarrierCall :=
  match τ.getLast? with
  | none => if σ.iterations = 0 then some .calTop else some (nextExperiment e τ)
  | some .calTop => some .calStarted
  | some .calStarted => some .calCalled
  | some .calCalled => some .calStopped
  | some .calStopped => if σ.elapsed ≤ limit then some .calTop else some .calDone
  | some .calDone => some (nextExperiment e τ)
  | some .expTop => some .expStarted
  | some .expStarted => some .expCalled
  | some .expCalled => some .expStopped
  | some .expStopped => some (nextExperiment e τ)
  | some .runEnd => none

structure MemoryAt (τ : List BarrierCall) (σ : RunShared) : Prop where
  elapsed_start : τ = [] → σ.elapsed = 0
  no_experiment : (∀ c ∈ τ.getLast?, c.isCalibration) → τ.count .expStopped = 0

def Knows (τ : List BarrierCall) (t : Nat) (σ : RunShared) (l : RunLocal) : Prop :=
  match l.point with
  | .initIters | .testElapsed => τ = [] → σ.iterations = 0
  | .setElapsed => t = 0
  | .calculate | .schedule => t = 0 ∧ limit < σ.elapsed
  | .testExp => (τ = [] → σ.iterations ≠ 0) ∧ l.e = experimentNumber τ
  | .startExp | .testCall | .bench | .stopExp => l.e = experimentNumber τ
  | .record => addStep 1 l.e = experimentNumber τ
  | _ => True

structure RunningAt (τ : List BarrierCall) (t : Nat) (σ : RunShared) (l : RunLocal) : Prop where
  came : τ.getLast? ∈ cameFrom l.point
  knows : Knows limit τ t σ l

def EndsPhase (τ : List BarrierCall) (σ : RunShared) (l : RunLocal) : Prop :=
  ∃ c, l.point = .barrier c ∧ nextCall e limit τ σ = some c ∧
    (c.isExperiment → l.e = experimentNumber τ)

end Phases

theorem experimentNumber_append (τ : List BarrierCall) (c : BarrierCall) :
    experimentNumber (τ ++ [c]) =
      if c = .expStopped then addStep 1 (experimentNumber τ) else experimentNumber τ := by
  unfold experimentNumber
  rw [List.count_append]
  by_cases hc : c = .expStopped
  · rw [if_pos hc, hc, List.count_singleton_self, Function.iterate_succ_apply']
  · rw [if_neg hc, List.count_singleton]
    simp [hc]

theorem runStep_frame {e : Experiment} {m : Clocks} {t : Nat} {σ σ' : RunShared}
    {l l' : RunLocal} (h : runStep e m t σ l = some (σ', l')) :
    (l.point ≠ .schedule → σ'.iterations = σ.iterations) ∧
      (l.point ≠ .setElapsed → σ'.elapsed = σ.elapsed) := by
  cases runStep_moves h with
  | setElapsed hp => exact ⟨fun _ => rfl, fun hne => absurd hp hne⟩
  | schedule hp => exact ⟨fun hne => absurd hp hne, fun _ => rfl⟩
  | _ => exact ⟨fun _ => rfl, fun _ => rfl⟩

section Steps
variable {e : Experiment} {m : Clocks} {limit : ℚ} {τ : List BarrierCall} {t : Nat}
variable {σ σ' : RunShared} {l l' : RunLocal}

/-- The variables that settle the next barrier do not change before it. -/
theorem RunningAt.frozen (hr : RunningAt limit τ t σ l) (h : runStep e m t σ l = some (σ', l')) :
    (τ.getLast? = none → σ'.iterations = σ.iterations ∧ σ'.elapsed = σ.elapsed) ∧
      (τ.getLast? = some .calStopped → σ'.elapsed = σ.elapsed) := by
  obtain ⟨hiterations, helapsed⟩ := runStep_frame h
  have hcame := hr.came
  constructor
  · intro hlast
    rw [hlast] at hcame
    refine ⟨hiterations ?_, helapsed ?_⟩
    · intro hp
      simp [hp, cameFrom] at hcame
    · intro hp
      simp [hp, cameFrom] at hcame
  · intro hlast
    rw [hlast] at hcame
    apply helapsed
    intro hp
    simp [hp, cameFrom] at hcame

theorem RunningAt.memory_step (hr : RunningAt limit τ t σ l) (hm : MemoryAt τ σ)
    (h : runStep e m t σ l = some (σ', l')) : MemoryAt τ σ' := by
  refine ⟨?_, hm.no_experiment⟩
  intro hτ
  rw [((hr.frozen h).1 (by simp [hτ])).2]
  exact hm.elapsed_start hτ

theorem RunningAt.next_step (hr : RunningAt limit τ t σ l)
    (h : runStep e m t σ l = some (σ', l')) : nextCall e limit τ σ' = nextCall e limit τ σ := by
  obtain ⟨hstart, hstopped⟩ := hr.frozen h
  unfold nextCall
  cases hlast : τ.getLast? with
  | none => simp only [(hstart hlast).1]
  | some c =>
    cases c with
    | calStopped => simp only [hstopped hlast]
    | _ => rfl

theorem RunningAt.other {u : Nat} {k : RunLocal} (hr : RunningAt limit τ t σ l)
    (h : runStep e m t σ l = some (σ', l')) (hk : RunningAt limit τ u σ k) :
    RunningAt limit τ u σ' k := by
  obtain ⟨hstart, hstopped⟩ := hr.frozen h
  obtain ⟨hcame, hknows⟩ := hk
  refine ⟨hcame, ?_⟩
  have hiterations : τ = [] → σ'.iterations = σ.iterations := fun hτ =>
    (hstart (by simp [hτ])).1
  unfold Knows at hknows ⊢
  cases hp : k.point
  all_goals simp only [hp] at hknows ⊢
  case initIters | testElapsed => exact fun hτ => (hiterations hτ).trans (hknows hτ)
  case setElapsed | startExp | testCall | bench | stopExp | record => exact hknows
  case testExp => exact ⟨fun hτ => (hiterations hτ).symm ▸ hknows.1 hτ, hknows.2⟩
  case calculate | schedule =>
    rw [hp] at hcame
    rw [hstopped (by simpa [cameFrom] using hcame)]
    exact hknows

theorem RunningAt.tested (hr : RunningAt limit τ t σ l) (hp : l.point = .testElapsed) :
    τ = [] ∧ σ.iterations = 0 ∨ τ.getLast? = some .calStopped := by
  obtain ⟨hcame, hknows⟩ := hr
  simp only [Knows, hp] at hknows
  have hlast : τ.getLast? = none ∨ τ.getLast? = some .calStopped := by
    simpa [hp, cameFrom] using hcame
  cases hlast with
  | inl hnone =>
    have hτ := List.getLast?_eq_none_iff.mp hnone
    exact .inl ⟨hτ, hknows hτ⟩
  | inr hstopped => exact .inr hstopped

theorem RunningAt.timed (hr : RunningAt limit τ t σ l) (hm : MemoryAt τ σ) (hlimit : 0 ≤ limit)
    (hp : l.point = .testElapsed) (hgt : ¬ σ.elapsed ≤ limit) : τ.getLast? = some .calStopped := by
  rcases hr.tested hp with ⟨hτ, _⟩ | hstopped
  · rw [hm.elapsed_start hτ] at hgt
    exact absurd hlimit hgt
  · exact hstopped

theorem RunningAt.next_experiment (hr : RunningAt limit τ t σ l) (hp : l.point = .testExp) :
    nextCall e limit τ σ =
      some (if l.e < e.experiments then .expTop else .runEnd) := by
  obtain ⟨hcame, hknows⟩ := hr
  simp only [Knows, hp] at hknows
  have hlast : τ.getLast? = none ∨ τ.getLast? = some .calDone ∨
      τ.getLast? = some .expStopped := by simpa [hp, cameFrom] using hcame
  rw [hknows.2]
  rcases hlast with hlast | hlast | hlast
  · simp only [nextCall, hlast, nextExperiment]
    rw [if_neg (hknows.1 (List.getLast?_eq_none_iff.mp hlast))]
  · simp only [nextCall, hlast, nextExperiment]
  · simp only [nextCall, hlast, nextExperiment]

/-- A thread stays within its phase or comes to the barrier that ends it. -/
theorem RunningAt.control_step (hr : RunningAt limit τ t σ l) (hm : MemoryAt τ σ)
    (hbound : m.bound t = limit) (hlimit : 0 ≤ limit)
    (h : runStep e m t σ l = some (σ', l')) :
    RunningAt limit τ t σ' l' ∨ EndsPhase e limit τ σ' l' := by
  have hcame := hr.came
  have hknows := hr.knows
  cases runStep_moves h with
  | calibrate hp hzero =>
    have hlast : τ.getLast? = none := by simpa [hp, cameFrom] using hcame
    exact .inl ⟨by simp [hlast, cameFrom], fun _ => hzero⟩
  | skipCalibration hp hne =>
    have hlast : τ.getLast? = none := by simpa [hp, cameFrom] using hcame
    rw [List.getLast?_eq_none_iff.mp hlast]
    exact .inl ⟨by simp [cameFrom], fun _ => hne, rfl⟩
  | initIters hp =>
    have hlast : τ.getLast? = none := by simpa [hp, cameFrom] using hcame
    simp only [Knows, hp] at hknows
    exact .inl ⟨by simp [hlast, cameFrom], hknows⟩
  | goOn hp hle =>
    refine .inr ⟨.calTop, rfl, ?_, fun hc => by simp [BarrierCall.isExperiment] at hc⟩
    rcases hr.tested hp with ⟨hτ, hzero⟩ | hstopped
    · simp [nextCall, hτ, hzero]
    · simp only [nextCall, hstopped]
      rw [if_pos (hbound ▸ hle)]
  | settle hp hgt ht =>
    rw [hbound] at hgt
    exact .inl ⟨by simp [hr.timed hm hlimit hp hgt, cameFrom], ht, not_le.mp hgt⟩
  | await hp hgt =>
    rw [hbound] at hgt
    refine .inr ⟨.calDone, rfl, ?_, fun hc => by simp [BarrierCall.isExperiment] at hc⟩
    simp only [nextCall, hr.timed hm hlimit hp hgt]
    rw [if_neg hgt]
  | startCal hp | passStartCal hp =>
    have hlast : τ.getLast? = some .calTop := by simpa [hp, cameFrom] using hcame
    exact .inr ⟨.calStarted, rfl, by simp only [nextCall, hlast],
      fun hc => by simp [BarrierCall.isExperiment] at hc⟩
  | callCal hp | benchCal hp =>
    have hlast : τ.getLast? = some .calStarted := by simpa [hp, cameFrom] using hcame
    exact .inl ⟨by simp [hlast, cameFrom], trivial⟩
  | calledCal hp =>
    have hlast : τ.getLast? = some .calStarted := by simpa [hp, cameFrom] using hcame
    exact .inr ⟨.calCalled, rfl, by simp only [nextCall, hlast],
      fun hc => by simp [BarrierCall.isExperiment] at hc⟩
  | stopCal hp ht =>
    have hlast : τ.getLast? = some .calCalled := by simpa [hp, cameFrom] using hcame
    exact .inl ⟨by simp [hlast, cameFrom], ht⟩
  | passStopCal hp | setElapsed hp =>
    have hlast : τ.getLast? = some .calCalled := by simpa [hp, cameFrom] using hcame
    exact .inr ⟨.calStopped, rfl, by simp only [nextCall, hlast],
      fun hc => by simp [BarrierCall.isExperiment] at hc⟩
  | readIters hp =>
    have hlast : τ.getLast? = some .calStopped := by simpa [hp, cameFrom] using hcame
    exact .inl ⟨by simp [hlast, cameFrom], trivial⟩
  | storeIters hp =>
    have hlast : τ.getLast? = some .calStopped := by simpa [hp, cameFrom] using hcame
    refine .inl ⟨by simp [hlast, cameFrom], ?_⟩
    intro hτ
    simp [hτ] at hlast
  | calculate hp =>
    have hlast : τ.getLast? = some .calStopped := by simpa [hp, cameFrom] using hcame
    simp only [Knows, hp] at hknows
    exact .inl ⟨by simp [hlast, cameFrom], hknows⟩
  | schedule hp =>
    have hlast : τ.getLast? = some .calStopped := by simpa [hp, cameFrom] using hcame
    simp only [Knows, hp] at hknows
    refine .inr ⟨.calDone, rfl, ?_, fun hc => by simp [BarrierCall.isExperiment] at hc⟩
    simp only [nextCall, hlast]
    rw [if_neg (not_le.mpr hknows.2)]
  | enterExp hp hlt =>
    have hnext := hr.next_experiment (e := e) hp
    rw [if_pos hlt] at hnext
    simp only [Knows, hp] at hknows
    exact .inr ⟨.expTop, rfl, hnext, fun _ => hknows.2⟩
  | leaveExps hp hge =>
    have hnext := hr.next_experiment (e := e) hp
    rw [if_neg hge] at hnext
    exact .inr ⟨.runEnd, rfl, hnext, fun hc => by simp [BarrierCall.isExperiment] at hc⟩
  | startExp hp | passStartExp hp =>
    have hlast : τ.getLast? = some .expTop := by simpa [hp, cameFrom] using hcame
    simp only [Knows, hp] at hknows
    exact .inr ⟨.expStarted, rfl, by simp only [nextCall, hlast], fun _ => hknows⟩
  | call hp | bench hp =>
    have hlast : τ.getLast? = some .expStarted := by simpa [hp, cameFrom] using hcame
    simp only [Knows, hp] at hknows
    exact .inl ⟨by simp [hlast, cameFrom], hknows⟩
  | called hp =>
    have hlast : τ.getLast? = some .expStarted := by simpa [hp, cameFrom] using hcame
    simp only [Knows, hp] at hknows
    exact .inr ⟨.expCalled, rfl, by simp only [nextCall, hlast], fun _ => hknows⟩
  | stopExp hp | passStopExp hp =>
    have hlast : τ.getLast? = some .expCalled := by simpa [hp, cameFrom] using hcame
    simp only [Knows, hp] at hknows
    exact .inr ⟨.expStopped, rfl, by simp only [nextCall, hlast], fun _ => hknows⟩
  | record hp | drop hp =>
    have hlast : τ.getLast? = some .expStopped := by simpa [hp, cameFrom] using hcame
    have hτ : τ ≠ [] := by
      intro hτ
      simp [hτ] at hlast
    simp only [Knows, hp] at hknows
    exact .inl ⟨by simp [hlast, cameFrom], fun hnil => absurd hnil hτ, hknows⟩

end Steps

end PChase
