import PChase.BarriersAligned

/-!
# The calibration of a single thread

What the calibration is about, and why a thread that runs alone meets it: the number of
iterations doubles from round to round and `elapsed` is the time of the round before.
-/

namespace PChase

open CInt CountLoop BarrierProgram
set_option autoImplicit false

def rounds (calls : List BarrierCall) : Nat := calls.count .calTop

/-- The length of round `k + 1` by the readings of thread 0. -/
def Clocks.lap (m : Clocks) (k : Nat) : ℚ := m.round (m.clock (2 * k + 1) - m.clock (2 * k))

/-- Round `r` makes `2 ^ (r - 1)` calls in every thread, and the value of `iters` that
thread 0 calculates with is twice that of the last round. -/
structure CalibrationRight (threads : Nat) (s : RunState) : Prop where
  calling : ∀ t < threads, (s.locals t).point = .testCal ∨ (s.locals t).point = .benchCal →
    (s.locals t).calls ≤ 2 ^ (rounds (s.calls t) - 1)
  called : ∀ t < threads, (s.locals t).point = .barrier .calCalled →
    (s.locals t).calls = 2 ^ (rounds (s.calls t) - 1)
  doubled : (s.locals 0).point = .schedule → (s.locals 0).tmp = 2 ^ rounds (s.calls 0)

theorem rounds_append (calls : List BarrierCall) (c : Option BarrierCall) :
    rounds (calls ++ c.toList) = rounds calls + if c = some .calTop then 1 else 0 := by
  unfold rounds
  rw [List.count_append]
  cases c with
  | none => rfl
  | some c =>
    rw [Option.toList_some, List.count_singleton]
    simp

structure InRound (last k : Nat) (σ : RunShared) (calls : List BarrierCall) : Prop where
  rounds_eq : rounds calls = k + 1
  le_last : k ≤ last
  iters_eq : σ.iters = 2 ^ k

def Started (m : Clocks) (k : Nat) (σ : RunShared) : Prop :=
  σ.readings = 2 * k + 1 ∧ σ.istart = m.clock (2 * k)

def Timed (m : Clocks) (k : Nat) (σ : RunShared) : Prop :=
  σ.readings = 2 * (k + 1) ∧ σ.elapsed = m.lap k

def CalibratesAlone (m : Clocks) (last : Nat) (σ : RunShared) (l : RunLocal)
    (calls : List BarrierCall) : Prop :=
  match l.point with
  | .guard | .initIters => rounds calls = 0 ∧ σ.readings = 0 ∧ σ.elapsed = 0
  | .testElapsed => σ.iters = 2 ^ rounds calls ∧
      ((rounds calls = 0 ∧ σ.readings = 0 ∧ σ.elapsed = 0) ∨
        ∃ k ≤ last, rounds calls = k + 1 ∧ Timed m k σ)
  | .barrier .calTop | .startCal => ∃ k, InRound last k σ calls ∧ σ.readings = 2 * k
  | .barrier .calStarted => ∃ k, InRound last k σ calls ∧ Started m k σ
  | .testCal => ∃ k, InRound last k σ calls ∧ Started m k σ ∧ l.i = l.calls ∧ l.calls ≤ 2 ^ k
  | .benchCal => ∃ k, InRound last k σ calls ∧ Started m k σ ∧ l.i = l.calls ∧ l.calls < 2 ^ k
  | .barrier .calCalled | .stopCal =>
      ∃ k, InRound last k σ calls ∧ Started m k σ ∧ l.calls = 2 ^ k
  | .setElapsed => ∃ k, InRound last k σ calls ∧ σ.readings = 2 * (k + 1) ∧
      σ.istart = m.clock (2 * k) ∧ σ.istop = m.clock (2 * k + 1)
  | .barrier .calStopped | .readIters => ∃ k, InRound last k σ calls ∧ Timed m k σ
  | .storeIters => ∃ k, InRound last k σ calls ∧ Timed m k σ ∧ l.tmp = 2 ^ k
  | .calculate => σ.iters = 2 ^ rounds calls
  | .schedule => l.tmp = 2 ^ rounds calls
  | _ => True

section Single
variable {e : Experiment} {m : Clocks} {last : Nat} {σ σ' : RunShared} {l l' : RunLocal}
variable {calls : List BarrierCall}

theorem two_pow_lt {k : Nat} (hk : k ≤ last) (hlast : last < 31) : (2 : Int) ^ k < 2147483648 := by
  have h : (2 : Nat) ^ k ≤ 2 ^ 30 := Nat.pow_le_pow_right (by omega) (by omega)
  have h' : ((2 ^ k : Nat) : Int) ≤ ((2 ^ 30 : Nat) : Int) := Int.ofNat_le.mpr h
  push_cast at h'
  omega

theorem InRound.append {k : Nat} (h : InRound last k σ calls) (hiters : σ'.iters = σ.iters)
    {c : Option BarrierCall} (hc : c ≠ some .calTop) : InRound last k σ' (calls ++ c.toList) := by
  refine ⟨?_, h.le_last, hiters.trans h.iters_eq⟩
  rw [rounds_append, if_neg hc, h.rounds_eq]

theorem append_no_call (h : l.call = none) : calls ++ l.call.toList = calls := by
  rw [h, Option.toList_none, List.append_nil]

theorem testElapsed_alone (hbound : m.bound 0 < m.lap last)
    (hiters : σ.iters = 2 ^ rounds calls)
    (hc : (rounds calls = 0 ∧ σ.readings = 0 ∧ σ.elapsed = 0) ∨
      ∃ k ≤ last, rounds calls = k + 1 ∧ Timed m k σ) (hle : σ.elapsed ≤ m.bound 0) :
    ∃ k, InRound last k σ (calls ++ (some BarrierCall.calTop).toList) ∧ σ.readings = 2 * k := by
  refine ⟨rounds calls, ⟨?_, ?_, hiters⟩, ?_⟩
  · rw [rounds_append, if_pos rfl]
  · rcases hc with ⟨hzero, _⟩ | ⟨k, hk, hrounds, _, helapsed⟩
    · omega
    · rw [helapsed] at hle
      have hne : k ≠ last := by
        intro hlast
        rw [hlast] at hle
        exact absurd hle (not_le.mpr hbound)
      omega
  · rcases hc with ⟨hzero, hreadings, _⟩ | ⟨k, _, hrounds, hreadings, _⟩
    · omega
    · omega

theorem calibratesAlone_step (hlast : last < 31) (hbound : m.bound 0 < m.lap last)
    (hc : CalibratesAlone m last σ l calls) (h : runStep e m 0 σ l = some (σ', l')) :
    CalibratesAlone m last σ' l' (calls ++ l'.call.toList) := by
  cases runStep_moves h with
  | calibrate hp =>
    simp only [CalibratesAlone, hp] at hc
    rw [append_no_call]
    · exact hc
    · rfl
  | initIters hp =>
    simp only [CalibratesAlone, hp] at hc
    rw [append_no_call]
    · refine ⟨?_, .inl hc⟩
      rw [hc.1]
      rfl
    · rfl
  | goOn hp hle =>
    simp only [CalibratesAlone, hp] at hc
    exact testElapsed_alone hbound hc.1 hc.2 hle
  | settle hp =>
    simp only [CalibratesAlone, hp] at hc
    rw [append_no_call]
    · exact hc.1
    · rfl
  | startCal hp =>
    simp only [CalibratesAlone, hp] at hc
    obtain ⟨k, hround, hreadings⟩ := hc
    refine ⟨k, hround.append (by rfl) (by simp [RunLocal.call]), ?_, ?_⟩
    · simp only [RunShared.tick, hreadings]
    · simp only [hreadings]
  | callCal hp hlt =>
    simp only [CalibratesAlone, hp] at hc
    obtain ⟨k, hround, hstarted, hi, hcalls⟩ := hc
    refine ⟨k, hround.append (by rfl) (by simp [RunLocal.call]), hstarted, hi, ?_⟩
    rw [hround.iters_eq, hi] at hlt
    exact_mod_cast hlt
  | calledCal hp hge =>
    simp only [CalibratesAlone, hp] at hc
    obtain ⟨k, hround, hstarted, hi, hcalls⟩ := hc
    refine ⟨k, hround.append (by rfl) (by simp [RunLocal.call]), hstarted, ?_⟩
    rw [hround.iters_eq, hi] at hge
    have hge' : ¬ l.calls < 2 ^ k := by exact_mod_cast hge
    rw [goto_calls]
    omega
  | benchCal hp =>
    simp only [CalibratesAlone, hp] at hc
    obtain ⟨k, hround, hstarted, hi, hcalls⟩ := hc
    have hsmall := two_pow_lt hround.le_last hlast
    have hcalls' : (l.calls : Int) < 2 ^ k := by exact_mod_cast hcalls
    refine ⟨k, hround.append (by rfl) (by simp [RunLocal.call]), hstarted, ?_, hcalls⟩
    rw [calledOnce_i, calledOnce_calls, addStep, hi, wrap32_of_bounds (by omega) (by omega)]
    push_cast
    rfl
  | stopCal hp =>
    simp only [CalibratesAlone, hp] at hc
    obtain ⟨k, hround, ⟨hreadings, hstart⟩, _⟩ := hc
    refine ⟨k, hround.append (by rfl) (by simp [RunLocal.call]), ?_, hstart, ?_⟩
    · simp only [RunShared.tick, hreadings]
      omega
    · simp only [hreadings]
  | setElapsed hp =>
    simp only [CalibratesAlone, hp] at hc
    obtain ⟨k, hround, hreadings, hstart, hstop⟩ := hc
    refine ⟨k, hround.append (by rfl) (by simp [RunLocal.call]), hreadings, ?_⟩
    simp only [hstart, hstop, Clocks.lap]
  | readIters hp =>
    simp only [CalibratesAlone, hp] at hc
    obtain ⟨k, hround, htimed⟩ := hc
    exact ⟨k, hround.append (by rfl) (by simp [RunLocal.call]), htimed, hround.iters_eq⟩
  | storeIters hp =>
    simp only [CalibratesAlone, hp] at hc
    obtain ⟨k, hround, htimed, htmp⟩ := hc
    have hsmall := two_pow_lt hround.le_last hlast
    have hpos : (0 : Int) < 2 ^ k := by positivity
    rw [append_no_call]
    · refine ⟨?_, .inr ⟨k, hround.le_last, hround.rounds_eq, htimed⟩⟩
      rw [hround.rounds_eq, htmp, pow_succ, wrap64_of_inInt64 ⟨by omega, by omega⟩]
    · rfl
  | calculate hp =>
    simp only [CalibratesAlone, hp] at hc
    rw [append_no_call]
    · exact hc
    · rfl
  | await hp hgt ht => exact absurd rfl ht
  | passStartCal hp ht | passStopCal hp ht | passStartExp hp ht | passStopExp hp ht =>
    exact absurd rfl ht
  | _ => trivial

theorem calibratesAlone_go {c : BarrierCall} (hc : CalibratesAlone m last σ l calls)
    (hp : l.point = .barrier c) : CalibratesAlone m last σ (afterBarrier l c) calls := by
  simp only [CalibratesAlone, hp] at hc
  cases c
  case calTop => exact hc
  case calStarted =>
    obtain ⟨k, hround, hstarted⟩ := hc
    exact ⟨k, hround, hstarted, rfl, Nat.zero_le _⟩
  case calCalled => exact hc
  case calStopped => exact hc
  all_goals trivial

theorem CalibratesAlone.right {s : RunState}
    (h : CalibratesAlone m last s.shared (s.locals 0) (s.calls 0)) : CalibrationRight 1 s := by
  have hthread : ∀ t < 1, t = 0 := fun t ht => by omega
  unfold CalibratesAlone at h
  refine ⟨?_, ?_, ?_⟩
  · intro t ht hp
    obtain rfl := hthread t ht
    rcases hp with hp | hp
    · simp only [hp] at h
      obtain ⟨k, hround, _, _, hcalls⟩ := h
      rw [hround.rounds_eq]
      exact hcalls
    · simp only [hp] at h
      obtain ⟨k, hround, _, _, hcalls⟩ := h
      rw [hround.rounds_eq]
      exact Nat.le_of_lt hcalls
  · intro t ht hp
    obtain rfl := hthread t ht
    simp only [hp] at h
    obtain ⟨k, hround, _, hcalls⟩ := h
    rw [hround.rounds_eq]
    exact hcalls
  · intro hp
    simp only [hp] at h
    exact h

/-- A single thread calibrates rightly if a round among the first 31 is long enough. -/
theorem calibration_right_alone (hlast : last < 31) (hbound : m.bound 0 < m.lap last)
    {s : RunState} (hs : (runProgram e m).Run 1 1
      (initial { iterations := e.iterations } fun _ => {}) s) : CalibrationRight 1 s := by
  apply CalibratesAlone.right
  apply single_thread (I := CalibratesAlone m last) _ _ _ hs
  · exact ⟨rfl, rfl, rfl⟩
  · exact fun hc h => calibratesAlone_step hlast hbound hc h
  · intro σ l calls c hc hcall
    have hp := (call_eq_some_iff l c).mp hcall
    change CalibratesAlone m last σ l.resume calls
    rw [resume_of_call hp]
    exact calibratesAlone_go hc hp

end Single

end PChase
