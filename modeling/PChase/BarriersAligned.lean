import PChase.RunAlignment

/-!
# Every thread makes the same barrier calls

The phases of a run as an invariant of its threads, and what follows for the calls, for
progress and for the variables that thread 0 writes for the others.
-/

namespace PChase

open CInt CountLoop BarrierProgram Relation
set_option autoImplicit false

section Invariant
variable {e : Experiment} {m : Clocks} {limit : ℚ} {τ : List BarrierCall} {σ : RunShared}

theorem calibration_before {c : BarrierCall} (hnext : nextCall e limit τ σ = some c)
    (hc : c.isCalibration ∨ c = .calDone) : ∀ b ∈ τ.getLast?, b.isCalibration := by
  intro b hb
  have hlast := Option.mem_def.mp hb
  cases b
  case calTop | calStarted | calCalled | calStopped => rfl
  all_goals simp only [nextCall, hlast, nextExperiment, reduceCtorEq] at hnext
  all_goals
    repeat' split at hnext
    all_goals
      obtain rfl := Option.some.inj hnext
      simp [BarrierCall.isCalibration] at hc

theorem MemoryAt.release (hm : MemoryAt τ σ) {c : BarrierCall}
    (hnext : nextCall e limit τ σ = some c) : MemoryAt (τ ++ [c]) σ := by
  refine ⟨fun hnil => by simp at hnil, ?_⟩
  intro hcalibration
  have hc : c.isCalibration := hcalibration c (by simp)
  rw [List.count_append, hm.no_experiment (calibration_before hnext (.inl hc)),
    List.count_singleton]
  cases c
  case expStopped => simp [BarrierCall.isCalibration] at hc
  all_goals rfl

theorem afterBarrier_running {t : Nat} {l : RunLocal} {c : BarrierCall} (hm : MemoryAt τ σ)
    (hnext : nextCall e limit τ σ = some c)
    (hnumber : c.isExperiment → l.e = experimentNumber τ) :
    RunningAt limit (τ ++ [c]) t σ (afterBarrier l c) := by
  have hlast : (τ ++ [c]).getLast? = some c := by simp
  have hcount := experimentNumber_append τ c
  cases c
  case calDone =>
    refine ⟨by simp [afterBarrier, cameFrom], ?_, ?_⟩
    · intro hnil
      simp at hnil
    · rw [hcount, if_neg (by decide), experimentNumber,
        hm.no_experiment (calibration_before hnext (.inr rfl))]
      rfl
  case expTop | expStarted | expCalled =>
    refine ⟨by simp [afterBarrier, cameFrom], ?_⟩
    rw [if_neg (by decide)] at hcount
    exact (hnumber rfl).trans hcount.symm
  case expStopped =>
    refine ⟨by simp [afterBarrier, cameFrom], ?_⟩
    rw [if_pos rfl] at hcount
    exact (congrArg (addStep 1) (hnumber rfl)).trans hcount.symm
  all_goals exact ⟨by simp [afterBarrier, cameFrom], trivial⟩

theorem afterBarrier_call (l : RunLocal) (c : BarrierCall) : (afterBarrier l c).call = none := by
  cases c
  all_goals rfl

theorem RunningAt.call {t : Nat} {l : RunLocal} (h : RunningAt limit τ t σ l) : l.call = none := by
  cases hcall : l.call with
  | none => rfl
  | some c =>
    have hcame := h.came
    rw [(call_eq_some_iff l c).mp hcall] at hcame
    simp [cameFrom] at hcame

variable (e m) in
def runPhases (T : Nat) (limit : ℚ) (hlimit : 0 ≤ limit) (hbound : ∀ t < T, m.bound t = limit) :
    PhaseInvariant (runProgram e m) T { iterations := e.iterations } fun _ => {} where
  next := nextCall e limit
  Memory := MemoryAt
  Running := RunningAt limit
  Waiting τ _ _ l := ∀ c, l.point = .barrier c → c.isExperiment → l.e = experimentNumber τ
  memory_start := ⟨fun _ => rfl, fun _ => rfl⟩
  running_start _ _ := ⟨by simp [cameFrom], trivial⟩
  step ht hm hr h := by
    refine ⟨hr.memory_step hm h, hr.next_step h, ?_⟩
    rcases hr.control_step hm (hbound _ ht) hlimit h with hr' | ⟨c, hpoint, hnext, hnumber⟩
    · exact .inl ⟨hr'.call, hr'⟩
    · refine .inr ⟨c, (call_eq_some_iff _ c).mpr hpoint, hnext, ?_⟩
      intro c' hpoint' hc'
      obtain rfl : c = c' := Point.barrier.inj (hpoint.symm.trans hpoint')
      exact hnumber hc'
  other _ _ _ _ hr h := ⟨fun hk => hr.other h hk, fun hk => hk⟩
  stopped hcall := (runStep_eq_none_iff _ _ _ _ _).mpr (.inr ⟨_, (call_eq_some_iff _ _).mp hcall⟩)
  memory_release hm hnext := hm.release hnext
  running_release _ hm hnext hcall hwait := by
    have hpoint := (call_eq_some_iff _ _).mp hcall
    change RunLocal.call (RunLocal.resume _) = none ∧ RunningAt _ _ _ _ (RunLocal.resume _)
    rw [resume_of_call hpoint]
    exact ⟨afterBarrier_call _ _, afterBarrier_running hm hnext (hwait _ hpoint)⟩
  running_call hr := hr.call

end Invariant

/-- With a clock resolution of at most 0.02 seconds every bound is 0.2. -/
theorem bound_of_resolution {m : Clocks} {t : Nat} (h : m.resolution t ≤ 1 / 50) :
    m.bound t = m.round (1 / 5) := by
  apply max_eq_left
  apply m.round_mono
  linarith

theorem round_nonneg (m : Clocks) {x : ℚ} (h : 0 ≤ x) : 0 ≤ m.round x := by
  rw [← m.round_zero]
  exact m.round_mono h

theorem bound_nonneg (m : Clocks) : 0 ≤ m.round (1 / 5) := round_nonneg m (by norm_num)

section Consequences
variable {e : Experiment} {m : Clocks} {limit : ℚ} {τ : List BarrierCall}

theorem came_of_touches {v : SharedVariable} {t : Nat} {σ : RunShared} {l : RunLocal}
    (hv : v = .elapsed ∨ v = .iterations) (h : RunningAt limit τ t σ l)
    (hw : .write v ∈ runTouches t l) : v = .elapsed ∧ τ.getLast? = some .calCalled ∨
      v = .iterations ∧ τ.getLast? = some .calStopped := by
  have hcame := h.came
  cases hp : l.point
  all_goals simp only [runTouches, hp] at hw
  case setElapsed =>
    left
    rw [hp] at hcame
    exact ⟨by simpa using hw, by simpa [cameFrom] using hcame⟩
  case schedule =>
    right
    rw [hp] at hcame
    exact ⟨by simpa using hw, by simpa [cameFrom] using hcame⟩
  case startCal | stopCal =>
    exfalso
    split at hw
    · rcases hv with rfl | rfl
      · simp at hw
      · simp at hw
    · simp at hw
  all_goals
    exfalso
    rcases hv with rfl | rfl
    · simp at hw
    · simp at hw

/-- A thread other than 0 reads neither variable where thread 0 writes it. -/
theorem reads_elsewhere {v : SharedVariable} {t : Nat} {σ : RunShared} {l : RunLocal}
    (ht : t ≠ 0) (h : RunningAt limit τ t σ l) (hr : .read v ∈ runTouches t l) :
    ¬ (v = .elapsed ∧ τ.getLast? = some .calCalled ∨
      v = .iterations ∧ τ.getLast? = some .calStopped) := by
  have hcame := h.came
  have hknows := h.knows
  intro hw
  cases hp : l.point
  all_goals
    rw [hp] at hcame
    simp only [Knows, hp] at hknows
    simp only [runTouches, hp] at hr
  case setElapsed => exact ht hknows
  case schedule => exact ht hknows.1
  case guard | testElapsed | testCall =>
    rcases hw with ⟨rfl, hlast⟩ | ⟨rfl, hlast⟩
    · simp [hlast, cameFrom] at hcame hr
    · simp [hlast, cameFrom] at hcame hr
  case testCal | readIters | calculate =>
    rcases hw with ⟨rfl, hlast⟩ | ⟨rfl, hlast⟩
    · simp at hr
    · simp at hr
  case startCal | stopCal =>
    rw [if_neg ht] at hr
    simp at hr
  all_goals simp at hr

/-- When no thread can go on, all have returned or all wait at one barrier. -/
theorem blocked_together {T : Nat} (hlimit : 0 ≤ limit) (hbound : ∀ t < T, m.bound t = limit)
    {s : RunState} (hat : (runPhases e m T limit hlimit hbound).At τ s)
    (hall : ∀ t < T, (s.locals t).point = .finished ∨ ∃ c, (s.locals t).point = .barrier c) :
    (∀ t < T, (s.locals t).point = .finished) ∨
      ∃ c, ∀ t < T, (s.locals t).point = .barrier c := by
  rcases hat.together with hnone | ⟨c, hnext, hc⟩
  · left
    intro t ht
    rcases hall t ht with hfinished | ⟨c, hpoint⟩
    · exact hfinished
    · have hcall : (s.locals t).call = none := hnone t ht
      rw [(call_eq_some_iff _ c).mpr hpoint] at hcall
      simp at hcall
  · refine .inr ⟨c, ?_⟩
    intro t ht
    rcases hc t ht with hcall | hrun
    · exact (call_eq_some_iff _ c).mp hcall
    · have hcame := hrun.came
      rcases hall t ht with hfinished | ⟨c', hpoint⟩
      · rw [hfinished] at hcame
        have hlast : τ.getLast? = some .runEnd := by simpa [cameFrom] using hcame
        have hnext' : nextCall e limit τ s.shared = some c := hnext
        rw [nextCall, hlast] at hnext'
        simp at hnext'
      · rw [hpoint] at hcame
        simp [cameFrom] at hcame

end Consequences

/-- The barriers of an accepted run stay aligned. -/
theorem barriers_aligned {p : Platform} {args : List CStr} {e : Experiment}
    (h : parseArgs p args = .accepted e) {m : Clocks}
    (hres : ∀ t < e.numThreads.toNat, m.resolution t ≤ 1 / 50) {s : RunState}
    (hs : RunReachable e m s) :
    (∀ t < e.numThreads.toNat, ∀ u < e.numThreads.toNat, ∀ (k : Nat) (a b : BarrierCall),
      (s.calls t)[k]? = some a → (s.calls u)[k]? = some b → a = b) ∧
    ((∀ t < e.numThreads.toNat, (s.locals t).point = .finished ∨
        ∃ c, (s.locals t).point = .barrier c) →
      (∀ t < e.numThreads.toNat, (s.locals t).point = .finished) ∨
        ∃ c, ∀ t < e.numThreads.toNat, (s.locals t).point = .barrier c) ∧
    ((∀ t < e.numThreads.toNat, (s.locals t).point = .finished) ∨
      ∃ s', (runProgram e m).Step e.numThreads.toNat (wrap32 e.numThreads).toNat s s') ∧
    ∀ x ∈ s.log, ∀ y ∈ s.log, x.thread ≠ 0 → y.thread = 0 →
      ∀ v, v = .elapsed ∨ v = .iterations → x.item = .read v → y.item = .write v →
        x.phase ≠ y.phase := by
  have hn := (accepted_of_parseArgs h).numThreads_pos
  have hparticipants := participants_eq (tables_of_parseArgs h).numThreads_lt hn
  have hT : 0 < e.numThreads.toNat := by omega
  unfold RunReachable at hs
  rw [hparticipants] at hs ⊢
  let phases := runPhases e m e.numThreads.toNat (m.round (1 / 5)) (bound_nonneg m)
    fun t ht => bound_of_resolution (hres t ht)
  obtain ⟨τ, hat⟩ := phases.reachable hT hs
  have htogether := blocked_together (bound_nonneg m)
    (fun t ht => bound_of_resolution (hres t ht)) hat
  refine ⟨?_, htogether, ?_, ?_⟩
  · intro t ht u hu k a b ha hb
    obtain ⟨hkt, _⟩ := List.getElem?_eq_some_iff.mp ha
    obtain ⟨hku, _⟩ := List.getElem?_eq_some_iff.mp hb
    have htake := hat.calls_agree ht hu (k := k + 1) hkt hku
    have hentry := congrArg (fun τ => τ[k]?) htake
    simp only [List.getElem?_take, Nat.lt_succ_self, if_true] at hentry
    rw [ha, hb] at hentry
    exact Option.some.inj hentry
  · by_cases hlive : ∃ t < e.numThreads.toNat, ∃ r,
        runStep e m t s.shared (s.locals t) = some r
    · obtain ⟨t, ht, r, hstep⟩ := hlive
      exact .inr ⟨_, .run t r ht hstep⟩
    · have hall : ∀ t < e.numThreads.toNat, (s.locals t).point = .finished ∨
          ∃ c, (s.locals t).point = .barrier c := by
        intro t ht
        apply (runStep_eq_none_iff e m t s.shared _).mp
        apply Option.eq_none_iff_forall_ne_some.mpr
        intro r hr
        exact hlive ⟨t, ht, r, hr⟩
      rcases htogether hall with hfinished | ⟨c, hc⟩
      · exact .inl hfinished
      · refine .inr ⟨_, .release ((waiting_eq_iff _ s).mpr ?_)⟩
        intro t ht
        exact ⟨c, (call_eq_some_iff _ c).mpr (hc t ht)⟩
  · intro x hx y hy hxt hyt v hv hread hwrite hphase
    obtain ⟨τ', ⟨σx, lx, _, hrx, hmx⟩, ⟨σy, ly, _, hry, hmy⟩⟩ :=
      phases.same_phase hT hs hx hy hphase
    rw [hread] at hmx
    rw [hwrite] at hmy
    exact reads_elsewhere hxt hrx hmx (came_of_touches hv hry hmy)

theorem barriers_aligned_two_threads :
    ∃ e, parseArgs Platform.single ["-t".toList, "2".toList] = .accepted e ∧
      ∀ s, RunReachable e ⟨fun n => n, fun _ => 0, id, monotone_id, rfl⟩ s →
        ∀ (k : Nat) (a b : BarrierCall), (s.calls 0)[k]? = some a →
          (s.calls 1)[k]? = some b → a = b := by
  have hrun : ∃ e, parseArgs Platform.single ["-t".toList, "2".toList] = .accepted e ∧
      e.numThreads = 2 := ⟨_, rfl, by decide +kernel⟩
  obtain ⟨e, he, hthreads⟩ := hrun
  refine ⟨e, he, ?_⟩
  intro s hs
  exact (barriers_aligned he (fun t _ => by norm_num) hs).1 0 (by omega) 1 (by omega)

end PChase
