import PChase.Calibration

/-!
# Runs that calibrate wrongly

Threads that take turns shift the shared `iters` once each, so with two threads or more it
does not double. A single thread whose rounds stay short comes to a round that an `int`
cannot count.
-/

namespace PChase

open CInt CountLoop BarrierProgram Relation
set_option autoImplicit false

section Local
variable {e : Experiment} {m : Clocks} {t : Nat} {σ σ' : RunShared} {l l' : RunLocal}
variable {calls : List BarrierCall}

theorem localStep (h : runStep e m t σ l = some (σ', l')) :
    (runProgram e m).LocalStep t (σ, l, calls) (σ', l', calls ++ l'.call.toList) := .mk h

theorem localStep_inside (h : runStep e m t σ l = some (σ', l')) (hcall : l'.call = none) :
    (runProgram e m).LocalStep t (σ, l, calls) (σ', l', calls) := by
  have hstep : (runProgram e m).LocalStep t (σ, l, calls) (σ', l', calls ++ l'.call.toList) :=
    localStep h
  rwa [append_no_call hcall] at hstep

variable (e m t σ calls)

theorem begin_run (hiterations : σ.iterations = 0) (helapsed : σ.elapsed ≤ m.bound t) :
    (runProgram e m).LocalRun t (σ, {}, calls)
      ({ σ with iters := 1 }, { point := .barrier .calTop }, calls ++ [.calTop]) := by
  have hguard : runStep e m t σ {} = some (σ, { point := .initIters }) := if_pos hiterations
  have htest : runStep e m t { σ with iters := 1 } { point := .testElapsed } =
      some ({ σ with iters := 1 }, { point := .barrier .calTop }) := if_pos helapsed
  have hinit : runStep e m t σ { point := .initIters } =
      some ({ σ with iters := 1 }, { point := .testElapsed }) := rfl
  exact ((ReflTransGen.single (localStep_inside hguard rfl)).tail
    (localStep_inside hinit rfl)).tail (localStep htest)

theorem calls_run {n : Nat} (hn : n < 2147483648) (hiters : σ.iters.toNat = n)
    (hp : l.point = .testCal) (hi : l.i = l.calls) (hle : l.calls ≤ n) :
    ∃ l', (runProgram e m).LocalRun t (σ, l, calls) (σ, l', calls ++ [.calCalled]) ∧
      l'.point = .barrier .calCalled ∧ l'.calls = n := by
  obtain ⟨k, hk⟩ := Nat.exists_eq_add_of_le hle
  induction k generalizing l with
  | zero =>
    have hstep : runStep e m t σ l = some (σ, l.goto (.barrier .calCalled)) := by
      simp only [runStep, hp]
      rw [if_neg (by omega)]
    exact ⟨_, .single (localStep hstep), rfl, by rw [goto_calls]; omega⟩
  | succ k ih =>
    have htest : runStep e m t σ l = some (σ, l.goto .benchCal) := by
      simp only [runStep, hp]
      rw [if_pos (by omega)]
    have hbench : runStep e m t σ (l.goto .benchCal) = some (σ, l.calledOnce .testCal) := rfl
    have hcount : addStep 1 l.i = (l.calls + 1 : Nat) := by
      rw [addStep, hi, wrap32_of_bounds (by omega) (by omega)]
      push_cast
      rfl
    obtain ⟨l', hrun, hpoint, hcalls⟩ := ih (l := l.calledOnce .testCal) rfl hcount
      (by rw [calledOnce_calls]; omega) (by rw [calledOnce_calls]; omega)
    exact ⟨l', .head (localStep_inside htest rfl) (.head (localStep_inside hbench rfl) hrun),
      hpoint, hcalls⟩

/-- The first `n` calls of a calling loop; beyond every `int` there is no last one. -/
theorem first_calls_run (n : Nat) (hp : l.point = .testCal) (hi : InInt32 l.i)
    (hiters : 2147483648 ≤ σ.iters ∨ l.i + n ≤ σ.iters) :
    ∃ l', (runProgram e m).LocalRun t (σ, l, calls) (σ, l', calls) ∧ l'.point = .testCal ∧
      l'.calls = l.calls + n := by
  induction n generalizing l with
  | zero => exact ⟨l, .refl, hp, rfl⟩
  | succ n ih =>
    have htest : runStep e m t σ l = some (σ, l.goto .benchCal) := by
      simp only [runStep, hp]
      unfold InInt32 at hi
      rw [if_pos (by omega)]
    have hbench : runStep e m t σ (l.goto .benchCal) = some (σ, l.calledOnce .testCal) := rfl
    have hiters' : 2147483648 ≤ σ.iters ∨ addStep 1 l.i + n ≤ σ.iters := by
      by_cases hbig : 2147483648 ≤ σ.iters
      · exact .inl hbig
      · right
        unfold InInt32 at hi
        rw [addStep, wrap32_of_inInt32 ⟨by omega, by omega⟩]
        omega
    obtain ⟨l', hrun, hpoint, hcalls⟩ := ih (l := l.calledOnce .testCal) rfl
      (addStep_inInt32 1 l.i) hiters'
    refine ⟨l', .head (localStep_inside htest rfl) (.head (localStep_inside hbench rfl) hrun),
      hpoint, ?_⟩
    rw [hcalls, calledOnce_calls]
    omega

theorem shift_run (hp : l.point = .readIters) :
    (runProgram e m).LocalRun t (σ, l, calls) ({ σ with iters := wrap64 (σ.iters * 2) },
      { l with point := .testElapsed, tmp := σ.iters }, calls) := by
  have hread : runStep e m t σ l = some (σ, { l with point := .storeIters, tmp := σ.iters }) := by
    simp only [runStep, hp]
  have hstore : runStep e m t σ { l with point := .storeIters, tmp := σ.iters } =
      some ({ σ with iters := wrap64 (σ.iters * 2) },
        { l with point := .testElapsed, tmp := σ.iters }) := rfl
  exact (ReflTransGen.single (localStep_inside hread rfl)).tail (localStep_inside hstore rfl)

end Local

section Rounds
variable {e : Experiment} {m : Clocks} {T k : Nat} {s : RunState}

def AllWait (T : Nat) (c : BarrierCall) (k : Nat) (s : RunState) : Prop :=
  ∀ t < T, (s.locals t).point = .barrier c ∧ rounds (s.calls t) = k + 1

theorem release_step (hwait : ∀ t < T, ∃ c, (s.locals t).point = .barrier c) :
    ∃ s', (runProgram e m).Step T T s s' ∧ s'.shared = s.shared ∧ s'.calls = s.calls ∧
      ∀ t c, (s.locals t).point = .barrier c → s'.locals t = afterBarrier (s.locals t) c := by
  refine ⟨_, .release ((waiting_eq_iff T s).mpr ?_), rfl, rfl, ?_⟩
  · intro t ht
    obtain ⟨c, hc⟩ := hwait t ht
    exact ⟨c, (call_eq_some_iff _ c).mpr hc⟩
  · intro t c hc
    have hcall : (runProgram e m).call (s.locals t) = some c := (call_eq_some_iff _ c).mpr hc
    simp only [release, goOn_of_call hcall]
    exact resume_of_call hc

theorem phase_run {I : Nat → RunShared → Prop} {F G : Nat → RunLocal → List BarrierCall → Prop}
    (hwait : ∀ t < T, ∃ c, (s.locals t).point = .barrier c ∧
      F t (afterBarrier (s.locals t) c) (s.calls t))
    (hI : I 0 s.shared)
    (hlocal : ∀ t < T, ∀ σ l calls, I t σ → F t l calls → ∃ σ' l' calls',
      (runProgram e m).LocalRun t (σ, l, calls) (σ', l', calls') ∧ I (t + 1) σ' ∧ G t l' calls') :
    ∃ s', (runProgram e m).Run T T s s' ∧ I T s'.shared ∧
      ∀ t < T, G t (s'.locals t) (s'.calls t) := by
  obtain ⟨s₁, hstep, hshared, hcalls, hlocals⟩ := release_step (e := e) (m := m) (T := T) (s := s)
    (fun t ht => (hwait t ht).imp fun c hc => hc.1)
  obtain ⟨s', hrun, hI', hG⟩ := sweep (P := runProgram e m) (n := T) hlocal
    (s := s₁) (hshared ▸ hI) (by
      intro t ht
      obtain ⟨c, hc, hF⟩ := hwait t ht
      rw [hlocals t c hc, hcalls]
      exact hF)
  exact ⟨s', .head hstep hrun, hI', hG⟩

theorem startCal_first (e : Experiment) (m : Clocks) {t : Nat} (σ : RunShared) {l : RunLocal}
    (hp : l.point = .startCal) (ht : t = 0) : runStep e m t σ l =
      some ({ σ.tick with istart := m.clock σ.readings }, l.goto (.barrier .calStarted)) := by
  simp only [runStep, hp]
  rw [if_pos ht]

theorem startCal_later (e : Experiment) (m : Clocks) {t : Nat} (σ : RunShared) {l : RunLocal}
    (hp : l.point = .startCal) (ht : t ≠ 0) :
    runStep e m t σ l = some (σ, l.goto (.barrier .calStarted)) := by
  simp only [runStep, hp]
  rw [if_neg ht]

theorem all_begin (hT : 0 < T) (he : e.iterations = 0) :
    ∃ s, (runProgram e m).Run T T (initial { iterations := e.iterations } fun _ => {}) s ∧
      AllWait T .calTop 0 s ∧ s.shared.iters = 1 ∧ s.shared.readings = 0 := by
  have hbound : ∀ t, 0 ≤ m.bound t := fun t => (bound_nonneg m).trans (le_max_left _ _)
  obtain ⟨s, hrun, hI, hG⟩ := sweep (P := runProgram e m) (T := T) (n := T)
    (I := fun t σ => σ.iterations = 0 ∧ σ.elapsed = 0 ∧ σ.readings = 0 ∧ (0 < t → σ.iters = 1))
    (F := fun _ l calls => l = {} ∧ calls = [])
    (G := fun _ l calls => l.point = .barrier .calTop ∧ rounds calls = 0 + 1) (by
      intro t _ σ l calls hI hF
      obtain ⟨hiterations, helapsed, hreadings, _⟩ := hI
      obtain ⟨rfl, rfl⟩ := hF
      exact ⟨_, _, _, begin_run e m t σ [] hiterations (helapsed ▸ hbound t),
        ⟨hiterations, helapsed, hreadings, fun _ => rfl⟩, rfl, rfl⟩)
    (s := initial { iterations := e.iterations } fun _ => {})
    ⟨he, rfl, rfl, fun h => absurd h (Nat.lt_irrefl 0)⟩ fun _ _ => ⟨rfl, rfl⟩
  exact ⟨s, hrun, hG, hI.2.2.2 hT, hI.2.2.1⟩

theorem round_started (hT : 0 < T) (hwait : AllWait T .calTop k s)
    (hiters : s.shared.iters = 2 ^ k) (hreadings : s.shared.readings = 2 * k) :
    ∃ s', (runProgram e m).Run T T s s' ∧ AllWait T .calStarted k s' ∧
      s'.shared.iters = 2 ^ k ∧ Started m k s'.shared := by
  obtain ⟨s', hrun, hI, hG⟩ := phase_run (e := e) (m := m) (T := T) (s := s)
    (I := fun t σ => σ.iters = 2 ^ k ∧ (t = 0 → σ.readings = 2 * k) ∧ (0 < t → Started m k σ))
    (F := fun _ l calls => l.point = .startCal ∧ rounds calls = k + 1)
    (G := fun _ l calls => l.point = .barrier .calStarted ∧ rounds calls = k + 1)
    (fun t ht => ⟨_, (hwait t ht).1, rfl, (hwait t ht).2⟩)
    ⟨hiters, fun _ => hreadings, fun h => absurd h (Nat.lt_irrefl 0)⟩ (by
      intro t _ σ l calls hI hF
      obtain ⟨hiters, hfirst, hlater⟩ := hI
      obtain ⟨hp, hrounds⟩ := hF
      have hcount : rounds (calls ++ [.calStarted]) = k + 1 := by
        rw [← hrounds]
        exact rounds_append calls (some .calStarted)
      by_cases ht : t = 0
      · have hstep := startCal_first e m σ hp ht
        refine ⟨_, _, _, .single (localStep hstep), ⟨hiters, ?_, ?_⟩, rfl, hcount⟩
        · intro h
          omega
        · intro _
          rw [Started, RunShared.tick, hfirst ht]
          exact ⟨rfl, rfl⟩
      · have hstep := startCal_later e m σ hp ht
        refine ⟨_, _, _, .single (localStep hstep), ⟨hiters, ?_, ?_⟩, rfl, hcount⟩
        · intro h
          omega
        · exact fun _ => hlater (by omega))
  exact ⟨s', hrun, hG, hI.1, hI.2.2 hT⟩

theorem round_called (hk : k < 31) (hwait : AllWait T .calStarted k s)
    (hiters : s.shared.iters = 2 ^ k) (hstarted : Started m k s.shared) :
    ∃ s', (runProgram e m).Run T T s s' ∧ AllWait T .calCalled k s' ∧
      s'.shared.iters = 2 ^ k ∧ Started m k s'.shared := by
  have hsmall := two_pow_lt (Nat.le_refl k) hk
  obtain ⟨s', hrun, hI, hG⟩ := phase_run (e := e) (m := m) (T := T) (s := s)
    (I := fun _ σ => σ.iters = 2 ^ k ∧ Started m k σ)
    (F := fun _ l calls => (l.point = .testCal ∧ l.i = l.calls ∧ l.calls = 0) ∧
      rounds calls = k + 1)
    (G := fun _ l calls => l.point = .barrier .calCalled ∧ rounds calls = k + 1)
    (fun t ht => ⟨_, (hwait t ht).1, ⟨rfl, rfl, rfl⟩, (hwait t ht).2⟩) ⟨hiters, hstarted⟩ (by
      intro t _ σ l calls hI hF
      obtain ⟨⟨hp, hi, hzero⟩, hrounds⟩ := hF
      obtain ⟨l', hrun, hp', _⟩ := calls_run e m t σ calls (n := 2 ^ k) (by exact_mod_cast hsmall) (by
          have hpow : (2 : Int) ^ k = (2 ^ k : Nat) := by push_cast; rfl
          rw [hI.1, hpow, Int.toNat_natCast])
        hp hi (by rw [hzero]; exact Nat.zero_le _)
      refine ⟨σ, l', _, hrun, hI, hp', ?_⟩
      rw [← hrounds]
      exact rounds_append calls (some .calCalled))
  exact ⟨s', hrun, hG, hI⟩

theorem round_stopped (hT : 0 < T) (hwait : AllWait T .calCalled k s)
    (hiters : s.shared.iters = 2 ^ k) (hstarted : Started m k s.shared) :
    ∃ s', (runProgram e m).Run T T s s' ∧ AllWait T .calStopped k s' ∧
      s'.shared.iters = 2 ^ k ∧ Timed m k s'.shared := by
  obtain ⟨s', hrun, hI, hG⟩ := phase_run (e := e) (m := m) (T := T) (s := s)
    (I := fun t σ => σ.iters = 2 ^ k ∧ (t = 0 → Started m k σ) ∧ (0 < t → Timed m k σ))
    (F := fun _ l calls => l.point = .stopCal ∧ rounds calls = k + 1)
    (G := fun _ l calls => l.point = .barrier .calStopped ∧ rounds calls = k + 1)
    (fun t ht => ⟨_, (hwait t ht).1, rfl, (hwait t ht).2⟩)
    ⟨hiters, fun _ => hstarted, fun h => absurd h (Nat.lt_irrefl 0)⟩ (by
      intro t _ σ l calls hI hF
      obtain ⟨hiters, hfirst, hlater⟩ := hI
      obtain ⟨hp, hrounds⟩ := hF
      have hcount : rounds (calls ++ [.calStopped]) = k + 1 := by
        rw [← hrounds]
        exact rounds_append calls (some .calStopped)
      by_cases ht : t = 0
      · obtain ⟨hreadings, hstart⟩ := hfirst ht
        have hstep : runStep e m t σ l = some ({ σ.tick with istop := m.clock σ.readings },
            l.goto .setElapsed) := by
          simp only [runStep, hp]
          rw [if_pos ht]
        have hset : runStep e m t { σ.tick with istop := m.clock σ.readings }
            (l.goto .setElapsed) = some ({ { σ.tick with istop := m.clock σ.readings } with
              elapsed := m.round (m.clock σ.readings - σ.istart) },
                (l.goto .setElapsed).goto (.barrier .calStopped)) := rfl
        refine ⟨_, _, _, (ReflTransGen.single (localStep_inside hstep rfl)).tail (localStep hset),
          ⟨hiters, ?_, ?_⟩, rfl, hcount⟩
        · intro h
          omega
        · intro _
          simp only [Timed, RunShared.tick, hreadings, hstart, Clocks.lap]
          exact ⟨by omega, trivial⟩
      · have hstep : runStep e m t σ l = some (σ, l.goto (.barrier .calStopped)) := by
          simp only [runStep, hp]
          rw [if_neg ht]
        refine ⟨_, _, _, .single (localStep hstep), ⟨hiters, ?_, ?_⟩, rfl, hcount⟩
        · intro h
          omega
        · exact fun _ => hlater (by omega))
  exact ⟨s', hrun, hG, hI.1, hI.2.2 hT⟩

theorem round_run (hT : 0 < T) (hk : k < 31) (hwait : AllWait T .calTop k s)
    (hiters : s.shared.iters = 2 ^ k) (hreadings : s.shared.readings = 2 * k) :
    ∃ s', (runProgram e m).Run T T s s' ∧ AllWait T .calStopped k s' ∧
      s'.shared.iters = 2 ^ k ∧ Timed m k s'.shared := by
  obtain ⟨s₁, hrun₁, hwait₁, hiters₁, hstarted₁⟩ := round_started hT hwait hiters hreadings
  obtain ⟨s₂, hrun₂, hwait₂, hiters₂, hstarted₂⟩ := round_called hk hwait₁ hiters₁ hstarted₁
  obtain ⟨s₃, hrun₃, hstopped⟩ := round_stopped hT hwait₂ hiters₂ hstarted₂
  exact ⟨s₃, (hrun₁.trans hrun₂).trans hrun₃, hstopped⟩

theorem next_round_alone (hk : k < 31) (hshort : m.lap k ≤ m.bound 0)
    (hwait : AllWait 1 .calStopped k s) (hiters : s.shared.iters = 2 ^ k)
    (htimed : Timed m k s.shared) :
    ∃ s', (runProgram e m).Run 1 1 s s' ∧ AllWait 1 .calTop (k + 1) s' ∧
      s'.shared.iters = 2 ^ (k + 1) ∧ s'.shared.readings = 2 * (k + 1) := by
  have hsmall := two_pow_lt (Nat.le_refl k) hk
  have hpos : (0 : Int) < 2 ^ k := by positivity
  obtain ⟨s', hrun, hI, hG⟩ := phase_run (e := e) (m := m) (T := 1) (s := s)
    (I := fun t σ => (t = 0 → σ.iters = 2 ^ k ∧ Timed m k σ) ∧
      (0 < t → σ.iters = 2 ^ (k + 1) ∧ σ.readings = 2 * (k + 1)))
    (F := fun _ l calls => l.point = .readIters ∧ rounds calls = k + 1)
    (G := fun _ l calls => l.point = .barrier .calTop ∧ rounds calls = k + 1 + 1)
    (fun t ht => ⟨_, (hwait t ht).1, rfl, (hwait t ht).2⟩)
    ⟨fun _ => ⟨hiters, htimed⟩, fun h => absurd h (Nat.lt_irrefl 0)⟩ (by
      intro t ht σ l calls hI hF
      obtain rfl : t = 0 := by omega
      obtain ⟨hiters, hreadings, helapsed⟩ := hI.1 rfl
      have htest : runStep e m 0 { σ with iters := wrap64 (σ.iters * 2) }
          { l with point := .testElapsed, tmp := σ.iters } =
            some ({ σ with iters := wrap64 (σ.iters * 2) },
              { l with point := .barrier .calTop, tmp := σ.iters }) :=
        if_pos (helapsed ▸ hshort)
      refine ⟨_, _, _, (shift_run e m _ σ calls hF.1).tail (localStep htest),
        ⟨fun h => by omega, ?_⟩, rfl, ?_⟩
      · intro _
        refine ⟨?_, hreadings⟩
        rw [hiters, pow_succ, wrap64_of_inInt64 ⟨by omega, by omega⟩]
      · rw [← hF.2]
        exact rounds_append calls (some .calTop))
  exact ⟨s', hrun, hG, hI.2 Nat.one_pos⟩

theorem reach_round (he : e.iterations = 0) (hk : k ≤ 31) (hshort : ∀ j < k, m.lap j ≤ m.bound 0) :
    ∃ s, (runProgram e m).Run 1 1 (initial { iterations := e.iterations } fun _ => {}) s ∧
      AllWait 1 .calTop k s ∧ s.shared.iters = 2 ^ k ∧ s.shared.readings = 2 * k := by
  induction k with
  | zero =>
    obtain ⟨s, hrun, hwait, hiters, hreadings⟩ := all_begin (m := m) Nat.one_pos he
    exact ⟨s, hrun, hwait, hiters, hreadings⟩
  | succ k ih =>
    obtain ⟨s₁, hrun₁, hwait₁, hiters₁, hreadings₁⟩ := ih (by omega)
      fun j hj => hshort j (by omega)
    obtain ⟨s₂, hrun₂, hwait₂, hiters₂, htimed₂⟩ := round_run (e := e) (m := m) Nat.one_pos
      (by omega) hwait₁ hiters₁ hreadings₁
    obtain ⟨s₃, hrun₃, hround⟩ := next_round_alone (e := e) (by omega) (hshort k (by omega))
      hwait₂ hiters₂ htimed₂
    exact ⟨s₃, (hrun₁.trans hrun₂).trans hrun₃, hround⟩

theorem wrong_alone (he : e.iterations = 0) (hshort : ∀ j < 31, m.lap j ≤ m.bound 0) :
    ∃ s, (runProgram e m).Run 1 1 (initial { iterations := e.iterations } fun _ => {}) s ∧
      ¬ CalibrationRight 1 s := by
  obtain ⟨s₁, hrun₁, hwait₁, hiters₁, hreadings₁⟩ := reach_round he (Nat.le_refl 31) hshort
  obtain ⟨s₂, hrun₂, hwait₂, hiters₂, hstarted₂⟩ := round_started (e := e) (m := m) Nat.one_pos
    hwait₁ hiters₁ hreadings₁
  obtain ⟨s₃, hrun₃, _, hG⟩ := phase_run (e := e) (m := m) (T := 1) (s := s₂)
    (I := fun _ σ => σ.iters = 2 ^ 31)
    (F := fun _ l calls => (l.point = .testCal ∧ l.i = 0 ∧ l.calls = 0) ∧ rounds calls = 32)
    (G := fun _ l calls => (l.point = .testCal ∧ l.calls = 2147483649) ∧ rounds calls = 32)
    (fun t ht => ⟨_, (hwait₂ t ht).1, ⟨rfl, rfl, rfl⟩, (hwait₂ t ht).2⟩) hiters₂ (by
      intro t _ σ l calls hI hF
      obtain ⟨⟨hp, hi, hzero⟩, hrounds⟩ := hF
      obtain ⟨l', hrun, hp', hcalls⟩ := first_calls_run e m t σ calls
        2147483649 hp (hi ▸ inInt32_zero) (.inl (by rw [hI]; norm_num))
      exact ⟨σ, l', calls, hrun, hI, ⟨hp', by omega⟩, hrounds⟩)
  refine ⟨s₃, (hrun₁.trans hrun₂).trans hrun₃, ?_⟩
  intro hright
  obtain ⟨⟨hp, hcalls⟩, hrounds⟩ := hG 0 Nat.one_pos
  have hle := hright.calling 0 Nat.one_pos (.inl hp)
  rw [hcalls, hrounds] at hle
  norm_num at hle

/-- A long first round: thread 1 shifts `iters` before thread 0 shifts it and reads it. -/
theorem wrong_reading (hT : 2 ≤ T) (hlong : m.bound 0 < m.lap 0)
    (hwait : AllWait T .calStopped 0 s) (hiters : s.shared.iters = 1)
    (htimed : Timed m 0 s.shared) :
    ∃ s', (runProgram e m).Run T T s s' ∧ (s'.locals 0).point = .schedule ∧
      (s'.locals 0).tmp = 4 ∧ rounds (s'.calls 0) = 1 := by
  obtain ⟨s₁, hstep, hshared₁, hcalls₁, hlocals₁⟩ := release_step (e := e) (m := m) (T := T)
    (s := s) fun t ht => ⟨_, (hwait t ht).1⟩
  have hp₁ : ∀ t < T, (s₁.locals t).point = .readIters := fun t ht => by
    rw [hlocals₁ t _ (hwait t ht).1]
    rfl
  have hone : 1 < T := by omega
  obtain ⟨s₂, hrun₂, hshared₂, hlocals₂, hcalls₂⟩ := LocalRun.run (n := T)
    hone (shift_run e m 1 s₁.shared (s₁.calls 1) (hp₁ 1 (by omega)))
  have hp₂ : (s₂.locals 0).point = .readIters := by
    rw [hlocals₂, Function.update_of_ne (by decide)]
    exact hp₁ 0 (by omega)
  have hiters₂ : s₂.shared.iters = 2 := by
    rw [hshared₂, hshared₁, hiters]
    rfl
  have helapsed₂ : s₂.shared.elapsed = m.lap 0 := by
    rw [hshared₂, hshared₁]
    exact htimed.2
  have htest : runStep e m 0 { s₂.shared with iters := wrap64 (s₂.shared.iters * 2) }
      { s₂.locals 0 with point := .testElapsed, tmp := s₂.shared.iters } =
        some ({ s₂.shared with iters := wrap64 (s₂.shared.iters * 2) },
          { s₂.locals 0 with point := .calculate, tmp := s₂.shared.iters }) := by
    have hgt : ¬ s₂.shared.elapsed ≤ m.bound 0 := by
      rw [helapsed₂]
      exact not_le.mpr hlong
    exact (if_neg hgt).trans (if_pos rfl)
  have hread : runStep e m 0 { s₂.shared with iters := wrap64 (s₂.shared.iters * 2) }
      { s₂.locals 0 with point := .calculate, tmp := s₂.shared.iters } =
        some ({ s₂.shared with iters := wrap64 (s₂.shared.iters * 2) },
          { s₂.locals 0 with point := .schedule, tmp := wrap64 (s₂.shared.iters * 2) }) := rfl
  have hzero : 0 < T := by omega
  obtain ⟨s₃, hrun₃, _, hlocals₃, hcalls₃⟩ := LocalRun.run (n := T)
    hzero (((shift_run e m 0 s₂.shared (s₂.calls 0) hp₂).tail
      (localStep_inside htest rfl)).tail (localStep_inside hread rfl))
  refine ⟨s₃, (ReflTransGen.head hstep hrun₂).trans hrun₃, ?_, ?_, ?_⟩
  · rw [hlocals₃, Function.update_self]
  · rw [hlocals₃, Function.update_self, hiters₂]
    rfl
  · rw [hcalls₃, Function.update_self, hcalls₂, Function.update_of_ne (by decide), hcalls₁,
      (hwait 0 (by omega)).2]

theorem four_dvd_shift {x : Int} (h : x = 2 ∨ x % 4 = 0) : wrap64 (x * 2) % 4 = 0 := by
  rw [wrap64_eq]
  split <;> omega

theorem shift_all (hT : 2 ≤ T) (hshort : m.lap 0 ≤ m.bound 0)
    (hwait : AllWait T .calStopped 0 s) (hiters : s.shared.iters = 1)
    (htimed : Timed m 0 s.shared) :
    ∃ s', (runProgram e m).Run T T s s' ∧ s'.shared.iters % 4 = 0 ∧
      ∀ t < T, ((s'.locals t).point = .barrier .calTop ∨
        t ≠ 0 ∧ (s'.locals t).point = .barrier .calDone) ∧
          (t = 0 → rounds (s'.calls t) = 2) := by
  obtain ⟨s', hrun, hI, hG⟩ := phase_run (e := e) (m := m) (T := T) (s := s)
    (I := fun t σ => σ.elapsed = m.lap 0 ∧ (t = 0 → σ.iters = 1) ∧ (t = 1 → σ.iters = 2) ∧
      (2 ≤ t → σ.iters % 4 = 0))
    (F := fun _ l calls => l.point = .readIters ∧ rounds calls = 1)
    (G := fun t l calls => (l.point = .barrier .calTop ∨
      t ≠ 0 ∧ l.point = .barrier .calDone) ∧ (t = 0 → rounds calls = 2))
    (fun t ht => ⟨_, (hwait t ht).1, rfl, (hwait t ht).2⟩)
    ⟨htimed.2, fun _ => hiters, fun h => by omega, fun h => by omega⟩ (by
      intro t _ σ l calls hI hF
      obtain ⟨helapsed, hzero, hone, hmore⟩ := hI
      have hnext : (t + 1 = 0 → wrap64 (σ.iters * 2) = 1) ∧
          (t + 1 = 1 → wrap64 (σ.iters * 2) = 2) ∧ (2 ≤ t + 1 → wrap64 (σ.iters * 2) % 4 = 0) := by
        refine ⟨fun h => by omega, ?_, ?_⟩
        · intro h
          rw [hzero (by omega)]
          rfl
        · intro h
          apply four_dvd_shift
          by_cases ht : t = 1
          · exact .inl (hone ht)
          · exact .inr (hmore (by omega))
      by_cases hle : σ.elapsed ≤ m.bound t
      · have htest : runStep e m t { σ with iters := wrap64 (σ.iters * 2) }
            { l with point := .testElapsed, tmp := σ.iters } =
              some ({ σ with iters := wrap64 (σ.iters * 2) },
                { l with point := .barrier .calTop, tmp := σ.iters }) := if_pos hle
        refine ⟨_, _, _, (shift_run e m _ σ calls hF.1).tail (localStep htest),
          ⟨helapsed, hnext⟩, .inl rfl, ?_⟩
        intro _
        rw [show 2 = rounds calls + 1 by rw [hF.2]]
        exact rounds_append calls (some .calTop)
      · have ht : t ≠ 0 := by
          intro ht
          rw [helapsed, ht] at hle
          exact hle hshort
        have htest : runStep e m t { σ with iters := wrap64 (σ.iters * 2) }
            { l with point := .testElapsed, tmp := σ.iters } =
              some ({ σ with iters := wrap64 (σ.iters * 2) },
                { l with point := .barrier .calDone, tmp := σ.iters }) :=
          (if_neg hle).trans (if_neg ht)
        exact ⟨_, _, _, (shift_run e m _ σ calls hF.1).tail (localStep htest), ⟨helapsed, hnext⟩,
          .inr ⟨ht, rfl⟩, fun h => absurd h ht⟩)
  exact ⟨s', hrun, hI.2.2.2 hT, hG⟩

/-- Thread 0 comes to its second round, wherever the others are. -/
theorem second_round (hiters : s.shared.iters % 4 = 0)
    (hwait : ∀ t < T, ((s.locals t).point = .barrier .calTop ∨
      t ≠ 0 ∧ (s.locals t).point = .barrier .calDone) ∧ (t = 0 → rounds (s.calls t) = 2)) :
    ∃ s', (runProgram e m).Run T T s s' ∧ s'.shared.iters % 4 = 0 ∧
      ∀ t < T, (∃ c, (s'.locals t).point = .barrier c) ∧
        (t = 0 → (s'.locals t).point = .barrier .calStarted ∧ rounds (s'.calls t) = 2) := by
  obtain ⟨s', hrun, hI, hG⟩ := phase_run (e := e) (m := m) (T := T) (s := s)
    (I := fun _ σ => σ.iters % 4 = 0)
    (F := fun t l calls => (l.point = .startCal ∨ t ≠ 0 ∧ l.point = .testExp) ∧
      (t = 0 → rounds calls = 2))
    (G := fun t l calls => (∃ c, l.point = .barrier c) ∧
      (t = 0 → l.point = .barrier .calStarted ∧ rounds calls = 2))
    (by
      intro t ht
      obtain ⟨hp | ⟨hne, hp⟩, hrounds⟩ := hwait t ht
      · exact ⟨_, hp, .inl rfl, hrounds⟩
      · exact ⟨_, hp, .inr ⟨hne, rfl⟩, hrounds⟩) hiters (by
      intro t _ σ l calls hI hF
      obtain ⟨hp | ⟨ht, hp⟩, hrounds⟩ := hF
      · have hcount : rounds (calls ++ [.calStarted]) = rounds calls :=
          rounds_append calls (some .calStarted)
        by_cases ht : t = 0
        · have hstep := startCal_first e m σ hp ht
          exact ⟨_, _, _, .single (localStep hstep), hI, ⟨_, rfl⟩,
            fun h => ⟨rfl, hcount.trans (hrounds h)⟩⟩
        · have hstep := startCal_later e m σ hp ht
          exact ⟨_, _, _, .single (localStep hstep), hI, ⟨_, rfl⟩, fun h => absurd h ht⟩
      · have hstep : runStep e m t σ l =
            some (σ, l.goto (.barrier (if l.e < e.experiments then .expTop else .runEnd))) := by
          simp only [runStep, hp]
          split
          · rfl
          · rfl
        exact ⟨_, _, _, .single (localStep hstep), hI, ⟨_, rfl⟩, fun h => absurd h ht⟩)
  exact ⟨s', hrun, hI, hG⟩

theorem wrong_calls (hT : 2 ≤ T) (hiters : s.shared.iters % 4 = 0)
    (hwait : ∀ t < T, (∃ c, (s.locals t).point = .barrier c) ∧
      (t = 0 → (s.locals t).point = .barrier .calStarted ∧ rounds (s.calls t) = 2)) :
    ∃ s', (runProgram e m).Run T T s s' ∧ ¬ CalibrationRight T s' := by
  obtain ⟨s₁, hstep, hshared₁, hcalls₁, hlocals₁⟩ := release_step (e := e) (m := m) (T := T)
    (s := s) fun t ht => (hwait t ht).1
  obtain ⟨hp, hrounds⟩ := (hwait 0 (by omega)).2 rfl
  have hfirst : s₁.locals 0 = afterBarrier (s.locals 0) .calStarted := hlocals₁ 0 _ hp
  have hpos : 0 < T := by omega
  by_cases hfew : s.shared.iters ≤ 0
  · obtain ⟨l', hlocal, hp', hcalls'⟩ := calls_run e m 0 s₁.shared (s₁.calls 0)
      (l := s₁.locals 0) (n := 0) (by omega)
      (by rw [hshared₁]; omega) (by rw [hfirst]; rfl) (by rw [hfirst]; rfl) (by rw [hfirst]; rfl)
    obtain ⟨s₂, hrun₂, _, hlocals₂, hcalls₂⟩ := hlocal.run (n := T) hpos
    refine ⟨s₂, .head hstep hrun₂, ?_⟩
    intro hright
    have hcalled := hright.called 0 (by omega) (by rw [hlocals₂]; simpa using hp')
    have hpos : 0 < 2 ^ (rounds (s₂.calls 0) - 1) := by positivity
    rw [hlocals₂, Function.update_self, hcalls'] at hcalled
    omega
  · obtain ⟨l', hlocal, hp', hcalls'⟩ := first_calls_run e m 0 s₁.shared
      (s₁.calls 0) (l := s₁.locals 0) 3 (by rw [hfirst]; rfl)
      (by rw [hfirst]; exact inInt32_zero) (.inr (by
        rw [hfirst, hshared₁]
        simp only [afterBarrier]
        omega))
    obtain ⟨s₂, hrun₂, _, hlocals₂, hcalls₂⟩ := hlocal.run (n := T) hpos
    refine ⟨s₂, .head hstep hrun₂, ?_⟩
    intro hright
    have hcalling := hright.calling 0 (by omega) (.inl (by rw [hlocals₂]; simpa using hp'))
    rw [hlocals₂, hcalls₂, Function.update_self, Function.update_self, hcalls', hcalls₁, hrounds,
      hfirst] at hcalling
    simp [afterBarrier] at hcalling

theorem wrong_after_long (hT : 2 ≤ T) (he : e.iterations = 0) (hlong : m.bound 0 < m.lap 0) :
    ∃ s, (runProgram e m).Run T T (initial { iterations := e.iterations } fun _ => {}) s ∧
      (s.locals 0).point = .schedule ∧ (s.locals 0).tmp = 4 ∧ rounds (s.calls 0) = 1 := by
  have hpos : 0 < T := by omega
  obtain ⟨s₁, hrun₁, hwait₁, hiters₁, hreadings₁⟩ := all_begin (m := m) hpos he
  obtain ⟨s₂, hrun₂, hwait₂, hiters₂, htimed₂⟩ := round_run (e := e) (m := m)
    hpos (by omega) hwait₁ hiters₁ hreadings₁
  obtain ⟨s₃, hrun₃, hwrong⟩ := wrong_reading (e := e) hT hlong hwait₂ hiters₂ htimed₂
  exact ⟨s₃, (hrun₁.trans hrun₂).trans hrun₃, hwrong⟩

/-- Two threads or more can always miscount. -/
theorem wrong_together (hT : 2 ≤ T) (he : e.iterations = 0) :
    ∃ s, (runProgram e m).Run T T (initial { iterations := e.iterations } fun _ => {}) s ∧
      ¬ CalibrationRight T s := by
  by_cases hshort : m.lap 0 ≤ m.bound 0
  · have hpos : 0 < T := by omega
    obtain ⟨s₁, hrun₁, hwait₁, hiters₁, hreadings₁⟩ := all_begin (m := m) hpos he
    obtain ⟨s₂, hrun₂, hwait₂, hiters₂, htimed₂⟩ := round_run (e := e) (m := m)
      hpos (by omega) hwait₁ hiters₁ hreadings₁
    obtain ⟨s₃, hrun₃, hiters₃, hwait₃⟩ := shift_all (e := e) hT hshort hwait₂ hiters₂ htimed₂
    obtain ⟨s₄, hrun₄, hiters₄, hwait₄⟩ := second_round (e := e) (m := m) hiters₃ hwait₃
    obtain ⟨s₅, hrun₅, hwrong⟩ := wrong_calls (e := e) (m := m) hT hiters₄ hwait₄
    exact ⟨s₅, (((hrun₁.trans hrun₂).trans hrun₃).trans hrun₄).trans hrun₅, hwrong⟩
  · obtain ⟨s, hrun, hp, htmp, hrounds⟩ := wrong_after_long (e := e) hT he (not_le.mp hshort)
    refine ⟨s, hrun, ?_⟩
    intro hright
    have hdoubled := hright.doubled hp
    rw [htmp, hrounds] at hdoubled
    norm_num at hdoubled

end Rounds

end PChase
