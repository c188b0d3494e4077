import PChase.RunEnds

/-!
# The calibration of many threads ends

Every thread doubles `iters` after a round, so with a race or without it stays below two to
the number of doublings. Thread 0 keeps the time of the rounds, and once a round takes
longer than the bound all threads leave. So a long round among the first ones bounds the
whole run.
-/

namespace PChase

open CInt CountLoop BarrierProgram Relation
set_option autoImplicit false

section Time
variable {e : Experiment} {m : Clocks} {last t : Nat} {σ σ' : RunShared} {l l' : RunLocal}
  {calls : List BarrierCall}

def KeepsTime (m : Clocks) (last : Nat) (σ : RunShared) (l : RunLocal)
    (calls : List BarrierCall) : Prop :=
  match l.point with
  | .guard | .initIters => rounds calls = 0 ∧ σ.readings = 0 ∧ σ.elapsed = 0
  | .testElapsed => (rounds calls = 0 ∧ σ.readings = 0 ∧ σ.elapsed = 0) ∨
      ∃ k ≤ last, rounds calls = k + 1 ∧ Timed m k σ
  | .barrier .calTop | .startCal => ∃ k ≤ last, rounds calls = k + 1 ∧ σ.readings = 2 * k
  | .barrier .calStarted | .testCal | .benchCal | .barrier .calCalled | .stopCal =>
    ∃ k ≤ last, rounds calls = k + 1 ∧ Started m k σ
  | .setElapsed => ∃ k ≤ last, rounds calls = k + 1 ∧ σ.readings = 2 * (k + 1) ∧
      σ.istart = m.clock (2 * k) ∧ σ.istop = m.clock (2 * k + 1)
  | .barrier .calStopped | .readIters | .storeIters | .calculate | .schedule | .barrier .calDone =>
    ∃ k ≤ last, rounds calls = k + 1 ∧ Timed m k σ
  | _ => True

def SameTime (σ σ' : RunShared) : Prop :=
  σ'.readings = σ.readings ∧ σ'.istart = σ.istart ∧ σ'.istop = σ.istop ∧ σ'.elapsed = σ.elapsed

theorem KeepsTime.congr (hk : KeepsTime m last σ l calls) (h : SameTime σ σ') :
    KeepsTime m last σ' l calls := by
  obtain ⟨hreadings, hstart, hstop, helapsed⟩ := h
  unfold KeepsTime Started Timed at *
  simp only [hreadings, hstart, hstop, helapsed]
  exact hk

theorem sameTime_step (ht : t ≠ 0) (hp : l.point ≠ .setElapsed)
    (h : runStep e m t σ l = some (σ', l')) : SameTime σ σ' := by
  cases runStep_moves h with
  | setElapsed hp' => exact absurd hp' hp
  | startCal _ ht' | stopCal _ ht' | startExp _ ht' | stopExp _ ht' => exact absurd ht' ht
  | _ => exact ⟨rfl, rfl, rfl, rfl⟩

theorem next_round (hlong : m.bound 0 < m.lap last) (hle : σ.elapsed ≤ m.bound 0)
    (hk : (rounds calls = 0 ∧ σ.readings = 0 ∧ σ.elapsed = 0) ∨
      ∃ k ≤ last, rounds calls = k + 1 ∧ Timed m k σ) :
    rounds calls ≤ last ∧ σ.readings = 2 * rounds calls := by
  rcases hk with ⟨hzero, hreadings, _⟩ | ⟨k, hk, hrounds, hreadings, helapsed⟩
  · omega
  · have hne : k ≠ last := by
      rintro rfl
      rw [helapsed] at hle
      exact absurd hle (not_le.mpr hlong)
    omega

theorem keepsTime_step (hlong : m.bound 0 < m.lap last) (hbound : 0 ≤ m.bound 0)
    (hk : KeepsTime m last σ l calls) (h : runStep e m 0 σ l = some (σ', l')) :
    KeepsTime m last σ' l' (calls ++ l'.call.toList) := by
  have hcount := rounds_append calls l'.call
  cases runStep_moves h with
  | calibrate hp =>
    simp only [KeepsTime, hp] at hk
    rw [append_no_call (by rfl)]
    exact hk
  | initIters hp =>
    simp only [KeepsTime, hp] at hk
    rw [append_no_call (by rfl)]
    exact .inl hk
  | goOn hp hle =>
    simp only [KeepsTime, hp] at hk
    obtain ⟨hless, hreadings⟩ := next_round hlong hle hk
    exact ⟨rounds calls, hless, hcount, hreadings⟩
  | settle hp hgt =>
    simp only [KeepsTime, hp] at hk
    rw [append_no_call (by rfl)]
    rcases hk with ⟨_, _, hzero⟩ | hk
    · rw [hzero] at hgt
      exact absurd hbound hgt
    · exact hk
  | startCal hp =>
    simp only [KeepsTime, hp] at hk
    obtain ⟨k, hk, hrounds, hreadings⟩ := hk
    refine ⟨k, hk, hcount.trans hrounds, ?_, ?_⟩
    · simp only [RunShared.tick, hreadings]
    · simp only [hreadings]
  | callCal hp | calledCal hp | benchCal hp | schedule hp =>
    simp only [KeepsTime, hp] at hk
    obtain ⟨k, hk, hrounds, htime⟩ := hk
    exact ⟨k, hk, hcount.trans hrounds, htime⟩
  | stopCal hp =>
    simp only [KeepsTime, hp] at hk
    obtain ⟨k, hk, hrounds, hreadings, hstart⟩ := hk
    refine ⟨k, hk, hcount.trans hrounds, ?_, hstart, ?_⟩
    · simp only [RunShared.tick, hreadings]
      omega
    · simp only [hreadings]
  | setElapsed hp =>
    simp only [KeepsTime, hp] at hk
    obtain ⟨k, hk, hrounds, hreadings, hstart, hstop⟩ := hk
    refine ⟨k, hk, hcount.trans hrounds, hreadings, ?_⟩
    simp only [hstart, hstop, Clocks.lap]
  | readIters hp | calculate hp =>
    simp only [KeepsTime, hp] at hk
    rw [append_no_call (by rfl)]
    exact hk
  | storeIters hp =>
    simp only [KeepsTime, hp] at hk
    rw [append_no_call (by rfl)]
    exact .inr hk
  | await hp hgt ht | passStartCal hp ht | passStopCal hp ht | passStartExp hp ht
  | passStopExp hp ht => exact absurd rfl ht
  | _ => trivial

theorem keepsTime_resume {c : BarrierCall} (hk : KeepsTime m last σ l calls)
    (hc : l.point = .barrier c) : KeepsTime m last σ (afterBarrier l c) calls := by
  simp only [KeepsTime, hc] at hk
  cases c
  case calTop | calStarted | calCalled | calStopped => exact hk
  all_goals trivial

end Time

section Doublings

def Point.inRound : Point → Bool
  | .barrier .calTop | .startCal | .barrier .calStarted | .testCal | .benchCal
  | .barrier .calCalled | .stopCal | .setElapsed | .barrier .calStopped | .readIters
  | .storeIters => true
  | _ => false

def stored (x : RunLocal × List BarrierCall) : Nat :=
  if x.1.point.inRound then rounds x.2 - 1 else rounds x.2

def doublings (T : Nat) (s : RunState) : Nat :=
  totalLeft stored T fun t => (s.locals t, s.calls t)

def Begun (l : RunLocal) (calls : List BarrierCall) : Prop :=
  l.point.inRound = true → 1 ≤ rounds calls

variable {e : Experiment} {m : Clocks} {t : Nat} {σ σ' : RunShared} {l l' : RunLocal}
  {calls : List BarrierCall}

theorem begun_step (hl : Begun l calls) (h : runStep e m t σ l = some (σ', l')) :
    Begun l' (calls ++ l'.call.toList) := by
  have hcount := rounds_append calls l'.call
  intro hin
  cases runStep_moves h with
  | goOn hp => exact Nat.le_trans (Nat.le_add_left 1 _) (Nat.le_of_eq hcount.symm)
  | startCal hp | passStartCal hp | callCal hp | calledCal hp | benchCal hp | stopCal hp
  | passStopCal hp | setElapsed hp | readIters hp =>
    have hbegun := hl (by rw [hp]; rfl)
    exact Nat.le_trans hbegun (Nat.le_of_eq hcount.symm)
  | _ => simp [Point.inRound, RunLocal.goto, RunLocal.calledOnce] at hin

theorem begun_resume {c : BarrierCall} (hl : Begun l calls) (hc : l.point = .barrier c) :
    Begun (afterBarrier l c) calls := by
  intro hin
  apply hl
  rw [hc]
  cases c
  case calTop | calStarted | calCalled | calStopped => rfl
  all_goals simp [Point.inRound, afterBarrier, RunLocal.goto] at hin

theorem stored_step (hl : Begun l calls) (h : runStep e m t σ l = some (σ', l')) :
    stored (l', calls ++ l'.call.toList) =
      stored (l, calls) + if l.point = .storeIters then 1 else 0 := by
  have hcount := rounds_append calls l'.call
  cases runStep_moves h with
  | storeIters hp =>
    have hbegun := hl (by rw [hp]; rfl)
    simp only [stored, hcount, hp]
    simp only [RunLocal.call, Point.inRound, goto_point, reduceCtorEq, if_true, if_false]
    omega
  | _ hp =>
    simp only [stored, hcount, hp]
    simp [Point.inRound, RunLocal.call]

theorem stored_resume {c : BarrierCall} (hc : l.point = .barrier c) :
    stored (afterBarrier l c, calls) = stored (l, calls) := by
  cases c
  all_goals simp [stored, hc, afterBarrier, Point.inRound]

theorem stored_le (x : RunLocal × List BarrierCall) : stored x ≤ rounds x.2 := by
  unfold stored
  split
  · omega
  · exact Nat.le_refl _

end Doublings

section Reachable
variable {e : Experiment} {m : Clocks} {s : RunState} (hs : RunReachable e m s)
include hs

theorem begun_of_reachable : ∀ t < e.numThreads.toNat, Begun (s.locals t) (s.calls t) := by
  refine own_thread (J := fun _ => Begun) ?_ ?_ ?_ hs
  · intro t ht hin
    simp [Point.inRound] at hin
  · exact fun _ _ hl h => begun_step hl h
  · intro t l calls c _ hl hcall
    have hc := (call_eq_some_iff l c).mp hcall
    change Begun l.resume calls
    rw [resume_of_call hc]
    exact begun_resume hl hc

theorem setElapsed_first : ∀ t < e.numThreads.toNat, (s.locals t).point = .setElapsed → t = 0 := by
  refine own_thread (J := fun t l _ => l.point = .setElapsed → t = 0) ?_ ?_ ?_ hs
  · intro t _ hp
    simp at hp
  · intro s t σ' l' _ _ _ h hp
    cases runStep_moves h with
    | stopCal _ ht => exact ht
    | _ => simp at hp
  · intro t l calls c _ _ hcall hp
    have hc := (call_eq_some_iff l c).mp hcall
    change l.resume.point = .setElapsed at hp
    rw [resume_of_call hc] at hp
    cases c
    all_goals simp [afterBarrier] at hp

theorem keepsTime_of_reachable {last : Nat} (hlong : m.bound 0 < m.lap last)
    (hT : 0 < e.numThreads.toNat) :
    KeepsTime m last s.shared (s.locals 0) (s.calls 0) := by
  have hbound : 0 ≤ m.bound 0 := le_max_of_le_left (bound_nonneg m)
  refine each_thread (I := fun t σ l calls => t = 0 → KeepsTime m last σ l calls)
    ?_ ?_ ?_ ?_ hs 0 hT rfl
  · exact fun _ _ _ => ⟨rfl, rfl, rfl⟩
  · rintro t σ l calls σ' l' _ hk h rfl
    exact keepsTime_step hlong hbound (hk rfl) h
  · intro s t u σ' l' hs ht _ hut h hk hu
    have ht0 : t ≠ 0 := fun ht0 => hut (hu.trans ht0.symm)
    exact (hk hu).congr (sameTime_step ht0 (fun hp => ht0 (setElapsed_first hs t ht hp)) h)
  · intro t σ l calls c _ hk hcall ht
    have hc := (call_eq_some_iff l c).mp hcall
    change KeepsTime m last σ l.resume calls
    rw [resume_of_call hc]
    exact keepsTime_resume (hk ht) hc

end Reachable

section Bounded
variable {p : Platform} {args : List CStr} {e : Experiment} (ha : parseArgs p args = .accepted e)
  {m : Clocks} (hres : ∀ t < e.numThreads.toNat, m.resolution t ≤ 1 / 50) {last : Nat}
  (hlong : m.round (1 / 5) < m.lap last) {s : RunState} (hs : RunReachable e m s)
include ha hres hs

theorem phase_of_reachable : 0 < e.numThreads.toNat ∧ ∃ τ, (runPhases e m e.numThreads.toNat
    (m.round (1 / 5)) (bound_nonneg m) fun t ht => bound_of_resolution (hres t ht)).At τ s := by
  have hn := (accepted_of_parseArgs ha).numThreads_pos
  have hT : 0 < e.numThreads.toNat := by omega
  unfold RunReachable at hs
  rw [participants_eq (tables_of_parseArgs ha).numThreads_lt hn] at hs
  exact ⟨hT, PhaseInvariant.reachable _ hT hs⟩

/-- A thread makes the calls of a round, or has made them, in the phase of these calls. -/
theorem calling_phase {t : Nat} (ht : t < e.numThreads.toNat)
    (hp : (s.locals t).point = .testCal ∨ (s.locals t).point = .benchCal ∨
      (s.locals t).point = .barrier .calCalled) :
    ∃ τ, (runPhases e m e.numThreads.toNat (m.round (1 / 5)) (bound_nonneg m)
      fun t ht => bound_of_resolution (hres t ht)).At τ s ∧ τ.getLast? = some .calStarted ∧
        rounds (s.calls t) = rounds τ := by
  obtain ⟨_, τ, hat⟩ := phase_of_reachable ha hres hs
  refine ⟨τ, hat, ?_⟩
  rcases hat.thread t ht with ⟨hcalls, hrun⟩ | ⟨c, hcall, hnext, hcalls, _⟩
  · have hcame := hrun.came
    refine ⟨?_, congrArg rounds hcalls⟩
    rcases hp with hp | hp | hp
    · rw [hp] at hcame
      simpa [cameFrom] using hcame
    · rw [hp] at hcame
      simpa [cameFrom] using hcame
    · rw [hp] at hcame
      simp [cameFrom] at hcame
  · have hpoint : (s.locals t).point = .barrier c := (call_eq_some_iff _ c).mp hcall
    have hc : c = .calCalled := by simpa [hpoint] using hp
    subst hc
    change nextCall e (m.round (1 / 5)) τ s.shared = some .calCalled at hnext
    have hcount := rounds_append τ (some .calCalled)
    refine ⟨?_, (congrArg rounds hcalls).trans hcount⟩
    cases hlast : τ.getLast? with
    | none =>
      simp only [nextCall, hlast, nextExperiment] at hnext
      repeat' split at hnext
      all_goals simp at hnext
    | some b =>
      cases b
      case calStarted => rfl
      all_goals
        simp only [nextCall, hlast, nextExperiment] at hnext
        try repeat' split at hnext
        all_goals simp at hnext

include hlong in
/-- A thread begins another round only as long as no round was long enough. -/
theorem rounds_le_last {t : Nat} (ht : t < e.numThreads.toNat)
    (hp : (s.locals t).point = .testElapsed) (hle : s.shared.elapsed ≤ m.bound t) :
    rounds (s.calls t) ≤ last := by
  obtain ⟨hT, τ, hat⟩ := phase_of_reachable ha hres hs
  rw [← bound_of_resolution (hres 0 hT)] at hlong
  have hkeeps := keepsTime_of_reachable hs hlong hT
  rw [bound_of_resolution (hres t ht), ← bound_of_resolution (hres 0 hT)] at hle
  obtain ⟨hcalls, hcame⟩ : s.calls t = τ ∧ (τ.getLast? = none ∨ τ.getLast? = some .calStopped) := by
    rcases hat.thread t ht with ⟨hcalls, hrun⟩ | ⟨c, hcall, _⟩
    · have hcame := hrun.came
      rw [hp] at hcame
      exact ⟨hcalls, by simpa [cameFrom] using hcame⟩
    · rw [(call_eq_some_iff _ c).mp hcall] at hp
      simp at hp
  rw [hcalls]
  rcases hcame with hnone | hstopped
  · rw [List.getLast?_eq_none_iff.mp hnone]
    exact Nat.zero_le last
  · have htimed : ∀ {k}, k ≤ last → rounds τ = k + 1 → Timed m k s.shared → rounds τ ≤ last := by
      intro k hk hrounds htime
      have hne : k ≠ last := by
        rintro rfl
        rw [htime.2] at hle
        exact absurd hle (not_le.mpr hlong)
      omega
    rcases hat.thread 0 hT with ⟨hcalls0, hrun⟩ | ⟨c, hcall, hnext, hcalls0, _⟩
    · have hcame := hrun.came
      rw [hcalls0] at hkeeps
      rw [hstopped] at hcame
      cases hp0 : (s.locals 0).point
      all_goals simp only [hp0, cameFrom, List.mem_cons, List.not_mem_nil, reduceCtorEq,
        Option.some.injEq, or_false, false_or, or_self] at hcame
      all_goals simp only [KeepsTime, hp0] at hkeeps
      case testElapsed =>
        rcases hkeeps with ⟨hzero, _⟩ | ⟨k, hk, hrounds, htime⟩
        · omega
        · exact htimed hk hrounds htime
      all_goals
        obtain ⟨k, hk, hrounds, htime⟩ := hkeeps
        exact htimed hk hrounds htime
    · change nextCall e (m.round (1 / 5)) τ s.shared = some c at hnext
      rw [bound_of_resolution (hres 0 hT)] at hle
      simp only [nextCall, hstopped, if_pos hle, Option.some.injEq] at hnext
      subst hnext
      have hpoint : (s.locals 0).point = .barrier .calTop := (call_eq_some_iff _ _).mp hcall
      have hcount := rounds_append τ (some .calTop)
      rw [Option.toList_some, if_pos rfl] at hcount
      rw [hcalls0] at hkeeps
      simp only [KeepsTime, hpoint] at hkeeps
      obtain ⟨k, hk, hrounds, _⟩ := hkeeps
      omega

end Bounded

section Iters
variable {e : Experiment} {m : Clocks} {T : Nat} {s s' : RunState}

structure ItersBounded (T : Nat) (s : RunState) : Prop where
  iters : 0 ≤ s.shared.iters ∧ s.shared.iters ≤ 2 ^ doublings T s
  tmp : ∀ t < T, (s.locals t).point = .storeIters ∨ (s.locals t).point = .schedule →
    0 ≤ (s.locals t).tmp ∧ (s.locals t).tmp ≤ 2 ^ doublings T s

theorem doublings_advance {t : Nat} (ht : t < T) (hl : Begun (s.locals t) (s.calls t))
    {r : RunShared × RunLocal} (h : runStep e m t s.shared (s.locals t) = some r) :
    doublings T ((runProgram e m).advance s t r) =
      doublings T s + if (s.locals t).point = .storeIters then 1 else 0 := by
  rw [doublings, advance_pairs]
  exact totalLeft_add ht (stored_step hl h)

theorem goOn_eq (e : Experiment) (m : Clocks) (l : RunLocal) :
    (runProgram e m).goOn l = l ∨
      ∃ c, l.point = .barrier c ∧ (runProgram e m).goOn l = afterBarrier l c := by
  cases hcall : l.call with
  | none => exact .inl (by simp [goOn, runProgram, hcall])
  | some c =>
    have hp := (call_eq_some_iff l c).mp hcall
    exact .inr ⟨c, hp, (goOn_of_call hcall).trans (resume_of_call hp)⟩

theorem runStep_tmp {t : Nat} {σ σ' : RunShared} {l l' : RunLocal}
    (h : runStep e m t σ l = some (σ', l')) (hp : l'.point = .storeIters ∨ l'.point = .schedule) :
    l.point ≠ .storeIters ∧ l'.tmp = σ.iters := by
  cases runStep_moves h with
  | readIters hp' | calculate hp' => exact ⟨by simp [hp'], rfl⟩
  | _ => simp at hp

theorem runStep_iters {t : Nat} {σ σ' : RunShared} {l l' : RunLocal}
    (h : runStep e m t σ l = some (σ', l')) : (l.point ≠ .storeIters ∧ σ'.iters = σ.iters) ∨
      (l.point = .initIters ∧ σ'.iters = 1) ∨
        l.point = .storeIters ∧ σ'.iters = wrap64 (l.tmp * 2) := by
  cases runStep_moves h with
  | initIters hp => exact .inr (.inl ⟨hp, rfl⟩)
  | storeIters hp => exact .inr (.inr ⟨hp, rfl⟩)
  | _ hp => exact .inl ⟨by simp [hp], rfl⟩

theorem ItersBounded.advance (hI : ItersBounded T s) {t : Nat} (ht : t < T)
    (hl : Begun (s.locals t) (s.calls t)) {r : RunShared × RunLocal}
    (h : runStep e m t s.shared (s.locals t) = some r)
    (hsmall : doublings T ((runProgram e m).advance s t r) < 63) :
    ItersBounded T ((runProgram e m).advance s t r) := by
  have hgrows := doublings_advance ht hl h
  generalize hn : doublings T ((runProgram e m).advance s t r) = n at hgrows hsmall
  have hless : (2 : Int) ^ doublings T s ≤ 2 ^ n :=
    pow_le_pow_right₀ (by omega) (by rw [hgrows]; exact Nat.le_add_right _ _)
  have hone : (1 : Int) ≤ 2 ^ n := one_le_pow₀ (by omega)
  refine ⟨?_, ?_⟩
  · rw [hn]
    change 0 ≤ r.1.iters ∧ r.1.iters ≤ 2 ^ n
    rcases runStep_iters h with ⟨_, hsame⟩ | ⟨_, hfirst⟩ | ⟨hp, hdouble⟩
    · rw [hsame]
      exact ⟨hI.iters.1, hI.iters.2.trans hless⟩
    · rw [hfirst]
      exact ⟨by omega, hone⟩
    · obtain ⟨h0, hle⟩ := hI.tmp t ht (.inl hp)
      rw [if_pos hp] at hgrows
      have hlast : (2 : Int) ^ n ≤ 2 ^ 62 := pow_le_pow_right₀ (by omega) (by omega)
      rw [hgrows, pow_succ] at hlast ⊢
      rw [hdouble, wrap64_of_inInt64 ⟨by omega, by omega⟩]
      omega
  · rw [hn]
    intro u hu hp
    by_cases hut : u = t
    · subst hut
      simp only [BarrierProgram.advance, Function.update_self] at hp ⊢
      rw [(runStep_tmp h hp).2]
      exact ⟨hI.iters.1, hI.iters.2.trans hless⟩
    · simp only [BarrierProgram.advance, Function.update_of_ne hut] at hp ⊢
      exact ⟨(hI.tmp u hu hp).1, (hI.tmp u hu hp).2.trans hless⟩

theorem doublings_release : doublings T ((runProgram e m).release s) = doublings T s := by
  unfold doublings totalLeft
  refine Finset.sum_congr rfl fun t _ => ?_
  rcases goOn_eq e m (s.locals t) with hsame | ⟨c, hp, hgo⟩
  · exact congrArg (fun l => stored (l, s.calls t)) hsame
  · exact (congrArg (fun l => stored (l, s.calls t)) hgo).trans (stored_resume hp)

theorem ItersBounded.release (hI : ItersBounded T s) :
    ItersBounded T ((runProgram e m).release s) := by
  constructor
  · rw [doublings_release]
    exact hI.iters
  · rw [doublings_release]
    intro t ht hp
    simp only [BarrierProgram.release] at hp ⊢
    rcases goOn_eq e m (s.locals t) with hsame | ⟨c, _, hgo⟩
    · rw [hsame] at hp ⊢
      exact hI.tmp t ht hp
    · rw [hgo] at hp
      cases c
      all_goals simp [afterBarrier] at hp

theorem itersBounded_of_reachable (hs : RunReachable e m s)
    (hsmall : doublings e.numThreads.toNat s < 63) : ItersBounded e.numThreads.toNat s := by
  unfold RunReachable at hs
  induction hs with
  | refl =>
    refine ⟨⟨Int.zero_le_ofNat 1, one_le_pow₀ (by omega)⟩, ?_⟩
    intro t _ hp
    simp [initial] at hp
  | tail hrun hstep ih =>
    cases hstep with
    | run t r ht h =>
      have hl := begun_of_reachable hrun t ht
      have hgrows := doublings_advance ht hl h
      exact (ih (by omega)).advance ht hl h hsmall
    | release =>
      rw [doublings_release] at hsmall
      exact (ih hsmall).release

end Iters

section Phase
variable {e : Experiment} {m : Clocks} {T : Nat} {limit : ℚ} {hlimit : 0 ≤ limit}
  {hbound : ∀ t < T, m.bound t = limit} {τ : List BarrierCall} {s : RunState}

theorem stored_of_calling (hat : (runPhases e m T limit hlimit hbound).At τ s)
    (hlast : τ.getLast? = some .calStarted) {u : Nat} (hu : u < T) :
    stored (s.locals u, s.calls u) = rounds τ - 1 := by
  rcases hat.thread u hu with ⟨hcalls, hrun⟩ | ⟨c, hcall, hnext, hcalls, _⟩
  · have hcame := hrun.came
    rw [hlast] at hcame
    have hin : (s.locals u).point.inRound = true := by
      cases hp : (s.locals u).point
      case testCal | benchCal => rfl
      all_goals simp [hp, cameFrom] at hcame
    rw [stored, if_pos hin, hcalls]
  · change nextCall e limit τ s.shared = some c at hnext
    simp only [nextCall, hlast, Option.some.injEq] at hnext
    subst hnext
    have hpoint : (s.locals u).point = .barrier .calCalled := (call_eq_some_iff _ _).mp hcall
    have hcount := rounds_append τ (some .calCalled)
    rw [stored, hpoint, hcalls]
    exact congrArg (· - 1) hcount

theorem doublings_of_calling (hat : (runPhases e m T limit hlimit hbound).At τ s)
    (hlast : τ.getLast? = some .calStarted) : doublings T s ≤ T * (rounds τ - 1) :=
  totalLeft_le fun _ hu => Nat.le_of_eq (stored_of_calling hat hlast hu)

end Phase

/-- The most that thread 0 can schedule from a value of `iters` up to `most`. -/
def Clocks.farthest (m : Clocks) (e : Experiment) (most : Int) : ℚ :=
  if 0 < e.seconds then
    m.round (m.round (9999 / 10000) +
      m.round (m.round (m.round (1 / 2 * e.seconds) * m.round most) / m.round (1 / 5)))
  else m.round (m.round (9999 / 10000) + m.round (m.round most / m.round (1 / 5)))

structure Clocks.Schedules (m : Clocks) (e : Experiment) (most : Int) : Prop where
  limit_pos : 0 < m.round (1 / 5)
  farthest_lt : m.farthest e most < 2147483648

section Schedules
variable {e : Experiment} {m : Clocks}

theorem toInt64_bounds {x : ℚ} {n : Int} (h0 : 0 ≤ x) (h : x < n) (hn : n ≤ 9223372036854775808) :
    0 ≤ toInt64 x ∧ toInt64 x < n := by
  have hfloor : x.num.tdiv x.den = ⌊x⌋ := by
    rw [Int.tdiv_eq_ediv_of_nonneg (Rat.num_nonneg.mpr h0), Rat.floor_def']
  have hless := Int.floor_lt.mpr h
  have hpos := Int.floor_nonneg.mpr h0
  rw [toInt64, hfloor, wrap64_of_inInt64 ⟨by omega, by omega⟩]
  exact ⟨hpos, hless⟩

theorem Clocks.Schedules.predict_bounds {most iters : Int} (h : m.Schedules e most) {elapsed : ℚ}
    (h0 : 0 ≤ iters) (hmost : iters ≤ most) (hlong : m.round (1 / 5) < elapsed) :
    0 ≤ m.predict e iters elapsed ∧ m.predict e iters elapsed < 2147483648 := by
  have hlimit := h.limit_pos
  have hfar := h.farthest_lt
  have hiters : m.round iters ≤ m.round most := m.round_mono (Int.cast_le.mpr hmost)
  have hquotient : ∀ {x y : ℚ}, 0 ≤ x → x ≤ y →
      m.round (m.round (9999 / 10000) + m.round (x / elapsed)) ≤
        m.round (m.round (9999 / 10000) + m.round (y / m.round (1 / 5))) := by
    intro x y hx hxy
    have hdiv : x / elapsed ≤ y / m.round (1 / 5) :=
      div_le_div₀ (hx.trans hxy) hxy hlimit (le_of_lt hlong)
    exact m.round_mono (add_le_add_right (m.round_mono hdiv) _)
  have hiters0 : 0 ≤ m.round iters := round_nonneg m (Int.cast_nonneg h0)
  rw [Clocks.predict]
  rw [Clocks.farthest] at hfar
  split
  · rename_i hseconds
    rw [if_pos hseconds] at hfar
    have hhalf : 0 ≤ m.round (1 / 2 * e.seconds) :=
      round_nonneg m (mul_nonneg (by norm_num) (by exact_mod_cast le_of_lt hseconds))
    have hproduct := m.round_mono (mul_le_mul_of_nonneg_left hiters hhalf)
    have hle := hquotient (round_nonneg m (mul_nonneg hhalf hiters0)) hproduct
    exact toInt64_bounds (le_max_of_le_left zero_le_one)
      (max_lt (by norm_num) (by exact_mod_cast hle.trans_lt hfar)) (by norm_num)
  · rename_i hseconds
    rw [if_neg hseconds] at hfar
    have hle := hquotient hiters0 hiters
    exact toInt64_bounds (le_max_of_le_left zero_le_one)
      (max_lt (by norm_num) (by exact_mod_cast hle.trans_lt hfar)) (by norm_num)

end Schedules

theorem two_pow_lt_int {k : Nat} (h : k < 31) : 2 ^ k < 2147483648 :=
  Nat.pow_lt_pow_right (Nat.lt_succ_self 1) h

def lapBudget (threads last : Nat) (h : threads * last < 31) : Budget :=
  ⟨last + 1, 2 ^ (threads * last), 2147483647, two_pow_lt_int h, Nat.lt_succ_self 2147483647⟩

section Suffices
variable {p : Platform} {args : List CStr} {e : Experiment} (ha : parseArgs p args = .accepted e)
  {m : Clocks} (hres : ∀ t < e.numThreads.toNat, m.resolution t ≤ 1 / 50) {last : Nat}
  (hlong : m.round (1 / 5) < m.lap last)
include ha hres hlong

theorem rounds_le {s : RunState} (hs : RunReachable e m s) :
    ∀ t < e.numThreads.toNat, rounds (s.calls t) ≤ last + 1 := by
  refine own_thread (J := fun _ _ calls => rounds calls ≤ last + 1) ?_ ?_ (fun _ hl _ => hl) hs
  · intro t _
    exact Nat.zero_le _
  · intro s t σ' l' hs ht hl h
    change rounds (s.calls t ++ l'.call.toList) ≤ last + 1
    rw [rounds_append]
    cases runStep_moves h with
    | goOn hp hle =>
      have hless := rounds_le_last ha hres hlong hs ht hp hle
      exact Nat.succ_le_succ hless
    | _ => simpa [RunLocal.call] using hl

theorem doublings_le {s : RunState} (hs : RunReachable e m s) :
    doublings e.numThreads.toNat s ≤ e.numThreads.toNat * (last + 1) :=
  totalLeft_le fun t ht => (stored_le _).trans (rounds_le ha hres hlong hs t ht)

theorem scheduled_iterations {P : Int → Prop} (hiterations : P e.iterations)
    (hscheduled : ∀ n, 0 ≤ n → n < 2147483648 → P n)
    (hfew : e.numThreads.toNat * (last + 1) < 63)
    (hschedules : m.Schedules e (2 ^ (e.numThreads.toNat * (last + 1))))
    {s : RunState} (hs : RunReachable e m s) : P s.shared.iterations := by
  induction hs with
  | refl => exact hiterations
  | @tail x _ hrun hstep ih =>
    cases hstep with
    | run t r ht h =>
      obtain ⟨σ', l'⟩ := r
      change P σ'.iterations
      by_cases hp : (x.locals t).point = .schedule
      · have hmost := doublings_le ha hres hlong hrun
        obtain ⟨h0, hle⟩ := (itersBounded_of_reachable hrun (by omega)).tmp t ht (.inr hp)
        obtain ⟨_, τ, hat⟩ := phase_of_reachable ha hres hrun
        rcases hat.thread t ht with ⟨_, hrunning⟩ | ⟨c, hcall, _⟩
        · have hknows := hrunning.knows
          simp only [Knows, hp] at hknows
          have hpow : (2 : Int) ^ doublings e.numThreads.toNat x ≤
              2 ^ (e.numThreads.toNat * (last + 1)) := pow_le_pow_right₀ (by omega) hmost
          cases runStep_moves h with
          | schedule =>
            obtain ⟨hlow, hhigh⟩ := hschedules.predict_bounds h0 (hle.trans hpow) hknows.2
            exact hscheduled _ hlow hhigh
          | _ hp' => simp [hp] at hp'
        · rw [(call_eq_some_iff _ c).mp hcall] at hp
          simp at hp
      · rw [(runStep_frame h).1 hp]
        exact ih
    | release => exact ih

theorem suffices_of_lap (hiterations : e.iterations < 2147483648)
    (hfew : e.numThreads.toNat * (last + 1) < 63) (hiters : e.numThreads.toNat * last < 31)
    (hschedules : m.Schedules e (2 ^ (e.numThreads.toNat * (last + 1)))) :
    (lapBudget e.numThreads.toNat last hiters).Suffices e m := by
  refine ⟨?_, ?_, ?_⟩
  · intro s hs t ht hp hle
    exact Nat.lt_succ_of_le (rounds_le_last ha hres hlong hs ht hp hle)
  · intro s hs t ht hp
    obtain ⟨τ, hat, hlast, hsame⟩ := calling_phase ha hres hs ht (.inl hp)
    have hrounds := rounds_le ha hres hlong hs t ht
    have hmost : doublings e.numThreads.toNat s ≤ e.numThreads.toNat * last :=
      (doublings_of_calling hat hlast).trans (Nat.mul_le_mul_left _ (by omega))
    have hbounded := (itersBounded_of_reachable hs (by omega)).iters.2
    have hpow : (2 : Int) ^ doublings e.numThreads.toNat s ≤ 2 ^ (e.numThreads.toNat * last) :=
      pow_le_pow_right₀ (by omega) hmost
    simp only [lapBudget]
    push_cast
    exact hbounded.trans hpow
  · intro s hs t _ _
    have hless := scheduled_iterations ha hres hlong (P := (· < 2147483648)) hiterations
      (fun _ _ h => h) hfew hschedules hs
    simp only [lapBudget]
    omega

end Suffices

end PChase
