import PChase.CalibrationEnds

/-!
# How the rounds of a calibration grow

Without a lock around `iters = iters << 1` a doubling can be lost and can be made once for
each thread. Whatever the threads do, a round has at least twice the calls of the one
before, at most `2 ^ T` times as many, and the same for all.
-/

namespace PChase

open CInt CountLoop BarrierProgram Relation
set_option autoImplicit false

section Phase
variable {e : Experiment} {m : Clocks} {T : Nat} {limit : ℚ} {hlimit : 0 ≤ limit}
  {hbound : ∀ t < T, m.bound t = limit} {τ : List BarrierCall} {s : RunState}

theorem stored_le_rounds (hat : (runPhases e m T limit hlimit hbound).At τ s) {u : Nat}
    (hu : u < T) : stored (s.locals u, s.calls u) ≤ rounds τ := by
  rcases hat.thread u hu with ⟨hcalls, _⟩ | ⟨c, hcall, _, hcalls, _⟩
  · exact (stored_le _).trans (Nat.le_of_eq (congrArg rounds hcalls))
  · have hpoint : (s.locals u).point = .barrier c := (call_eq_some_iff _ c).mp hcall
    have hcount := rounds_append τ (some c)
    rw [stored, hpoint, hcalls]
    by_cases hc : c = .calTop
    · subst hc
      exact Nat.le_of_eq (congrArg (· - 1) hcount)
    · have hsame : (some c = some BarrierCall.calTop) = False := by simpa using hc
      simp only [hsame, if_false] at hcount
      rw [Option.toList_some] at hcount
      simp only [hcount]
      split
      all_goals omega

/-- Nobody stores `iters` while others make the calls of a round. -/
theorem iters_frozen (hat : (runPhases e m T limit hlimit hbound).At τ s)
    (hlast : τ.getLast? = some .calStarted) {t : Nat} (ht : t < T) {σ' : RunShared}
    {l' : RunLocal} (h : runStep e m t s.shared (s.locals t) = some (σ', l')) :
    σ'.iters = s.shared.iters := by
  rcases hat.thread t ht with ⟨_, hrun⟩ | ⟨c, hcall, _⟩
  · have hcame := hrun.came
    rw [hlast] at hcame
    rcases runStep_iters h with ⟨_, hsame⟩ | ⟨hp, _⟩ | ⟨hp, _⟩
    · exact hsame
    · simp [hp, cameFrom] at hcame
    · simp [hp, cameFrom] at hcame
  · have hnone := (runStep_eq_none_iff e m t s.shared (s.locals t)).mpr
      (.inr ⟨c, (call_eq_some_iff _ c).mp hcall⟩)
    rw [hnone] at h
    simp at h

theorem stored_together (hat : (runPhases e m T limit hlimit hbound).At τ s) {t u : Nat}
    (ht : t < T) (hu : u < T) (hl : Begun (s.locals t) (s.calls t)) :
    ((s.locals t).point = .storeIters →
      stored (s.locals u, s.calls u) ≤ stored (s.locals t, s.calls t) + 1) ∧
      ((s.locals t).point = .initIters → stored (s.locals u, s.calls u) = 0) := by
  have hle := stored_le_rounds hat hu
  rcases hat.thread t ht with ⟨hcalls, hrun⟩ | ⟨c, hcall, _⟩
  · refine ⟨fun hp => ?_, fun hp => ?_⟩
    · have hbegun := hl (by rw [hp]; rfl)
      have hstored : stored (s.locals t, s.calls t) = rounds τ - 1 := by
        rw [stored, hp, hcalls]
        rfl
      rw [hcalls] at hbegun
      omega
    · have hcame := hrun.came
      rw [hp] at hcame
      have hnone : τ.getLast? = none := by simpa [cameFrom] using hcame
      rw [List.getLast?_eq_none_iff.mp hnone] at hle
      exact Nat.le_zero.mp hle
  · have hpoint : (s.locals t).point = .barrier c := (call_eq_some_iff _ c).mp hcall
    rw [hpoint]
    exact ⟨fun hp => by simp at hp, fun hp => by simp at hp⟩

end Phase

section Growth
variable {e : Experiment} {m : Clocks} {T : Nat} {s : RunState}

structure ItersGrow (T : Nat) (s : RunState) : Prop where
  iters : ∀ u < T, (2 : Int) ^ stored (s.locals u, s.calls u) ≤ s.shared.iters
  tmp : ∀ t < T, (s.locals t).point = .storeIters →
    (2 : Int) ^ stored (s.locals t, s.calls t) ≤ (s.locals t).tmp

theorem stored_advance {t : Nat} (hl : Begun (s.locals t) (s.calls t)) {r : RunShared × RunLocal}
    (h : runStep e m t s.shared (s.locals t) = some r) (u : Nat) :
    stored (((runProgram e m).advance s t r).locals u, ((runProgram e m).advance s t r).calls u) =
      stored (s.locals u, s.calls u) + if u = t ∧ (s.locals t).point = .storeIters then 1 else 0 := by
  have hpair := congrFun (advance_pairs (runProgram e m) s t r) u
  by_cases hut : u = t
  · subst hut
    rw [Function.update_self] at hpair
    rw [hpair]
    have hstep : stored (r.2, s.calls u ++ ((runProgram e m).call r.2).toList) = _ :=
      stored_step hl h
    simpa using hstep
  · rw [Function.update_of_ne hut] at hpair
    simp [hpair, hut]

theorem ItersGrow.advance (hI : ItersGrow T s) (hB : ItersBounded T s) {t : Nat} (ht : t < T)
    (hl : Begun (s.locals t) (s.calls t))
    (htogether : ∀ u < T, ((s.locals t).point = .storeIters →
      stored (s.locals u, s.calls u) ≤ stored (s.locals t, s.calls t) + 1) ∧
      ((s.locals t).point = .initIters → stored (s.locals u, s.calls u) = 0))
    {r : RunShared × RunLocal} (h : runStep e m t s.shared (s.locals t) = some r)
    (hsmall : doublings T ((runProgram e m).advance s t r) < 63) :
    ItersGrow T ((runProgram e m).advance s t r) := by
  have hstored := stored_advance hl h
  have hgrows := doublings_advance ht hl h
  constructor
  · intro u hu
    rw [hstored u]
    change _ ≤ r.1.iters
    rcases runStep_iters h with ⟨hnot, hsame⟩ | ⟨hp, hfirst⟩ | ⟨hp, hdouble⟩
    · rw [hsame, if_neg (by simp [hnot]), Nat.add_zero]
      exact hI.iters u hu
    · rw [hfirst, (htogether u hu).2 hp, if_neg (by simp [hp])]
      exact Int.le_refl 1
    · obtain ⟨h0, hle⟩ := hB.tmp t ht (.inl hp)
      have hlast : (2 : Int) ^ doublings T s ≤ 2 ^ 61 := by
        rw [if_pos hp] at hgrows
        exact pow_le_pow_right₀ (by omega) (by omega)
      have hmost : stored (s.locals u, s.calls u) + (if u = t ∧ (s.locals t).point = .storeIters
          then 1 else 0) ≤ stored (s.locals t, s.calls t) + 1 := by
        by_cases hut : u = t
        · subst hut
          simp [hp]
        · simpa [hut] using (htogether u hu).1 hp
      rw [hdouble, wrap64_of_inInt64 ⟨by omega, by omega⟩]
      calc (2 : Int) ^ _ ≤ 2 ^ (stored (s.locals t, s.calls t) + 1) :=
            pow_le_pow_right₀ (by omega) hmost
        _ = 2 ^ stored (s.locals t, s.calls t) * 2 := pow_succ _ _
        _ ≤ (s.locals t).tmp * 2 := Int.mul_le_mul_of_nonneg_right (hI.tmp t ht hp) (by omega)
  · intro u hu hp
    by_cases hut : u = t
    · subst hut
      rw [hstored u]
      simp only [BarrierProgram.advance, Function.update_self] at hp ⊢
      obtain ⟨hnot, htmp⟩ := runStep_tmp h (.inl hp)
      rw [htmp, if_neg (by simp [hnot]), Nat.add_zero]
      exact hI.iters u hu
    · rw [hstored u, if_neg (by simp [hut]), Nat.add_zero]
      simp only [BarrierProgram.advance, Function.update_of_ne hut] at hp ⊢
      exact hI.tmp u hu hp

theorem ItersGrow.release (hI : ItersGrow T s) : ItersGrow T ((runProgram e m).release s) := by
  have hgo : ∀ t, stored ((runProgram e m).goOn (s.locals t), s.calls t) =
      stored (s.locals t, s.calls t) := by
    intro t
    rcases goOn_eq e m (s.locals t) with hsame | ⟨c, hp, hgo⟩
    · rw [hsame]
    · rw [hgo, stored_resume hp]
  constructor
  · intro u hu
    simp only [BarrierProgram.release, hgo]
    exact hI.iters u hu
  · intro u hu hp
    simp only [BarrierProgram.release, hgo] at hp ⊢
    rcases goOn_eq e m (s.locals u) with hsame | ⟨c, _, hgo⟩
    · rw [hsame] at hp ⊢
      exact hI.tmp u hu hp
    · rw [hgo] at hp
      cases c
      all_goals simp [afterBarrier] at hp

def CallsRound (σ : RunShared) (l : RunLocal) : Prop :=
  match l.point with
  | .testCal => l.i = l.calls ∧ (l.calls : Int) ≤ σ.iters
  | .benchCal => l.i = l.calls ∧ (l.calls : Int) < σ.iters
  | .barrier .calCalled => (l.calls : Int) = σ.iters
  | _ => True

theorem callsRound_step {t : Nat} {σ σ' : RunShared} {l l' : RunLocal}
    (hfits : σ'.iters < 2147483648) (hI : 0 ≤ σ.iters → σ.iters < 2147483648 → CallsRound σ l)
    (h0 : 0 ≤ σ'.iters) (h : runStep e m t σ l = some (σ', l')) : CallsRound σ' l' := by
  cases runStep_moves h with
  | callCal hp hlt =>
    simp only [CallsRound, hp] at hI
    obtain ⟨hi, hle⟩ := hI h0 hfits
    exact ⟨hi, by simp only [goto_calls]; omega⟩
  | calledCal hp hge =>
    simp only [CallsRound, hp] at hI
    obtain ⟨hi, hle⟩ := hI h0 hfits
    simp only [CallsRound, goto_point, goto_calls]
    omega
  | benchCal hp =>
    simp only [CallsRound, hp] at hI
    obtain ⟨hi, hlt⟩ := hI h0 hfits
    have hnext : addStep 1 l.i = l.i + 1 := wrap32_of_bounds (by omega) (by omega)
    simp only [CallsRound, calledOnce_point, calledOnce_i, calledOnce_calls, hnext]
    omega
  | _ => trivial

theorem CallsRound.congr {σ σ' : RunShared} {l : RunLocal} (h : CallsRound σ l)
    (hsame : σ'.iters = σ.iters) : CallsRound σ' l := by
  unfold CallsRound at *
  rw [hsame]
  exact h

end Growth

section Runs
variable {p : Platform} {args : List CStr} {e : Experiment} (ha : parseArgs p args = .accepted e)
  {m : Clocks} (hres : ∀ t < e.numThreads.toNat, m.resolution t ≤ 1 / 50) {s : RunState}
include ha hres

theorem itersGrow_of_reachable (hs : RunReachable e m s)
    (hsmall : doublings e.numThreads.toNat s < 63) : ItersGrow e.numThreads.toNat s := by
  unfold RunReachable at hs
  induction hs with
  | refl =>
    refine ⟨fun _ _ => Int.le_refl 1, ?_⟩
    intro t _ hp
    simp [initial] at hp
  | tail hrun hstep ih =>
    cases hstep with
    | run t r ht h =>
      have hl := begun_of_reachable hrun t ht
      have hgrows := doublings_advance ht hl h
      obtain ⟨_, τ, hat⟩ := phase_of_reachable ha hres hrun
      exact (ih (by omega)).advance (itersBounded_of_reachable hrun (by omega)) ht hl
        (fun u hu => stored_together hat ht hu hl) h hsmall
    | release =>
      rw [doublings_release] at hsmall
      exact (ih hsmall).release

theorem callsRound_of_reachable (hs : RunReachable e m s) (h0 : 0 ≤ s.shared.iters)
    (hfits : s.shared.iters < 2147483648) : ∀ t < e.numThreads.toNat,
      CallsRound s.shared (s.locals t) := by
  have hall := each_thread (P := runProgram e m)
    (I := fun _ σ l _ => 0 ≤ σ.iters → σ.iters < 2147483648 → CallsRound σ l) ?_ ?_ ?_ ?_ hs
  · exact fun t ht => hall t ht h0 hfits
  · exact fun _ _ _ _ => trivial
  · exact fun _ hI h h0 hfits => callsRound_step hfits hI h0 h
  · intro s t u σ' l' hs ht hu _ h hI h0 hfits
    by_cases hp : (s.locals u).point = .testCal ∨ (s.locals u).point = .benchCal ∨
        (s.locals u).point = .barrier .calCalled
    · obtain ⟨τ, hat, hlast, _⟩ := calling_phase ha hres hs hu hp
      have hsame := iters_frozen hat hlast ht h
      rw [hsame] at h0 hfits
      exact (hI h0 hfits).congr hsame
    · simp only [not_or] at hp
      obtain ⟨htest, hbench, hcalled⟩ := hp
      unfold CallsRound
      split
      case h_1 hpoint => exact absurd hpoint htest
      case h_2 hpoint => exact absurd hpoint hbench
      case h_3 hpoint => exact absurd hpoint hcalled
      case h_4 => trivial
  · intro t σ l calls c _ hI hcall h0 hfits
    have hc := (call_eq_some_iff l c).mp hcall
    change CallsRound σ l.resume
    rw [resume_of_call hc]
    cases c
    case calStarted => exact ⟨rfl, by simpa [afterBarrier] using h0⟩
    all_goals trivial

/-- Whatever the race on `iters` does, all threads make the same number of calls in a round,
and that number doubles at least and is multiplied by `2 ^ T` at most from one round to the
next, as long as an `int` can count to it. -/
theorem calibration_grows (hs : RunReachable e m s) {t : Nat} (ht : t < e.numThreads.toNat)
    (hp : (s.locals t).point = .barrier .calCalled)
    (hfew : e.numThreads.toNat * (rounds (s.calls t) - 1) < 31) :
    2 ^ (rounds (s.calls t) - 1) ≤ (s.locals t).calls ∧
    (s.locals t).calls ≤ 2 ^ (e.numThreads.toNat * (rounds (s.calls t) - 1)) ∧
    ∀ u < e.numThreads.toNat, (s.locals u).point = .barrier .calCalled →
      (s.locals u).calls = (s.locals t).calls := by
  obtain ⟨τ, hat, hlast, hrounds⟩ := calling_phase ha hres hs ht (.inr (.inr hp))
  have hmost := doublings_of_calling hat hlast
  rw [← hrounds] at hmost
  obtain ⟨h0, hle⟩ := (itersBounded_of_reachable hs (by omega)).iters
  have hlow := (itersGrow_of_reachable ha hres hs (by omega)).iters t ht
  rw [stored_of_calling hat hlast ht, ← hrounds] at hlow
  have hhigh := hle.trans (pow_le_pow_right₀ (by omega) hmost)
  have hint : (2 : Int) ^ (e.numThreads.toNat * (rounds (s.calls t) - 1)) ≤ 2 ^ 30 :=
    pow_le_pow_right₀ (by omega) (by omega)
  have hcalls : ∀ u < e.numThreads.toNat, (s.locals u).point = .barrier .calCalled →
      ((s.locals u).calls : Int) = s.shared.iters := by
    intro u hu hpu
    have hround := callsRound_of_reachable ha hres hs h0 (by omega) u hu
    simpa only [CallsRound, hpu] using hround
  have hself := hcalls t ht hp
  rw [← hself] at hlow hhigh
  refine ⟨by exact_mod_cast hlow, by exact_mod_cast hhigh, ?_⟩
  intro u hu hpu
  exact_mod_cast (hcalls u hu hpu).trans hself.symm

end Runs

def slowClocks : Clocks := { unitClocks with clock := fun n => n / 100 }

/-- Two threads in the second round, after both of them have doubled `iters`. -/
theorem second_round_of_four : ∃ e s, parseArgs .single ["-t".toList, "2".toList] = .accepted e ∧
    RunReachable e slowClocks s ∧ rounds (s.calls 0) = 2 ∧
      (2 ≤ (s.locals 0).calls ∧ (s.locals 0).calls ≤ 4) ∧
      (s.locals 1).calls = (s.locals 0).calls := by
  obtain ⟨e, he, hthreads, hrun⟩ : ∃ e, parseArgs .single ["-t".toList, "2".toList] = .accepted e ∧
      e.numThreads = 2 ∧
      (((runProgram e slowClocks).follow 2 2
          ([some 0, some 0, some 0, some 1, some 1, some 1, none, some 0, some 1, none,
            some 0, some 0, some 0, some 1, some 1, some 1, none, some 0, some 0, some 1, none,
            some 0, some 0, some 0, some 1, some 1, some 1, none, some 0, some 1, none] ++
            List.replicate 9 (some 0) ++ List.replicate 9 (some 1))
          (initial { iterations := e.iterations } fun _ => {})).map fun s =>
            ((s.locals 0).point, (s.locals 1).point, rounds (s.calls 0))) =
        some (.barrier .calCalled, .barrier .calCalled, 2) := ⟨_, rfl, rfl, by decide +kernel⟩
  obtain ⟨s, hs, hpoints⟩ := Option.map_eq_some_iff.mp hrun
  simp only [Prod.mk.injEq] at hpoints
  obtain ⟨hfirst, hsecond, hrounds⟩ := hpoints
  have hreach : RunReachable e slowClocks s := by
    rw [RunReachable, hthreads]
    exact run_of_follow hs
  have hres : ∀ t < e.numThreads.toNat, slowClocks.resolution t ≤ 1 / 50 := fun t _ => by
    norm_num [slowClocks, unitClocks]
  obtain ⟨hlow, hhigh, hsame⟩ := calibration_grows he hres hreach (t := 0) (by omega) hfirst
    (by rw [hrounds]; omega)
  rw [hrounds] at hlow hhigh
  rw [hthreads] at hhigh
  exact ⟨e, s, he, hreach, hrounds, ⟨hlow, hhigh⟩, hsame 1 (by omega) hsecond⟩

end PChase
