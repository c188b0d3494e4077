import PChase.CountingLoops
import PChase.ProgramEnds
import PChase.StridedCounts

/-!
# The loops of a run make their full count

The loops of the initialisers end after as many steps as the stride has multiples, and the
threads come to the end of every experiment behind all its calls.
-/

namespace PChase

open CInt CountLoop BarrierProgram
set_option autoImplicit false

theorem countFits_of_reachable {p : Platform} {args : List CStr} {e : Experiment}
    (ha : parseArgs p args = .accepted e) {m : Clocks} (hm : m.Settles e)
    (h0 : 0 ≤ e.iterations) (hlt : e.iterations < 2147483648) {s : RunState}
    (hs : RunReachable e m s) : CountFits s.shared := by
  rcases hm with he | ⟨hres, last, hlong, hfew, _, hschedules⟩
  · rw [CountFits, given_iterations he hs]
    exact ⟨h0, hlt⟩
  · exact scheduled_iterations ha hres hlong (P := fun n => 0 ≤ n ∧ n < 2147483648) ⟨h0, hlt⟩
      (fun _ hlow hhigh => ⟨hlow, hhigh⟩) hfew hschedules hs

/-- The loops of an accepted configuration make their full count when their bounds and
counters are within the range of an `int`, those of the initialisers exactly then. -/
theorem counting_loops_complete {p : Platform} {args : List CStr} {e : Experiment}
    (ha : parseArgs p args = .accepted e) :
    (0 < e.stride → (ForwardCounts e ↔ -e.step < e.linesPerChain ∧ e.CounterPasses)) ∧
    (e.stride < 0 → (ReverseCounts e ↔ 1 ≤ e.linesPerChain ∧ e.CounterPasses)) ∧
    (∀ n, CountsUp n ↔ 0 ≤ n ∧ n < 2147483648) ∧
    ∀ (S : Type) (g : Generator S) (m : Clocks) (pl : Nat → Placement e e.chains) (start : S)
      (s : ProgramState S), e.RunFits → 0 ≤ e.experiments → 0 ≤ e.iterations → m.Settles e →
      ProgramReachable e g m pl start s →
      CountsRight e e.numThreads.toNat s.program ∧
      Acc (fun b a => ProgramStep e g m pl a b) s ∧
      ((∀ t < e.numThreads.toNat, (s.program.locals t).point = .finished) ∨
        ∃ s', ProgramStep e g m pl s s') := by
  have hne := (accepted_of_parseArgs ha).stride_ne
  refine ⟨forwardCounts_iff hne, reverseCounts_iff hne, countsUp_iff, ?_⟩
  intro S g m pl start s hfits h0 hcalls hm hs
  have hrun := hs.stages.2
  refine ⟨?_, program_accessible ha hfits hs hm, program_go_on ha hfits hs hm.given⟩
  exact countsRight_of_reachable ha hm.given h0 hfits.experiments_lt hrun
    (countFits_of_reachable ha hm hcalls hfits.iterations_lt hrun)

/-- Two threads that store on every second line of four, three times in each of two
experiments. -/
theorem three_calls_counted :
    ∃ e, parseArgs .single ["-t".toList, "2".toList, "-i".toList, "3".toList, "-e".toList,
        "2".toList, "-p".toList, "256".toList, "-c".toList, "256".toList, "-a".toList,
        "forward".toList, "2".toList, "-m".toList, "store_all".toList] = .accepted e ∧
      e.iterations = 3 ∧ ForwardCounts e ∧
      ∃ (pl : Nat → Placement e e.chains) (s : ProgramState Nat),
        ProgramReachable e additiveFeedback unitClocks pl 0 s ∧
        CountsRight e 2 s.program ∧ ∀ t < 2, (s.program.locals t).point = .finished ∧
          (s.program.calls t).count .expTop = 2 ∧ (s.program.calls t).count .expCalled = 2 := by
  obtain ⟨e, he, hthreads, hiterations, hexperiments, hpattern, hn, hk, hlinks, hstride, hbytes,
      hloop⟩ :
      ∃ e, parseArgs .single ["-t".toList, "2".toList, "-i".toList, "3".toList, "-e".toList,
        "2".toList, "-p".toList, "256".toList, "-c".toList, "256".toList, "-a".toList,
        "forward".toList, "2".toList, "-m".toList, "store_all".toList] = .accepted e ∧
      e.numThreads = 2 ∧ e.iterations = 3 ∧ e.experiments = 2 ∧ e.accessPattern = .strided ∧
      e.linesPerChain = 4 ∧ e.linksPerLine = 4 ∧ e.linksPerChain = 16 ∧ e.stride = 2 ∧
      e.bytesPerLine = 64 ∧ e.loopLength = 0 :=
    ⟨_, rfl, rfl, rfl, rfl, rfl, rfl, rfl, rfl, rfl, rfl, rfl⟩
  have hT : e.numThreads.toNat = 2 := by omega
  obtain ⟨hstep, hindex, hlines, hfit⟩ :=
    two_of_four hpattern hstride hn (by omega) (by omega)
  have hfits : e.RunFits := by
    refine ⟨hfit, .inr (.inr ?_), by omega, by omega, by omega⟩
    rw [Experiment.StrideInside, lastLink_strided hpattern, hindex, hstep, hlines, hk, hbytes,
      hlinks]
    decide
  obtain ⟨hforward, _, _, hruns⟩ := counting_loops_complete he
  let pl : Nat → Placement e e.chains := fun _ => .packed e.chains (by omega)
  have hcounts := fun s (hs : ProgramReachable e additiveFeedback unitClocks pl 0 s) =>
    hruns Nat additiveFeedback unitClocks pl 0 s hfits (by omega) (by omega) (.inl (by omega)) hs
  obtain ⟨s, hs, hfinished⟩ := exists_end_of_acc (fun s hs => (hcounts s hs).2.2) .refl
    (hcounts _ .refl).2.1
  have hright := (hcounts s hs).1
  rw [hT] at hright hfinished
  refine ⟨e, he, hiterations, (hforward (by omega)).mpr ⟨by omega, ?_⟩, pl, s, hs, hright, ?_⟩
  · rw [Experiment.CounterPasses, strideCount, hn, hstep]
    decide
  · intro t ht
    obtain ⟨hbegun, hdone⟩ := hright.ended t ht (.inr (hfinished t ht))
    exact ⟨hfinished t ht, by omega, by omega⟩

/-- A stride of 2^32 lines leaves the counter at zero, and the loop has no end. -/
theorem wide_stride_never_ends :
    ∃ e, parseArgs .single ["-a".toList, "forward".toList, "4g".toList] = .accepted e ∧
      0 < e.stride ∧ forwardLinks e = none ∧ ¬ ForwardCounts e := by
  obtain ⟨e, he, hstride, hlines⟩ :
      ∃ e, parseArgs .single ["-a".toList, "forward".toList, "4g".toList] = .accepted e ∧
      e.stride = 4294967296 ∧ e.linesPerChain = 262144 := ⟨_, rfl, rfl, rfl⟩
  have hnone : forwardLinks e = none := by
    rw [forwardLinks, Option.bind_eq_bind, Option.bind_eq_none_iff]
    intro lines hloop
    obtain ⟨n, _, hend, _⟩ :=
      (intLoop_eq_some_iff _ inInt32_zero (addStep_inInt32 e.stride) lines).mp hloop
    have hzero := wrap32_add_mul 0 n
    rw [addStep_multiple, hstride, ← Int.zero_add (n * 4294967296 : Int), hzero, hlines] at hend
    simp at hend
  refine ⟨e, he, by omega, hnone, ?_⟩
  rintro ⟨links, hlinks, _⟩
  rw [hnone] at hlinks
  simp at hlinks

end PChase
