import PChase.BenchCalls
import PChase.CalibrationEnds
import PChase.EmittedCalls

/-!
# All threads return

`Run::run` as a whole: a thread initialises its chains under the mutex, has its code
generated and then calibrates and experiments with the others at the barrier, without
waiting for them in between. Where its accesses and counts fit, no run is stuck and none
goes on for ever, so `main` comes behind its `wait` calls, and it finds there the count of a
ring and the experiments made.
-/

namespace PChase

open CInt CountLoop BarrierProgram
set_option autoImplicit false

variable {S : Type}

abbrev ProgramState (S : Type) :=
  Staged (InitShared S) InitLocal RunShared RunLocal BarrierCall SharedAccess

def programStart (e : Experiment) (g : Generator S) (start : S) : ProgramState S :=
  ⟨initialThreads e g start, initial { iterations := e.iterations } fun _ => {}⟩

/-- A step of one of the threads that `main` has started, or the release of all that wait.
A thread has no step from a call of `bench` that does not return. -/
abbrev ProgramStep (e : Experiment) (g : Generator S) (m : Clocks)
    (pl : Nat → Placement e e.chains) : ProgramState S → ProgramState S → Prop :=
  Staged.Step (initStep e g) (fun l => l.point = .finished) (MayGoOn pl) (runProgram e m)
    e.numThreads.toNat (wrap32 e.numThreads).toNat

def ProgramReachable (e : Experiment) (g : Generator S) (m : Clocks)
    (pl : Nat → Placement e e.chains) (start : S) (s : ProgramState S) : Prop :=
  Relation.ReflTransGen (ProgramStep e g m pl) (programStart e g start) s

/-- The links of the chains and the accesses of the calls are inside the blocks, and what
the threads count to is in the range of an `int`. -/
structure Experiment.RunFits (e : Experiment) : Prop where
  nodes : e.NodesFit
  fanOut : e.FanOutFits
  loopLength_lt : e.loopLength < 2147483648
  experiments_lt : e.experiments < 2147483648
  iterations_lt : e.iterations < 2147483648

/-- The number of iterations is given, or the clock settles it: a round of the calibration
takes longer than the bound before `iters` leaves the range of an `int`, and whatever is
scheduled behind that round is in that range too. -/
def Clocks.Settles (m : Clocks) (e : Experiment) : Prop :=
  e.iterations ≠ 0 ∨ (∀ t < e.numThreads.toNat, m.resolution t ≤ 1 / 50) ∧ ∃ last,
    m.round (1 / 5) < m.lap last ∧ e.numThreads.toNat * (last + 1) < 63 ∧
      e.numThreads.toNat * last < 31 ∧ m.Schedules e (2 ^ (e.numThreads.toNat * (last + 1)))

def Experiment.nodes (e : Experiment) : Int :=
  match e.accessPattern with
  | .random => e.linesPerChain
  | .strided => e.lastIndex + 1

theorem opsPerChain_of_fits {e : Experiment} (hs : e.SizesDerived) (hne : e.stride ≠ 0)
    (hfit : e.NodesFit) {d : Draws} {r : Ring} (h : memInit e d = some r) :
    r.opsPerChain = e.nodes := by
  rw [memInit_eq] at h
  obtain ⟨links, hlinks, hbuild⟩ := Option.bind_eq_some_iff.mp h
  obtain ⟨_, _, rfl⟩ := (buildRing_links e links r).mp hbuild
  simp only [Experiment.nodes]
  cases hpattern : e.accessPattern with
  | random =>
    have hexact := hfit.random hpattern
    have hpages := hexact.pages_fit
    have hlines := hexact.lines_fit
    have hp := hexact.pages_pos
    have hl := hexact.lines_pos
    have hk := hexact.links_pos
    rw [memLinks, hpattern] at hlinks
    simp only at hlinks
    rw [randomLinks_of_lt e d (by omega) (by omega), Option.some.injEq] at hlinks
    rw [← hlinks, List.length_map, List.length_range, (hs.geometry (by omega)).linesPerChain_eq,
      Nat.cast_mul, Int.toNat_of_nonneg (by omega), Int.toNat_of_nonneg (by omega)]
  | strided =>
    have hstrided := hfit.strided hpattern
    have hnonneg := lastIndex_nonneg hstrided hne
    rw [memLinks_strided hstrided hne hpattern, Option.some.injEq] at hlinks
    rw [← hlinks, List.length_map, List.length_range]
    simp only
    omega

theorem Clocks.Settles.given {e : Experiment} {m : Clocks} (hm : m.Settles e) :
    e.iterations ≠ 0 ∨ ∀ t < e.numThreads.toNat, m.resolution t ≤ 1 / 50 :=
  hm.imp_right And.left

theorem Clocks.Settles.suffices {p : Platform} {args : List CStr} {e : Experiment}
    (ha : parseArgs p args = .accepted e) {m : Clocks} (hm : m.Settles e)
    (hiterations : e.iterations < 2147483648) : ∃ b : Budget, b.Suffices e m := by
  rcases hm with he | ⟨hres, last, hlong, hfew, hiters, hschedules⟩
  · exact ⟨_, suffices_of_given he hiterations⟩
  · exact ⟨_, suffices_of_lap ha hres hlong hiterations hfew hiters hschedules⟩

section Program
variable {e : Experiment} {g : Generator S} {m : Clocks} {pl : Nat → Placement e e.chains}
  {start : S} {s : ProgramState S} (hs : ProgramReachable e g m pl start s)
include hs

theorem ProgramReachable.stages : InitReachable e g start s.prelude ∧ RunReachable e m s.program :=
  Staged.Run.stages hs

theorem initialised_of_returned {t : Nat} (hp : (s.program.locals t).point = .finished) :
    (s.prelude.locals t).point = .finished := by
  by_contra hnot
  have hwaits := Staged.Run.waits hs (fun {t σ l} (h : l.point = .finished) => by
    simp only [initStep, h]) (fun _ => rfl) t hnot
  rw [hwaits] at hp
  simp [programStart, initial] at hp

end Program

/-- What `main` finds behind its `wait` calls: all chains of all threads are rings, the
count is that of the nodes of a ring, and every thread has made all experiments. -/
structure Returned (e : Experiment) (s : ProgramState S) : Prop where
  built : ∀ t < e.numThreads.toNat, ((s.prelude.locals t).built.length : Int) = e.chainsPerThread
  rings : ∀ t < e.numThreads.toNat, ∀ b ∈ (s.prelude.locals t).built,
    b.ring.opsPerChain = e.nodes ∧ ∃ n : Nat, b.ring.FirstReturn n ∧ n ≤ e.nodes
  ops : s.prelude.shared.opsPerChain = e.nodes
  experiments : 0 ≤ e.experiments → ∀ t < e.numThreads.toNat,
    ((s.program.calls t).count .expTop : Int) = e.experiments ∧
      ((s.program.calls t).count .expCalled : Int) = e.experiments

section Ends
variable {p : Platform} {args : List CStr} {e : Experiment} (ha : parseArgs p args = .accepted e)
  (hfits : e.RunFits) {g : Generator S} {m : Clocks} {pl : Nat → Placement e e.chains} {start : S}
  {s : ProgramState S} (hs : ProgramReachable e g m pl start s)
include ha hfits hs

theorem returned_of_finished
    (hm : e.iterations ≠ 0 ∨ ∀ t < e.numThreads.toNat, m.resolution t ≤ 1 / 50)
    (hfinished : ∀ t < e.numThreads.toNat, (s.program.locals t).point = .finished) :
    Returned e s := by
  have hacc := accepted_of_parseArgs ha
  have hn := hacc.numThreads_pos
  have hchains := hacc.chainsPerThread_pos
  obtain ⟨hinit, hrun⟩ := hs.stages
  have hnodes : ∀ d r, memInit e d = some r → r.opsPerChain = e.nodes :=
    fun d r h => opsPerChain_of_fits hacc.sizes hacc.stride_ne hfits.nodes h
  have hpublished := published_of_reachable hnodes hinit
  have hbuilt : ∀ t < e.numThreads.toNat,
      ((s.prelude.locals t).built.length : Int) = e.chainsPerThread := fun t ht =>
    finished_of_reachable ha hinit ht (initialised_of_returned hs (hfinished t ht))
  refine ⟨hbuilt, ?_, ?_, ?_⟩
  · intro t ht b hb
    obtain ⟨d, hd⟩ := (hpublished t ht).built b hb
    have hops := hnodes d _ hd
    rw [memInit_eq] at hd
    obtain ⟨links, _, hbuild⟩ := Option.bind_eq_some_iff.mp hd
    obtain ⟨n, hfirst, hle, _⟩ := firstReturn_of_links hbuild
    exact ⟨hops, n, hfirst, hops ▸ hle⟩
  · have hfirst := hbuilt 0 (by omega)
    refine (hpublished 0 (by omega)).stored ?_ ?_
    · intro hnil
      rw [hnil, List.length_nil] at hfirst
      omega
    · rw [initialised_of_returned hs (hfinished 0 (by omega))]
      rfl
  · intro h0 t ht
    have hI := counting_of_reachable ha hm h0 hfits.experiments_lt hrun t ht
    simp only [Counting, hfinished t ht] at hI
    exact ⟨hI.begun_eq, hI.done_eq⟩

theorem program_accessible (hm : m.Settles e) : Acc (fun b a => ProgramStep e g m pl a b) s := by
  have hn := (accepted_of_parseArgs ha).numThreads_pos
  have hparticipants := participants_eq (tables_of_parseArgs ha).numThreads_lt hn
  obtain ⟨b, hb⟩ := hm.suffices ha hfits.iterations_lt
  have hinit_left : ∀ x x', InitReachable e g start x →
      Threads.Step (initStep e g) e.numThreads.toNat x x' →
      totalLeft (initLeft e) e.numThreads.toNat x'.locals <
        totalLeft (initLeft e) e.numThreads.toNat x.locals :=
    fun x x' hx h => initLeft_decreases ha hfits.nodes hx h
  have hrun_left : ∀ x x', RunReachable e m x →
      (runProgram e m).Step e.numThreads.toNat (wrap32 e.numThreads).toNat x x' →
      totalLeft (b.left e) e.numThreads.toNat (fun t => (x'.locals t, x'.calls t)) <
        totalLeft (b.left e) e.numThreads.toNat (fun t => (x.locals t, x.calls t)) := by
    intro x x' hx h
    rw [hparticipants] at h
    exact Budget.left_decreases hfits.experiments_lt hb hx (by omega) h
  exact Staged.accessible _ _ hinit_left hrun_left hs

theorem program_go_on
    (hm : e.iterations ≠ 0 ∨ ∀ t < e.numThreads.toNat, m.resolution t ≤ 1 / 50) :
    (∀ t < e.numThreads.toNat, (s.program.locals t).point = .finished) ∨
      ∃ s', ProgramStep e g m pl s s' := by
  have hn := (accepted_of_parseArgs ha).numThreads_pos
  have hparticipants := participants_eq (tables_of_parseArgs ha).numThreads_lt hn
  obtain ⟨hinit, hrun⟩ := hs.stages
  have hprelude := init_go_on ha hfits.nodes hinit
  have hprogram : (∀ t < e.numThreads.toNat, (s.program.locals t).point = .finished) ∨
      ∃ x, (runProgram e m).Step e.numThreads.toNat (wrap32 e.numThreads).toNat s.program x := by
    rw [hparticipants]
    exact run_go_on ha hm hrun
  have hmay : ∀ t < e.numThreads.toNat, (s.prelude.locals t).point = .finished →
      MayGoOn pl t (s.prelude.locals t) (s.program.locals t) := fun t ht hp =>
    mayGoOn_of_fits ha hfits.nodes hinit hfits.fanOut hfits.loopLength_lt pl ht hp _
  exact (Staged.go_on hprelude hprogram hmay).imp_left And.right

end Ends

/-- In whatever order the threads of an accepted configuration take their steps, no run goes
on for ever, none stops before all have returned, and then the results are complete. -/
theorem threads_return {p : Platform} {args : List CStr} {e : Experiment}
    (ha : parseArgs p args = .accepted e) (hfits : e.RunFits) {m : Clocks} (hm : m.Settles e)
    {g : Generator S} {pl : Nat → Placement e e.chains} {start : S} {s : ProgramState S}
    (hs : ProgramReachable e g m pl start s) :
    Acc (fun b a => ProgramStep e g m pl a b) s ∧
    ((∀ t < e.numThreads.toNat, (s.program.locals t).point = .finished) ∨
      ∃ s', ProgramStep e g m pl s s') ∧
    ((∀ t < e.numThreads.toNat, (s.program.locals t).point = .finished) → Returned e s) := by
  exact ⟨program_accessible ha hfits hs hm, program_go_on ha hfits hs hm.given,
    returned_of_finished ha hfits hs hm.given⟩

/-- The default configuration with two threads, by a clock that ticks at every reading. -/
theorem calibrated_threads_return :
    ∃ e, parseArgs .single ["-t".toList, "2".toList] = .accepted e ∧ e.iterations = 0 ∧
      ∃ (pl : Nat → Placement e e.chains) (s : ProgramState Nat),
        ProgramReachable e additiveFeedback unitClocks pl 0 s ∧
        (∀ t < 2, (s.program.locals t).point = .finished) ∧ Returned e s := by
  obtain ⟨e, he, hn, hzero, hone, hpattern, hp, hl, hk, hlines, hseconds, hop, hloop, hlinks⟩ :
      ∃ e, parseArgs .single ["-t".toList, "2".toList] = .accepted e ∧ e.numThreads = 2 ∧
      e.iterations = 0 ∧ e.experiments = 1 ∧ e.accessPattern = .random ∧ e.pagesPerChain = 4096 ∧
      e.linesPerPage = 64 ∧ e.linksPerLine = 4 ∧ e.linesPerChain = 262144 ∧ e.seconds = 1 ∧
      e.memOperation = .na ∧ e.loopLength = 0 ∧ e.linksPerChain = 1048576 :=
    ⟨_, rfl, rfl, rfl, rfl, rfl, rfl, rfl, rfl, rfl, rfl, rfl, rfl, rfl⟩
  have hthreads : e.numThreads.toNat = 2 := by omega
  have hnodes : e.NodesFit := by
    rw [Experiment.NodesFit, hpattern]
    refine ⟨by omega, by omega, by omega, by omega, by omega, ?_⟩
    rw [hlines, hk]
    decide
  have hsettles : unitClocks.Settles e := by
    refine .inr ⟨fun t _ => by norm_num [unitClocks], 0, ?_, by omega, by omega, ?_⟩
    · norm_num [unitClocks, Clocks.lap]
    · refine ⟨by norm_num [unitClocks], ?_⟩
      rw [Clocks.farthest, hseconds, hthreads, if_pos one_pos]
      norm_num [unitClocks]
  have hfits : e.RunFits :=
    ⟨hnodes, .inl ⟨by simp [hop], by simp [hop]⟩, by omega, by omega, by omega⟩
  let pl : Nat → Placement e e.chains := fun _ => .packed e.chains (by omega)
  have hreturn := fun s (hs : ProgramReachable e additiveFeedback unitClocks pl 0 s) =>
    threads_return he hfits hsettles hs
  obtain ⟨s, hs, hfinished⟩ := exists_end_of_acc (fun s hs => (hreturn s hs).2.1) .refl
    (hreturn _ .refl).1
  rw [← hthreads]
  exact ⟨e, he, hzero, pl, s, hs, hfinished, (hreturn s hs).2.2 hfinished⟩

end PChase
