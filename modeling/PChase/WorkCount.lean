import PChase.ChaseReturns
import PChase.LapRounds
import PChase.MirrorRings
import PChase.ReproducibleDraws

/-!
# The count that is published is the count of every call

All chains of a strided run get the same ring, so it does not matter which thread stores
`_ops_per_chain` last: what `main` reads is the number of rounds of each call.
-/

namespace PChase

open NextWalk
set_option autoImplicit false

variable {S : Type} {e : Experiment} {g : Generator S} {t : Nat} {σ σ' : InitShared S}
  {l l' : InitLocal}

def InitPoint.isStoring : InitPoint → Bool
  | .lockOps | .storeOps => true
  | _ => false

theorem initStep_ops (h : initStep e g t σ l = some (σ', l')) :
    (∃ r, memInit e (drawnDraws l.drawn) = some r ∧ l'.point.isStoring = true ∧
        l'.localOpsPerChain = r.opsPerChain ∧ l'.built = l.built ++ [⟨l.drawn, r⟩] ∧
        σ'.opsPerChain = σ.opsPerChain) ∨
      (l.point.isStoring = true ∧ l'.point.isStoring = false ∧ l'.built = l.built ∧
        σ'.opsPerChain = l.localOpsPerChain) ∨
      (l'.point.isStoring = l.point.isStoring ∧ l'.localOpsPerChain = l.localOpsPerChain ∧
        l'.built = l.built ∧ σ'.opsPerChain = σ.opsPerChain) := by
  cases initStep_moves h with
  | link hp hr => exact .inl ⟨_, hr, rfl, rfl, rfl, rfl⟩
  | storeOps hp =>
    rw [hp]
    exact .inr (.inl ⟨rfl, rfl, rfl, rfl⟩)
  | _ hp =>
    rw [hp]
    exact .inr (.inr ⟨rfl, rfl, rfl, rfl⟩)

/-- The chains of the thread have rings of `n` nodes, and once it has stored a count the
shared one is `n`. -/
structure Published (e : Experiment) (n : Int) (σ : InitShared S) (l : InitLocal) : Prop where
  built : ∀ b ∈ l.built, ∃ d, memInit e d = some b.ring
  counted : l.point.isStoring = true → l.localOpsPerChain = n
  stored : l.built ≠ [] → l.point.isStoring = false → σ.opsPerChain = n

theorem Published.own {n : Int} (hall : ∀ d r, memInit e d = some r → r.opsPerChain = n)
    (hI : Published e n σ l) (h : initStep e g t σ l = some (σ', l')) : Published e n σ' l' := by
  rcases initStep_ops h with ⟨r, hr, hpoint, hlocal, hbuilt, _⟩ | ⟨hpoint, hpoint', hbuilt, hops⟩ |
    ⟨hpoint, hlocal, hbuilt, hops⟩
  · refine ⟨?_, fun _ => hlocal.trans (hall _ r hr), ?_⟩
    · intro b hb
      rw [hbuilt, List.mem_append, List.mem_singleton] at hb
      cases hb with
      | inl hold => exact hI.built b hold
      | inr hnew =>
        subst hnew
        exact ⟨_, hr⟩
    · intro _ hnot
      rw [hpoint] at hnot
      simp at hnot
  · refine ⟨hbuilt ▸ hI.built, ?_, fun _ _ => hops.trans (hI.counted hpoint)⟩
    intro hstoring
    rw [hpoint'] at hstoring
    simp at hstoring
  · refine ⟨hbuilt ▸ hI.built, ?_, ?_⟩
    · rw [hpoint, hlocal]
      exact hI.counted
    · rw [hpoint, hbuilt, hops]
      exact hI.stored

theorem Published.other {n : Int} {k : InitLocal} (ht : Published e n σ l) (hu : Published e n σ k)
    (h : initStep e g t σ l = some (σ', l')) : Published e n σ' k := by
  refine ⟨hu.built, hu.counted, ?_⟩
  intro hne hpoint
  rcases initStep_ops h with ⟨_, _, _, _, _, hops⟩ | ⟨hstoring, _, _, hops⟩ | ⟨_, _, _, hops⟩
  · exact hops.trans (hu.stored hne hpoint)
  · exact hops.trans (ht.counted hstoring)
  · exact hops.trans (hu.stored hne hpoint)

theorem published_of_reachable {n : Int} (hall : ∀ d r, memInit e d = some r → r.opsPerChain = n)
    {start : S} {s : Threads (InitShared S) InitLocal}
    (hs : InitReachable e g start s) :
    ∀ t < e.numThreads.toNat, Published e n s.shared (s.locals t) := by
  refine Threads.Run.invariant (I := fun _ σ l => Published e n σ l) (fun _ hI h => hI.own hall h)
    (fun _ ht hu h => ht.other hu h) hs ?_
  intro t _
  exact ⟨by simp [initialThreads], by simp [initialThreads, InitPoint.isStoring],
    by simp [initialThreads]⟩

def InitLocal.ring (l : InitLocal) (c : Nat) : Ring :=
  (l.built[c]?).elim ⟨0, fun _ => none, 0⟩ BuiltChain.ring

/-- Once all threads have initialised their chains, in whatever order, the shared count is
the number of rounds of every call of every thread, and each call takes every chain once
round its ring. -/
theorem strided_work_counted {p : Platform} {args : List CStr}
    (ha : parseArgs p args = .accepted e) (hstrided : e.accessPattern = .strided)
    (hlines : 1 ≤ e.linesPerChain) (hlinks : 1 ≤ e.linksPerLine)
    (hcounter : e.linesPerChain + e.step < 2147483648) (hnodes : e.linksPerChain < 2147483648)
    (hop : e.memOperation ≠ .storeAll) {start : S} {s : Threads (InitShared S) InitLocal}
    (hs : InitReachable e g start s)
    (hfinished : ∀ t < e.numThreads.toNat, (s.locals t).point = .finished) :
    ∃ n : Nat, s.shared.opsPerChain = n ∧
      ∀ t < e.numThreads.toNat, ∀ (pl : Placement e e.chainsPerThread.toNat) (fuel : Nat),
        n ≤ fuel → ∀ calls, ∃ m m',
          benchCalls pl (s.locals t).ring fuel calls = some m ∧
          benchRounds pl ((s.locals t).ring 0).root fuel
            { m with pos := fun c => ((s.locals t).ring c).root } = some (n, m') ∧
          benchCalls pl (s.locals t).ring fuel (calls + 1) = some m' ∧
          ∀ c < e.chainsPerThread.toNat, m'.pos c = ((s.locals t).ring c).root ∧
            ∀ k, walk ((s.locals t).ring c).next ((s.locals t).ring c).root k =
              some ((s.locals t).ring c).root ↔ n ∣ k := by
  have hacc := accepted_of_parseArgs ha
  have h := hacc.smallChain hlines hlinks hcounter hnodes
  obtain ⟨r, nodes, hr, hlap, hperm, hops⟩ := memInit_lap h hstrided
  have hlength : (nodes.length : Int) = r.opsPerChain := by
    rw [hperm.length_eq, h.heads_length, hops]
  have hall : ∀ d r', memInit e d = some r' → r'.opsPerChain = nodes.length := by
    intro d r' hd
    rw [hr d, Option.some.injEq] at hd
    rw [← hd, hlength]
  have hpublished := published_of_reachable hall hs
  have hthreads := hacc.numThreads_pos
  have hchains := hacc.chainsPerThread_pos
  have hbuilt : ∀ t < e.numThreads.toNat,
      ((s.locals t).built.length : Int) = e.chainsPerThread := fun t ht =>
    finished_of_reachable ha hs ht (hfinished t ht)
  have hsame : ∀ t < e.numThreads.toNat, ∀ c < e.chainsPerThread.toNat,
      (s.locals t).ring c = r := by
    intro t ht c hc
    have hcount := hbuilt t ht
    have hlt : c < (s.locals t).built.length := by omega
    obtain ⟨d, hd⟩ := (hpublished t ht).built _ (List.getElem_mem hlt)
    rw [hr d, Option.some.injEq] at hd
    rw [InitLocal.ring, List.getElem?_eq_getElem hlt]
    exact hd.symm
  refine ⟨nodes.length, ?_, ?_⟩
  · have hfirst := hbuilt 0 (by omega)
    refine (hpublished 0 (by omega)).stored ?_ ?_
    · intro hnil
      rw [hnil, List.length_nil] at hfirst
      omega
    · rw [hfinished 0 (by omega)]
      rfl
  · intro t ht pl fuel hfuel calls
    have hlaps : RingLaps e.chainsPerThread.toNat (s.locals t).ring (fun _ => nodes)
        nodes.length := by
      refine ⟨fun c hc => ?_, fun _ _ => rfl⟩
      rw [hsame t ht c hc]
      exact hlap
    obtain ⟨m, m', hcalls, hrounds, hnext, hpos, _⟩ := hlaps.calls pl
      (storesSpare_of_data pl _ (dataOffsets_data (.inl hop))) (by omega) hfuel calls
    exact ⟨m, m', hcalls, hrounds, hnext, fun c hc => ⟨hpos c hc, hlaps.back_iff hc⟩⟩

/-- Two threads of two chains each; the second waits for the mutex while the first stores. -/
theorem two_threads_counted :
    ∃ e s, parseArgs .single ["-p".toList, "256".toList, "-c".toList, "256".toList, "-a".toList,
        "forward".toList, "1".toList, "-r".toList, "2".toList, "-t".toList, "2".toList] =
          .accepted e ∧
      InitReachable e additiveFeedback 0 s ∧ s.shared.opsPerChain = 4 ∧
      ∀ pl : Placement e e.chainsPerThread.toNat, ∃ m m',
        benchCalls pl (s.locals 1).ring 4 2 = some m ∧
        benchRounds pl ((s.locals 1).ring 0).root 4
          { m with pos := fun c => ((s.locals 1).ring c).root } = some (4, m') := by
  obtain ⟨e, he, hpattern, hthreads, hlines, hlinks, hstride, hnodes, hop, hrun⟩ :
      ∃ e, parseArgs .single ["-p".toList, "256".toList, "-c".toList, "256".toList, "-a".toList,
        "forward".toList, "1".toList, "-r".toList, "2".toList, "-t".toList, "2".toList] =
          .accepted e ∧
      e.accessPattern = .strided ∧ e.numThreads = 2 ∧ e.linesPerChain = 4 ∧ e.linksPerLine = 4 ∧
      e.stride = 1 ∧ e.linksPerChain = 16 ∧ e.memOperation = .na ∧
      ((Threads.follow (initStep e additiveFeedback) 2
          (List.replicate 3 0 ++ List.replicate 2 1 ++ List.replicate 8 0 ++ List.replicate 9 1)
          (initialThreads e additiveFeedback 0)).map fun s =>
            ((s.locals 0).point, (s.locals 1).point, s.shared.opsPerChain)) =
        some (.finished, .finished, 4) :=
    ⟨_, rfl, rfl, rfl, rfl, rfl, rfl, rfl, rfl, by decide +kernel⟩
  obtain ⟨s, hs, hpoints⟩ := Option.map_eq_some_iff.mp hrun
  simp only [Prod.mk.injEq] at hpoints
  obtain ⟨hfirst, hsecond, hops⟩ := hpoints
  have hreach : InitReachable e additiveFeedback 0 s := by
    rw [InitReachable, hthreads]
    exact Threads.run_of_follow hs
  have hstep : e.step = 1 := by rw [Experiment.step, hstride]; rfl
  have hfinished : ∀ t < e.numThreads.toNat, (s.locals t).point = .finished := by
    intro t ht
    have hcases : t = 0 ∨ t = 1 := by omega
    cases hcases with
    | inl h => rw [h, hfirst]
    | inr h => rw [h, hsecond]
  obtain ⟨n, hn, hcalls⟩ := strided_work_counted he hpattern (by omega) (by omega) (by omega)
    (by omega) (by rw [hop]; decide) hreach hfinished
  obtain rfl : n = 4 := by omega
  refine ⟨e, s, he, hreach, hn, fun pl => ?_⟩
  obtain ⟨m, m', hbefore, hrounds, _⟩ := hcalls 1 (by omega) pl 4 (Nat.le_refl 4) 2
  exact ⟨m, m', hbefore, hrounds⟩

end PChase
