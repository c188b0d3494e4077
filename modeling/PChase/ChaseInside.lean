import PChase.ChaseBounds

/-!
# The chase stays inside and spares its rings

For sizes whose links are in the block the accesses stay inside exactly when the fan-out
of the operation fits behind the last node; and fitting stores leave every ring as it was
built, over any number of calls.
-/

namespace PChase

open CInt CountLoop AffineCycle NextWalk
set_option autoImplicit false

def Experiment.chains (e : Experiment) : Nat := e.chainsPerThread.toNat

/-- Whatever `random()` returns and wherever the blocks are, the rings are built inside
them, every call comes back, and all accesses are inside. -/
def ChaseInside (e : Experiment) : Prop :=
  ∀ random : Nat → Nat → Nat, (∀ c k, random c k < 2147483648) → ∀ pl : Placement e e.chains,
    ∃ rings : Nat → Ring, (∀ c < e.chains, memInit e (draws e (random c)) = some (rings c)) ∧
      ∀ calls, ∃ s, benchCalls pl rings (rings 0).opsPerChain.toNat calls = some s ∧
        ∀ a ∈ s.log, a.Inside e

section Run
variable {e : Experiment} (hs : e.SizesDerived) (hne : e.stride ≠ 0) (hfit : e.NodesFit)
include hs hne hfit

theorem rings_of_fits {random : Nat → Nat → Nat} (hr : ∀ c k, random c k < 2147483648) :
    ∃ (rings : Nat → Ring) (links : Nat → List Int), ∀ c,
      memInit e (draws e (random c)) = some (rings c) ∧
      buildRing e (links c) = some (rings c) ∧ ∀ l ∈ links c, OnRing e l := by
  choose links rings hrings using fun c => memInit_of_fits hs hne hfit (random c) (hr c)
  exact ⟨rings, links, hrings⟩

theorem chase_run (hstores : e.StoresFit) {chains : Nat} (hchains : 0 < chains)
    (pl : Placement e chains) {rings : Nat → Ring} {links : Nat → List Int}
    (hrings : ∀ c < chains, buildRing e (links c) = some (rings c))
    (hlinks : ∀ c < chains, ∀ l ∈ links c, OnRing e l) (calls : Nat) :
    ∃ s, benchCalls pl rings (rings 0).opsPerChain.toNat calls = some s ∧
      Intact chains rings (fun c l => l ∈ links c) s ∧
      ∀ a ∈ s.log, ∃ c < chains, ∃ l, l ∈ links c ∧ AccessAt e c l a := by
  obtain ⟨s, hcalls, hintact, _, hlog⟩ := benchCalls_run pl hchains
    (fun c hc => (buildRing_closed (hrings c hc)).1)
    (storesSpare_of_fits hs hne hfit pl hstores hlinks)
    (buildRing_closed (hrings 0 hchains)).2 calls
  exact ⟨s, hcalls, hintact, hlog⟩

theorem chaseInside_of_fits (hchains : 1 ≤ e.chainsPerThread) (h : e.FanOutFits) :
    ChaseInside e := by
  intro random hr pl
  obtain ⟨rings, links, hrings⟩ := rings_of_fits hs hne hfit hr
  refine ⟨rings, fun c _ => (hrings c).1, ?_⟩
  intro calls
  obtain ⟨s, hcalls, _, hlog⟩ := chase_run hs hne hfit (storesFit_of_fanOut hs hfit h)
    (by unfold Experiment.chains; omega) pl (fun c _ => (hrings c).2.1)
    (fun c _ => (hrings c).2.2) calls
  refine ⟨s, hcalls, ?_⟩
  intro a ha
  obtain ⟨c, _, l, hl, hat⟩ := hlog a ha
  exact inside_of_fits hs hne hfit h ((hrings c).2.2 l hl) hat

end Run

theorem root_of_offsets {e : Experiment} (hs : e.SizesDerived) (hfit : e.NodesFit)
    (hpattern : e.accessPattern = .random) {r : Ring} (hr : memInit e (draws e (fourValues 0
      (e.pagesPerChain.toNat - 1) 0 (e.linesPerPage.toNat - 1))) = some r) :
    r.root = e.lastLink := by
  obtain ⟨hp, hl, hk, hpages, hlines, hlast⟩ := hfit.random hpattern
  simp only [memInit, hpattern] at hr
  obtain ⟨_, _, rfl⟩ := (randomMemInit_eq_some_iff e _ r).mp hr
  have hg := hs.geometry (by omega)
  have hnode := firstPage_link hg (q := e.pagesPerChain.toNat - 1) (c := 0)
    (r := e.linesPerPage.toNat - 1) (by omega) (by omega) (by omega) (by omega) 0
  have hvalue : ((e.pagesPerChain.toNat - 1 : Nat) : Int) * e.linesPerPage +
      (e.linesPerPage.toNat - 1 : Nat) = e.linesPerChain - 1 := by
    rw [hg.linesPerChain_eq, Nat.cast_sub (by omega), Nat.cast_sub (by omega),
      Int.toNat_of_nonneg (by omega), Int.toNat_of_nonneg (by omega)]
    push_cast
    ring
  have hcount := (hfit.random hpattern).lines_of_chain hs
  rw [affineCell_zero (by omega) (by omega), hvalue,
    wrap32_of_bounds (Int.mul_nonneg (by omega) (by omega)) hlast] at hnode
  rw [lastLink_random hpattern, ← hnode]
  simp [randomNode]

section Necessity
variable {e : Experiment} (hs : e.SizesDerived) (hne : e.stride ≠ 0) (hfit : e.NodesFit)
include hs hne hfit

omit hne in
theorem exists_outside (hlast : InBlock e e.lastLink) (h : ¬ e.FanOutFits) (c : Nat) :
    ∃ a, AccessAt e c e.lastLink a ∧ ¬ a.Inside e := by
  unfold Experiment.FanOutFits at h
  rw [not_or, not_or, not_and_or, not_not, not_not] at h
  obtain ⟨hop, hmany, hout⟩ := h
  have hbytes := bytesPerLine_split hs hfit.links_pos
  have hlinks : e.linksPerLine ≠ 0 := by
    have := hfit.links_pos
    omega
  have hblock := block_bytes_le hs hlinks
  have hrange := hs.bytesPerLine_range
  unfold InBlock at hlast
  unfold InInt64 at hrange
  unfold Experiment.StrideInside at hout
  have hcast : ((e.strideLines - 1 : Nat) : Int) = (e.strideLines : Int) - 1 := by omega
  have hex : ∃ j : Nat, 16 * e.linksPerChain < 16 * e.lastLink + j * e.bytesPerLine + 16 :=
    ⟨e.strideLines - 1, by rw [hcast]; omega⟩
  have hfirst := Nat.find_spec hex
  have hmin := fun j hj => Nat.find_min (m := j) hex hj
  have hle := Nat.find_min' hex (m := e.strideLines - 1) (by rw [hcast]; omega)
  generalize Nat.find hex = j at hfirst hmin hle
  cases j with
  | zero =>
    rw [Nat.cast_zero, Int.zero_mul] at hfirst
    omega
  | succ j =>
    have hprev := hmin j (by omega)
    have hstep : ((j + 1 : Nat) : Int) * e.bytesPerLine = j * e.bytesPerLine + e.bytesPerLine := by
      push_cast
      ring
    have h0 : 0 ≤ (j : Int) * e.bytesPerLine := Int.mul_nonneg (by omega) (by omega)
    refine ⟨⟨c, 16 * e.lastLink + (wrap64 ((j + 1 : Nat) * e.bytesPerLine) + 8)⟩,
      ⟨_, (mem_dataOffsets _).mpr (.inr ⟨hop, j + 1, by omega, rfl⟩), rfl⟩, ?_⟩
    rintro ⟨hlow, hhigh⟩
    simp only at hlow hhigh
    rw [wrap64_eq] at hlow hhigh
    split at hlow <;> split at hhigh <;> omega

/-- For some values of `random()` every call visits the last node. -/
theorem visits_last : ∃ random : Nat → Nat, (∀ k, random k < 2147483648) ∧
    ∀ r, memInit e (draws e random) = some r →
      ∀ m, 1 ≤ m → walk r.next r.root m = some r.root →
        ∃ k, 1 ≤ k ∧ k ≤ m ∧ walk r.next r.root k = some e.lastLink := by
  cases hpattern : e.accessPattern with
  | random =>
    obtain ⟨hp, hl, _, hpages, hlines, _⟩ := hfit.random hpattern
    refine ⟨fourValues 0 (e.pagesPerChain.toNat - 1) 0 (e.linesPerPage.toNat - 1),
      fourValues_lt (by omega) (by omega) (by omega) (by omega), ?_⟩
    intro r hr m hm hwalk
    exact ⟨m, hm, Nat.le_refl m, root_of_offsets hs hfit hpattern hr ▸ hwalk⟩
  | strided =>
    have hfits := hfit.strided hpattern
    have hnonneg := lastIndex_nonneg hfits hne
    have hk := hfits.links_pos
    refine ⟨fun _ => 0, fun _ => Nat.zero_lt_succ _, ?_⟩
    intro r hr m hm hwalk
    rw [memInit_eq, memLinks_strided hfits hne hpattern, Option.bind_some,
      buildRing_eq_some_iff] at hr
    obtain ⟨_, _, rfl⟩ := hr
    by_cases hpos : 0 < e.stride
    · simp only [hpos, if_true] at hwalk ⊢
      have hinj : ∀ i < e.lastIndex.toNat + 1, ∀ j < e.lastIndex.toNat + 1,
          (i : Int) * e.step * e.linksPerLine = j * e.step * e.linksPerLine → i = j := by
        intro i _ j _ heq
        have hk0 : e.linksPerLine ≠ 0 := by omega
        have h1 := Int.eq_of_mul_eq_mul_right hk0 heq
        have hstep : e.step ≠ 0 := by
          have := step_pos hne
          omega
        have h2 := Int.eq_of_mul_eq_mul_right hstep h1
        omega
      have hat := ring_walk_of_injOn (fun _ => none)
        (fun k : Nat => (k : Int) * e.step * e.linksPerLine) (by omega) hinj
      have hlast : e.lastLink = (e.lastIndex.toNat : Nat) * e.step * e.linksPerLine := by
        rw [lastLink_strided hpattern, Int.toNat_of_nonneg hnonneg]
      have hlap : m % (e.lastIndex.toNat + 1) = 0 := by
        rw [hat m, Option.some.injEq] at hwalk
        exact hinj _ (Nat.mod_lt _ (by omega)) 0 (by omega) hwalk
      have hge : e.lastIndex.toNat + 1 ≤ m := Nat.le_of_dvd hm (Nat.dvd_of_mod_eq_zero hlap)
      by_cases hzero : e.lastIndex.toNat = 0
      · refine ⟨m, hm, Nat.le_refl m, ?_⟩
        rw [hwalk, hlast, hzero]
      · refine ⟨e.lastIndex.toNat, by omega, by omega, ?_⟩
        rw [hat, Nat.mod_eq_of_lt (by omega), hlast]
    · simp only [hpos, if_false] at hwalk ⊢
      refine ⟨m, hm, Nat.le_refl m, ?_⟩
      rw [hwalk, lastLink_strided hpattern]
      simp

def Placement.packed {e : Experiment} (chains : Nat) (h : 0 ≤ e.linksPerChain) :
    Placement e chains where
  base c := 16 * e.linksPerChain * c
  aligned c _ := Int.dvd_mul_of_dvd_left (Int.dvd_mul_right 16 _)
  disjoint c _ c' _ hne := by
    rcases Nat.lt_or_gt_of_ne hne with hlt | hgt
    · left
      have := Int.mul_le_mul_of_nonneg_left (show (c : Int) + 1 ≤ c' by omega)
        (show 0 ≤ 16 * e.linksPerChain by omega)
      rw [Int.mul_add, Int.mul_one] at this
      exact this
    · right
      have := Int.mul_le_mul_of_nonneg_left (show (c' : Int) + 1 ≤ c by omega)
        (show 0 ≤ 16 * e.linksPerChain by omega)
      rw [Int.mul_add, Int.mul_one] at this
      exact this

theorem fanOutFits_of_chaseInside (hchains : 1 ≤ e.chainsPerThread) (h : ChaseInside e) :
    e.FanOutFits := by
  by_contra hout
  obtain ⟨random, hr, hvisit⟩ := visits_last hs hne hfit
  obtain ⟨links, r, hinit, hbuild, hring⟩ := memInit_of_fits hs hne hfit random hr
  obtain ⟨hclosed, m₀, hm₀, _, hback⟩ := buildRing_closed hbuild
  have hlast : InBlock e e.lastLink := by
    obtain ⟨k, _, _, hk⟩ := hvisit r hinit m₀ hm₀ hback
    obtain ⟨l, hl, hmem⟩ := hclosed.walk_mem k
    rw [hk, Option.some.injEq] at hl
    exact (hring _ (hl ▸ hmem)).inBlock
  have hcount : 0 < e.chains := by
    unfold Experiment.chains
    omega
  have hblock : 0 ≤ e.linksPerChain := by
    unfold InBlock at hlast
    omega
  obtain ⟨rings, hrings, hcalls⟩ := h (fun _ => random) (fun _ => hr) (.packed e.chains hblock)
  obtain ⟨s, hs₁, hlog⟩ := hcalls 1
  have hdecayed : Decayed e.chains rings (Machine.start rings) := fun _ _ _ _ h => h
  obtain ⟨_, m, hm, hwalk, htracks⟩ := bench_tracks (.packed e.chains hblock) hcount hdecayed
    (by simpa [benchCalls] using hs₁)
  obtain ⟨k, hk, hkm, hvisited⟩ := hvisit (rings 0) (hrings 0 hcount) m hm hwalk
  obtain ⟨a, hat, hnot⟩ := exists_outside hs hfit hlast hout 0
  exact hnot (hlog a ((htracks.log_iff a).mpr (.inr ⟨k, hk, hkm, 0, hcount, _, hvisited, hat⟩)))

end Necessity

/-- With links in the block the accesses of every call are inside exactly when the
fan-out of the operation fits. -/
theorem chase_inside_iff {p : Platform} {args : List CStr} {e : Experiment}
    (ha : parseArgs p args = .accepted e) (hfit : e.NodesFit) :
    ChaseInside e ↔ e.FanOutFits := by
  have he := accepted_of_parseArgs ha
  exact ⟨fanOutFits_of_chaseInside he.sizes he.stride_ne hfit he.chainsPerThread_pos,
    chaseInside_of_fits he.sizes he.stride_ne hfit he.chainsPerThread_pos⟩

theorem two_of_four {e : Experiment} (hpattern : e.accessPattern = .strided)
    (hstride : e.stride = 2) (hn : e.linesPerChain = 4) (hk : 1 ≤ e.linksPerLine)
    (hk' : e.linksPerLine ≤ 4) : e.step = 2 ∧ e.lastIndex = 1 ∧ e.strideLines = 2 ∧ e.NodesFit := by
  have hstep : e.step = 2 := by rw [Experiment.step, hstride]; rfl
  have hindex : e.lastIndex = 1 := by rw [Experiment.lastIndex, hstep, hn]; rfl
  have hlines : e.strideLines = 2 := by rw [Experiment.strideLines, hstride]; rfl
  refine ⟨hstep, hindex, hlines, ?_⟩
  unfold Experiment.NodesFit
  rw [hpattern]
  exact ⟨by omega, by omega, by rw [hindex, hstep]; decide, by rw [hindex, hstep]; omega⟩

theorem forward_two_of_four_inside :
    ∃ e, parseArgs .single ["-p".toList, "256".toList, "-c".toList, "256".toList, "-a".toList,
      "forward".toList, "2".toList, "-m".toList, "load_all".toList] = .accepted e ∧
      ChaseInside e := by
  obtain ⟨e, he, hpattern, hn, hk, hstride, hbytes, hlinks⟩ : ∃ e, parseArgs .single
      ["-p".toList, "256".toList, "-c".toList, "256".toList, "-a".toList, "forward".toList,
        "2".toList, "-m".toList, "load_all".toList] = .accepted e ∧
      e.accessPattern = .strided ∧ e.linesPerChain = 4 ∧ e.linksPerLine = 4 ∧ e.stride = 2 ∧
      e.bytesPerLine = 64 ∧ e.linksPerChain = 16 := ⟨_, rfl, rfl, rfl, rfl, rfl, rfl, rfl⟩
  obtain ⟨hstep, hindex, hlines, hfit⟩ :=
    two_of_four hpattern hstride hn (by omega) (by omega)
  refine ⟨e, he, (chase_inside_iff he hfit).mpr (.inr (.inr ?_))⟩
  rw [Experiment.StrideInside, lastLink_strided hpattern, hindex, hstep, hlines, hk, hbytes, hlinks]
  decide

/-- The second of three lines at a stride of two has no line behind it to load. -/
theorem forward_two_of_three_outside :
    ∃ e, parseArgs .single ["-p".toList, "192".toList, "-c".toList, "192".toList, "-a".toList,
      "forward".toList, "2".toList, "-m".toList, "load_all".toList] = .accepted e ∧
      ∃ (pl : Placement e e.chains) (r : Ring) (s : Machine),
        memInit e (draws e fun _ => 0) = some r ∧
        benchCalls pl (fun _ => r) r.opsPerChain.toNat 1 = some s ∧
        (⟨0, 200⟩ : Access) ∈ s.log ∧ 16 * e.linksPerChain = 192 :=
  ⟨_, rfl, ⟨fun _ => 0, by decide, by decide⟩, _, _, rfl, rfl, by decide, rfl⟩

/-- Fitting stores overlap no pointer of any ring of the thread, so that after any number
of calls every pointer is the one its initialiser wrote. -/
theorem rings_stay_intact {p : Platform} {args : List CStr} {e : Experiment}
    (ha : parseArgs p args = .accepted e) (hfit : e.NodesFit) (hstores : e.StoresFit)
    (random : Nat → Nat → Nat) (hr : ∀ c k, random c k < 2147483648)
    (pl : Placement e e.chains) :
    ∃ rings : Nat → Ring, (∀ c < e.chains, memInit e (draws e (random c)) = some (rings c)) ∧
      ∀ calls, ∃ s, benchCalls pl rings (rings 0).opsPerChain.toNat calls = some s ∧
        (∀ c < e.chains, ∀ l, (rings c).next l ≠ none → s.mem c l = (rings c).next l) ∧
        (e.memOperation.isStore = true → ∀ a ∈ s.log, ∀ c < e.chains, ∀ l,
          (rings c).next l ≠ none → overlaps pl c l (pl.base a.chain + a.offset) = false) := by
  have he := accepted_of_parseArgs ha
  obtain ⟨rings, links, hrings⟩ := rings_of_fits he.sizes he.stride_ne hfit hr
  have hmem : ∀ c l, (rings c).next l ≠ none → l ∈ links c := fun c l =>
    mem_links_of_next (hrings c).2.1
  refine ⟨rings, fun c _ => (hrings c).1, ?_⟩
  intro calls
  have hcount : 0 < e.chains := by
    have := he.chainsPerThread_pos
    unfold Experiment.chains
    omega
  obtain ⟨s, hcalls, hintact, hlog⟩ := chase_run he.sizes he.stride_ne hfit hstores hcount pl
    (fun c _ => (hrings c).2.1) (fun c _ => (hrings c).2.2) calls
  refine ⟨s, hcalls, fun c hc l hl => hintact c hc l (hmem c l hl), ?_⟩
  intro hstore a hmemlog c hc l hl
  obtain ⟨c', hc', l', hl', o, ho, rfl⟩ := hlog a hmemlog
  have hspare := storesSpare_of_fits he.sizes he.stride_ne hfit pl hstores
    (fun c _ => (hrings c).2.2) hstore c' hc' l' hl' o ho c hc l (hmem c l hl)
  rw [Int.add_assoc] at hspare
  exact hspare

/-- Lines of 40 bytes, in two full strides of two. -/
theorem rings_stay_intact_two_of_four :
    ∃ e, parseArgs .single ["-l".toList, "40".toList, "-p".toList, "160".toList, "-c".toList,
      "160".toList, "-a".toList, "forward".toList, "2".toList, "-m".toList, "store_all".toList] =
        .accepted e ∧
      ∃ (pl : Placement e e.chains) (rings : Nat → Ring),
        memInit e (draws e fun _ => 0) = some (rings 0) ∧
        ∀ calls, ∃ s, benchCalls pl rings (rings 0).opsPerChain.toNat calls = some s ∧
          ∀ l, (rings 0).next l ≠ none → s.mem 0 l = (rings 0).next l := by
  obtain ⟨e, he, hpattern, hn, hk, hstride, hbytes, hlinks, hchains⟩ : ∃ e, parseArgs .single
      ["-l".toList, "40".toList, "-p".toList, "160".toList, "-c".toList, "160".toList,
        "-a".toList, "forward".toList, "2".toList, "-m".toList, "store_all".toList] =
        .accepted e ∧ e.accessPattern = .strided ∧ e.linesPerChain = 4 ∧ e.linksPerLine = 2 ∧
      e.stride = 2 ∧ e.bytesPerLine = 40 ∧ e.linksPerChain = 8 ∧ e.chains = 1 :=
    ⟨_, rfl, rfl, rfl, rfl, rfl, rfl, rfl, rfl⟩
  obtain ⟨hstep, hindex, hlines, hfit⟩ :=
    two_of_four hpattern hstride hn (by omega) (by omega)
  have hstores : e.StoresFit := by
    refine .inr (.inr (.inr ⟨hpattern, ?_⟩))
    rw [Experiment.StrideInside, lastLink_strided hpattern, hindex, hstep, hlines, hk, hbytes,
      hlinks]
    decide
  obtain ⟨rings, hrings, hcalls⟩ := rings_stay_intact he hfit hstores
    (fun _ _ => 0) (fun _ _ => Nat.zero_lt_succ _) (.packed e.chains (by omega))
  refine ⟨e, he, .packed e.chains (by omega), rings, hrings 0 (by omega), ?_⟩
  intro calls
  obtain ⟨s, hs, hintact, _⟩ := hcalls calls
  exact ⟨s, hs, hintact 0 (by omega)⟩

/-- At 24 bytes to a line the store behind the first node runs into the second. -/
theorem short_lines_lose_pointer :
    ∃ e, parseArgs .single ["-l".toList, "24".toList, "-p".toList, "96".toList, "-c".toList,
      "96".toList, "-a".toList, "forward".toList, "2".toList, "-m".toList, "store_all".toList] =
        .accepted e ∧
      ∃ (pl : Placement e e.chains) (r : Ring) (s : Machine),
        memInit e (draws e fun _ => 0) = some r ∧ r.next 2 = some 0 ∧
        benchCalls pl (fun _ => r) r.opsPerChain.toNat 1 = some s ∧ s.mem 0 2 = none ∧
        benchCalls pl (fun _ => r) r.opsPerChain.toNat 2 = none :=
  ⟨_, rfl, ⟨fun _ => 0, by decide, by decide⟩, _, _, rfl, rfl, rfl, rfl, rfl⟩

end PChase
