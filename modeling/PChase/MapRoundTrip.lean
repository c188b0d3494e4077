import Mathlib.Data.List.GetD
import PChase.Accepted
import PChase.MapReading
import PChase.MapText

/-!
# Domain maps round trip

Reading back what the report prints: `alloc_map` on any printed table, and a second run
on the map of a first one.
-/

namespace PChase

open CInt CountLoop
set_option autoImplicit false

theorem mapText_congr (n m : Nat) {ts ts' : Nat → Int} {cs cs' : Nat → Nat → Int} (hn : 1 ≤ n)
    (hm : 1 ≤ m) (hts : ∀ i < n, ts i = ts' i) (hcs : ∀ i < n, ∀ j < m, cs i j = cs' i j) :
    mapText n m ts cs = mapText n m ts' cs' := by
  have hgroup : ∀ i < n, groupText m (ts i) (cs i) = groupText m (ts' i) (cs' i) := by
    intro i hi
    unfold groupText
    rw [hts i hi, printChains_eq, printChains_eq, hcs i hi 0 (by omega)]
    congr 3
    apply List.flatMap_congr
    intro j hj
    have hj' := List.mem_range.mp hj
    rw [hcs i hi (0 + j + 1) (by omega)]
  unfold mapText
  rw [printGroups_eq, printGroups_eq, hgroup 0 (by omega)]
  congr 1
  apply List.flatMap_congr
  intro i hi
  have hi' := List.mem_range.mp hi
  rw [hgroup (0 + i + 1) (by omega)]

/-- The record that a map of `n` threads with `m` chains each leads to. -/
structure Experiment.HasMap (e : Experiment) (n m : Nat) (ts : Nat → Int)
    (cs : Nat → Nat → Int) : Prop where
  numThreads_eq : e.numThreads = n
  chainsPerThread_eq : e.chainsPerThread = m
  threadDomain_eq : e.threadDomain = (List.range n).map fun i => some (ts i)
  chainDomain_eq : e.chainDomain =
    (List.range n).map fun i => (List.range m).map fun j => some (cs i j)

theorem mapFits_mapText {n m : Nat} (hn : 1 ≤ n) (hm : 1 ≤ m) (hn' : n < 2147483648)
    (hm' : m < 2147483648) {ts : Nat → Int} {cs : Nat → Nat → Int} (hts : ∀ i, IsDomain (ts i))
    (hcs : ∀ i j, IsDomain (cs i j)) : MapFits (mapText n m ts cs) ∧
      1 + (mapText n m ts cs).count ';' = n ∧ mapChains (mapText n m ts cs) = m ∧
      scanned (mapText n m ts cs) = (List.range n).map fun i => printedGroup m (ts i) (cs i) := by
  have hthreads : 1 + (mapText n m ts cs).count ';' = n := by
    rw [mapText, count_printGroups hts hcs]
    omega
  have hchains : mapChains (mapText n m ts cs) = m := by
    rw [mapChains, mapText, takeWhile_printGroups hts hcs, (count_groupText m (hts 0) (hcs 0)).2]
    omega
  have hscan : scanned (mapText n m ts cs) =
      (List.range n).map fun i => printedGroup m (ts i) (cs i) := by
    have hrun := scannedFrom_printGroups hm hts hcs 0 (n - 1) _
      (lt_length_printGroups m hts cs 0 (n - 1))
    simp only [Nat.zero_add, Nat.sub_add_cancel hn] at hrun
    exact hrun
  refine ⟨⟨by omega, by omega, ?_⟩, hthreads, hchains, hscan⟩
  intro g hg
  rw [hscan] at hg
  obtain ⟨i, _, rfl⟩ := List.mem_map.mp hg
  constructor
  · exact (length_printInt (hts i)).trans (by omega)
  · intro text htext
    obtain ⟨j, _, rfl⟩ := List.mem_map.mp htext
    exact (length_printInt (hcs i j)).trans (by omega)

theorem allocMap_of_isDomain (e : Experiment) {n m : Nat} (hn : 1 ≤ n) (hm : 1 ≤ m)
    (hn' : n < 2147483648) (hm' : m < 2147483648) {ts : Nat → Int} {cs : Nat → Nat → Int}
    (hts : ∀ i, IsDomain (ts i)) (hcs : ∀ i j, IsDomain (cs i j)) :
    ∃ e', allocMap e (mapText n m ts cs) = .ok e' ∧
      e'.HasMap n m (fun i => (ts i).tmod e.numNumaDomains)
        fun i j => (cs i j).tmod e.numNumaDomains := by
  obtain ⟨hfits, hthreads, hchains, hscan⟩ := mapFits_mapText hn hm hn' hm' hts hcs
  have hfew : ¬ TooManyChains (mapText n m ts cs) := by
    intro hmany
    obtain ⟨g, hg, hlong⟩ := hmany
    rw [hscan] at hg
    obtain ⟨i, _, rfl⟩ := List.mem_map.mp hg
    simp only [hchains, printedGroup, List.length_map, List.length_range] at hlong
    omega
  obtain ⟨e', hrun⟩ := allocMap_of_few (e := e) hfits hfew
  obtain ⟨_, _, hn₁, hm₁, hthread, hchain⟩ := allocMap_ok hrun
  rw [countThreads_of_fits hfits.threads, hthreads] at hn₁ hthread hchain
  rw [countChains_of_fits hfits.chains, hchains] at hm₁ hchain
  rw [Int.toNat_natCast] at hthread hchain
  rw [Int.toNat_natCast] at hchain
  refine ⟨e', hrun, hn₁, hm₁, ?_, ?_⟩
  · rw [hthread, hscan]
    apply List.map_congr_left
    intro i hi
    simp [List.mem_range.mp hi, printedGroup, domainNumber_printInt (hts i)]
  · rw [hchain, hscan]
    apply List.map_congr_left
    intro i hi
    apply List.map_congr_left
    intro j hj
    simp [List.mem_range.mp hi, List.mem_range.mp hj, printedGroup,
      domainNumber_printInt (hcs i j)]

theorem allocMap_mapText (e : Experiment) {n m : Nat} (hn : 1 ≤ n) (hm : 1 ≤ m)
    (hn' : n < 2147483648) (hm' : m < 2147483648) {ts : Nat → Int} {cs : Nat → Nat → Int}
    (hts : ∀ i < n, IsDomain (ts i)) (hcs : ∀ i < n, ∀ j < m, IsDomain (cs i j)) :
    ∃ e', allocMap e (mapText n m ts cs) = .ok e' ∧
      e'.HasMap n m (fun i => (ts i).tmod e.numNumaDomains)
        fun i j => (cs i j).tmod e.numNumaDomains := by
  have hzero : IsDomain 0 := ⟨by omega, by omega⟩
  have hts' : ∀ i, IsDomain (if i < n then ts i else 0) := by
    intro i
    split
    · exact hts i (by assumption)
    · exact hzero
  have hcs' : ∀ i j, IsDomain (if i < n ∧ j < m then cs i j else 0) := by
    intro i j
    split
    · rename_i h
      exact hcs i h.1 j h.2
    · exact hzero
  obtain ⟨e', hmap, hthreads, hchains, hthread, hchain⟩ := allocMap_of_isDomain e hn hm hn' hm'
    hts' hcs'
  refine ⟨e', ?_, hthreads, hchains, ?_, ?_⟩
  · rw [← hmap]
    congr 1
    exact mapText_congr n m hn hm (fun i hi => (if_pos hi).symm)
      fun i hi j hj => (if_pos (And.intro hi hj)).symm
  · rw [hthread]
    apply List.map_congr_left
    intro i hi
    rw [if_pos (List.mem_range.mp hi)]
  · rw [hchain]
    apply List.map_congr_left
    intro i hi
    apply List.map_congr_left
    intro j hj
    rw [if_pos ⟨List.mem_range.mp hi, List.mem_range.mp hj⟩]

/-- Every entry was written, and names one of so many domains. -/
def Experiment.DomainsBelow (e : Experiment) (domains : Int) : Prop :=
  (∀ d ∈ e.threadDomain, ∃ x, d = some x ∧ 0 ≤ x ∧ x < domains) ∧
    ∀ row ∈ e.chainDomain, ∀ d ∈ row, ∃ x, d = some x ∧ 0 ≤ x ∧ x < domains

theorem handleOption_numa (p : Platform) (e : Experiment) (rest : List CStr) :
    handleOption p "-n".toList e rest = numaOption e rest := by
  have hfind : (optionTable p).find? (fun entry =>
      strcasecmp "-n".toList entry.1 || strcasecmp "-n".toList entry.2.1) =
        some ("-n", "--numa", numaOption) := by
    simp (disch := (dsimp only; decide)) only [optionTable, List.find?_cons_of_neg,
      List.find?_cons_of_pos]
  simp only [handleOption, hfind]

theorem parseLoop_map (p : Platform) (s : CStr) :
    parseLoop p 0 {} false ["-n".toList, "map".toList, s] =
      .ok ({ numaPlacement := .numaMap, placementMap := some s }, false) := by
  have hoption : numaOption {} ["map".toList, s] =
      .ok ({ numaPlacement := .numaMap, placementMap := some s }, 2) := by
    simp only [numaOption, withWord, List.tail_cons]
    rw [if_neg (by decide), if_neg (by decide), if_neg (by decide), if_pos (by decide)]
  rw [parseLoop, if_neg (by decide), handleOption_numa, hoption]
  rfl

theorem deriveSizes_placement {e e' : Experiment} (h : deriveSizes e = some e') :
    e'.numaPlacement = e.numaPlacement ∧ e'.placementMap = e.placementMap := by
  simp only [deriveSizes, Option.bind_eq_bind, Option.bind_eq_some_iff, Option.pure_def,
    Option.some.injEq] at h
  obtain ⟨L, _, P, _, K, _, rfl⟩ := h
  exact ⟨rfl, rfl⟩

theorem allocate_map {p : Platform} {e e₁ e' : Experiment} {s : CStr}
    (hmode : e.numaPlacement = .numaMap) (hmap : e.placementMap = some s)
    (hsizes : deriveSizes e = some e₁) (h : allocMap (e₁.setNuma p) s = .ok e') :
    allocate p e = .accepted e' := by
  obtain ⟨hmode₁, hmap₁⟩ := deriveSizes_placement hsizes
  simp only [allocate, hsizes, hmode₁, hmode, hmap₁, hmap, Option.getD_some, h]

theorem map_range_getD {α : Type} (xs : List α) (d : α) :
    (List.range xs.length).map (fun i => xs.getD i d) = xs := by
  apply List.ext_getElem
  · simp
  · intro i h₁ h₂
    simp [h₂]

/-- A table whose entries all name one of the domains there are is read back unchanged. -/
theorem Experiment.DomainsBelow.read_back {e e' : Experiment} {domains : Int}
    (h : e.DomainsBelow domains) (ht : e.Tables)
    (hmap : e'.HasMap e.numThreads.toNat e.chainsPerThread.toNat
      (fun i => ((e.threadDomain.getD i none).getD 0).tmod domains)
      fun i j => (((e.chainDomain.getD i []).getD j none).getD 0).tmod domains) :
    e'.threadDomain = e.threadDomain ∧ e'.chainDomain = e.chainDomain := by
  have hentry : ∀ d : Option Int, (∃ x, d = some x ∧ 0 ≤ x ∧ x < domains) →
      some ((d.getD 0).tmod domains) = d := by
    intro d hd
    obtain ⟨x, rfl, h0, hx⟩ := hd
    rw [Option.getD_some, Int.tmod_eq_emod_of_nonneg h0, Int.emod_eq_of_lt h0 hx]
  constructor
  · rw [hmap.threadDomain_eq, ← ht.threads]
    conv_rhs => rw [← map_range_getD e.threadDomain none]
    apply List.map_congr_left
    intro i hi
    apply hentry
    rw [List.getD_eq_getElem _ _ (List.mem_range.mp hi)]
    exact h.1 _ (List.getElem_mem _)
  · rw [hmap.chainDomain_eq, ← ht.groups]
    conv_rhs => rw [← map_range_getD e.chainDomain []]
    apply List.map_congr_left
    intro i hi
    have hrow : e.chainDomain.getD i [] ∈ e.chainDomain := by
      rw [List.getD_eq_getElem _ _ (List.mem_range.mp hi)]
      exact List.getElem_mem _
    rw [← ht.chains _ hrow]
    conv_rhs => rw [← map_range_getD (e.chainDomain.getD i []) none]
    apply List.map_congr_left
    intro j hj
    apply hentry
    rw [List.getD_eq_getElem _ _ (List.mem_range.mp hj)]
    exact h.2 _ hrow _ (List.getElem_mem _)

def Experiment.SameMap (e e' : Experiment) : Prop :=
  e'.numThreads = e.numThreads ∧ e'.chainsPerThread = e.chainsPerThread ∧
    e'.threadDomain = e.threadDomain ∧ e'.chainDomain = e.chainDomain

/-- The map of an accepted configuration, read on a machine with as many domains. -/
theorem allocMap_domainMap {p : Platform} {args : List CStr} {e : Experiment}
    (h : parseArgs p args = .accepted e) (hd : e.DomainsBelow (p.numaMaxNode + 1)) :
    ∃ s, e.domainMap = some s ∧ ∀ e₁ : Experiment, e₁.numNumaDomains = p.numaMaxNode + 1 →
      ∃ e', allocMap e₁ s = .ok e' ∧ e.SameMap e' := by
  have ht := tables_of_parseArgs h
  have ha := accepted_of_parseArgs h
  have hn := ha.numThreads_pos
  have hm := ha.chainsPerThread_pos
  have hn' := ht.numThreads_lt
  have hm' := ht.chainsPerThread_lt
  have hp := p.numaMaxNode_lt
  have hn₀ : (e.numThreads.toNat : Int) = e.numThreads := by omega
  have hm₀ : (e.chainsPerThread.toNat : Int) = e.chainsPerThread := by omega
  have hprint := printMap_of_lt (n := e.numThreads.toNat) (m := e.chainsPerThread.toNat)
    (by omega) (by omega) (fun i => (e.threadDomain.getD i none).getD 0)
    fun i j => ((e.chainDomain.getD i []).getD j none).getD 0
  rw [hn₀, hm₀] at hprint
  refine ⟨_, hprint, ?_⟩
  · intro e₁ hdomains
    have hentry : ∀ d : Option Int, (∃ x, d = some x ∧ 0 ≤ x ∧ x < p.numaMaxNode + 1) →
        IsDomain (d.getD 0) := by
      intro d hd
      obtain ⟨x, rfl, h0, hx⟩ := hd
      exact ⟨h0, by simpa using by omega⟩
    have hthread : ∀ i < e.numThreads.toNat, IsDomain ((e.threadDomain.getD i none).getD 0) := by
      intro i hi
      rw [← ht.threads] at hi
      rw [List.getD_eq_getElem _ _ hi]
      exact hentry _ (hd.1 _ (List.getElem_mem _))
    have hchain : ∀ i < e.numThreads.toNat, ∀ j < e.chainsPerThread.toNat,
        IsDomain (((e.chainDomain.getD i []).getD j none).getD 0) := by
      intro i hi j hj
      rw [← ht.groups] at hi
      rw [List.getD_eq_getElem _ _ hi]
      have hrow := List.getElem_mem hi
      rw [← ht.chains _ hrow] at hj
      rw [List.getD_eq_getElem _ _ hj]
      exact hentry _ (hd.2 _ hrow _ (List.getElem_mem _))
    obtain ⟨e', hmap, hhas⟩ := allocMap_mapText e₁ (by omega) (by omega) (by omega) (by omega)
      hthread hchain
    rw [hdomains] at hhas
    obtain ⟨hthreads, hchains⟩ := hd.read_back ht hhas
    refine ⟨e', hmap, ?_, ?_, hthreads, hchains⟩
    · rw [hhas.numThreads_eq, hn₀]
    · rw [hhas.chainsPerThread_eq, hm₀]

/-- Printing and reading a domain map are inverse up to the number of domains, and the map
of a run makes any further run that is given it use the same threads, chains and domains. -/
theorem map_round_trip :
    (∀ (e : Experiment) (n m : Nat) (ts : Nat → Int) (cs : Nat → Nat → Int), 1 ≤ n → 1 ≤ m →
      1 ≤ e.numNumaDomains → (∀ i < n, IsDomain (ts i)) →
      (∀ i < n, ∀ j < m, IsDomain (cs i j)) →
      (n < 2147483648 → m < 2147483648 → (printMap n m ts cs).isSome) ∧
        ∀ s, printMap n m ts cs = some s → ∃ e', allocMap e s = .ok e' ∧
          e'.HasMap n m (fun i => ts i % e.numNumaDomains) fun i j => cs i j % e.numNumaDomains) ∧
    ∀ (p : Platform) (args : List CStr) (e : Experiment), parseArgs p args = .accepted e →
      e.DomainsBelow (p.numaMaxNode + 1) → ∃ s, e.domainMap = some s ∧
        (∃ e', parseArgs p ["-n".toList, "map".toList, s] = .accepted e' ∧ e.SameMap e') ∧
        ∀ (args' : List CStr) (e₀ : Experiment), parseLoop p 0 {} false args' = .ok (e₀, false) →
          e₀.numaPlacement = .numaMap → e₀.placementMap = some s → (deriveSizes e₀).isSome →
          ∃ e', parseArgs p args' = .accepted e' ∧ e.SameMap e' := by
  constructor
  · intro e n m ts cs hn hm hdomains hts hcs
    constructor
    · intro hn' hm'
      rw [printMap_of_lt hn' hm']
      rfl
    · intro s hs
      obtain ⟨hn', hm'⟩ := lt_of_printMap hs
      rw [printMap_of_lt hn' hm', Option.some.injEq] at hs
      subst s
      obtain ⟨e', hmap, hthreads, hchains, hthread, hchain⟩ :=
        allocMap_mapText e hn hm hn' hm' hts hcs
      refine ⟨e', hmap, hthreads, hchains, ?_, ?_⟩
      · rw [hthread]
        apply List.map_congr_left
        intro i hi
        rw [Int.tmod_eq_emod_of_nonneg (hts i (List.mem_range.mp hi)).1]
      · rw [hchain]
        apply List.map_congr_left
        intro i hi
        apply List.map_congr_left
        intro j hj
        rw [Int.tmod_eq_emod_of_nonneg (hcs i (List.mem_range.mp hi) j (List.mem_range.mp hj)).1]
  · intro p args e h hd
    obtain ⟨s, hs, hback⟩ := allocMap_domainMap h hd
    have hagain : ∀ (args' : List CStr) (e₀ : Experiment),
        parseLoop p 0 {} false args' = .ok (e₀, false) → e₀.numaPlacement = .numaMap →
        e₀.placementMap = some s → (deriveSizes e₀).isSome →
        ∃ e', parseArgs p args' = .accepted e' ∧ e.SameMap e' := by
      intro args' e₀ hloop hmode hmap hsizes
      obtain ⟨e₁, hsizes⟩ := Option.isSome_iff_exists.mp hsizes
      obtain ⟨e', halloc, hsame⟩ := hback (e₁.setNuma p) rfl
      refine ⟨e', ?_, hsame⟩
      simp only [parseArgs, hloop]
      exact allocate_map hmode hmap hsizes halloc
    exact ⟨s, hs, hagain _ _ (parseLoop_map p s) rfl rfl rfl, hagain⟩

theorem map_round_trip_two_threads :
    (∃ e', allocMap { numNumaDomains := 3 } "4:5,6;7:8,9".toList = .ok e' ∧
      e'.HasMap 2 2 (fun i => (4 + 3 * i : Int) % 3) fun i j => (5 + 3 * i + j : Int) % 3) ∧
    ∃ e, parseArgs ⟨1, id, by decide, by decide⟩
        ["-t".toList, "2".toList, "-n".toList, "add".toList, "1".toList] = .accepted e ∧
      e.domainMap = some "0:1;1:0".toList ∧ ∃ e', parseArgs ⟨1, id, by decide, by decide⟩
        ["-n".toList, "map".toList, "0:1;1:0".toList] = .accepted e' ∧ e.SameMap e' := by
  have hdomain : ∀ i < 2, IsDomain (4 + 3 * (i : Nat) : Int) := by
    intro i hi
    unfold IsDomain
    omega
  have hchain : ∀ i < 2, ∀ j < 2, IsDomain (5 + 3 * (i : Nat) + (j : Nat) : Int) := by
    intro i hi j hj
    unfold IsDomain
    omega
  have hrun : ∃ e, parseArgs ⟨1, id, by decide, by decide⟩
      ["-t".toList, "2".toList, "-n".toList, "add".toList, "1".toList] = .accepted e ∧
      e.domainMap = some "0:1;1:0".toList ∧ e.threadDomain = [some 0, some 1] ∧
      e.chainDomain = [[some 1], [some 0]] :=
    ⟨_, rfl, by decide +kernel, by decide +kernel, by decide +kernel⟩
  constructor
  · exact (map_round_trip.1 { numNumaDomains := 3 } 2 2 _ _ (by decide) (by decide) (by decide)
      hdomain hchain).2 _ (by decide +kernel)
  · obtain ⟨e, haccepted, hmap, hthread, hchains⟩ := hrun
    have hdomains : e.DomainsBelow 2 := by
      rw [Experiment.DomainsBelow, hthread, hchains]
      simp
    obtain ⟨s, hs, hsame, _⟩ := map_round_trip.2 _ _ e haccepted hdomains
    rw [hmap, Option.some.injEq] at hs
    subst s
    exact ⟨e, haccepted, hmap, hsame⟩

/-- A table of 2^31 threads has no text: the counter of the loop over them never gets there. -/
theorem two_billion_threads_no_text :
    ∃ (ts : Nat → Int) (cs : Nat → Nat → Int), (∀ i, IsDomain (ts i)) ∧ (∀ i j, IsDomain (cs i j)) ∧
      printMap 2147483648 1 ts cs = none := by
  have hzero : IsDomain 0 := ⟨Int.le_refl 0, by decide⟩
  refine ⟨fun _ => 0, fun _ _ => 0, fun _ => hzero, fun _ _ => hzero, ?_⟩
  rw [Option.eq_none_iff_forall_ne_some]
  intro s hs
  exact Nat.lt_irrefl _ (lt_of_printMap hs).1

end PChase
