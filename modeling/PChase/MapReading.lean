import PChase.MapGroups

/-!
# Which domain maps are read completely

A map is refused only when a group has more chains than the first one announces. Any
other map is read, but its tables are complete exactly when it is well-formed.
-/

namespace PChase

open CInt
set_option autoImplicit false

/-- The chains that the commas of the first group announce. -/
def mapChains (map : CStr) : Nat := 1 + (map.takeWhile (· ≠ ';')).count ','

/-- The form that the usage text asks for: every thread has a colon behind its domain and
as many chains as the first one. -/
def WellFormedMap (map : CStr) : Prop := GroupsHave (mapChains map) map

instance (map : CStr) : Decidable (WellFormedMap map) :=
  inferInstanceAs (Decidable (GroupsHave _ _))

/-- The scanner meets as many groups and chains as were counted. -/
def MapComplete (map : CStr) : Prop :=
  ((scanned map).length : Int) = countThreads 1 map ∧
    ∀ g ∈ scanned map, (g.chains.length : Int) = countChains 1 map

/-- The counts fit an `int`, the texts the buffer. -/
structure MapFits (map : CStr) : Prop where
  threads : 1 + map.count ';' < 2147483648
  chains : mapChains map < 2147483648
  texts : ∀ g ∈ scanned map, g.TextsFit

/-- Some group has more chains than announced. -/
def TooManyChains (map : CStr) : Prop := ∃ g ∈ scanned map, mapChains map < g.chains.length

instance (map : CStr) : Decidable (TooManyChains map) :=
  inferInstanceAs (Decidable (∃ g ∈ scanned map, _))

/-- No entry was computed from an array element that nobody wrote. -/
def Experiment.FullyAssigned (e : Experiment) : Prop :=
  (∀ d ∈ e.threadDomain, d.isSome) ∧ ∀ row ∈ e.chainDomain, ∀ d ∈ row, d.isSome

section Outcome
variable {e e' : Experiment} {map : CStr}

theorem countThreads_of_fits (h : 1 + map.count ';' < 2147483648) :
    countThreads 1 map = (1 + map.count ';' : Nat) := by
  rw [countThreads_eq 1 map inInt32_one, wrap32_of_bounds (by omega) (by omega)]
  push_cast
  rfl

theorem countChains_of_fits (h : mapChains map < 2147483648) :
    countChains 1 map = mapChains map := by
  unfold mapChains at h ⊢
  rw [countChains_eq 1 map inInt32_one, wrap32_of_bounds (by omega) (by omega)]
  push_cast
  rfl

theorem length_scanned (map : CStr) : (scanned map).length ≤ 1 + map.count ';' := by
  have hlen := length_scannedFrom map.length map
  have hcount := (scanThread_suffix map).sublist.count_le ';'
  unfold scanned
  omega

theorem allocMap_ok (h : allocMap e map = .ok e') :
    ((scanned map).length : Int) ≤ countThreads 1 map ∧
      (∀ g ∈ scanned map, (g.chains.length : Int) ≤ countChains 1 map) ∧
      e'.numThreads = countThreads 1 map ∧ e'.chainsPerThread = countChains 1 map ∧
      e'.threadDomain = (List.range (countThreads 1 map).toNat).map (fun i =>
        (scanned map)[i]?.map fun g => (domainNumber g.thread).tmod e.numNumaDomains) ∧
      e'.chainDomain = (List.range (countThreads 1 map).toNat).map fun i =>
        (List.range (countChains 1 map).toNat).map fun j => (scanned map)[i]?.bind fun g =>
          g.chains[j]?.map fun text => (domainNumber text).tmod e.numNumaDomains := by
  rw [allocMap_eq] at h
  split at h
  · simp at h
  · rename_i hpos
    cases hrun : checkGroups (countThreads 1 map) (countChains 1 map) 0 (scanned map) with
    | error err =>
      rw [hrun] at h
      cases h
    | ok u =>
      rw [hrun] at h
      obtain rfl := Except.ok.inj h
      have hchecked := (checkGroups_eq_ok_iff (by omega) (by omega) _).mp hrun
      refine ⟨by simpa using hchecked.1, fun g hg => (hchecked.2 g hg).2, rfl, rfl, ?_, ?_⟩
      · simp only [Experiment.setMap]
        apply List.map_congr_left
        intro i _
        rw [(fillGroups_empty i 0 (scanned map)).1, Option.map_map]
        rfl
      · simp only [Experiment.setMap]
        apply List.map_congr_left
        intro i _
        apply List.map_congr_left
        intro j _
        rw [(fillGroups_empty i j (scanned map)).2, Option.map_bind]
        simp only [Function.comp_def, Option.map_map]

/-- A map that is read has assigned every entry exactly when it is complete. -/
theorem fullyAssigned_iff_complete (h : allocMap e map = .ok e') :
    e'.FullyAssigned ↔ MapComplete map := by
  obtain ⟨hlen, hle, _, _, hthread, hchain⟩ := allocMap_ok h
  obtain ⟨hthreads, hchains, _⟩ := (allocMap_eq_ok_iff _ _ _).mp h
  unfold MapComplete Experiment.FullyAssigned
  rw [hthread, hchain]
  simp only [List.forall_mem_map, List.mem_range, Option.isSome_map]
  constructor
  · intro h
    have hlast : (countThreads 1 map).toNat - 1 < (scanned map).length := by
      simpa using h.1 ((countThreads 1 map).toNat - 1) (by omega)
    refine ⟨by omega, ?_⟩
    intro g hg
    have hshort := hle g hg
    by_contra hne
    obtain ⟨i, hi, rfl⟩ := List.getElem_of_mem hg
    have hentry := h.2 i (by omega) (scanned map)[i].chains.length (by omega)
    simp [hi] at hentry
  · intro h
    obtain ⟨hcount, hgroups⟩ := h
    constructor
    · intro i hi
      have hi' : i < (scanned map).length := by omega
      simp [hi']
    · intro i hi j hj
      have hi' : i < (scanned map).length := by omega
      have hj' := hgroups _ (List.getElem_mem hi')
      have hj'' : j < (scanned map)[i].chains.length := by omega
      simp [hi', hj'']

theorem mapComplete_iff_wellFormed (hthreads : 1 + map.count ';' < 2147483648)
    (hchains : mapChains map < 2147483648) : MapComplete map ↔ WellFormedMap map := by
  unfold MapComplete WellFormedMap
  rw [countThreads_of_fits hthreads, countChains_of_fits hchains,
    ← groupsHave_iff (by unfold mapChains; omega) map.length (Nat.le_refl map.length)]
  simp only [Nat.cast_inj]
  rfl

theorem fullyAssigned_iff (hthreads : 1 + map.count ';' < 2147483648)
    (hchains : mapChains map < 2147483648) (h : allocMap e map = .ok e') :
    e'.FullyAssigned ↔ WellFormedMap map :=
  (fullyAssigned_iff_complete h).trans (mapComplete_iff_wellFormed hthreads hchains)

/-- A map that fits is read as the checks of its groups come out. -/
theorem allocMap_of_fits (h : MapFits map) : allocMap e map =
    (checkGroups (1 + map.count ';' : Nat) (mapChains map) 0 (scanned map)).map fun _ =>
      e.setMap (1 + map.count ';' : Nat) (mapChains map)
        (fillGroups 0 (scanned map) MapTables.empty) := by
  have hpos : ¬ (((1 + map.count ';' : Nat) : Int) ≤ 0 ∨ (mapChains map : Int) ≤ 0) := by
    unfold mapChains
    omega
  rw [allocMap_eq, countThreads_of_fits h.threads, countChains_of_fits h.chains, if_neg hpos]

theorem allocMap_of_few (h : MapFits map) (hfew : ¬ TooManyChains map) :
    ∃ e', allocMap e map = .ok e' := by
  have hroom := length_scanned map
  have hchecked : checkGroups (1 + map.count ';' : Nat) (mapChains map) 0 (scanned map) =
      .ok () := by
    apply (checkGroups_eq_ok_iff (by omega) (by omega) _).mpr
    refine ⟨by omega, ?_⟩
    intro g hg
    have hle : ¬ mapChains map < g.chains.length := fun hlt => hfew ⟨g, hg, hlt⟩
    exact ⟨h.texts g hg, by omega⟩
  rw [allocMap_of_fits h, hchecked]
  exact ⟨_, rfl⟩

theorem allocMap_of_many (h : MapFits map) (hmany : TooManyChains map) :
    allocMap e map = .error .malformed := by
  have hroom := length_scanned map
  obtain ⟨g, hg, hlt⟩ := hmany
  have hchecked : checkGroups (1 + map.count ';' : Nat) (mapChains map) 0 (scanned map) =
      .error .malformed :=
    checkGroups_malformed (by omega) (by omega) h.texts ⟨g, hg, by omega⟩
  rw [allocMap_of_fits h, hchecked]
  rfl

theorem WellFormedMap.not_tooMany (h : WellFormedMap map) : ¬ TooManyChains map := by
  intro hmany
  obtain ⟨g, hg, hlt⟩ := hmany
  have hgroups := ((groupsHave_iff (by unfold mapChains; omega) map.length (Nat.le_refl _)).mpr h).2
  have hlen := hgroups g hg
  omega

end Outcome

/-- A map that fits is refused exactly when a group has more chains than announced. Any other
is read, and then every entry comes from the string exactly when the map is well-formed. -/
theorem map_read_completely_iff (e : Experiment) (map : CStr) (h : MapFits map) :
    (allocMap e map = .error .malformed ↔ TooManyChains map) ∧
      (¬ TooManyChains map → ∃ e', allocMap e map = .ok e') ∧
      (∀ e', allocMap e map = .ok e' → (e'.FullyAssigned ↔ WellFormedMap map)) ∧
      (WellFormedMap map → ∃ e', allocMap e map = .ok e' ∧ e'.FullyAssigned) := by
  have hread : ∀ e', allocMap e map = .ok e' → (e'.FullyAssigned ↔ WellFormedMap map) :=
    fun e' hrun => fullyAssigned_iff h.threads h.chains hrun
  refine ⟨⟨?_, allocMap_of_many h⟩, allocMap_of_few h, hread, ?_⟩
  · intro hmalformed
    by_contra hfew
    obtain ⟨e', hrun⟩ := allocMap_of_few (e := e) h hfew
    rw [hmalformed] at hrun
    cases hrun
  · intro hformed
    obtain ⟨e', hrun⟩ := allocMap_of_few (e := e) h hformed.not_tooMany
    exact ⟨e', hrun, (hread e' hrun).mpr hformed⟩

theorem two_groups_read_completely :
    ∃ e', allocMap {} "0:1,2;0:1,2".toList = .ok e' ∧ e'.FullyAssigned :=
  (map_read_completely_iff {} "0:1,2;0:1,2".toList
    ⟨by decide +kernel, by decide +kernel, by decide +kernel⟩).2.2.2 (by decide +kernel)

/-- A group with too few chains is read, and a text of 64 characters overruns the buffer. -/
theorem short_group_half_read :
    (∃ e', allocMap {} "0:1,2;0:1".toList = .ok e' ∧ ¬ e'.FullyAssigned) ∧
      allocMap {} (List.replicate 64 '0') = .error .overrun := by
  constructor
  · have hfits : MapFits "0:1,2;0:1".toList :=
      ⟨by decide +kernel, by decide +kernel, by decide +kernel⟩
    obtain ⟨e', hread⟩ := allocMap_of_few (e := {}) hfits (by decide +kernel)
    refine ⟨e', hread, ?_⟩
    intro hassigned
    have hformed := (fullyAssigned_iff hfits.threads hfits.chains hread).mp hassigned
    revert hformed
    decide +kernel
  · have hscan : scanned (List.replicate 64 '0') = [⟨List.replicate 64 '0', []⟩] :=
      scannedFrom_end (by decide +kernel) (by decide) 63
    rw [allocMap_eq, hscan, if_neg (by decide +kernel)]
    rfl

end PChase
