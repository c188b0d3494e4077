import PChase.ChaseRun
import PChase.Geometry

/-!
# The chase comes back

Even where links repeat, and later writes replace earlier pointers, the pointers stay
among the links, and each step moves past the last occurrence of the node it leaves.
-/

namespace PChase

open CInt NextWalk
set_option autoImplicit false

theorem buildRing_closed {e : Experiment} {links : List Int} {r : Ring}
    (h : buildRing e links = some r) : r.Closed (· ∈ links) ∧
      r.Returns r.opsPerChain.toNat := by
  obtain ⟨hne, _, rfl⟩ := (buildRing_links e links r).mp h
  rw [Int.toNat_natCast]
  have hpos := List.length_pos_iff.mpr hne
  have hmem : ∀ l, l ∈ links ↔ ∃ k < links.length, links.getD k 0 = l := by
    intro l
    rw [List.mem_iff_getElem]
    constructor
    · rintro ⟨k, hk, rfl⟩
      exact ⟨k, hk, by rw [List.getD_eq_getElem?_getD, List.getElem?_eq_getElem hk]; rfl⟩
    · rintro ⟨k, hk, rfl⟩
      exact ⟨k, hk, by rw [List.getD_eq_getElem?_getD, List.getElem?_eq_getElem hk]; rfl⟩
  constructor
  · constructor
    · exact (hmem _).mpr ⟨0, hpos, rfl⟩
    · intro l hl
      obtain ⟨b, hnext, hb⟩ := ring_closed (fun _ => none) (links.getD · 0) hpos l ((hmem l).mp hl)
      exact ⟨b, hnext, (hmem b).mpr hb⟩
  · exact ring_returns_from (fun _ => none) (links.getD · 0) hpos

theorem mem_links_of_next {e : Experiment} {links : List Int} {r : Ring}
    (h : buildRing e links = some r) {l : Int} (hl : r.next l ≠ none) : l ∈ links := by
  obtain ⟨_, _, rfl⟩ := (buildRing_links e links r).mp h
  by_contra hnot
  apply hl
  apply writes_of_not_mem
  intro k hk heq
  apply hnot
  rw [← heq, List.getD_eq_getElem?_getD, List.getElem?_eq_getElem hk]
  exact List.getElem_mem hk

section Overlap
variable {e : Experiment} {chains : Nat} (pl : Placement e chains)

/-- A store at a `data` word, or at the place of one in another line, spares every
`next` field of every block. -/
theorem overlaps_of_data {c c' : Nat} (hc : c < chains) (hc' : c' < chains) {l l' o : Int}
    (ho : o % 16 = 8) : overlaps pl c' l' (pl.base c + 16 * l + o) = false := by
  have h1 := pl.aligned c hc
  have h2 := pl.aligned c' hc'
  simp only [overlaps, decide_eq_false_iff_not]
  omega

/-- A store inside one block spares every node of another. -/
theorem overlaps_of_inside {c c' : Nat} (hc : c < chains) (hc' : c' < chains) (hne : c ≠ c')
    {l l' o : Int} (hl' : InBlock e l') (h0 : 0 ≤ 16 * l + o)
    (h1 : 16 * l + o + 8 ≤ 16 * e.linksPerChain) :
    overlaps pl c' l' (pl.base c + 16 * l + o) = false := by
  have hdisjoint := pl.disjoint c hc c' hc' hne
  unfold InBlock at hl'
  simp only [overlaps, decide_eq_false_iff_not]
  omega

theorem overlaps_same_iff (c : Nat) (l l' o : Int) :
    overlaps pl c l' (pl.base c + 16 * l + o) = true ↔
      16 * l' < 16 * l + o + 8 ∧ 16 * l + o < 16 * l' + 8 := by
  simp only [overlaps, decide_eq_true_eq]
  omega

end Overlap

variable {e : Experiment} {chains : Nat}

theorem storesSpare_of_data (pl : Placement e chains) (S : Nat → Int → Prop)
    (h : e.memOperation.isStore = true → ∀ o ∈ dataOffsets e, o % 16 = 8) : StoresSpare pl S := by
  intro hstore c hc l _ o ho c' hc' l' _
  exact overlaps_of_data pl hc hc' (h hstore o ho)

theorem dataOffsets_data (h : e.memOperation ≠ .storeAll ∨ valNum e ≤ 1 ∨ 16 ∣ e.bytesPerLine) :
    e.memOperation.isStore = true → ∀ o ∈ dataOffsets e, o % 16 = 8 := by
  intro hstore o ho
  unfold dataOffsets at ho
  cases hop : e.memOperation with
  | na => simp [hop] at ho
  | load => simp [hop, MemOperation.isStore] at hstore
  | loadAll => simp [hop, MemOperation.isStore] at hstore
  | store =>
    simp only [hop, List.mem_singleton] at ho
    omega
  | storeAll =>
    simp only [hop, List.mem_map, List.mem_range] at ho
    obtain ⟨j, hj, rfl⟩ := ho
    have hdvd : (16 : Int) ∣ j * e.bytesPerLine := by
      rcases h with h | h | h
      · exact absurd hop h
      · have hj0 : j = 0 := by omega
        simp [hj0]
      · exact Int.dvd_mul_of_dvd_right h
    rw [wrap64_eq]
    split <;> omega

/-- Whatever the draws, a ring of links inside the block leads back to its root, and the
loop over any number of such rings ends in every call. -/
theorem chase_comes_back {d : Nat → Draws} (hchains : 1 ≤ chains)
    (hlinks : ∀ c < chains, ∃ links, randomLinks e (d c) = some links ∧ links ≠ [] ∧
      ∀ l ∈ links, InBlock e l)
    (hop : e.memOperation ≠ .storeAll) (pl : Placement e chains) :
    ∃ rings : Nat → Ring,
      (∀ c < chains, randomMemInit e (d c) = some (rings c) ∧
        (∀ m, ∃ l, walk (rings c).next (rings c).root m = some l) ∧
        ∃ m : Nat, 1 ≤ m ∧ m ≤ (rings c).opsPerChain ∧
          walk (rings c).next (rings c).root m = some (rings c).root) ∧
      ∀ calls, ∃ s, benchCalls pl rings (rings 0).opsPerChain.toNat calls = some s := by
  have hring : ∀ c : Nat, ∃ (r : Ring) (S : Int → Prop), c < chains →
      randomMemInit e (d c) = some r ∧ r.Closed S ∧ r.Returns r.opsPerChain.toNat := by
    intro c
    by_cases hc : c < chains
    · obtain ⟨links, hlist, hne, hin⟩ := hlinks c hc
      have hbuild := (buildRing_links e links _).mpr ⟨hne, hin, rfl⟩
      obtain ⟨hclosed, hreturns⟩ := buildRing_closed hbuild
      refine ⟨_, _, fun _ => ⟨?_, hclosed, hreturns⟩⟩
      rw [randomMemInit, hlist]
      exact hbuild
    · exact ⟨⟨0, fun _ => none, 0⟩, fun _ => False, fun h => absurd h hc⟩
  choose rings S hrings using hring
  refine ⟨rings, ?_, ?_⟩
  · intro c hc
    obtain ⟨hinit, hclosed, m, hm, hm', hwalk⟩ := hrings c hc
    refine ⟨hinit, fun m => ?_, m, hm, by omega, hwalk⟩
    obtain ⟨l, hl, _⟩ := hclosed.walk_mem m
    exact ⟨l, hl⟩
  · intro calls
    obtain ⟨s, hs, _⟩ := benchCalls_run pl (by omega) (fun c hc => (hrings c hc).2.1)
      (storesSpare_of_data pl S (dataOffsets_data (.inl hop))) (hrings 0 (by omega)).2.2 calls
    exact ⟨s, hs⟩

/-- Two chains of one page, on which the factor 5 maps all five lines to the first. -/
theorem chase_comes_back_on_repeats :
    let e : Experiment := {
      pagesPerChain := 1, linesPerPage := 5, linksPerLine := 4, linksPerPage := 20,
      linesPerChain := 5, linksPerChain := 20, memOperation := .store }
    let pl : Placement e 2 := ⟨fun c => 320 * c, by decide, by decide⟩
    ∃ rings : Nat → Ring, (∀ c < 2, randomMemInit e ⟨5, 0, fun _ => 5, fun _ => 0⟩ = some (rings c)) ∧
      ∃ s, benchCalls pl rings (rings 0).opsPerChain.toNat 3 = some s := by
  intro e pl
  obtain ⟨rings, hrings, hcalls⟩ := chase_comes_back (e := e)
    (d := fun _ => ⟨5, 0, fun _ => 5, fun _ => 0⟩) (by decide : 1 ≤ 2)
    (fun _ _ => ⟨[0, 0, 0, 0, 0], by decide, by decide, by decide⟩) (by decide) pl
  exact ⟨rings, fun c hc => (hrings c hc).1, hcalls 3⟩

/-- At a line of -16 bytes no link is formed, and the closing store goes through `prev`. -/
theorem no_link_no_ring :
    ∃ e, parseArgs .single ["-l".toList, "18446744073709551600".toList] = .accepted e ∧
      e.accessPattern = .random ∧ e.memOperation ≠ .storeAll ∧
      ∀ d, (∀ links, randomLinks e d = some links → ∀ l ∈ links, InBlock e l) ∧
        randomMemInit e d = none := by
  obtain ⟨e, he, hpattern, hop, hpages, hlines⟩ :
      ∃ e, parseArgs .single ["-l".toList, "18446744073709551600".toList] = .accepted e ∧
        e.accessPattern = .random ∧ e.memOperation = .na ∧ e.pagesPerChain = 4129 ∧
        e.linesPerPage = -254 := by
    have hloop : parseLoop .single 0 {} false ["-l".toList, "18446744073709551600".toList] =
        .ok ({ bytesPerLine := -16 }, false) := by decide +kernel
    rw [parseArgs, hloop]
    exact ⟨_, rfl, rfl, rfl, rfl, rfl⟩
  refine ⟨e, he, hpattern, by simp [hop], fun d => ?_⟩
  have hnone : randomLinks e d = some [] := by
    rw [randomLinks_of_lt e d (by omega) (by omega), hlines]
    rfl
  refine ⟨fun links hlinks l hl => ?_, ?_⟩
  · rw [hnone, Option.some.injEq] at hlinks
    simp [← hlinks] at hl
  · rw [randomMemInit, hnone]
    rfl

end PChase
