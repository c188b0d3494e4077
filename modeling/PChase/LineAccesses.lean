import Mathlib.Data.List.Rotate
import Mathlib.Data.Multiset.Bind
import PChase.ChaseReturns
import PChase.LapRounds
import PChase.MirrorRings

/-!
# A lap touches each line once

`load_all` and `store_all` reach from a node over as many lines as the stride has. When
the stride divides the chain, the nodes of a lap reach the lines one by one.
-/

namespace PChase

open CInt CountLoop NextWalk
set_option autoImplicit false

/-- `line_num` of `Output::csv` and `Output::table`, computed again from the stride. -/
def lineNum (e : Experiment) : Nat :=
  if e.memOperation = .storeAll ∨ e.memOperation = .loadAll then e.stride.natAbs % 4294967296
  else 1

/-- The `data` word of the first node of each line of chain `c`. -/
def lineWords (e : Experiment) (c : Nat) : List Access :=
  (List.range e.linesPerChain.toNat).map fun line : Nat => ⟨c, line * e.bytesPerLine + 8⟩

section Lines
variable {e : Experiment} (h : e.SmallChain e.step)
include h

theorem count_mul_step (hdvd : e.step ∣ e.linesPerChain) :
    strideCount e e.step * e.step = e.linesPerChain := by
  have hs := h.stride_pos
  have hbounds := strideCount_bounds e hs
  obtain ⟨q, hq⟩ := hdvd
  rw [hq, Int.mul_comm e.step q] at hbounds ⊢
  have hlt : strideCount e e.step - 1 < q := Int.lt_of_mul_lt_mul_right hbounds.1 (by omega)
  have hle : q ≤ strideCount e e.step := Int.le_of_mul_le_mul_right hbounds.2 (by omega)
  have hcount : strideCount e e.step = q := by omega
  rw [hcount]

theorem step_le_lines (hdvd : e.step ∣ e.linesPerChain) : e.step ≤ e.linesPerChain :=
  Int.le_of_dvd (by have := h.lines_pos; omega) hdvd

theorem valNum_eq_step (hop : e.memOperation = .storeAll ∨ e.memOperation = .loadAll) :
    (valNum e : Int) = e.step := by
  have hlt := h.lines_lt
  have hlines := h.lines_pos
  unfold Experiment.step at hlt ⊢
  rw [valNum, if_pos hop, Nat.mod_eq_of_lt (by omega)]

theorem accessesAt_head (hop : e.memOperation = .storeAll ∨ e.memOperation = .loadAll)
    (hdvd : e.step ∣ e.linesPerChain) (hline : e.bytesPerLine = 16 * e.linksPerLine)
    (c k : Nat) : accessesAt e c (k * e.step * e.linksPerLine) =
      (List.range (valNum e)).map fun j : Nat =>
        ⟨c, ((k * valNum e + j : Nat) : Int) * e.bytesPerLine + 8⟩ := by
  have hvals := valNum_eq_step h hop
  have hle := step_le_lines h hdvd
  have hoffsets : dataOffsets e =
      (List.range (valNum e)).map fun j : Nat => wrap64 (j * e.bytesPerLine) + 8 := by
    unfold dataOffsets
    cases hop with
    | inl hop => simp [hop]
    | inr hop => simp [hop]
  rw [accessesAt, hoffsets, List.map_map]
  apply List.map_congr_left
  intro j hj
  have hj' := List.mem_range.mp hj
  have hk := h.links_pos
  have hnonneg : 0 ≤ (j : Int) * e.linksPerLine := Int.mul_nonneg (by omega) (by omega)
  have hlt : (j : Int) * e.linksPerLine ≤ e.linesPerChain * e.linksPerLine :=
    Int.mul_le_mul_of_nonneg_right (by omega) (by omega)
  have hlinks := h.links_lt
  rw [h.links_eq] at hlinks
  have hbytes : (j : Int) * e.bytesPerLine = 16 * (j * e.linksPerLine) := by
    rw [hline]
    ring
  have hwrap : wrap64 (j * e.bytesPerLine) = j * e.bytesPerLine :=
    wrap64_of_inInt64 ⟨by omega, by omega⟩
  simp only [Function.comp_apply, hwrap, Access.mk.injEq, true_and]
  rw [hline, ← hvals]
  push_cast
  ring

theorem heads_reach_lines (hop : e.memOperation = .storeAll ∨ e.memOperation = .loadAll)
    (hdvd : e.step ∣ e.linesPerChain) (hline : e.bytesPerLine = 16 * e.linksPerLine) (c : Nat) :
    (lineHeads e e.step).flatMap (accessesAt e c) = lineWords e c := by
  have hvals := valNum_eq_step h hop
  have hstep := h.stride_pos
  have hcount : (strideCount e e.step).toNat * valNum e = e.linesPerChain.toNat := by
    have hmul := count_mul_step h hdvd
    have hpos := h.count_pos
    have hcast : (((strideCount e e.step).toNat * valNum e : Nat) : Int) = e.linesPerChain := by
      rw [Nat.cast_mul, hvals, Int.toNat_of_nonneg (by omega), hmul]
    omega
  have hheads : (lineHeads e e.step).flatMap (accessesAt e c) =
      ((List.range (strideCount e e.step).toNat).map fun k : Nat =>
        (List.range (valNum e)).map fun j : Nat =>
          (⟨c, ((k * valNum e + j : Nat) : Int) * e.bytesPerLine + 8⟩ : Access)).flatten := by
    rw [lineHeads, List.flatMap_map, List.flatMap_def]
    congr 1
    apply List.map_congr_left
    intro k _
    exact accessesAt_head h hop hdvd hline c k
  rw [hheads, flatten_range_map (fun k j =>
    (⟨c, ((k * valNum e + j : Nat) : Int) * e.bytesPerLine + 8⟩ : Access)), hcount, lineWords]
  apply List.map_congr_left
  intro line _
  rw [Nat.div_add_mod']

end Lines

/-- From the second node on, a lap visits its nodes and then the root. -/
theorem lap_nodes_perm {r : Ring} {nodes : List Int} (hlap : Lap r.next r.root nodes) :
    ((List.range nodes.length).map fun k => r.node (k + 1)).Perm nodes := by
  have hrotate : ((List.range nodes.length).map fun k => r.node (k + 1)) = nodes.rotate 1 := by
    apply List.ext_getElem
    · simp
    · intro k hk hk'
      have hlt := Nat.mod_lt (k + 1) hlap.length_pos
      simp only [List.getElem_map, List.getElem_range, List.getElem_rotate]
      rw [Ring.node, hlap.walk_eq, List.getElem?_eq_getElem hlt, Option.getD_some]
  rw [hrotate]
  exact List.rotate_perm nodes 1

theorem lap_accesses_perm {r : Ring} {nodes : List Int} (hlap : Lap r.next r.root nodes)
    (f : Int → List Access) : ((List.range nodes.length).flatMap fun k => f (r.node (k + 1))).Perm
      (nodes.flatMap f) := by
  rw [← List.flatMap_map (fun k => r.node (k + 1)) f]
  exact (lap_nodes_perm hlap).flatMap_right f

theorem flatMap_comm_perm {α β γ : Type} (xs : List α) (ys : List β) (f : α → β → List γ) :
    (xs.flatMap fun a => ys.flatMap fun b => f a b).Perm
      (ys.flatMap fun b => xs.flatMap fun a => f a b) := by
  rw [← Multiset.coe_eq_coe]
  simp only [← Multiset.coe_bind]
  exact Multiset.bind_bind _ _

theorem lines_pos_of_loop {bound : Int} {step : Int → Int} {lines : List Int}
    (h : intLoop (fun i => decide (i < bound)) step 0 = some lines) (hne : lines ≠ []) :
    1 ≤ bound := by
  obtain ⟨n, _, hbefore, _, rfl⟩ := (forLoop_eq_some_iff _ _ _ _ _).mp h
  have hn : 0 < n := by
    have := List.length_pos_iff.mpr hne
    rw [values_length] at this
    exact this
  have hfirst : (0 : Int) < bound := of_decide_eq_true (hbefore 0 hn)
  omega

theorem pos_of_memInit {e : Experiment} (ha : e.Accepted) (hstrided : e.accessPattern = .strided)
    {d : Draws} {r : Ring} (h : memInit e d = some r) :
    1 ≤ e.linesPerChain ∧ 1 ≤ e.linksPerLine := by
  have hbuilt : ∃ lines : List Int, buildRing e (lines.map (lineLink e)) = some r ∧
      (lines ≠ [] → 1 ≤ e.linesPerChain) := by
    simp only [memInit, hstrided] at h
    split at h
    · obtain ⟨links, hlinks, hring⟩ := Option.bind_eq_some_iff.mp h
      obtain ⟨lines, hlines, hmap⟩ := Option.bind_eq_some_iff.mp hlinks
      obtain rfl := Option.some.inj hmap
      exact ⟨lines, hring, lines_pos_of_loop hlines⟩
    · obtain ⟨links, hlinks, hring⟩ := Option.bind_eq_some_iff.mp h
      obtain ⟨seen, hseen, hrest⟩ := Option.bind_eq_some_iff.mp hlinks
      obtain ⟨last, hlast, hdown⟩ := Option.bind_eq_some_iff.mp hrest
      obtain ⟨lines, _, hmap⟩ := Option.bind_eq_some_iff.mp hdown
      obtain rfl := Option.some.inj hmap
      refine ⟨lines, hring, fun _ => lines_pos_of_loop hseen ?_⟩
      intro hnil
      rw [hnil] at hlast
      simp at hlast
  obtain ⟨lines, hring, hpos⟩ := hbuilt
  obtain ⟨hne, hin, _⟩ := (buildRing_links e _ r).mp hring
  have hlines := hpos (by simpa using hne)
  obtain ⟨l, hl⟩ := List.exists_mem_of_ne_nil _ hne
  have hblock := hin l hl
  unfold InBlock at hblock
  exact ⟨hlines, ha.sizes.links_pos_of_lines hlines (by omega)⟩

theorem storesSpare_of_whole_lines {e : Experiment} {chains : Nat} (pl : Placement e chains)
    (S : Nat → Int → Prop) (hline : 16 ∣ e.bytesPerLine) : StoresSpare pl S :=
  storesSpare_of_data pl S (dataOffsets_data (.inr (.inr hline)))

section Lap
variable {p : Platform} {args : List CStr} {e : Experiment}

/-- In every call of the loop each chain of a thread touches each of its lines once, and
nothing else: the lines that the report counts are the lines of the chain. -/
theorem lap_touches_each_line_once (ha : parseArgs p args = .accepted e)
    (hstrided : e.accessPattern = .strided)
    (hop : e.memOperation = .storeAll ∨ e.memOperation = .loadAll)
    (hdvd : e.step ∣ e.linesPerChain) (hline : 16 ∣ e.bytesPerLine)
    (hfits : e.linksPerChain + e.step < 2147483648) :
    (1 ≤ e.linesPerChain → 1 ≤ e.linksPerLine → ∃ r, ∀ d, memInit e d = some r) ∧
    ∀ {chains : Nat} (pl : Placement e chains) (rings : Nat → Ring) (fuel : Nat),
      0 < chains → (∀ c < chains, ∃ d, memInit e d = some (rings c)) →
      (rings 0).opsPerChain ≤ fuel →
      (∀ c < chains, (rings c).opsPerChain * lineNum e = e.linesPerChain) ∧
      ∀ calls, ∃ s s' lap, benchCalls pl rings fuel calls = some s ∧
        benchRounds pl (rings 0).root fuel { s with pos := fun c => (rings c).root } =
          some ((rings 0).opsPerChain.toNat, s') ∧
        benchCalls pl rings fuel (calls + 1) = some s' ∧ s'.log = s.log ++ lap ∧
        lap.Perm ((List.range chains).flatMap (lineWords e)) := by
  have hacc := accepted_of_parseArgs ha
  have hsmall : 1 ≤ e.linesPerChain → 1 ≤ e.linksPerLine → e.SmallChain e.step := by
    intro hlines hlinks
    have hgeometry := hacc.sizes.geometry (by omega)
    have hle : e.linesPerChain * 1 ≤ e.linesPerChain * e.linksPerLine :=
      Int.mul_le_mul_of_nonneg_left hlinks (by omega)
    rw [← hgeometry.links_eq] at hle
    have hstep := step_pos hacc.stride_ne
    exact hacc.smallChain hlines hlinks (by omega) (by omega)
  refine ⟨fun hlines hlinks => ?_, ?_⟩
  · obtain ⟨r, _, hr, _⟩ := memInit_lap (hsmall hlines hlinks) hstrided
    exact ⟨r, hr⟩
  intro chains pl rings fuel hchains hrings hfuel
  obtain ⟨d, hfirst⟩ := hrings 0 hchains
  obtain ⟨hlines, hlinks⟩ := pos_of_memInit hacc hstrided hfirst
  have h := hsmall hlines hlinks
  obtain ⟨r, nodes, hr, hlap, hperm, hops⟩ := memInit_lap h hstrided
  have hsame : ∀ c < chains, rings c = r := by
    intro c hc
    obtain ⟨d, hd⟩ := hrings c hc
    rw [hr d, Option.some.injEq] at hd
    exact hd.symm
  have hbytes : e.bytesPerLine = 16 * e.linksPerLine := by
    rw [hacc.sizes.linksPerLine_eq, Int.mul_tdiv_cancel' hline]
  have hlength : (nodes.length : Int) = r.opsPerChain := by
    rw [hperm.length_eq, h.heads_length, hops]
  have hlaps : RingLaps chains rings (fun _ => nodes) nodes.length := by
    refine ⟨fun c hc => ?_, fun _ _ => rfl⟩
    rw [hsame c hc]
    exact hlap
  refine ⟨fun c hc => ?_, fun calls => ?_⟩
  · rw [hsame c hc, hops]
    have hnum := valNum_eq_step h hop
    have hmul := count_mul_step h hdvd
    change strideCount e e.step * (valNum e : Int) = e.linesPerChain
    rw [hnum, hmul]
  · rw [hsame 0 hchains] at hfuel
    have hfits' : nodes.length ≤ fuel := by omega
    obtain ⟨s, s', hcalls, hrounds, hnext, _, hlog⟩ := hlaps.calls pl
      (storesSpare_of_whole_lines pl _ hline) hchains hfits' calls
    have hcount : nodes.length = (rings 0).opsPerChain.toNat := by
      rw [hsame 0 hchains]
      omega
    refine ⟨s, s', _, hcalls, hcount ▸ hrounds, hnext, hlog, ?_⟩
    refine (flatMap_comm_perm _ _ _).trans ?_
    refine List.Perm.flatMap_left _ fun c hc => ?_
    have hring := hsame c (List.mem_range.mp hc)
    have hnodes := lap_accesses_perm hlap (accessesAt e c)
    rw [← hring] at hnodes
    refine hnodes.trans ?_
    rw [← heads_reach_lines h hop hdvd hbytes c]
    exact hperm.flatMap_right _

end Lap

/-- Two chains of four lines, downwards by two: a lap has two nodes and stores to four lines. -/
theorem reverse_store_touches_each_line_once :
    ∃ e, parseArgs .single ["-p".toList, "256".toList, "-c".toList, "256".toList, "-a".toList,
        "reverse".toList, "2".toList, "-m".toList, "store_all".toList] = .accepted e ∧
      ∃ (pl : Placement e 2) (r : Ring) (s s' : Machine) (lap : List Access),
        (∀ d, memInit e d = some r) ∧ r.opsPerChain * lineNum e = 4 ∧
        benchCalls pl (fun _ => r) 2 3 = some s ∧
        benchRounds pl r.root 2 { s with pos := fun _ => r.root } = some (2, s') ∧
        s'.log = s.log ++ lap ∧ lap.Perm ((List.range 2).flatMap (lineWords e)) := by
  obtain ⟨e, he, hpattern, hop, hlines, hlinks, hline, hnodes, hstride⟩ : ∃ e, parseArgs .single
        ["-p".toList, "256".toList, "-c".toList, "256".toList, "-a".toList, "reverse".toList,
          "2".toList, "-m".toList, "store_all".toList] = .accepted e ∧
      e.accessPattern = .strided ∧ e.memOperation = .storeAll ∧ e.linesPerChain = 4 ∧
      e.linksPerLine = 4 ∧ e.bytesPerLine = 64 ∧ e.linksPerChain = 16 ∧ e.stride = -2 :=
    ⟨_, rfl, rfl, rfl, rfl, rfl, rfl, rfl, rfl⟩
  have hstep : e.step = 2 := by rw [Experiment.step, hstride]; rfl
  obtain ⟨hbuilt, hlap⟩ := lap_touches_each_line_once he hpattern (.inl hop)
    (by rw [hstep, hlines]; decide) (by rw [hline]; decide) (by rw [hnodes, hstep]; decide)
  obtain ⟨r, hr⟩ := hbuilt (by omega) (by omega)
  let pl : Placement e 2 := ⟨fun c => 256 * c, by intro c _; omega, by
    intro c _ c' _ hne
    rw [hnodes]
    omega⟩
  have hrings : ∀ c < 2, ∃ d, memInit e d = some ((fun _ : Nat => r) c) :=
    fun _ _ => ⟨⟨0, 0, fun _ => 0, fun _ => 0⟩, hr _⟩
  obtain ⟨hcount, _⟩ := hlap pl _ r.opsPerChain.toNat (by decide) hrings (Int.self_le_toNat _)
  have hproduct : r.opsPerChain * lineNum e = 4 := hlines ▸ hcount 0 (by decide)
  have hops : r.opsPerChain = 2 := by
    have hnum : lineNum e = 2 := by simp [lineNum, hop, hstride]
    rw [hnum] at hproduct
    omega
  obtain ⟨_, hcalls⟩ := hlap pl _ 2 (by decide) hrings (by simp [hops])
  obtain ⟨s, s', lap, hbefore, hrounds, _, hlog, hperm⟩ := hcalls 3
  rw [hops] at hrounds
  exact ⟨e, he, pl, r, s, s', lap, hr, hproduct, hbefore, hrounds, hlog, hperm⟩

/-- At a line of -16 bytes the loop over the lines is empty. -/
theorem no_line_no_ring :
    ∃ e, parseArgs .single ["-l".toList, "18446744073709551600".toList, "-a".toList,
        "forward".toList, "1".toList, "-m".toList, "load_all".toList] = .accepted e ∧
      e.accessPattern = .strided ∧ e.memOperation = .loadAll ∧ e.step ∣ e.linesPerChain ∧
      16 ∣ e.bytesPerLine ∧ e.linksPerChain + e.step < 2147483648 ∧ ∀ d, memInit e d = none := by
  obtain ⟨e, he, hpattern, hop, hline, hnodes, hlines, hstride⟩ :
      ∃ e, parseArgs .single ["-l".toList, "18446744073709551600".toList, "-a".toList,
          "forward".toList, "1".toList, "-m".toList, "load_all".toList] = .accepted e ∧
        e.accessPattern = .strided ∧ e.memOperation = .loadAll ∧ e.bytesPerLine = -16 ∧
        e.linksPerChain = 1048766 ∧ e.linesPerChain = -1048766 ∧ e.stride = 1 := by
    have hloop : parseLoop .single 0 {} false ["-l".toList, "18446744073709551600".toList,
        "-a".toList, "forward".toList, "1".toList, "-m".toList, "load_all".toList] =
        .ok ({ bytesPerLine := -16, accessPattern := .strided, stride := 1, memOperation := .loadAll },
          false) := by decide +kernel
    rw [parseArgs, hloop]
    exact ⟨_, rfl, rfl, rfl, rfl, rfl, rfl, rfl⟩
  have hstep : e.step = 1 := by rw [Experiment.step, hstride]; rfl
  refine ⟨e, he, hpattern, hop, hstep ▸ one_dvd _, hline ▸ by decide, by omega, fun d => ?_⟩
  cases hring : memInit e d with
  | none => rfl
  | some r =>
    have hpos := (pos_of_memInit (accepted_of_parseArgs he) hpattern hring).1
    omega

end PChase
