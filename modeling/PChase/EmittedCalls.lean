import PChase.ChaseInside
import PChase.ChaseSimulation

/-!
# Calls of the generated code

`Run::run` fills the blocks and the array `root`, has the code generated and calls it over
and over. On the bytes of the address space every call returns after the same number of
instructions, the pointers stay what the initialisers wrote, and no byte outside the
blocks and the array is read or written.
-/

namespace PChase

open CInt CountLoop NextWalk ByteMemory RegisterMachine
set_option autoImplicit false

/-- The walk from the root is first back at the root after so many steps. -/
structure Ring.FirstReturn (r : Ring) (n : Nat) : Prop where
  pos : 1 ≤ n
  back : walk r.next r.root n = some r.root
  first : ∀ k, 1 ≤ k → k < n → walk r.next r.root k ≠ some r.root

theorem Ring.Returns.firstReturn {r : Ring} {fuel : Nat} (h : r.Returns fuel) :
    ∃ n ≤ fuel, r.FirstReturn n := by
  have hex : ∃ n, 1 ≤ n ∧ walk r.next r.root n = some r.root := by
    obtain ⟨n, hn, _, hwalk⟩ := h
    exact ⟨n, hn, hwalk⟩
  obtain ⟨hpos, hback⟩ := Nat.find_spec hex
  refine ⟨Nat.find hex, ?_, hpos, hback, fun k hk hlt hwalk => ?_⟩
  · obtain ⟨n, hn, hle, hwalk⟩ := h
    exact (Nat.find_min' hex ⟨hn, hwalk⟩).trans hle
  · exact Nat.find_min hex hlt ⟨hk, hwalk⟩

variable {e : Experiment} {chains : Nat}

/-- The first return takes as many steps as the initialiser counted exactly when it formed
no link twice; otherwise it takes fewer. -/
theorem firstReturn_of_links {links : List Int} {r : Ring} (h : buildRing e links = some r) :
    ∃ n : Nat, r.FirstReturn n ∧ n ≤ r.opsPerChain ∧ (n = r.opsPerChain ↔ links.Nodup) := by
  obtain ⟨n, hn, hfirst⟩ := (buildRing_closed h).2.firstReturn
  obtain ⟨hne, _, rfl⟩ := (buildRing_links e links r).mp h
  have hpos := List.length_pos_iff.mpr hne
  simp only [Int.toNat_natCast] at hn
  refine ⟨n, hfirst, by simpa using hn, ?_⟩
  rw [Int.natCast_inj]
  constructor
  · intro hlength
    rw [List.nodup_iff_getElem?_ne_getElem?]
    intro i j hij hj heq
    have hlinks : links.getD i 0 = links.getD j 0 := by
      simp only [List.getD_eq_getElem?_getD, heq]
    obtain ⟨m, hm, hlt, hwalk⟩ := ring_returns_sooner (fun _ => none) (links.getD · 0)
      (Nat.zero_le i) hij hj hlinks
    exact hfirst.first m hm (by omega) hwalk
  · intro hnodup
    have hinj : ∀ i < links.length, ∀ j < links.length,
        links.getD i 0 = links.getD j 0 → i = j := by
      intro i hi j hj heq
      simp only [List.getD_eq_getElem?_getD, List.getElem?_eq_getElem hi,
        List.getElem?_eq_getElem hj, Option.getD_some] at heq
      exact (hnodup.getElem_inj_iff).mp heq
    have hlap := ring_lap (links.getD · 0) hpos hinj
    have hback := (hlap.walk_start_iff n).mp hfirst.back
    rw [List.length_map, List.length_range] at hback
    exact Nat.le_antisymm hn (Nat.le_of_dvd hfirst.pos hback)

namespace Layout
variable (y : Layout e chains)

def Owned (x : Word) : Prop := y.InRoots x ∨ ∃ c < chains, y.InBlockOf c x

/-- The access stays in the blocks, or reads the array `root`. -/
def Safe (t : Touch Gp) : Prop :=
  (∀ k < 8, ∃ c < chains, y.InBlockOf c (t.address + BitVec.ofNat 64 k)) ∨
    t.store = false ∧ ∀ k < 8, y.InRoots (t.address + BitVec.ofNat 64 k)

end Layout

section Accesses
variable {y : Layout e chains}

theorem target_byte {a : Access} (hc : a.chain < chains) (ha : a.Inside e) {k : Nat} (hk : k < 8) :
    y.InBlockOf a.chain (y.target a + BitVec.ofNat 64 k) := by
  have hpos := y.base_pos _ hc
  have hle := y.base_le _ hc
  obtain ⟨hlow, hhigh⟩ := ha
  have hbyte := toNat_word_byte (x := y.base a.chain + a.offset) (by omega) (by omega) hk
  unfold Layout.InBlockOf Layout.target
  omega

theorem inBlockOf_of_near {a : Access} (hc : a.chain < chains) (ha : a.Inside e) {x : Word}
    (hx : (x - y.target a).toNat < 8) : y.InBlockOf a.chain x := by
  have hpos := y.base_pos _ hc
  have hle := y.base_le _ hc
  obtain ⟨hlow, hhigh⟩ := ha
  have hbyte := byte_of_near (x := y.base a.chain + a.offset) (by omega) (by omega) hx
  unfold Layout.InBlockOf
  omega

theorem addressable_of_inside {a : Access} (hc : a.chain < chains) (ha : a.Inside e) :
    y.Addressable a := by
  have hpos := y.base_pos _ hc
  have hle := y.base_le _ hc
  obtain ⟨hlow, hhigh⟩ := ha
  exact ⟨by omega, by omega⟩

theorem PointerRead_safe {t : Touch Gp} (h : y.PointerRead t) : y.Safe t := by
  obtain ⟨hload, ⟨c, hc, haddress⟩ | ⟨c, hc, l, hl, haddress⟩⟩ := h
  · exact .inr ⟨hload, fun k hk => haddress ▸ slot_byte hc hk⟩
  · exact .inl fun k hk => ⟨c, hc, haddress ▸ node_byte hc hl hk⟩

/-- Code that performs accesses inside the blocks is safe and writes nothing else. -/
theorem Performs.safe {as : List Access} {d d' : Data Gp} (h : Performs y as d d')
    (has : ∀ a ∈ as, a.chain < chains ∧ a.Inside e) :
    SameBut (fun x => ∃ c < chains, y.InBlockOf c x) d.memory d'.memory ∧
      ∃ ts, d'.touched = d.touched ++ ts ∧ ∀ t ∈ ts, y.Safe t := by
  obtain ⟨ts, hts, hdata, hread⟩ := h.touched
  refine ⟨h.memory.mono fun x ⟨_, a, ha, hx⟩ => ?_, ts, hts, fun t ht => ?_⟩
  · exact ⟨_, (has a ha).1, inBlockOf_of_near (has a ha).1 (has a ha).2 hx⟩
  · cases hval : t.reg.isVal with
    | false => exact PointerRead_safe (hread t ht hval)
    | true =>
      have hmem : (t.store, t.address) ∈ as.map fun a => (e.memOperation.isStore, y.target a) := by
        rw [← hdata]
        exact List.mem_map.mpr ⟨t, List.mem_filter.mpr ⟨ht, hval⟩, rfl⟩
      obtain ⟨a, ha, heq⟩ := List.mem_map.mp hmem
      have haddress : t.address = y.target a := (congrArg Prod.snd heq).symm
      exact .inl fun k hk => ⟨_, (has a ha).1, haddress ▸ target_byte (has a ha).1 (has a ha).2 hk⟩

end Accesses

section Calls
variable (y : Layout e chains) {rings : Nat → Ring} {links : Nat → List Int}
  (hchains : 0 < chains) (hrings : ∀ c < chains, buildRing e (links c) = some (rings c))
  (hspare : StoresSpare y.toPlacement fun c => (· ∈ links c))
  (hinside : ∀ c < chains, ∀ l ∈ links c, ∀ a, AccessAt e c l a → a.Inside e)
  {rounds : Nat} (hfirst : (rings 0).FirstReturn rounds)
include hrings hspare

theorem benchRounds_call (hchains : 0 < chains) (hfirst : (rings 0).FirstReturn rounds)
    {s : Machine} (hs : Intact chains rings (fun c => (· ∈ links c)) s)
    (hd : Decayed chains rings s) :
    ∃ s', benchRounds y.toPlacement (rings 0).root rounds
        { s with pos := fun c => (rings c).root } = some (rounds, s') ∧
      Intact chains rings (fun c => (· ∈ links c)) s' ∧ Decayed chains rings s' ∧
      ∀ as, s'.log = s.log ++ as → ∀ a ∈ as, ∃ c < chains, ∃ l ∈ links c, AccessAt e c l a := by
  have hclosed := fun c hc => (buildRing_closed (hrings c hc)).1
  have hstart : Lapping e chains rings (fun c => (· ∈ links c)) s
      { s with pos := fun c => (rings c).root } 0 :=
    ⟨hs, hd, fun _ _ => rfl, by simp⟩
  have hfuel : rounds ≤ 0 + rounds := by omega
  obtain ⟨s', hrounds, hlapping⟩ := hstart.rounds y.toPlacement hclosed hspare hchains
    hfirst.pos hfuel hfirst.back fun k hk => hfirst.first k hk
  rw [Nat.sub_zero] at hrounds
  refine ⟨s', hrounds, hlapping.intact, hlapping.decayed, ?_⟩
  intro as has a ha
  have hlog := hlapping.log_eq
  rw [has, List.append_cancel_left_eq] at hlog
  rw [hlog] at ha
  obtain ⟨k, _, hround⟩ := List.mem_flatMap.mp ha
  obtain ⟨c, hc, hat⟩ := List.mem_flatMap.mp hround
  have hclt := List.mem_range.mp hc
  obtain ⟨o, ho, rfl⟩ := List.mem_map.mp hat
  obtain ⟨l, hwalk, hl⟩ := (hclosed c hclt).walk_mem (k + 1)
  have hnode : (rings c).node (k + 1) = l := by
    simp only [Ring.node, hwalk, Option.getD_some]
  exact ⟨c, hclt, l, hl, o, ho, hnode ▸ rfl⟩

/-- Between two calls: the fields are intact on indices and in memory, only bytes of the
blocks changed, and all accesses so far were safe. -/
structure Standing (rings : Nat → Ring) (links : Nat → List Int) (d₀ : Data Gp) (s : Machine)
    (d : Data Gp) : Prop where
  intact : Intact chains rings (fun c => (· ∈ links c)) s
  decayed : Decayed chains rings s
  ready : Ready y rings chains d.memory
  logged : ∀ a ∈ s.log, y.Addressable a
  sameBut : SameBut y.Owned d₀.memory d.memory
  touched : ∃ ts, d.touched = d₀.touched ++ ts ∧ ∀ t ∈ ts, y.Safe t

include hchains hinside hfirst

theorem Standing.call {d₀ d : Data Gp} {s : Machine} (h : Standing y rings links d₀ s d)
    {regs : Gp → Word} (hchain : regs .chain = y.slot 0) :
    ∃ s' d', Returns (chaseCode e chains) (callSize e chains rounds) { d with regs := regs } d' ∧
      Standing y rings links d₀ s' d' := by
  obtain ⟨s', hrounds, hintact, hdecayed, hlog⟩ :=
    benchRounds_call y hrings hspare hchains hfirst h.intact h.decayed
  have hfields : ∀ c < chains, HoldsRing y c (s.mem c) d.memory :=
    fun c hc l l' hl => h.ready.holds c hc l l' (h.decayed c hc l l' hl)
  obtain ⟨as, has⟩ := benchRounds_log hrounds
  have hown : ∀ a ∈ as, a.chain < chains ∧ a.Inside e := by
    intro a ha
    obtain ⟨c, hc, l, hl, hat⟩ := hlog as has a ha
    obtain ⟨o, _, rfl⟩ := id hat
    exact ⟨hc, hinside c hc l hl _ hat⟩
  have hlogged : ∀ a ∈ s'.log, y.Addressable a := by
    intro a ha
    rw [has] at ha
    rcases List.mem_append.mp ha with ha | ha
    · exact h.logged a ha
    · exact addressable_of_inside (hown a ha).1 (hown a ha).2
  obtain ⟨d', hreturns, _, hholds, as', has', hperforms⟩ := chaseCode_returns
    (d := { d with regs := regs }) hchains hchain h.ready.root_mem h.ready.root_eq hfields hrounds
    fun _ => hlogged
  rw [has] at has'
  obtain rfl := List.append_cancel_left has'
  obtain ⟨hblocks, ts, hts, hsafe⟩ := hperforms.safe hown
  obtain ⟨ts₀, hts₀, hsafe₀⟩ := h.touched
  refine ⟨s', d', hreturns, hintact, hdecayed, ⟨h.ready.root_mem, ?_, ?_⟩, hlogged, ?_, ts₀ ++ ts, ?_, ?_⟩
  · intro c hc
    rw [← h.ready.root_eq c hc]
    apply hblocks.load_eq
    rintro k hk ⟨c', hc', hin⟩
    exact not_inRoots_of_inBlockOf hc' hin (slot_byte hc hk)
  · intro c hc l l' hl
    have hmem := mem_links_of_next (hrings c hc) (l := l) (by simp [hl])
    exact hholds c hc l l' ((hintact c hc l hmem).trans hl)
  · exact h.sameBut.trans (hblocks.mono fun _ => .inr)
  · rw [hts, ← List.append_assoc, ← hts₀]
  · intro t ht
    rcases List.mem_append.mp ht with ht | ht
    · exact hsafe₀ t ht
    · exact hsafe t ht

/-- Any number of calls, whatever is in the other registers when they are entered. -/
theorem Standing.calls {d₀ : Data Gp} {s : Machine} (h : Standing y rings links d₀ s d₀)
    {entry : Nat → Gp → Word} (hentry : ∀ i, entry i .chain = y.slot 0) (calls : Nat) :
    ∃ s d, Calls (chaseCode e chains) entry
      (List.replicate calls (callSize e chains rounds)) d₀ d ∧ Standing y rings links d₀ s d := by
  induction calls with
  | zero => exact ⟨s, d₀, .nil d₀, h⟩
  | succ calls ih =>
    obtain ⟨s, d, hcalls, hstanding⟩ := ih
    obtain ⟨s', d', hreturns, hstanding'⟩ :=
      hstanding.call y hchains hrings hspare hinside hfirst (hentry _)
    rw [List.replicate_succ']
    exact ⟨s', d', hcalls.snoc hreturns, hstanding'⟩

end Calls

section Program
variable {p : Platform} {args : List CStr} {e : Experiment}

/-- Whenever the initialisers build all rings on indices, also where links repeat, the same
stores on bytes lay them out in any memory, point the array `root` to them, count the same
operations and change no other byte. -/
theorem chains_built_on_bytes {d : Nat → Draws} {rings : Nat → Ring}
    (h : ∀ c < e.chains, memInit e (d c) = some (rings c)) :
    ∃ links : Nat → List Int, (∀ c < e.chains, memLinks e (d c) = some (links c)) ∧
      ∀ (y : Layout e e.chains) (m : Memory),
        (∀ c < e.chains, ∀ m', (buildPointers (y.node c 0) (links c) m').localOpsPerChain =
          (rings c).opsPerChain) ∧
        Ready y rings e.chains (initChains y links m e.chains) ∧
        SameBut y.Owned m (initChains y links m e.chains) := by
  have hsplit : ∀ c : Nat, ∃ links, c < e.chains →
      memLinks e (d c) = some links ∧ buildRing e links = some (rings c) := by
    intro c
    by_cases hc : c < e.chains
    · have hinit := h c hc
      rw [memInit_eq] at hinit
      obtain ⟨links, hlinks, hbuild⟩ := Option.bind_eq_some_iff.mp hinit
      exact ⟨links, fun _ => ⟨hlinks, hbuild⟩⟩
    · exact ⟨[], fun hlt => absurd hlt hc⟩
  choose links hlinks using hsplit
  refine ⟨links, fun c hc => (hlinks c hc).1, fun y m => ⟨fun c hc m' => ?_, ?_⟩⟩
  · exact (buildPointers_ring hc (hlinks c hc).2).2.2.1
  · exact initChains_ready (fun c hc => (hlinks c hc).2) m

/-- Three lines of two nodes, every second one visited upwards. -/
theorem two_of_three_built_on_bytes :
    ∃ e r links, parseArgs .single ["-l".toList, "32".toList, "-p".toList, "96".toList,
        "-c".toList, "96".toList, "-a".toList, "forward".toList, "2".toList] = .accepted e ∧
      memInit e (draws e fun _ => 0) = some r ∧ ∀ (y : Layout e e.chains) (m : Memory),
        Ready y (fun _ => r) e.chains (initChains y links m e.chains) := by
  obtain ⟨e, r, he, hr⟩ : ∃ e r, parseArgs .single ["-l".toList, "32".toList, "-p".toList,
      "96".toList, "-c".toList, "96".toList, "-a".toList, "forward".toList, "2".toList] =
        .accepted e ∧ memInit e (draws e fun _ => 0) = some r := ⟨_, _, rfl, rfl⟩
  have hrings : ∀ c < e.chains, memInit e ((fun _ => draws e fun _ => 0 : Nat → Draws) c) =
      some ((fun _ => r : Nat → Ring) c) := fun _ _ => hr
  obtain ⟨links, _, hbuilt⟩ := chains_built_on_bytes hrings
  exact ⟨e, r, links, he, hr, fun y m => (hbuilt y m).2.1⟩

/-- Whatever the pattern, the stores and the state of the fields: a call of the loop on
indices that ends is a call of the emitted code that returns, after so many rounds. -/
theorem emitted_call_simulates {code : Code} (hcode : chasePointers e = some code)
    (hchains : 1 ≤ e.chainsPerThread) {y : Layout e e.chains} {root : Nat → Int} {fuel : Nat}
    {s s' : Machine} {d : Data Gp} (hbench : bench y.toPlacement root fuel s = some s')
    (hchain : d.regs .chain = y.slot 0) (hmem : ∀ c < e.chains, InBlock e (root c))
    (hroots : ∀ c < e.chains, load d.memory (y.slot c) = y.node c (root c))
    (hholds : ∀ c < e.chains, HoldsRing y c (s.mem c) d.memory)
    (hspace : e.memOperation.isStore = true → ∀ a ∈ s'.log, y.Addressable a) :
    ∃ rounds d', benchRounds y.toPlacement (root 0) fuel { s with pos := root } =
        some (rounds, s') ∧
      Returns code (callSize e e.chains rounds) d d' ∧
      (∀ c < e.chains, d'.regs (.positions c) = y.node c (s'.pos c)) ∧
      (∀ c < e.chains, HoldsRing y c (s'.mem c) d'.memory) ∧
      ∃ as, s'.log = s.log ++ as ∧ Performs y as d d' := by
  have hpos : 0 < e.chains := by
    unfold Experiment.chains
    omega
  obtain ⟨_, _, rfl⟩ := chasePointers_eq_some_iff.mp hcode
  rw [bench, benchLoop_eq_rounds] at hbench
  obtain ⟨⟨rounds, s₁⟩, hrounds, rfl⟩ := Option.map_eq_some_iff.mp hbench
  obtain ⟨d', hreturns, hrest⟩ :=
    chaseCode_returns hpos hchain hmem hroots hholds hrounds hspace
  exact ⟨rounds, d', hrounds, hreturns, hrest⟩

def Layout.one (e : Experiment) (hchains : e.chains = 1) (h : e.linksPerChain ≤ 4096) :
    Layout e e.chains where
  base _ := 4096
  aligned _ _ := by decide
  disjoint := by omega
  base_pos _ _ := by decide
  base_le := by omega
  roots := 16
  roots_nonneg := by decide
  roots_le := by omega
  roots_disjoint := by omega

/-- A call that stores over one of its own pointers still is a call of the code. -/
theorem emitted_call_over_short_lines :
    ∃ e code, parseArgs .single ["-l".toList, "24".toList, "-p".toList, "96".toList,
        "-c".toList, "96".toList, "-a".toList, "forward".toList, "2".toList, "-m".toList,
        "store_all".toList] = .accepted e ∧ chasePointers e = some code ∧
      ∃ (d d' : Data Gp) (rounds : Nat), Returns code (callSize e e.chains rounds) d d' := by
  obtain ⟨e, code, r, ⟨base, aligned, disjoint⟩, s', hchains, hpos, hsize, he, hcode, hring, hbase,
      hbench, hspace⟩ : ∃ (e : Experiment) (code : Code) (r : Ring) (pl : Placement e e.chains)
        (s' : Machine), e.chains = 1 ∧ 1 ≤ e.chainsPerThread ∧ e.linksPerChain ≤ 4096 ∧
        parseArgs .single ["-l".toList, "24".toList, "-p".toList, "96".toList, "-c".toList,
          "96".toList, "-a".toList, "forward".toList, "2".toList, "-m".toList,
          "store_all".toList] = .accepted e ∧ chasePointers e = some code ∧
        buildRing e [0, 2] = some r ∧ pl.base = (fun _ => 4096) ∧
        bench pl (fun _ => r.root) 2 (Machine.start fun _ => r) = some s' ∧
        (s'.log.all fun a => decide (0 ≤ 4096 + a.offset ∧
          4096 + a.offset + 8 ≤ 18446744073709551616)) = true :=
    ⟨_, _, _, ⟨fun _ => 4096, by decide, by decide⟩, _, rfl, by decide, by decide, rfl, rfl, rfl, rfl,
      rfl, rfl⟩
  subst hbase
  let y : Layout e e.chains := .one e hchains hsize
  have hrings : ∀ c < e.chains, buildRing e ((fun _ => [0, 2] : Nat → List Int) c) =
      some ((fun _ => r : Nat → Ring) c) := fun _ _ => hring
  obtain ⟨hready, _⟩ := initChains_ready (y := y) hrings fun _ => 0
  obtain ⟨rounds, d', _, hreturns, _⟩ := emitted_call_simulates hcode hpos (y := y)
    (d := ⟨fun _ => y.slot 0, initChains y (fun _ => [0, 2]) (fun _ => 0) e.chains, false, []⟩)
    hbench rfl hready.root_mem hready.root_eq hready.holds
    fun _ a ha => of_decide_eq_true (List.all_eq_true.mp hspace a ha)
  exact ⟨e, code, he, hcode, _, d', rounds, hreturns⟩

/-- The chains that `Run::run` builds with these values of `random()`: links and ring. -/
def ChainsBuilt (e : Experiment) (random : Nat → Nat → Nat) (links : Nat → List Int)
    (rings : Nat → Ring) : Prop :=
  ∀ c < e.chains, memLinks e (draws e (random c)) = some (links c) ∧
    memInit e (draws e (random c)) = some (rings c)

/-- From the command line to the bytes: wherever the blocks and the array `root` are and
whatever is in them, the initialisers and any number of calls of the emitted code end, each
call after the same number of instructions, with every pointer in place and every access
inside. A call makes as many rounds as `_ops_per_chain` says if no link is formed twice, and
fewer otherwise. -/
theorem emitted_calls_return (ha : parseArgs p args = .accepted e) (hfit : e.NodesFit)
    (hfan : e.FanOutFits) (hloop : e.loopLength < 2147483648)
    (random : Nat → Nat → Nat) (hr : ∀ c k, random c k < 2147483648) :
    ∃ (code : Code) (links : Nat → List Int) (rings : Nat → Ring) (rounds : Nat),
      chasePointers e = some code ∧ ChainsBuilt e random links rings ∧
      (rounds ≤ (rings 0).opsPerChain ∧ (rounds = (rings 0).opsPerChain ↔ (links 0).Nodup)) ∧
      ∀ (y : Layout e e.chains) (d : Data Gp) (entry : Nat → Gp → Word),
        (∀ i, entry i .chain = y.slot 0) → ∀ calls, ∃ d',
        Calls code entry (List.replicate calls (callSize e e.chains rounds))
          { d with memory := initChains y links d.memory e.chains } d' ∧
        (∀ c < e.chains, HoldsRing y c (rings c).next d'.memory) ∧
        SameBut y.Owned d.memory d'.memory ∧
        ∃ ts, d'.touched = d.touched ++ ts ∧ ∀ t ∈ ts, y.Safe t := by
  have hacc := accepted_of_parseArgs ha
  have hcount := (tables_of_parseArgs ha).chainsPerThread_lt
  have hpos : 0 < e.chains := by
    have := hacc.chainsPerThread_pos
    unfold Experiment.chains
    omega
  choose links hlinks hne hring using fun c =>
    memLinks_of_fits hacc.sizes hacc.stride_ne hfit (random c) (hr c)
  choose rings hrings using fun c => show ∃ r, buildRing e (links c) = some r from
    ⟨_, (buildRing_links e (links c) _).mpr ⟨hne c, fun l hl => (hring c l hl).inBlock, rfl⟩⟩
  obtain ⟨rounds, hfirst, hle, hnodup⟩ := firstReturn_of_links (hrings 0)
  refine ⟨_, links, rings, rounds, chasePointers_eq hcount hloop, ?_, ⟨hle, hnodup⟩, ?_⟩
  · intro c _
    refine ⟨hlinks c, ?_⟩
    rw [memInit_eq, hlinks c]
    exact hrings c
  intro y d entry hentry calls
  have hspare := storesSpare_of_fits hacc.sizes hacc.stride_ne hfit y.toPlacement
    (storesFit_of_fanOut hacc.sizes hfit hfan) (S := fun c => (· ∈ links c)) fun c _ => hring c
  have hinside : ∀ c < e.chains, ∀ l ∈ links c, ∀ a, AccessAt e c l a → a.Inside e :=
    fun c _ l hl a ha => inside_of_fits hacc.sizes hacc.stride_ne hfit hfan (hring c l hl) ha
  obtain ⟨hready, hsame⟩ := initChains_ready (y := y) (fun c _ => hrings c) d.memory
  have hstart : Standing y rings links
      { d with memory := initChains y links d.memory e.chains } (Machine.start rings)
      { d with memory := initChains y links d.memory e.chains } :=
    ⟨fun _ _ _ _ => rfl, fun _ _ _ _ h => h, hready, by simp [Machine.start], .refl _ _, [], by simp⟩
  obtain ⟨s, d', hcalls, hstanding⟩ :=
    hstart.calls y hpos (fun c _ => hrings c) hspare hinside hfirst hentry calls
  refine ⟨d', hcalls, ?_, hsame.trans hstanding.sameBut, hstanding.touched⟩
  exact hstanding.ready.holds

/-- Full strides of two lines of 40 bytes, stored to by three calls. -/
theorem emitted_calls_two_of_four :
    ∃ e code, parseArgs .single ["-l".toList, "40".toList, "-p".toList, "160".toList, "-c".toList,
      "160".toList, "-a".toList, "forward".toList, "2".toList, "-m".toList, "store_all".toList] =
        .accepted e ∧ chasePointers e = some code ∧
      ∃ (y : Layout e e.chains) (ring : Ring) (n : Nat) (d d' : Data Gp),
        memInit e (draws e fun _ => 0) = some ring ∧
        Calls code (fun _ _ => y.slot 0) [n, n, n] d d' ∧ HoldsRing y 0 ring.next d'.memory := by
  obtain ⟨e, he, hpattern, hn, hk, hstride, hbytes, hlinks, hchains, hloop⟩ :
      ∃ e, parseArgs .single ["-l".toList, "40".toList, "-p".toList, "160".toList, "-c".toList,
        "160".toList, "-a".toList, "forward".toList, "2".toList, "-m".toList, "store_all".toList] =
        .accepted e ∧ e.accessPattern = .strided ∧ e.linesPerChain = 4 ∧ e.linksPerLine = 2 ∧
      e.stride = 2 ∧ e.bytesPerLine = 40 ∧ e.linksPerChain = 8 ∧ e.chains = 1 ∧
      e.loopLength = 0 :=
    ⟨_, rfl, rfl, rfl, rfl, rfl, rfl, rfl, rfl, rfl⟩
  obtain ⟨hstep, hindex, hlines, hfit⟩ :=
    two_of_four hpattern hstride hn (by omega) (by omega)
  have hfan : e.FanOutFits := by
    refine .inr (.inr ?_)
    rw [Experiment.StrideInside, lastLink_strided hpattern, hindex, hstep, hlines, hk, hbytes,
      hlinks]
    decide
  obtain ⟨code, links, rings, rounds, hcode, hbuilt, _, hcalls⟩ := emitted_calls_return he hfit hfan
    (by omega) (fun _ _ => 0) fun _ _ => Nat.zero_lt_succ _
  let y : Layout e e.chains := .one e hchains (by omega)
  obtain ⟨d', hthree, hholds, _⟩ := hcalls y ⟨fun _ => 0, fun _ => 0, false, []⟩
    (fun _ _ => y.slot 0) (fun _ => rfl) 3
  exact ⟨e, code, he, hcode, y, rings 0, _, _, d', (hbuilt 0 (by omega)).2, hthree,
    hholds 0 (by omega)⟩

end Program

end PChase
