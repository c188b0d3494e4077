import PChase.ChasePointers

/-!
# The code does what the loop does

Code and loop go side by side: the position registers are the addresses of the nodes the
chains are at, and every field that still holds a pointer holds it in memory. One chain,
one round and one call keep this, and the accesses of the code are those of the loop.
-/

namespace PChase

open CInt NextWalk ByteMemory RegisterMachine
set_option autoImplicit false

variable {e : Experiment} {chains : Nat} (y : Layout e chains)

def Layout.target (a : Access) : Word := BitVec.ofInt 64 (y.base a.chain + a.offset)

/-- The access does not wrap around the address space. -/
def Layout.Addressable (a : Access) : Prop :=
  0 ≤ y.base a.chain + a.offset ∧ y.base a.chain + a.offset + 8 ≤ 18446744073709551616

instance Layout.decidableAddressable (a : Access) : Decidable (y.Addressable a) :=
  inferInstanceAs (Decidable (_ ∧ _))

def Layout.PointerRead (t : Touch Gp) : Prop :=
  t.store = false ∧ ((∃ c < chains, t.address = y.slot c) ∨
    ∃ c < chains, ∃ l, InBlock e l ∧ t.address = y.node c l)

/-- From one state of the data to another the code makes these accesses, reads pointers,
and changes no byte that a store among the accesses does not reach. -/
structure Performs (accesses : List Access) (d d' : Data Gp) : Prop where
  memory : SameBut (fun x => e.memOperation.isStore = true ∧
    ∃ a ∈ accesses, (x - y.target a).toNat < 8) d.memory d'.memory
  touched : ∃ ts, d'.touched = d.touched ++ ts ∧
    ((ts.filter (·.reg.isVal)).map fun t => (t.store, t.address)) =
      (accesses.map fun a => (e.memOperation.isStore, y.target a)) ∧
    ∀ t ∈ ts, t.reg.isVal = false → y.PointerRead t

/-- The position registers and the memory are those of the loop. -/
structure Represents (head : Word) (s : Machine) (d : Data Gp) : Prop where
  head_eq : d.regs .head = head
  pos_mem : ∀ c < chains, InBlock e (s.pos c)
  pos_eq : ∀ c < chains, d.regs (.positions c) = y.node c (s.pos c)
  holds : ∀ c < chains, HoldsRing y c (s.mem c) d.memory

section Logs
variable {pl : Placement e chains} {s s' : Machine}

theorem chaseChain_log {c : Nat} (h : chaseChain pl s c = some s') :
    s'.log = s.log ++ accessesAt e c (s'.pos c) := by
  obtain ⟨l, _, hstep⟩ := Option.bind_eq_some_iff.mp h
  simp only [Option.pure_def, Option.some.injEq] at hstep
  subst hstep
  simp [operate, accessesAt]

theorem benchRounds_log {head : Int} {fuel n : Nat}
    (h : benchRounds pl head fuel s = some (n, s')) : ∃ as, s'.log = s.log ++ as := by
  induction fuel generalizing s n with
  | zero => simp [benchRounds] at h
  | succ fuel ih =>
    obtain ⟨s₁, hround, hrest⟩ := Option.bind_eq_some_iff.mp h
    have hlog := chaseRound_log pl hround
    split at hrest
    · simp only [Option.pure_def, Option.some.injEq, Prod.mk.injEq] at hrest
      exact ⟨_, hrest.2 ▸ hlog⟩
    · obtain ⟨⟨n', s₂⟩, hloop, hcount⟩ := Option.bind_eq_some_iff.mp hrest
      simp only [Option.pure_def, Option.some.injEq, Prod.mk.injEq] at hcount
      obtain ⟨rfl, rfl⟩ := hcount
      obtain ⟨as, has⟩ := ih hloop
      exact ⟨_, by rw [has, hlog, List.append_assoc]⟩

end Logs

namespace Performs
variable {y} {as as' : List Access} {d d' d'' : Data Gp}

theorem refl (d : Data Gp) : Performs y [] d d := ⟨.refl _ _, [], by simp⟩

theorem trans (h : Performs y as d d') (h' : Performs y as' d' d'') :
    Performs y (as ++ as') d d'' := by
  obtain ⟨ts, hts, hdata, hread⟩ := h.touched
  obtain ⟨ts', hts', hdata', hread'⟩ := h'.touched
  refine ⟨?_, ts ++ ts', ?_, ?_, ?_⟩
  · apply SameBut.trans
    · exact h.memory.mono fun x ⟨hst, a, ha, hx⟩ => ⟨hst, a, List.mem_append_left _ ha, hx⟩
    · exact h'.memory.mono fun x ⟨hst, a, ha, hx⟩ => ⟨hst, a, List.mem_append_right _ ha, hx⟩
  · rw [hts', hts, List.append_assoc]
  · rw [List.filter_append, List.map_append, List.map_append, hdata, hdata']
  · intro t ht
    rcases List.mem_append.mp ht with ht | ht
    · exact hread t ht
    · exact hread' t ht

end Performs

section Steps
variable {y} {head : Word} {s s' : Machine} {d : Data Gp}

theorem ldr_performs {g base : Gp} {offset : Int} (hg : g.isVal = false)
    (hread : y.PointerRead ⟨false, g, d.address base offset⟩) :
    Performs y [] d ((Instr.ldr g base offset : Instr Gp Label).exec d) := by
  refine ⟨.refl _ _, [⟨false, g, d.address base offset⟩], rfl, ?_, ?_⟩
  · simp [hg]
  · intro t ht _
    rw [List.mem_singleton.mp ht]
    exact hread

theorem dataCode_performs {c : Nat} {l : Int} (hpos : d.regs (.positions c) = y.node c l)
    (ps : List (Int × Nat)) :
    (∀ g, g.isVal = false → (execAll d (ps.map (dataAccess e c))).regs g = d.regs g) ∧
      Performs y (ps.map fun p => ⟨c, 16 * l + p.1⟩) d (execAll d (ps.map (dataAccess e c))) := by
  induction ps generalizing d with
  | nil => exact ⟨fun _ _ => rfl, .refl d⟩
  | cons p ps ih =>
    have htarget : d.address (.positions c) p.1 = y.target ⟨c, 16 * l + p.1⟩ := by
      rw [Data.address, hpos, Layout.node, Layout.target, ← BitVec.ofInt_add, Int.add_assoc]
    have hfirst : (∀ g, g.isVal = false → ((dataAccess e c p).exec d).regs g = d.regs g) ∧
        Performs y [⟨c, 16 * l + p.1⟩] d ((dataAccess e c p).exec d) := by
      unfold dataAccess
      cases hst : e.memOperation.isStore with
      | true =>
        refine ⟨fun _ _ => rfl, ?_, [⟨true, .vals p.2, y.target ⟨c, 16 * l + p.1⟩⟩], ?_, ?_, ?_⟩
        · intro x hx
          apply store_of_far
          rw [htarget]
          by_contra hnear
          exact hx ⟨hst, _, List.mem_singleton_self _, by omega⟩
        · simp [Instr.exec, htarget]
        · simp [Gp.isVal, hst]
        · simp [Gp.isVal]
      | false =>
        refine ⟨fun g hg => ?_, .refl _ _, [⟨false, .vals p.2, y.target ⟨c, 16 * l + p.1⟩⟩], ?_, ?_, ?_⟩
        · exact Function.update_of_ne (fun heq => by rw [heq] at hg; simp [Gp.isVal] at hg) _ _
        · simp [Instr.exec, htarget]
        · simp [Gp.isVal, hst]
        · simp [Gp.isVal]
    obtain ⟨hregs, hperforms⟩ := hfirst
    obtain ⟨hregs', hperforms'⟩ := ih (d := (dataAccess e c p).exec d)
      ((hregs _ rfl).trans hpos)
    exact ⟨fun g hg => (hregs' g hg).trans (hregs g hg), hperforms.trans hperforms'⟩

/-- A pointer that the operation leaves on the fields it leaves in memory. -/
theorem holds_operate {c : Nat} {l : Int} {d' : Data Gp}
    (hholds : ∀ c' < chains, HoldsRing y c' (s.mem c') d.memory)
    (hspace : e.memOperation.isStore = true → ∀ o ∈ dataOffsets e,
      y.Addressable ⟨c, 16 * l + o⟩)
    (h : Performs y ((dataOffsets e).map fun o => ⟨c, 16 * l + o⟩) d d') :
    ∀ c' < chains, HoldsRing y c' ((operate y.toPlacement s c l).mem c') d'.memory := by
  intro c' hc' l' l'' hnext
  simp only [operate] at hnext
  split at hnext
  · simp at hnext
  rename_i hspared
  obtain ⟨hin, hin', hload⟩ := hholds c' hc' l' l'' hnext
  refine ⟨hin, hin', ?_⟩
  rw [← hload]
  apply h.memory.load_eq
  rintro k hk ⟨hst, a, ha, hnear⟩
  obtain ⟨o, ho, rfl⟩ := List.mem_map.mp ha
  have hclear : overlaps y.toPlacement c' l' (y.base c + 16 * l + o) = false := by
    rw [Bool.and_eq_true, List.any_eq_true] at hspared
    by_contra hover
    exact hspared ⟨hst, o, ho, by simpa using hover⟩
  have hpos := y.base_pos c' hc'
  have hle := y.base_le c' hc'
  unfold InBlock at hin
  simp only [overlaps, decide_eq_false_iff_not] at hclear
  have hbyte : ((y.node c' l' + BitVec.ofNat 64 k).toNat : Int) = y.base c' + 16 * l' + k :=
    toNat_word_byte (by omega) (by omega) hk
  have htarget : y.base c + (16 * l + o) ≤ (y.node c' l' + BitVec.ofNat 64 k).toNat ∧
      ((y.node c' l' + BitVec.ofNat 64 k).toNat : Int) < y.base c + (16 * l + o) + 8 :=
    byte_of_near (hspace hst o ho).1 (hspace hst o ho).2 hnear
  omega

/-- One chain: its pointer is loaded and the operation follows. -/
theorem chainCode_represents {c : Nat} (hc : c < chains) (h : Represents y head s d)
    (hstep : chaseChain y.toPlacement s c = some s')
    (hspace : e.memOperation.isStore = true → ∀ a ∈ s'.log, y.Addressable a) :
    Represents y head s' (execAll d (chainCode e c)) ∧ ∃ as, s'.log = s.log ++ as ∧
      Performs y as d (execAll d (chainCode e c)) := by
  obtain ⟨l, hnext, hstep⟩ := Option.bind_eq_some_iff.mp hstep
  simp only [Option.pure_def, Option.some.injEq] at hstep
  subst hstep
  obtain ⟨hin, hin', hload⟩ := h.holds c hc _ _ hnext
  have haddress : d.address (.positions c) 0 = y.node c (s.pos c) := by
    rw [Data.address, h.pos_eq c hc]
    exact BitVec.add_zero _
  have hpointer : y.PointerRead ⟨false, .positions c, d.address (.positions c) 0⟩ :=
    ⟨rfl, .inr ⟨c, hc, s.pos c, hin, haddress⟩⟩
  have hchase := ldr_performs (d := d) rfl hpointer
  have hregs₁ : ((Instr.ldr (.positions c) (.positions c) 0 : Instr Gp Label).exec d).regs =
      Function.update d.regs (.positions c) (y.node c l) := by
    simp only [Instr.exec, haddress, hload]
  rw [chainCode, execAll_cons, dataCode_eq]
  generalize (Instr.ldr (.positions c) (.positions c) 0 : Instr Gp Label).exec d = d₁
    at hchase hregs₁
  have hpos₁ : d₁.regs (.positions c) = y.node c l := by rw [hregs₁, Function.update_self]
  obtain ⟨hregs, hdata⟩ := dataCode_performs hpos₁ (dataOffsets e).zipIdx
  have haccesses : ((dataOffsets e).zipIdx.map fun p : Int × Nat => (⟨c, 16 * l + p.1⟩ : Access)) =
      (dataOffsets e).map fun o => ⟨c, 16 * l + o⟩ := by
    have hmap := List.map_map (l := (dataOffsets e).zipIdx) (f := Prod.fst)
      (g := fun o => (⟨c, 16 * l + o⟩ : Access))
    rw [List.zipIdx_map_fst] at hmap
    exact hmap.symm
  rw [haccesses] at hdata
  have hall := hchase.trans hdata
  rw [List.nil_append] at hall
  refine ⟨⟨?_, ?_, ?_, ?_⟩, _, rfl, hall⟩
  · rw [hregs _ rfl, hregs₁, Function.update_of_ne (by simp), h.head_eq]
  · intro c' hc'
    simp only [operate]
    rw [Function.update_apply]
    split
    · exact hin'
    · exact h.pos_mem c' hc'
  · intro c' hc'
    rw [hregs _ rfl, hregs₁]
    by_cases hcc : c' = c
    · subst hcc
      simp [operate]
    · simp only [operate]
      rw [Function.update_of_ne (by simpa using hcc), Function.update_of_ne hcc, h.pos_eq c' hc']
  · have hspace' : e.memOperation.isStore = true → ∀ o ∈ dataOffsets e,
        y.Addressable ⟨c, 16 * l + o⟩ := by
      intro hst o ho
      apply hspace hst
      simp only [operate, List.mem_append, List.mem_map]
      exact .inr ⟨o, ho, rfl⟩
    exact holds_operate (s := { s with pos := Function.update s.pos c l }) h.holds hspace' hall

theorem chains_represent {k : Nat} (hk : k ≤ chains) (h : Represents y head s d)
    (hstep : (List.range k).foldlM (chaseChain y.toPlacement) s = some s')
    (hspace : e.memOperation.isStore = true → ∀ a ∈ s'.log, y.Addressable a) :
    Represents y head s' (execAll d ((List.range k).flatMap (chainCode e))) ∧
      ∃ as, s'.log = s.log ++ as ∧
        Performs y as d (execAll d ((List.range k).flatMap (chainCode e))) := by
  induction k generalizing s' with
  | zero =>
    simp only [List.range_zero, List.foldlM_nil, Option.pure_def, Option.some.injEq] at hstep
    subst hstep
    exact ⟨h, [], by simp, .refl d⟩
  | succ k ih =>
    rw [List.range_succ, List.foldlM_append] at hstep
    obtain ⟨s₁, hfold, hlast⟩ := Option.bind_eq_some_iff.mp hstep
    simp only [List.foldlM_cons, List.foldlM_nil, bind_pure] at hlast
    have hgrown := chaseChain_log hlast
    obtain ⟨hrep, as, hlog, hperforms⟩ := ih (by omega) hfold fun hst a ha =>
      hspace hst a (by rw [hgrown]; exact List.mem_append_left _ ha)
    obtain ⟨hrep', as', hlog', hperforms'⟩ := chainCode_represents (by omega) hrep hlast hspace
    rw [List.range_succ, List.flatMap_append, execAll_append]
    simp only [List.flatMap_cons, List.flatMap_nil, List.append_nil]
    exact ⟨hrep', as ++ as', by rw [hlog', hlog, List.append_assoc], hperforms.trans hperforms'⟩

theorem execAll_nops (n : Nat) (d : Data Gp) :
    execAll d (List.replicate n .nop : Code) = d := by
  induction n with
  | zero => rfl
  | succ n ih => rw [List.replicate_succ, execAll_cons]; exact ih

/-- One round: the chains in turn, then the waits. -/
theorem roundCode_represents (h : Represents y head s d)
    (hround : chaseRound y.toPlacement s = some s')
    (hspace : e.memOperation.isStore = true → ∀ a ∈ s'.log, y.Addressable a) :
    Represents y head s' (execAll d (roundCode e chains)) ∧
      ∃ as, s'.log = s.log ++ as ∧ Performs y as d (execAll d (roundCode e chains)) := by
  rw [roundCode, execAll_append, execAll_nops]
  exact chains_represent (Nat.le_refl _) h hround hspace

theorem Represents.flag {b : Bool} (h : Represents y head s d) :
    Represents y head s { d with equal := b } := ⟨h.head_eq, h.pos_mem, h.pos_eq, h.holds⟩

theorem Performs.flag {as : List Access} {d' : Data Gp} {b : Bool} (h : Performs y as d d') :
    Performs y as d { d' with equal := b } := ⟨h.memory, h.touched⟩

/-- Equal addresses are equal nodes, so the code leaves its loop with the loop on indices. -/
theorem benchRounds_represents (hchains : 0 < chains) {root : Int} (hroot : InBlock e root)
    {fuel n : Nat} (h : Represents y (y.node 0 root) s d)
    (hrounds : benchRounds y.toPlacement root fuel s = some (n, s'))
    (hspace : e.memOperation.isStore = true → ∀ a ∈ s'.log, y.Addressable a) :
    ∃ d', Rounds (roundCode e chains) .head (.positions 0) n d d' ∧
      Represents y (y.node 0 root) s' d' ∧ ∃ as, s'.log = s.log ++ as ∧ Performs y as d d' := by
  induction fuel generalizing s d n with
  | zero => simp [benchRounds] at hrounds
  | succ fuel ih =>
    obtain ⟨s₁, hround, hrest⟩ := Option.bind_eq_some_iff.mp hrounds
    by_cases hend : s₁.pos 0 = root
    · rw [if_pos hend] at hrest
      simp only [Option.pure_def, Option.some.injEq, Prod.mk.injEq] at hrest
      obtain ⟨rfl, rfl⟩ := hrest
      obtain ⟨hrep, as, hlog, hperforms⟩ := roundCode_represents h hround hspace
      refine ⟨_, .last rfl ?_, hrep.flag, as, hlog, hperforms.flag⟩
      rw [hrep.head_eq, hrep.pos_eq 0 hchains, hend]
    · rw [if_neg hend] at hrest
      obtain ⟨⟨n', s₂⟩, hloop, hcount⟩ := Option.bind_eq_some_iff.mp hrest
      simp only [Option.pure_def, Option.some.injEq, Prod.mk.injEq] at hcount
      obtain ⟨rfl, rfl⟩ := hcount
      obtain ⟨later, hlater⟩ := benchRounds_log hloop
      obtain ⟨hrep, as, hlog, hperforms⟩ := roundCode_represents h hround fun hst a ha =>
        hspace hst a (by rw [hlater]; exact List.mem_append_left _ ha)
      obtain ⟨d', hrun, hrep', as', hlog', hperforms'⟩ := ih (hrep.flag (b := false)) hloop
      refine ⟨d', .more rfl ?_ hrun, hrep', as ++ as', ?_, hperforms.flag.trans hperforms'⟩
      · rw [hrep.head_eq, hrep.pos_eq 0 hchains, ne_eq,
          node_inj hchains hroot (hrep.pos_mem 0 hchains)]
        exact fun heq => hend heq.symm
      · rw [hlog', hlog, List.append_assoc]

end Steps

section Call
variable {y} {d : Data Gp} {s s' : Machine} {root : Nat → Int}

theorem positionCode_loads (hchain : d.regs .chain = y.slot 0)
    (hroots : ∀ c < chains, load d.memory (y.slot c) = y.node c (root c)) {k : Nat}
    (hk : k ≤ chains) :
    (∀ c < k, (execAll d (positionCode (List.range k))).regs (.positions c) = y.node c (root c)) ∧
      (∀ g, (∀ c, g ≠ .positions c) → (execAll d (positionCode (List.range k))).regs g = d.regs g) ∧
      Performs y [] d (execAll d (positionCode (List.range k))) ∧
      (execAll d (positionCode (List.range k))).memory = d.memory := by
  induction k with
  | zero => exact ⟨by omega, fun _ _ => rfl, .refl d, rfl⟩
  | succ k ih =>
    obtain ⟨hpos, hrest, hperforms, hmemory⟩ := ih (by omega)
    have hcode : positionCode (List.range (k + 1)) =
        positionCode (List.range k) ++ [.ldr (.positions k) .chain (8 * k)] := by
      rw [List.range_succ, positionCode, positionCode, List.map_append]
      rfl
    rw [hcode, execAll_append, execAll_cons, execAll_nil]
    generalize execAll d (positionCode (List.range k)) = d₁ at hpos hrest hperforms hmemory
    have haddress : d₁.address .chain (8 * k) = y.slot k := by
      rw [Data.address, hrest _ (by simp), hchain, Layout.slot, Layout.slot, ← BitVec.ofInt_add]
      congr 1
      omega
    have hpointer : y.PointerRead ⟨false, .positions k, d₁.address .chain (8 * k)⟩ :=
      ⟨rfl, .inl ⟨k, by omega, haddress⟩⟩
    have hread := ldr_performs rfl hpointer
    refine ⟨?_, ?_, hperforms.trans hread, hmemory⟩
    · intro c hc
      simp only [Instr.exec, haddress, hmemory, hroots k (by omega)]
      by_cases hck : c = k
      · rw [hck, Function.update_self]
      · rw [Function.update_of_ne (by simpa using hck)]
        exact hpos c (by omega)
    · intro g hg
      simp only [Instr.exec]
      rw [Function.update_of_ne (hg k)]
      exact hrest g hg

theorem valCode_performs (n : Nat) :
    (∀ g, g.isVal = false → (execAll d (valCode n)).regs g = d.regs g) ∧
      Performs y [] d (execAll d (valCode n)) ∧ (execAll d (valCode n)).memory = d.memory := by
  induction n with
  | zero => exact ⟨fun _ _ => rfl, .refl d, rfl⟩
  | succ n ih =>
    obtain ⟨hregs, hperforms, hmemory⟩ := ih
    have hcode : valCode (n + 1) =
        valCode n ++ [.mov (.vals n) (BitVec.ofNat 64 (100 * n % 4294967296))] := by
      rw [valCode, List.range_succ, List.map_append]
      rfl
    rw [hcode, execAll_append, execAll_cons, execAll_nil]
    refine ⟨fun g hg => ?_, ⟨hperforms.memory, hperforms.touched⟩, hmemory⟩
    simp only [Instr.exec]
    rw [Function.update_of_ne fun heq => by rw [heq] at hg; simp [Gp.isVal] at hg]
    exact hregs g hg

theorem entryCode_represents (hchains : 0 < chains) (hchain : d.regs .chain = y.slot 0)
    (hmem : ∀ c < chains, InBlock e (root c))
    (hroots : ∀ c < chains, load d.memory (y.slot c) = y.node c (root c))
    (hholds : ∀ c < chains, HoldsRing y c (s.mem c) d.memory) :
    Represents y (y.node 0 (root 0)) { s with pos := root } (execAll d (entryCode e chains)) ∧
      Performs y [] d (execAll d (entryCode e chains)) := by
  have haddress : d.address .chain 0 = y.slot 0 := by
    rw [Data.address, hchain]
    exact BitVec.add_zero _
  have hpointer : y.PointerRead ⟨false, .head, d.address .chain 0⟩ :=
    ⟨rfl, .inl ⟨0, hchains, haddress⟩⟩
  have hhead := ldr_performs rfl hpointer
  have hregs : ((Instr.ldr .head .chain 0 : Instr Gp Label).exec d).regs =
      Function.update d.regs .head (y.node 0 (root 0)) := by
    simp only [Instr.exec, haddress, hroots 0 hchains]
  have hmemory : ((Instr.ldr .head .chain 0 : Instr Gp Label).exec d).memory = d.memory := rfl
  rw [entryCode, execAll_append, execAll_cons]
  generalize (Instr.ldr .head .chain 0 : Instr Gp Label).exec d = d₁ at hhead hregs hmemory
  have hchain₁ : d₁.regs .chain = y.slot 0 := by
    rw [hregs, Function.update_of_ne (by simp), hchain]
  have hroots₁ : ∀ c < chains, load d₁.memory (y.slot c) = y.node c (root c) := by rwa [hmemory]
  obtain ⟨hpos, hrest, hperforms, hmemory₁⟩ :=
    positionCode_loads hchain₁ hroots₁ (Nat.le_refl chains)
  generalize execAll d₁ (positionCode (List.range chains)) = d₂ at hpos hrest hperforms hmemory₁
  obtain ⟨hvals, hperforms₁, hmemory₂⟩ := valCode_performs (y := y) (d := d₂) (valNum e)
  refine ⟨⟨?_, hmem, ?_, ?_⟩, (hhead.trans hperforms).trans hperforms₁⟩
  · rw [hvals _ rfl, hrest _ (by simp), hregs, Function.update_self]
  · intro c hc
    rw [hvals _ rfl, hpos c hc]
  · rw [hmemory₂, hmemory₁, hmemory]
    exact hholds

def callSize (e : Experiment) (chains rounds : Nat) : Nat :=
  1 + chains + valNum e +
    rounds * (chains * (1 + (dataOffsets e).length) + e.loopLength.toNat + 2)

/-- A call of the code on a memory that holds the roots and the fields returns when the
loop on indices does: with its positions and fields, the accesses it makes, and as many
rounds of instructions as it has rounds. -/
theorem chaseCode_returns (hchains : 0 < chains) (hchain : d.regs .chain = y.slot 0)
    (hmem : ∀ c < chains, InBlock e (root c))
    (hroots : ∀ c < chains, load d.memory (y.slot c) = y.node c (root c))
    (hholds : ∀ c < chains, HoldsRing y c (s.mem c) d.memory) {fuel rounds : Nat}
    (hrounds : benchRounds y.toPlacement (root 0) fuel { s with pos := root } = some (rounds, s'))
    (hspace : e.memOperation.isStore = true → ∀ a ∈ s'.log, y.Addressable a) :
    ∃ d', Returns (chaseCode e chains) (callSize e chains rounds) d d' ∧
      (∀ c < chains, d'.regs (.positions c) = y.node c (s'.pos c)) ∧
      (∀ c < chains, HoldsRing y c (s'.mem c) d'.memory) ∧
      ∃ as, s'.log = s.log ++ as ∧ Performs y as d d' := by
  obtain ⟨hentry, hreads⟩ := entryCode_represents hchains hchain hmem hroots hholds
  obtain ⟨d', hloop, hrep, as, hlog, hperforms⟩ :=
    benchRounds_represents hchains (hmem 0 hchains) hentry hrounds hspace
  have hcode : chaseCode e chains = [] ++ entryCode e chains ++
      (.label .loop :: roundCode e chains ++ [.cmp .head (.positions 0), .bne .loop]) := rfl
  have hbefore := runs_straight hcode (fun x hx => (entryCode_straight e chains x hx).1) d
  have hparts : chaseCode e chains = entryCode e chains ++
      (.label .loop :: roundCode e chains ++ [.cmp .head (.positions 0), .bne .loop]) := rfl
  have hafter := hloop.runs hparts (roundCode_straight e chains)
    fun x hx => (entryCode_straight e chains x hx).2
  rw [List.length_nil, Nat.zero_add] at hbefore
  have hall := hbefore.trans hafter
  rw [size_entryCode, size_roundCode] at hall
  exact ⟨d', hall, hrep.pos_eq, hrep.holds, as, hlog, hreads.trans hperforms⟩

end Call

end PChase
