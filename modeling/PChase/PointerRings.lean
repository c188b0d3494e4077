import PChase.ByteMemory
import PChase.Chase

/-!
# Rings in memory

The initialisers work on pointers: a node is an address, a `next` field the word at it,
and `root == 0` tells the first node. Run on bytes they leave the fields of the ring that
is built on indices, and nothing else of the memory changes.
-/

namespace PChase

open CInt NextWalk ByteMemory
set_option autoImplicit false

/-- The blocks of one thread and its array `root`, in an address space of 64 bits; no
block is at the null address. -/
structure Layout (e : Experiment) (chains : Nat) extends Placement e chains where
  base_pos : ∀ c < chains, 0 < base c
  base_le : ∀ c < chains, base c + 16 * e.linksPerChain ≤ 18446744073709551616
  roots : Int
  roots_nonneg : 0 ≤ roots
  roots_le : roots + 8 * chains ≤ 18446744073709551616
  roots_disjoint : ∀ c < chains,
    roots + 8 * chains ≤ base c ∨ base c + 16 * e.linksPerChain ≤ roots

structure PointerBuilder where
  root : Word
  prev : Word
  memory : Memory
  localOpsPerChain : Int

/-- `mem + link` -/
def linkAddress (mem : Word) (link : Int) : Word := mem + BitVec.ofInt 64 (16 * link)

/-- The body of the loops; `next` is the first word of a node. -/
def visitPointer (mem : Word) (s : PointerBuilder) (link : Int) : PointerBuilder :=
  if s.root = 0 then
    { s with
      root := linkAddress mem link, prev := linkAddress mem link,
      localOpsPerChain := s.localOpsPerChain + 1 }
  else
    let memory := store s.memory s.prev (linkAddress mem link)
    { s with
      memory, prev := load memory s.prev, localOpsPerChain := s.localOpsPerChain + 1 }

/-- `prev->next = root` -/
def closePointer (s : PointerBuilder) : PointerBuilder :=
  { s with memory := store s.memory s.prev s.root }

/-- An initialiser that forms these links in the block `mem`. -/
def buildPointers (mem : Word) (links : List Int) (memory : Memory) : PointerBuilder :=
  closePointer (links.foldl (visitPointer mem) ⟨0, 0, memory, 0⟩)

variable {e : Experiment} {chains : Nat} (y : Layout e chains)

namespace Layout

def node (c : Nat) (l : Int) : Word := BitVec.ofInt 64 (y.base c + 16 * l)

def slot (c : Nat) : Word := BitVec.ofInt 64 (y.roots + 8 * c)

def InBlockOf (c : Nat) (x : Word) : Prop :=
  y.base c ≤ x.toNat ∧ (x.toNat : Int) < y.base c + 16 * e.linksPerChain

def InRoots (x : Word) : Prop := y.roots ≤ x.toNat ∧ (x.toNat : Int) < y.roots + 8 * chains

end Layout

/-- The pointers of a chain's fields are in memory, each as the address of its node. -/
def HoldsRing (c : Nat) (next : Next Int) (m : Memory) : Prop :=
  ∀ l l', next l = some l' → InBlock e l ∧ InBlock e l' ∧ load m (y.node c l) = y.node c l'

section Addresses
variable {y}

theorem node_toNat {c : Nat} (hc : c < chains) {l : Int} (hl : InBlock e l) :
    ((y.node c l).toNat : Int) = y.base c + 16 * l := by
  have hpos := y.base_pos c hc
  have hle := y.base_le c hc
  unfold InBlock at hl
  exact toNat_ofInt (by omega) (by omega)

theorem node_ne_zero {c : Nat} (hc : c < chains) {l : Int} (hl : InBlock e l) :
    y.node c l ≠ 0 := by
  intro hzero
  have htoNat := node_toNat (y := y) hc hl
  have hpos := y.base_pos c hc
  unfold InBlock at hl
  have hnull : (0 : Word).toNat = 0 := rfl
  rw [hzero, hnull] at htoNat
  omega

theorem node_inj {c : Nat} (hc : c < chains) {l l' : Int} (hl : InBlock e l)
    (hl' : InBlock e l') : y.node c l = y.node c l' ↔ l = l' := by
  constructor
  · intro h
    have h1 := node_toNat (y := y) hc hl
    have h2 := node_toNat (y := y) hc hl'
    rw [h] at h1
    omega
  · exact congrArg _

theorem linkAddress_eq (c : Nat) (l : Int) : linkAddress (y.node c 0) l = y.node c l := by
  rw [linkAddress, Layout.node, Layout.node, Int.mul_zero, Int.add_zero, BitVec.ofInt_add]

theorem nodes_apart {c c' : Nat} (hc : c < chains) (hc' : c' < chains) {l l' : Int}
    (hl : InBlock e l) (hl' : InBlock e l') (hne : c = c' → l ≠ l') :
    Apart (y.node c l) (y.node c' l') := by
  have h1 := y.base_pos c hc
  have h2 := y.base_le c hc
  have h3 := y.base_pos c' hc'
  have h4 := y.base_le c' hc'
  unfold InBlock at hl hl'
  apply apart_ofInt (by omega) (by omega) (by omega) (by omega)
  by_cases hcc : c = c'
  · have := hne hcc
    subst hcc
    omega
  · have := y.disjoint c hc c' hc' hcc
    omega

theorem node_byte {c : Nat} (hc : c < chains) {l : Int} (hl : InBlock e l) {k : Nat}
    (hk : k < 8) : y.InBlockOf c (y.node c l + BitVec.ofNat 64 k) := by
  have hpos := y.base_pos c hc
  have hle := y.base_le c hc
  unfold InBlock at hl
  have hbyte := toNat_word_byte (x := y.base c + 16 * l) (by omega) (by omega) hk
  unfold Layout.InBlockOf Layout.node
  omega

theorem slot_byte {c : Nat} (hc : c < chains) {k : Nat} (hk : k < 8) :
    y.InRoots (y.slot c + BitVec.ofNat 64 k) := by
  have hnonneg := y.roots_nonneg
  have hle := y.roots_le
  have hbyte := toNat_word_byte (x := y.roots + 8 * c) (by omega) (by omega) hk
  unfold Layout.InRoots Layout.slot
  omega

theorem store_node_sameBut {c : Nat} (hc : c < chains) {l : Int} (hl : InBlock e l) (m : Memory)
    (v : Word) : SameBut (y.InBlockOf c) m (store m (y.node c l) v) := by
  have hpos := y.base_pos c hc
  have hle := y.base_le c hc
  unfold InBlock at hl
  apply (store_sameBut m v (x := y.base c + 16 * l) (by omega) (by omega)).mono
  intro x hx
  unfold Layout.InBlockOf
  omega

theorem store_slot_sameBut {c : Nat} (hc : c < chains) (m : Memory) (v : Word) :
    SameBut y.InRoots m (store m (y.slot c) v) := by
  have hnonneg := y.roots_nonneg
  have hle := y.roots_le
  apply (store_sameBut m v (x := y.roots + 8 * c) (by omega) (by omega)).mono
  intro x hx
  unfold Layout.InRoots
  omega

theorem inBlockOf_unique {c c' : Nat} (hc : c < chains) (hc' : c' < chains) {x : Word}
    (h : y.InBlockOf c x) (h' : y.InBlockOf c' x) : c = c' := by
  by_contra hne
  have hdisjoint := y.disjoint c hc c' hc' hne
  unfold Layout.InBlockOf at h h'
  omega

theorem not_inRoots_of_inBlockOf {c : Nat} (hc : c < chains) {x : Word} (h : y.InBlockOf c x) :
    ¬ y.InRoots x := by
  have hdisjoint := y.roots_disjoint c hc
  unfold Layout.InBlockOf at h
  unfold Layout.InRoots
  omega

theorem slots_apart {c c' : Nat} (hc : c < chains) (hc' : c' < chains) (hne : c ≠ c') :
    Apart (y.slot c) (y.slot c') := by
  have hnonneg := y.roots_nonneg
  have hle := y.roots_le
  exact apart_ofInt (by omega) (by omega) (by omega) (by omega) (by omega)

end Addresses

structure Builds (c : Nat) (m : Memory) (s : Builder) (t : PointerBuilder) : Prop where
  root_none : s.root = none → t.root = 0
  root_some : ∀ l, s.root = some l → InBlock e l ∧ t.root = y.node c l
  prev_some : ∀ l, s.prev = some l → InBlock e l ∧ t.prev = y.node c l
  holds : HoldsRing y c s.next t.memory
  ops_eq : t.localOpsPerChain = s.localOpsPerChain
  sameBut : SameBut (y.InBlockOf c) m t.memory

section Build
variable {y} {c : Nat} (hc : c < chains) {m : Memory}
include hc

theorem holds_write {next : Next Int} {mem : Memory} {a b : Int} (ha : InBlock e a)
    (hb : InBlock e b) (h : HoldsRing y c next mem) :
    HoldsRing y c (write next a b) (store mem (y.node c a) (y.node c b)) := by
  intro l l' hl
  by_cases hla : l = a
  · subst hla
    rw [write_self, Option.some.injEq] at hl
    subst hl
    exact ⟨ha, hb, load_store_self _ _ _⟩
  · rw [write_of_ne hla] at hl
    obtain ⟨hin, hin', hload⟩ := h l l' hl
    refine ⟨hin, hin', ?_⟩
    rw [load_store_of_apart _ _ (nodes_apart hc hc ha hin fun _ heq => hla heq.symm), hload]

omit hc in
theorem Builds.start : Builds y c m Builder.start ⟨0, 0, m, 0⟩ := by
  refine ⟨fun _ => rfl, ?_, ?_, ?_, rfl, .refl _ m⟩
  · simp [Builder.start]
  · simp [Builder.start]
  · simp [HoldsRing, Builder.start]

theorem Builds.visit {s s' : Builder} {t : PointerBuilder} (h : Builds y c m s t) {l : Int}
    (hl : InBlock e l) (hvisit : visit e s l = some s') :
    Builds y c m s' (visitPointer (y.node c 0) t l) := by
  unfold PChase.visit at hvisit
  unfold visitPointer
  rw [linkAddress_eq]
  cases hroot : s.root with
  | none =>
    simp only [hroot, Option.some.injEq] at hvisit
    subst hvisit
    rw [if_pos (h.root_none hroot)]
    refine ⟨by simp, ?_, ?_, h.holds, ?_, h.sameBut⟩
    · rintro _ ⟨⟩
      exact ⟨hl, rfl⟩
    · rintro _ ⟨⟩
      exact ⟨hl, rfl⟩
    · simp only [h.ops_eq]
  | some root =>
    obtain ⟨hrootIn, hrootEq⟩ := h.root_some root hroot
    simp only [hroot] at hvisit
    obtain ⟨prev, hprev, hrest⟩ := Option.bind_eq_some_iff.mp hvisit
    obtain ⟨hprevIn, hprevEq⟩ := h.prev_some prev hprev
    simp only [setNext_of_inBlock e hprevIn, Option.bind_eq_bind, Option.bind_some, write_self,
      Option.pure_def, Option.some.injEq] at hrest
    subst hrest
    rw [if_neg (by rw [hrootEq]; exact node_ne_zero hc hrootIn), hprevEq]
    refine ⟨by simp, ?_, ?_, ?_, ?_, ?_⟩
    · rintro _ ⟨⟩
      exact ⟨hrootIn, hrootEq⟩
    · rintro _ ⟨⟩
      exact ⟨hl, load_store_self _ _ _⟩
    · exact holds_write hc hprevIn hl h.holds
    · simp only [h.ops_eq]
    · exact h.sameBut.trans (store_node_sameBut hc hprevIn _ _)

theorem Builds.visits {links : List Int} (hlinks : ∀ l ∈ links, InBlock e l) {s s' : Builder}
    {t : PointerBuilder} (h : Builds y c m s t)
    (hvisits : links.foldlM (PChase.visit e) s = some s') :
    Builds y c m s' (links.foldl (visitPointer (y.node c 0)) t) := by
  induction links generalizing s t with
  | nil =>
    simp only [List.foldlM_nil, Option.pure_def, Option.some.injEq] at hvisits
    subst hvisits
    exact h
  | cons l links ih =>
    rw [List.foldlM_cons] at hvisits
    obtain ⟨s₁, hvisit, hrest⟩ := Option.bind_eq_some_iff.mp hvisits
    exact ih (fun l' hl' => hlinks l' (List.mem_cons_of_mem l hl'))
      (h.visit hc (hlinks l List.mem_cons_self) hvisit) hrest

/-- Run on bytes, an initialiser builds the ring it builds on indices. -/
theorem buildPointers_ring {links : List Int} {r : Ring} (h : buildRing e links = some r) :
    InBlock e r.root ∧ (buildPointers (y.node c 0) links m).root = y.node c r.root ∧
      (buildPointers (y.node c 0) links m).localOpsPerChain = r.opsPerChain ∧
      HoldsRing y c r.next (buildPointers (y.node c 0) links m).memory ∧
      SameBut (y.InBlockOf c) m (buildPointers (y.node c 0) links m).memory := by
  have hlinks := ((buildRing_links e links r).mp h).2.1
  obtain ⟨s, hvisits, hclose⟩ := Option.bind_eq_some_iff.mp h
  have hstart : Builds y c m Builder.start ⟨0, 0, m, 0⟩ := Builds.start
  have hbuilds := hstart.visits hc hlinks hvisits
  obtain ⟨prev, hprev, hrest⟩ := Option.bind_eq_some_iff.mp hclose
  obtain ⟨root, hroot, hrest⟩ := Option.bind_eq_some_iff.mp hrest
  obtain ⟨hprevIn, hprevEq⟩ := hbuilds.prev_some prev hprev
  obtain ⟨hrootIn, hrootEq⟩ := hbuilds.root_some root hroot
  simp only [setNext_of_inBlock e hprevIn, Option.bind_eq_bind, Option.bind_some,
    Option.pure_def, Option.some.injEq] at hrest
  subst hrest
  refine ⟨hrootIn, hrootEq, hbuilds.ops_eq, ?_, ?_⟩
  · simp only [buildPointers, closePointer, hprevEq, hrootEq]
    exact holds_write hc hprevIn hrootIn hbuilds.holds
  · simp only [buildPointers, closePointer, hprevEq]
    exact hbuilds.sameBut.trans (store_node_sameBut hc hprevIn _ _)

end Build

/-- The thread's chains, one after the other: `root[i]` is what the initialiser returns. -/
def initChains (links : Nat → List Int) (m : Memory) : Nat → Memory
  | 0 => m
  | k + 1 =>
    let t := buildPointers (y.node k 0) (links k) (initChains links m k)
    store t.memory (y.slot k) t.root

structure Ready (rings : Nat → Ring) (k : Nat) (m : Memory) : Prop where
  root_mem : ∀ c < k, InBlock e (rings c).root
  root_eq : ∀ c < k, load m (y.slot c) = y.node c (rings c).root
  holds : ∀ c < k, HoldsRing y c (rings c).next m

section Chains
variable {y} {rings : Nat → Ring} {k : Nat} {m m' : Memory}

theorem HoldsRing.of_sameBut {c : Nat} (hc : c < chains) {next : Next Int}
    (h : HoldsRing y c next m) {S : Word → Prop} (hsame : SameBut S m m')
    (hS : ∀ x, y.InBlockOf c x → ¬ S x) : HoldsRing y c next m' := by
  intro l l' hl
  obtain ⟨hin, hin', hload⟩ := h l l' hl
  refine ⟨hin, hin', ?_⟩
  rw [hsame.load_eq fun i hi => hS _ (node_byte hc hin hi), hload]

theorem Ready.succ {links : List Int} (hk : k < chains) (h : Ready y rings k m)
    (hring : buildRing e links = some (rings k)) :
    Ready y rings (k + 1) (store (buildPointers (y.node k 0) links m).memory (y.slot k)
      (buildPointers (y.node k 0) links m).root) := by
  obtain ⟨hrootIn, hroot, _, hholds, hsame⟩ := buildPointers_ring hk (y := y) (m := m) hring
  generalize buildPointers (y.node k 0) links m = t at hroot hholds hsame ⊢
  have hslot := store_slot_sameBut hk (y := y) t.memory t.root
  refine ⟨?_, ?_, ?_⟩
  · intro c hc
    rcases Nat.lt_succ_iff_lt_or_eq.mp hc with hlt | rfl
    · exact h.root_mem c hlt
    · exact hrootIn
  · intro c hc
    rcases Nat.lt_succ_iff_lt_or_eq.mp hc with hlt | rfl
    · have hbytes : load t.memory (y.slot c) = load m (y.slot c) := hsame.load_eq fun i hi hin =>
        not_inRoots_of_inBlockOf hk hin (slot_byte (by omega) hi)
      rw [load_store_of_apart _ _ (slots_apart hk (by omega) (by omega)), hbytes, h.root_eq c hlt]
    · rw [load_store_self, hroot]
  · intro c hc
    rcases Nat.lt_succ_iff_lt_or_eq.mp hc with hlt | rfl
    · have hchain : HoldsRing y c (rings c).next t.memory :=
        (h.holds c hlt).of_sameBut (by omega) hsame fun x hx hx' => by
          have := inBlockOf_unique (by omega) hk hx hx'
          omega
      exact hchain.of_sameBut (by omega) hslot fun _ => not_inRoots_of_inBlockOf (by omega)
    · exact hholds.of_sameBut hk hslot fun _ => not_inRoots_of_inBlockOf hk

/-- After the loop of `Run::run` over the chains every ring is in its block, the array
`root` points to them, and the rest of the memory is as it was. -/
theorem initChains_ready {links : Nat → List Int}
    (hrings : ∀ c < chains, buildRing e (links c) = some (rings c)) (m : Memory) :
    Ready y rings chains (initChains y links m chains) ∧
      SameBut (fun x => y.InRoots x ∨ ∃ c < chains, y.InBlockOf c x) m
        (initChains y links m chains) := by
  have hpart : ∀ k ≤ chains, Ready y rings k (initChains y links m k) ∧
      SameBut (fun x => y.InRoots x ∨ ∃ c < chains, y.InBlockOf c x) m
        (initChains y links m k) := by
    intro k hk
    induction k with
    | zero => exact ⟨⟨by omega, by omega, by omega⟩, .refl _ m⟩
    | succ k ih =>
      have hlt : k < chains := by omega
      obtain ⟨hready, hsame⟩ := ih (by omega)
      obtain ⟨_, _, _, _, hblock⟩ := buildPointers_ring hlt (y := y)
        (m := initChains y links m k) (hrings k hlt)
      rw [initChains]
      refine ⟨hready.succ hlt (hrings k hlt), ?_⟩
      refine hsame.trans ((hblock.mono fun x hx => .inr ⟨k, hlt, hx⟩).trans ?_)
      exact (store_slot_sameBut hlt _ _).mono fun _ => .inl
  exact hpart chains (Nat.le_refl _)

end Chains

end PChase
