import PChase.LapRounds
import PChase.PointerRings
import PChase.RegisterMachine

/-!
# The generated code

`chase_pointers` emits the instructions of the loop with a virtual register for each
position and value. Run on a memory that holds the rings the code does what the loop on
indices does: it makes the same accesses in the same order, reads pointers where nodes
and roots are, and leaves after the same number of rounds.
-/

namespace PChase

open CInt CountLoop NextWalk ByteMemory RegisterMachine
set_option autoImplicit false

/-- The virtual registers of the function. -/
inductive Gp where
  | chain
  | head
  | positions (i : Nat)
  | vals (i : Nat)
  deriving Repr, DecidableEq

inductive Label where
  | loop
  deriving Repr, DecidableEq

abbrev Code := List (Instr Gp Label)

/-- The memory operation at `positions[i]`. -/
def dataCode (e : Experiment) (i : Nat) : Code :=
  match e.memOperation with
  | .na => []
  | .load => [.ldr (.vals 0) (.positions i) 8]
  | .store => [.str (.vals 0) (.positions i) 8]
  | .loadAll => (List.range (valNum e)).map fun j : Nat =>
      .ldr (.vals j) (.positions i) (wrap64 (j * e.bytesPerLine) + 8)
  | .storeAll => (List.range (valNum e)).map fun j : Nat =>
      .str (.vals j) (.positions i) (wrap64 (j * e.bytesPerLine) + 8)

def chainCode (e : Experiment) (i : Nat) : Code :=
  .ldr (.positions i) (.positions i) 0 :: dataCode e i

/-- The loads of `root[i]`. -/
def positionCode (chains : List Nat) : Code :=
  chains.map fun i : Nat => .ldr (.positions i) .chain (8 * i)

/-- `vals[i]` starts as `100 * i`, an unsigned 32-bit product. -/
def valCode (num : Nat) : Code :=
  (List.range num).map fun i => .mov (.vals i) (BitVec.ofNat 64 (100 * i % 4294967296))

/-- The code, unless one of the loops that emit it has no end. -/
def chasePointers (e : Experiment) : Option Code := do
  let chains ← countUp e.chainsPerThread
  let waits ← countUp e.loopLength
  return (.ldr .head .chain 0 :: positionCode (chains.map Int.toNat) ++ valCode (valNum e)) ++
    (.label .loop :: (chains.flatMap (fun i => chainCode e i.toNat) ++ waits.map fun _ => .nop) ++
      [.cmp .head (.positions 0), .bne .loop])

def entryCode (e : Experiment) (chains : Nat) : Code :=
  .ldr .head .chain 0 :: positionCode (List.range chains) ++ valCode (valNum e)

def roundCode (e : Experiment) (chains : Nat) : Code :=
  (List.range chains).flatMap (chainCode e) ++ List.replicate e.loopLength.toNat .nop

def chaseCode (e : Experiment) (chains : Nat) : Code :=
  entryCode e chains ++
    (.label .loop :: roundCode e chains ++ [.cmp .head (.positions 0), .bne .loop])

theorem chasePointers_eq {e : Experiment} (hchains : e.chainsPerThread < 2147483648)
    (hloop : e.loopLength < 2147483648) :
    chasePointers e = some (chaseCode e e.chainsPerThread.toNat) := by
  have hnat : ((List.range e.chainsPerThread.toNat).map fun m : Nat => (m : Int)).map Int.toNat =
      List.range e.chainsPerThread.toNat := by
    simp [Function.comp_def]
  have hwaits : ((List.range e.loopLength.toNat).map fun m : Nat => (m : Int)).map
      (fun _ => (Instr.nop : Instr Gp Label)) = List.replicate e.loopLength.toNat .nop := by
    simp [Function.comp_def]
  simp only [chasePointers, countUp_of_lt hchains, countUp_of_lt hloop, Option.bind_eq_bind,
    Option.bind_some, Option.pure_def, hnat, hwaits]
  simp [chaseCode, entryCode, roundCode, List.flatMap_map]

theorem chasePointers_eq_some_iff {e : Experiment} {code : Code} : chasePointers e = some code ↔
    e.chainsPerThread < 2147483648 ∧ e.loopLength < 2147483648 ∧
      code = chaseCode e e.chainsPerThread.toNat := by
  constructor
  · intro h
    obtain ⟨chains, hchains, hrest⟩ := Option.bind_eq_some_iff.mp h
    obtain ⟨waits, hwaits, _⟩ := Option.bind_eq_some_iff.mp hrest
    have hcount := ((countUp_eq_some_iff _ _).mp hchains).1
    have hloop := ((countUp_eq_some_iff _ _).mp hwaits).1
    rw [chasePointers_eq hcount hloop, Option.some.injEq] at h
    exact ⟨hcount, hloop, h.symm⟩
  · rintro ⟨hcount, hloop, rfl⟩
    exact chasePointers_eq hcount hloop

def Gp.isVal : Gp → Bool
  | .vals _ => true
  | _ => false

section Shape
variable (e : Experiment) (chains : Nat)

def dataAccess (i : Nat) (p : Int × Nat) : Instr Gp Label :=
  if e.memOperation.isStore then .str (.vals p.2) (.positions i) p.1
  else .ldr (.vals p.2) (.positions i) p.1

theorem dataCode_eq (i : Nat) :
    dataCode e i = (dataOffsets e).zipIdx.map (dataAccess e i) := by
  have hrange : ∀ f : Nat → Int, ((List.range (valNum e)).map f).zipIdx =
      (List.range (valNum e)).map fun j => (f j, j) := by
    intro f
    apply List.ext_getElem
    · simp
    · intro j _ _
      simp
  unfold dataCode dataOffsets dataAccess
  cases hop : e.memOperation with
  | na => simp
  | load => simp [MemOperation.isStore]
  | store => simp [MemOperation.isStore]
  | loadAll => simp [hrange, MemOperation.isStore]
  | storeAll => simp [hrange, MemOperation.isStore]

theorem dataAccess_size (i : Nat) (p : Int × Nat) : (dataAccess e i p).size = 1 := by
  unfold dataAccess
  split <;> rfl

theorem dataAccess_straight (i : Nat) (p : Int × Nat) : (dataAccess e i p).Straight := by
  unfold dataAccess
  split <;> trivial

theorem chainCode_straight (i : Nat) : ∀ x ∈ chainCode e i, x.Straight := by
  intro x hx
  rw [chainCode, dataCode_eq, List.mem_cons, List.mem_map] at hx
  rcases hx with rfl | ⟨p, _, rfl⟩
  · trivial
  · exact dataAccess_straight e i p

theorem roundCode_straight : ∀ x ∈ roundCode e chains, x.Straight := by
  intro x hx
  rw [roundCode, List.mem_append, List.mem_flatMap, List.mem_replicate] at hx
  rcases hx with ⟨i, _, hx⟩ | ⟨_, rfl⟩
  · exact chainCode_straight e i x hx
  · trivial

theorem entryCode_straight : ∀ x ∈ entryCode e chains, x.Straight ∧ x ≠ .label .loop := by
  intro x hx
  simp only [entryCode, positionCode, valCode, List.cons_append, List.mem_cons, List.mem_append,
    List.mem_map] at hx
  rcases hx with rfl | ⟨_, _, rfl⟩ | ⟨_, _, rfl⟩
  · exact ⟨trivial, by simp⟩
  · exact ⟨trivial, by simp⟩
  · exact ⟨trivial, by simp⟩

theorem size_entryCode : size (entryCode e chains) = 1 + chains + valNum e := by
  have hpositions : size (positionCode (List.range chains)) = chains := by
    rw [positionCode, size_of_ones _ _ fun _ => rfl, List.length_range]
  have hvals : size (valCode (valNum e)) = valNum e := by
    rw [valCode, size_of_ones _ _ fun _ => rfl, List.length_range]
  rw [entryCode, size_append, size_cons, hpositions, hvals]
  rfl

theorem size_roundCode : size (roundCode e chains) =
    chains * (1 + (dataOffsets e).length) + e.loopLength.toNat := by
  have hchain : ∀ i, size (chainCode e i) = 1 + (dataOffsets e).length := by
    intro i
    have hdata := size_of_ones (dataOffsets e).zipIdx (dataAccess e i) (dataAccess_size e i)
    rw [List.length_zipIdx, ← dataCode_eq] at hdata
    rw [chainCode, size_cons, hdata]
    rfl
  have hchains : ∀ is : List Nat, size (is.flatMap (chainCode e)) =
      is.length * (1 + (dataOffsets e).length) := by
    intro is
    induction is with
    | nil => simp [size]
    | cons i is ih =>
      rw [List.flatMap_cons, size_append, hchain, ih, List.length_cons]
      ring
  have hwaits : size (List.replicate e.loopLength.toNat .nop : Code) = e.loopLength.toNat := by
    simp [size, Instr.size]
  rw [roundCode, size_append, hchains, hwaits, List.length_range]

end Shape

end PChase
