import PChase.MemInit

/-!
# The generated chase loop

`chase_pointers` emits one loop: every round moves each chain of the thread to its next
node and applies the memory operation there, until chain 0 is at its head again. A node
is named by its chain and its index; its address is that of the block plus 16 bytes for
each index. The `next` field is the first word of a node and `data` the second.
-/

namespace PChase

open CInt NextWalk
set_option autoImplicit false

/-- `val_num`, an unsigned 32-bit number. -/
def valNum (e : Experiment) : Nat :=
  if e.memOperation = .storeAll ∨ e.memOperation = .loadAll then e.stride.natAbs % 4294967296
  else 1

/-- Where the operation touches memory, in bytes from the node; `offsetof(Chain, data)` is 8. -/
def dataOffsets (e : Experiment) : List Int :=
  match e.memOperation with
  | .na => []
  | .load | .store => [8]
  | .loadAll | .storeAll =>
    (List.range (valNum e)).map fun j : Nat => wrap64 (j * e.bytesPerLine) + 8

def MemOperation.isStore : MemOperation → Bool
  | .store | .storeAll => true
  | _ => false

/-- The blocks of one thread: `new` gives aligned blocks that do not overlap. -/
structure Placement (e : Experiment) (chains : Nat) where
  base : Nat → Int
  aligned : ∀ c < chains, 16 ∣ base c
  disjoint : ∀ c < chains, ∀ c' < chains, c ≠ c' →
    base c + 16 * e.linksPerChain ≤ base c' ∨ base c' + 16 * e.linksPerChain ≤ base c

structure Access where
  chain : Nat
  offset : Int
  deriving Repr, DecidableEq

structure Machine where
  pos : Nat → Int
  mem : Nat → Next Int
  log : List Access

variable {e : Experiment} {chains : Nat}

/-- Bytes of `next` at the node are among the eight that start at the address. -/
def overlaps (pl : Placement e chains) (c : Nat) (l address : Int) : Bool :=
  decide (pl.base c + 16 * l < address + 8 ∧ address < pl.base c + 16 * l + 8)

/-- The operation at node `l` of chain `c`: a `next` field that a store runs into holds
no pointer any more. -/
def operate (pl : Placement e chains) (s : Machine) (c : Nat) (l : Int) : Machine where
  pos := s.pos
  mem c' l' :=
    if e.memOperation.isStore &&
      (dataOffsets e).any fun o => overlaps pl c' l' (pl.base c + 16 * l + o)
    then none else s.mem c' l'
  log := s.log ++ (dataOffsets e).map fun o => ⟨c, 16 * l + o⟩

/-- `positions[c]` is loaded from its `next` field and the operation follows. -/
def chaseChain (pl : Placement e chains) (s : Machine) (c : Nat) : Option Machine := do
  let l ← s.mem c (s.pos c)
  return operate pl { s with pos := Function.update s.pos c l } c l

def chaseRound (pl : Placement e chains) (s : Machine) : Option Machine :=
  (List.range chains).foldlM (chaseChain pl) s

def benchLoop (pl : Placement e chains) (head : Int) : Nat → Machine → Option Machine
  | 0, _ => none
  | fuel + 1, s => do
    let s ← chaseRound pl s
    if s.pos 0 = head then return s else benchLoop pl head fuel s

/-- `bench(root)` -/
def bench (pl : Placement e chains) (root : Nat → Int) (fuel : Nat) (s : Machine) :
    Option Machine :=
  benchLoop pl (root 0) fuel { s with pos := root }

def Machine.start (rings : Nat → Ring) : Machine where
  pos c := (rings c).root
  mem c := (rings c).next
  log := []

def benchCalls (pl : Placement e chains) (rings : Nat → Ring) (fuel : Nat) :
    Nat → Option Machine
  | 0 => some (Machine.start rings)
  | calls + 1 => do
    let s ← benchCalls pl rings fuel calls
    bench pl (fun c => (rings c).root) fuel s

def Access.Inside (e : Experiment) (a : Access) : Prop :=
  0 ≤ a.offset ∧ a.offset + 8 ≤ 16 * e.linksPerChain

instance (e : Experiment) (a : Access) : Decidable (a.Inside e) :=
  inferInstanceAs (Decidable (_ ∧ _))

end PChase
