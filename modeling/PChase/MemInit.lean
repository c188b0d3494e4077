import PChase.AffineCycle
import PChase.CountLoop
import PChase.Experiment
import PChase.NextWalk

/-!
# The ring initialisers

`random_mem_init`, `forward_mem_init` and `reverse_mem_init` visit nodes of the block
`new Chain[links_per_chain]` and link each to the next. A node is its index in the block.
The links a routine forms are a list here, and one builder turns any such list into a
ring; a store through a null pointer or outside the block has no result.
-/

namespace PChase

open CInt CountLoop AffineCycle NextWalk
set_option autoImplicit false

def primeTable : List Nat :=
  [5, 11, 13, 17, 19, 23, 37, 41, 43, 47, 53, 61, 71, 73, 79, 83, 89, 97, 101, 103, 109, 113,
    131, 137, 139, 149, 151, 157, 163]

def primeTableSize : Nat := primeTable.length

/-- The values drawn under the lock: one factor and offset for the pages, and one of each
for the lines of every page, in the order the pages are visited. -/
structure Draws where
  pageFactor : Int
  pageOffset : Int
  lineFactor : Nat → Int
  lineOffset : Nat → Int

def drawFactor (r : Nat) : Int := (primeTable.getD (r % primeTableSize) 0 : Nat)

def drawOffset (size : Int) (r : Nat) : Int := wrap32 ((r : Int).tmod size)

/-- The draws of one call, from the successive values of `random()`. -/
def draws (e : Experiment) (random : Nat → Nat) : Draws where
  pageFactor := drawFactor (random 0)
  pageOffset := drawOffset e.pagesPerChain (random 1)
  lineFactor i := drawFactor (random (2 * i + 2))
  lineOffset i := drawOffset e.linesPerPage (random (2 * i + 3))

/-- `link` of page step `i` and line step `j`. -/
def randomLink (e : Experiment) (d : Draws) (i j : Nat) : Int :=
  let page := affineCell e.pagesPerChain d.pageFactor d.pageOffset i
  let lineWithinPage := affineCell e.linesPerPage (d.lineFactor i) (d.lineOffset i) j
  let linkWithinLine := 0
  wrap32 (wrap64 (page * e.linksPerPage + lineWithinPage * e.linksPerLine + linkWithinLine))

/-- The links of `random_mem_init`, page after page, unless a loop has no end. -/
def randomLinks (e : Experiment) (d : Draws) : Option (List Int) := do
  let pages ← countUp e.pagesPerChain
  let visited ← pages.mapM fun i => do
    let lines ← countUp e.linesPerPage
    return lines.map fun j => randomLink e d i.toNat j.toNat
  return visited.flatten

/-- `link` of line `i` in the strided routines. -/
def lineLink (e : Experiment) (i : Int) : Int := wrap32 (wrap64 (i * e.linksPerLine))

def forwardLinks (e : Experiment) : Option (List Int) := do
  let lines ← intLoop (fun i => decide (i < e.linesPerChain)) (addStep e.stride) 0
  return lines.map (lineLink e)

/-- `int stride = -this->exp->stride` -/
def reverseStride (e : Experiment) : Int := wrap32 (wrap64 (-e.stride))

/-- The second loop starts at the last line the first one saw; without one `last` was
never assigned. -/
def reverseLinks (e : Experiment) : Option (List Int) := do
  let seen ← intLoop (fun i => decide (i < e.linesPerChain)) (addStep (reverseStride e)) 0
  let last ← seen.getLast?
  let lines ← intLoop (fun i => decide (0 ≤ i)) (addStep (-reverseStride e)) last
  return lines.map (lineLink e)

/-- The locals of an initialiser and the `next` fields of its block. -/
structure Builder where
  root : Option Int
  prev : Option Int
  next : Next Int
  localOpsPerChain : Int

def Builder.start : Builder := ⟨none, none, fun _ => none, 0⟩

def InBlock (e : Experiment) (link : Int) : Prop := 0 ≤ link ∧ link < e.linksPerChain

instance (e : Experiment) (link : Int) : Decidable (InBlock e link) :=
  inferInstanceAs (Decidable (_ ∧ _))

/-- `node->next = target` -/
def setNext (e : Experiment) (next : Next Int) (node target : Int) : Option (Next Int) :=
  if InBlock e node then some (write next node target) else none

/-- The loop body of all three routines. -/
def visit (e : Experiment) (s : Builder) (link : Int) : Option Builder :=
  match s.root with
  | none =>
    some { s with
      root := some link, prev := some link, localOpsPerChain := s.localOpsPerChain + 1 }
  | some _ => do
    let prev ← s.prev
    let next ← setNext e s.next prev link
    let prev ← next prev
    return { s with prev := some prev, next, localOpsPerChain := s.localOpsPerChain + 1 }

/-- What an initialiser leaves: its root, the `next` fields and `_ops_per_chain`. -/
structure Ring where
  root : Int
  next : Next Int
  opsPerChain : Int

/-- `prev->next = root` behind the loops. -/
def close (e : Experiment) (s : Builder) : Option Ring := do
  let prev ← s.prev
  let root ← s.root
  let next ← setNext e s.next prev root
  return { root, next, opsPerChain := s.localOpsPerChain }

def buildRing (e : Experiment) (links : List Int) : Option Ring := do
  let s ← links.foldlM (visit e) Builder.start
  close e s

def randomMemInit (e : Experiment) (d : Draws) : Option Ring := do
  let links ← randomLinks e d
  buildRing e links

def forwardMemInit (e : Experiment) : Option Ring := do
  let links ← forwardLinks e
  buildRing e links

def reverseMemInit (e : Experiment) : Option Ring := do
  let links ← reverseLinks e
  buildRing e links

/-- The choice `Run::run` makes for every chain. -/
def memInit (e : Experiment) (d : Draws) : Option Ring :=
  match e.accessPattern with
  | .random => randomMemInit e d
  | .strided => if 0 < e.stride then forwardMemInit e else reverseMemInit e

section Build
variable (e : Experiment) (node : Nat → Int)

def built (n : Nat) : Builder where
  root := some (node 0)
  prev := some (node n)
  next := writes (fun _ => none) node (fun k => node (k + 1)) n
  localOpsPerChain := n + 1

theorem setNext_of_inBlock {next : Next Int} {a : Int} (h : InBlock e a) (b : Int) :
    setNext e next a b = some (write next a b) := if_pos h

theorem visits_eq (n : Nat) (h : ∀ k < n, InBlock e (node k)) :
    ((List.range (n + 1)).map node).foldlM (visit e) Builder.start = some (built node n) := by
  induction n with
  | zero => rfl
  | succ n ih =>
    rw [List.range_succ, List.map_append, List.foldlM_append, ih fun k hk => h k (by omega)]
    simp [visit, built, setNext_of_inBlock e (h n (by omega)), writes]

theorem visits_inBlock (n : Nat) {s : Builder}
    (h : ((List.range (n + 1)).map node).foldlM (visit e) Builder.start = some s) :
    ∀ k < n, InBlock e (node k) := by
  induction n generalizing s with
  | zero => omega
  | succ n ih =>
    rw [List.range_succ, List.map_append, List.foldlM_append] at h
    obtain ⟨s', hs', hlast⟩ := Option.bind_eq_some_iff.mp h
    have hbefore := ih hs'
    rw [visits_eq e node n hbefore, Option.some.injEq] at hs'
    subst s'
    intro k hk
    by_cases hkn : k = n
    · subst k
      by_contra hout
      simp [visit, built, setNext, hout] at hlast
    · exact hbefore k (by omega)

/-- A list of links makes a ring exactly when it is not empty and lies in the block. -/
theorem buildRing_eq_some_iff (n : Nat) (r : Ring) :
    buildRing e ((List.range n).map node) = some r ↔
      0 < n ∧ (∀ k < n, InBlock e (node k)) ∧
        r = ⟨node 0, ring (fun _ => none) node n, n⟩ := by
  cases n with
  | zero => simp [buildRing, Builder.start, close]
  | succ n =>
    have hclose : InBlock e (node n) → close e (built node n) =
        some ⟨node 0, ring (fun _ => none) node (n + 1), (n + 1 : Nat)⟩ := by
      intro hin
      have hring : write (writes (fun _ => none) node (fun k => node (k + 1)) n) (node n)
          (node 0) = ring (fun _ => none) node (n + 1) := by
        rw [ring, writes, Nat.mod_self]
        congr 1
        apply writes_congr _ (fun _ _ => rfl)
        intro k hk
        rw [Nat.mod_eq_of_lt (by omega)]
      simp [close, built, setNext_of_inBlock e hin, hring]
    constructor
    · intro h
      obtain ⟨s, hs, hr⟩ := Option.bind_eq_some_iff.mp h
      have hbefore := visits_inBlock e node n hs
      rw [visits_eq e node n hbefore, Option.some.injEq] at hs
      subst s
      have hin : InBlock e (node n) := by
        by_contra hout
        simp [close, built, setNext, hout] at hr
      rw [hclose hin, Option.some.injEq] at hr
      refine ⟨by omega, ?_, hr.symm⟩
      intro k hk
      by_cases hkn : k = n
      · exact hkn ▸ hin
      · exact hbefore k (by omega)
    · rintro ⟨_, hin, rfl⟩
      unfold buildRing
      rw [visits_eq e node n fun k hk => hin k (by omega)]
      exact hclose (hin n (by omega))

end Build

theorem buildRing_links (e : Experiment) (links : List Int) (r : Ring) :
    buildRing e links = some r ↔ links ≠ [] ∧ (∀ l ∈ links, InBlock e l) ∧
      r = ⟨links.getD 0 0, ring (fun _ => none) (links.getD · 0) links.length, links.length⟩ := by
  have hlinks : links = (List.range links.length).map (links.getD · 0) := by
    apply List.ext_getElem
    · simp
    · intro k h1 h2
      simp [List.getD_eq_getElem?_getD, List.getElem?_eq_getElem h1]
  conv_lhs => rw [hlinks]
  rw [buildRing_eq_some_iff]
  have hin : (∀ k < links.length, InBlock e (links.getD k 0)) ↔ ∀ l ∈ links, InBlock e l := by
    constructor
    · intro h l hl
      obtain ⟨k, hk, rfl⟩ := List.mem_iff_getElem.mp hl
      have := h k hk
      rwa [List.getD_eq_getElem?_getD, List.getElem?_eq_getElem hk] at this
    · intro h k hk
      rw [List.getD_eq_getElem?_getD, List.getElem?_eq_getElem hk]
      exact h _ (List.getElem_mem hk)
  rw [hin, List.length_pos_iff]

end PChase
