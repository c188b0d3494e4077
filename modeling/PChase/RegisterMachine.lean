import Mathlib.Tactic.Ring
import PChase.ByteMemory

/-!
# A register machine

Code is a list of instructions over registers and labels of any kind: words are moved
between registers and memory, one comparison sets a flag and one branch tests it. A run
ends behind the last instruction. Straight code is a function on the data, and a loop
that ends when two registers agree is run round by round.
-/

namespace PChase.RegisterMachine

open ByteMemory
set_option autoImplicit false

universe u v
variable {R : Type u} {L : Type v}

inductive Instr (R : Type u) (L : Type v) where
  | ldr (dst base : R) (offset : Int)
  | str (src base : R) (offset : Int)
  | mov (dst : R) (value : Word)
  | nop
  | cmp (a b : R)
  | bne (target : L)
  | label (name : L)
  deriving Repr, DecidableEq

structure Touch (R : Type u) where
  store : Bool
  reg : R
  address : Word
  deriving DecidableEq

/-- The registers, the memory, the flag of the comparison and the accesses so far. -/
structure Data (R : Type u) where
  regs : R → Word
  memory : Memory
  equal : Bool
  touched : List (Touch R)

def Data.address (d : Data R) (base : R) (offset : Int) : Word :=
  d.regs base + BitVec.ofInt 64 offset

/-- A label is no instruction of the machine. -/
def Instr.size : Instr R L → Nat
  | .label _ => 0
  | _ => 1

def size (code : List (Instr R L)) : Nat := (code.map Instr.size).sum

theorem size_cons (i : Instr R L) (code : List (Instr R L)) :
    size (i :: code) = i.size + size code := by
  simp [size]

theorem size_append (code code' : List (Instr R L)) :
    size (code ++ code') = size code + size code' := by
  simp [size]

theorem size_of_ones {α : Type} (xs : List α) (f : α → Instr R L) (h : ∀ x, (f x).size = 1) :
    size (xs.map f) = xs.length := by
  induction xs with
  | nil => rfl
  | cons x xs ih =>
    rw [List.map_cons, size_cons, h x, ih, List.length_cons]
    omega

def Instr.Straight : Instr R L → Prop
  | .bne _ => False
  | _ => True

section Run
variable [DecidableEq R]

def Instr.exec (d : Data R) : Instr R L → Data R
  | .ldr dst base offset =>
    { d with
      regs := Function.update d.regs dst (load d.memory (d.address base offset))
      touched := d.touched ++ [⟨false, dst, d.address base offset⟩] }
  | .str src base offset =>
    { d with
      memory := store d.memory (d.address base offset) (d.regs src)
      touched := d.touched ++ [⟨true, src, d.address base offset⟩] }
  | .mov dst value => { d with regs := Function.update d.regs dst value }
  | .cmp a b => { d with equal := decide (d.regs a = d.regs b) }
  | .nop | .bne _ | .label _ => d

def execAll (d : Data R) (code : List (Instr R L)) : Data R := code.foldl Instr.exec d

@[simp] theorem execAll_nil (d : Data R) : execAll d ([] : List (Instr R L)) = d := rfl

@[simp] theorem execAll_cons (d : Data R) (i : Instr R L) (code : List (Instr R L)) :
    execAll d (i :: code) = execAll (i.exec d) code := rfl

@[simp] theorem execAll_append (d : Data R) (code code' : List (Instr R L)) :
    execAll d (code ++ code') = execAll (execAll d code) code' := List.foldl_append

variable [DecidableEq L]

/-- One step from an index of the code; a branch goes to the first mark of its label. -/
def step (code : List (Instr R L)) (s : Nat × Data R) : Option (Nat × Data R) :=
  match code[s.1]? with
  | none => none
  | some (.bne target) =>
    if s.2.equal then some (s.1 + 1, s.2)
    else (code.findIdx? fun i => decide (i = .label target)).map (·, s.2)
  | some i => some (s.1 + 1, i.exec s.2)

inductive Runs (code : List (Instr R L)) : Nat → Nat × Data R → Nat × Data R → Prop where
  | refl (s : Nat × Data R) : Runs code 0 s s
  | cons {n : Nat} {i : Instr R L} {s s' s'' : Nat × Data R} : code[s.1]? = some i →
      step code s = some s' → Runs code n s' s'' → Runs code (i.size + n) s s''

/-- A call of the code: it is entered at the front and left behind its end. -/
def Returns (code : List (Instr R L)) (n : Nat) (d d' : Data R) : Prop :=
  Runs code n (0, d) (code.length, d')

/-- Calls one after another, each entered with the registers it is given. -/
inductive Calls (code : List (Instr R L)) (entry : Nat → R → Word) :
    List Nat → Data R → Data R → Prop where
  | nil (d : Data R) : Calls code entry [] d d
  | snoc {ns : List Nat} {n : Nat} {d d' d'' : Data R} : Calls code entry ns d d' →
      Returns code n { d' with regs := entry ns.length } d'' → Calls code entry (ns ++ [n]) d d''

variable {code : List (Instr R L)}

theorem Runs.trans {n n' : Nat} {s s' s'' : Nat × Data R} (h : Runs code n s s')
    (h' : Runs code n' s' s'') : Runs code (n + n') s s'' := by
  induction h with
  | refl s => rwa [Nat.zero_add]
  | cons hcode hstep _ ih =>
    rw [Nat.add_assoc]
    exact .cons hcode hstep (ih h')

theorem Runs.single {i : Instr R L} {s s' : Nat × Data R} (hcode : code[s.1]? = some i)
    (hstep : step code s = some s') : Runs code i.size s s' := .cons hcode hstep (.refl s')

theorem step_straight {i : Instr R L} (hi : i.Straight) {pc : Nat} (d : Data R)
    (hcode : code[pc]? = some i) : step code (pc, d) = some (pc + 1, i.exec d) := by
  cases i with
  | bne => exact hi.elim
  | ldr => simp [step, hcode]
  | str => simp [step, hcode]
  | mov => simp [step, hcode]
  | nop => simp [step, hcode]
  | cmp => simp [step, hcode]
  | label => simp [step, hcode]

theorem step_bne {target : L} {pc : Nat} (d : Data R) (hcode : code[pc]? = some (.bne target)) :
    step code (pc, d) = if d.equal then some (pc + 1, d)
      else (code.findIdx? fun i => decide (i = .label target)).map (·, d) := by
  simp only [step, hcode]

/-- Straight code in the middle of other code is run from its first index to its end. -/
theorem runs_straight {before block after : List (Instr R L)}
    (hcode : code = before ++ block ++ after) (h : ∀ i ∈ block, i.Straight) (d : Data R) :
    Runs code (size block) (before.length, d) (before.length + block.length, execAll d block) := by
  induction block generalizing before d with
  | nil => exact .refl _
  | cons i block ih =>
    have hi : code[before.length]? = some i := by simp [hcode]
    have hrest : code = (before ++ [i]) ++ block ++ after := by simp [hcode]
    have hrun := ih hrest (fun i' hi' => h i' (List.mem_cons_of_mem i hi')) (i.exec d)
    rw [List.length_append, List.length_singleton] at hrun
    rw [size_cons, List.length_cons, ← Nat.add_assoc, Nat.add_right_comm]
    exact .cons hi (step_straight (h i List.mem_cons_self) d hi) hrun

inductive Rounds (body : List (Instr R L)) (a b : R) : Nat → Data R → Data R → Prop where
  | last {d d' : Data R} : execAll d body = d' → d'.regs a = d'.regs b →
      Rounds body a b 1 d { d' with equal := true }
  | more {n : Nat} {d d' d'' : Data R} : execAll d body = d' → d'.regs a ≠ d'.regs b →
      Rounds body a b n { d' with equal := false } d'' → Rounds body a b (n + 1) d d''

section Loop
variable {before body : List (Instr R L)} {l : L} {a b : R}
  (hcode : code = before ++ (.label l :: body ++ [.cmp a b, .bne l]))
  (hstraight : ∀ i ∈ body, i.Straight)
include hcode hstraight

theorem runs_body (d : Data R) : Runs code (size body + 1) (before.length, d)
    (before.length + body.length + 2,
      { execAll d body with equal := decide ((execAll d body).regs a = (execAll d body).regs b) }) := by
  have hblock : code = before ++ (.label l :: body ++ [.cmp a b]) ++ [.bne l] := by
    simp [hcode]
  have hmarked : ∀ i ∈ (.label l :: body ++ [.cmp a b] : List (Instr R L)), i.Straight := by
    intro i hi
    simp only [List.cons_append, List.mem_cons, List.mem_append, List.not_mem_nil, or_false] at hi
    rcases hi with rfl | hi | rfl
    · exact trivial
    · exact hstraight i hi
    · exact trivial
  have hrun := runs_straight hblock hmarked d
  have hsize : size (.label l :: body ++ [.cmp a b] : List (Instr R L)) = size body + 1 := by
    rw [size_append, size_cons]
    simp [size, Instr.size]
  have hlength : (.label l :: body ++ [.cmp a b] : List (Instr R L)).length = body.length + 2 := by
    simp
  rw [hsize, hlength, ← Nat.add_assoc] at hrun
  simpa [Instr.exec] using hrun

omit [DecidableEq R] [DecidableEq L] hstraight in
theorem branch_at : code[before.length + body.length + 2]? = some (.bne l) := by
  have hlast : code = (before ++ (.label l :: body ++ [.cmp a b])) ++ [.bne l] := by
    simp [hcode]
  have hlength : (before ++ (.label l :: body ++ [.cmp a b] : List (Instr R L))).length =
      before.length + body.length + 2 := by
    simp
    omega
  rw [← hlength, hlast, List.getElem?_concat_length]

omit hstraight in
theorem findIdx_label (hlabel : ∀ i ∈ before, i ≠ .label l) :
    code.findIdx? (fun i => decide (i = .label l)) = some before.length := by
  have hnone : before.findIdx? (fun i => decide (i = .label l)) = none := by
    rw [List.findIdx?_eq_none_iff]
    intro i hi
    exact decide_eq_false (hlabel i hi)
  rw [hcode, List.findIdx?_append, hnone, List.cons_append, List.findIdx?_cons]
  simp

/-- The rounds from the label to the end of the code. -/
theorem Rounds.runs (hlabel : ∀ i ∈ before, i ≠ .label l) {n : Nat} {d d' : Data R}
    (h : Rounds body a b n d d') :
    Runs code (n * (size body + 2)) (before.length, d) (code.length, d') := by
  have hbranch := branch_at hcode
  have hend : code.length = before.length + body.length + 2 + 1 := by
    simp [hcode]
    omega
  induction h with
  | @last d d' hexec hequal =>
    have hrun := runs_body hcode hstraight d
    rw [hexec, decide_eq_true hequal] at hrun
    have hleave : step code (before.length + body.length + 2, { d' with equal := true }) =
        some (code.length, { d' with equal := true }) := by
      rw [step_bne _ hbranch, hend]
      rfl
    have hall := hrun.trans (.single hbranch hleave)
    rwa [Nat.one_mul]
  | @more n d d' d'' hexec hne _ ih =>
    have hrun := runs_body hcode hstraight d
    rw [hexec, decide_eq_false hne] at hrun
    have hback : step code (before.length + body.length + 2, { d' with equal := false }) =
        some (before.length, { d' with equal := false }) := by
      rw [step_bne _ hbranch, findIdx_label hcode hlabel]
      rfl
    have hall := (hrun.trans (.single hbranch hback)).trans ih
    have hcount : size body + 1 + (Instr.bne l : Instr R L).size + n * (size body + 2) =
        (n + 1) * (size body + 2) := by
      simp only [Instr.size]
      ring
    rwa [hcount] at hall

end Loop

end Run

end PChase.RegisterMachine
