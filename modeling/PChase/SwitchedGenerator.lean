import Mathlib.Logic.Function.Iterate

/-!
# One generator, many state buffers

A process has one generator of pseudo-random numbers in use and any number of buffers
that hold the state of others. Putting another buffer in use saves the present state, and
drawing a number changes no state but the present one.
-/

namespace PChase

set_option autoImplicit false

universe u v
variable {B : Type u} {S : Type v}

structure Generator (S : Type v) where
  seed : Int → S
  next : S → S × Nat
  next_lt : ∀ s, (next s).2 < 2147483648

namespace Generator
variable (g : Generator S)

def after (s : S) (n : Nat) : S := (fun s => (g.next s).1)^[n] s

def output (s : S) (n : Nat) : Nat := (g.next (g.after s n)).2

theorem after_succ (s : S) (n : Nat) : g.after s (n + 1) = (g.next (g.after s n)).1 :=
  Function.iterate_succ_apply' _ n s

end Generator

/-- The buffer in use, its state and what the other buffers keep. -/
structure Buffers (B : Type u) (S : Type v) where
  current : B
  live : S
  saved : B → S

namespace Buffers
variable [DecidableEq B] (gen : Buffers B S)

def state (b : B) : S := if b = gen.current then gen.live else gen.saved b

def save : B → S := Function.update gen.saved gen.current gen.live

def initstate (b : B) (s : S) : Buffers B S := ⟨b, s, gen.save⟩

def setstate (b : B) : Buffers B S := ⟨b, gen.save b, gen.save⟩

def random (g : Generator S) : Buffers B S × Nat :=
  ({ gen with live := (g.next gen.live).1 }, (g.next gen.live).2)

theorem save_eq_state (b : B) : gen.save b = gen.state b := Function.update_apply _ _ _ _

@[simp] theorem setstate_state (b c : B) : (gen.setstate b).state c = gen.state c := by
  rw [← save_eq_state gen c]
  by_cases hc : c = b
  · simp [state, setstate, hc]
  · simp [state, setstate, hc]

theorem initstate_state (b c : B) (s : S) :
    (gen.initstate b s).state c = if c = b then s else gen.state c := by
  rw [← save_eq_state gen c]
  rfl

omit [DecidableEq B] in
@[simp] theorem random_current (g : Generator S) : (gen.random g).1.current = gen.current := rfl

theorem random_state (g : Generator S) : (gen.random g).1.state gen.current =
    (g.next (gen.state gen.current)).1 ∧ (gen.random g).2 = (g.next (gen.state gen.current)).2 := by
  simp [state, random]

theorem random_state_of_ne (g : Generator S) {b : B} (hb : b ≠ gen.current) :
    (gen.random g).1.state b = gen.state b := by
  simp [state, random, hb]

end Buffers

end PChase
