import Mathlib.Tactic.Ring
import Mathlib.Tactic.Linarith

/-!
# C integers of 32 and 64 bits

An `int` or a `long long` is the integer it denotes. Every operation reduces its
mathematical result to the width of its type, as two's complement arithmetic does.
Division and remainder truncate toward zero: they are `Int.tdiv` and `Int.tmod`.
-/

namespace PChase.CInt

set_option autoImplicit false

/-- The value that an `int` keeps of an integer. -/
def wrap32 (x : Int) : Int := x.bmod 4294967296

/-- The value that a `long long` keeps of an integer. -/
def wrap64 (x : Int) : Int := x.bmod 18446744073709551616

def InInt32 (x : Int) : Prop := -2147483648 ≤ x ∧ x < 2147483648

def InInt64 (x : Int) : Prop := -9223372036854775808 ≤ x ∧ x < 9223372036854775808

instance (x : Int) : Decidable (InInt32 x) := inferInstanceAs (Decidable (_ ∧ _))

instance (x : Int) : Decidable (InInt64 x) := inferInstanceAs (Decidable (_ ∧ _))

theorem inInt32_zero : InInt32 0 := by
  unfold InInt32
  omega

theorem inInt32_one : InInt32 1 := by
  unfold InInt32
  omega

theorem wrap32_eq (x : Int) : wrap32 x =
    if x % 4294967296 < 2147483648 then x % 4294967296 else x % 4294967296 - 4294967296 := by
  simp [wrap32, Int.bmod_def]

theorem wrap64_eq (x : Int) : wrap64 x =
    if x % 18446744073709551616 < 9223372036854775808 then x % 18446744073709551616
    else x % 18446744073709551616 - 18446744073709551616 := by
  simp [wrap64, Int.bmod_def]

theorem wrap32_inInt32 (x : Int) : InInt32 (wrap32 x) := by
  rw [wrap32_eq, InInt32]
  split <;> omega

theorem wrap64_inInt64 (x : Int) : InInt64 (wrap64 x) := by
  rw [wrap64_eq, InInt64]
  split <;> omega

theorem wrap32_of_inInt32 {x : Int} (h : InInt32 x) : wrap32 x = x := by
  rw [wrap32_eq]
  unfold InInt32 at h
  split <;> omega

theorem wrap64_of_inInt64 {x : Int} (h : InInt64 x) : wrap64 x = x := by
  rw [wrap64_eq]
  unfold InInt64 at h
  split <;> omega

theorem wrap32_of_bounds {x : Int} (h0 : 0 ≤ x) (h1 : x < 2147483648) : wrap32 x = x :=
  wrap32_of_inInt32 ⟨by omega, h1⟩

@[simp] theorem wrap32_zero : wrap32 0 = 0 := rfl

@[simp] theorem wrap32_wrap64 (x : Int) : wrap32 (wrap64 x) = wrap32 x := by
  rw [wrap32_eq, wrap64_eq, wrap32_eq]
  split <;> split <;> split <;> omega

@[simp] theorem wrap32_wrap32_add (x y : Int) : wrap32 (wrap32 x + y) = wrap32 (x + y) :=
  Int.bmod_add_bmod

@[simp] theorem wrap32_wrap32_mul (x y : Int) : wrap32 (wrap32 x * y) = wrap32 (x * y) :=
  Int.bmod_mul_bmod

theorem wrap32_add_mul (x k : Int) : wrap32 (x + k * 4294967296) = wrap32 x := by
  rw [wrap32_eq, wrap32_eq, Int.add_mul_emod_self_right]

theorem wrap32_neg_of_overflow {x : Int} (h0 : 2147483648 ≤ x) (h1 : x < 4294967296) :
    wrap32 x = x - 4294967296 := by
  rw [wrap32_eq]
  split <;> omega

/-- Only the low 32 bits of a factor matter. -/
theorem wrap32_mul_emod (x y : Int) : wrap32 (x * (y % 4294967296)) = wrap32 (x * y) := by
  have heq : x * y = x * (y % 4294967296) + x * (y / 4294967296) * 4294967296 := by
    conv_lhs => rw [← Int.emod_add_mul_ediv y 4294967296]
    ring
  rw [heq, wrap32_add_mul]

theorem wrap32_nonneg_iff (x : Int) : 0 ≤ wrap32 x ↔ x % 4294967296 < 2147483648 := by
  rw [wrap32_eq]
  split <;> omega

/-- The multiples of `t` keep their sign only as long as those of its low 32 bits stay in
range: the first one past it is negative. -/
theorem mul_lt_of_wrap32_nonneg {t : Int} {n : Nat}
    (h : ∀ m : Nat, m < n → 0 ≤ wrap32 (m * t)) :
    ∀ m : Nat, m < n → m * (t % 4294967296) < 2147483648 := by
  intro m hm
  induction m with
  | zero => simp
  | succ m ih =>
    have hprev := ih (by omega)
    have hone := h 1 (by omega)
    have hthis := h (m + 1) hm
    rw [wrap32_nonneg_iff, Nat.cast_one, Int.one_mul] at hone
    rw [← wrap32_mul_emod, wrap32_nonneg_iff] at hthis
    have hnonneg : 0 ≤ (m : Int) * (t % 4294967296) := Int.mul_nonneg (by omega) (by omega)
    have hsplit : ((m + 1 : Nat) : Int) * (t % 4294967296) =
        m * (t % 4294967296) + t % 4294967296 := by
      push_cast
      ring
    omega

theorem wrap32_mul_of_lt {t : Int} {m : Nat} (h : m * (t % 4294967296) < 2147483648) :
    wrap32 (m * t) = m * (t % 4294967296) := by
  rw [← wrap32_mul_emod]
  exact wrap32_of_bounds (Int.mul_nonneg (by omega) (by omega)) h

/-- The terms of an arithmetic progression modulo 2^32 are low when the first and the last are. -/
theorem progression_low_iff (x d : Int) (n : Nat) :
    (∀ m : Nat, m ≤ n → (x + m * d) % 4294967296 < 2147483648) ↔
      x % 4294967296 < 2147483648 ∧ 0 ≤ x % 4294967296 + n * wrap32 d ∧
        x % 4294967296 + n * wrap32 d < 2147483648 := by
  have hmod : ∀ m : Nat, (x + m * d) % 4294967296 =
      (x % 4294967296 + m * wrap32 d) % 4294967296 := by
    intro m
    have hd : wrap32 d % 4294967296 = d % 4294967296 := Int.bmod_emod
    rw [Int.emod_add_emod, Int.add_emod x, Int.mul_emod, ← hd, ← Int.mul_emod, ← Int.add_emod]
  have hsucc : ∀ m : Nat, ((m + 1 : Nat) : Int) * wrap32 d = m * wrap32 d + wrap32 d := by
    intro m
    push_cast
    ring
  have hstep : InInt32 (wrap32 d) := wrap32_inInt32 d
  unfold InInt32 at hstep
  constructor
  · intro h
    have hfirst := h 0 (Nat.zero_le n)
    rw [Nat.cast_zero, Int.zero_mul, Int.add_zero] at hfirst
    have hall : ∀ m : Nat, m ≤ n → 0 ≤ x % 4294967296 + m * wrap32 d ∧
        x % 4294967296 + m * wrap32 d < 2147483648 := by
      intro m hm
      induction m with
      | zero =>
        rw [Nat.cast_zero, Int.zero_mul]
        omega
      | succ m ih =>
        have hprev := ih (by omega)
        have hthis := h (m + 1) hm
        rw [hmod, hsucc] at hthis
        rw [hsucc]
        omega
    exact ⟨hfirst, hall n (Nat.le_refl n)⟩
  · rintro ⟨hfirst, hlow, hhigh⟩ m hm
    rw [hmod]
    by_cases hup : 0 ≤ wrap32 d
    · have hle : (m : Int) * wrap32 d ≤ n * wrap32 d :=
        Int.mul_le_mul_of_nonneg_right (by omega) hup
      have h0 : 0 ≤ (m : Int) * wrap32 d := Int.mul_nonneg (by omega) hup
      omega
    · have hle : (n : Int) * wrap32 d ≤ m * wrap32 d :=
        Int.mul_le_mul_of_nonpos_right (by omega) (by omega)
      have h0 : (m : Int) * wrap32 d ≤ 0 :=
        Int.mul_nonpos_of_nonneg_of_nonpos (by omega) (by omega)
      omega

theorem tmod_lt {x n : Int} (hn : 0 < n) : -n < x.tmod n ∧ x.tmod n < n := by
  have h1 := Int.tmod_lt_of_pos x hn
  have h2 := Int.lt_tmod_of_pos x hn
  exact ⟨by omega, h1⟩

theorem tmod_nonpos_of_nonpos {x n : Int} (hx : x ≤ 0) : x.tmod n ≤ 0 := by
  have h := Int.tmod_nonneg n (a := -x) (by omega)
  rw [Int.neg_tmod] at h
  omega

theorem mul_tdiv_between (x n : Int) :
    (0 ≤ x → 0 ≤ n * x.tdiv n ∧ n * x.tdiv n ≤ x) ∧
      (x ≤ 0 → x ≤ n * x.tdiv n ∧ n * x.tdiv n ≤ 0) := by
  have heq := Int.mul_tdiv_add_tmod x n
  have habs : (x.tmod n).natAbs ≤ x.natAbs := by
    rw [Int.natAbs_tmod]
    exact Nat.mod_le _ _
  constructor
  · intro hx
    have hm := Int.tmod_nonneg n hx
    omega
  · intro hx
    have hm := tmod_nonpos_of_nonpos (n := n) hx
    omega

/-- A 64-bit quotient, where the language gives one. -/
def div64 (x n : Int) : Option Int :=
  if n = 0 ∨ (x = -9223372036854775808 ∧ n = -1) then none else some (x.tdiv n)

theorem div64_eq_some_iff (x n q : Int) : div64 x n = some q ↔
    n ≠ 0 ∧ ¬ (x = -9223372036854775808 ∧ n = -1) ∧ q = x.tdiv n := by
  unfold div64
  split
  · simp
    omega
  · simp only [Option.some.injEq]
    omega

end PChase.CInt
