import Mathlib.Data.Nat.ModEq
import Mathlib.Data.Nat.Prime.Basic
import Mathlib.Data.Finset.Card
import PChase.CInt

/-!
# Affine maps modulo a size

`k ↦ (f * k + o) mod n` runs through every residue exactly once when `f` and `n` have
no common factor, and repeats itself within half a turn when they have one. The last
section does the same for the map as a C program computes it in `int` arithmetic.
-/

namespace PChase.AffineCycle

open CInt
set_option autoImplicit false

theorem affine_injOn {f n o : Nat} (h : Nat.Coprime f n) :
    ∀ i < n, ∀ j < n, (f * i + o) % n = (f * j + o) % n → i = j := by
  intro i hi j hj heq
  have hsum : f * i + o ≡ f * j + o [MOD n] := heq
  have hprod : f * i ≡ f * j [MOD n] := Nat.ModEq.add_right_cancel' o hsum
  have hmod : i ≡ j [MOD n] := Nat.ModEq.cancel_left_of_coprime h.symm hprod
  exact Nat.ModEq.eq_of_lt_of_lt hmod hi hj

theorem affine_surjOn {f n o : Nat} (h : Nat.Coprime f n) {r : Nat} (hr : r < n) :
    ∃ k < n, (f * k + o) % n = r := by
  have hn : 0 < n := by omega
  have hsurj := Finset.surj_on_of_inj_on_of_card_le (s := Finset.range n) (t := Finset.range n)
    (fun k _ => (f * k + o) % n) (fun k _ => Finset.mem_range.mpr (Nat.mod_lt _ hn))
    (fun i j hi hj heq => affine_injOn h i (Finset.mem_range.mp hi) j (Finset.mem_range.mp hj) heq)
    (Nat.le_refl _) r (Finset.mem_range.mpr hr)
  obtain ⟨k, hk, heq⟩ := hsurj
  exact ⟨k, Finset.mem_range.mp hk, heq.symm⟩

theorem affine_collision {f n : Nat} (o : Nat) (hn : 0 < n) (h : ¬ Nat.Coprime f n) :
    ∃ k, 0 < k ∧ 2 * k ≤ n ∧ (f * k + o) % n = (f * 0 + o) % n := by
  have hg : 2 ≤ Nat.gcd f n := by
    have hpos := Nat.gcd_pos_of_pos_right f hn
    have hne : Nat.gcd f n ≠ 1 := h
    omega
  obtain ⟨k, hk⟩ := Nat.gcd_dvd_right f n
  obtain ⟨l, hl⟩ := Nat.gcd_dvd_left f n
  have hkpos : 0 < k := by
    rcases Nat.eq_zero_or_pos k with h0 | h0
    · subst k
      omega
    · exact h0
  refine ⟨k, hkpos, ?_, ?_⟩
  · calc 2 * k ≤ Nat.gcd f n * k := Nat.mul_le_mul_right k hg
      _ = n := hk.symm
  · have hmul : f * k = n * l := by
      calc f * k = Nat.gcd f n * l * k := by rw [← hl]
        _ = Nat.gcd f n * k * l := by rw [Nat.mul_right_comm]
        _ = n * l := by rw [← hk]
    rw [hmul, Nat.mul_add_mod, Nat.mul_zero, Nat.zero_add]

theorem coprime_of_affine_injOn {f n o : Nat} (hn : 0 < n)
    (h : ∀ i < n, ∀ j < n, (f * i + o) % n = (f * j + o) % n → i = j) : Nat.Coprime f n := by
  by_contra hc
  obtain ⟨k, hk, h2k, heq⟩ := affine_collision o hn hc
  have := h k (by omega) 0 hn heq
  omega

section Grid

/-- Cells that are not negative, no cell twice. -/
def Fills (n : Nat) (cell : Nat → Int) : Prop :=
  (∀ k < n, 0 ≤ cell k) ∧ ∀ i < n, ∀ j < n, cell i = cell j → i = j

theorem Fills.surjOn {n : Nat} {cell : Nat → Int} (h : Fills n cell)
    (hlt : ∀ k < n, cell k < n) {r : Int} (h0 : 0 ≤ r) (hr : r < n) : ∃ k < n, cell k = r := by
  have hsurj := Finset.surj_on_of_inj_on_of_card_le (s := Finset.range n) (t := Finset.range n)
    (fun k _ => (cell k).toNat)
    (fun k hk => by
      have hk' := Finset.mem_range.mp hk
      have := h.1 k hk'
      have := hlt k hk'
      exact Finset.mem_range.mpr (by omega))
    (fun i j hi hj heq => by
      have hi' := Finset.mem_range.mp hi
      have hj' := Finset.mem_range.mp hj
      have := h.1 i hi'
      have := h.1 j hj'
      exact h.2 i hi' j hj' (by omega))
    (Nat.le_refl _) r.toNat (Finset.mem_range.mpr (by omega))
  obtain ⟨k, hk, heq⟩ := hsurj
  have := h.1 k (Finset.mem_range.mp hk)
  exact ⟨k, Finset.mem_range.mp hk, by omega⟩

/-- The `k`-th visit of a grid that is walked block by block, `l` visits to a block. -/
def gridIndex (l : Nat) (block : Nat → Int) (cell : Nat → Nat → Int) (k : Nat) : Int :=
  block (k / l) * l + cell (k / l) (k % l)

theorem gridIndex_at {l j : Nat} (block : Nat → Int) (cell : Nat → Nat → Int) (i : Nat)
    (hj : j < l) : gridIndex l block cell (i * l + j) = block i * l + cell i j := by
  unfold gridIndex
  rw [Nat.mul_comm i l, Nat.mul_add_div (by omega), Nat.div_eq_of_lt hj, Nat.mul_add_mod,
    Nat.mod_eq_of_lt hj, Nat.add_zero]

theorem grid_position_lt {p l i j : Nat} (hi : i < p) (hj : j < l) : i * l + j < p * l := by
  have hnext : i + 1 ≤ p := by omega
  have := Nat.mul_le_mul_right l hnext
  rw [Nat.add_mul, Nat.one_mul] at this
  omega

theorem block_eq_of_index_eq {l : Nat} {a b x y : Int} (hx : 0 ≤ x ∧ x < l) (hy : 0 ≤ y ∧ y < l)
    (h : a * l + x = b * l + y) : a = b ∧ x = y := by
  have hab : a = b := by
    rcases Int.lt_trichotomy a b with hlt | heq | hgt
    · have : (a + 1) * (l : Int) ≤ b * l := Int.mul_le_mul_of_nonneg_right (by omega) (by omega)
      rw [Int.add_mul, Int.one_mul] at this
      omega
    · exact heq
    · have : (b + 1) * (l : Int) ≤ a * l := Int.mul_le_mul_of_nonneg_right (by omega) (by omega)
      rw [Int.add_mul, Int.one_mul] at this
      omega
  subst b
  exact ⟨rfl, by omega⟩

variable {p l : Nat} {block : Nat → Int} {cell : Nat → Nat → Int}

theorem gridIndex_range (hblock : ∀ i < p, 0 ≤ block i ∧ block i < p)
    (hcell : ∀ i < p, ∀ j < l, 0 ≤ cell i j ∧ cell i j < l) {k : Nat} (hk : k < p * l) :
    0 ≤ gridIndex l block cell k ∧ gridIndex l block cell k < (p * l : Nat) := by
  have hl : 0 < l := Nat.pos_of_mul_pos_left (by omega : 0 < p * l)
  have hi : k / l < p := (Nat.div_lt_iff_lt_mul hl).mpr hk
  have hb := hblock _ hi
  have hc := hcell _ hi _ (Nat.mod_lt k hl)
  unfold gridIndex
  have h0 : 0 ≤ block (k / l) * (l : Int) := Int.mul_nonneg hb.1 (by omega)
  have h1 : (block (k / l) + 1) * (l : Int) ≤ p * l :=
    Int.mul_le_mul_of_nonneg_right (by omega) (by omega)
  rw [Int.add_mul, Int.one_mul] at h1
  push_cast
  omega

theorem gridIndex_injOn (hblock : Fills p block) (hcell : ∀ i < p, Fills l (cell i))
    (hlt : ∀ i < p, ∀ j < l, cell i j < l) :
    ∀ a < p * l, ∀ b < p * l, gridIndex l block cell a = gridIndex l block cell b → a = b := by
  intro a ha b hb heq
  have hl : 0 < l := Nat.pos_of_mul_pos_left (by omega : 0 < p * l)
  have hia : a / l < p := (Nat.div_lt_iff_lt_mul hl).mpr ha
  have hib : b / l < p := (Nat.div_lt_iff_lt_mul hl).mpr hb
  have hma := Nat.mod_lt a hl
  have hmb := Nat.mod_lt b hl
  obtain ⟨hblocks, hcells⟩ := block_eq_of_index_eq
    ⟨(hcell _ hia).1 _ hma, hlt _ hia _ hma⟩ ⟨(hcell _ hib).1 _ hmb, hlt _ hib _ hmb⟩ heq
  have hdiv := hblock.2 _ hia _ hib hblocks
  rw [hdiv] at hcells
  have hmod := (hcell _ hib).2 _ hma _ hmb hcells
  rw [← Nat.div_add_mod a l, ← Nat.div_add_mod b l, hdiv, hmod]

/-- A walk without repetition that stays in one block for every `l` visits, and enters it
at a proper cell, fills the blocks and the cells of each. -/
theorem fills_of_gridIndex (hl : 0 < l)
    (hinj : ∀ a < p * l, ∀ b < p * l, gridIndex l block cell a = gridIndex l block cell b → a = b)
    (hstay : ∀ i < p, ∃ q : Nat, ∀ j < l, ∃ r < l,
      gridIndex l block cell (i * l + j) = ((q * l + r : Nat) : Int))
    (hstart : ∀ i < p, 0 ≤ cell i 0 ∧ cell i 0 < l) :
    Fills p block ∧ ∀ i < p, Fills l (cell i) := by
  have hcells : ∀ i < p, ∃ q : Nat, block i = q ∧ ∀ j < l, 0 ≤ cell i j ∧ cell i j < l := by
    intro i hi
    obtain ⟨q, hq⟩ := hstay i hi
    have hindex : ∀ j < l, ∃ r < l, block i * l + cell i j = (q : Int) * l + (r : Nat) := by
      intro j hj
      obtain ⟨r, hr, heq⟩ := hq j hj
      rw [gridIndex_at _ _ _ hj] at heq
      exact ⟨r, hr, by push_cast at heq; exact heq⟩
    obtain ⟨r, hr, heq⟩ := hindex 0 hl
    obtain ⟨hblock, _⟩ := block_eq_of_index_eq (hstart i hi) ⟨by omega, by omega⟩ heq
    refine ⟨q, hblock, ?_⟩
    intro j hj
    obtain ⟨r', hr', heq'⟩ := hindex j hj
    rw [hblock] at heq'
    omega
  have hfill : ∀ i < p, Fills l (cell i) := by
    intro i hi
    obtain ⟨q, _, hcell⟩ := hcells i hi
    refine ⟨fun j hj => (hcell j hj).1, ?_⟩
    intro a ha b hb heq
    have := hinj _ (grid_position_lt hi ha) _ (grid_position_lt hi hb) (by
      rw [gridIndex_at _ _ _ ha, gridIndex_at _ _ _ hb, heq])
    omega
  refine ⟨⟨?_, ?_⟩, hfill⟩
  · intro i hi
    obtain ⟨q, hblock, _⟩ := hcells i hi
    omega
  · intro i hi i' hi' heq
    obtain ⟨_, _, hcell⟩ := hcells i hi
    obtain ⟨_, _, hcell'⟩ := hcells i' hi'
    obtain ⟨j, hj, hmeet⟩ := (hfill i hi).surjOn (fun j hj => (hcell j hj).2)
      (hcell' 0 hl).1 (hcell' 0 hl).2
    have := hinj _ (grid_position_lt hi hj) _ (grid_position_lt hi' hl) (by
      rw [gridIndex_at _ _ _ hj, gridIndex_at _ _ _ hl, heq, hmeet])
    have hdiv : (i * l + j) / l = (i' * l + 0) / l := by rw [this]
    rw [Nat.mul_comm i, Nat.mul_comm i', Nat.mul_add_div hl, Nat.mul_add_div hl,
      Nat.div_eq_of_lt hj, Nat.div_eq_of_lt hl] at hdiv
    omega

end Grid

section Int32

/-- `(f * k + o) % n` in `int` arithmetic, the remainder taken by a wider `n`. -/
def affineCell (n f o k : Int) : Int := wrap32 ((wrap32 (wrap32 (f * k) + o)).tmod n)

theorem affineCell_eq (n f o k : Int) : affineCell n f o k = (wrap32 (f * k + o)).tmod n := by
  unfold affineCell
  rw [wrap32_wrap32_add]
  apply wrap32_of_inInt32
  have hrange := wrap32_inInt32 (f * k + o)
  have habs : ((wrap32 (f * k + o)).tmod n).natAbs ≤ (wrap32 (f * k + o)).natAbs := by
    rw [Int.natAbs_tmod]
    exact Nat.mod_le _ _
  unfold InInt32 at *
  rcases Int.le_total 0 (wrap32 (f * k + o)) with h0 | h0
  · have := Int.tmod_nonneg n h0
    omega
  · have := tmod_nonpos_of_nonpos (n := n) h0
    omega

theorem affineCell_lt {n : Int} (hn : 0 < n) (f o k : Int) :
    -n < affineCell n f o k ∧ affineCell n f o k < n := by
  rw [affineCell_eq]
  exact tmod_lt hn

theorem affineCell_of_lt {n f o k : Nat} (h : f * k + o < 2147483648) :
    affineCell n f o k = ((f * k + o) % n : Nat) := by
  have hcast : (f : Int) * k + o = ((f * k + o : Nat) : Int) := by push_cast; ring
  rw [affineCell_eq, hcast, wrap32_of_bounds (by omega) (by omega)]
  exact (Int.ofNat_tmod _ _).symm

theorem affineCell_nonpos {n f o k : Nat} (h0 : 2147483648 ≤ f * k + o)
    (h1 : f * k + o < 4294967296) : affineCell n f o k ≤ 0 := by
  have hcast : (f : Int) * k + o = ((f * k + o : Nat) : Int) := by push_cast; ring
  rw [affineCell_eq, hcast]
  apply tmod_nonpos_of_nonpos
  rw [wrap32_neg_of_overflow (by omega) (by omega)]
  omega

def CellsFill (n f o : Nat) : Prop := Fills n fun k => affineCell n f o k

theorem cellsFill_def (n f o : Nat) : CellsFill n f o ↔
    (∀ k < n, 0 ≤ affineCell n f o k) ∧
      ∀ i < n, ∀ j < n, affineCell n f o i = affineCell n f o j → i = j := Iff.rfl

theorem affine_lt_of_le {f n o k B : Nat} (h : f * (n - 1) + o < B) (hk : k < n) :
    f * k + o < B := by
  have hle : k ≤ n - 1 := by omega
  have := Nat.mul_le_mul_left f hle
  omega

theorem cellsFill_of_coprime {n f o : Nat} (hc : Nat.Coprime f n)
    (hfit : f * (n - 1) + o < 2147483648) : CellsFill n f o := by
  rw [cellsFill_def]
  constructor
  · intro k hk
    rw [affineCell_of_lt (affine_lt_of_le hfit hk)]
    omega
  · intro i hi j hj heq
    rw [affineCell_of_lt (affine_lt_of_le hfit hi), affineCell_of_lt (affine_lt_of_le hfit hj)] at heq
    exact affine_injOn hc i hi j hj (by exact_mod_cast heq)

/-- An odd multiple of a power of two below `2^31` does not meet `2^31` again within
one step of the multiplier. -/
theorem no_multiple_near_wrap {n f : Nat} (hdvd : n ∣ 4294967296) (hn : n < 2147483648)
    (hodd : f % 2 = 1) (hf : 1 < f) (hfn : f < n) (h0 : 2147483648 ≤ f * n)
    (h1 : f * n < 2147483648 + f) : False := by
  have hpow : n ∣ 2 ^ 32 := by norm_num; exact hdvd
  obtain ⟨e, he, rfl⟩ := (Nat.dvd_prime_pow Nat.prime_two).mp hpow
  have hlt : e < 31 := by
    by_contra hge
    have htwo : 0 < 2 := by omega
    have he31 : 31 ≤ e := by omega
    have := Nat.pow_le_pow_right htwo he31
    omega
  have hhalf : 2147483648 = 2 ^ (31 - e) * 2 ^ e := by
    rw [← Nat.pow_add, Nat.sub_add_cancel (by omega)]
  have hle : 2 ^ (31 - e) ≤ f := by
    apply Nat.le_of_mul_le_mul_right _ (Nat.pow_pos (show 0 < 2 by omega) (n := e))
    omega
  have heq : f = 2 ^ (31 - e) := by
    obtain ⟨d, rfl⟩ := Nat.le.dest hle
    rcases Nat.eq_zero_or_pos d with hd | hd
    · omega
    · have := Nat.mul_le_mul_right (2 ^ e) hd
      rw [Nat.add_mul] at h1
      omega
  have heven : 2 ^ (31 - e) % 2 = 0 := by
    have : 31 - e = (31 - e - 1) + 1 := by omega
    rw [this, Nat.pow_succ, Nat.mul_mod_left]
  omega

theorem exists_first_overflow {n f o : Nat} (ho : o < 2147483648) (hn : 0 < n)
    (hover : 2147483648 ≤ f * (n - 1) + o) :
    ∃ k, 0 < k ∧ k < n ∧ (∀ i < k, f * i + o < 2147483648) ∧
      2147483648 ≤ f * k + o ∧ f * k + o < 2147483648 + f := by
  have hex : ∃ k, 2147483648 ≤ f * k + o := ⟨n - 1, hover⟩
  have hmin := Nat.find_min' hex hover
  have hspec := Nat.find_spec hex
  have hbefore : ∀ i < Nat.find hex, f * i + o < 2147483648 := fun i hi =>
    Nat.lt_of_not_le (Nat.find_min hex hi)
  generalize Nat.find hex = k at hmin hspec hbefore
  cases k with
  | zero => omega
  | succ k =>
    have hprev := hbefore k (by omega)
    refine ⟨k + 1, by omega, by omega, hbefore, hspec, ?_⟩
    rw [Nat.mul_add, Nat.mul_one]
    omega

theorem cell_zero_of_overflow {n f o k : Nat} (h : CellsFill n f o) (hk : k < n)
    (h0 : 2147483648 ≤ f * k + o) (h1 : f * k + o < 4294967296) :
    affineCell n f o k = 0 := by
  have hle := affineCell_nonpos (n := n) h0 h1
  have hge : 0 ≤ affineCell n f o k := h.1 k hk
  omega

theorem dvd_of_cell_zero {n f o k : Nat} (h0 : 2147483648 ≤ f * k + o)
    (h1 : f * k + o < 4294967296) (hdvd : n ∣ f * k + o) (h : affineCell n f o k = 0) :
    n ∣ 4294967296 := by
  have hcast : (f : Int) * k + o = ((f * k + o : Nat) : Int) := by push_cast; ring
  rw [affineCell_eq, hcast, wrap32_neg_of_overflow (by omega) (by omega)] at h
  have hneg : (n : Int) ∣ ((f * k + o : Nat) : Int) - 4294967296 := Int.dvd_of_tmod_eq_zero h
  have hpos : (n : Int) ∣ ((f * k + o : Nat) : Int) := Int.natCast_dvd_natCast.mpr hdvd
  have hsub := Int.dvd_sub hpos hneg
  rw [sub_sub_cancel] at hsub
  exact Int.natCast_dvd_natCast.mp (by exact_mod_cast hsub)

theorem offset_eq_factor {n f o k : Nat} (hlast : k + 1 = n) (ho : o < n) (hfn : f < n)
    (hdvd : n ∣ f * k + o) : o = f := by
  subst n
  have hshift : f * k + o + f = f * (k + 1) + o := by ring
  have hmod : (f * (k + 1) + o) % (k + 1) = f % (k + 1) := by
    rw [← hshift, Nat.add_mod, Nat.mod_eq_zero_of_dvd hdvd, Nat.zero_add, Nat.mod_mod]
  rw [Nat.mul_comm, Nat.mul_add_mod, Nat.mod_eq_of_lt ho, Nat.mod_eq_of_lt hfn] at hmod
  exact hmod

/-- Once a cell overflows the cells cannot fill `[0, n)`: two overflowing cells are both
zero, and a single one is the last and would have to be the missing zero. -/
theorem fit_of_cellsFill {n f o : Nat} (hodd : f % 2 = 1) (hf : 1 < f) (hf' : f < 1024)
    (hn : n < 2147483648) (ho : o < n) (h : CellsFill n f o) :
    f * (n - 1) + o < 2147483648 := by
  by_contra hover
  obtain ⟨k, hk0, hkn, hbefore, hover0, hover1⟩ :=
    exists_first_overflow (f := f) (by omega : o < 2147483648) (by omega : 0 < n) (by omega)
  have hzero := cell_zero_of_overflow h hkn hover0 (by omega)
  have hlast : k + 1 = n := by
    by_contra hne
    have hstep : f * (k + 1) = f * k + f := by ring
    have hklt : k + 1 < n := by omega
    have hnext := cell_zero_of_overflow h hklt (by omega) (by omega)
    have := h.2 k hkn (k + 1) (by omega) (hzero.trans hnext.symm)
    omega
  have hbig : 1048576 < n := by
    have : f * k ≤ 1023 * n := Nat.mul_le_mul (by omega) (by omega)
    omega
  have hcop : Nat.Coprime f n := by
    by_contra hc
    obtain ⟨i, hi, h2i, heq⟩ := affine_collision o (by omega) hc
    have hcell : affineCell n f o i = affineCell n f o (0 : Nat) := by
      rw [affineCell_of_lt (hbefore i (by omega)), affineCell_of_lt (hbefore 0 hk0), heq]
    have := h.2 i (by omega) 0 (by omega) hcell
    omega
  have hdvd : n ∣ f * k + o := by
    have hpos : 0 < n := by omega
    obtain ⟨i, hi, heq⟩ := affine_surjOn (o := o) hcop hpos
    by_cases hik : i = k
    · exact Nat.dvd_of_mod_eq_zero (hik ▸ heq)
    · have hcell : affineCell n f o i = affineCell n f o k := by
        rw [affineCell_of_lt (hbefore i (by omega)), heq, hzero]
        rfl
      exact absurd (h.2 i hi k hkn hcell) hik
  have hoff := offset_eq_factor hlast ho (by omega) hdvd
  have hturn : f * k + o = f * n := by
    rw [← hlast, hoff]
    ring
  exact no_multiple_near_wrap (dvd_of_cell_zero hover0 (by omega) hdvd hzero) hn hodd hf
    (by omega) (by omega) (by omega)

/-- Which multipliers make the cells of an `int` computation fill `[0, n)`. -/
theorem cellsFill_iff {n f o : Nat} (hodd : f % 2 = 1) (hf : 1 < f) (hf' : f < 1024)
    (hn : n < 2147483648) (ho : o < n) :
    CellsFill n f o ↔ Nat.Coprime f n ∧ f * (n - 1) + o < 2147483648 := by
  constructor
  · intro h
    have hfit := fit_of_cellsFill hodd hf hf' hn ho h
    refine ⟨coprime_of_affine_injOn (o := o) (by omega) ?_, hfit⟩
    intro i hi j hj heq
    apply ((cellsFill_def n f o).mp h).2 i hi j hj
    rw [affineCell_of_lt (affine_lt_of_le hfit hi), affineCell_of_lt (affine_lt_of_le hfit hj), heq]
  · exact fun h => cellsFill_of_coprime h.1 h.2

end Int32

end PChase.AffineCycle
