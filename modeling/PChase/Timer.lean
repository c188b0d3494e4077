import Mathlib.Data.Finset.Max
import PChase.BarriersAligned
import PChase.RecordedDurations

/-!
# The timer

`Timer::seconds` makes a `double` of the time of day, exact to a quarter of a microsecond.
`Timer::resolution` waits for twenty changes of it and measures half of these; the least is the
resolution, up to the rounding of the readings. So are the durations of a run, none of which
is lost that lasts a microsecond.
-/

namespace PChase

open CountLoop BarrierProgram
set_option autoImplicit false

/-- The rounding of double-precision arithmetic: half a unit in the last place, except for
values that are too small for their full precision. -/
structure RoundsDouble (round : ℚ → ℚ) : Prop where
  zero : round 0 = 0
  error : ∀ x, 1 / 2 ^ 1022 ≤ |x| → |round x - x| ≤ |x| / 2 ^ 53

structure TimeOfDay where
  sec : Nat
  usec : Nat
  usec_lt : usec < 1000000
  deriving DecidableEq

namespace Timer

/-- `Timer::ticks()` -/
def ticks (t : TimeOfDay) : Nat := 1000000 * t.sec + t.usec

/-- `Timer::seconds()` -/
def seconds (round : ℚ → ℚ) (t : TimeOfDay) : ℚ :=
  round (t.sec + round (t.usec * round (1 / 1000000)))

def min (v1 v2 : ℚ) : ℚ := if v2 < v1 then v2 else v1

section Loops
variable (round : ℚ → ℚ) (now : Nat → TimeOfDay) (fuel : Nat)

/-- `while (a == (b = Timer::seconds()))`, where `a` is reading `k`: the reading that is `b`. -/
def awaitChange (k : Nat) : Option Nat :=
  (forLoop (fun j => decide (seconds round (now k) = seconds round (now j))) (· + 1) fuel
    (k + 1)).map fun same => k + 1 + same.length

/-- The loop of `resolution` with `n` turns ahead and `k` as the next reading. -/
def resolutionLoop : Nat → Nat → ℚ → Option (ℚ × Nat)
  | 0, k, c => some (c, k)
  | n + 1, k, c => do
    let b ← awaitChange round now fuel k
    let a := b + 1
    let b ← awaitChange round now fuel a
    resolutionLoop n (b + 1) (min (round (seconds round (now b) - seconds round (now a))) c)

/-- `Timer::resolution()` from reading `k` on, with the reading that would come next. -/
def resolution (k : Nat) : Option (ℚ × Nat) := resolutionLoop round now fuel 10 k 1000000000

end Loops

theorem ticks_injective {t t' : TimeOfDay} (h : ticks t = ticks t') : t = t' := by
  have hlt := t.usec_lt
  have hlt' := t'.usec_lt
  unfold ticks at h
  cases t
  cases t'
  simp only [TimeOfDay.mk.injEq]
  simp only at hlt hlt' h
  omega

section Rounding
variable {round : ℚ → ℚ} (hr : RoundsDouble round)
include hr

theorem rounds_close (bound : ℚ) {x : ℚ} (hx : x = 0 ∨ 1 / 2 ^ 40 ≤ x) (hbound : x ≤ bound) :
    |round x - x| ≤ bound / 2 ^ 53 := by
  rcases hx with rfl | hx
  · rw [hr.zero, sub_zero, abs_zero]
    positivity
  · have htiny : (1 : ℚ) / 2 ^ 1022 ≤ 1 / 2 ^ 40 :=
      one_div_pow_le_one_div_pow_of_le (by norm_num) (by norm_num)
    have hpos : |x| = x := abs_of_pos (lt_of_lt_of_le (by norm_num) hx)
    have herror := hr.error x (by
      rw [hpos]
      exact htiny.trans hx)
    rw [hpos] at herror
    refine herror.trans ?_
    gcongr

theorem fraction_close (t : TimeOfDay) :
    |round (t.usec * round (1 / 1000000)) - t.usec / 1000000| ≤ 3 / 2 ^ 53 := by
  have hunit := rounds_close hr (1 / 1000000) (.inr (by norm_num)) (le_refl _)
  generalize round (1 / 1000000) = unit at hunit ⊢
  have hunits : |t.usec * unit - t.usec / 1000000| ≤ 1 / 2 ^ 53 := by
    have hlt : (t.usec : ℚ) ≤ 1000000 := by exact_mod_cast t.usec_lt.le
    have hnonneg : (0 : ℚ) ≤ t.usec := Nat.cast_nonneg t.usec
    calc |t.usec * unit - t.usec / 1000000| = t.usec * |unit - 1 / 1000000| := by
          rw [← abs_of_nonneg hnonneg, ← abs_mul]
          simp only [Nat.abs_cast]
          ring_nf
      _ ≤ 1000000 * (1 / 1000000 / 2 ^ 53) := by gcongr
      _ = 1 / 2 ^ 53 := by norm_num
  have hprod : |round (t.usec * unit) - t.usec * unit| ≤ 2 / 2 ^ 53 := by
    rw [abs_le] at hunit hunits
    have hlt : (t.usec : ℚ) / 1000000 ≤ 1 := by
      rw [div_le_one (by norm_num)]
      exact_mod_cast t.usec_lt.le
    apply rounds_close hr 2
    · rcases Nat.eq_zero_or_pos t.usec with hzero | hpos
      · rw [hzero, Nat.cast_zero, zero_mul]
        exact .inl rfl
      · right
        have hone : (1 : ℚ) / 1000000 ≤ t.usec / 1000000 := by
          gcongr
          exact_mod_cast hpos
        linarith
    · linarith
  have hsplit := abs_sub_le (round (t.usec * unit)) (t.usec * unit) (t.usec / 1000000)
  linarith

/-- Up to a quarter of a microsecond the reading is the time of day. -/
theorem seconds_close {t : TimeOfDay} (ht : t.sec < 2147483648) :
    |seconds round t - (ticks t : ℚ) / 1000000| ≤ 1 / 4000000 := by
  have hfraction := fraction_close hr t
  have hticks : (ticks t : ℚ) / 1000000 = t.sec + t.usec / 1000000 := by
    unfold ticks
    push_cast
    ring
  have hsec : (t.sec : ℚ) ≤ 2147483647 := by exact_mod_cast Nat.le_of_lt_succ ht
  have hlt : (t.usec : ℚ) / 1000000 ≤ 1 := by
    rw [div_le_one (by norm_num)]
    exact_mod_cast t.usec_lt.le
  have hsum : t.sec + round (t.usec * round (1 / 1000000)) = 0 ∨
      1 / 2 ^ 40 ≤ t.sec + round (t.usec * round (1 / 1000000)) := by
    rw [abs_le] at hfraction
    by_cases hzero : ticks t = 0
    · obtain ⟨hsec0, husec0⟩ : t.sec = 0 ∧ t.usec = 0 := by
        unfold ticks at hzero
        omega
      rw [hsec0, husec0, Nat.cast_zero, zero_mul, hr.zero]
      exact .inl (add_zero _)
    · right
      have hone : (1 : ℚ) / 1000000 ≤ ticks t / 1000000 := by
        gcongr
        exact_mod_cast Nat.one_le_iff_ne_zero.mpr hzero
      rw [hticks] at hone
      linarith
  unfold seconds
  generalize round (t.usec * round (1 / 1000000)) = fraction at hfraction hsum ⊢
  rw [abs_le] at hfraction
  have hround := rounds_close hr 2147483649 hsum (by linarith)
  rw [abs_le] at hround ⊢
  constructor
  all_goals linarith

theorem seconds_apart {t t' : TimeOfDay} (ht : t.sec < 2147483648) (ht' : t'.sec < 2147483648)
    (hle : ticks t ≤ ticks t') :
    |seconds round t' - seconds round t - ((ticks t' - ticks t : Nat) : ℚ) / 1000000| ≤
      1 / 2000000 := by
  have hclose := seconds_close hr ht
  have hclose' := seconds_close hr ht'
  rw [Nat.cast_sub hle, sub_div]
  rw [abs_le] at hclose hclose' ⊢
  constructor
  all_goals linarith

/-- What one turn of the loop measures is the jump between two readings. -/
theorem gap_close {t t' : TimeOfDay} (ht : t.sec < 2147483648) (ht' : t'.sec < 2147483648)
    (hlt : ticks t < ticks t') :
    |round (seconds round t' - seconds round t) - ((ticks t' - ticks t : Nat) : ℚ) / 1000000| ≤
      9 / 10000000 := by
  have hapart := seconds_apart hr ht ht' hlt.le
  have hone : (1 : ℚ) / 1000000 ≤ ((ticks t' - ticks t : Nat) : ℚ) / 1000000 := by
    gcongr
    exact_mod_cast Nat.sub_pos_of_lt hlt
  have hmost : ((ticks t' - ticks t : Nat) : ℚ) / 1000000 ≤ 2147483648 := by
    rw [div_le_iff₀ (by norm_num)]
    have hticks : ticks t' - ticks t ≤ 2147483648 * 1000000 := by
      have husec := t'.usec_lt
      unfold ticks
      omega
    exact_mod_cast hticks
  rw [abs_le] at hapart
  have hround := rounds_close hr 2147483649
    (.inr (show 1 / 2 ^ 40 ≤ seconds round t' - seconds round t by linarith)) (by linarith)
  rw [abs_le] at hround ⊢
  constructor
  all_goals linarith

end Rounding

section Loops
variable {round : ℚ → ℚ} {now : Nat → TimeOfDay}

def Jump (round : ℚ → ℚ) (now : Nat → TimeOfDay) (j : Nat) : Prop :=
  seconds round (now (j + 1)) ≠ seconds round (now j)

theorem Jump.ticks_lt {j : Nat} (h : Jump round now j)
    (hforward : Monotone fun k => ticks (now k)) : ticks (now j) < ticks (now (j + 1)) := by
  refine lt_of_le_of_ne (hforward (Nat.le_succ j)) fun heq => h ?_
  rw [ticks_injective heq]

/-- The loop ends at the first jump, and has the same reading up to there. -/
theorem awaitChange_spec (hgo : ∀ k, ∃ j > k, seconds round (now j) ≠ seconds round (now k))
    (k : Nat) : ∃ j, k ≤ j ∧ seconds round (now j) = seconds round (now k) ∧ Jump round now j ∧
      ∀ fuel > j, awaitChange round now fuel k = some (j + 1) := by
  classical
  have hchange : ∃ n, seconds round (now (k + 1 + n)) ≠ seconds round (now k) := by
    obtain ⟨j, hj, hne⟩ := hgo k
    exact ⟨j - (k + 1), by rwa [Nat.add_sub_cancel' hj]⟩
  have hbefore : ∀ m < Nat.find hchange,
      seconds round (now (k + 1 + m)) = seconds round (now k) :=
    fun m hm => not_not.mp (Nat.find_min hchange hm)
  have hstays : seconds round (now (k + Nat.find hchange)) = seconds round (now k) := by
    cases hn : Nat.find hchange with
    | zero => rfl
    | succ n =>
      have hsame := hbefore n (by omega)
      rwa [Nat.add_assoc, Nat.add_comm 1 n] at hsame
  have hiterate : ∀ m, (· + 1)^[m] (k + 1) = k + 1 + m := fun m => by simp
  refine ⟨k + Nat.find hchange, Nat.le_add_right .., hstays, ?_, ?_⟩
  · have hends := Nat.find_spec hchange
    unfold Jump
    rwa [hstays, Nat.add_right_comm]
  · intro fuel hfuel
    have hloop : forLoop (fun j => decide (seconds round (now k) = seconds round (now j))) (· + 1)
        fuel (k + 1) = some (values (· + 1) (k + 1) (Nat.find hchange)) := by
      refine (forLoop_eq_some_iff _ _ _ _ _).mpr ⟨_, by omega, ?_, ?_, rfl⟩
      · intro m hm
        rw [hiterate]
        exact decide_eq_true (hbefore m hm).symm
      · rw [hiterate]
        exact decide_eq_false (Nat.find_spec hchange).symm
    rw [awaitChange, hloop, Option.map_some, values_length, Nat.add_right_comm]

theorem resolutionLoop_spec
    (hgo : ∀ k, ∃ j > k, seconds round (now j) ≠ seconds round (now k)) (n k : Nat) (c : ℚ) :
    ∃ (last : Nat) (jumps : List Nat), jumps.length = n ∧ jumps.Pairwise (· < ·) ∧ k + 4 * n ≤ last ∧
      (∀ j ∈ jumps, k < j ∧ j + 1 < last ∧ Jump round now j) ∧
      ∀ fuel > last, resolutionLoop round now fuel n k c =
        some (jumps.foldl (fun c j =>
          min (round (seconds round (now (j + 1)) - seconds round (now j))) c) c, last) := by
  induction n generalizing k c with
  | zero => exact ⟨k, [], rfl, .nil, Nat.le_refl _, by simp, fun _ _ => rfl⟩
  | succ n ih =>
    obtain ⟨i, hi, _, _, hfirst⟩ := awaitChange_spec hgo k
    obtain ⟨j, hj, hsame, hjump, hsecond⟩ := awaitChange_spec hgo (i + 2)
    obtain ⟨last, jumps, hlen, hsorted, hlast, hjumps, hloop⟩ := ih (j + 2)
      (min (round (seconds round (now (j + 1)) - seconds round (now j))) c)
    refine ⟨last, j :: jumps, by rw [List.length_cons, hlen],
      List.pairwise_cons.mpr ⟨fun l hl => ?_, hsorted⟩, by omega,
      List.forall_mem_cons.mpr ⟨⟨by omega, by omega, hjump⟩, fun l hl => ?_⟩, ?_⟩
    · have hafter := (hjumps l hl).1
      omega
    · have hafter := hjumps l hl
      exact ⟨by omega, hafter.2⟩
    · intro fuel hfuel
      simp only [resolutionLoop, hfirst fuel (by omega), hsecond fuel (by omega),
        Option.bind_eq_bind, Option.bind_some, ← hsame]
      exact hloop fuel hfuel

theorem foldl_min_spec {α : Type} (f : α → ℚ) (xs : List α) (c : ℚ) :
    xs.foldl (fun c x => min (f x) c) c ≤ c ∧ (∀ x ∈ xs, xs.foldl (fun c x => min (f x) c) c ≤ f x) ∧
      (xs.foldl (fun c x => min (f x) c) c = c ∨
        ∃ x ∈ xs, xs.foldl (fun c x => min (f x) c) c = f x) := by
  induction xs generalizing c with
  | nil => exact ⟨le_refl c, by simp, .inl rfl⟩
  | cons x xs ih =>
    obtain ⟨hle, hall, hone⟩ := ih (min (f x) c)
    have hmin : min (f x) c ≤ f x ∧ min (f x) c ≤ c ∧ (min (f x) c = c ∨ min (f x) c = f x) := by
      unfold min
      split
      · exact ⟨by linarith, le_refl c, .inl rfl⟩
      · exact ⟨le_refl _, by linarith, .inr rfl⟩
    rw [List.foldl_cons]
    refine ⟨hle.trans hmin.2.1, List.forall_mem_cons.mpr ⟨hle.trans hmin.1, hall⟩, ?_⟩
    rcases hone with hone | ⟨y, hy, hone⟩
    · rw [hone]
      exact hmin.2.2.imp id fun h => ⟨x, List.mem_cons_self .., h⟩
    · exact .inr ⟨y, List.mem_cons_of_mem x hy, hone⟩

end Loops

section Resolution
variable {round : ℚ → ℚ} {now : Nat → TimeOfDay}

def width (now : Nat → TimeOfDay) (j : Nat) : Nat := ticks (now (j + 1)) - ticks (now j)

/-- The least measured jump stands among the widths up to the errors of the readings. -/
theorem least_close (hr : RoundsDouble round) (hforward : Monotone fun k => ticks (now k))
    {last : Nat} (hsec : ∀ j < last, (now j).sec < 2147483648) {jumps : List Nat}
    (hne : jumps ≠ []) (hjumps : ∀ j ∈ jumps, j + 1 < last ∧ Jump round now j) {c₀ c : ℚ}
    (hc₀ : 0 < c₀) (hc : c = jumps.foldl (fun c j =>
      min (round (seconds round (now (j + 1)) - seconds round (now j))) c) c₀) :
    0 < c ∧ ∃ j ∈ jumps, (∀ i ∈ jumps, width now j ≤ width now i) ∧
      |c - ((width now j : ℚ) / 1000000 ⊓ c₀)| ≤ 9 / 10000000 := by
  have hgap : ∀ j ∈ jumps, (1 : ℚ) / 1000000 ≤ width now j / 1000000 ∧
      |round (seconds round (now (j + 1)) - seconds round (now j)) - width now j / 1000000| ≤
        9 / 10000000 := by
    intro j hj
    obtain ⟨hlast, hjump⟩ := hjumps j hj
    have hlt := hjump.ticks_lt hforward
    refine ⟨?_, gap_close hr (hsec j (by omega)) (hsec (j + 1) hlast) hlt⟩
    gcongr
    exact_mod_cast Nat.sub_pos_of_lt hlt
  obtain ⟨j, hj, hleast⟩ := Finset.exists_min_image jumps.toFinset (width now)
    (List.toFinset_nonempty_iff jumps |>.mpr hne)
  rw [List.mem_toFinset] at hj
  simp only [List.mem_toFinset] at hleast
  obtain ⟨hle, hall, hone⟩ := foldl_min_spec
    (fun j => round (seconds round (now (j + 1)) - seconds round (now j))) jumps c₀
  rw [← hc] at hle hall hone
  have hupper := hall j hj
  obtain ⟨hone_le, hclose⟩ := hgap j hj
  rw [abs_le] at hclose
  have hpos : 0 < c ∧ (width now j : ℚ) / 1000000 ⊓ c₀ ≤ c + 9 / 10000000 := by
    rcases hone with hone | ⟨i, hi, hone⟩
    · have hinf : (width now j : ℚ) / 1000000 ⊓ c₀ ≤ c₀ := inf_le_right
      rw [hone]
      exact ⟨hc₀, by linarith⟩
    · have hinf : (width now j : ℚ) / 1000000 ⊓ c₀ ≤ width now j / 1000000 := inf_le_left
      have hwidth : (width now j : ℚ) / 1000000 ≤ width now i / 1000000 := by
        gcongr
        exact_mod_cast hleast i hi
      obtain ⟨hone_le', hclose'⟩ := hgap i hi
      rw [abs_le] at hclose'
      exact ⟨by linarith, by linarith⟩
  refine ⟨hpos.1, j, hj, hleast, ?_⟩
  have hinf : c - 9 / 10000000 ≤ (width now j : ℚ) / 1000000 ⊓ c₀ :=
    le_inf (by linarith) (by linarith)
  rw [abs_le]
  exact ⟨by linarith [hpos.2], by linarith⟩

/-- For a time of day that goes on, however coarsely, the resolution is found, and is
positive: it is the least of ten jumps of the clock, up to a microsecond. With a jump below
20 milliseconds among them the calibration rounds of the thread are to last 0.2 seconds. -/
theorem resolution_of_jumps (hr : RoundsDouble round)
    (hforward : Monotone fun k => ticks (now k))
    (hgo : ∀ k, ∃ j > k, seconds round (now j) ≠ seconds round (now k)) (k : Nat) :
    ∃ (c : ℚ) (last : Nat) (jumps : List Nat),
      (∀ fuel > last, resolution round now fuel k = some (c, last)) ∧ k + 40 ≤ last ∧
      jumps.length = 10 ∧ jumps.Pairwise (· < ·) ∧
      (∀ j ∈ jumps, k < j ∧ j + 1 < last ∧ ticks (now j) < ticks (now (j + 1))) ∧
      ((∀ j < last, (now j).sec < 2147483648) → 0 < c ∧
        ∃ j ∈ jumps, (∀ i ∈ jumps, width now j ≤ width now i) ∧
          |c - ((width now j : ℚ) / 1000000 ⊓ 1000000000)| ≤ 1 / 1000000 ∧
          (width now j < 20000 → ∀ (m : Clocks) (t : Nat), m.resolution t = c →
            m.bound t = m.round (1 / 5))) := by
  obtain ⟨last, jumps, hlen, hsorted, hreads, hjumps, hloop⟩ :=
    resolutionLoop_spec hgo 10 k 1000000000
  refine ⟨_, last, jumps, hloop, hreads, hlen, hsorted, ?_, fun hsec => ?_⟩
  · intro j hj
    obtain ⟨hafter, hlast, hjump⟩ := hjumps j hj
    exact ⟨hafter, hlast, hjump.ticks_lt hforward⟩
  · have hne : jumps ≠ [] := List.ne_nil_of_length_pos (by omega)
    have hstart : (0 : ℚ) < 1000000000 := by norm_num
    obtain ⟨hpos, j, hj, hleast, hclose⟩ := least_close hr hforward hsec hne
      (fun j hj => (hjumps j hj).2) hstart rfl
    refine ⟨hpos, j, hj, hleast, hclose.trans (by norm_num), fun hwidth m t hm => ?_⟩
    apply bound_of_resolution
    have hinf : (width now j : ℚ) / 1000000 ⊓ 1000000000 ≤ width now j / 1000000 := inf_le_left
    have hwidth' : (width now j : ℚ) / 1000000 ≤ 19999 / 1000000 := by
      gcongr
      exact_mod_cast Nat.le_of_lt_succ hwidth
    rw [abs_le] at hclose
    rw [hm]
    linarith

def tenMilliseconds (k : Nat) : TimeOfDay :=
  ⟨k / 100, k % 100 * 10000, by omega⟩

theorem ticks_tenMilliseconds (k : Nat) : ticks (tenMilliseconds k) = 10000 * k := by
  simp only [ticks, tenMilliseconds]
  omega

theorem roundsDouble_id : RoundsDouble id := by
  refine ⟨rfl, fun x _ => ?_⟩
  rw [id, sub_self, abs_zero]
  positivity

theorem seconds_tenMilliseconds (k : Nat) : seconds id (tenMilliseconds k) = k / 100 := by
  have hticks : ((10000 * k : Nat) : ℚ) = (ticks (tenMilliseconds k) : Nat) := by
    rw [ticks_tenMilliseconds]
  unfold ticks at hticks
  unfold seconds
  push_cast at hticks
  simp only [id]
  linarith

theorem resolution_tenMilliseconds : ∃ c last, (∀ fuel > last,
    resolution id tenMilliseconds fuel 0 = some (c, last)) ∧ 0 < c ∧
      |c - 1 / 100| ≤ 1 / 1000000 ∧ ∀ (m : Clocks) (t : Nat), m.resolution t = c →
        m.bound t = m.round (1 / 5) := by
  have hnext : ∀ fuel k, awaitChange id tenMilliseconds (fuel + 1) k = some (k + 1) := by
    intro fuel k
    simp [awaitChange, forLoop, seconds_tenMilliseconds]
  have hforward : Monotone fun k => ticks (tenMilliseconds k) := by
    intro k l hkl
    simp only [ticks_tenMilliseconds]
    omega
  obtain ⟨c, last, jumps, hloop, _, _, _, hjumps, hsec⟩ := resolution_of_jumps roundsDouble_id
    hforward (fun k => ⟨k + 1, Nat.lt_succ_self k, by simp [seconds_tenMilliseconds]⟩) 0
  have hlast : last = 40 := by
    have hrun := hloop (last + 1) (Nat.lt_succ_self last)
    simp only [resolution, resolutionLoop, hnext, Option.bind_eq_bind, Option.bind_some,
      Option.some.injEq, Prod.mk.injEq] at hrun
    exact hrun.2.symm
  obtain ⟨hpos, j, _, _, hclose, hbound⟩ := hsec (fun j hj => by
    simp only [tenMilliseconds]
    omega)
  have hwidth : width tenMilliseconds j = 10000 := by
    simp only [width, ticks_tenMilliseconds]
    omega
  rw [hwidth] at hclose hbound
  refine ⟨c, last, hloop, hpos, ?_, hbound (by norm_num)⟩
  norm_num at hclose ⊢
  exact hclose

end Resolution

section Durations
variable {e : Experiment} {m : Clocks} {now : Nat → TimeOfDay}

theorem duration_close (hr : RoundsDouble m.round) (hforward : Monotone fun k => ticks (now k))
    (hclock : ∀ k, m.clock k = seconds m.round (now k)) {first k : Nat}
    (hsec : ∀ j ≤ first + 2 * k + 1, (now j).sec < 2147483648) :
    (0 < m.duration first k ↔ 0 < width now (first + 2 * k)) ∧
      |m.duration first k - width now (first + 2 * k) / 1000000| ≤ 9 / 10000000 := by
  unfold Clocks.duration
  rw [hclock, hclock]
  rcases (hforward (Nat.le_succ (first + 2 * k))).eq_or_lt with heq | hlt
  · have hwidth : width now (first + 2 * k) = 0 := Nat.sub_eq_zero_of_le heq.ge
    rw [ticks_injective heq, sub_self, hr.zero, hwidth]
    norm_num
  · have hclose := gap_close hr (hsec _ (by omega)) (hsec _ (le_refl _)) hlt
    have hpos : 0 < width now (first + 2 * k) := Nat.sub_pos_of_lt hlt
    have hone : (1 : ℚ) / 1000000 ≤ width now (first + 2 * k) / 1000000 := by
      gcongr
      exact_mod_cast hpos
    refine ⟨iff_of_true ?_ hpos, hclose⟩
    change |_ - (width now (first + 2 * k) : ℚ) / 1000000| ≤ _ at hclose
    rw [abs_le] at hclose
    linarith

/-- Whatever the threads do in between, thread 0 records the experiments that last at least a
microsecond, each with the time between its two readings up to a microsecond. -/
theorem durations_of_ticks {p : Platform} {args : List CStr} (h : parseArgs p args = .accepted e)
    (hr : RoundsDouble m.round) (hforward : Monotone fun k => ticks (now k))
    (hclock : ∀ k, m.clock k = seconds m.round (now k)) {s : RunState}
    (hs : RunReachable e m s) (hend : (s.locals 0).point = .finished)
    (hsec : ∀ k < s.shared.readings, (now k).sec < 2147483648) :
    ∃ first, s.shared.readings = first + 2 * e.experiments.toNat ∧
      List.Forall₂ (fun k delta => |delta - (width now (first + 2 * k) : ℚ) / 1000000| ≤ 9 / 10000000)
        ((List.range e.experiments.toNat).filter fun k => decide (0 < width now (first + 2 * k)))
        s.shared.seconds := by
  have hn := (accepted_of_parseArgs h).numThreads_pos
  have hthread : 0 < e.numThreads.toNat := by omega
  have hlt : e.experiments < 2147483648 := by
    by_contra hge
    exact never_ends (by omega) hs 0 hthread hend
  have htiming := timing_of_reachable hlt hs hthread
  simp only [Timing, hend] at htiming
  obtain ⟨first, hrec⟩ := htiming
  have hreadings := hrec.readings_eq
  have hduration : ∀ k < e.experiments.toNat,
      (0 < m.duration first k ↔ 0 < width now (first + 2 * k)) ∧
        |m.duration first k - width now (first + 2 * k) / 1000000| ≤ 9 / 10000000 :=
    fun k hk => duration_close hr hforward hclock fun j hj => hsec j (by omega)
  refine ⟨first, hreadings, ?_⟩
  have hsame : ((List.range e.experiments.toNat).filter fun k => decide (0 < m.duration first k)) =
      (List.range e.experiments.toNat).filter fun k => decide (0 < width now (first + 2 * k)) :=
    List.filter_congr fun k hk => decide_eq_decide.mpr (hduration k (List.mem_range.mp hk)).1
  rw [hrec.seconds_eq, recorded, List.filter_map, ← hsame]
  refine List.forall₂_map_right_iff.mpr (List.forall₂_same.mpr fun k hk => ?_)
  exact (hduration k (List.mem_range.mp (List.mem_filter.mp hk).1)).2

def everySecond (k : Nat) : TimeOfDay := ⟨k, 0, by decide⟩

theorem seconds_everySecond (k : Nat) : unitClocks.clock k = seconds unitClocks.round (everySecond k) := by
  simp [seconds, everySecond, unitClocks]

theorem second_of_ticks : ∃ e s,
    parseArgs .single ["-i".toList, "1".toList, "-o".toList, "csv".toList] = .accepted e ∧
      RunReachable e unitClocks s ∧ s.shared.readings = 2 ∧ s.shared.seconds = [1] ∧
      ∀ delta ∈ s.shared.seconds, |delta - 1| ≤ 9 / 10000000 := by
  obtain ⟨e, he, hthreads, hexperiments, hrun⟩ :
      ∃ e, parseArgs .single ["-i".toList, "1".toList, "-o".toList, "csv".toList] = .accepted e ∧
        e.numThreads = 1 ∧ e.experiments = 1 ∧ (((runProgram e unitClocks).follow 1 1 shortRun
          (initial { iterations := e.iterations } fun _ => {})).map fun s =>
            ((s.locals 0).point, s.shared.readings, s.shared.seconds)) = some (.finished, 2, [1]) :=
    ⟨_, rfl, rfl, rfl, by decide +kernel⟩
  obtain ⟨s, hs, hstate⟩ := Option.map_eq_some_iff.mp hrun
  simp only [Prod.mk.injEq] at hstate
  obtain ⟨hpoint, hreadings, hseconds⟩ := hstate
  have hreach : RunReachable e unitClocks s := by
    rw [RunReachable, hthreads]
    exact run_of_follow hs
  have hforward : Monotone fun k => ticks (everySecond k) := by
    intro k l hkl
    simp only [ticks, everySecond]
    omega
  obtain ⟨first, _, hclose⟩ := durations_of_ticks he roundsDouble_id hforward seconds_everySecond
    hreach hpoint (fun k hk => by
      simp only [everySecond]
      omega)
  refine ⟨e, s, he, hreach, hreadings, hseconds, ?_⟩
  rw [hexperiments, hseconds] at hclose
  rw [hseconds]
  intro delta hdelta
  have hwidth : width everySecond (first + 2 * 0) = 1000000 := by
    simp only [width, ticks, everySecond]
    omega
  change List.Forall₂ _ (List.filter _ [0]) [1] at hclose
  rw [List.filter_singleton, hwidth] at hclose
  simp only [Nat.ofNat_pos, decide_true, cond_true, List.forall₂_cons, hwidth] at hclose
  rw [List.mem_singleton.mp hdelta]
  simpa using hclose.1

end Durations

end Timer

end PChase
