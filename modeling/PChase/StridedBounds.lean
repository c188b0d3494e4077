import PChase.RandomBounds

/-!
# When strided links stay inside the block

Both strided routines count in an `int` by a 64-bit stride. What matters is the first
multiple of the stride, reduced to 32 bits, that is past the last line: there the loop
over the lines ends.
-/

namespace PChase

open CInt CountLoop AffineCycle NextWalk
set_option autoImplicit false

/-- The `n`-th multiple of the stride, as an `int`, is the first at or past the bound. -/
def EndsAt (bound stride : Int) (n : Nat) : Prop :=
  (∀ m : Nat, m < n → wrap32 (m * stride) < bound) ∧ bound ≤ wrap32 (n * stride)

/-- Where the loop ends after `n` lines, the last link is in range and in the block. -/
def Experiment.ForwardFits (e : Experiment) : Prop :=
  e.linesPerChain ≤ 0 ∨ (1 ≤ e.linksPerLine ∧
    (e.stride * e.linksPerLine % 4294967296 = 0 ∨
      ∃ n : Nat, EndsAt e.linesPerChain e.stride n ∧
        ((n : Int) - 1) * (e.stride * e.linksPerLine % 4294967296) < 2147483648 ∧
        ((n : Int) - 1) * (e.stride * e.linksPerLine % 4294967296) <
          e.linesPerChain * e.linksPerLine))

/-- After `k` turns through all values of an `int`, a multiple of the step comes to lie
between the bound and the largest `int`. -/
def Lands (bound s : Int) (k : Nat) : Prop :=
  -(k * 4294967296 + bound) % s < 2147483648 - bound

def LandsFirst (bound s : Int) (k : Nat) : Prop :=
  Lands bound s k ∧ ∀ j < k, ¬ Lands bound s j

/-- The multiples of the step, after `k` turns, that are lines: the least, and the number
of those above it. -/
def lowestLine (s : Int) (k : Nat) : Int := -(k * 4294967296) % s

def linesAbove (bound s : Int) (k : Nat) : Int := (bound - 1 - lowestLine s k) / s

/-- The links go in equal steps modulo 2^32 from that of the lowest line to that of the
highest, and both ends are in range. Without a line nothing was assigned to `last`, and
any start has to do. -/
def Experiment.ReverseFits (e : Experiment) : Prop :=
  (e.linesPerChain < 0 ∧ e.linksPerLine < 0 ∧ e.linksPerLine % 4294967296 ≤ 1) ∨
  (1 ≤ e.linesPerChain ∧ (0 < reverseStride e → ∀ k, LandsFirst e.linesPerChain (reverseStride e) k →
    lowestLine (reverseStride e) k < e.linesPerChain →
      1 ≤ e.linksPerLine ∧
      lowestLine (reverseStride e) k * e.linksPerLine % 4294967296 < 2147483648 ∧
      0 ≤ lowestLine (reverseStride e) k * e.linksPerLine % 4294967296 +
        linesAbove e.linesPerChain (reverseStride e) k * wrap32 (reverseStride e * e.linksPerLine) ∧
      lowestLine (reverseStride e) k * e.linksPerLine % 4294967296 +
        linesAbove e.linesPerChain (reverseStride e) k * wrap32 (reverseStride e * e.linksPerLine) <
          2147483648))

def ForwardInBlock (e : Experiment) : Prop := ∀ link, ForwardForms e link → InBlock e link

def ReverseInBlock (e : Experiment) : Prop := ∀ link, ReverseForms e link → InBlock e link

theorem endsAt_of_pos {bound s : Int} {n : Nat} (hs : 0 < s) (hlast : ((n : Int) - 1) * s < bound)
    (hpast : bound ≤ n * s) (hrange : n * s < 2147483648) : EndsAt bound s n := by
  have hvalue : ∀ m : Nat, m ≤ n → wrap32 (m * s) = m * s := by
    intro m hm
    have hle : (m : Int) * s ≤ n * s := Int.mul_le_mul_of_nonneg_right (by omega) (by omega)
    exact wrap32_of_bounds (Int.mul_nonneg (by omega) (by omega)) (by omega)
  refine ⟨?_, (hvalue n (Nat.le_refl n)).symm ▸ hpast⟩
  intro m hm
  rw [hvalue m (by omega)]
  have hle : (m : Int) * s ≤ ((n : Int) - 1) * s :=
    Int.mul_le_mul_of_nonneg_right (by omega) (by omega)
  omega

theorem addStep_multiple (s : Int) (n : Nat) : (addStep s)^[n] 0 = wrap32 (n * s) := by
  rw [addStep_iterate s 0 n inInt32_zero, Int.zero_add]

theorem lineLink_wrap32 (e : Experiment) (i : Int) :
    lineLink e (wrap32 i) = wrap32 (i * e.linksPerLine) := by
  rw [lineLink, wrap32_wrap64, wrap32_wrap32_mul]

theorem lineLink_eq (e : Experiment) (i : Int) : lineLink e i = wrap32 (i * e.linksPerLine) := by
  rw [lineLink, wrap32_wrap64]

theorem forwardForms_iff (e : Experiment) (link : Int) : ForwardForms e link ↔
    ∃ n : Nat, (∀ m : Nat, m ≤ n → wrap32 (m * e.stride) < e.linesPerChain) ∧
      wrap32 (n * (e.stride * e.linksPerLine)) = link := by
  simp only [ForwardForms, Meets, Reaches, addStep_multiple, decide_eq_true_eq]
  constructor
  · rintro ⟨_, ⟨n, hreach, rfl⟩, hlink⟩
    rw [lineLink_wrap32, Int.mul_assoc] at hlink
    exact ⟨n, hreach, hlink⟩
  · rintro ⟨n, hreach, hlink⟩
    refine ⟨_, ⟨n, hreach, rfl⟩, ?_⟩
    rw [lineLink_wrap32, Int.mul_assoc]
    exact hlink

/-- A block that counts lines of no links is empty. -/
theorem Experiment.SizesDerived.links_pos_of_lines {e : Experiment} (hs : e.SizesDerived)
    (hn : 1 ≤ e.linesPerChain) (hpos : 0 < e.linksPerChain) : 1 ≤ e.linksPerLine := by
  by_contra hneg
  by_cases hk : e.linksPerLine = 0
  · rw [linksPerChain_of_no_links hs hk] at hpos
    omega
  · rw [(hs.geometry hk).linksPerChain_eq, ← (hs.geometry hk).linesPerChain_eq] at hpos
    have hlines : 0 < e.linesPerChain := by omega
    have hlinks : e.linksPerLine < 0 := by omega
    have := Int.mul_neg_of_pos_of_neg hlines hlinks
    omega

theorem Experiment.Geometry.links_eq {e : Experiment} (hg : e.Geometry) :
    e.linksPerChain = e.linesPerChain * e.linksPerLine := by
  rw [hg.linksPerChain_eq, hg.linesPerChain_eq]

/-- A stride whose links move at all meets the bound, or some link is negative. -/
theorem exists_endsAt {bound s t : Int} (ht : t % 4294967296 ≠ 0)
    (h : ∀ n : Nat, (∀ m : Nat, m ≤ n → wrap32 (m * s) < bound) → 0 ≤ wrap32 (n * t)) :
    ∃ n, EndsAt bound s n := by
  have hex : ∃ n : Nat, bound ≤ wrap32 (n * s) := by
    by_contra hnone
    have hbelow : ∀ m : Nat, wrap32 (m * s) < bound := by
      intro m
      by_contra hge
      exact hnone ⟨m, by omega⟩
    have hlast := mul_lt_of_wrap32_nonneg (n := 2147483649)
      (fun m _ => h m fun k _ => hbelow k) 2147483648 (by omega)
    omega
  refine ⟨Nat.find hex, ?_, Nat.find_spec hex⟩
  intro m hm
  have := Nat.find_min hex hm
  omega

theorem forwardFits_of_inBlock {e : Experiment} (hs : e.SizesDerived)
    (h : ForwardInBlock e) : e.ForwardFits := by
  refine or_iff_not_imp_left.mpr fun hn => ?_
  have hlink : ∀ n : Nat, (∀ m : Nat, m ≤ n → wrap32 (m * e.stride) < e.linesPerChain) →
      InBlock e (wrap32 (n * (e.stride * e.linksPerLine))) := fun n hreach =>
    h _ ((forwardForms_iff e _).mpr ⟨n, hreach, rfl⟩)
  have hfirst := hlink 0 (fun m hm => by
    have hm0 : m = 0 := by omega
    rw [hm0, Nat.cast_zero, Int.zero_mul, wrap32_zero]
    omega)
  have hk := hs.links_pos_of_lines (by omega) (by unfold InBlock at hfirst; omega)
  refine ⟨hk, or_iff_not_imp_left.mpr fun hmove => ?_⟩
  obtain ⟨n, hend⟩ := exists_endsAt hmove fun n hreach => (hlink n hreach).1
  have hpos : 1 ≤ n := by
    by_contra hzero
    have := hend.2
    have hn0 : n = 0 := by omega
    rw [hn0, Nat.cast_zero, Int.zero_mul, wrap32_zero] at this
    omega
  have hcast : ((n - 1 : Nat) : Int) = (n : Int) - 1 := by omega
  have hlt := mul_lt_of_wrap32_nonneg (n := n)
    (fun m hm => (hlink m fun k hk => hend.1 k (by omega)).1) (n - 1) (by omega)
  have hin := (hlink (n - 1) fun k hk => hend.1 k (by omega)).2
  rw [wrap32_mul_of_lt hlt, (hs.geometry (by omega)).links_eq, hcast] at hin
  rw [hcast] at hlt
  exact ⟨n, hend, hlt, hin⟩

theorem forwardInBlock_of_fits {e : Experiment} (hs : e.SizesDerived)
    (h : e.ForwardFits) : ForwardInBlock e := by
  intro link hlink
  obtain ⟨m, hreach, rfl⟩ := (forwardForms_iff e link).mp hlink
  have hn := hreach 0 (by omega)
  rw [Nat.cast_zero, Int.zero_mul, wrap32_zero] at hn
  obtain ⟨hk, hfits⟩ := h.resolve_left (by omega)
  rw [InBlock, (hs.geometry (by omega)).links_eq]
  rcases hfits with hzero | ⟨n, hend, hlt, hin⟩
  · rw [← wrap32_mul_emod, hzero, Int.mul_zero, wrap32_zero]
    exact ⟨Int.le_refl 0, Int.mul_pos hn (by omega)⟩
  · have hmn : m < n := by
      by_contra hge
      have := hreach n (by omega)
      have := hend.2
      omega
    have hle : (m : Int) * (e.stride * e.linksPerLine % 4294967296) ≤
        ((n : Int) - 1) * (e.stride * e.linksPerLine % 4294967296) :=
      Int.mul_le_mul_of_nonneg_right (by omega) (by omega)
    rw [wrap32_mul_of_lt (by omega)]
    exact ⟨Int.mul_nonneg (by omega) (by omega), by omega⟩

theorem forwardInBlock_iff {e : Experiment} (hs : e.SizesDerived) :
    ForwardInBlock e ↔ e.ForwardFits :=
  ⟨forwardFits_of_inBlock hs, forwardInBlock_of_fits hs⟩

section Reverse
variable {e : Experiment}

def lastLine (e : Experiment) (n : Nat) : Int := wrap32 (((n : Int) - 1) * reverseStride e)

theorem reverseStride_inInt32 (e : Experiment) : InInt32 (reverseStride e) := wrap32_inInt32 _

theorem endsAt_zero_iff (bound s : Int) : EndsAt bound s 0 ↔ bound ≤ 0 := by
  simp [EndsAt]

theorem lastSeen_iff (last : Int) : LastSeen e last ↔
    ∃ n, EndsAt e.linesPerChain (reverseStride e) n ∧
      (n = 0 ∧ InInt32 last ∨ 1 ≤ n ∧ last = lastLine e n) := by
  have hlast : ∀ n, 1 ≤ n → (values (addStep (reverseStride e)) 0 n).getLast? =
      some (lastLine e n) := by
    intro n hn
    have hcast : ((n - 1 : Nat) : Int) = (n : Int) - 1 := by omega
    rw [values, List.getLast?_map, List.getLast?_range, if_neg (by omega), Option.map_some,
      addStep_multiple, hcast]
    rfl
  simp only [LastSeen, intLoop_eq_some_iff _ inInt32_zero (addStep_inInt32 (reverseStride e)),
    addStep_multiple, decide_eq_true_eq, decide_eq_false_iff_not, Int.not_lt]
  constructor
  · rintro ⟨_, ⟨n, hbefore, hend, rfl⟩, hseen⟩
    refine ⟨n, ⟨hbefore, hend⟩, ?_⟩
    rcases hseen with hseen | ⟨hnil, hrange⟩
    · have hn : 1 ≤ n := by
        by_contra hzero
        have hn0 : n = 0 := by omega
        simp [hn0, values] at hseen
      rw [hlast n hn, Option.some.injEq] at hseen
      exact .inr ⟨hn, hseen.symm⟩
    · have hlen := congrArg List.length hnil
      rw [values_length] at hlen
      exact .inl ⟨hlen, hrange⟩
  · rintro ⟨n, ⟨hbefore, hend⟩, hcase⟩
    refine ⟨_, ⟨n, hbefore, hend, rfl⟩, ?_⟩
    rcases hcase with ⟨rfl, hrange⟩ | ⟨hn, rfl⟩
    · exact .inr ⟨rfl, hrange⟩
    · exact .inl (hlast n hn)

theorem lastLine_bounds {n : Nat} (hn : 1 ≤ e.linesPerChain)
    (hend : EndsAt e.linesPerChain (reverseStride e) n) : 1 ≤ n ∧
      lastLine e n < e.linesPerChain ∧ lastLine e n < 2147483648 ∧
      (0 ≤ lastLine e n → 0 < reverseStride e) := by
  have hpos : 1 ≤ n := by
    by_contra hzero
    have hn0 : n = 0 := by omega
    rw [hn0, endsAt_zero_iff] at hend
    omega
  have hcast : ((n - 1 : Nat) : Int) = (n : Int) - 1 := by omega
  have hbefore := hend.1 (n - 1) (by omega)
  rw [hcast] at hbefore
  refine ⟨hpos, hbefore, (wrap32_inInt32 _).2, ?_⟩
  intro h0
  by_contra hdown
  have hstep : wrap32 (n * reverseStride e) = wrap32 (lastLine e n + reverseStride e) := by
    rw [lastLine, wrap32_wrap32_add]
    congr 1
    ring
  have hrange := reverseStride_inInt32 e
  have hpast := hend.2
  unfold InInt32 at hrange
  have hlt : lastLine e n < 2147483648 := (wrap32_inInt32 _).2
  rw [hstep, wrap32_of_inInt32 ⟨by omega, by omega⟩] at hpast
  have : lastLine e n < e.linesPerChain := hbefore
  omega

theorem reverseForms_iff (hn : 1 ≤ e.linesPerChain) (link : Int) : ReverseForms e link ↔
    ∃ n, EndsAt e.linesPerChain (reverseStride e) n ∧ 0 ≤ lastLine e n ∧
      ∃ j : Nat, j * reverseStride e ≤ lastLine e n ∧
        wrap32 ((lastLine e n - j * reverseStride e) * e.linksPerLine) = link := by
  have hdown : ∀ {n}, EndsAt e.linesPerChain (reverseStride e) n → 0 ≤ lastLine e n → ∀ j : Nat,
      (Reaches (fun i => decide (0 ≤ i)) (addStep (-reverseStride e)) (lastLine e n) j ↔
        j * reverseStride e ≤ lastLine e n) := fun hend h0 j => by
    have hb := lastLine_bounds hn hend
    exact reaches_down_iff (hb.2.2.2 h0) (reverseStride_inInt32 e).2 h0 hb.2.2.1 j
  have hvalue : ∀ n j : Nat, (addStep (-reverseStride e))^[j] (lastLine e n) =
      wrap32 (lastLine e n - j * reverseStride e) := fun n j => by
    have hlast : InInt32 (lastLine e n) := wrap32_inInt32 _
    rw [addStep_iterate _ _ j hlast, Int.mul_neg]
    rfl
  constructor
  · rintro ⟨last, _, hseen, ⟨j, hreach, rfl⟩, hlink⟩
    obtain ⟨n, hend, hcase⟩ := (lastSeen_iff last).mp hseen
    have hb := lastLine_bounds hn hend
    obtain rfl : last = lastLine e n := by
      rcases hcase with ⟨hzero, _⟩ | ⟨_, heq⟩
      · omega
      · exact heq
    have h0 : 0 ≤ lastLine e n := of_decide_eq_true (hreach 0 (by omega))
    rw [hvalue, lineLink_wrap32] at hlink
    exact ⟨n, hend, h0, j, (hdown hend h0 j).mp hreach, hlink⟩
  · rintro ⟨n, hend, h0, j, hj, hlink⟩
    refine ⟨lastLine e n, _, (lastSeen_iff _).mpr ⟨n, hend, .inr ⟨(lastLine_bounds hn hend).1, rfl⟩⟩,
      ⟨j, (hdown hend h0 j).mpr hj, rfl⟩, ?_⟩
    rw [hvalue, lineLink_wrap32]
    exact hlink

theorem reverseForms_of_no_line (hn : e.linesPerChain ≤ 0) {i : Int} (h0 : 0 ≤ i)
    (h1 : i < 2147483648) : ReverseForms e (wrap32 (i * e.linksPerLine)) := by
  refine ⟨i, i, (lastSeen_iff i).mpr ⟨0, (endsAt_zero_iff _ _).mpr hn, .inl ⟨rfl, by omega, h1⟩⟩,
    ⟨0, ?_, rfl⟩, lineLink_eq e i⟩
  intro m hm
  have hm0 : m = 0 := by omega
  rw [hm0]
  exact decide_eq_true h0

theorem reverseForms_nonneg {link : Int} (h : ReverseForms e link) :
    ∃ i, 0 ≤ i ∧ i < 2147483648 ∧ wrap32 (i * e.linksPerLine) = link := by
  obtain ⟨last, _, hseen, ⟨j, hreach, rfl⟩, hlink⟩ := h
  have hlast : InInt32 last := by
    obtain ⟨n, _, hcase⟩ := (lastSeen_iff last).mp hseen
    rcases hcase with ⟨_, hrange⟩ | ⟨_, rfl⟩
    · exact hrange
    · exact wrap32_inInt32 _
  have hrange := iterate_inInt32 hlast (addStep_inInt32 (-reverseStride e)) j
  refine ⟨_, of_decide_eq_true (hreach j (Nat.le_refl j)), hrange.2, ?_⟩
  rw [← lineLink_eq]
  exact hlink

theorem reverseInBlock_iff_of_no_line (hs : e.SizesDerived) (hn : e.linesPerChain ≤ 0) :
    ReverseInBlock e ↔
      e.linesPerChain < 0 ∧ e.linksPerLine < 0 ∧ e.linksPerLine % 4294967296 ≤ 1 := by
  constructor
  · intro h
    have hzero := h _ (reverseForms_of_no_line hn (i := 0) (by omega) (by omega))
    have hk : e.linksPerLine ≠ 0 := by
      intro hk
      unfold InBlock at hzero
      rw [linksPerChain_of_no_links hs hk] at hzero
      omega
    have hpos : 0 < e.linesPerChain * e.linksPerLine := by
      rw [← (hs.geometry hk).links_eq]
      unfold InBlock at hzero
      omega
    have hlow := mul_lt_of_wrap32_nonneg (n := 2147483648)
      (fun m hm => (h _ (reverseForms_of_no_line hn (i := m) (by omega) (by omega))).1)
      2147483647 (by omega)
    have hneg : ¬ 0 ≤ e.linksPerLine := fun hge => by
      have hlines : 0 ≤ -e.linesPerChain := by omega
      have := Int.mul_nonneg hlines hge
      rw [Int.neg_mul] at this
      omega
    refine ⟨?_, by omega, by omega⟩
    by_contra hge
    have hzero : e.linesPerChain = 0 := by omega
    rw [hzero, Int.zero_mul] at hpos
    omega
  · rintro ⟨hlines, hk, hlow⟩ link hlink
    obtain ⟨i, h0, h1, rfl⟩ := reverseForms_nonneg hlink
    have hpos : 1 * -e.linksPerLine ≤ -e.linesPerChain * -e.linksPerLine :=
      Int.mul_le_mul_of_nonneg_right (by omega) (by omega)
    rw [Int.neg_mul_neg] at hpos
    rw [InBlock, (hs.geometry (by omega)).links_eq, ← wrap32_mul_emod]
    rcases Int.le_iff_lt_or_eq.mp hlow with hlow | hlow
    · have hmod : e.linksPerLine % 4294967296 = 0 := by omega
      rw [hmod, Int.mul_zero, wrap32_zero]
      omega
    · rw [hlow, Int.mul_one, wrap32_of_bounds h0 h1]
      omega

theorem reverseInBlock_iff_of_lines (hs : e.SizesDerived) (hn : 1 ≤ e.linesPerChain) :
    ReverseInBlock e ↔
      ∀ n, EndsAt e.linesPerChain (reverseStride e) n → 0 ≤ lastLine e n →
        1 ≤ e.linksPerLine ∧ ∀ j : Nat, j * reverseStride e ≤ lastLine e n →
          (lastLine e n - j * reverseStride e) * e.linksPerLine % 4294967296 < 2147483648 := by
  constructor
  · intro h n hend h0
    have hlink : ∀ j : Nat, j * reverseStride e ≤ lastLine e n →
        InBlock e (wrap32 ((lastLine e n - j * reverseStride e) * e.linksPerLine)) := fun j hj =>
      h _ ((reverseForms_iff hn _).mpr ⟨n, hend, h0, j, hj, rfl⟩)
    have hfirst := hlink 0 (by simpa using h0)
    refine ⟨hs.links_pos_of_lines hn (by unfold InBlock at hfirst; omega), ?_⟩
    intro j hj
    exact (wrap32_nonneg_iff _).mp (hlink j hj).1
  · intro h link hlink
    obtain ⟨n, hend, h0, j, hj, rfl⟩ := (reverseForms_iff hn link).mp hlink
    obtain ⟨hk, hlow⟩ := h n hend h0
    have hb := lastLine_bounds hn hend
    have hdown : 0 ≤ j * reverseStride e :=
      Int.mul_nonneg (by omega) (Int.le_of_lt (hb.2.2.2 h0))
    have hi : 0 ≤ lastLine e n - j * reverseStride e := by omega
    have hlt : (lastLine e n - j * reverseStride e) * e.linksPerLine <
        e.linesPerChain * e.linksPerLine := Int.mul_lt_mul_of_pos_right (by omega) (by omega)
    have hk0 : 0 ≤ e.linksPerLine := by omega
    have hnonneg := Int.mul_nonneg hi hk0
    have hthis := hlow j hj
    rw [InBlock, (hs.geometry (by omega)).links_eq]
    refine ⟨(wrap32_nonneg_iff _).mpr hthis, ?_⟩
    rw [wrap32_eq, if_pos hthis]
    omega

section Landing
variable {bound s : Int} {k : Nat}

theorem wrap32_ge_iff {x : Int} (hb : 1 ≤ bound) (hx : 0 ≤ x) : bound ≤ wrap32 x ↔
    ∃ k : Nat, k * 4294967296 + bound ≤ x ∧ x < k * 4294967296 + 2147483648 := by
  constructor
  · intro h
    rw [wrap32_eq] at h
    refine ⟨(x / 4294967296).toNat, ?_⟩
    rw [Int.toNat_of_nonneg (by omega)]
    split at h
    · omega
    · omega
  · rintro ⟨k, hlow, hhigh⟩
    have hsplit : wrap32 x = wrap32 (x - k * 4294967296) := by
      rw [← wrap32_add_mul (x - k * 4294967296) k, Int.sub_add_cancel]
    rw [hsplit, wrap32_of_bounds (by omega) (by omega)]
    omega

theorem least_multiple (hs : 0 < s) (y : Int) :
    ∃ q : Int, q * s = y + -y % s ∧ ∀ m : Int, y ≤ m * s → q ≤ m := by
  have hhigh := Int.emod_lt_of_pos (-y) hs
  have hzero : (y + -y % s) % s = 0 := by
    rw [Int.add_emod_emod, Int.add_right_neg, Int.zero_emod]
  obtain ⟨q, hq⟩ := Int.dvd_of_emod_eq_zero hzero
  rw [Int.mul_comm] at hq
  refine ⟨q, hq.symm, ?_⟩
  intro m hm
  by_contra hlt
  have hless : (m + 1) * s ≤ q * s := Int.mul_le_mul_of_nonneg_right (by omega) (by omega)
  rw [Int.add_mul, Int.one_mul] at hless
  omega

theorem lands_iff (hs : 0 < s) : Lands bound s k ↔ ∃ m : Int,
    k * 4294967296 + bound ≤ m * s ∧ m * s < k * 4294967296 + 2147483648 := by
  obtain ⟨q, hq, hleast⟩ := least_multiple hs (k * 4294967296 + bound)
  have hlow := Int.emod_nonneg (-(k * 4294967296 + bound)) (by omega : s ≠ 0)
  unfold Lands
  constructor
  · exact fun h => ⟨q, by omega, by omega⟩
  · rintro ⟨m, hm, hhigh⟩
    have hle : q * s ≤ m * s := Int.mul_le_mul_of_nonneg_right (hleast m hm) (by omega)
    omega

/-- The loop over the lines ends where the counter lands. -/
theorem endsAt_iff_landsFirst (hs : 0 < s) (hb : 1 ≤ bound) (n : Nat) : EndsAt bound s n ↔
    ∃ k, LandsFirst bound s k ∧
      n * s = k * 4294967296 + bound + -(k * 4294967296 + bound) % s := by
  have hvalue : ∀ m : Nat, 0 ≤ (m : Int) * s := fun m => Int.mul_nonneg (by omega) (by omega)
  have hbelow : ∀ m : Nat, wrap32 (m * s) < bound ↔
      ∀ k : Nat, ¬ (k * 4294967296 + bound ≤ m * s ∧ m * s < k * 4294967296 + 2147483648) := by
    intro m
    rw [← Int.not_le, wrap32_ge_iff hb (hvalue m), not_exists]
  have hmet : ∀ {m : Int} {j : Nat}, EndsAt bound s n → j * 4294967296 + bound ≤ m * s →
      m * s < j * 4294967296 + 2147483648 → n ≤ m := by
    intro m j hend hlow hhigh
    have hpos : 0 < m := by
      by_contra hneg
      have := Int.mul_nonpos_of_nonpos_of_nonneg (by omega : m ≤ 0) (by omega : 0 ≤ s)
      omega
    have hcast : ((m.toNat : Nat) : Int) = m := Int.toNat_of_nonneg (by omega)
    by_contra hlt
    refine (hbelow m.toNat).mp (hend.1 _ (by omega)) j ?_
    rw [hcast]
    exact ⟨hlow, hhigh⟩
  constructor
  · intro hend
    obtain ⟨k, hlow, hhigh⟩ := (wrap32_ge_iff hb (hvalue n)).mp hend.2
    obtain ⟨q, hq, hleast⟩ := least_multiple hs (k * 4294967296 + bound)
    have hrem := Int.emod_nonneg (-(k * 4294967296 + bound)) (by omega : s ≠ 0)
    have hqn : q * s ≤ n * s := Int.mul_le_mul_of_nonneg_right (hleast n hlow) (by omega)
    refine ⟨k, ⟨(lands_iff hs).mpr ⟨n, hlow, hhigh⟩, ?_⟩, ?_⟩
    · intro j hj hlands
      obtain ⟨m, hm, hm'⟩ := (lands_iff hs).mp hlands
      have hnm : n * s ≤ m * s := Int.mul_le_mul_of_nonneg_right (hmet hend hm hm') (by omega)
      omega
    · have hnq := hmet hend (m := q) (j := k) (by omega) (by omega)
      have := Int.le_antisymm hnq (hleast n hlow)
      rw [this, hq]
  · rintro ⟨k, ⟨hlands, hfirst⟩, hn⟩
    obtain ⟨q, hq, hleast⟩ := least_multiple hs (k * 4294967296 + bound)
    have hrem := Int.emod_nonneg (-(k * 4294967296 + bound)) (by omega : s ≠ 0)
    unfold Lands at hlands
    constructor
    · intro m hm
      rw [hbelow]
      rintro j ⟨hlow, hhigh⟩
      have hmn : (m : Int) * s < n * s := Int.mul_lt_mul_of_pos_right (by omega) hs
      by_cases hjk : j < k
      · exact hfirst j hjk ((lands_iff hs).mpr ⟨m, hlow, hhigh⟩)
      · have hqm : q * s ≤ m * s :=
          Int.mul_le_mul_of_nonneg_right (hleast m (by omega)) (by omega)
        omega
    · exact (wrap32_ge_iff hb (hvalue n)).mpr ⟨k, by omega, by omega⟩

/-- The lines of the second loop, counted from the lowest. -/
theorem lines_low_iff {last c : Int} (hs : 0 < s) (h0 : 0 ≤ last) :
    (∀ j : Nat, j * s ≤ last → (last - j * s) * c % 4294967296 < 2147483648) ↔
      ∀ m : Nat, m ≤ (last / s).toNat →
        (last % s * c + m * (s * c)) % 4294967296 < 2147483648 := by
  have hsplit := Int.emod_add_mul_ediv last s
  have hcount : ((last / s).toNat : Int) = last / s :=
    Int.toNat_of_nonneg (Int.ediv_nonneg h0 (by omega))
  have hline : ∀ j m : Nat, (j : Int) + m = last / s →
      last - j * s = last % s + m * s := by
    intro j m hjm
    rw [← hjm, Int.mul_add, Int.mul_comm s, Int.mul_comm s] at hsplit
    omega
  have hvalue : ∀ j m : Nat, (j : Int) + m = last / s →
      (last - j * s) * c = last % s * c + m * (s * c) := by
    intro j m hjm
    rw [hline j m hjm]
    ring
  have hinside : ∀ j : Nat, (j : Int) * s ≤ last → (j : Int) ≤ last / s := fun j hj =>
    (Int.le_ediv_iff_mul_le hs).mpr hj
  constructor
  · intro h m hm
    have hj : (((last / s).toNat - m : Nat) : Int) + m = last / s := by omega
    rw [← hvalue _ m hj]
    refine h _ ?_
    exact (Int.le_ediv_iff_mul_le hs).mp (by omega)
  · intro h j hj
    have hle := hinside j hj
    rw [hvalue j ((last / s).toNat - j) (by omega)]
    exact h _ (by omega)

end Landing

theorem lastLine_of_landsFirst {n k : Nat} (hs : 0 < reverseStride e) (hn : 1 ≤ e.linesPerChain)
    (hlands : Lands e.linesPerChain (reverseStride e) k)
    (hk : n * reverseStride e = k * 4294967296 + e.linesPerChain +
      -(k * 4294967296 + e.linesPerChain) % reverseStride e) :
    (0 ≤ lastLine e n ↔ lowestLine (reverseStride e) k < e.linesPerChain) ∧
      (0 ≤ lastLine e n →
        lastLine e n % reverseStride e = lowestLine (reverseStride e) k ∧
        lastLine e n / reverseStride e = linesAbove e.linesPerChain (reverseStride e) k) := by
  have hrange := (reverseStride_inInt32 e).2
  have hlow := Int.emod_nonneg (-(k * 4294967296 + e.linesPerChain)) (by omega : reverseStride e ≠ 0)
  have hhigh := Int.emod_lt_of_pos (-(k * 4294967296 + e.linesPerChain)) hs
  unfold Lands at hlands
  generalize hrem : -(k * 4294967296 + e.linesPerChain) % reverseStride e = rem at *
  have hlast : lastLine e n = e.linesPerChain + rem - reverseStride e := by
    have hprev : ((n : Int) - 1) * reverseStride e =
        e.linesPerChain + rem - reverseStride e + k * 4294967296 := by
      rw [Int.sub_mul, Int.one_mul, hk]
      omega
    rw [lastLine, hprev, wrap32_add_mul, wrap32_of_inInt32 ⟨by omega, by omega⟩]
  have hmod : lastLine e n % reverseStride e = lowestLine (reverseStride e) k := by
    have hshift : lastLine e n = -(k * 4294967296) + (n - 1) * reverseStride e := by
      rw [Int.sub_mul, Int.one_mul, hk, hlast]
      omega
    rw [hshift, Int.add_mul_emod_self_right, lowestLine]
  have hsplit := Int.emod_add_mul_ediv (lastLine e n) (reverseStride e)
  refine ⟨⟨fun h0 => ?_, fun hline => ?_⟩, fun h0 => ⟨hmod, ?_⟩⟩
  · have hquot : 0 ≤ reverseStride e * (lastLine e n / reverseStride e) :=
      Int.mul_nonneg (by omega) (Int.ediv_nonneg h0 (by omega))
    omega
  · by_contra hneg
    have hquot : lastLine e n % reverseStride e = lastLine e n + reverseStride e := by
      rw [← Int.add_emod_right, Int.emod_eq_of_lt (by omega) (by omega)]
    omega
  · have hnumber : e.linesPerChain - 1 - lowestLine (reverseStride e) k =
        (e.linesPerChain - 1 - lastLine e n) +
          reverseStride e * (lastLine e n / reverseStride e) := by
      omega
    have hrest : (e.linesPerChain - 1 - lastLine e n) / reverseStride e = 0 :=
      Int.ediv_eq_zero_of_lt (by omega) (by omega)
    rw [linesAbove, hnumber, Int.add_mul_ediv_left _ _ (by omega), hrest, Int.zero_add]

theorem reverseFits_iff_of_lines (hn : 1 ≤ e.linesPerChain) : e.ReverseFits ↔
    ∀ n, EndsAt e.linesPerChain (reverseStride e) n → 0 ≤ lastLine e n →
      1 ≤ e.linksPerLine ∧ ∀ j : Nat, j * reverseStride e ≤ lastLine e n →
        (lastLine e n - j * reverseStride e) * e.linksPerLine % 4294967296 < 2147483648 := by
  have hpast : ¬ e.linesPerChain < 0 := by omega
  have hprogression : ∀ {n k : Nat}, 0 < reverseStride e → 0 ≤ lastLine e n →
      lastLine e n % reverseStride e = lowestLine (reverseStride e) k →
      lastLine e n / reverseStride e = linesAbove e.linesPerChain (reverseStride e) k →
      ((∀ j : Nat, j * reverseStride e ≤ lastLine e n →
        (lastLine e n - j * reverseStride e) * e.linksPerLine % 4294967296 < 2147483648) ↔
      lowestLine (reverseStride e) k * e.linksPerLine % 4294967296 < 2147483648 ∧
      0 ≤ lowestLine (reverseStride e) k * e.linksPerLine % 4294967296 +
        linesAbove e.linesPerChain (reverseStride e) k * wrap32 (reverseStride e * e.linksPerLine) ∧
      lowestLine (reverseStride e) k * e.linksPerLine % 4294967296 +
        linesAbove e.linesPerChain (reverseStride e) k * wrap32 (reverseStride e * e.linksPerLine) <
          2147483648) := by
    intro n k hs h0 hmod hdiv
    rw [lines_low_iff hs h0, progression_low_iff, hmod, Int.toNat_of_nonneg
      (Int.ediv_nonneg h0 (by omega)), hdiv]
  simp only [Experiment.ReverseFits, hpast, false_and, false_or, hn, true_and]
  constructor
  · intro h n hend h0
    have hs := (lastLine_bounds hn hend).2.2.2 h0
    obtain ⟨k, hfirst, hk⟩ := (endsAt_iff_landsFirst hs hn n).mp hend
    obtain ⟨hline, hsame⟩ := lastLine_of_landsFirst hs hn hfirst.1 hk
    obtain ⟨hmod, hdiv⟩ := hsame h0
    exact (h hs k hfirst (hline.mp h0)).imp_right (hprogression hs h0 hmod hdiv).mpr
  · intro h hs k hfirst hlowest
    obtain ⟨q, hq, _⟩ := least_multiple hs (k * 4294967296 + e.linesPerChain)
    have hrem := Int.emod_nonneg (-(k * 4294967296 + e.linesPerChain))
      (by omega : reverseStride e ≠ 0)
    have hpos : 0 < q := Int.pos_of_mul_pos_left (by omega) hs
    obtain ⟨n, rfl⟩ := Int.eq_ofNat_of_zero_le (by omega : 0 ≤ q)
    have hend := (endsAt_iff_landsFirst hs hn n).mpr ⟨k, hfirst, hq⟩
    obtain ⟨hline, hsame⟩ := lastLine_of_landsFirst hs hn hfirst.1 hq
    have h0 := hline.mpr hlowest
    obtain ⟨hmod, hdiv⟩ := hsame h0
    exact (h n hend h0).imp_right (hprogression hs h0 hmod hdiv).mp

theorem reverseInBlock_iff (hs : e.SizesDerived) : ReverseInBlock e ↔ e.ReverseFits := by
  by_cases hn : 1 ≤ e.linesPerChain
  · rw [reverseInBlock_iff_of_lines hs hn, reverseFits_iff_of_lines hn]
  · rw [reverseInBlock_iff_of_no_line hs (by omega)]
    constructor
    · exact fun h => .inl h
    · rintro (h | ⟨hpos, _⟩)
      · exact h
      · omega

end Reverse

/-- Which accepted sizes and strides keep the links of each routine inside the block. -/
theorem links_inBlock_iff {p : Platform} {args : List CStr} {e : Experiment}
    (ha : parseArgs p args = .accepted e) :
    (RandomInBlock e ↔ e.RandomFits) ∧ (ForwardInBlock e ↔ e.ForwardFits) ∧
      (ReverseInBlock e ↔ e.ReverseFits) := by
  have hs := (accepted_of_parseArgs ha).sizes
  exact ⟨randomInBlock_iff hs, forwardInBlock_iff hs, reverseInBlock_iff hs⟩

theorem default_links_inBlock :
    (∃ e, parseArgs .single [] = .accepted e ∧ RandomInBlock e ∧ ForwardInBlock e) ∧
    ∃ e, parseArgs .single ["-a".toList, "reverse".toList, "2".toList] = .accepted e ∧
      ReverseInBlock e := by
  constructor
  · obtain ⟨e, he, hp, hl, hk, hn, hstride⟩ : ∃ e, parseArgs .single [] = .accepted e ∧
        e.pagesPerChain = 4096 ∧ e.linesPerPage = 64 ∧ e.linksPerLine = 4 ∧
        e.linesPerChain = 262144 ∧ e.stride = 1 := ⟨_, rfl, rfl, rfl, rfl, rfl, rfl⟩
    obtain ⟨hrandom, hforward, _⟩ := links_inBlock_iff he
    refine ⟨e, he, hrandom.mpr (.inr (.inr ?_)), hforward.mpr (.inr ?_)⟩
    · rw [hp, hl, hk, hn]
      exact ⟨by decide, .inr (by decide)⟩
    · rw [hk, hn, hstride]
      exact ⟨by decide, .inr ⟨262144, endsAt_of_pos (by decide) (by decide) (by decide)
        (by decide), by decide, by decide⟩⟩
  · obtain ⟨e, he, hk, hn, hstride⟩ : ∃ e, parseArgs .single
        ["-a".toList, "reverse".toList, "2".toList] = .accepted e ∧ e.linksPerLine = 4 ∧
        e.linesPerChain = 262144 ∧ e.stride = -2 := ⟨_, rfl, rfl, rfl, rfl⟩
    obtain ⟨_, _, hreverse⟩ := links_inBlock_iff he
    have hs : reverseStride e = 2 := by rw [reverseStride, hstride]; rfl
    have hlands : Lands 262144 2 0 := by
      unfold Lands
      decide
    refine ⟨e, he, hreverse.mpr (.inr ⟨by omega, fun _ k hfirst _ => ?_⟩)⟩
    rw [hs, hn] at hfirst
    rw [hs, hn, hk]
    obtain rfl : k = 0 := by
      by_contra hk0
      exact hfirst.2 0 (Nat.pos_of_ne_zero hk0) hlands
    decide

/-- A line of eight bytes holds no node: the block is empty and the first link is outside. -/
theorem short_line_links_outside :
    ∃ e, parseArgs .single ["-l".toList, "8".toList] = .accepted e ∧ e.accessPattern = .random ∧
      ¬ RandomInBlock e := by
  refine ⟨_, rfl, rfl, ?_⟩
  intro h
  have hfirst := h (fun _ => 0) (fun _ => by decide) _ ⟨0, 0,
    (reaches_countUp_iff _ _).mpr (.inl (by decide)), fun _ => by decide,
    (reaches_countUp_iff _ _).mpr (.inl (by decide)), rfl⟩
  revert hfirst
  decide

end PChase
