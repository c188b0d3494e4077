import PChase.LaterOptions

/-!
# The numbers of the command line

The value of a number as it is written, what `parse_number` keeps of it, and when the
fields of an accepted configuration have the values written and give positive sizes.
-/

namespace PChase

open CInt
set_option autoImplicit false

def decimalValue (digits : CStr) : Nat :=
  digits.foldl (fun n c => n * 10 + (c.toNat - 48)) 0

def multiplier : CStr → Nat
  | c :: _ =>
    if c = 'k' ∨ c = 'K' then 1024
    else if c = 'm' ∨ c = 'M' then 1024 ^ 2
    else if c = 'g' ∨ c = 'G' then 1024 ^ 3
    else if c = 't' ∨ c = 'T' then 1024 ^ 4
    else 1
  | [] => 1

/-- The number that a word stands for: its leading digits and the suffix behind them. -/
def numberValue (s : CStr) : Nat :=
  decimalValue (s.takeWhile isDigit) * multiplier (s.dropWhile isDigit)

theorem digitValue_eq {c : Char} (h : isDigit c = true) : digitValue c = (c.toNat - 48 : Nat) := by
  have hc : 48 ≤ c.toNat := by
    have hle := (of_decide_eq_true h).1
    exact hle
  unfold digitValue
  omega

theorem wrap64_mul_wrap64 (x y : Int) : wrap64 (wrap64 x * y) = wrap64 (x * y) :=
  Int.bmod_mul_bmod

theorem wrap64_wrap64_mul_add (x y z : Int) : wrap64 (wrap64 x * y + z) = wrap64 (x * y + z) := by
  unfold wrap64
  rw [← Int.bmod_add_bmod, Int.bmod_mul_bmod, Int.bmod_add_bmod]

theorem parseDigits_wrap64 (s : CStr) (n : Nat) : parseDigits (wrap64 n) s =
    wrap64 (((s.takeWhile isDigit).foldl (fun n c => n * 10 + (c.toNat - 48)) n *
      multiplier (s.dropWhile isDigit) : Nat)) := by
  induction s generalizing n with
  | nil => simp [parseDigits, multiplier]
  | cons c s ih =>
    by_cases hc : isDigit c = true
    · have hstep : wrap64 (wrap64 n * 10 + digitValue c) =
          wrap64 ((n * 10 + (c.toNat - 48) : Nat) : Int) := by
        rw [wrap64_wrap64_mul_add, digitValue_eq hc]
        push_cast
        rfl
      simp only [parseDigits, hc, if_true, List.takeWhile_cons_of_pos, List.dropWhile_cons_of_pos,
        List.foldl_cons, hstep]
      exact ih _
    · simp only [parseDigits, hc, List.takeWhile_cons_of_neg, List.dropWhile_cons_of_neg,
        List.foldl_nil, multiplier, not_false_eq_true, Bool.false_eq_true, if_false]
      repeat' split
      all_goals
        push_cast
        first | rw [wrap64_mul_wrap64] | rw [mul_one]

/-- `parse_number` computes the value of the number in 64 bits. -/
theorem parseNumber_eq (s : CStr) : parseNumber s = wrap64 (numberValue s) :=
  parseDigits_wrap64 s 0

theorem wrap64_neg_wrap64 (x : Int) : wrap64 (-wrap64 x) = wrap64 (-x) := by
  have h := wrap64_mul_wrap64 x (-1)
  rwa [Int.mul_neg_one, Int.mul_neg_one] at h

theorem wrap64_natCast_eq_iff (n : Nat) : wrap64 n = n ↔ n < 9223372036854775808 := by
  constructor
  · intro h
    have hrange := wrap64_inInt64 n
    rw [h] at hrange
    exact_mod_cast hrange.2
  · intro h
    exact wrap64_of_inInt64 ⟨by omega, by omega⟩

theorem wrap64_neg_natCast_eq_iff (n : Nat) : wrap64 (-n) = -n ↔ n ≤ 9223372036854775808 := by
  constructor
  · intro h
    have hrange := wrap64_inInt64 (-n)
    rw [h] at hrange
    have hlow := hrange.1
    omega
  · intro h
    exact wrap64_of_inInt64 ⟨by omega, by omega⟩

variable {p : Platform}

def Phrase.argument (x : Phrase p) : CStr := x.words.getLastD []

def Phrase.names (x : Phrase p) (name : String) : Bool := x.words.tail.head?.any (strcasecmp · name)

def lastWriter (slot : Slot) (phrases : List (Phrase p)) : Option (Phrase p) :=
  (phrases.filter fun x => (slot.write x.setting).isSome).getLast?

/-- The value of the number that a field is left with, unless it has the default or was
cleared by another option. -/
def statedNumber (o : NumberOption) (phrases : List (Phrase p)) : Option Nat :=
  match lastWriter (.number o) phrases with
  | some x => if x.setting.kind = .number o then some (numberValue x.argument) else none
  | none => none

/-- The fields behind the option loop have the values written, all positive, and a stride
has the sign of its direction. -/
structure NumbersExact (phrases : List (Phrase p)) : Prop where
  numbers : ∀ o ≠ NumberOption.loop, ∀ v, statedNumber o phrases = some v →
    o.get (requested phrases) = v ∧ 0 < o.get (requested phrases)
  forward : ∀ x, lastWriter .stride phrases = some x → x.names "forward" →
    (requested phrases).stride = numberValue x.argument ∧ 0 < (requested phrases).stride
  reverse : ∀ x, lastWriter .stride phrases = some x → x.names "reverse" →
    (requested phrases).stride = -numberValue x.argument ∧ (requested phrases).stride < 0

/-- The quotients of the derived sizes exist, and a page has a line and a chain a page. -/
def SizesPositive (e : Experiment) : Prop :=
  ∃ e', deriveSizes e = some e' ∧ 1 ≤ e'.linesPerPage ∧ 1 ≤ e'.pagesPerChain

def lineSize (phrases : List (Phrase p)) : Nat := (statedNumber .line phrases).getD 64

def pageSize (phrases : List (Phrase p)) : Nat := (statedNumber .page phrases).getD 4096

def chainSize (phrases : List (Phrase p)) : Nat := (statedNumber .chain phrases).getD 16777216

/-- The numbers as they are written fit into 63 bits, and so do the sums that round the
sizes up. -/
structure NumbersInRange (phrases : List (Phrase p)) : Prop where
  numbers : ∀ o ≠ NumberOption.loop, ∀ v, statedNumber o phrases = some v → v < 9223372036854775808
  forward : ∀ x, lastWriter .stride phrases = some x → x.names "forward" →
    numberValue x.argument < 9223372036854775808
  reverse : ∀ x, lastWriter .stride phrases = some x → x.names "reverse" →
    numberValue x.argument ≤ 9223372036854775808
  page : pageSize phrases + lineSize phrases ≤ 9223372036854775808
  chain : chainSize phrases + lineSize phrases * ((pageSize phrases + lineSize phrases - 1) /
    lineSize phrases) ≤ 9223372036854775808

section Fields
variable {phrases : List (Phrase p)} {x : Phrase p}

theorem writer_settingsOf (slot : Slot) (phrases : List (Phrase p)) :
    settings.writer slot (settingsOf phrases) = (lastWriter slot phrases).map Phrase.setting := by
  unfold Overwriting.writer settingsOf lastWriter
  rw [List.filter_map, List.getLast?_map]
  rfl

theorem read_of_lastWriter {slot : Slot} {v : slot.Value} (hx : lastWriter slot phrases = some x)
    (hv : slot.write x.setting = some v) : slot.read (requested phrases) = v := by
  have hwritten : settings.written slot (settingsOf phrases) = some v := by
    rw [settings.written_eq_writer_bind, writer_settingsOf, hx]
    exact hv
  rw [read_requested, hwritten]
  rfl

theorem read_of_no_writer {slot : Slot} (hx : lastWriter slot phrases = none) :
    slot.read (requested phrases) = slot.read {} := by
  have hwritten : settings.written slot (settingsOf phrases) = none := by
    rw [settings.written_eq_writer_bind, writer_settingsOf, hx]
    rfl
  rw [read_requested, hwritten]
  rfl

theorem write_of_lastWriter {slot : Slot} (hx : lastWriter slot phrases = some x) :
    (slot.write x.setting).isSome :=
  (List.mem_filter.mp (List.mem_of_getLast? hx)).2

theorem Phrase.number_eq {o : NumberOption} {n : Int} (h : x.setting = .number o n) :
    n = parseNumber x.argument ∧ (o ≠ .loop → n ≠ 0) := by
  obtain ⟨words, setting, hreads⟩ := x
  subst h
  cases hreads with
  | number _ hne => exact ⟨rfl, hne⟩

theorem Phrase.strided_eq {n : Int} (h : x.setting = .strided n) : n ≠ 0 ∧
    (x.names "forward" ∧ ¬ x.names "reverse" ∧ n = parseNumber x.argument ∨
      x.names "reverse" ∧ ¬ x.names "forward" ∧ n = wrap64 (-parseNumber x.argument)) := by
  obtain ⟨words, setting, hreads⟩ := x
  subst h
  cases hreads with
  | forward _ hw hne =>
    refine ⟨hne, .inl ⟨hw, ?_, rfl⟩⟩
    intro hreverse
    have hno := strcasecmp_eq_of hw "reverse"
    exact absurd (hno.symm.trans hreverse) (by decide)
  | reverse _ hw hne =>
    refine ⟨hne, .inr ⟨hw, ?_, rfl⟩⟩
    intro hforward
    have hno := strcasecmp_eq_of hw "forward"
    exact absurd (hno.symm.trans hforward) (by decide)

theorem get_of_statedNumber {o : NumberOption} {v : Nat} (h : statedNumber o phrases = some v) :
    o.get (requested phrases) = wrap64 v ∧ (o ≠ .loop → wrap64 v ≠ 0) := by
  unfold statedNumber at h
  split at h
  · rename_i x hx
    split at h
    · rename_i hkind
      rw [Option.some.injEq] at h
      subst h
      cases hs : x.setting with
      | number o' n =>
        obtain rfl : o' = o := by simpa [hs, Setting.kind] using hkind
        obtain ⟨hn, hne⟩ := Phrase.number_eq hs
        have hwrite : (Slot.number o').write x.setting = some n := by
          rw [hs]
          cases o'
          all_goals rfl
        rw [← parseNumber_eq, ← hn]
        exact ⟨read_of_lastWriter hx hwrite, hne⟩
      | _ => simp [hs, Setting.kind] at hkind
    · simp at h
  · simp at h

theorem get_of_not_stated {o : NumberOption} (ho : o ≠ .iterations)
    (h : statedNumber o phrases = none) : o.get (requested phrases) = o.get {} := by
  unfold statedNumber at h
  split at h
  · rename_i x hx
    have hkind := Slot.kind_mem_kinds (write_of_lastWriter hx)
    have hkinds : (Slot.number o).kinds = [.number o] := by
      cases o
      case iterations => exact absurd rfl ho
      all_goals rfl
    rw [hkinds, List.mem_singleton] at hkind
    simp [hkind] at h
  · rename_i hx
    have hdefault : (Slot.number o).read (requested phrases) = (Slot.number o).read {} :=
      read_of_no_writer hx
    exact hdefault

theorem stride_of_lastWriter (h : lastWriter .stride phrases = some x) :
    x.setting = .strided (requested phrases).stride := by
  have hwrite := write_of_lastWriter h
  cases hs : x.setting with
  | strided n =>
    have hread := read_of_lastWriter h (v := n) (by rw [hs]; rfl)
    rw [← hread]
    rfl
  | _ => simp [hs, Slot.write] at hwrite

end Fields

section Sizes

theorem one_le_div_iff {x n : Int} (hx : 1 ≤ x) (hx' : x < 9223372036854775808) (hn : 1 ≤ n)
    (hn' : n < 9223372036854775808) : 1 ≤ (wrap64 (x + n - 1)).tdiv n ↔
      x + n ≤ 9223372036854775808 := by
  constructor
  · intro h
    by_contra hover
    have hneg : wrap64 (x + n - 1) < 0 := by
      rw [wrap64_eq]
      split <;> omega
    have hbetween := (mul_tdiv_between (wrap64 (x + n - 1)) n).2 (by omega)
    have hpos : 0 < n * (wrap64 (x + n - 1)).tdiv n := Int.mul_pos (by omega) (by omega)
    omega
  · intro h
    rw [wrap64_of_inInt64 ⟨by omega, by omega⟩, Int.tdiv_eq_ediv_of_nonneg (by omega),
      Int.le_ediv_iff_mul_le (by omega)]
    omega

theorem div64_sixteen (x : Int) : div64 x 16 = some (x.tdiv 16) :=
  if_neg (by omega)

theorem sizesPositive_iff {e : Experiment} (hp : e.pointerSize = 16) : SizesPositive e ↔
    ∃ L, div64 (wrap64 (e.bytesPerPage + e.bytesPerLine - 1)) e.bytesPerLine = some L ∧ 1 ≤ L ∧
      ∃ K, div64 (wrap64 (e.bytesPerChain + wrap64 (e.bytesPerLine * L) - 1))
        (wrap64 (e.bytesPerLine * L)) = some K ∧ 1 ≤ K := by
  unfold SizesPositive
  simp only [deriveSizes, Option.bind_eq_bind, Option.bind_eq_some_iff, Option.pure_def,
    Option.some.injEq, hp]
  constructor
  · intro h
    obtain ⟨e', ⟨L, hL, K, hK, _, _, rfl⟩, hL', hK'⟩ := h
    exact ⟨L, hL, hL', K, hK, hK'⟩
  · intro h
    obtain ⟨L, hL, hL', K, hK, hK'⟩ := h
    exact ⟨_, ⟨L, hL, K, hK, _, div64_sixteen _, rfl⟩, hL', hK'⟩

theorem div64_of_pos {x n : Int} (hn : 1 ≤ n) : div64 x n = some (x.tdiv n) :=
  if_neg (by omega)

/-- Positive sizes round up to positive counts as long as the two sums do not overflow. -/
theorem sizesPositive_iff_of_pos {e : Experiment} {line page chain : Nat}
    (hp : e.pointerSize = 16) (hline : e.bytesPerLine = line) (hpage : e.bytesPerPage = page)
    (hchain : e.bytesPerChain = chain) (hl : 1 ≤ line) (hl' : line < 9223372036854775808)
    (hpg : 1 ≤ page) (hpg' : page < 9223372036854775808) (hc : 1 ≤ chain)
    (hc' : chain < 9223372036854775808) : SizesPositive e ↔
      page + line ≤ 9223372036854775808 ∧
        chain + line * ((page + line - 1) / line) ≤ 9223372036854775808 := by
  rw [sizesPositive_iff hp, hline, hpage, hchain, div64_of_pos (by omega)]
  simp only [Option.some.injEq, exists_eq_left']
  rw [one_le_div_iff (by omega) (by omega) (by omega) (by omega)]
  have hcast : (page : Int) + line ≤ 9223372036854775808 ↔ page + line ≤ 9223372036854775808 := by
    omega
  rw [hcast]
  refine and_congr_right ?_
  intro hsum
  have hquot : (wrap64 ((page : Int) + line - 1)).tdiv line = ((page + line - 1) / line : Nat) := by
    have hsub : (page : Int) + line - 1 = (page + line - 1 : Nat) := by omega
    rw [wrap64_of_inInt64 ⟨by omega, by omega⟩, hsub, Int.tdiv_eq_ediv_of_nonneg (by omega)]
    rfl
  have hfit : line * ((page + line - 1) / line) ≤ page + line - 1 := Nat.mul_div_le _ _
  have hpos : 1 ≤ line * ((page + line - 1) / line) :=
    Nat.mul_pos hl (Nat.div_pos (by omega) (by omega))
  rw [hquot, ← Nat.cast_mul]
  generalize line * ((page + line - 1) / line) = rounded at hfit hpos ⊢
  clear hquot
  have hround : wrap64 (rounded : Int) = rounded := wrap64_of_inInt64 ⟨by omega, by omega⟩
  rw [hround, div64_of_pos (by omega)]
  simp only [Option.some.injEq, exists_eq_left']
  rw [one_le_div_iff (by omega) (by omega) (by omega) (by omega)]
  omega

end Sizes

theorem requested_pointerSize (phrases : List (Phrase p)) :
    (requested phrases).pointerSize = 16 := by
  have hread := read_requested .derived phrases
  have hnone : settings.written .derived (settingsOf phrases) = none := by
    rw [settings.written_eq_writer_bind, writer_settingsOf]
    cases hx : lastWriter .derived phrases with
    | none => rfl
    | some x =>
      have hkind := Slot.kind_mem_kinds (write_of_lastWriter hx)
      simp [Slot.kinds] at hkind
  rw [hnone] at hread
  exact congrArg Experiment.pointerSize hread

theorem sizes_of_numbers {phrases : List (Phrase p)} (o : NumberOption) (default : Nat)
    (ho : o ≠ .iterations) (hloop : o ≠ .loop) (hdefault : o.get {} = default)
    (hpos : 1 ≤ default) (hlt : default < 9223372036854775808)
    (h : ∀ v, statedNumber o phrases = some v → v < 9223372036854775808) :
    o.get (requested phrases) = ((statedNumber o phrases).getD default : Nat) ∧
      1 ≤ (statedNumber o phrases).getD default ∧
      (statedNumber o phrases).getD default < 9223372036854775808 := by
  cases hs : statedNumber o phrases with
  | none =>
    rw [Option.getD_none, get_of_not_stated ho hs]
    exact ⟨hdefault, hpos, hlt⟩
  | some v =>
    obtain ⟨hget, hne⟩ := get_of_statedNumber hs
    have hv := h v hs
    have hwrap := (wrap64_natCast_eq_iff v).mpr hv
    have hne' := hne hloop
    rw [hwrap] at hget hne'
    rw [Option.getD_some]
    exact ⟨hget, by omega, hv⟩

theorem numbersExact_iff (phrases : List (Phrase p)) : NumbersExact phrases ↔
    (∀ o ≠ NumberOption.loop, ∀ v, statedNumber o phrases = some v → v < 9223372036854775808) ∧
      (∀ x, lastWriter .stride phrases = some x → x.names "forward" →
        numberValue x.argument < 9223372036854775808) ∧
      ∀ x, lastWriter .stride phrases = some x → x.names "reverse" →
        numberValue x.argument ≤ 9223372036854775808 := by
  constructor
  · intro h
    refine ⟨?_, ?_, ?_⟩
    · intro o ho v hv
      have hexact := (h.numbers o ho v hv).1
      rw [(get_of_statedNumber hv).1] at hexact
      exact (wrap64_natCast_eq_iff v).mp hexact
    · intro x hx hname
      have hexact := (h.forward x hx hname).1
      obtain ⟨_, ⟨_, _, hstride⟩ | ⟨_, hno, _⟩⟩ := Phrase.strided_eq (stride_of_lastWriter hx)
      · rw [hstride, parseNumber_eq] at hexact
        exact (wrap64_natCast_eq_iff _).mp hexact
      · exact absurd hname hno
    · intro x hx hname
      have hexact := (h.reverse x hx hname).1
      obtain ⟨_, ⟨_, hno, _⟩ | ⟨_, _, hstride⟩⟩ := Phrase.strided_eq (stride_of_lastWriter hx)
      · exact absurd hname hno
      · rw [hstride, parseNumber_eq, wrap64_neg_wrap64] at hexact
        exact (wrap64_neg_natCast_eq_iff _).mp hexact
  · intro h
    obtain ⟨hnumbers, hforward, hreverse⟩ := h
    refine ⟨?_, ?_, ?_⟩
    · intro o ho v hv
      obtain ⟨hget, hne⟩ := get_of_statedNumber hv
      have hne' := hne ho
      rw [(wrap64_natCast_eq_iff v).mpr (hnumbers o ho v hv)] at hget hne'
      exact ⟨hget, by omega⟩
    · intro x hx hname
      obtain ⟨hne, ⟨_, _, hstride⟩ | ⟨_, hno, _⟩⟩ := Phrase.strided_eq (stride_of_lastWriter hx)
      · rw [parseNumber_eq, (wrap64_natCast_eq_iff _).mpr (hforward x hx hname)] at hstride
        exact ⟨hstride, by omega⟩
      · exact absurd hname hno
    · intro x hx hname
      obtain ⟨hne, ⟨_, hno, _⟩ | ⟨_, _, hstride⟩⟩ := Phrase.strided_eq (stride_of_lastWriter hx)
      · exact absurd hname hno
      · rw [parseNumber_eq, wrap64_neg_wrap64,
          (wrap64_neg_natCast_eq_iff _).mpr (hreverse x hx hname)] at hstride
        exact ⟨hstride, by omega⟩

theorem allocate_sizes {e e' : Experiment} (h : allocate p e = .accepted e') :
    ∃ e₁, deriveSizes e = some e₁ ∧ e'.linesPerPage = e₁.linesPerPage ∧
      e'.pagesPerChain = e₁.pagesPerChain ∧ (e.numaPlacement ≠ .numaMap →
        e'.numThreads = e.numThreads ∧ e'.chainsPerThread = e.chainsPerThread) := by
  obtain ⟨e₁, hd, ⟨hmap, ha⟩ | ⟨_, hc⟩⟩ := (allocate_eq_accepted_iff p e e').mp h
  · obtain ⟨_, _, m, _, rfl⟩ := (allocMap_eq_ok_iff _ _ _).mp ha
    have hkept : Slot.Kept .numaPlacement := trivial
    have hplacement : e.numaPlacement = .numaMap := (deriveSizes_read hkept hd).symm.trans hmap
    exact ⟨e₁, hd, rfl, rfl, fun hne => absurd hplacement hne⟩
  · obtain ⟨_, hthreads, hchains⟩ := deriveSizes_keeps hd
    refine ⟨e₁, hd, ?_⟩
    obtain ⟨_, seeds, _, _, hplaced⟩ := (allocComputed_eq_some_iff _ _).mp hc
    have hdomains : ∃ chainOf, allocDomains ((e₁.setNuma p).setRandomState seeds) chainOf =
        some e' := by
      unfold allocPlaced at hplaced
      split at hplaced
      · exact ⟨_, hplaced⟩
      · exact ⟨_, hplaced⟩
      · exact ⟨_, hplaced⟩
    obtain ⟨chainOf, hrun⟩ := hdomains
    obtain ⟨threads, _, hrest⟩ := Option.bind_eq_some_iff.mp hrun
    obtain ⟨chains, _, he⟩ := Option.bind_eq_some_iff.mp hrest
    simp only [Option.pure_def, Option.some.injEq] at he
    subst he
    exact ⟨rfl, rfl, fun _ => ⟨hthreads, hchains⟩⟩

theorem sizesPositive_accepted_iff {e e' : Experiment} (h : allocate p e = .accepted e') :
    SizesPositive e ↔ 1 ≤ e'.linesPerPage ∧ 1 ≤ e'.pagesPerChain := by
  obtain ⟨e₁, hd, hlines, hpages, _⟩ := allocate_sizes h
  unfold SizesPositive
  rw [hd, hlines, hpages]
  simp

/-- The numbers of a command line are exact and its sizes positive exactly when the numbers
as written, and the sums that round the sizes up, stay below the bound of a `long long`. -/
theorem numbers_exact_iff (p : Platform) :
    (∀ args e, parseArgs p args = .accepted e →
      ∃ phrases : List (Phrase p), args = commandWords phrases) ∧
    ∀ phrases : List (Phrase p),
      (NumbersExact phrases ∧ SizesPositive (requested phrases) ↔ NumbersInRange phrases) ∧
      ∀ e, parseArgs p (commandWords phrases) = .accepted e →
        (∀ slot : Slot, slot.Kept → slot.read e = slot.read (requested phrases)) ∧
        (e.numaPlacement ≠ .numaMap → e.numThreads = (requested phrases).numThreads ∧
          e.chainsPerThread = (requested phrases).chainsPerThread) ∧
        (SizesPositive (requested phrases) ↔ 1 ≤ e.linesPerPage ∧ 1 ≤ e.pagesPerChain) := by
  refine ⟨fun args e h => exists_phrases h, ?_⟩
  intro phrases
  constructor
  · have hsizes : (∀ o ≠ NumberOption.loop, ∀ v, statedNumber o phrases = some v →
        v < 9223372036854775808) → (SizesPositive (requested phrases) ↔
          pageSize phrases + lineSize phrases ≤ 9223372036854775808 ∧
          chainSize phrases + lineSize phrases * ((pageSize phrases + lineSize phrases - 1) /
            lineSize phrases) ≤ 9223372036854775808) := by
      intro hnumbers
      obtain ⟨hline, hl, hl'⟩ := sizes_of_numbers .line 64 (by decide) (by decide)
        (by decide) (by omega) (by omega) (hnumbers .line (by decide))
      obtain ⟨hpage, hpg, hpg'⟩ := sizes_of_numbers .page 4096 (by decide) (by decide)
        (by decide) (by omega) (by omega) (hnumbers .page (by decide))
      obtain ⟨hchain, hc, hc'⟩ := sizes_of_numbers .chain 16777216 (by decide) (by decide)
        (by decide) (by omega) (by omega) (hnumbers .chain (by decide))
      exact sizesPositive_iff_of_pos (requested_pointerSize phrases) hline hpage hchain hl hl'
        hpg hpg' hc hc'
    rw [numbersExact_iff]
    constructor
    · intro h
      obtain ⟨⟨hnumbers, hforward, hreverse⟩, hpositive⟩ := h
      obtain ⟨hpage, hchain⟩ := (hsizes hnumbers).mp hpositive
      exact ⟨hnumbers, hforward, hreverse, hpage, hchain⟩
    · intro h
      exact ⟨⟨h.numbers, h.forward, h.reverse⟩, (hsizes h.numbers).mpr ⟨h.page, h.chain⟩⟩
  · intro e h
    rw [parseArgs_commandWords] at h
    have hkept : Slot.Kept .numaPlacement := trivial
    have hplacement : e.numaPlacement = (requested phrases).numaPlacement :=
      allocate_read hkept h
    refine ⟨fun slot hkept => allocate_read hkept h, ?_, sizesPositive_accepted_iff h⟩
    obtain ⟨_, _, _, _, hcounts⟩ := allocate_sizes h
    rw [hplacement]
    exact hcounts

def kiloLine : Phrase Platform.single :=
  ⟨["-l".toList, "1k".toList], .number .line (parseNumber "1k".toList),
    .number (by decide) (by decide)⟩

theorem numbers_exact_of_kilo_line :
    NumbersExact [kiloLine] ∧ SizesPositive (requested [kiloLine]) := by
  apply ((numbers_exact_iff .single).2 [kiloLine]).1.mpr
  refine ⟨?_, ?_, ?_, by decide, by decide⟩
  · intro o _ v hv
    cases o
    case line =>
      have hv' : some (numberValue "1k".toList) = some v := hv
      rw [← Option.some.inj hv']
      decide
    all_goals cases hv
  · intro x hx
    cases hx
  · intro x hx
    cases hx

def wrappedLine : Phrase Platform.single :=
  ⟨["-l".toList, "18446744073709551680".toList],
    .number .line (parseNumber "18446744073709551680".toList),
    .number (by decide) (by decide +kernel)⟩

/-- A line of 2^64 + 64 bytes is accepted as one of 64. -/
theorem wrapped_line_accepted :
    (∃ e, parseArgs .single (commandWords [wrappedLine]) = .accepted e) ∧
      ¬ NumbersExact [wrappedLine] := by
  have hdefault : requested [wrappedLine] = {} := by decide +kernel
  constructor
  · rw [parseArgs_commandWords, hdefault]
    exact ⟨_, rfl⟩
  · intro hexact
    have hnumber := (hexact.numbers .line (by decide) 18446744073709551680 (by decide +kernel)).1
    rw [hdefault] at hnumber
    exact absurd hnumber (by decide)

end PChase
