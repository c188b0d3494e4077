import Mathlib.Tactic.IntervalCases
import PChase.MapGroups

/-!
# Printed domain maps

The text of a map in closed form, and what the three passes of `alloc_map` make of it: a
printed number is read back, a printed group is scanned back token by token, and a printed
map group by group.
-/

namespace PChase

open CInt CountLoop
set_option autoImplicit false

section Numbers

theorem isDigit_digitChar {d : Nat} (h : d < 10) : isDigit (Nat.digitChar d) = true := by
  interval_cases d <;> decide

theorem digitValue_digitChar {d : Nat} (h : d < 10) : digitValue (Nat.digitChar d) = d := by
  interval_cases d <;> decide

theorem toDigits_isDigit (n : Nat) : ∀ c ∈ Nat.toDigits 10 n, isDigit c = true := by
  induction n using Nat.strong_induction_on with
  | _ n ih =>
    rw [Nat.toDigits_eq_if (by decide)]
    split
    · intro c hc
      rw [List.mem_singleton.mp hc]
      exact isDigit_digitChar (by omega)
    · intro c hc
      rcases List.mem_append.mp hc with hc | hc
      · exact ih (n / 10) (by omega) c hc
      · rw [List.mem_singleton.mp hc]
        exact isDigit_digitChar (by omega)

theorem toDigits_ne_nil (n : Nat) : Nat.toDigits 10 n ≠ [] := by
  rw [Nat.toDigits_eq_if (by decide)]
  split
  · simp
  · simp

theorem toDigits_length_le (k n : Nat) (h : n < 10 ^ (k + 1)) :
    (Nat.toDigits 10 n).length ≤ k + 1 := by
  induction k generalizing n with
  | zero =>
    rw [Nat.toDigits_eq_if (by decide), if_pos (by omega)]
    simp
  | succ k ih =>
    rw [Nat.toDigits_eq_if (by decide)]
    split
    · simp
    · have hshort := ih (n / 10) (by
        rw [Nat.pow_succ] at h
        omega)
      rw [List.length_append, List.length_singleton]
      omega

theorem parseDigits_append_digit (r : Int) (s : CStr) (hs : ∀ c ∈ s, isDigit c = true) {c : Char}
    (hc : isDigit c = true) : parseDigits r (s ++ [c]) =
      wrap64 (parseDigits r s * 10 + digitValue c) := by
  induction s generalizing r with
  | nil => simp [parseDigits, hc]
  | cons d s ih =>
    have hd := hs d (List.mem_cons_self ..)
    simp only [List.cons_append, parseDigits, hd, if_true]
    exact ih _ fun c hc => hs c (List.mem_cons_of_mem d hc)

theorem parseNumber_toDigits (n : Nat) (h : n < 9223372036854775808) :
    parseNumber (Nat.toDigits 10 n) = n := by
  induction n using Nat.strong_induction_on with
  | _ n ih =>
    rw [Nat.toDigits_eq_if (by decide)]
    split
    · have hsmall : n < 10 := by omega
      have hd := isDigit_digitChar hsmall
      simp only [parseNumber, parseDigits, hd, if_true, Int.zero_mul, Int.zero_add,
        digitValue_digitChar hsmall]
      exact wrap64_of_inInt64 ⟨by omega, by omega⟩
    · have hprev := ih (n / 10) (by omega) (by omega)
      unfold parseNumber at hprev ⊢
      rw [parseDigits_append_digit _ _ (toDigits_isDigit _) (isDigit_digitChar (by omega)), hprev,
        digitValue_digitChar (by omega), wrap64_of_inInt64 ⟨by omega, by omega⟩]
      omega

/-- A domain as it may stand in a map. -/
def IsDomain (x : Int) : Prop := 0 ≤ x ∧ x < 2147483648

theorem printInt_of_isDomain {x : Int} (h : IsDomain x) :
    printInt x = Nat.toDigits 10 x.natAbs := by
  unfold IsDomain at h
  exact if_neg (by omega)

theorem printInt_isDigit {x : Int} (h : IsDomain x) : ∀ c ∈ printInt x, isDigit c = true := by
  rw [printInt_of_isDomain h]
  exact toDigits_isDigit _

theorem length_printInt {x : Int} (h : IsDomain x) : (printInt x).length ≤ 10 := by
  rw [printInt_of_isDomain h]
  unfold IsDomain at h
  exact toDigits_length_le 9 x.natAbs (by omega)

theorem domainNumber_printInt {x : Int} (h : IsDomain x) : domainNumber (printInt x) = x := by
  rw [printInt_of_isDomain h]
  unfold IsDomain at h
  unfold domainNumber
  rw [parseNumber_toDigits _ (by omega), wrap32_of_bounds (by omega) (by omega)]
  omega

theorem isDigit_ne {c : Char} (h : isDigit c = true) : c ≠ ':' ∧ c ≠ ';' ∧ c ≠ ',' := by
  refine ⟨?_, ?_, ?_⟩
  · intro heq
    subst c
    revert h
    decide
  · intro heq
    subst c
    revert h
    decide
  · intro heq
    subst c
    revert h
    decide

end Numbers

section Scanning

def printChains (cs : Nat → Int) : Nat → Nat → CStr
  | j, 0 => printInt (cs j)
  | j, k + 1 => printInt (cs j) ++ ',' :: printChains cs (j + 1) k

theorem printChains_eq (cs : Nat → Int) (j k : Nat) : printChains cs j k =
    printInt (cs j) ++ (List.range k).flatMap fun i => ',' :: printInt (cs (j + i + 1)) := by
  induction k generalizing j with
  | zero => simp [printChains]
  | succ k ih =>
    rw [printChains, ih, List.range_succ_eq_map, List.flatMap_cons, List.flatMap_map]
    have hshift : ∀ i, j + 1 + i + 1 = j + (i + 1) + 1 := fun i => by omega
    simp only [hshift, List.cons_append, Nat.succ_eq_add_one, Nat.add_zero]

def groupText (m : Nat) (t : Int) (cs : Nat → Int) : CStr :=
  printInt t ++ ':' :: printChains cs 0 (m - 1)

theorem printGroup_of_lt {m : Nat} (h : m < 2147483648) (t : Int) (cs : Nat → Int) :
    printGroup m t cs = some (groupText m t cs) := by
  have hlen : ((m : Int) - 1).toNat = m - 1 := by omega
  have hindex : ∀ k : Nat, ((k : Int) + 1).toNat = k + 1 := fun k => by omega
  rw [printGroup, countFromOne_of_lt (by omega), hlen]
  simp only [Option.bind_eq_bind, Option.bind_some, Option.pure_def, List.flatMap_map, hindex,
    groupText, printChains_eq, Nat.zero_add]

def printGroups (m : Nat) (ts : Nat → Int) (cs : Nat → Nat → Int) : Nat → Nat → CStr
  | i, 0 => groupText m (ts i) (cs i)
  | i, k + 1 => groupText m (ts i) (cs i) ++ ';' :: printGroups m ts cs (i + 1) k

theorem printGroups_eq (m : Nat) (ts : Nat → Int) (cs : Nat → Nat → Int) (i k : Nat) :
    printGroups m ts cs i k = groupText m (ts i) (cs i) ++
      (List.range k).flatMap fun l => ';' :: groupText m (ts (i + l + 1)) (cs (i + l + 1)) := by
  induction k generalizing i with
  | zero => simp [printGroups]
  | succ k ih =>
    rw [printGroups, ih, List.range_succ_eq_map, List.flatMap_cons, List.flatMap_map]
    have hshift : ∀ l, i + 1 + l + 1 = i + (l + 1) + 1 := fun l => by omega
    simp only [hshift, List.cons_append, Nat.succ_eq_add_one, Nat.add_zero]

/-- The map of `n` threads with `m` chains each. -/
def mapText (n m : Nat) (ts : Nat → Int) (cs : Nat → Nat → Int) : CStr :=
  printGroups m ts cs 0 (n - 1)

theorem printMap_of_lt {n m : Nat} (hn : n < 2147483648) (hm : m < 2147483648) (ts : Nat → Int)
    (cs : Nat → Nat → Int) : printMap n m ts cs = some (mapText n m ts cs) := by
  have hlen : ((n : Int) - 1).toNat = n - 1 := by omega
  have hindex : ∀ k : Nat, ((k : Int) + 1).toNat = k + 1 := fun k => by omega
  have hgroups : ∀ is : List Int, is.mapM (fun i => printGroup m (ts i.toNat) (cs i.toNat)) =
      some (is.map fun i => groupText m (ts i.toNat) (cs i.toNat)) := by
    intro is
    simp only [printGroup_of_lt hm]
    exact List.mapM_pure
  rw [printMap, printGroup_of_lt hm, countFromOne_of_lt (by omega), hlen]
  simp only [Option.bind_eq_bind, Option.bind_some, Option.pure_def, hgroups, mapText,
    printGroups_eq, List.flatMap_map, hindex, Nat.zero_add]

theorem lt_of_printMap {n m : Nat} {ts : Nat → Int} {cs : Nat → Nat → Int} {s : CStr}
    (h : printMap n m ts cs = some s) : n < 2147483648 ∧ m < 2147483648 := by
  obtain ⟨first, hfirst, hrest⟩ := Option.bind_eq_some_iff.mp h
  obtain ⟨is, hthreads, _⟩ := Option.bind_eq_some_iff.mp hrest
  obtain ⟨js, hchains, _⟩ := Option.bind_eq_some_iff.mp hfirst
  have hn := lt_of_countFromOne hthreads
  have hm := lt_of_countFromOne hchains
  omega

theorem printInt_ne_nil {x : Int} (h : IsDomain x) : printInt x ≠ [] := by
  rw [printInt_of_isDomain h]
  exact toDigits_ne_nil _

theorem lt_length_printGroups (m : Nat) {ts : Nat → Int} (hts : ∀ i, IsDomain (ts i))
    (cs : Nat → Nat → Int) (i k : Nat) : k < (printGroups m ts cs i k).length := by
  have hgroup : ∀ i, 0 < (groupText m (ts i) (cs i)).length := by
    intro i
    rw [groupText, List.length_append]
    have := List.length_pos_iff.mpr (printInt_ne_nil (hts i))
    omega
  induction k generalizing i with
  | zero => exact hgroup i
  | succ k ih =>
    have := ih (i + 1)
    rw [printGroups, List.length_append, List.length_cons]
    omega

end Scanning

section Counting

theorem not_mem_printInt {x : Int} (h : IsDomain x) :
    ':' ∉ printInt x ∧ ';' ∉ printInt x ∧ ',' ∉ printInt x := by
  refine ⟨?_, ?_, ?_⟩
  · intro hmem
    exact (isDigit_ne (printInt_isDigit h _ hmem)).1 rfl
  · intro hmem
    exact (isDigit_ne (printInt_isDigit h _ hmem)).2.1 rfl
  · intro hmem
    exact (isDigit_ne (printInt_isDigit h _ hmem)).2.2 rfl

theorem count_printChains {cs : Nat → Int} (hcs : ∀ j, IsDomain (cs j)) (j k : Nat) :
    ';' ∉ printChains cs j k ∧ (printChains cs j k).count ',' = k := by
  induction k generalizing j with
  | zero =>
    obtain ⟨_, hsemi, hcomma⟩ := not_mem_printInt (hcs j)
    exact ⟨hsemi, List.count_eq_zero.mpr hcomma⟩
  | succ k ih =>
    obtain ⟨_, hsemi, hcomma⟩ := not_mem_printInt (hcs j)
    obtain ⟨hsemi', hcount⟩ := ih (j + 1)
    rw [printChains, List.count_append, List.count_cons_self, List.count_eq_zero.mpr hcomma, hcount]
    exact ⟨by simp [hsemi, hsemi'], by omega⟩

theorem count_groupText (m : Nat) {t : Int} (ht : IsDomain t) {cs : Nat → Int}
    (hcs : ∀ j, IsDomain (cs j)) :
    ';' ∉ groupText m t cs ∧ (groupText m t cs).count ',' = m - 1 := by
  obtain ⟨_, hsemi, hcomma⟩ := not_mem_printInt ht
  obtain ⟨hsemi', hcount⟩ := count_printChains hcs 0 (m - 1)
  rw [groupText, List.count_append, List.count_cons_of_ne (by decide), hcount,
    List.count_eq_zero.mpr hcomma]
  exact ⟨by simp [hsemi, hsemi'], by omega⟩

variable {ts : Nat → Int} {cs : Nat → Nat → Int} (hts : ∀ i, IsDomain (ts i))
  (hcs : ∀ i j, IsDomain (cs i j))
include hts hcs

theorem count_printGroups (m i k : Nat) : (printGroups m ts cs i k).count ';' = k := by
  induction k generalizing i with
  | zero => exact List.count_eq_zero.mpr (count_groupText m (hts i) (hcs i)).1
  | succ k ih =>
    rw [printGroups, List.count_append, List.count_cons_self, ih,
      List.count_eq_zero.mpr (count_groupText m (hts i) (hcs i)).1]
    omega

theorem takeWhile_printGroups (m i k : Nat) :
    (printGroups m ts cs i k).takeWhile (· ≠ ';') = groupText m (ts i) (cs i) := by
  have hsemi := (count_groupText m (hts i) (hcs i)).1
  cases k with
  | zero =>
    have h := (takeWhile_semi hsemi (.inl rfl)).1
    rw [List.append_nil] at h
    exact h
  | succ k => exact (takeWhile_semi hsemi (.inr ⟨_, rfl⟩)).1

end Counting

section Groups

def printedGroup (m : Nat) (t : Int) (cs : Nat → Int) : MapGroup :=
  ⟨printInt t, (List.range m).map fun j => printInt (cs j)⟩

theorem chainTexts_printChains {cs : Nat → Int} (hcs : ∀ j, IsDomain (cs j)) (j k : Nat) :
    chainTexts (printChains cs j k) = (List.range (k + 1)).map fun i => printInt (cs (j + i)) := by
  induction k generalizing j with
  | zero => exact chainTexts_last (printInt_ne_nil (hcs j)) (not_mem_printInt (hcs j)).2.2
  | succ k ih =>
    rw [printChains, chainTexts_comma (not_mem_printInt (hcs j)).2.2, ih,
      List.range_succ_eq_map (n := k + 1), List.map_cons, List.map_map]
    have hshift : ∀ i, j + 1 + i = j + (i + 1) := fun i => by omega
    simp only [hshift, Function.comp_def, Nat.succ_eq_add_one, Nat.add_zero]

theorem scannedFrom_groupText {m : Nat} (hm : 1 ≤ m) {t : Int} (ht : IsDomain t)
    {cs : Nat → Int} (hcs : ∀ j, IsDomain (cs j)) {p : CStr} (hp : GroupEnd p) (fuel : Nat) :
    scannedFrom (fuel + 1) (groupText m t cs ++ p) =
      printedGroup m t cs :: scannedFrom fuel (p.drop 1) := by
  have hscan := scannedFrom_cons (not_mem_printInt ht).1
    (count_printChains hcs 0 (m - 1)).1 hp fuel
  rw [groupText, List.append_assoc, List.cons_append, hscan, chainTexts_printChains hcs]
  simp only [Nat.zero_add, Nat.sub_add_cancel hm]
  rfl

theorem scannedFrom_printGroups {m : Nat} (hm : 1 ≤ m) {ts : Nat → Int} {cs : Nat → Nat → Int}
    (hts : ∀ i, IsDomain (ts i)) (hcs : ∀ i j, IsDomain (cs i j)) (i k fuel : Nat)
    (hfuel : k < fuel) : scannedFrom fuel (printGroups m ts cs i k) =
      (List.range (k + 1)).map fun l => printedGroup m (ts (i + l)) (cs (i + l)) := by
  induction k generalizing i fuel with
  | zero =>
    obtain ⟨fuel, rfl⟩ := Nat.exists_eq_add_of_lt hfuel
    have hscan := scannedFrom_groupText hm (hts i) (hcs i) (.inl rfl) (0 + fuel)
    rw [List.append_nil] at hscan
    rw [printGroups, hscan]
    cases 0 + fuel with
    | zero => rfl
    | succ fuel => rfl
  | succ k ih =>
    obtain ⟨fuel, rfl⟩ := Nat.exists_eq_add_of_lt hfuel
    rw [printGroups, scannedFrom_groupText hm (hts i) (hcs i) (.inr ⟨_, rfl⟩), List.drop_one,
      List.tail_cons, ih (i + 1) (k + 1 + fuel) (by omega), List.range_succ_eq_map (n := k + 1),
      List.map_cons, List.map_map]
    have hshift : ∀ l, i + 1 + l = i + (l + 1) := fun l => by omega
    simp only [hshift, Function.comp_def, Nat.succ_eq_add_one, Nat.add_zero]

end Groups

end PChase
