import Mathlib.Logic.Function.Basic
import Mathlib.Data.Nat.Find
import Mathlib.Data.Finset.Image
import Mathlib.Data.Finset.Card
import Mathlib.Data.List.Nodup

/-!
# Rings of next pointers

A memory of next pointers is filled by writing, in order, from each member of a
sequence to the one after it and from the last to the first. A member that occurs
twice is written twice and keeps the later pointer. Nothing here depends on what
the members are.
-/

namespace PChase.NextWalk

set_option autoImplicit false

universe u
variable {α : Type u}

/-- Next pointers; `none` is a pointer nobody wrote. -/
abbrev Next (α : Type u) := α → Option α

def walk (next : Next α) (start : α) : Nat → Option α
  | 0 => some start
  | n + 1 => (walk next start n).bind next

@[simp] theorem walk_zero (next : Next α) (start : α) : walk next start 0 = some start := rfl

theorem walk_succ (next : Next α) (start : α) (n : Nat) :
    walk next start (n + 1) = (walk next start n).bind next := rfl

theorem walk_add (next : Next α) (start : α) (m n : Nat) :
    walk next start (m + n) = (walk next start m).bind fun a => walk next a n := by
  induction n with
  | zero => simp
  | succ n ih =>
    rw [← Nat.add_assoc, walk_succ, ih]
    cases walk next start m <;> rfl

theorem walk_of_next {next : Next α} {a b : α} (h : next a = some b) (n : Nat) :
    walk next a (n + 1) = walk next b n := by
  rw [Nat.add_comm, walk_add]
  simp [walk, h]

/-- A set of members that no pointer leaves. -/
theorem walk_closed {next : Next α} {P : α → Prop} (hnext : ∀ a, P a → ∃ b, next a = some b ∧ P b)
    {start : α} (hstart : P start) (n : Nat) : ∃ b, walk next start n = some b ∧ P b := by
  induction n with
  | zero => exact ⟨start, rfl, hstart⟩
  | succ n ih =>
    obtain ⟨a, ha, hp⟩ := ih
    obtain ⟨b, hb, hq⟩ := hnext a hp
    exact ⟨b, by simp [walk_succ, ha, hb], hq⟩

section Writes
variable [DecidableEq α]

def write (next : Next α) (a b : α) : Next α := Function.update next a (some b)

@[simp] theorem write_self (next : Next α) (a b : α) : write next a b a = some b :=
  Function.update_self _ _ _

theorem write_of_ne {next : Next α} {a b c : α} (h : c ≠ a) : write next a b c = next c :=
  Function.update_of_ne h _ _

def writes (next : Next α) (node succ : Nat → α) : Nat → Next α
  | 0 => next
  | n + 1 => write (writes next node succ n) (node n) (succ n)

/-- The pointer of the last occurrence stands. -/
theorem writes_last (next : Next α) (node succ : Nat → α) {n k : Nat} (hk : k < n)
    (hlast : ∀ j, k < j → j < n → node j ≠ node k) :
    writes next node succ n (node k) = some (succ k) := by
  induction n with
  | zero => omega
  | succ n ih =>
    by_cases heq : k = n
    · subst k
      simp [writes]
    · have hne : node k ≠ node n := (hlast n (by omega) (by omega)).symm
      rw [writes, write_of_ne hne]
      exact ih (by omega) fun j hj hjn => hlast j hj (by omega)

theorem writes_of_not_mem (next : Next α) (node succ : Nat → α) {n : Nat} {a : α}
    (h : ∀ k < n, node k ≠ a) : writes next node succ n a = next a := by
  induction n with
  | zero => rfl
  | succ n ih =>
    rw [writes, write_of_ne (h n (by omega)).symm]
    exact ih fun k hk => h k (by omega)

theorem writes_congr (next : Next α) {node succ node' succ' : Nat → α} {n : Nat}
    (hnode : ∀ k < n, node k = node' k) (hsucc : ∀ k < n, succ k = succ' k) :
    writes next node succ n = writes next node' succ' n := by
  induction n with
  | zero => rfl
  | succ n ih =>
    rw [writes, writes, hnode n (by omega), hsucc n (by omega),
      ih (fun k hk => hnode k (by omega)) (fun k hk => hsucc k (by omega))]

def ring (next : Next α) (node : Nat → α) (n : Nat) : Next α :=
  writes next node (fun k => node ((k + 1) % n)) n

theorem exists_last_occurrence (node : Nat → α) {n k : Nat} (hk : k < n) :
    ∃ l, k ≤ l ∧ l < n ∧ node l = node k ∧ ∀ j, l < j → j < n → node j ≠ node l := by
  let P : Nat → Prop := fun l => l < n ∧ node l = node k
  have hPk : P k := ⟨hk, rfl⟩
  have hspec : P (Nat.findGreatest P n) := Nat.findGreatest_spec (m := k) (by omega) hPk
  have hge : k ≤ Nat.findGreatest P n := Nat.le_findGreatest (by omega) hPk
  refine ⟨Nat.findGreatest P n, hge, hspec.1, hspec.2, ?_⟩
  intro j hj hjn heq
  exact Nat.findGreatest_is_greatest hj (by omega) ⟨hjn, heq.trans hspec.2⟩

theorem ring_next (next : Next α) (node : Nat → α) {n k : Nat} (hk : k < n) :
    ∃ l, k ≤ l ∧ l < n ∧ ring next node n (node k) = some (node ((l + 1) % n)) := by
  obtain ⟨l, hkl, hln, heq, hlast⟩ := exists_last_occurrence node hk
  refine ⟨l, hkl, hln, ?_⟩
  rw [← heq]
  exact writes_last next node _ hln hlast

theorem ring_closed (next : Next α) (node : Nat → α) {n : Nat} (hn : 0 < n) (a : α)
    (ha : ∃ k < n, node k = a) :
    ∃ b, ring next node n a = some b ∧ ∃ k < n, node k = b := by
  obtain ⟨k, hk, rfl⟩ := ha
  obtain ⟨l, _, _, hnext⟩ := ring_next next node hk
  exact ⟨_, hnext, (l + 1) % n, Nat.mod_lt _ hn, rfl⟩

theorem ring_walk_mem (next : Next α) (node : Nat → α) {n : Nat} (hn : 0 < n) (m : Nat) :
    ∃ b, walk (ring next node n) (node 0) m = some b ∧ ∃ k < n, node k = b :=
  walk_closed (ring_closed next node hn) ⟨0, hn, rfl⟩ m

/-- From the member at `k` the walk is at the first member again within `n - k` steps:
each step moves past the last occurrence of the member it leaves. -/
theorem ring_returns_from (next : Next α) (node : Nat → α) {n k : Nat} (hk : k < n) :
    ∃ m, 1 ≤ m ∧ m ≤ n - k ∧ walk (ring next node n) (node k) m = some (node 0) := by
  obtain ⟨l, hkl, hln, hnext⟩ := ring_next next node hk
  by_cases hend : l + 1 = n
  · refine ⟨1, by omega, by omega, ?_⟩
    rw [walk_of_next hnext, hend, Nat.mod_self]
    rfl
  · rw [Nat.mod_eq_of_lt (by omega)] at hnext
    obtain ⟨m, _, hm, hwalk⟩ := ring_returns_from next node (n := n) (k := l + 1) (by omega)
    refine ⟨m + 1, by omega, by omega, ?_⟩
    rw [walk_of_next hnext]
    exact hwalk
termination_by n - k

/-- With a repetition from `k` on the walk is back at least one step sooner. -/
theorem ring_returns_sooner (next : Next α) (node : Nat → α) {n i j k : Nat} (hki : k ≤ i)
    (hij : i < j) (hj : j < n) (heq : node i = node j) :
    ∃ m, 1 ≤ m ∧ m < n - k ∧ walk (ring next node n) (node k) m = some (node 0) := by
  obtain ⟨l, hkl, hln, hnode, hlast⟩ := exists_last_occurrence node (n := n) (k := k) (by omega)
  have hnext : ring next node n (node k) = some (node ((l + 1) % n)) :=
    hnode ▸ writes_last next node _ hln hlast
  by_cases hend : l + 1 = n
  · have hsooner : k ≠ l := by omega
    refine ⟨1, by omega, by omega, ?_⟩
    rw [walk_of_next hnext, hend, Nat.mod_self]
    rfl
  · rw [Nat.mod_eq_of_lt (by omega)] at hnext
    by_cases hstay : l = k
    · subst hstay
      have hi : i ≠ l := fun h => hlast j (by omega) hj (by rw [← heq, h])
      obtain ⟨m, _, hm, hwalk⟩ :=
        ring_returns_sooner next node (n := n) (k := l + 1) (by omega) hij hj heq
      exact ⟨m + 1, by omega, by omega, (walk_of_next hnext m).trans hwalk⟩
    · obtain ⟨m, _, hm, hwalk⟩ := ring_returns_from next node (n := n) (k := l + 1) (by omega)
      exact ⟨m + 1, by omega, by omega, (walk_of_next hnext m).trans hwalk⟩
termination_by n - k

theorem ring_walk_of_injOn (next : Next α) (node : Nat → α) {n : Nat} (hn : 0 < n)
    (hinj : ∀ i < n, ∀ j < n, node i = node j → i = j) (m : Nat) :
    walk (ring next node n) (node 0) m = some (node (m % n)) := by
  induction m with
  | zero => simp
  | succ m ih =>
    have hmod := Nat.mod_lt m hn
    have hnext : ring next node n (node (m % n)) = some (node ((m % n + 1) % n)) := by
      refine writes_last next node _ hmod ?_
      intro j hj hjn heq
      have := hinj j hjn (m % n) hmod heq
      omega
    rw [walk_succ, ih, Option.bind_some, hnext, Nat.mod_add_mod]

theorem injOn_of_walk_covers (next : Next α) (node : Nat → α) {n : Nat} (hn : 0 < n)
    (targets : Finset α) (hcard : n ≤ targets.card)
    (hcover : ∀ a ∈ targets, ∃ m, walk (ring next node n) (node 0) m = some a) :
    ∀ i < n, ∀ j < n, node i = node j → i = j := by
  have hsub : targets ⊆ (Finset.range n).image node := by
    intro a ha
    obtain ⟨m, hm⟩ := hcover a ha
    obtain ⟨b, hb, k, hk, rfl⟩ := ring_walk_mem next node hn m
    rw [hm, Option.some.injEq] at hb
    exact Finset.mem_image.mpr ⟨k, Finset.mem_range.mpr hk, hb.symm⟩
  have hle := Finset.card_le_card hsub
  have himage : ((Finset.range n).image node).card = (Finset.range n).card := by
    have := Finset.card_image_le (s := Finset.range n) (f := node)
    rw [Finset.card_range] at *
    omega
  have hinj := Finset.card_image_iff.mp himage
  intro i hi j hj heq
  exact hinj (Finset.mem_coe.mpr (Finset.mem_range.mpr hi))
    (Finset.mem_coe.mpr (Finset.mem_range.mpr hj)) heq

end Writes

/-- From the start the pointers lead through the listed members, in this order and round
again, and nothing else has a pointer. -/
structure Lap (next : Next α) (start : α) (members : List α) : Prop where
  nodup : members.Nodup
  walk_eq : ∀ m, walk next start m = members[m % members.length]?
  rest : ∀ a, a ∉ members → next a = none

section Lap
variable {next next' : Next α} {start start' a b : α} {members : List α}

theorem Lap.length_pos (h : Lap next start members) : 0 < members.length := by
  have hstart := h.walk_eq 0
  rw [walk_zero] at hstart
  have hlt := (List.getElem?_eq_some_iff.mp hstart.symm).1
  omega

theorem Lap.next_eq (h : Lap next start members) {k : Nat} (hk : members[k]? = some a) :
    next a = members[(k + 1) % members.length]? := by
  have hlt := (List.getElem?_eq_some_iff.mp hk).1
  have hwalk := h.walk_eq k
  rw [Nat.mod_eq_of_lt hlt, hk] at hwalk
  rw [← h.walk_eq (k + 1), walk_succ, hwalk, Option.bind_some]

theorem Lap.exists_of_next (h : Lap next start members) (hnext : next a = some b) :
    ∃ k, members[k]? = some a ∧ members[(k + 1) % members.length]? = some b := by
  have hmem : a ∈ members := by
    by_contra hnot
    rw [h.rest a hnot] at hnext
    simp at hnext
  obtain ⟨k, hk⟩ := List.getElem?_of_mem hmem
  refine ⟨k, hk, ?_⟩
  rw [← h.next_eq hk]
  exact hnext

theorem Lap.walk_start_iff (h : Lap next start members) (m : Nat) :
    walk next start m = some start ↔ members.length ∣ m := by
  have hpos := h.length_pos
  have hstart : some start = members[0 % members.length]? := h.walk_eq 0
  rw [Nat.zero_mod] at hstart
  have hlt := Nat.mod_lt m hpos
  rw [h.walk_eq m, Nat.dvd_iff_mod_eq_zero]
  constructor
  · intro hm
    rw [hstart] at hm
    exact (List.getElem?_inj hlt h.nodup).mp hm
  · intro hm
    rw [hm, hstart]

/-- The pointers through a list and those through its reversal undo each other. -/
theorem Lap.next_of_reverse (h : Lap next start members)
    (h' : Lap next' start' members.reverse) (hnext : next a = some b) : next' b = some a := by
  obtain ⟨k, hka, hkb⟩ := h.exists_of_next hnext
  have hlt := (List.getElem?_eq_some_iff.mp hka).1
  by_cases hlast : k + 1 = members.length
  · rw [hlast, Nat.mod_self] at hkb
    have hb : members.reverse[k]? = some b := by
      rw [List.getElem?_reverse hlt, ← hkb]
      congr 1
      omega
    rw [h'.next_eq hb, List.length_reverse, hlast, Nat.mod_self,
      List.getElem?_reverse (by omega), ← hka]
    congr 1
    omega
  · rw [Nat.mod_eq_of_lt (by omega)] at hkb
    have hb : members.reverse[members.length - 2 - k]? = some b := by
      rw [List.getElem?_reverse (by omega), ← hkb]
      congr 1
      omega
    rw [h'.next_eq hb, List.length_reverse, Nat.mod_eq_of_lt (by omega),
      List.getElem?_reverse (by omega), ← hka]
    congr 1
    omega

theorem Lap.next_iff_reverse (h : Lap next start members)
    (h' : Lap next' start' members.reverse) : next a = some b ↔ next' b = some a := by
  constructor
  · exact h.next_of_reverse h'
  · intro hnext
    rw [← members.reverse_reverse] at h
    exact h'.next_of_reverse h hnext

/-- Without repetition a ring is a lap through its sequence. -/
theorem ring_lap [DecidableEq α] (node : Nat → α) {n : Nat} (hn : 0 < n)
    (hinj : ∀ i < n, ∀ j < n, node i = node j → i = j) :
    Lap (ring (fun _ => none) node n) (node 0) ((List.range n).map node) := by
  refine ⟨?_, ?_, ?_⟩
  · refine List.Nodup.map_on ?_ List.nodup_range
    intro i hi j hj
    exact hinj i (List.mem_range.mp hi) j (List.mem_range.mp hj)
  · intro m
    rw [ring_walk_of_injOn _ node hn hinj, List.length_map, List.length_range, List.getElem?_map,
      List.getElem?_range (Nat.mod_lt m hn)]
    rfl
  · intro a ha
    apply writes_of_not_mem
    intro k hk heq
    exact ha (List.mem_map.mpr ⟨k, List.mem_range.mpr hk, heq⟩)

end Lap

end PChase.NextWalk
