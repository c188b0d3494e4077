import Mathlib.Data.List.Basic

/-!
# Slots that are overwritten

Actions that put fixed values into some slots of a state. What a run of actions leaves in
a slot is what the last action wrote there; two actions commute when they write no slot
in common, and an action may be left out when everything it wrote is written again or was
there before.
-/

namespace PChase

set_option autoImplicit false

universe u
variable {S A ι : Type u}

structure Overwriting (S A ι : Type u) where
  Value : ι → Type
  read : (i : ι) → S → Value i
  write : (i : ι) → A → Option (Value i)
  apply : A → S → S
  read_apply : ∀ i a s, read i (apply a s) = (write i a).getD (read i s)
  ext : ∀ s s', (∀ i, read i s = read i s') → s = s'

namespace Overwriting
variable (o : Overwriting S A ι)

def run (as : List A) (s : S) : S := as.foldl (fun s a => o.apply a s) s

def written (i : ι) (as : List A) : Option (o.Value i) := (as.filterMap (o.write i)).getLast?

def writer (i : ι) (as : List A) : Option A := (as.filter fun a => (o.write i a).isSome).getLast?

theorem run_append (as bs : List A) (s : S) : o.run (as ++ bs) s = o.run bs (o.run as s) :=
  List.foldl_append ..

theorem written_cons (i : ι) (a : A) (as : List A) :
    o.written i (a :: as) = (o.written i as).or (o.write i a) := by
  unfold written
  cases hw : o.write i a with
  | none => simp [hw]
  | some v => simp [hw, List.getLast?_cons, Option.or_some]

theorem read_run (i : ι) (as : List A) (s : S) :
    o.read i (o.run as s) = (o.written i as).getD (o.read i s) := by
  induction as generalizing s with
  | nil => rfl
  | cons a as ih =>
    have hstep : o.run (a :: as) s = o.run as (o.apply a s) := rfl
    rw [hstep, ih, o.read_apply, written_cons]
    cases o.written i as with
    | none => simp
    | some v => simp

theorem written_isSome_iff (i : ι) (as : List A) :
    (o.written i as).isSome ↔ ∃ a ∈ as, (o.write i a).isSome := by
  induction as with
  | nil => simp [written]
  | cons a as ih => simp [written_cons, Option.isSome_or, ih, or_comm]

theorem written_eq_writer_bind (i : ι) (as : List A) :
    o.written i as = (o.writer i as).bind (o.write i) := by
  induction as with
  | nil => rfl
  | cons a as ih =>
    have hwriter : o.writer i (a :: as) =
        (o.writer i as).or (if (o.write i a).isSome then some a else none) := by
      unfold writer
      by_cases ha : (o.write i a).isSome
      · rw [List.filter_cons, if_pos ha, if_pos ha, List.getLast?_cons, Option.or_some]
      · rw [List.filter_cons, if_neg ha, if_neg ha, Option.or_none]
    rw [written_cons, hwriter, ih]
    cases hw : o.writer i as with
    | none => cases hv : o.write i a <;> simp [hv]
    | some b =>
      have hb := List.mem_of_getLast? hw
      obtain ⟨v, hv⟩ := Option.isSome_iff_exists.mp (List.mem_filter.mp hb).2
      simp [hv]

theorem apply_comm {a b : A} (h : ∀ i, o.write i a = none ∨ o.write i b = none) (s : S) :
    o.apply a (o.apply b s) = o.apply b (o.apply a s) := by
  apply o.ext
  intro i
  simp only [o.read_apply]
  cases h i with
  | inl ha => simp [ha]
  | inr hb => simp [hb]

/-- When an action leaves no trace in a slot behind the actions that follow it. -/
theorem read_run_apply_eq_iff (i : ι) (a : A) (as : List A) (s : S) :
    o.read i (o.run as (o.apply a s)) = o.read i (o.run as s) ↔
      ∀ v, o.write i a = some v → (∃ b ∈ as, (o.write i b).isSome) ∨ v = o.read i s := by
  rw [read_run, read_run, o.read_apply, ← written_isSome_iff]
  cases o.write i a with
  | none => simp
  | some v =>
    cases o.written i as with
    | none => simp
    | some w => simp

end Overwriting

end PChase
