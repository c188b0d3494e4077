import Mathlib.Algebra.BigOperators.Group.Finset.Basic
import Mathlib.Algebra.Order.BigOperators.Group.Finset
import PChase.BarrierProgram
import PChase.Interleaving

/-!
# Threads in two stages

Each thread works through a prelude of its own and then takes part in a barrier program;
no thread waits for another in between. What it has made in the prelude decides which steps
of the program it may take. The stages share no memory otherwise, so a run of both is a run
of either, and what is left to do in either is left to do in both.
-/

namespace PChase

open Relation BarrierProgram
set_option autoImplicit false

universe u
variable {S L C A S₁ L₁ S₂ L₂ : Type u}

structure Staged (S₁ L₁ S₂ L₂ C A : Type u) where
  prelude : Threads S₁ L₁
  program : ThreadsState S₂ L₂ C A

namespace Staged
variable (step : ThreadStep S₁ L₁) (through : L₁ → Prop) (may : Nat → L₁ → L₂ → Prop)
  (P : BarrierProgram S₂ L₂ C A) (T n : Nat)

/-- A thread goes on with its prelude, or once it is through with the program where it may. -/
inductive Step : Staged S₁ L₁ S₂ L₂ C A → Staged S₁ L₁ S₂ L₂ C A → Prop where
  | prelude {s : Staged S₁ L₁ S₂ L₂ C A} {x : Threads S₁ L₁}
      (h : Threads.Step step T s.prelude x) : Step s { s with prelude := x }
  | program {s : Staged S₁ L₁ S₂ L₂ C A} (t : Nat) (r : S₂ × L₂) (ht : t < T)
      (hthrough : through (s.prelude.locals t))
      (hmay : may t (s.prelude.locals t) (s.program.locals t))
      (h : P.step t s.program.shared (s.program.locals t) = some r) :
      Step s { s with program := P.advance s.program t r }
  | release {s : Staged S₁ L₁ S₂ L₂ C A} (h : P.waiting T s.program = n) :
      Step s { s with program := P.release s.program }

abbrev Run := ReflTransGen (Step step through may P T n)

section Stages
variable {step through may P T n}

/-- A step is one of a stage, and leaves the other alone. -/
theorem Step.stage {s s' : Staged S₁ L₁ S₂ L₂ C A} (h : Step step through may P T n s s') :
    (Threads.Step step T s.prelude s'.prelude ∧ s'.program = s.program) ∨
      (P.Step T n s.program s'.program ∧ s'.prelude = s.prelude) := by
  cases h with
  | prelude h => exact .inl ⟨h, rfl⟩
  | program t r ht _ _ h => exact .inr ⟨.run t r ht h, rfl⟩
  | release h => exact .inr ⟨.release h, rfl⟩

theorem Run.stages {s s' : Staged S₁ L₁ S₂ L₂ C A} (h : Run step through may P T n s s') :
    Threads.Run step T s.prelude s'.prelude ∧ P.Run T n s.program s'.program := by
  induction h with
  | refl => exact ⟨.refl, .refl⟩
  | tail _ hstep ih =>
    rcases hstep.stage with ⟨h, hsame⟩ | ⟨h, hsame⟩
    · exact ⟨ih.1.tail h, hsame ▸ ih.2⟩
    · exact ⟨hsame ▸ ih.1, ih.2.tail h⟩

/-- A thread that is not through with its prelude has not begun with the program. -/
theorem Run.waits {start s : Staged S₁ L₁ S₂ L₂ C A} (hs : Run step through may P T n start s)
    (hstay : ∀ {t σ l}, through l → step t σ l = none)
    (hentry : ∀ t, P.call (start.program.locals t) = none) (t : Nat)
    (ht : ¬ through (s.prelude.locals t)) : s.program.locals t = start.program.locals t := by
  induction hs with
  | refl => rfl
  | tail _ hstep ih =>
    cases hstep with
    | prelude h =>
      apply ih
      intro hthrough
      cases h with
      | mk u r hu h =>
        by_cases htu : t = u
        · subst htu
          rw [hstay hthrough] at h
          simp at h
        · exact ht (by simpa [Threads.advance, Function.update_of_ne htu] using hthrough)
    | program u r hu hthrough _ h =>
      have htu : t ≠ u := by
        rintro rfl
        exact ht hthrough
      simpa [BarrierProgram.advance, Function.update_of_ne htu] using ih ht
    | release h =>
      have hsame := ih ht
      have hcall := hentry t
      rw [← hsame] at hcall
      simpa [BarrierProgram.release, goOn, hcall] using hsame

/-- Nobody is stuck as long as neither stage is and what comes next is allowed. -/
theorem go_on {final : Prop} {s : Staged S₁ L₁ S₂ L₂ C A}
    (hprelude : (∀ t < T, through (s.prelude.locals t)) ∨ ∃ x, Threads.Step step T s.prelude x)
    (hprogram : final ∨ ∃ x, P.Step T n s.program x)
    (hmay : ∀ t < T, through (s.prelude.locals t) →
      may t (s.prelude.locals t) (s.program.locals t)) :
    ((∀ t < T, through (s.prelude.locals t)) ∧ final) ∨
      ∃ s', Step step through may P T n s s' := by
  rcases hprelude with hthrough | ⟨x, h⟩
  · rcases hprogram with hfinal | ⟨x, h⟩
    · exact .inl ⟨hthrough, hfinal⟩
    · right
      cases h with
      | run t r ht h => exact ⟨_, .program t r ht (hthrough t ht) (hmay t ht (hthrough t ht)) h⟩
      | release h => exact ⟨_, .release h⟩
  · exact .inr ⟨_, .prelude h⟩

/-- Every run ends when each stage has a measure that its steps decrease. -/
theorem accessible {start : Staged S₁ L₁ S₂ L₂ C A} (μ₁ : Threads S₁ L₁ → Nat)
    (μ₂ : ThreadsState S₂ L₂ C A → Nat)
    (h₁ : ∀ x x', Threads.Run step T start.prelude x → Threads.Step step T x x' → μ₁ x' < μ₁ x)
    (h₂ : ∀ x x', P.Run T n start.program x → P.Step T n x x' → μ₂ x' < μ₂ x)
    {s : Staged S₁ L₁ S₂ L₂ C A} (hs : Run step through may P T n start s) :
    Acc (fun b a => Step step through may P T n a b) s := by
  refine acc_of_measure (fun s => μ₁ s.prelude + μ₂ s.program) ?_ hs
  intro s s' hrun hstep
  obtain ⟨hprelude, hprogram⟩ := Run.stages hrun
  rcases hstep.stage with ⟨h, hsame⟩ | ⟨h, hsame⟩
  · have hless := h₁ _ _ hprelude h
    rw [hsame]
    omega
  · have hless := h₂ _ _ hprogram h
    rw [hsame]
    omega

end Stages

end Staged

section Total
variable {T : Nat} (left : L → Nat)

def totalLeft (T : Nat) (locals : Nat → L) : Nat := ∑ t ∈ Finset.range T, left (locals t)

variable {left}

theorem totalLeft_update {locals : Nat → L} {t : Nat} (ht : t < T) {l : L}
    (h : left l < left (locals t)) :
    totalLeft left T (Function.update locals t l) < totalLeft left T locals := by
  apply Finset.sum_lt_sum
  · intro u _
    by_cases hut : u = t
    · subst hut
      rw [Function.update_self]
      omega
    · rw [Function.update_of_ne hut]
  · exact ⟨t, Finset.mem_range.mpr ht, by rwa [Function.update_self]⟩

theorem totalLeft_all (hT : 0 < T) {f g : Nat → L} (h : ∀ t < T, left (f t) < left (g t)) :
    totalLeft left T f < totalLeft left T g :=
  Finset.sum_lt_sum_of_nonempty ⟨0, Finset.mem_range.mpr hT⟩
    fun t ht => h t (Finset.mem_range.mp ht)

theorem totalLeft_add {locals : Nat → L} {t : Nat} (ht : t < T) {l : L} {d : Nat}
    (h : left l = left (locals t) + d) :
    totalLeft left T (Function.update locals t l) = totalLeft left T locals + d := by
  have hmem := Finset.mem_range.mpr ht
  rw [totalLeft, totalLeft, ← Finset.add_sum_erase _ _ hmem,
    ← Finset.add_sum_erase _ (fun u => left (locals u)) hmem, Function.update_self, h]
  have hrest : ∑ u ∈ (Finset.range T).erase t, left (Function.update locals t l u) =
      ∑ u ∈ (Finset.range T).erase t, left (locals u) := by
    apply Finset.sum_congr rfl
    intro u hu
    rw [Function.update_of_ne (Finset.ne_of_mem_erase hu)]
  rw [hrest]
  omega

theorem totalLeft_le {locals : Nat → L} {n : Nat} (h : ∀ t < T, left (locals t) ≤ n) :
    totalLeft left T locals ≤ T * n := by
  have hsum := Finset.sum_le_card_nsmul (Finset.range T) (fun t => left (locals t)) n
    fun t ht => h t (Finset.mem_range.mp ht)
  rwa [Finset.card_range] at hsum

theorem advance_pairs (P : BarrierProgram S L C A) (s : ThreadsState S L C A) (t : Nat)
    (r : S × L) : (fun u => ((P.advance s t r).locals u, (P.advance s t r).calls u)) =
      Function.update (fun u => (s.locals u, s.calls u)) t
        (r.2, s.calls t ++ (P.call r.2).toList) := by
  funext u
  by_cases hut : u = t
  · subst hut
    simp [advance]
  · simp [advance, Function.update_of_ne hut]

/-- What is left to do in a barrier program falls with every step when each thread's share
of it falls with its own steps and at every barrier. -/
theorem totalLeft_step {P : BarrierProgram S L C A} {left : L × List C → Nat} (hT : 0 < T)
    {s s' : ThreadsState S L C A} (hstep : P.Step T T s s')
    (hrun : ∀ t < T, ∀ σ l, P.step t s.shared (s.locals t) = some (σ, l) →
      left (l, s.calls t ++ (P.call l).toList) < left (s.locals t, s.calls t))
    (hgo : ∀ t < T, ∀ c, P.call (s.locals t) = some c →
      left (P.resume (s.locals t), s.calls t) < left (s.locals t, s.calls t)) :
    totalLeft left T (fun t => (s'.locals t, s'.calls t)) <
      totalLeft left T (fun t => (s.locals t, s.calls t)) := by
  cases hstep with
  | run t r ht h =>
    rw [advance_pairs]
    exact totalLeft_update ht (hrun t ht r.1 r.2 h)
  | release h =>
    refine totalLeft_all hT fun t ht => ?_
    obtain ⟨c, hc⟩ := (waiting_eq_iff T s).mp h t ht
    simp only [release, goOn_of_call hc]
    exact hgo t ht c hc

end Total

end PChase
