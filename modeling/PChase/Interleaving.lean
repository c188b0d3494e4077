import Mathlib.Logic.Function.Basic
import Mathlib.Logic.Relation

/-!
# Interleaved threads and a mutex

Threads take steps on a shared memory, each with variables of its own. What every thread
keeps for itself and for the others holds in every state; with a mutex a step may also
count on no other thread being inside a section.
-/

namespace PChase

set_option autoImplicit false

universe u
variable {S L : Type u}

/-- No run from `start` goes on for ever when every step in one lowers a measure. -/
theorem acc_of_measure {α : Type u} {r : α → α → Prop} {start : α} (μ : α → Nat)
    (h : ∀ x x', Relation.ReflTransGen r start x → r x x' → μ x' < μ x) {x : α}
    (hx : Relation.ReflTransGen r start x) : Acc (fun b a => r a b) x := by
  induction hμ : μ x using Nat.strongRecOn generalizing x with
  | ind k ih =>
    refine ⟨_, fun x' hstep => ih _ ?_ (hx.tail hstep) rfl⟩
    rw [← hμ]
    exact h x x' hx hstep

/-- A run that is never stuck before its end can be led there. -/
theorem exists_end_of_acc {α : Type u} {r : α → α → Prop} {final : α → Prop} {start x : α}
    (hgo : ∀ y, Relation.ReflTransGen r start y → final y ∨ ∃ z, r y z)
    (hx : Relation.ReflTransGen r start x) (h : Acc (fun b a => r a b) x) :
    ∃ y, Relation.ReflTransGen r start y ∧ final y := by
  induction h with
  | intro x _ ih =>
    rcases hgo x hx with hfinal | ⟨z, hstep⟩
    · exact ⟨x, hx, hfinal⟩
    · exact ih z hstep (hx.tail hstep)

structure Threads (S L : Type u) where
  shared : S
  locals : Nat → L

abbrev ThreadStep (S L : Type u) := Nat → S → L → Option (S × L)

namespace Threads
open Relation
variable {step : ThreadStep S L} {T : Nat}

def advance (s : Threads S L) (t : Nat) (r : S × L) : Threads S L :=
  ⟨r.1, Function.update s.locals t r.2⟩

inductive Step (step : ThreadStep S L) (T : Nat) : Threads S L → Threads S L → Prop where
  | mk {s : Threads S L} (t : Nat) (r : S × L) (ht : t < T)
      (h : step t s.shared (s.locals t) = some r) : Step step T s (s.advance t r)

abbrev Run (step : ThreadStep S L) (T : Nat) := ReflTransGen (Step step T)

def follow (step : ThreadStep S L) (T : Nat) : List Nat → Threads S L → Option (Threads S L)
  | [], s => some s
  | t :: schedule, s => do
    if t < T then
      let r ← step t s.shared (s.locals t)
      follow step T schedule (s.advance t r)
    else none

theorem run_of_follow {schedule : List Nat} {s s' : Threads S L}
    (h : follow step T schedule s = some s') : Run step T s s' := by
  induction schedule generalizing s with
  | nil =>
    obtain rfl : s = s' := Option.some.inj h
    exact .refl
  | cons t schedule ih =>
    simp only [follow] at h
    split at h
    · rename_i ht
      obtain ⟨r, hstep, hrest⟩ := Option.bind_eq_some_iff.mp h
      exact .head (.mk t r ht hstep) (ih hrest)
    · simp at h

/-- What each thread keeps through its own steps and through those of the others. -/
theorem Run.invariant {I : Nat → S → L → Prop}
    (hown : ∀ {t σ l σ' l'}, t < T → I t σ l → step t σ l = some (σ', l') → I t σ' l')
    (hother : ∀ {t σ l σ' l' u k}, u ≠ t → I t σ l → I u σ k → step t σ l = some (σ', l') →
      I u σ' k)
    {s s' : Threads S L} (h : Run step T s s') (hs : ∀ t < T, I t s.shared (s.locals t)) :
    ∀ t < T, I t s'.shared (s'.locals t) := by
  induction h with
  | refl => exact hs
  | tail _ hstep ih =>
    cases hstep with
    | mk t r ht h =>
      intro u hu
      by_cases hut : u = t
      · subst u
        simpa [advance] using hown ht (ih t ht) h
      · simpa [advance, Function.update_of_ne hut] using hother hut (ih t ht) (ih u hu) h

end Threads

/-- A lock and the sections that it guards: a thread goes in only when nobody owns the
lock, and gives it up when it goes out. -/
structure Mutex (step : ThreadStep S L) where
  owner : S → Option Nat
  inside : L → Prop
  enter : ∀ {t σ l σ' l'}, step t σ l = some (σ', l') → ¬ inside l →
    (¬ inside l' ∧ owner σ' = owner σ) ∨ (inside l' ∧ owner σ = none ∧ owner σ' = some t)
  leave : ∀ {t σ l σ' l'}, step t σ l = some (σ', l') → inside l →
    (inside l' ∧ owner σ' = owner σ) ∨ (¬ inside l' ∧ owner σ' = none)

namespace Mutex
variable {step : ThreadStep S L} {T : Nat} (M : Mutex step)

def Holds (t : Nat) (σ : S) (l : L) : Prop := M.inside l ↔ M.owner σ = some t

variable {M}

theorem Holds.own {t : Nat} {σ σ' : S} {l l' : L} (h : M.Holds t σ l)
    (hstep : step t σ l = some (σ', l')) : M.Holds t σ' l' := by
  unfold Holds at *
  by_cases hin : M.inside l
  · rcases M.leave hstep hin with ⟨hin', howner⟩ | ⟨hout, howner⟩
    · rw [howner]
      exact ⟨fun _ => h.mp hin, fun _ => hin'⟩
    · simp [hout, howner]
  · rcases M.enter hstep hin with ⟨hout, howner⟩ | ⟨hin', _, howner⟩
    · rw [howner]
      exact ⟨fun h' => absurd h' hout, fun h' => absurd (h.mpr h') hin⟩
    · simp [hin', howner]

theorem Holds.other {t u : Nat} {σ σ' : S} {l l' k : L} (hut : u ≠ t) (ht : M.Holds t σ l)
    (hu : M.Holds u σ k) (hstep : step t σ l = some (σ', l')) : M.Holds u σ' k := by
  unfold Holds at *
  by_cases hin : M.inside l
  · have hfree : ¬ M.inside k := by
      intro hk
      have := (ht.mp hin).symm.trans (hu.mp hk)
      exact hut (Option.some.inj this).symm
    rcases M.leave hstep hin with ⟨_, howner⟩ | ⟨_, howner⟩
    · rw [howner]
      exact hu
    · simp [hfree, howner]
  · rcases M.enter hstep hin with ⟨_, howner⟩ | ⟨_, hnone, howner⟩
    · rw [howner]
      exact hu
    · rw [hnone] at hu
      rw [howner, Option.some.injEq]
      have hfree : ¬ M.inside k := fun hk => by simpa using hu.mp hk
      exact ⟨fun hk => absurd hk hfree, fun h => absurd h.symm hut⟩

theorem Holds.exclusive {t u : Nat} {σ : S} {l k : L} (hut : u ≠ t) (ht : M.Holds t σ l)
    (hu : M.Holds u σ k) (hl : M.inside l) : ¬ M.inside k := by
  intro hk
  have := (ht.mp hl).symm.trans (hu.mp hk)
  exact hut (Option.some.inj this).symm

/-- The rule with a mutex: where a thread is inside a section, the others are outside. -/
theorem invariant (M : Mutex step) {I : Nat → S → L → Prop}
    (hown : ∀ {t σ l σ' l'}, t < T → I t σ l → step t σ l = some (σ', l') → I t σ' l')
    (hother : ∀ {t σ l σ' l' u k}, u ≠ t → (M.inside l → ¬ M.inside k) → I t σ l → I u σ k →
      step t σ l = some (σ', l') → I u σ' k)
    {s s' : Threads S L} (h : Threads.Run step T s s')
    (hfree : M.owner s.shared = none) (hout : ∀ t < T, ¬ M.inside (s.locals t))
    (hs : ∀ t < T, I t s.shared (s.locals t)) :
    ∀ t < T, M.Holds t s'.shared (s'.locals t) ∧ I t s'.shared (s'.locals t) := by
  apply Threads.Run.invariant (I := fun t σ l => M.Holds t σ l ∧ I t σ l) _ _ h
  · intro t ht
    refine ⟨?_, hs t ht⟩
    unfold Holds
    simp [hfree, hout t ht]
  · intro t σ l σ' l' ht hI hstep
    exact ⟨hI.1.own hstep, hown ht hI.2 hstep⟩
  · intro t σ l σ' l' u k hut ht hu hstep
    exact ⟨.other hut ht.1 hu.1 hstep, hother hut (ht.1.exclusive hut hu.1) ht.2 hu.2 hstep⟩

theorem owner_lt (M : Mutex step) {s s' : Threads S L} (h : Threads.Run step T s s')
    (hfree : M.owner s.shared = none) : ∀ u, M.owner s'.shared = some u → u < T := by
  induction h with
  | refl =>
    intro u hu
    rw [hfree] at hu
    simp at hu
  | @tail x _ _ hstep ih =>
    cases hstep with
    | mk t r ht h =>
      intro u hu
      change M.owner r.1 = some u at hu
      by_cases hin : M.inside (x.locals t)
      · rcases M.leave h hin with ⟨_, howner⟩ | ⟨_, howner⟩
        · exact ih u (howner ▸ hu)
        · rw [howner] at hu
          simp at hu
      · rcases M.enter h hin with ⟨_, howner⟩ | ⟨_, _, howner⟩
        · exact ih u (howner ▸ hu)
        · rw [howner, Option.some.injEq] at hu
          exact hu ▸ ht

/-- Threads that are stuck at nothing but the lock are not stuck: its owner goes on. -/
theorem go_on (M : Mutex step) (done : L → Prop) {s : Threads S L}
    (hholds : ∀ t < T, M.Holds t s.shared (s.locals t))
    (howner : ∀ u, M.owner s.shared = some u → u < T)
    (hinside : ∀ t < T, M.inside (s.locals t) → ∃ r, step t s.shared (s.locals t) = some r)
    (houtside : M.owner s.shared = none → ∀ t < T, ¬ done (s.locals t) →
      ∃ r, step t s.shared (s.locals t) = some r) :
    (∀ t < T, done (s.locals t)) ∨ ∃ s', Threads.Step step T s s' := by
  cases hfree : M.owner s.shared with
  | some u =>
    obtain ⟨r, h⟩ := hinside u (howner u hfree) ((hholds u (howner u hfree)).mpr hfree)
    exact .inr ⟨_, .mk u r (howner u hfree) h⟩
  | none =>
    by_cases hall : ∀ t < T, done (s.locals t)
    · exact .inl hall
    · simp only [not_forall] at hall
      obtain ⟨t, ht, hnot⟩ := hall
      obtain ⟨r, h⟩ := houtside hfree t ht hnot
      exact .inr ⟨_, .mk t r ht h⟩

end Mutex

end PChase
