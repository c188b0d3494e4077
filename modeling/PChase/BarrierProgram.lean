import Mathlib.Data.List.Basic
import Mathlib.Logic.Function.Basic
import Mathlib.Logic.Relation

/-!
# Threads that meet at a barrier

Threads share a memory and one barrier. A thread that has called the barrier waits until
as many threads wait as the barrier has participants; then all of them go on. The rule of
this module lifts what holds within one phase, between a barrier and the next, to every
reachable state.
-/

namespace PChase

set_option autoImplicit false

universe u
variable {S L C A : Type u}

/-- `call` is the barrier call at which a thread waits, `touches` what its next step
reads and writes. -/
structure BarrierProgram (S L C A : Type u) where
  step : Nat → S → L → Option (S × L)
  call : L → Option C
  resume : L → L
  touches : Nat → L → List A

structure ThreadAccess (A : Type u) where
  thread : Nat
  phase : Nat
  item : A

/-- `calls` and `log` only record what happened. -/
structure ThreadsState (S L C A : Type u) where
  shared : S
  locals : Nat → L
  calls : Nat → List C
  log : List (ThreadAccess A)

namespace BarrierProgram
open Relation
variable (P : BarrierProgram S L C A)

def initial (shared : S) (entry : Nat → L) : ThreadsState S L C A :=
  ⟨shared, entry, fun _ => [], []⟩

def advance (s : ThreadsState S L C A) (t : Nat) (r : S × L) : ThreadsState S L C A where
  shared := r.1
  locals := Function.update s.locals t r.2
  calls := Function.update s.calls t (s.calls t ++ (P.call r.2).toList)
  log := s.log ++ (P.touches t (s.locals t)).map fun a => ⟨t, (s.calls t).length, a⟩

def goOn (l : L) : L := if (P.call l).isSome then P.resume l else l

def release (s : ThreadsState S L C A) : ThreadsState S L C A :=
  { s with locals := fun t => P.goOn (s.locals t) }

def waiting (T : Nat) (s : ThreadsState S L C A) : Nat :=
  ((List.range T).filter fun t => (P.call (s.locals t)).isSome).length

/-- One step of one of `T` threads, or the release of all that wait. -/
inductive Step (T participants : Nat) : ThreadsState S L C A → ThreadsState S L C A → Prop where
  | run {s : ThreadsState S L C A} (t : Nat) (r : S × L) (ht : t < T)
      (h : P.step t s.shared (s.locals t) = some r) : Step T participants s (P.advance s t r)
  | release {s : ThreadsState S L C A} (h : P.waiting T s = participants) :
      Step T participants s (P.release s)

abbrev Run (T participants : Nat) := ReflTransGen (P.Step T participants)

/-- A list of turns: a step of the thread, or a release for `none`. -/
def follow (T participants : Nat) :
    List (Option Nat) → ThreadsState S L C A → Option (ThreadsState S L C A)
  | [], s => some s
  | some t :: turns, s => do
    if t < T then
      let r ← P.step t s.shared (s.locals t)
      follow T participants turns (P.advance s t r)
    else none
  | none :: turns, s =>
    if P.waiting T s = participants then follow T participants turns (P.release s) else none

variable {P}

theorem run_of_follow {T participants : Nat} {turns : List (Option Nat)}
    {s s' : ThreadsState S L C A} (h : P.follow T participants turns s = some s') :
    P.Run T participants s s' := by
  induction turns generalizing s with
  | nil =>
    obtain rfl : s = s' := Option.some.inj h
    exact .refl
  | cons turn turns ih =>
    cases turn with
    | none =>
      simp only [follow] at h
      split at h
      · rename_i hall
        exact .head (.release hall) (ih h)
      · simp at h
    | some t =>
      simp only [follow] at h
      split at h
      · rename_i ht
        obtain ⟨r, hstep, hrest⟩ := Option.bind_eq_some_iff.mp h
        exact .head (.run t r ht hstep) (ih hrest)
      · simp at h

theorem waiting_eq_iff (T : Nat) (s : ThreadsState S L C A) :
    P.waiting T s = T ↔ ∀ t < T, ∃ c, P.call (s.locals t) = some c := by
  have h := List.length_filter_eq_length_iff
    (p := fun t => (P.call (s.locals t)).isSome) (l := List.range T)
  rw [List.length_range] at h
  simp only [waiting, h, List.mem_range, Option.isSome_iff_exists]

theorem goOn_of_call {l : L} {c : C} (h : P.call l = some c) : P.goOn l = P.resume l := by
  simp [goOn, h]

/-- The rule for one thread among others: what its own steps, those of the others and the
barriers keep holds throughout. -/
theorem each_thread {T n : Nat} {I : Nat → S → L → List C → Prop} {shared : S} {entry : Nat → L}
    (hstart : ∀ t < T, I t shared (entry t) [])
    (hown : ∀ {t σ l calls σ' l'}, t < T → I t σ l calls → P.step t σ l = some (σ', l') →
      I t σ' l' (calls ++ (P.call l').toList))
    (hother : ∀ {s t u σ' l'}, P.Run T n (initial shared entry) s → t < T → u < T → u ≠ t →
      P.step t s.shared (s.locals t) = some (σ', l') →
      I u s.shared (s.locals u) (s.calls u) → I u σ' (s.locals u) (s.calls u))
    (hgo : ∀ {t σ l calls c}, t < T → I t σ l calls → P.call l = some c → I t σ (P.resume l) calls)
    {s : ThreadsState S L C A} (h : P.Run T n (initial shared entry) s) :
    ∀ t < T, I t s.shared (s.locals t) (s.calls t) := by
  induction h with
  | refl => exact hstart
  | tail hrun hlast ih =>
    cases hlast with
    | run t r ht h =>
      intro u hu
      by_cases hut : u = t
      · subst u
        simpa [advance] using hown ht (ih t ht) h
      · simpa [advance, Function.update_of_ne hut] using hother hrun ht hu hut h (ih u hu)
    | release h =>
      intro t ht
      simp only [release, goOn]
      split
      · rename_i hcall
        obtain ⟨c, hc⟩ := Option.isSome_iff_exists.mp hcall
        exact hgo ht (ih t ht) hc
      · exact ih t ht

/-- The rule for what a thread knows without looking at the memory. -/
theorem own_thread {T n : Nat} {J : Nat → L → List C → Prop} {shared : S} {entry : Nat → L}
    (hstart : ∀ t < T, J t (entry t) [])
    (hown : ∀ {s t σ' l'}, P.Run T n (initial shared entry) s → t < T →
      J t (s.locals t) (s.calls t) → P.step t s.shared (s.locals t) = some (σ', l') →
      J t l' (s.calls t ++ (P.call l').toList))
    (hgo : ∀ {t l calls c}, t < T → J t l calls → P.call l = some c → J t (P.resume l) calls)
    {s : ThreadsState S L C A} (h : P.Run T n (initial shared entry) s) :
    ∀ t < T, J t (s.locals t) (s.calls t) := by
  induction h with
  | refl => exact hstart
  | tail hrun hlast ih =>
    cases hlast with
    | run t r ht h =>
      intro u hu
      by_cases hut : u = t
      · subst u
        simpa [advance] using hown hrun ht (ih t ht) h
      · simpa [advance, Function.update_of_ne hut] using ih u hu
    | release h =>
      intro t ht
      simp only [release, goOn]
      split
      · rename_i hcall
        obtain ⟨c, hc⟩ := Option.isSome_iff_exists.mp hcall
        exact hgo ht (ih t ht) hc
      · exact ih t ht

theorem single_thread {I : S → L → List C → Prop} {shared : S} {entry : Nat → L}
    (hstart : I shared (entry 0) [])
    (hstep : ∀ {σ l calls σ' l'}, I σ l calls → P.step 0 σ l = some (σ', l') →
      I σ' l' (calls ++ (P.call l').toList))
    (hgo : ∀ {σ l calls c}, I σ l calls → P.call l = some c → I σ (P.resume l) calls)
    {s : ThreadsState S L C A} (h : P.Run 1 1 (initial shared entry) s) :
    I s.shared (s.locals 0) (s.calls 0) := by
  refine each_thread (I := fun _ => I) ?_ ?_ ?_ (fun _ => hgo) h 0 (by omega)
  · intro t ht
    obtain rfl : t = 0 := by omega
    exact hstart
  · intro t σ l calls σ' l' ht hI h
    obtain rfl : t = 0 := by omega
    exact hstep hI h
  · intro s t u σ' l' _ ht hu hut
    omega

inductive LocalStep (P : BarrierProgram S L C A) (t : Nat) :
    S × L × List C → S × L × List C → Prop where
  | mk {σ σ' : S} {l l' : L} {calls : List C} (h : P.step t σ l = some (σ', l')) :
      LocalStep P t (σ, l, calls) (σ', l', calls ++ (P.call l').toList)

abbrev LocalRun (P : BarrierProgram S L C A) (t : Nat) := ReflTransGen (LocalStep P t)

/-- What one thread can do alone, the threads can do while the others stand still. -/
theorem LocalRun.run {T n t : Nat} (ht : t < T) {s : ThreadsState S L C A}
    {x : S × L × List C} (h : LocalRun P t (s.shared, s.locals t, s.calls t) x) :
    ∃ s', P.Run T n s s' ∧ s'.shared = x.1 ∧
      s'.locals = Function.update s.locals t x.2.1 ∧
      s'.calls = Function.update s.calls t x.2.2 := by
  induction h with
  | refl => exact ⟨s, .refl, rfl, by simp, by simp⟩
  | tail _ hstep ih =>
    obtain ⟨s₁, hrun, hshared, hlocals, hcalls⟩ := ih
    cases hstep with
    | @mk σ σ' l l' calls hstep =>
      have hnow : P.step t s₁.shared (s₁.locals t) = some (σ', l') := by
        rw [hshared, hlocals, Function.update_self]
        exact hstep
      refine ⟨_, hrun.tail (.run t _ ht hnow), rfl, ?_, ?_⟩
      · simp [advance, hlocals]
      · simp [advance, hcalls]

/-- One thread after the other: `I t` is the memory when it is the turn of thread `t`. -/
theorem sweep {T n : Nat} {I : Nat → S → Prop} {F G : Nat → L → List C → Prop}
    (hlocal : ∀ t < T, ∀ σ l calls, I t σ → F t l calls →
      ∃ σ' l' calls', LocalRun P t (σ, l, calls) (σ', l', calls') ∧ I (t + 1) σ' ∧ G t l' calls')
    {s : ThreadsState S L C A} (hI : I 0 s.shared)
    (hF : ∀ t < T, F t (s.locals t) (s.calls t)) :
    ∃ s', P.Run T n s s' ∧ I T s'.shared ∧
      ∀ t < T, G t (s'.locals t) (s'.calls t) := by
  have hturns : ∀ k ≤ T, ∃ s', P.Run T n s s' ∧ I k s'.shared ∧
      (∀ t < k, G t (s'.locals t) (s'.calls t)) ∧
        ∀ t, k ≤ t → t < T → F t (s'.locals t) (s'.calls t) := by
    intro k hk
    induction k with
    | zero =>
      refine ⟨s, .refl, hI, ?_, fun t _ ht => hF t ht⟩
      intro t ht
      omega
    | succ k ih =>
      obtain ⟨s₁, hrun, hI₁, hdone, htodo⟩ := ih (by omega)
      obtain ⟨σ', l', calls', hown, hI', hG⟩ :=
        hlocal k (by omega) _ _ _ hI₁ (htodo k (Nat.le_refl k) (by omega))
      have hkT : k < T := by omega
      obtain ⟨s', hrun', hshared, hlocals, hcalls⟩ := hown.run (n := n) hkT
      refine ⟨s', hrun.trans hrun', hshared ▸ hI', ?_, ?_⟩
      · intro t ht
        rw [hlocals, hcalls]
        by_cases htk : t = k
        · subst t
          simpa using hG
        · simpa [Function.update_of_ne htk] using hdone t (by omega)
      · intro t ht ht'
        rw [hlocals, hcalls]
        have htk : t ≠ k := by omega
        simpa [Function.update_of_ne htk] using htodo t (by omega) ht'
  obtain ⟨s', hrun, hI', hdone, _⟩ := hturns T (Nat.le_refl T)
  exact ⟨s', hrun, hI', hdone⟩

end BarrierProgram

open BarrierProgram

/-- What holds between one barrier and the next, in terms of the barriers called so far:
of the memory, of a running thread and of a thread that waits. The `next` barrier is
settled before any thread calls it. -/
structure PhaseInvariant (P : BarrierProgram S L C A) (T : Nat) (shared : S) (entry : Nat → L) where
  next : List C → S → Option C
  Memory : List C → S → Prop
  Running : List C → Nat → S → L → Prop
  Waiting : List C → Nat → S → L → Prop
  memory_start : Memory [] shared
  running_start : ∀ t < T, Running [] t shared (entry t)
  step : ∀ {τ t σ l σ' l'}, t < T → Memory τ σ → Running τ t σ l →
    P.step t σ l = some (σ', l') → Memory τ σ' ∧ next τ σ' = next τ σ ∧
      ((P.call l' = none ∧ Running τ t σ' l') ∨
        ∃ c, P.call l' = some c ∧ next τ σ' = some c ∧ Waiting τ t σ' l')
  other : ∀ {τ t σ l σ' l' u k}, t < T → u < T → u ≠ t → Memory τ σ → Running τ t σ l →
    P.step t σ l = some (σ', l') → (Running τ u σ k → Running τ u σ' k) ∧
      (Waiting τ u σ k → Waiting τ u σ' k)
  stopped : ∀ {t σ l c}, P.call l = some c → P.step t σ l = none
  memory_release : ∀ {τ σ c}, Memory τ σ → next τ σ = some c → Memory (τ ++ [c]) σ
  running_release : ∀ {τ t σ l c}, t < T → Memory τ σ → next τ σ = some c → P.call l = some c →
    Waiting τ t σ l → P.call (P.resume l) = none ∧ Running (τ ++ [c]) t σ (P.resume l)
  running_call : ∀ {τ t σ l}, Running τ t σ l → P.call l = none

namespace PhaseInvariant
variable {P : BarrierProgram S L C A} {T : Nat} {shared : S} {entry : Nat → L}
variable (I : PhaseInvariant P T shared entry)

def Thread (τ : List C) (t : Nat) (s : ThreadsState S L C A) : Prop :=
  (s.calls t = τ ∧ I.Running τ t s.shared (s.locals t)) ∨
    ∃ c, P.call (s.locals t) = some c ∧ I.next τ s.shared = some c ∧ s.calls t = τ ++ [c] ∧
      I.Waiting τ t s.shared (s.locals t)

structure At (τ : List C) (s : ThreadsState S L C A) : Prop where
  memory : I.Memory τ s.shared
  thread : ∀ t < T, I.Thread τ t s

def Touched (τ : List C) (t : Nat) (a : A) : Prop :=
  ∃ σ l, I.Memory τ σ ∧ I.Running τ t σ l ∧ a ∈ P.touches t l

def Logged (s : ThreadsState S L C A) : Prop :=
  ∀ x ∈ s.log, x.thread < T ∧ x.phase ≤ (s.calls x.thread).length ∧
    I.Touched ((s.calls x.thread).take x.phase) x.thread x.item

variable {I}

theorem Thread.calls_eq {τ : List C} {t : Nat} {s : ThreadsState S L C A} (h : I.Thread τ t s) :
    s.calls t = τ ∨ ∃ c, I.next τ s.shared = some c ∧ s.calls t = τ ++ [c] := by
  rcases h with ⟨h, _⟩ | ⟨c, _, hnext, h, _⟩
  · exact .inl h
  · exact .inr ⟨c, hnext, h⟩

theorem At.run {τ : List C} {s : ThreadsState S L C A} (h : I.At τ s) {t : Nat} (ht : t < T)
    {r : S × L} (hstep : P.step t s.shared (s.locals t) = some r) :
    I.At τ (P.advance s t r) := by
  rcases h.thread t ht with ⟨hcalls, hrun⟩ | ⟨c, hcall, _⟩
  · obtain ⟨hmemory, hnext, hnow⟩ := I.step ht h.memory hrun hstep
    refine ⟨hmemory, ?_⟩
    intro u hu
    by_cases hut : u = t
    · subst u
      rcases hnow with ⟨hcall, hrun'⟩ | ⟨c, hcall, hc, hwait⟩
      · refine .inl ⟨?_, ?_⟩
        · simp [advance, hcall, hcalls]
        · simpa [advance] using hrun'
      · refine .inr ⟨c, ?_, hc, ?_, ?_⟩
        · simpa [advance] using hcall
        · simp [advance, hcall, hcalls]
        · simpa [advance] using hwait
    · obtain ⟨hrunning, hwaiting⟩ := I.other (k := s.locals u) ht hu hut h.memory hrun hstep
      rcases h.thread u hu with ⟨hcalls', hrun'⟩ | ⟨c, hcall, hc, hcalls', hwait⟩
      · refine .inl ⟨?_, ?_⟩
        · simpa [advance, Function.update_of_ne hut] using hcalls'
        · simpa [advance, Function.update_of_ne hut] using hrunning hrun'
      · refine .inr ⟨c, ?_, hnext.trans hc, ?_, ?_⟩
        · simpa [advance, Function.update_of_ne hut] using hcall
        · simpa [advance, Function.update_of_ne hut] using hcalls'
        · simpa [advance, Function.update_of_ne hut] using hwaiting hwait
  · rw [I.stopped hcall] at hstep
    simp at hstep

theorem At.release {τ : List C} {s : ThreadsState S L C A} (h : I.At τ s) (hT : 0 < T)
    (hall : ∀ t < T, ∃ c, P.call (s.locals t) = some c) :
    ∃ c, I.next τ s.shared = some c ∧ I.At (τ ++ [c]) (P.release s) := by
  have hwait : ∀ t < T, ∃ c, P.call (s.locals t) = some c ∧ I.next τ s.shared = some c ∧
      s.calls t = τ ++ [c] ∧ I.Waiting τ t s.shared (s.locals t) := by
    intro t ht
    obtain ⟨c, hcall⟩ := hall t ht
    rcases h.thread t ht with ⟨_, hrun⟩ | hwait
    · rw [I.running_call hrun] at hcall
      simp at hcall
    · exact hwait
  obtain ⟨c, _, hnext, _⟩ := hwait 0 hT
  refine ⟨c, hnext, I.memory_release h.memory hnext, ?_⟩
  intro t ht
  obtain ⟨c', hcall, hnext', hcalls, hw⟩ := hwait t ht
  obtain rfl : c' = c := Option.some.inj (hnext'.symm.trans hnext)
  refine .inl ⟨hcalls, ?_⟩
  have hgo := (I.running_release ht h.memory hnext hcall hw).2
  simpa only [BarrierProgram.release, goOn_of_call hcall] using hgo

theorem at_initial : I.At [] (initial shared entry : ThreadsState S L C A) :=
  ⟨I.memory_start, fun t ht => .inl ⟨rfl, I.running_start t ht⟩⟩

/-- The rule: every reachable state is within one phase. -/
theorem reachable (I : PhaseInvariant P T shared entry) (hT : 0 < T) {s : ThreadsState S L C A}
    (h : P.Run T T (initial shared entry) s) : ∃ τ, I.At τ s := by
  induction h with
  | refl => exact ⟨[], at_initial⟩
  | tail _ hstep ih =>
    obtain ⟨τ, hat⟩ := ih
    cases hstep with
    | run t r ht hstep => exact ⟨τ, hat.run ht hstep⟩
    | release hall =>
      obtain ⟨c, _, hat'⟩ := hat.release hT ((waiting_eq_iff T _).mp hall)
      exact ⟨τ ++ [c], hat'⟩

theorem At.calls_agree {τ : List C} {s : ThreadsState S L C A} (h : I.At τ s) {t u : Nat}
    (ht : t < T) (hu : u < T) {k : Nat} (hkt : k ≤ (s.calls t).length)
    (hku : k ≤ (s.calls u).length) : (s.calls t).take k = (s.calls u).take k := by
  rcases (h.thread t ht).calls_eq with ht | ⟨c, hnext, ht⟩
  · rcases (h.thread u hu).calls_eq with hu | ⟨c, _, hu⟩
    · rw [ht, hu]
    · rw [ht] at hkt ⊢
      rw [hu, List.take_append_of_le_length hkt]
  · rcases (h.thread u hu).calls_eq with hu | ⟨c', hnext', hu⟩
    · rw [hu] at hku ⊢
      rw [ht, List.take_append_of_le_length hku]
    · obtain rfl : c' = c := Option.some.inj (hnext'.symm.trans hnext)
      rw [ht, hu]

theorem logged_run {τ : List C} {s : ThreadsState S L C A} (h : I.At τ s) (hlog : I.Logged s)
    {t : Nat} (ht : t < T) {r : S × L} (hstep : P.step t s.shared (s.locals t) = some r) :
    I.Logged (P.advance s t r) := by
  have hprefix : ∀ u, ∃ more, (P.advance s t r).calls u = s.calls u ++ more := by
    intro u
    by_cases hut : u = t
    · subst u
      exact ⟨(P.call r.2).toList, by simp [advance]⟩
    · exact ⟨[], by simp [advance, Function.update_of_ne hut]⟩
  intro x hx
  obtain ⟨more, hmore⟩ := hprefix x.thread
  have hkeep : x.phase ≤ (s.calls x.thread).length →
      x.phase ≤ ((P.advance s t r).calls x.thread).length ∧
        ((P.advance s t r).calls x.thread).take x.phase = (s.calls x.thread).take x.phase := by
    intro hphase
    rw [hmore, List.length_append, List.take_append_of_le_length hphase]
    exact ⟨by omega, rfl⟩
  rcases List.mem_append.mp hx with hx | hx
  · obtain ⟨hthread, hphase, htouched⟩ := hlog x hx
    obtain ⟨hphase', htake⟩ := hkeep hphase
    exact ⟨hthread, hphase', htake ▸ htouched⟩
  · obtain ⟨a, ha, rfl⟩ := List.mem_map.mp hx
    obtain ⟨hphase', htake⟩ := hkeep (Nat.le_refl _)
    refine ⟨ht, hphase', ?_⟩
    rw [htake, List.take_length]
    rcases h.thread t ht with ⟨hcalls, hrun⟩ | ⟨c, hcall, _⟩
    · rw [hcalls]
      exact ⟨_, _, h.memory, hrun, ha⟩
    · rw [I.stopped hcall] at hstep
      simp at hstep

theorem logged (I : PhaseInvariant P T shared entry) (hT : 0 < T) {s : ThreadsState S L C A}
    (h : P.Run T T (initial shared entry) s) : I.Logged s := by
  induction h with
  | refl =>
    intro x hx
    simp [initial] at hx
  | tail hrun hstep ih =>
    obtain ⟨τ, hat⟩ := I.reachable hT hrun
    cases hstep with
    | run t r ht hstep => exact logged_run hat ih ht hstep
    | release hall => exact ih

theorem same_phase (I : PhaseInvariant P T shared entry) (hT : 0 < T) {s : ThreadsState S L C A}
    (h : P.Run T T (initial shared entry) s) {x y : ThreadAccess A} (hx : x ∈ s.log) (hy : y ∈ s.log)
    (hxy : x.phase = y.phase) :
    ∃ τ, I.Touched τ x.thread x.item ∧ I.Touched τ y.thread y.item := by
  obtain ⟨τ, hat⟩ := I.reachable hT h
  obtain ⟨htx, hpx, hx⟩ := I.logged hT h x hx
  obtain ⟨hty, hpy, hy⟩ := I.logged hT h y hy
  rw [← hxy] at hpy hy
  rw [hat.calls_agree hty htx hpy hpx] at hy
  exact ⟨_, hx, hy⟩

theorem At.together {τ : List C} {s : ThreadsState S L C A} (h : I.At τ s) :
    (∀ t < T, P.call (s.locals t) = none) ∨
      ∃ c, I.next τ s.shared = some c ∧ ∀ t < T, P.call (s.locals t) = some c ∨
        I.Running τ t s.shared (s.locals t) := by
  cases hnext : I.next τ s.shared with
  | none =>
    left
    intro t ht
    rcases h.thread t ht with ⟨_, hrun⟩ | ⟨c, _, hc, _⟩
    · exact I.running_call hrun
    · rw [hnext] at hc
      simp at hc
  | some c =>
    refine .inr ⟨c, rfl, ?_⟩
    intro t ht
    rcases h.thread t ht with ⟨_, hrun⟩ | ⟨c', hcall, hc, _⟩
    · exact .inr hrun
    · rw [hnext] at hc
      exact .inl (hcall.trans hc.symm)

end PhaseInvariant

end PChase
