import PChase.ChaseRun

/-!
# A call is one lap of every chain

When the rings of a thread are laps of one length, the loop makes as many rounds as that
length: chain 0, which the exit test looks at, is back at its root with all the others.
-/

namespace PChase

open NextWalk
set_option autoImplicit false

variable {e : Experiment} {chains : Nat}

def accessesAt (e : Experiment) (c : Nat) (l : Int) : List Access :=
  (dataOffsets e).map fun o => ⟨c, 16 * l + o⟩

def roundAccesses (e : Experiment) (chains : Nat) (pos : Nat → Int) : List Access :=
  (List.range chains).flatMap fun c => accessesAt e c (pos c)

def Ring.node (r : Ring) (m : Nat) : Int := (walk r.next r.root m).getD r.root

def benchRounds (pl : Placement e chains) (head : Int) : Nat → Machine → Option (Nat × Machine)
  | 0, _ => none
  | fuel + 1, s => do
    let s ← chaseRound pl s
    if s.pos 0 = head then return (1, s)
    else
      let (rounds, s) ← benchRounds pl head fuel s
      return (rounds + 1, s)

section Rounds
variable (pl : Placement e chains)

theorem benchLoop_eq_rounds (head : Int) (fuel : Nat) (s : Machine) :
    benchLoop pl head fuel s = (benchRounds pl head fuel s).map Prod.snd := by
  induction fuel generalizing s with
  | zero => rfl
  | succ fuel ih =>
    simp only [benchLoop, benchRounds, Option.bind_eq_bind, Option.pure_def]
    cases chaseRound pl s with
    | none => rfl
    | some s' =>
      simp only [Option.bind_some]
      split
      · rfl
      · rw [ih]
        cases benchRounds pl head fuel s' <;> rfl

theorem chaseRound_log {s s' : Machine} (h : chaseRound pl s = some s') :
    s'.log = s.log ++ roundAccesses e chains s'.pos := by
  have hpart : ∀ k, ∀ s', (List.range k).foldlM (chaseChain pl) s = some s' →
      s'.log = s.log ++ (List.range k).flatMap fun c => accessesAt e c (s'.pos c) := by
    intro k
    induction k with
    | zero =>
      intro s' h
      simp only [List.range_zero, List.foldlM_nil, Option.pure_def, Option.some.injEq] at h
      subst h
      simp
    | succ k ih =>
      intro s'' h
      rw [List.range_succ, List.foldlM_append] at h
      obtain ⟨s', hfold, hlast⟩ := Option.bind_eq_some_iff.mp h
      simp only [List.foldlM_cons, List.foldlM_nil, bind_pure] at hlast
      obtain ⟨l, _, hstep⟩ := Option.bind_eq_some_iff.mp hlast
      simp only [Option.pure_def, Option.some.injEq] at hstep
      subst hstep
      have hrest : ((List.range k).flatMap fun c => accessesAt e c (Function.update s'.pos k l c)) =
          (List.range k).flatMap fun c => accessesAt e c (s'.pos c) := by
        apply List.flatMap_congr
        intro c hc
        have hck := List.mem_range.mp hc
        rw [Function.update_of_ne (by omega)]
      simp only [operate]
      rw [List.range_succ, List.flatMap_append, hrest, ih s' hfold, List.append_assoc]
      simp [accessesAt]
  exact hpart chains s' h

end Rounds

/-- In a call that began in `s` the chains have gone `m` steps along their intact rings. -/
structure Lapping (e : Experiment) (chains : Nat) (rings : Nat → Ring) (S : Nat → Int → Prop)
    (s s' : Machine) (m : Nat) : Prop where
  intact : Intact chains rings S s'
  decayed : Decayed chains rings s'
  pos_eq : ∀ c < chains, walk (rings c).next (rings c).root m = some (s'.pos c)
  log_eq : s'.log = s.log ++ (List.range m).flatMap fun k =>
    roundAccesses e chains fun c => (rings c).node (k + 1)

section Laps
variable (pl : Placement e chains) {rings : Nat → Ring} {S : Nat → Int → Prop}
  (hclosed : ∀ c < chains, (rings c).Closed (S c)) (hspare : StoresSpare pl S)
include hclosed hspare

theorem Lapping.round {s s' : Machine} {m : Nat} (h : Lapping e chains rings S s s' m) :
    ∃ s'', chaseRound pl s' = some s'' ∧ Lapping e chains rings S s s'' (m + 1) := by
  have hpos : ∀ c < chains, S c (s'.pos c) := by
    intro c hc
    obtain ⟨l, hwalk, hl⟩ := (hclosed c hc).walk_mem m
    rw [h.pos_eq c hc, Option.some.injEq] at hwalk
    exact hwalk ▸ hl
  obtain ⟨s'', hround, hintact⟩ := chaseRound_some pl hclosed hspare hpos h.intact h.decayed
  obtain ⟨hdecayed, hmoved⟩ := chaseRound_moved pl h.decayed hround
  have hwalk : ∀ c < chains, walk (rings c).next (rings c).root (m + 1) = some (s''.pos c) := by
    intro c hc
    rw [walk_succ, h.pos_eq c hc, Option.bind_some]
    exact hmoved.done c hc
  refine ⟨s'', hround, hintact, hdecayed, hwalk, ?_⟩
  have hlast : roundAccesses e chains s''.pos =
      roundAccesses e chains fun c => (rings c).node (m + 1) := by
    apply List.flatMap_congr
    intro c hc
    have hnode : (rings c).node (m + 1) = s''.pos c := by
      rw [Ring.node, hwalk c (List.mem_range.mp hc), Option.getD_some]
    exact congrArg (accessesAt e c) hnode.symm
  rw [chaseRound_log pl hround, h.log_eq, List.range_succ, List.flatMap_append, List.append_assoc,
    hlast]
  simp

theorem Lapping.rounds (hchains : 0 < chains) {s s' : Machine} {m n fuel : Nat}
    (h : Lapping e chains rings S s s' m) (hm : m < n) (hfuel : n ≤ m + fuel)
    (hback : walk (rings 0).next (rings 0).root n = some (rings 0).root)
    (hfirst : ∀ k, m < k → k < n → walk (rings 0).next (rings 0).root k ≠ some (rings 0).root) :
    ∃ s'', benchRounds pl (rings 0).root fuel s' = some (n - m, s'') ∧
      Lapping e chains rings S s s'' n := by
  induction fuel generalizing m s' with
  | zero => omega
  | succ fuel ih =>
    obtain ⟨s₁, hround, hlapping⟩ := h.round pl hclosed hspare
    have hpos := hlapping.pos_eq 0 hchains
    by_cases hlast : m + 1 = n
    · subst hlast
      have hend : s₁.pos 0 = (rings 0).root := by
        rw [hback, Option.some.injEq] at hpos
        exact hpos.symm
      refine ⟨s₁, ?_, hlapping⟩
      simp [benchRounds, hround, hend]
    · have hgoes : s₁.pos 0 ≠ (rings 0).root := by
        intro hend
        rw [hend] at hpos
        exact hfirst (m + 1) (by omega) (by omega) hpos
      obtain ⟨s'', hrest, hlapping'⟩ := ih hlapping (by omega) (by omega)
        fun k hk hkn => hfirst k (by omega) hkn
      have hcount : n - (m + 1) + 1 = n - m := by omega
      refine ⟨s'', ?_, hlapping'⟩
      simp [benchRounds, hround, hgoes, hrest, hcount]

end Laps

/-- The rings of a thread, each a lap of `n` nodes. -/
structure RingLaps (chains : Nat) (rings : Nat → Ring) (nodes : Nat → List Int) (n : Nat) :
    Prop where
  lap : ∀ c < chains, Lap (rings c).next (rings c).root (nodes c)
  length_eq : ∀ c < chains, (nodes c).length = n

namespace RingLaps
variable {rings : Nat → Ring} {nodes : Nat → List Int} {n : Nat}
  (h : RingLaps chains rings nodes n)
include h

theorem closed : ∀ c < chains, (rings c).Closed (· ∈ nodes c) := by
  intro c hc
  have hlap := h.lap c hc
  constructor
  · exact List.mem_of_getElem? (hlap.walk_eq 0).symm
  · intro l hl
    obtain ⟨k, hk⟩ := List.getElem?_of_mem hl
    have hnext := hlap.next_eq hk
    have hlt := Nat.mod_lt (k + 1) hlap.length_pos
    rw [List.getElem?_eq_getElem hlt] at hnext
    exact ⟨_, hnext, List.getElem_mem hlt⟩

/-- A chain is at its root again after each lap and at no other time. -/
theorem back_iff {c : Nat} (hc : c < chains) (m : Nat) :
    walk (rings c).next (rings c).root m = some (rings c).root ↔ n ∣ m := by
  rw [(h.lap c hc).walk_start_iff, h.length_eq c hc]

theorem length_pos (hchains : 0 < chains) : 0 < n := by
  rw [← h.length_eq 0 hchains]
  exact (h.lap 0 hchains).length_pos

theorem returns (hchains : 0 < chains) {fuel : Nat} (hfuel : n ≤ fuel) :
    (rings 0).Returns fuel :=
  ⟨n, h.length_pos hchains, hfuel, (h.back_iff hchains n).mpr (Nat.dvd_refl n)⟩

/-- One call after another makes exactly one lap, with every chain. -/
theorem calls (pl : Placement e chains) (hspare : StoresSpare pl fun c => (· ∈ nodes c))
    (hchains : 0 < chains) {fuel : Nat} (hfuel : n ≤ fuel) (calls : Nat) :
    ∃ s s', benchCalls pl rings fuel calls = some s ∧
      benchRounds pl (rings 0).root fuel { s with pos := fun c => (rings c).root } =
        some (n, s') ∧
      benchCalls pl rings fuel (calls + 1) = some s' ∧
      (∀ c < chains, s'.pos c = (rings c).root) ∧
      s'.log = s.log ++ (List.range n).flatMap fun k =>
        roundAccesses e chains fun c => (rings c).node (k + 1) := by
  have hpos := h.length_pos hchains
  obtain ⟨s, hcalls, hintact, hdecayed, _⟩ :=
    benchCalls_run pl hchains h.closed hspare (h.returns hchains hfuel) calls
  have hstart : Lapping e chains rings (fun c => (· ∈ nodes c)) s
      { s with pos := fun c => (rings c).root } 0 :=
    ⟨hintact, hdecayed, fun _ _ => rfl, by simp⟩
  have hfirst : ∀ k, 0 < k → k < n →
      walk (rings 0).next (rings 0).root k ≠ some (rings 0).root := by
    intro k hk hkn hback
    have := Nat.le_of_dvd hk ((h.back_iff hchains k).mp hback)
    omega
  have hfits : n ≤ 0 + fuel := by omega
  obtain ⟨s', hrounds, hlapping⟩ := hstart.rounds pl h.closed hspare hchains hpos hfits
    ((h.back_iff hchains n).mpr (Nat.dvd_refl n)) hfirst
  refine ⟨s, s', hcalls, hrounds, ?_, ?_, hlapping.log_eq⟩
  · simp [benchCalls, hcalls, bench, benchLoop_eq_rounds, hrounds]
  · intro c hc
    have hwalk := hlapping.pos_eq c hc
    rw [(h.back_iff hc n).mpr (Nat.dvd_refl n), Option.some.injEq] at hwalk
    exact hwalk.symm

end RingLaps

end PChase
