import PChase.Chase

/-!
# Runs of the chase loop

While no store reaches a node of a ring, every chain walks its ring and the fields stay
as they were built. A call ends when the walk of chain 0 is back at its root.
-/

namespace PChase

open CInt NextWalk
set_option autoImplicit false

structure Ring.Closed (r : Ring) (S : Int → Prop) : Prop where
  root_mem : S r.root
  next_mem : ∀ l, S l → ∃ l', r.next l = some l' ∧ S l'

/-- The walk from the root is back at the root after one to `n` steps. -/
def Ring.Returns (r : Ring) (n : Nat) : Prop :=
  ∃ m, 1 ≤ m ∧ m ≤ n ∧ walk r.next r.root m = some r.root

theorem Ring.Closed.walk_mem {r : Ring} {S : Int → Prop} (h : r.Closed S) (m : Nat) :
    ∃ l, walk r.next r.root m = some l ∧ S l :=
  walk_closed h.next_mem h.root_mem m

variable {e : Experiment} {chains : Nat}

/-- No store at a node of a ring overlaps the `next` field of a node of a ring. -/
def StoresSpare (pl : Placement e chains) (S : Nat → Int → Prop) : Prop :=
  e.memOperation.isStore = true → ∀ c < chains, ∀ l, S c l → ∀ o ∈ dataOffsets e,
    ∀ c' < chains, ∀ l', S c' l' → overlaps pl c' l' (pl.base c + 16 * l + o) = false

def AccessAt (e : Experiment) (c : Nat) (l : Int) (a : Access) : Prop :=
  ∃ o ∈ dataOffsets e, a = ⟨c, 16 * l + o⟩

section Rounds
variable (pl : Placement e chains) {rings : Nat → Ring} {S : Nat → Int → Prop}

def Intact (chains : Nat) (rings : Nat → Ring) (S : Nat → Int → Prop) (s : Machine) : Prop :=
  ∀ c < chains, ∀ l, S c l → s.mem c l = (rings c).next l

def Decayed (chains : Nat) (rings : Nat → Ring) (s : Machine) : Prop :=
  ∀ c < chains, ∀ l l', s.mem c l = some l' → (rings c).next l = some l'

theorem operate_intact {c : Nat} (hc : c < chains) {l : Int} (hl : S c l)
    (hspare : StoresSpare pl S) {s : Machine} (hs : Intact chains rings S s) :
    Intact chains rings S (operate pl s c l) := by
  intro c' hc' l' hl'
  rw [← hs c' hc' l' hl']
  refine if_neg ?_
  simp only [Bool.and_eq_true, List.any_eq_true, not_and]
  rintro hstore ⟨o, ho, hover⟩
  rw [hspare hstore c hc l hl o ho c' hc' l' hl'] at hover
  simp at hover

theorem operate_decayed (c : Nat) (l : Int) {s : Machine} (hs : Decayed chains rings s) :
    Decayed chains rings (operate pl s c l) := by
  intro c' hc' l' l'' h
  apply hs c' hc' l' l''
  simp only [operate] at h
  split at h
  · simp at h
  · exact h

theorem mem_operate_log (s : Machine) (c : Nat) (l : Int) (a : Access) :
    a ∈ (operate pl s c l).log ↔ a ∈ s.log ∨ AccessAt e c l a := by
  simp only [operate, List.mem_append, List.mem_map, AccessAt, eq_comm]

structure Moved (rings : Nat → Ring) (s s' : Machine) (k : Nat) : Prop where
  done : ∀ c < k, (rings c).next (s.pos c) = some (s'.pos c)
  rest : ∀ c, k ≤ c → s'.pos c = s.pos c
  log_iff : ∀ a, a ∈ s'.log ↔ a ∈ s.log ∨ ∃ c < k, AccessAt e c (s'.pos c) a

theorem chaseChain_moved {s s' s'' : Machine} {k : Nat} (hk : k < chains)
    (hs' : Decayed chains rings s') (hmoved : Moved (e := e) rings s s' k)
    (h : chaseChain pl s' k = some s'') :
    Decayed chains rings s'' ∧ Moved (e := e) rings s s'' (k + 1) := by
  obtain ⟨l, hload, hstep⟩ := Option.bind_eq_some_iff.mp h
  simp only [Option.pure_def, Option.some.injEq] at hstep
  subst hstep
  have hnext := hs' k hk _ l hload
  rw [hmoved.rest k (Nat.le_refl k)] at hnext
  have hpos : ∀ c, (operate pl { s' with pos := Function.update s'.pos k l } k l).pos c =
      if c = k then l else s'.pos c := fun c => Function.update_apply s'.pos k l c
  refine ⟨operate_decayed pl k l hs', ?_, ?_, ?_⟩
  · intro c hc
    rw [hpos]
    by_cases hck : c = k
    · rw [if_pos hck, hck, hnext]
    · rw [if_neg hck]
      exact hmoved.done c (by omega)
  · intro c hc
    rw [hpos, if_neg (by omega)]
    exact hmoved.rest c (by omega)
  · intro a
    rw [mem_operate_log, hmoved.log_iff a, or_assoc]
    refine or_congr Iff.rfl ?_
    constructor
    · rintro (⟨c, hc, ha⟩ | ha)
      · refine ⟨c, by omega, ?_⟩
        rw [hpos, if_neg (by omega)]
        exact ha
      · refine ⟨k, by omega, ?_⟩
        rw [hpos, if_pos rfl]
        exact ha
    · rintro ⟨c, hc, ha⟩
      rw [hpos] at ha
      by_cases hck : c = k
      · rw [if_pos hck, hck] at ha
        exact .inr ha
      · rw [if_neg hck] at ha
        exact .inl ⟨c, by omega, ha⟩

/-- A round that does not get stuck moves every chain one step along its ring. -/
theorem chaseRound_moved {s s' : Machine} (hs : Decayed chains rings s)
    (h : chaseRound pl s = some s') :
    Decayed chains rings s' ∧ Moved (e := e) rings s s' chains := by
  have hpart : ∀ k ≤ chains, ∀ s', (List.range k).foldlM (chaseChain pl) s = some s' →
      Decayed chains rings s' ∧ Moved (e := e) rings s s' k := by
    intro k hk
    induction k with
    | zero =>
      intro s' h
      simp only [List.range_zero, List.foldlM_nil, Option.pure_def, Option.some.injEq] at h
      subst h
      exact ⟨hs, by simp, fun _ _ => rfl, by simp⟩
    | succ k ih =>
      intro s'' h
      rw [List.range_succ, List.foldlM_append] at h
      obtain ⟨s', hfold, hstep⟩ := Option.bind_eq_some_iff.mp h
      obtain ⟨hs', hmoved⟩ := ih (by omega) s' hfold
      exact chaseChain_moved pl (by omega) hs' hmoved (by simpa using hstep)
  exact hpart chains (Nat.le_refl _) s' h

theorem chaseRound_some (hclosed : ∀ c < chains, (rings c).Closed (S c))
    (hspare : StoresSpare pl S) {s : Machine} (hpos : ∀ c < chains, S c (s.pos c))
    (hs : Intact chains rings S s) (hd : Decayed chains rings s) :
    ∃ s', chaseRound pl s = some s' ∧ Intact chains rings S s' := by
  have hpart : ∀ k ≤ chains, ∃ s', (List.range k).foldlM (chaseChain pl) s = some s' ∧
      Intact chains rings S s' ∧ Decayed chains rings s' ∧ Moved (e := e) rings s s' k := by
    intro k hk
    induction k with
    | zero => exact ⟨s, rfl, hs, hd, by simp, fun _ _ => rfl, by simp⟩
    | succ k ih =>
      obtain ⟨s', hfold, hs', hd', hmoved⟩ := ih (by omega)
      obtain ⟨l, hnext, hl⟩ := (hclosed k (by omega)).next_mem _ (hpos k (by omega))
      have hload : s'.mem k (s'.pos k) = some l := by
        rw [hmoved.rest k (Nat.le_refl k), hs' k (by omega) _ (hpos k (by omega)), hnext]
      have hstep : chaseChain pl s' k =
          some (operate pl { s' with pos := Function.update s'.pos k l } k l) := by
        simp [chaseChain, hload]
      have hintact : Intact chains rings S { s' with pos := Function.update s'.pos k l } := hs'
      refine ⟨_, ?_, operate_intact pl (by omega) hl hspare hintact,
        chaseChain_moved pl (by omega) hd' hmoved hstep⟩
      rw [List.range_succ, List.foldlM_append, hfold]
      simpa using hstep
  obtain ⟨s', hfold, hs', _⟩ := hpart chains (Nat.le_refl _)
  exact ⟨s', hfold, hs'⟩

/-- After `m` rounds of a call the chains are `m` steps into their rings, and the call has
made the accesses of the nodes on the way. -/
structure Tracks (rings : Nat → Ring) (chains : Nat) (s s' : Machine) (m : Nat) : Prop where
  pos_eq : ∀ c < chains, walk (rings c).next (rings c).root m = some (s'.pos c)
  log_iff : ∀ a, a ∈ s'.log ↔ a ∈ s.log ∨ ∃ k, 1 ≤ k ∧ k ≤ m ∧ ∃ c < chains, ∃ l,
    walk (rings c).next (rings c).root k = some l ∧ AccessAt e c l a

theorem Tracks.start (rings : Nat → Ring) (s : Machine) :
    Tracks (e := e) rings chains s { s with pos := fun c => (rings c).root } 0 := by
  refine ⟨fun _ _ => rfl, fun a => ?_⟩
  constructor
  · exact fun h => .inl h
  · rintro (h | ⟨k, hk, hk0, _⟩)
    · exact h
    · omega

theorem Tracks.succ {s s' s'' : Machine} {m : Nat}
    (h : Tracks (e := e) rings chains s s' m) (hmoved : Moved (e := e) rings s' s'' chains) :
    Tracks (e := e) rings chains s s'' (m + 1) := by
  have hpos : ∀ c < chains, walk (rings c).next (rings c).root (m + 1) = some (s''.pos c) := by
    intro c hc
    rw [walk_succ, h.pos_eq c hc, Option.bind_some]
    exact hmoved.done c hc
  refine ⟨hpos, ?_⟩
  intro a
  rw [hmoved.log_iff a, h.log_iff a, or_assoc]
  refine or_congr Iff.rfl ?_
  constructor
  · rintro (⟨k, hk, hkm, hrest⟩ | ⟨c, hc, ha⟩)
    · exact ⟨k, hk, by omega, hrest⟩
    · exact ⟨m + 1, by omega, by omega, c, hc, _, hpos c hc, ha⟩
  · rintro ⟨k, hk, hkm, c, hc, l, hwalk, ha⟩
    by_cases hlast : k = m + 1
    · rw [hlast, hpos c hc, Option.some.injEq] at hwalk
      exact .inr ⟨c, hc, hwalk ▸ ha⟩
    · exact .inl ⟨k, hk, by omega, c, hc, l, hwalk, ha⟩

/-- A loop that ends, ends with chain 0 at its head. -/
theorem benchLoop_tracks {head : Int} {fuel m : Nat} {s s' s'' : Machine}
    (hs' : Decayed chains rings s') (htracks : Tracks (e := e) rings chains s s' m)
    (h : benchLoop pl head fuel s' = some s'') :
    Decayed chains rings s'' ∧ ∃ k, m < k ∧ s''.pos 0 = head ∧
      Tracks (e := e) rings chains s s'' k := by
  induction fuel generalizing m s' with
  | zero => simp [benchLoop] at h
  | succ fuel ih =>
    obtain ⟨s₁, hround, hrest⟩ := Option.bind_eq_some_iff.mp h
    obtain ⟨hs₁, hmoved⟩ := chaseRound_moved pl hs' hround
    have htracks₁ := htracks.succ hmoved
    split at hrest
    · rename_i hend
      simp only [Option.pure_def, Option.some.injEq] at hrest
      subst hrest
      exact ⟨hs₁, m + 1, by omega, hend, htracks₁⟩
    · obtain ⟨hs'', k, hk, hend, htracks₂⟩ := ih hs₁ htracks₁ hrest
      exact ⟨hs'', k, by omega, hend, htracks₂⟩

/-- With every chain on its intact ring the loop ends by the next return of chain 0. -/
theorem benchLoop_some (hchains : 0 < chains) (hclosed : ∀ c < chains, (rings c).Closed (S c))
    (hspare : StoresSpare pl S) {fuel m : Nat} {s s' : Machine}
    (hs' : Intact chains rings S s') (hd : Decayed chains rings s')
    (htracks : Tracks (e := e) rings chains s s' m)
    (hreturn : ∃ k, m < k ∧ k ≤ m + fuel ∧
      walk (rings 0).next (rings 0).root k = some (rings 0).root) :
    ∃ s'', benchLoop pl (rings 0).root fuel s' = some s'' ∧ Intact chains rings S s'' := by
  induction fuel generalizing m s' with
  | zero =>
    obtain ⟨k, hk, hkm, _⟩ := hreturn
    omega
  | succ fuel ih =>
    have hpos : ∀ c < chains, S c (s'.pos c) := by
      intro c hc
      obtain ⟨l, hwalk, hl⟩ := (hclosed c hc).walk_mem m
      rw [htracks.pos_eq c hc, Option.some.injEq] at hwalk
      exact hwalk ▸ hl
    obtain ⟨s₁, hround, hs₁⟩ := chaseRound_some pl hclosed hspare hpos hs' hd
    obtain ⟨hd₁, hmoved⟩ := chaseRound_moved pl hd hround
    have htracks₁ := htracks.succ hmoved
    by_cases hend : s₁.pos 0 = (rings 0).root
    · refine ⟨s₁, ?_, hs₁⟩
      simp [benchLoop, hround, hend]
    · obtain ⟨k, hk, hkm, hwalk⟩ := hreturn
      have hlater : m + 1 < k := by
        by_contra hle
        have hkm' : k = m + 1 := by omega
        rw [hkm', htracks₁.pos_eq 0 hchains, Option.some.injEq] at hwalk
        exact hend hwalk
      obtain ⟨s'', hloop, hs''⟩ := ih hs₁ hd₁ htracks₁ ⟨k, hlater, by omega, hwalk⟩
      refine ⟨s'', ?_, hs''⟩
      simp [benchLoop, hround, hend, hloop]

/-- A call that ends has walked every ring from its root until chain 0 was back. -/
theorem bench_tracks (hchains : 0 < chains) {fuel : Nat} {s s' : Machine}
    (hs : Decayed chains rings s)
    (h : bench pl (fun c => (rings c).root) fuel s = some s') :
    Decayed chains rings s' ∧ ∃ m, 1 ≤ m ∧
      walk (rings 0).next (rings 0).root m = some (rings 0).root ∧
      Tracks (e := e) rings chains s s' m := by
  have hdecayed : Decayed chains rings { s with pos := fun c => (rings c).root } := hs
  obtain ⟨hs', m, hm, hend, htracks⟩ := benchLoop_tracks pl hdecayed (Tracks.start rings s) h
  have hwalk := htracks.pos_eq 0 hchains
  rw [hend] at hwalk
  exact ⟨hs', m, hm, hwalk, htracks⟩

theorem bench_some (hchains : 0 < chains) (hclosed : ∀ c < chains, (rings c).Closed (S c))
    (hspare : StoresSpare pl S) {fuel : Nat} (hreturns : (rings 0).Returns fuel) {s : Machine}
    (hs : Intact chains rings S s) (hd : Decayed chains rings s) :
    ∃ s', bench pl (fun c => (rings c).root) fuel s = some s' ∧ Intact chains rings S s' := by
  obtain ⟨k, hk, hkm, hwalk⟩ := hreturns
  have hlater : ∃ k, 0 < k ∧ k ≤ 0 + fuel ∧
      walk (rings 0).next (rings 0).root k = some (rings 0).root := ⟨k, by omega, by omega, hwalk⟩
  have hintact : Intact chains rings S { s with pos := fun c => (rings c).root } := hs
  have hdecayed : Decayed chains rings { s with pos := fun c => (rings c).root } := hd
  exact benchLoop_some pl hchains hclosed hspare hintact hdecayed (Tracks.start rings s) hlater

/-- Any number of calls returns, leaves the rings intact and only touches what the
operation reaches from a node of a ring. -/
theorem benchCalls_run (hchains : 0 < chains) (hclosed : ∀ c < chains, (rings c).Closed (S c))
    (hspare : StoresSpare pl S) {fuel : Nat} (hreturns : (rings 0).Returns fuel) (calls : Nat) :
    ∃ s, benchCalls pl rings fuel calls = some s ∧ Intact chains rings S s ∧
      Decayed chains rings s ∧ ∀ a ∈ s.log, ∃ c < chains, ∃ l, S c l ∧ AccessAt e c l a := by
  induction calls with
  | zero => exact ⟨_, rfl, fun _ _ _ _ => rfl, fun _ _ _ _ h => h, by simp [Machine.start]⟩
  | succ calls ih =>
    obtain ⟨s, hcalls, hs, hd, hlog⟩ := ih
    obtain ⟨s', hbench, hs'⟩ := bench_some pl hchains hclosed hspare hreturns hs hd
    obtain ⟨hd', m, _, _, htracks⟩ := bench_tracks pl hchains hd hbench
    refine ⟨s', by simp [benchCalls, hcalls, hbench], hs', hd', ?_⟩
    intro a ha
    rcases (htracks.log_iff a).mp ha with hold | ⟨k, _, _, c, hc, l, hwalk, hat⟩
    · exact hlog a hold
    · obtain ⟨l', hwalk', hl'⟩ := (hclosed c hc).walk_mem k
      rw [hwalk, Option.some.injEq] at hwalk'
      exact ⟨c, hc, l, hwalk' ▸ hl', hat⟩

end Rounds

end PChase
