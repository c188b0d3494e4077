import PChase.ChaseInside
import PChase.ChasePointers
import PChase.InitEnds
import PChase.RunThreads
import PChase.WorkCount

/-!
# Which calls of `bench` return

A thread comes to its calls with the code it has generated and the chains it has built.
Where the accesses stay inside the blocks every call returns, however many there were
before.
-/

namespace PChase

open CInt NextWalk
set_option autoImplicit false

variable {S : Type} {e : Experiment} {g : Generator S}

/-- A thread that has made so many calls on its rings comes back from the next one. -/
def CallReturns (pl : Placement e e.chains) (l : InitLocal) (made : Nat) : Prop :=
  ∃ fuel s, benchCalls pl l.ring fuel (made + 1) = some s

/-- What a thread needs for its next step behind the initialisation: its code, and where
the step is a call, that it returns. -/
def MayGoOn (pl : Nat → Placement e e.chains) (t : Nat) (l : InitLocal) (k : RunLocal) : Prop :=
  (chasePointers e).isSome ∧ (k.point.isCall = true → CallReturns (pl t) l k.made)

section Rings
variable {p : Platform} {args : List CStr} (ha : parseArgs p args = .accepted e) (hfit : e.NodesFit)
  {start : S} {s : Threads (InitShared S) InitLocal} (hs : InitReachable e g start s)
include ha hfit hs

theorem built_on_ring : ∀ t < e.numThreads.toNat, ∀ b ∈ (s.locals t).built,
    ∃ links, buildRing e links = some b.ring ∧ ∀ l ∈ links, OnRing e l := by
  unfold InitReachable at hs
  induction hs with
  | refl => simp [initialThreads]
  | @tail x _ hrun hstep ih =>
    cases hstep with
    | mk t r ht h =>
      obtain ⟨σ, l⟩ := r
      intro u hu b hb
      by_cases hut : u = t
      · subst hut
        simp only [Threads.advance, Function.update_self] at hb
        have hold : b ∈ (x.locals u).built → ∃ links, buildRing e links = some b.ring ∧
            ∀ l ∈ links, OnRing e l := ih u hu b
        cases initStep_moves h with
        | link hp hr =>
          rcases List.mem_append.mp hb with hb | hb
          · exact hold hb
          · obtain ⟨links, r, hr', hbuild, hring⟩ := memInit_at_link ha hfit hrun hu hp
            rw [hr, Option.some.injEq] at hr'
            rw [List.mem_singleton.mp hb]
            exact ⟨links, hr' ▸ hbuild, hring⟩
        | _ => exact hold hb
      · simp only [Threads.advance, Function.update_of_ne hut] at hb
        exact ih u hu b hb

theorem callReturns_of_fits (hstores : e.StoresFit) (pl : Placement e e.chains) {t : Nat}
    (ht : t < e.numThreads.toNat) (hp : (s.locals t).point = .finished) (made : Nat) :
    CallReturns pl (s.locals t) made := by
  have hacc := accepted_of_parseArgs ha
  have hcount := finished_of_reachable ha hs ht hp
  have hchains := hacc.chainsPerThread_pos
  have hbuilt := built_on_ring ha hfit hs t ht
  have hrings : ∀ c : Nat, ∃ links, c < e.chains →
      buildRing e links = some ((s.locals t).ring c) ∧ ∀ l ∈ links, OnRing e l := by
    intro c
    by_cases hc : c < e.chains
    · have hlt : c < (s.locals t).built.length := by
        unfold Experiment.chains at hc
        omega
      obtain ⟨links, hlinks⟩ := hbuilt _ (List.getElem_mem hlt)
      refine ⟨links, fun _ => ?_⟩
      rw [InitLocal.ring, List.getElem?_eq_getElem hlt]
      exact hlinks
    · exact ⟨[], fun h => absurd h hc⟩
  choose links hlinks using hrings
  have hpos : 0 < e.chains := by
    unfold Experiment.chains
    omega
  obtain ⟨m, hm, _⟩ := chase_run hacc.sizes hacc.stride_ne hfit hstores hpos pl
    (fun c hc => (hlinks c hc).1) (fun c hc => (hlinks c hc).2) (made + 1)
  exact ⟨_, m, hm⟩

/-- Where the accesses fit a thread is held up by nothing but the others. -/
theorem mayGoOn_of_fits (hfan : e.FanOutFits) (hloop : e.loopLength < 2147483648)
    (pl : Nat → Placement e e.chains) {t : Nat} (ht : t < e.numThreads.toNat)
    (hp : (s.locals t).point = .finished) (k : RunLocal) : MayGoOn pl t (s.locals t) k := by
  have hcode := chasePointers_eq (tables_of_parseArgs ha).chainsPerThread_lt hloop
  refine ⟨by rw [hcode]; rfl, fun _ => ?_⟩
  exact callReturns_of_fits ha hfit hs (storesFit_of_fanOut (accepted_of_parseArgs ha).sizes hfit hfan)
    (pl t) ht hp k.made

end Rings

end PChase
