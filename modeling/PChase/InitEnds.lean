import PChase.ChaseBounds
import PChase.ReproducibleDraws
import PChase.StagedThreads

/-!
# The initialisation ends

Where the links are formed in the range of an `int` an initialiser is stuck at nothing but
the mutex, and whoever owns the mutex goes on. Each step takes from what a thread has left
to do, so that all threads get their chains built.
-/

namespace PChase

open CInt CountLoop
set_option autoImplicit false

variable {S : Type} {e : Experiment} {g : Generator S}

theorem randomLinks_congr {d d' : Draws} (hp : e.pagesPerChain < 2147483648)
    (hl : e.linesPerPage < 2147483648) (hfactor : d.pageFactor = d'.pageFactor)
    (hoffset : d.pageOffset = d'.pageOffset)
    (hlines : ∀ i < e.pagesPerChain.toNat,
      d.lineFactor i = d'.lineFactor i ∧ d.lineOffset i = d'.lineOffset i) :
    randomLinks e d = randomLinks e d' := by
  rw [randomLinks_of_lt e d hp hl, randomLinks_of_lt e d' hp hl]
  congr 1
  apply List.map_congr_left
  intro k hk
  obtain ⟨hi, hi'⟩ := hlines (k / e.linesPerPage.toNat)
    (Nat.div_lt_of_lt_mul (Nat.mul_comm _ _ ▸ List.mem_range.mp hk))
  simp only [randomNode, randomLink, hfactor, hoffset, hi, hi']

theorem getD_map_range {α : Type} (f : Nat → α) (x : α) {n k : Nat} (hk : k < n) :
    ((List.range n).map f).getD k x = f k := by
  rw [List.getD_eq_getElem?_getD, List.getElem?_map, List.getElem?_range hk]
  rfl

theorem memInit_chainDraws (hp : e.pagesPerChain < 2147483648) (hl : e.linesPerPage < 2147483648)
    (hrandom : e.accessPattern = .random) (t c : Nat) :
    memInit e (drawnDraws (chainDraws g e.pagesPerChain e.linesPerPage t c)) =
      memInit e (draws e fun k => g.output (g.seed t) (c * drawsPerChain e.pagesPerChain + k)) := by
  have hdraw : ∀ k < drawsPerChain e.pagesPerChain,
      (chainDraws g e.pagesPerChain e.linesPerPage t c).getD k 0 =
        chainDraw g e.pagesPerChain e.linesPerPage t c k := fun k hk => getD_map_range _ 0 hk
  have hsize : drawsPerChain e.pagesPerChain = 2 + 2 * e.pagesPerChain.toNat := rfl
  simp only [memInit, hrandom, randomMemInit]
  rw [randomLinks_congr hp hl]
  · simp only [drawnDraws, draws]
    rw [hdraw 0 (by omega)]
    rfl
  · simp only [drawnDraws, draws]
    rw [hdraw 1 (by omega)]
    rfl
  · intro i hi
    simp only [drawnDraws, draws]
    rw [hdraw _ (by omega), hdraw _ (by omega)]
    have heven : (2 * i + 2) % 2 = 0 := by omega
    have hodd : (2 * i + 3) % 2 ≠ 0 := by omega
    have hlater : 2 * i + 3 ≠ 1 := by omega
    simp only [chainDraw]
    rw [if_pos heven, if_neg hodd, if_neg hlater]
    exact ⟨rfl, rfl⟩

theorem memInit_strided (hstrided : e.accessPattern = .strided) (d d' : Draws) :
    memInit e d = memInit e d' := by
  simp only [memInit, hstrided]

theorem memInit_at_link {p : Platform} {args : List CStr} (ha : parseArgs p args = .accepted e)
    (hfit : e.NodesFit) {start : S} {s : Threads (InitShared S) InitLocal}
    (hs : InitReachable e g start s) {t : Nat} (ht : t < e.numThreads.toNat)
    (hp : (s.locals t).point = .link) :
    ∃ links r, memInit e (drawnDraws (s.locals t).drawn) = some r ∧ buildRing e links = some r ∧
      ∀ l ∈ links, OnRing e l := by
  have hacc := accepted_of_parseArgs ha
  have hmem := fun random hr => memInit_of_fits hacc.sizes hacc.stride_ne hfit random hr
  cases hpattern : e.accessPattern with
  | random =>
    have hexact := hfit.random hpattern
    have hpages := hexact.pages_fit
    have hlines := hexact.lines_fit
    have hown := drawsOwn_of_reachable ha hpattern hs t ht
    have hlen : (s.locals t).drawn.length = drawsPerChain e.pagesPerChain := by
      have hcount := hown.drawn_count
      simpa only [Drawn, hp] using hcount
    have hdrawn := hown.drawn_eq
    rw [hlen] at hdrawn
    rw [hdrawn]
    change ∃ links r, memInit e (drawnDraws (chainDraws g e.pagesPerChain e.linesPerPage t _)) =
      some r ∧ _
    rw [memInit_chainDraws (by omega) (by omega) hpattern]
    exact hmem _ fun _ => g.next_lt _
  | strided =>
    rw [memInit_strided hpattern _ (draws e fun _ => 0)]
    exact hmem _ fun _ => Nat.zero_lt_succ _

def Placed (e : Experiment) (l : InitLocal) : Prop :=
  match l.point with
  | .testPage => e.accessPattern = .random ∧ 0 ≤ l.page
  | .lock .line | .setstate .line | .drawFactor .line | .drawOffset .line | .unlock .line |
    .linkLines => e.accessPattern = .random ∧ 0 ≤ l.page ∧ l.page < e.pagesPerChain
  | .lock .page | .setstate .page | .drawFactor .page | .drawOffset .page | .unlock .page =>
    e.accessPattern = .random
  | _ => True

theorem placed_step {t : Nat} {σ σ' : InitShared S} {l l' : InitLocal}
    (hpages : e.accessPattern = .random → e.pagesPerChain < 2147483648) (hl : Placed e l)
    (h : initStep e g t σ l = some (σ', l')) : Placed e l' := by
  cases initStep_moves h with
  | drawChain hp hlt ha => exact ha
  | @lock c hp | @setstate c hp | @drawFactor c hp | @drawOffset c hp =>
    simp only [Placed, hp] at hl
    cases c
    all_goals exact hl
  | unlockPage hp =>
    simp only [Placed, hp] at hl
    exact ⟨hl, Int.le_refl 0⟩
  | unlockLine hp =>
    simp only [Placed, hp] at hl
    exact hl
  | drawPage hp hlt =>
    simp only [Placed, hp] at hl
    exact ⟨hl.1, hl.2, hlt⟩
  | linkLines hp =>
    simp only [Placed, hp] at hl
    obtain ⟨hrandom, h0, hlt⟩ := hl
    have hlast := hpages hrandom
    have hnext : addStep 1 l.page = l.page + 1 := wrap32_of_bounds (by omega) (by omega)
    refine ⟨hrandom, ?_⟩
    change 0 ≤ addStep 1 l.page
    omega
  | _ => trivial

def chainsLeft (e : Experiment) (chains : Int) : Nat :=
  chains.toNat * (7 * e.pagesPerChain.toNat + 11)

def initLeft (e : Experiment) (l : InitLocal) : Nat :=
  let behind := chainsLeft e (e.chainsPerThread - l.chain - 1)
  let pages := 7 * (e.pagesPerChain - l.page).toNat
  let pagesBehind := 7 * (e.pagesPerChain - l.page - 1).toNat
  match l.point with
  | .finished => 0
  | .testChain => chainsLeft e (e.chainsPerThread - l.chain) + 1
  | .unlockOps => behind + 2
  | .storeOps => behind + 3
  | .lockOps => behind + 4
  | .link => behind + 5
  | .testPage => behind + pages + 6
  | .linkLines => behind + pagesBehind + 7
  | .unlock .line => behind + pagesBehind + 8
  | .drawOffset .line => behind + pagesBehind + 9
  | .drawFactor .line => behind + pagesBehind + 10
  | .setstate .line => behind + pagesBehind + 11
  | .lock .line => behind + pagesBehind + 12
  | .unlock .page => behind + 7 * e.pagesPerChain.toNat + 7
  | .drawOffset .page => behind + 7 * e.pagesPerChain.toNat + 8
  | .drawFactor .page => behind + 7 * e.pagesPerChain.toNat + 9
  | .setstate .page => behind + 7 * e.pagesPerChain.toNat + 10
  | .lock .page => behind + 7 * e.pagesPerChain.toNat + 11

theorem chainsLeft_next {c : Int} (hc : 1 ≤ c) :
    chainsLeft e c = chainsLeft e (c - 1) + (7 * e.pagesPerChain.toNat + 11) := by
  have hsplit : c.toNat = (c - 1).toNat + 1 := by omega
  rw [chainsLeft, chainsLeft, hsplit, Nat.succ_mul]

theorem initLeft_step {t : Nat} {σ σ' : InitShared S} {l l' : InitLocal}
    (hpages : e.accessPattern = .random → e.pagesPerChain < 2147483648)
    (hchains : e.chainsPerThread < 2147483648) (hcount : Counted e l) (hl : Placed e l)
    (h : initStep e g t σ l = some (σ', l')) :
    initLeft e l' < initLeft e l := by
  cases initStep_moves h with
  | drawChain hp hlt | linkChain hp hlt =>
    have hnext := chainsLeft_next (e := e) (c := e.chainsPerThread - l.chain) (by omega)
    simp only [initLeft, InitLocal.goto, hp]
    omega
  | finish hp | leavePages hp | lockOps hp | storeOps hp | unlockLine hp =>
    simp only [initLeft, InitLocal.goto, hp]
    omega
  | @lock c hp | @setstate c hp | @drawFactor c hp | @drawOffset c hp =>
    cases c
    all_goals
      simp only [initLeft, InitLocal.goto, hp]
      omega
  | unlockPage hp =>
    simp only [initLeft, hp]
    omega
  | drawPage hp hlt =>
    simp only [initLeft, InitLocal.goto, hp]
    omega
  | linkLines hp =>
    simp only [Placed, hp] at hl
    obtain ⟨hrandom, h0, hlt⟩ := hl
    have hlast := hpages hrandom
    have hnext : addStep 1 l.page = l.page + 1 := wrap32_of_bounds (by omega) (by omega)
    simp only [initLeft, hp, hnext]
    omega
  | link hp =>
    simp only [initLeft, hp]
    omega
  | unlockOps hp =>
    simp only [Counted, hp] at hcount
    have hnext : addStep 1 l.chain = l.chain + 1 := wrap32_of_bounds (by omega) (by omega)
    have hbehind : e.chainsPerThread - (l.chain + 1) = e.chainsPerThread - l.chain - 1 := by omega
    simp only [initLeft, hp, hnext, hbehind]
    omega

section Run
variable {p : Platform} {args : List CStr} (ha : parseArgs p args = .accepted e) (hfit : e.NodesFit)
  {start : S} {s s' : Threads (InitShared S) InitLocal}
include ha hfit

theorem placed_of_reachable (hs : InitReachable e g start s) :
    ∀ t < e.numThreads.toNat,
      Counted e (s.locals t) ∧ Placed e (s.locals t) ∧
        (e.accessPattern = .random → e.pagesPerChain < 2147483648) := by
  have hchains := (tables_of_parseArgs ha).chainsPerThread_lt
  have hpos := (accepted_of_parseArgs ha).chainsPerThread_pos
  have hpages : e.accessPattern = .random → e.pagesPerChain < 2147483648 := by
    intro hrandom
    have hpages := (hfit.random hrandom).pages_fit
    omega
  have hall := Threads.Run.invariant (I := fun _ _ l => Counted e l ∧ Placed e l)
    (fun _ hl h => ⟨counted_step hchains hl.1 h, placed_step hpages hl.2 h⟩) (fun _ _ hu _ => hu) hs
    (fun _ _ => by
      refine ⟨?_, trivial⟩
      simp only [Counted, initialThreads, List.length_nil]
      omega)
  exact fun t ht => ⟨(hall t ht).1, (hall t ht).2, hpages⟩

theorem initLeft_decreases (hs : InitReachable e g start s)
    (hstep : Threads.Step (initStep e g) e.numThreads.toNat s s') :
    totalLeft (initLeft e) e.numThreads.toNat s'.locals <
      totalLeft (initLeft e) e.numThreads.toNat s.locals := by
  cases hstep with
  | mk t r ht h =>
    obtain ⟨hcount, hplaced, hpages⟩ := placed_of_reachable ha hfit hs t ht
    exact totalLeft_update ht
      (initLeft_step hpages (tables_of_parseArgs ha).chainsPerThread_lt hcount hplaced h)

/-- A thread in a section goes on, and so does every other one while nobody owns the mutex. -/
theorem initStep_go_on (hs : InitReachable e g start s) {t : Nat} (ht : t < e.numThreads.toNat)
    (hlock : (s.locals t).point.isInside = true ∨ s.shared.owner = none)
    (hp : (s.locals t).point ≠ .finished) :
    ∃ r, initStep e g t s.shared (s.locals t) = some r := by
  obtain ⟨_, hplaced, _⟩ := placed_of_reachable ha hfit hs t ht
  cases hpoint : (s.locals t).point with
  | finished => exact absurd hpoint hp
  | testChain | testPage =>
    simp only [initStep, hpoint]
    split
    all_goals first | exact ⟨_, rfl⟩ | (split <;> exact ⟨_, rfl⟩)
  | setstate c | drawFactor c | storeOps | unlockOps =>
    simp only [initStep, hpoint]
    exact ⟨_, rfl⟩
  | unlock c =>
    simp only [initStep, hpoint]
    cases c
    all_goals exact ⟨_, rfl⟩
  | drawOffset c =>
    have hsize : c.size e ≠ 0 := by
      cases c with
      | page =>
        simp only [Placed, hpoint] at hplaced
        have hpos := (hfit.random hplaced).pages_pos
        simp only [Section.size]
        omega
      | line =>
        simp only [Placed, hpoint] at hplaced
        have hpos := (hfit.random hplaced.1).lines_pos
        simp only [Section.size]
        omega
    simp only [initStep, hpoint, if_neg hsize]
    exact ⟨_, rfl⟩
  | lock c | lockOps =>
    rw [hpoint] at hlock
    have hfree : s.shared.owner = none := by simpa [InitPoint.isInside] using hlock
    simp only [initStep, hpoint, if_pos hfree]
    exact ⟨_, rfl⟩
  | linkLines =>
    simp only [Placed, hpoint] at hplaced
    have hlines := (hfit.random hplaced.1).lines_fit
    simp only [initStep, hpoint, countUp_of_lt (show e.linesPerPage < 2147483648 by omega)]
    exact ⟨_, rfl⟩
  | link =>
    obtain ⟨_, r, hr, _⟩ := memInit_at_link ha hfit hs ht hpoint
    simp only [initStep, hpoint, hr]
    exact ⟨_, rfl⟩

theorem init_go_on (hs : InitReachable e g start s) :
    (∀ t < e.numThreads.toNat, (s.locals t).point = .finished) ∨
      ∃ s', Threads.Step (initStep e g) e.numThreads.toNat s s' := by
  have hholds := (globalMutex e g).invariant (I := fun _ _ _ => True) (fun _ _ _ => trivial)
    (fun _ _ _ _ _ => trivial) hs rfl
    (fun _ _ h => by simp [globalMutex, initialThreads, InitPoint.isInside] at h)
    fun _ _ => trivial
  apply (globalMutex e g).go_on (fun l => l.point = .finished) fun t ht => (hholds t ht).1
  · exact (globalMutex e g).owner_lt hs rfl
  · intro t ht hin
    refine initStep_go_on ha hfit hs ht (.inl hin) ?_
    intro hp
    change (s.locals t).point.isInside = true at hin
    rw [hp] at hin
    simp [InitPoint.isInside] at hin
  · exact fun hfree t ht hp => initStep_go_on ha hfit hs ht (.inr hfree) hp

end Run

end PChase
