import PChase.Accepted
import PChase.Interleaving
import PChase.MemInit
import PChase.SwitchedGenerator

/-!
# The threads initialise their chains

The loop over the chains of a thread in `Run::run`, with the sections of the initialisers
that `Run::global_mutex` guards: `random_mem_init` draws a factor and an offset before its
loop over the pages and again for every page, and every initialiser ends by storing
`_ops_per_chain`. The loops over lines touch nothing that is shared.
-/

namespace PChase

open CInt CountLoop
set_option autoImplicit false

variable {S : Type}

/-- The two places where `random_mem_init` draws. -/
inductive Section where
  | page
  | line
  deriving Repr, DecidableEq

inductive InitPoint where
  /-- `i < exp->chains_per_thread` -/
  | testChain
  | lock (c : Section)
  | setstate (c : Section)
  | drawFactor (c : Section)
  | drawOffset (c : Section)
  | unlock (c : Section)
  /-- `i < exp->pages_per_chain` -/
  | testPage
  /-- the loop over the lines of a page -/
  | linkLines
  /-- `prev->next = root` -/
  | link
  | lockOps
  | storeOps
  | unlockOps
  | finished
  deriving Repr, DecidableEq

/-- What a thread drew for a chain, in order, and the ring it built. -/
structure BuiltChain where
  drawn : List Int
  ring : Ring

/-- The mutex, the generator with its buffers and `Run::_ops_per_chain`; the buffer of
thread `t` is `some t`, and `none` is the one the process starts with. -/
structure InitShared (S : Type) where
  owner : Option Nat := none
  gen : Buffers (Option Nat) S
  opsPerChain : Int := 0

/-- The variables of one thread; `drawn` and `built` record what it did. -/
structure InitLocal where
  point : InitPoint := .testChain
  chain : Int := 0
  page : Int := 0
  localOpsPerChain : Int := 0
  drawn : List Int := []
  built : List BuiltChain := []

def InitLocal.goto (l : InitLocal) (p : InitPoint) : InitLocal := { l with point := p }

def Section.size (e : Experiment) : Section → Int
  | .page => e.pagesPerChain
  | .line => e.linesPerPage

def drawnDraws (drawn : List Int) : Draws where
  pageFactor := drawn.getD 0 0
  pageOffset := drawn.getD 1 0
  lineFactor i := drawn.getD (2 * i + 2) 0
  lineOffset i := drawn.getD (2 * i + 3) 0

/-- One step of thread `t`, unless it waits for the mutex, has no result or has finished
its chains. -/
def initStep (e : Experiment) (g : Generator S) (t : Nat) (σ : InitShared S) (l : InitLocal) :
    Option (InitShared S × InitLocal) :=
  match l.point with
  | .testChain =>
    if l.chain < e.chainsPerThread then
      match e.accessPattern with
      | .random => some (σ, l.goto (.lock .page))
      | .strided => some (σ, l.goto .link)
    else some (σ, l.goto .finished)
  | .lock c =>
    if σ.owner = none then some ({ σ with owner := some t }, l.goto (.setstate c)) else none
  | .setstate c => some ({ σ with gen := σ.gen.setstate (some t) }, l.goto (.drawFactor c))
  | .drawFactor c =>
    let (gen, r) := σ.gen.random g
    some ({ σ with gen }, { l with point := .drawOffset c, drawn := l.drawn ++ [drawFactor r] })
  | .drawOffset c =>
    -- a remainder by zero has no value
    if c.size e = 0 then none
    else
      let (gen, r) := σ.gen.random g
      some ({ σ with gen },
        { l with point := .unlock c, drawn := l.drawn ++ [drawOffset (c.size e) r] })
  | .unlock .page => some ({ σ with owner := none }, { l with point := .testPage, page := 0 })
  | .unlock .line => some ({ σ with owner := none }, l.goto .linkLines)
  | .testPage =>
    if l.page < e.pagesPerChain then some (σ, l.goto (.lock .line)) else some (σ, l.goto .link)
  | .linkLines => do
    let _ ← countUp e.linesPerPage
    return (σ, { l with point := .testPage, page := addStep 1 l.page })
  | .link => do
    let r ← memInit e (drawnDraws l.drawn)
    return (σ, { l with
      point := .lockOps, localOpsPerChain := r.opsPerChain, drawn := [],
      built := l.built ++ [⟨l.drawn, r⟩] })
  | .lockOps =>
    if σ.owner = none then some ({ σ with owner := some t }, l.goto .storeOps) else none
  | .storeOps => some ({ σ with opsPerChain := l.localOpsPerChain }, l.goto .unlockOps)
  | .unlockOps =>
    some ({ σ with owner := none }, { l with point := .testChain, chain := addStep 1 l.chain })
  | .finished => none

def InitPoint.isInside : InitPoint → Bool
  | .setstate _ | .drawFactor _ | .drawOffset _ | .unlock _ | .storeOps | .unlockOps => true
  | _ => false

/-- The buffers as `parse_args` leaves them: `initstate` for each thread in turn. -/
def initBuffers (g : Generator S) (start : S) (seeds : List Int) : Buffers (Option Nat) S :=
  seeds.zipIdx.foldl (fun gen entry => gen.initstate (some entry.2) (g.seed entry.1))
    ⟨none, start, fun _ => start⟩

def initialThreads (e : Experiment) (g : Generator S) (start : S) : Threads (InitShared S) InitLocal :=
  ⟨{ gen := initBuffers g start e.randomState }, fun _ => {}⟩

/-- The states of the threads of `e`, in any order of their steps. -/
def InitReachable (e : Experiment) (g : Generator S) (start : S)
    (s : Threads (InitShared S) InitLocal) : Prop :=
  Threads.Run (initStep e g) e.numThreads.toNat (initialThreads e g start) s

variable {e : Experiment} {g : Generator S} {t : Nat} {σ σ' : InitShared S} {l l' : InitLocal}

inductive InitMove (e : Experiment) (g : Generator S) (t : Nat) (σ : InitShared S)
    (l : InitLocal) : InitShared S → InitLocal → Prop where
  | drawChain (hp : l.point = .testChain) (hlt : l.chain < e.chainsPerThread)
      (ha : e.accessPattern = .random) : InitMove e g t σ l σ (l.goto (.lock .page))
  | linkChain (hp : l.point = .testChain) (hlt : l.chain < e.chainsPerThread)
      (ha : e.accessPattern = .strided) : InitMove e g t σ l σ (l.goto .link)
  | finish (hp : l.point = .testChain) (hge : ¬ l.chain < e.chainsPerThread) :
      InitMove e g t σ l σ (l.goto .finished)
  | lock {c : Section} (hp : l.point = .lock c) (hfree : σ.owner = none) :
      InitMove e g t σ l { σ with owner := some t } (l.goto (.setstate c))
  | setstate {c : Section} (hp : l.point = .setstate c) :
      InitMove e g t σ l { σ with gen := σ.gen.setstate (some t) } (l.goto (.drawFactor c))
  | drawFactor {c : Section} (hp : l.point = .drawFactor c) :
      InitMove e g t σ l { σ with gen := (σ.gen.random g).1 }
        { l with point := .drawOffset c, drawn := l.drawn ++ [drawFactor (σ.gen.random g).2] }
  | drawOffset {c : Section} (hp : l.point = .drawOffset c) :
      InitMove e g t σ l { σ with gen := (σ.gen.random g).1 }
        { l with
          point := .unlock c, drawn := l.drawn ++ [drawOffset (c.size e) (σ.gen.random g).2] }
  | unlockPage (hp : l.point = .unlock .page) :
      InitMove e g t σ l { σ with owner := none } { l with point := .testPage, page := 0 }
  | unlockLine (hp : l.point = .unlock .line) :
      InitMove e g t σ l { σ with owner := none } (l.goto .linkLines)
  | drawPage (hp : l.point = .testPage) (hlt : l.page < e.pagesPerChain) :
      InitMove e g t σ l σ (l.goto (.lock .line))
  | leavePages (hp : l.point = .testPage) (hge : ¬ l.page < e.pagesPerChain) :
      InitMove e g t σ l σ (l.goto .link)
  | linkLines (hp : l.point = .linkLines) :
      InitMove e g t σ l σ { l with point := .testPage, page := addStep 1 l.page }
  | link {r : Ring} (hp : l.point = .link) (hr : memInit e (drawnDraws l.drawn) = some r) :
      InitMove e g t σ l σ { l with
        point := .lockOps, localOpsPerChain := r.opsPerChain, drawn := [],
        built := l.built ++ [⟨l.drawn, r⟩] }
  | lockOps (hp : l.point = .lockOps) (hfree : σ.owner = none) :
      InitMove e g t σ l { σ with owner := some t } (l.goto .storeOps)
  | storeOps (hp : l.point = .storeOps) :
      InitMove e g t σ l { σ with opsPerChain := l.localOpsPerChain } (l.goto .unlockOps)
  | unlockOps (hp : l.point = .unlockOps) :
      InitMove e g t σ l { σ with owner := none }
        { l with point := .testChain, chain := addStep 1 l.chain }

theorem initStep_moves (h : initStep e g t σ l = some (σ', l')) : InitMove e g t σ l σ' l' := by
  cases hp : l.point
  all_goals simp only [initStep, hp] at h
  case testChain =>
    split at h
    · rename_i hlt
      split at h
      · rename_i ha
        obtain ⟨rfl, rfl⟩ := Prod.mk.inj (Option.some.inj h)
        exact .drawChain hp hlt ha
      · rename_i ha
        obtain ⟨rfl, rfl⟩ := Prod.mk.inj (Option.some.inj h)
        exact .linkChain hp hlt ha
    · rename_i hge
      obtain ⟨rfl, rfl⟩ := Prod.mk.inj (Option.some.inj h)
      exact .finish hp hge
  case lock c =>
    split at h
    · rename_i hfree
      obtain ⟨rfl, rfl⟩ := Prod.mk.inj (Option.some.inj h)
      exact .lock hp hfree
    · simp at h
  case setstate c =>
    obtain ⟨rfl, rfl⟩ := Prod.mk.inj (Option.some.inj h)
    exact .setstate hp
  case drawFactor c =>
    obtain ⟨rfl, rfl⟩ := Prod.mk.inj (Option.some.inj h)
    exact .drawFactor hp
  case drawOffset c =>
    split at h
    · simp at h
    · obtain ⟨rfl, rfl⟩ := Prod.mk.inj (Option.some.inj h)
      exact .drawOffset hp
  case unlock c =>
    cases c with
    | page =>
      obtain ⟨rfl, rfl⟩ := Prod.mk.inj (Option.some.inj h)
      exact .unlockPage hp
    | line =>
      obtain ⟨rfl, rfl⟩ := Prod.mk.inj (Option.some.inj h)
      exact .unlockLine hp
  case testPage =>
    split at h
    · rename_i hlt
      obtain ⟨rfl, rfl⟩ := Prod.mk.inj (Option.some.inj h)
      exact .drawPage hp hlt
    · rename_i hge
      obtain ⟨rfl, rfl⟩ := Prod.mk.inj (Option.some.inj h)
      exact .leavePages hp hge
  case linkLines =>
    obtain ⟨_, _, hrest⟩ := Option.bind_eq_some_iff.mp h
    obtain ⟨rfl, rfl⟩ := Prod.mk.inj (Option.some.inj hrest)
    exact .linkLines hp
  case link =>
    obtain ⟨r, hr, hrest⟩ := Option.bind_eq_some_iff.mp h
    obtain ⟨rfl, rfl⟩ := Prod.mk.inj (Option.some.inj hrest)
    exact .link hp hr
  case lockOps =>
    split at h
    · rename_i hfree
      obtain ⟨rfl, rfl⟩ := Prod.mk.inj (Option.some.inj h)
      exact .lockOps hp hfree
    · simp at h
  case storeOps =>
    obtain ⟨rfl, rfl⟩ := Prod.mk.inj (Option.some.inj h)
    exact .storeOps hp
  case unlockOps =>
    obtain ⟨rfl, rfl⟩ := Prod.mk.inj (Option.some.inj h)
    exact .unlockOps hp
  case finished => simp at h

theorem initStep_owner (h : initStep e g t σ l = some (σ', l')) :
    (l'.point.isInside = l.point.isInside ∧ σ'.owner = σ.owner) ∨
      (l.point.isInside = false ∧ l'.point.isInside = true ∧ σ.owner = none ∧ σ'.owner = some t) ∨
      (l.point.isInside = true ∧ l'.point.isInside = false ∧ σ'.owner = none) := by
  cases initStep_moves h with
  | lock hp hfree | lockOps hp hfree =>
    rw [hp]
    exact .inr (.inl ⟨rfl, rfl, hfree, rfl⟩)
  | unlockPage hp | unlockLine hp | unlockOps hp =>
    rw [hp]
    exact .inr (.inr ⟨rfl, rfl, rfl⟩)
  | _ hp =>
    rw [hp]
    exact .inl ⟨rfl, rfl⟩

def globalMutex (e : Experiment) (g : Generator S) : Mutex (initStep e g) where
  owner := InitShared.owner
  inside l := l.point.isInside = true
  enter h hout := by
    rcases initStep_owner h with ⟨hsame, howner⟩ | ⟨_, hin, hfree, howner⟩ | ⟨hin, _⟩
    · exact .inl ⟨hsame ▸ hout, howner⟩
    · exact .inr ⟨hin, hfree, howner⟩
    · exact absurd hin hout
  leave h hin := by
    rcases initStep_owner h with ⟨hsame, howner⟩ | ⟨hout, _⟩ | ⟨_, hout, howner⟩
    · exact .inl ⟨hsame ▸ hin, howner⟩
    · rw [hin] at hout
      simp at hout
    · exact .inr ⟨by simp [hout], howner⟩

/-- Only a thread inside a section changes the generator, and the buffer in use stays
until somebody else is inside. -/
theorem initStep_gen (h : initStep e g t σ l = some (σ', l')) :
    σ'.gen = σ.gen ∨ (∃ c, l.point = .setstate c ∧ σ'.gen = σ.gen.setstate (some t)) ∨
      ∃ c, (l.point = .drawFactor c ∨ l.point = .drawOffset c) ∧ σ'.gen = (σ.gen.random g).1 := by
  cases initStep_moves h with
  | setstate hp => exact .inr (.inl ⟨_, hp, rfl⟩)
  | drawFactor hp => exact .inr (.inr ⟨_, .inl hp, rfl⟩)
  | drawOffset hp => exact .inr (.inr ⟨_, .inr hp, rfl⟩)
  | _ => exact .inl rfl

def Counted (e : Experiment) (l : InitLocal) : Prop :=
  match l.point with
  | .testChain => (l.built.length : Int) = l.chain ∧ l.chain ≤ e.chainsPerThread
  | .lockOps | .storeOps | .unlockOps =>
    (l.built.length : Int) = l.chain + 1 ∧ l.chain < e.chainsPerThread
  | .finished => (l.built.length : Int) = e.chainsPerThread
  | _ => (l.built.length : Int) = l.chain ∧ l.chain < e.chainsPerThread

theorem counted_step (hlt : e.chainsPerThread < 2147483648) (hl : Counted e l)
    (h : initStep e g t σ l = some (σ', l')) : Counted e l' := by
  cases initStep_moves h with
  | drawChain hp hchain | linkChain hp hchain =>
    simp only [Counted, hp] at hl
    exact ⟨hl.1, hchain⟩
  | finish hp hge =>
    simp only [Counted, hp] at hl
    simp only [Counted, InitLocal.goto]
    omega
  | link hp =>
    simp only [Counted, hp] at hl
    simp only [Counted, List.length_append, List.length_singleton]
    omega
  | unlockOps hp =>
    simp only [Counted, hp] at hl
    have hnext : addStep 1 l.chain = l.chain + 1 := wrap32_of_bounds (by omega) (by omega)
    simp only [Counted, hnext]
    omega
  | _ hp =>
    simp only [Counted, hp] at hl
    exact hl

theorem finished_of_reachable {p : Platform} {args : List CStr}
    (ha : parseArgs p args = .accepted e) {start : S} {s : Threads (InitShared S) InitLocal}
    (hs : InitReachable e g start s) (ht : t < e.numThreads.toNat)
    (hfinished : (s.locals t).point = .finished) :
    ((s.locals t).built.length : Int) = e.chainsPerThread := by
  have hlt := (tables_of_parseArgs ha).chainsPerThread_lt
  have hpos := (accepted_of_parseArgs ha).chainsPerThread_pos
  have hall := Threads.Run.invariant (I := fun _ _ l => Counted e l)
    (fun _ hl h => counted_step hlt hl h) (fun _ _ hu _ => hu) hs (fun _ _ => by
      simp only [Counted, initialThreads, List.length_nil]
      omega)
  have hcount := hall t ht
  simpa only [Counted, hfinished] using hcount

end PChase
