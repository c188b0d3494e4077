import PChase.InitThreads

/-!
# Every thread draws from its own buffer

Each section puts the buffer of its thread in use before it draws, and the mutex keeps the
others away until it is done. So the numbers a thread draws are those of its own seed, one
after the other, however the sections of all threads follow each other.
-/

namespace PChase

open CInt CountLoop
set_option autoImplicit false

variable {S : Type}

def drawsPerChain (pages : Int) : Nat := 2 + 2 * pages.toNat

/-- Draw `k` of chain `c`, a function of the thread's number and the two sizes. -/
def chainDraw (g : Generator S) (pages lines : Int) (t c k : Nat) : Int :=
  let r := g.output (g.seed t) (c * drawsPerChain pages + k)
  if k % 2 = 0 then drawFactor r else drawOffset (if k = 1 then pages else lines) r

def chainDraws (g : Generator S) (pages lines : Int) (t c : Nat) : List Int :=
  (List.range (drawsPerChain pages)).map (chainDraw g pages lines t c)

section Buffers
variable (g : Generator S)

theorem initstate_all (seeds : List Int) (k t : Nat) (gen : Buffers (Option Nat) S) :
    ((seeds.zipIdx k).foldl (fun gen entry => gen.initstate (some entry.2) (g.seed entry.1))
      gen).state (some t) =
        if k ≤ t then (seeds[t - k]?).elim (gen.state (some t)) g.seed else gen.state (some t) := by
  induction seeds generalizing k gen with
  | nil => simp
  | cons seed seeds ih =>
    rw [List.zipIdx_cons, List.foldl_cons, ih, Buffers.initstate_state]
    by_cases hkt : k + 1 ≤ t
    · have hsplit : t - k = (t - (k + 1)) + 1 := by omega
      have hne : some t ≠ some k := by
        rw [ne_eq, Option.some.injEq]
        omega
      have hle : k ≤ t := by omega
      rw [if_pos hkt, if_pos hle, hsplit, List.getElem?_cons_succ, if_neg hne]
    · by_cases heq : t = k
      · subst t
        simp
      · have hne : some t ≠ some k := by
          rw [ne_eq, Option.some.injEq]
          exact heq
        have hnle : ¬ k ≤ t := by omega
        rw [if_neg hkt, if_neg hnle, if_neg hne]

theorem initBuffers_state (start : S) {n t : Nat} (ht : t < n) :
    (initBuffers g start ((List.range n).map fun t : Nat => (t : Int))).state (some t) =
      g.seed t := by
  have h := initstate_all g ((List.range n).map fun t : Nat => (t : Int)) 0 t
    ⟨none, start, fun _ => start⟩
  rw [initBuffers, h]
  simp [ht]

end Buffers

section Threads
variable (e : Experiment) (g : Generator S)

def AtPage (l : InitLocal) (k : Nat) : Prop :=
  l.page = (addStep 1)^[k] 0 ∧ ∀ j < k, (addStep 1)^[j] 0 < e.pagesPerChain

def Drawn (l : InitLocal) : Prop :=
  match l.point with
  | .drawOffset .page => l.drawn.length = 1
  | .unlock .page => l.drawn.length = 2
  | .testPage => ∃ k, AtPage e l k ∧ l.drawn.length = 2 + 2 * k
  | .lock .line | .setstate .line | .drawFactor .line =>
    ∃ k, AtPage e l k ∧ l.page < e.pagesPerChain ∧ l.drawn.length = 2 + 2 * k
  | .drawOffset .line => ∃ k, AtPage e l k ∧ l.page < e.pagesPerChain ∧ l.drawn.length = 3 + 2 * k
  | .unlock .line | .linkLines =>
    ∃ k, AtPage e l k ∧ l.page < e.pagesPerChain ∧ l.drawn.length = 4 + 2 * k
  | .link => l.drawn.length = drawsPerChain e.pagesPerChain
  | _ => l.drawn.length = 0

/-- A thread has drawn the numbers of its own seed and has built its rings from them; where
it draws next, its buffer is in use. -/
structure DrawsOwn (t : Nat) (σ : InitShared S) (l : InitLocal) : Prop where
  state_eq : σ.gen.state (some t) =
    g.after (g.seed t) (l.built.length * drawsPerChain e.pagesPerChain + l.drawn.length)
  drawn_eq : l.drawn = (List.range l.drawn.length).map
    (chainDraw g e.pagesPerChain e.linesPerPage t l.built.length)
  built_eq : ∀ c b, l.built[c]? = some b →
    b.drawn = chainDraws g e.pagesPerChain e.linesPerPage t c ∧
      memInit e (drawnDraws b.drawn) = some b.ring
  current_eq : ∀ c, l.point = .drawFactor c ∨ l.point = .drawOffset c → σ.gen.current = some t
  drawn_count : Drawn e l

variable {e g} {t : Nat} {σ σ' : InitShared S} {l l' : InitLocal}

theorem initStep_record (h : initStep e g t σ l = some (σ', l')) :
    (σ'.gen.state (some t) = σ.gen.state (some t) ∧ l'.drawn = l.drawn ∧ l'.built = l.built ∧
        l.point ≠ .link) ∨
      (∃ r, l.point = .link ∧ memInit e (drawnDraws l.drawn) = some r ∧ σ'.gen = σ.gen ∧
        l'.drawn = [] ∧ l'.built = l.built ++ [⟨l.drawn, r⟩]) ∨
      ∃ c x, (l.point = .drawFactor c ∧ x = drawFactor (σ.gen.random g).2 ∨
          l.point = .drawOffset c ∧ x = drawOffset (c.size e) (σ.gen.random g).2) ∧
        σ'.gen = (σ.gen.random g).1 ∧ l'.drawn = l.drawn ++ [x] ∧ l'.built = l.built := by
  cases initStep_moves h with
  | setstate hp => exact .inl ⟨by simp, rfl, rfl, by simp [hp]⟩
  | drawFactor hp => exact .inr (.inr ⟨_, _, .inl ⟨hp, rfl⟩, rfl, rfl, rfl⟩)
  | drawOffset hp => exact .inr (.inr ⟨_, _, .inr ⟨hp, rfl⟩, rfl, rfl, rfl⟩)
  | link hp hr => exact .inr (.inl ⟨_, hp, hr, rfl, rfl, rfl⟩)
  | _ hp => exact .inl ⟨rfl, rfl, rfl, by simp [hp]⟩

theorem drawn_step (hrandom : e.accessPattern = .random) (hd : Drawn e l)
    (h : initStep e g t σ l = some (σ', l')) : Drawn e l' := by
  cases initStep_moves h with
  | drawChain hp | finish hp | unlockLine hp | lockOps hp | storeOps hp | unlockOps hp =>
    simp only [Drawn, hp] at hd
    exact hd
  | linkChain hp hlt ha =>
    rw [hrandom] at ha
    simp at ha
  | @lock c hp | @setstate c hp =>
    simp only [Drawn, hp] at hd
    cases c
    all_goals exact hd
  | @drawFactor c hp | @drawOffset c hp =>
    simp only [Drawn, hp] at hd
    cases c with
    | page => simp [Drawn, hd]
    | line =>
      obtain ⟨k, hk, hpage, hlen⟩ := hd
      refine ⟨k, hk, hpage, ?_⟩
      simp only [List.length_append, List.length_singleton]
      omega
  | unlockPage hp =>
    simp only [Drawn, hp] at hd
    exact ⟨0, ⟨rfl, by simp⟩, hd⟩
  | drawPage hp hlt =>
    simp only [Drawn, hp] at hd
    obtain ⟨k, hk, hlen⟩ := hd
    exact ⟨k, hk, hlt, hlen⟩
  | leavePages hp hge =>
    simp only [Drawn, hp] at hd
    obtain ⟨k, ⟨hpage, hbefore⟩, hlen⟩ := hd
    have hk := countUp_exit hbefore (hpage ▸ hge)
    simp [Drawn, InitLocal.goto, drawsPerChain, hlen, hk]
  | linkLines hp =>
    simp only [Drawn, hp] at hd
    obtain ⟨k, ⟨hpage, hbefore⟩, hlt, hlen⟩ := hd
    refine ⟨k + 1, ⟨?_, ?_⟩, ?_⟩
    · rw [Function.iterate_succ_apply', ← hpage]
    · intro j hj
      by_cases hjk : j = k
      · rw [hjk, ← hpage]
        exact hlt
      · exact hbefore j (by omega)
    · change l.drawn.length = 2 + 2 * (k + 1)
      omega
  | link => simp [Drawn]

theorem chainDraw_of_drawn (hd : Drawn e l) {c : Section} {r : Nat}
    (hr : r = g.output (g.seed t) (l.built.length * drawsPerChain e.pagesPerChain + l.drawn.length)) :
    (l.point = .drawFactor c → chainDraw g e.pagesPerChain e.linesPerPage t l.built.length
        l.drawn.length = drawFactor r) ∧
      (l.point = .drawOffset c → chainDraw g e.pagesPerChain e.linesPerPage t l.built.length
        l.drawn.length = drawOffset (c.size e) r) := by
  constructor
  · intro hp
    have heven : l.drawn.length % 2 = 0 := by
      cases c with
      | page =>
        simp only [Drawn, hp] at hd
        omega
      | line =>
        simp only [Drawn, hp] at hd
        obtain ⟨k, _, _, hlen⟩ := hd
        omega
    rw [chainDraw, ← hr, if_pos heven]
  · intro hp
    cases c with
    | page =>
      simp only [Drawn, hp] at hd
      rw [chainDraw, ← hr, hd]
      rfl
    | line =>
      simp only [Drawn, hp] at hd
      obtain ⟨k, _, _, hlen⟩ := hd
      rw [chainDraw, ← hr, if_neg (by omega), if_neg (by omega)]
      rfl

theorem DrawsOwn.draw (h : DrawsOwn e g t σ l) {c : Section} {x : Int}
    (hx : l.point = .drawFactor c ∧ x = drawFactor (σ.gen.random g).2 ∨
      l.point = .drawOffset c ∧ x = drawOffset (c.size e) (σ.gen.random g).2) :
    (σ.gen.random g).1.state (some t) = g.after (g.seed t)
        (l.built.length * drawsPerChain e.pagesPerChain + (l.drawn.length + 1)) ∧
      x = chainDraw g e.pagesPerChain e.linesPerPage t l.built.length l.drawn.length := by
  have hcurrent : σ.gen.current = some t := by
    rcases hx with ⟨hp, _⟩ | ⟨hp, _⟩
    · exact h.current_eq c (.inl hp)
    · exact h.current_eq c (.inr hp)
  have hrandom := σ.gen.random_state g
  rw [hcurrent, h.state_eq] at hrandom
  obtain ⟨hfactor, hoffset⟩ := chainDraw_of_drawn (t := t) (g := g) h.drawn_count (c := c)
    (r := (σ.gen.random g).2) hrandom.2
  refine ⟨?_, ?_⟩
  · rw [hrandom.1, ← Nat.add_assoc, Generator.after_succ]
  · rcases hx with ⟨hp, rfl⟩ | ⟨hp, rfl⟩
    · exact (hfactor hp).symm
    · exact (hoffset hp).symm

theorem current_step (h : initStep e g t σ l = some (σ', l'))
    (hc : ∀ c, l.point = .drawFactor c ∨ l.point = .drawOffset c → σ.gen.current = some t) :
    ∀ c, l'.point = .drawFactor c ∨ l'.point = .drawOffset c → σ'.gen.current = some t := by
  intro c hp'
  cases initStep_moves h with
  | setstate => rfl
  | drawFactor hp => exact hc _ (.inl hp)
  | _ => simp [InitLocal.goto] at hp'

theorem DrawsOwn.own (hrandom : e.accessPattern = .random) (hI : DrawsOwn e g t σ l)
    (h : initStep e g t σ l = some (σ', l')) : DrawsOwn e g t σ' l' := by
  have hcount := drawn_step hrandom hI.drawn_count h
  have hcurrent := current_step h hI.current_eq
  rcases initStep_record h with ⟨hstate, hdrawn, hbuilt, _⟩ | ⟨r, hp, hr, hgen, hdrawn, hbuilt⟩ |
    ⟨c, x, hx, hgen, hdrawn, hbuilt⟩
  · refine ⟨?_, ?_, ?_, hcurrent, hcount⟩
    · rw [hstate, hdrawn, hbuilt, hI.state_eq]
    · rw [hdrawn, hbuilt]
      exact hI.drawn_eq
    · rw [hbuilt]
      exact hI.built_eq
  · have hlen : l.drawn.length = drawsPerChain e.pagesPerChain := by
      have := hI.drawn_count
      simpa only [Drawn, hp] using this
    refine ⟨?_, ?_, ?_, hcurrent, hcount⟩
    · rw [hgen, hdrawn, hbuilt, hI.state_eq, hlen, List.length_append, List.length_singleton,
        Nat.add_mul, Nat.one_mul, List.length_nil, Nat.add_zero]
    · rw [hdrawn]
      rfl
    · intro c b hb
      rw [hbuilt] at hb
      by_cases hc : c < l.built.length
      · rw [List.getElem?_append_left hc] at hb
        exact hI.built_eq c b hb
      · rw [List.getElem?_append_right (by omega)] at hb
        obtain ⟨hzero, rfl⟩ := List.getElem?_eq_some_iff.mp hb
        rw [List.length_singleton] at hzero
        obtain rfl : c = l.built.length := by omega
        simp only [Nat.sub_self, List.getElem_cons_zero]
        refine ⟨?_, hr⟩
        have hown := hI.drawn_eq
        rw [hlen] at hown
        exact hown
  · obtain ⟨hstate, hdraw⟩ := hI.draw hx
    have hlen : l'.drawn.length = l.drawn.length + 1 := by
      rw [hdrawn, List.length_append, List.length_singleton]
    refine ⟨?_, ?_, ?_, hcurrent, hcount⟩
    · rw [hgen, hlen, hbuilt]
      exact hstate
    · rw [hlen, hdrawn, hbuilt, List.range_succ, List.map_append, ← hI.drawn_eq, hdraw]
      rfl
    · rw [hbuilt]
      exact hI.built_eq

theorem DrawsOwn.other {u : Nat} {k : InitLocal} (hut : u ≠ t)
    (hout : (globalMutex e g).inside l → ¬ (globalMutex e g).inside k)
    (ht : DrawsOwn e g t σ l) (hu : DrawsOwn e g u σ k)
    (h : initStep e g t σ l = some (σ', l')) : DrawsOwn e g u σ' k := by
  have hfree : (∃ c, l.point = .setstate c) ∨ (∃ c, l.point = .drawFactor c ∨
      l.point = .drawOffset c) → ∀ c, ¬ (k.point = .drawFactor c ∨ k.point = .drawOffset c) := by
    intro hl c hk
    apply hout
    · rcases hl with ⟨c, hl⟩ | ⟨c, hl | hl⟩
      all_goals exact congrArg InitPoint.isInside hl
    · rcases hk with hk | hk
      all_goals exact congrArg InitPoint.isInside hk
  rcases initStep_gen h with hgen | ⟨c, hp, hgen⟩ | ⟨c, hp, hgen⟩
  · refine ⟨?_, hu.drawn_eq, hu.built_eq, ?_, hu.drawn_count⟩
    · rw [hgen]
      exact hu.state_eq
    · rw [hgen]
      exact hu.current_eq
  · refine ⟨?_, hu.drawn_eq, hu.built_eq, ?_, hu.drawn_count⟩
    · rw [hgen, Buffers.setstate_state]
      exact hu.state_eq
    · intro c' hk
      exact absurd hk (hfree (.inl ⟨c, hp⟩) c')
  · have hcurrent := ht.current_eq c hp
    refine ⟨?_, hu.drawn_eq, hu.built_eq, ?_, hu.drawn_count⟩
    · rw [hgen, Buffers.random_state_of_ne]
      · exact hu.state_eq
      · rw [hcurrent]
        simpa using hut
    · intro c' hk
      exact absurd hk (hfree (.inr ⟨c, hp⟩) c')

theorem drawsOwn_of_reachable {p : Platform} {args : List CStr}
    (ha : parseArgs p args = .accepted e) (hrandom : e.accessPattern = .random) {start : S}
    {s : Threads (InitShared S) InitLocal} (hs : InitReachable e g start s) :
    ∀ t < e.numThreads.toNat, DrawsOwn e g t s.shared (s.locals t) := by
  have hall := (globalMutex e g).invariant (I := DrawsOwn e g)
    (fun _ hI h => hI.own hrandom h) (fun hut hout ht hu h => ht.other hut hout hu h) hs rfl
    (fun _ _ h => by simp [globalMutex, initialThreads, InitPoint.isInside] at h) (by
      intro t ht
      refine ⟨?_, rfl, by simp [initialThreads], ?_, rfl⟩
      · rw [initialThreads, randomState_of_parseArgs ha, initBuffers_state g start ht]
        simp [Generator.after]
      · intro c hc
        simp [initialThreads] at hc)
  exact fun t ht => (hall t ht).2

end Threads

section Sizes
variable {e e' : Experiment}

theorem buildRing_congr (h : e'.linksPerChain = e.linksPerChain) (links : List Int) :
    buildRing e' links = buildRing e links := by
  apply Option.ext
  intro r
  rw [buildRing_links, buildRing_links]
  simp only [InBlock, h]

/-- Links depend on the counts alone. -/
theorem randomMemInit_congr (hs : e.SizesDerived) (hs' : e'.SizesDerived)
    (hpages : e'.pagesPerChain = e.pagesPerChain) (hlines : e'.linesPerPage = e.linesPerPage)
    (hlinks : e'.linksPerLine = e.linksPerLine) (d : Draws) :
    randomMemInit e' d = randomMemInit e d := by
  have hpage : e'.linksPerPage = e.linksPerPage := by
    rw [hs'.linksPerPage_eq, hs.linksPerPage_eq, hlines, hlinks]
  have hchain : e'.linksPerChain = e.linksPerChain := by
    rw [hs'.linksPerChain_eq, hs.linksPerChain_eq, hs'.linesPerChain_eq, hs.linesPerChain_eq,
      hpages, hlines, hlinks]
  simp only [randomMemInit, randomLinks, randomLink, hpages, hlines, hlinks, hpage,
    buildRing_congr hchain]

end Sizes

/-- In two runs with the same sizes, whatever their numbers of threads and the orders of
their sections, every thread draws the same numbers for a chain and builds the same ring. -/
theorem random_layouts_reproducible {p p' : Platform} {args args' : List CStr}
    {e e' : Experiment} (ha : parseArgs p args = .accepted e)
    (ha' : parseArgs p' args' = .accepted e') (hrandom : e.accessPattern = .random)
    (hrandom' : e'.accessPattern = .random) (hpages : e'.pagesPerChain = e.pagesPerChain)
    (hlines : e'.linesPerPage = e.linesPerPage) (hlinks : e'.linksPerLine = e.linksPerLine)
    (g : Generator S) (start start' : S) {s s' : Threads (InitShared S) InitLocal}
    (hs : InitReachable e g start s) (hs' : InitReachable e' g start' s') {t : Nat}
    (ht : t < e.numThreads.toNat) (ht' : t < e'.numThreads.toNat) :
    ((s.locals t).point = .finished → (s.locals t).built.length = e.chainsPerThread) ∧
    (∀ (c : Nat) (b : BuiltChain), (s.locals t).built[c]? = some b →
      b.drawn = chainDraws g e.pagesPerChain e.linesPerPage t c ∧
        memInit e (drawnDraws b.drawn) = some b.ring) ∧
    (∀ (k : Nat) (x : Int), (s.locals t).drawn[k]? = some x →
      x = chainDraw g e.pagesPerChain e.linesPerPage t (s.locals t).built.length k) ∧
    ∀ (c : Nat) (b b' : BuiltChain), (s.locals t).built[c]? = some b →
      (s'.locals t).built[c]? = some b' → b' = b := by
  have hown := drawsOwn_of_reachable ha hrandom hs t ht
  have hown' := drawsOwn_of_reachable ha' hrandom' hs' t ht'
  refine ⟨finished_of_reachable ha hs ht, hown.built_eq, ?_, ?_⟩
  · intro k x hx
    rw [hown.drawn_eq, List.getElem?_map] at hx
    obtain ⟨j, hj, rfl⟩ := Option.map_eq_some_iff.mp hx
    obtain ⟨_, rfl⟩ := List.getElem?_eq_some_iff.mp hj
    simp
  · intro c b b' hb hb'
    obtain ⟨hdrawn, hring⟩ := hown.built_eq c b hb
    obtain ⟨hdrawn', hring'⟩ := hown'.built_eq c b' hb'
    rw [hpages, hlines, ← hdrawn] at hdrawn'
    simp only [memInit, hrandom, hrandom'] at hring hring'
    rw [hdrawn', randomMemInit_congr (accepted_of_parseArgs ha).sizes
      (accepted_of_parseArgs ha').sizes hpages hlines hlinks, hring, Option.some.injEq] at hring'
    obtain ⟨drawn, ring⟩ := b
    obtain ⟨drawn', ring'⟩ := b'
    simp only at hdrawn' hring'
    rw [hdrawn', hring']

def pushWord (window word : Nat) : Nat := window / 4294967296 + word * 4294967296 ^ 62

def feedBack (window : Nat) : Nat :=
  pushWord window ((window / 4294967296 ^ 62 + window % 4294967296) % 4294967296)

/-- The generator of the C library over a buffer of 256 bytes. -/
def additiveFeedback : Generator Nat where
  seed s :=
    let first := if s = 0 then 1 else s.toNat
    let words := (List.range 62).map fun i => (fun word => 16807 * word % 2147483647)^[i + 1] first
    feedBack^[630] ((words ++ [first]).foldl pushWord 0)
  next window := (feedBack window, feedBack window / 4294967296 ^ 62 % 4294967296 / 2)
  next_lt window := by
    simp only
    omega

/-- Two threads one after the other, and with their sections in turn. -/
theorem same_layouts_in_two_orders :
    ∃ e s s', parseArgs .single ["-p".toList, "64".toList, "-c".toList, "64".toList,
        "-t".toList, "2".toList] = .accepted e ∧
      InitReachable e additiveFeedback 0 s ∧ InitReachable e additiveFeedback 0 s' ∧
      (s.locals 1).built.length = 1 ∧ (s'.locals 1).built.length = 1 ∧
      ∀ (c : Nat) (b b' : BuiltChain), (s.locals 1).built[c]? = some b →
        (s'.locals 1).built[c]? = some b' → b' = b := by
  obtain ⟨e, he, hrandom, hn, hfirst, hsecond⟩ : ∃ e, parseArgs .single ["-p".toList, "64".toList,
        "-c".toList, "64".toList, "-t".toList, "2".toList] = .accepted e ∧
      e.accessPattern = .random ∧ e.numThreads = 2 ∧
      ((Threads.follow (initStep e additiveFeedback) 2
          (List.replicate 19 0 ++ List.replicate 19 1)
          (initialThreads e additiveFeedback 0)).map fun s => (s.locals 1).built.length) = some 1 ∧
      ((Threads.follow (initStep e additiveFeedback) 2
          (List.replicate 6 0 ++ List.replicate 6 1 ++ List.replicate 9 0 ++ List.replicate 13 1)
          (initialThreads e additiveFeedback 0)).map fun s => (s.locals 1).built.length) = some 1 :=
    ⟨_, rfl, rfl, rfl, by decide +kernel, by decide +kernel⟩
  obtain ⟨s, hs, hbuilt⟩ := Option.map_eq_some_iff.mp hfirst
  obtain ⟨s', hs', hbuilt'⟩ := Option.map_eq_some_iff.mp hsecond
  have hrun : InitReachable e additiveFeedback 0 s := by
    rw [InitReachable, hn]
    exact Threads.run_of_follow hs
  have hrun' : InitReachable e additiveFeedback 0 s' := by
    rw [InitReachable, hn]
    exact Threads.run_of_follow hs'
  obtain ⟨_, _, _, hsame⟩ := random_layouts_reproducible he he hrandom hrandom rfl rfl rfl
    additiveFeedback 0 0 hrun hrun' (t := 1) (by omega) (by omega)
  exact ⟨e, s, s', he, hrun, hrun', hbuilt, hbuilt', hsame⟩

end PChase
