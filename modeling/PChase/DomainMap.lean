import PChase.CountLoop
import PChase.Experiment

/-!
# Threads and chains on NUMA domains

The four placement routines of `Experiment` and the rendering of a domain map by
`Output::csv` and `Output::table`. `alloc_map` reads its string in three passes; the
cursor is the rest of the string, the two local tables start out unwritten, and a token
that does not fit the 64 characters of `buf` is an error of its own.
-/

namespace PChase

open CInt CountLoop
set_option autoImplicit false

/-- `alloc_local`, `alloc_xor` and `alloc_add` share their loops; `chainOf` is the domain
of every chain of a thread that runs on the given domain. -/
def allocDomains (e : Experiment) (chainOf : Int → Int) : Option Experiment := do
  let threads ← countUp e.numThreads
  let chains ← countUp e.chainsPerThread
  let threadDomain := threads.map fun i => wrap32 (i.tmod e.numNumaDomains)
  return { e with
    threadDomain := threadDomain.map some
    chainDomain := threadDomain.map fun d => chains.map fun _ => some (chainOf d) }

def allocLocal (e : Experiment) : Option Experiment := allocDomains e fun d => d

/-- `^` on `long long` operands. -/
def xor64 (x y : Int) : Int := (BitVec.ofInt 64 x ^^^ BitVec.ofInt 64 y).toInt

def allocXor (e : Experiment) : Option Experiment :=
  allocDomains e fun d => wrap32 ((xor64 d e.offsetOrMask).tmod e.numNumaDomains)

def allocAdd (e : Experiment) : Option Experiment :=
  allocDomains e fun d => wrap32 ((wrap64 (d + e.offsetOrMask)).tmod e.numNumaDomains)

/-- The first pass counts a thread more for each `;`. -/
def countThreads : Int → CStr → Int
  | threads, [] => threads
  | threads, c :: p => countThreads (if c = ';' then wrap32 (threads + 1) else threads) p

/-- The second pass counts a chain more for each `,` of the first group. -/
def countChains : Int → CStr → Int
  | chains, [] => chains
  | chains, c :: p =>
    if c = ';' then chains else countChains (if c = ',' then wrap32 (chains + 1) else chains) p

/-- Everything up to `:` is the thread domain; the cursor moves past the colon. -/
def scanThread : CStr → CStr × CStr
  | [] => ([], [])
  | c :: p => if c = ':' then ([], p) else (c :: (scanThread p).1, (scanThread p).2)

/-- A chain domain ends before `;` or past `,`. -/
def scanToken : CStr → CStr × CStr
  | [] => ([], [])
  | c :: p =>
    if c = ';' then ([], c :: p)
    else if c = ',' then ([], p)
    else (c :: (scanToken p).1, (scanToken p).2)

inductive MapError where
  /-- `Malformed map.` and `exit(1)` -/
  | malformed
  /-- a write past the end of `buf` or of a local table, or a local table without length -/
  | overrun
  /-- the loop outlives its fuel -/
  | endless
  deriving Repr, DecidableEq

structure MapTables where
  threadDomain : Nat → Option Int
  chainDomain : Nat → Nat → Option Int

def MapTables.empty : MapTables := ⟨fun _ => none, fun _ _ => none⟩

def MapTables.setThread (m : MapTables) (t : Nat) (d : Int) : MapTables :=
  { m with threadDomain := Function.update m.threadDomain t (some d) }

def MapTables.setChain (m : MapTables) (t c : Nat) (d : Int) : MapTables :=
  { m with chainDomain :=
      Function.update m.chainDomain t (Function.update (m.chainDomain t) c (some d)) }

/-- The value of `buf`, which has room for 63 characters and the terminating zero. -/
def readBuf (buf : CStr) : Except MapError Int :=
  if 63 < buf.length then .error .overrun else .ok (wrap32 (parseNumber buf))

/-- Lines 672 to 691: the chain domains of group `t`, the cursor left on `;` or the end. -/
def scanChains (threads chains : Int) (t : Nat) :
    Nat → Nat → CStr → MapTables → Except MapError (CStr × MapTables)
  | _, _, [], m => .ok ([], m)
  | fuel, c, ch :: p, m =>
    if ch = ';' then .ok (ch :: p, m)
    else if chains ≤ c ∨ threads ≤ t then .error .malformed
    else match fuel with
      | 0 => .error .endless
      | fuel + 1 => do
        let (buf, rest) := scanToken (ch :: p)
        let d ← readBuf buf
        scanChains threads chains t fuel (c + 1) rest (m.setChain t c d)

/-- Lines 654 to 698: one group after the other. -/
def scanGroups (threads chains : Int) :
    Nat → Nat → CStr → MapTables → Except MapError MapTables
  | _, _, [], m => .ok m
  | 0, _, _ :: _, _ => .error .endless
  | fuel + 1, t, ch :: p, m => do
    let (buf, rest) := scanThread (ch :: p)
    let d ← readBuf buf
    if threads ≤ t then throw .overrun
    let (rest, m) ← scanChains threads chains t rest.length 0 rest (m.setThread t d)
    match rest with
    | [] => return m
    | ch :: p => scanGroups threads chains fuel (t + 1) (if ch = ';' then p else ch :: p) m

/-- Lines 700 to 723: the local tables become the fields. -/
def Experiment.setMap (e : Experiment) (threads chains : Int) (m : MapTables) : Experiment :=
  let bytesPerThread := wrap64 (e.bytesPerChain * chains)
  { e with
    numThreads := threads
    chainsPerThread := chains
    threadDomain := (List.range threads.toNat).map fun i =>
      (m.threadDomain i).map fun d => d.tmod e.numNumaDomains
    chainDomain := (List.range threads.toNat).map fun i => (List.range chains.toNat).map fun j =>
      (m.chainDomain i j).map fun d => d.tmod e.numNumaDomains
    randomState := (List.range threads.toNat).map fun i : Nat => (i : Int)
    bytesPerThread
    bytesPerTest := wrap64 (bytesPerThread * threads) }

/-- `alloc_map`; `placement_map` is the string that `-n map` left there. -/
def allocMap (e : Experiment) (placementMap : CStr) : Except MapError Experiment := do
  let threads := countThreads 1 placementMap
  let chains := countChains 1 placementMap
  if threads ≤ 0 ∨ chains ≤ 0 then throw .overrun
  let m ← scanGroups threads chains placementMap.length 0 placementMap MapTables.empty
  return e.setMap threads chains m

/-- `%d` -/
def printInt (x : Int) : CStr :=
  if x < 0 then '-' :: Nat.toDigits 10 x.natAbs else Nat.toDigits 10 x.natAbs

/-- `for (int j = 1; j < bound; j++)` -/
def countFromOne (bound : Int) : Option (List Int) :=
  intLoop (fun j => decide (j < bound)) (addStep 1) 1

def printGroup (m : Int) (t : Int) (cs : Nat → Int) : Option CStr := do
  let js ← countFromOne m
  return printInt t ++ ':' :: (printInt (cs 0) ++ js.flatMap fun j => ',' :: printInt (cs j.toNat))

/-- The domain map between the quotes of `Output::csv` and `Output::table`. -/
def printMap (n m : Int) (ts : Nat → Int) (cs : Nat → Nat → Int) : Option CStr := do
  let first ← printGroup m (ts 0) (cs 0)
  let is ← countFromOne n
  let groups ← is.mapM fun i => printGroup m (ts i.toNat) (cs i.toNat)
  return first ++ groups.flatMap fun group => ';' :: group

/-- What the report prints of an experiment; an entry nobody wrote counts as zero. -/
def Experiment.domainMap (e : Experiment) : Option CStr :=
  printMap e.numThreads e.chainsPerThread
    (fun i => (e.threadDomain.getD i none).getD 0)
    fun i j => ((e.chainDomain.getD i []).getD j none).getD 0

theorem allocMap_eq_ok_iff (e e' : Experiment) (map : CStr) : allocMap e map = .ok e' ↔
    1 ≤ countThreads 1 map ∧ 1 ≤ countChains 1 map ∧
      ∃ m, scanGroups (countThreads 1 map) (countChains 1 map) map.length 0 map
        MapTables.empty = .ok m ∧ e' = e.setMap (countThreads 1 map) (countChains 1 map) m := by
  simp only [allocMap, bind, Except.bind, pure, Except.pure]
  split
  · rename_i hempty
    simp only [throw, throwThe, MonadExceptOf.throw, reduceCtorEq, false_iff]
    omega
  · rename_i hlen
    cases scanGroups (countThreads 1 map) (countChains 1 map) map.length 0 map MapTables.empty with
    | error err => simp
    | ok m =>
      simp only [Except.ok.injEq, exists_eq_left']
      constructor
      · intro h
        exact ⟨by omega, by omega, h.symm⟩
      · intro h
        exact h.2.2.symm

theorem countThreads_inInt32 (map : CStr) (threads : Int) (h : InInt32 threads) :
    InInt32 (countThreads threads map) := by
  induction map generalizing threads with
  | nil => exact h
  | cons c p ih =>
    apply ih
    split
    · exact wrap32_inInt32 _
    · exact h

theorem countChains_inInt32 (map : CStr) (chains : Int) (h : InInt32 chains) :
    InInt32 (countChains chains map) := by
  induction map generalizing chains with
  | nil => exact h
  | cons c p ih =>
    rw [countChains]
    split
    · exact h
    · apply ih
      split
      · exact wrap32_inInt32 _
      · exact h

theorem countFromOne_of_lt {bound : Int} (h : bound < 2147483648) :
    countFromOne bound = some ((List.range (bound - 1).toNat).map fun k : Nat => (k : Int) + 1) := by
  unfold countFromOne
  rw [intLoop_addStep (n := (bound - 1).toNat)]
  · simp only [Int.mul_one, Int.add_comm]
  · intro k hk
    unfold InInt32
    omega
  · omega
  · intro k hk
    simp only [decide_eq_true_eq]
    omega
  · simp only [decide_eq_false_iff_not]
    omega

theorem countFromOne_of_ge {bound : Int} (h : 2147483648 ≤ bound) : countFromOne bound = none := by
  unfold countFromOne
  rw [intLoop_eq_none_iff _ inInt32_one (addStep_inInt32 1)]
  intro n m _
  have hv := iterate_inInt32 inInt32_one (addStep_inInt32 1) m
  unfold InInt32 at hv
  simp only [decide_eq_true_eq]
  omega

theorem lt_of_countFromOne {bound : Int} {js : List Int} (h : countFromOne bound = some js) :
    bound < 2147483648 := by
  by_contra hge
  rw [countFromOne_of_ge (by omega)] at h
  simp at h

end PChase
