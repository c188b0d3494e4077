import Mathlib.Data.Rat.Floor
import Mathlib.Order.Monotone.Basic
import PChase.BarrierProgram
import PChase.CountLoop
import PChase.Experiment

/-!
# The threads of a run

`Run::run` from its calibration on, as a program of threads that meet at one barrier. A
step reads or writes one of the variables that the threads share, or it is a `bench` call
from its beginning to its return; what a thread does with its own variables goes along with
these steps. A call that does not return has no step: which calls do is settled where the
threads come to the program with the rings they have built.
-/

namespace PChase

open CInt CountLoop BarrierProgram
set_option autoImplicit false

/-- The barrier calls in the order of the source. -/
inductive BarrierCall where
  | calTop
  | calStarted
  | calCalled
  | calStopped
  | calDone
  | expTop
  | expStarted
  | expCalled
  | expStopped
  | runEnd
  deriving Repr, DecidableEq

inductive Point where
  /-- `0 == exp->iterations` -/
  | guard
  /-- `iters = 1` -/
  | initIters
  /-- `elapsed <= bound` -/
  | testElapsed
  | startCal
  /-- `i < iters` -/
  | testCal
  | benchCal
  | stopCal
  /-- `elapsed = istop - istart` -/
  | setElapsed
  /-- `iters = iters << 1`, the read and the write -/
  | readIters
  | storeIters
  /-- the calculation by thread 0, which reads `iters` first -/
  | calculate
  | schedule
  /-- `e < exp->experiments` -/
  | testExp
  | startExp
  /-- `i < exp->iterations` -/
  | testCall
  | bench
  | stopExp
  | record
  | barrier (c : BarrierCall)
  | finished
  deriving Repr, DecidableEq

/-- The static variables of `run`, the two results it leaves and the number of clock
readings so far. -/
structure RunShared where
  iterations : Int
  istart : ℚ := 0
  istop : ℚ := 0
  elapsed : ℚ := 0
  iters : Int := 1
  seconds : List ℚ := []
  readings : Nat := 0

/-- The variables of one thread. `tmp` is the value of `iters` it read last; `calls` counts
its `bench` calls since the last barrier, `made` all of them, and neither is a variable of
the source. -/
structure RunLocal where
  point : Point := .guard
  i : Int := 0
  e : Int := 0
  tmp : Int := 0
  start : ℚ := 0
  stop : ℚ := 0
  calls : Nat := 0
  made : Nat := 0

/-- The clock that thread 0 reads, the clock resolution each thread measures, and the
rounding of double-precision arithmetic. -/
structure Clocks where
  clock : Nat → ℚ
  resolution : Nat → ℚ
  round : ℚ → ℚ
  round_mono : Monotone round
  round_zero : round 0 = 0

/-- `std::max(0.2, 10 * Timer::resolution())` -/
def Clocks.bound (m : Clocks) (t : Nat) : ℚ := max (m.round (1 / 5)) (m.round (10 * m.resolution t))

/-- The conversion of a `double` to an `int64`. -/
def toInt64 (x : ℚ) : Int := wrap64 (x.num.tdiv x.den)

/-- The new `exp->iterations`. -/
def Clocks.predict (m : Clocks) (e : Experiment) (iters : Int) (elapsed : ℚ) : Int :=
  if 0 < e.seconds then
    toInt64 (max 1 (m.round (m.round (9999 / 10000) +
      m.round (m.round (m.round (1 / 2 * e.seconds) * m.round iters) / elapsed))))
  else toInt64 (max 1 (m.round (m.round (9999 / 10000) + m.round (m.round iters / elapsed))))

def RunLocal.goto (l : RunLocal) (p : Point) : RunLocal := { l with point := p }

/-- `bench(root)` and `i++` -/
def RunLocal.calledOnce (l : RunLocal) (p : Point) : RunLocal :=
  { l with point := p, i := addStep 1 l.i, calls := l.calls + 1, made := l.made + 1 }

/-- `Timer::seconds()` -/
def RunShared.tick (σ : RunShared) : RunShared := { σ with readings := σ.readings + 1 }

def Point.isCall : Point → Bool
  | .benchCal | .bench => true
  | _ => false

/-- One step of thread `t`, unless it waits or has returned; a `bench` call is one that
returns. -/
def runStep (e : Experiment) (m : Clocks) (t : Nat) (σ : RunShared) (l : RunLocal) :
    Option (RunShared × RunLocal) :=
  match l.point with
  | .guard =>
    if σ.iterations = 0 then some (σ, l.goto .initIters)
    else some (σ, { l with point := .testExp, e := 0 })
  | .initIters => some ({ σ with iters := 1 }, l.goto .testElapsed)
  | .testElapsed =>
    if σ.elapsed ≤ m.bound t then some (σ, l.goto (.barrier .calTop))
    else if t = 0 then some (σ, l.goto .calculate)
    else some (σ, l.goto (.barrier .calDone))
  | .startCal =>
    if t = 0 then some ({ σ.tick with istart := m.clock σ.readings }, l.goto (.barrier .calStarted))
    else some (σ, l.goto (.barrier .calStarted))
  | .testCal =>
    if l.i < σ.iters then some (σ, l.goto .benchCal)
    else some (σ, l.goto (.barrier .calCalled))
  | .benchCal => some (σ, l.calledOnce .testCal)
  | .stopCal =>
    if t = 0 then some ({ σ.tick with istop := m.clock σ.readings }, l.goto .setElapsed)
    else some (σ, l.goto (.barrier .calStopped))
  | .setElapsed =>
    some ({ σ with elapsed := m.round (σ.istop - σ.istart) }, l.goto (.barrier .calStopped))
  | .readIters => some (σ, { l with point := .storeIters, tmp := σ.iters })
  | .storeIters => some ({ σ with iters := wrap64 (l.tmp * 2) }, l.goto .testElapsed)
  | .calculate => some (σ, { l with point := .schedule, tmp := σ.iters })
  | .schedule =>
    some ({ σ with iterations := m.predict e l.tmp σ.elapsed }, l.goto (.barrier .calDone))
  | .testExp =>
    if l.e < e.experiments then some (σ, l.goto (.barrier .expTop))
    else some (σ, l.goto (.barrier .runEnd))
  | .startExp =>
    if t = 0 then
      some (σ.tick, { l with point := .barrier .expStarted, start := m.clock σ.readings })
    else some (σ, l.goto (.barrier .expStarted))
  | .testCall =>
    if l.i < σ.iterations then some (σ, l.goto .bench)
    else some (σ, l.goto (.barrier .expCalled))
  | .bench => some (σ, l.calledOnce .testCall)
  | .stopExp =>
    if t = 0 then
      some (σ.tick, { l with point := .barrier .expStopped, stop := m.clock σ.readings })
    else some (σ, l.goto (.barrier .expStopped))
  | .record =>
    let delta := m.round (l.stop - l.start)
    let l' := { l with point := .testExp, e := addStep 1 l.e }
    if 0 ≤ l.e ∧ t = 0 ∧ 0 < delta then
      some ({ σ with seconds := σ.seconds ++ [delta] }, l')
    else some (σ, l')
  | .barrier _ => none
  | .finished => none

def afterBarrier (l : RunLocal) : BarrierCall → RunLocal
  | .calTop => l.goto .startCal
  | .calStarted => { l with point := .testCal, i := 0, calls := 0 }
  | .calCalled => l.goto .stopCal
  | .calStopped => l.goto .readIters
  | .calDone => { l with point := .testExp, e := 0 }
  | .expTop => { l with point := .startExp, start := 0 }
  | .expStarted => { l with point := .testCall, i := 0, calls := 0 }
  | .expCalled => { l with point := .stopExp, stop := 0 }
  | .expStopped => l.goto .record
  | .runEnd => l.goto .finished

def RunLocal.call (l : RunLocal) : Option BarrierCall :=
  match l.point with
  | .barrier c => some c
  | _ => none

def RunLocal.resume (l : RunLocal) : RunLocal :=
  match l.point with
  | .barrier c => afterBarrier l c
  | _ => l

inductive SharedVariable where
  | iterations
  | istart
  | istop
  | elapsed
  | iters
  deriving Repr, DecidableEq

inductive SharedAccess where
  | read (v : SharedVariable)
  | write (v : SharedVariable)
  deriving Repr, DecidableEq

/-- What the next step of a thread reads and writes. -/
def runTouches (t : Nat) (l : RunLocal) : List SharedAccess :=
  match l.point with
  | .guard => [.read .iterations]
  | .initIters => [.write .iters]
  | .testElapsed => [.read .elapsed]
  | .startCal => if t = 0 then [.write .istart] else []
  | .testCal => [.read .iters]
  | .stopCal => if t = 0 then [.write .istop] else []
  | .setElapsed => [.read .istop, .read .istart, .write .elapsed]
  | .readIters => [.read .iters]
  | .storeIters => [.write .iters]
  | .calculate => [.read .iters]
  | .schedule => [.read .elapsed, .write .iterations]
  | .testCall => [.read .iterations]
  | _ => []

def runProgram (e : Experiment) (m : Clocks) :
    BarrierProgram RunShared RunLocal BarrierCall SharedAccess :=
  ⟨runStep e m, RunLocal.call, RunLocal.resume, runTouches⟩

abbrev RunState := ThreadsState RunShared RunLocal BarrierCall SharedAccess

/-- The states of `num_threads` threads that share `SpinBarrier sb(e.num_threads)`. -/
def RunReachable (e : Experiment) (m : Clocks) (s : RunState) : Prop :=
  (runProgram e m).Run e.numThreads.toNat (wrap32 e.numThreads).toNat
    (initial { iterations := e.iterations } fun _ => {}) s

section Locals
variable (l : RunLocal) (p : Point)

@[simp] theorem goto_point : (l.goto p).point = p := rfl
@[simp] theorem goto_i : (l.goto p).i = l.i := rfl
@[simp] theorem goto_e : (l.goto p).e = l.e := rfl
@[simp] theorem goto_tmp : (l.goto p).tmp = l.tmp := rfl
@[simp] theorem goto_calls : (l.goto p).calls = l.calls := rfl
@[simp] theorem calledOnce_point : (l.calledOnce p).point = p := rfl
@[simp] theorem calledOnce_i : (l.calledOnce p).i = addStep 1 l.i := rfl
@[simp] theorem calledOnce_e : (l.calledOnce p).e = l.e := rfl
@[simp] theorem calledOnce_calls : (l.calledOnce p).calls = l.calls + 1 := rfl

end Locals

theorem call_eq_some_iff (l : RunLocal) (c : BarrierCall) : l.call = some c ↔ l.point = .barrier c := by
  unfold RunLocal.call
  split
  · rename_i c' hc'
    simp [hc']
  · rename_i hne
    simpa using hne c

theorem resume_of_call {l : RunLocal} {c : BarrierCall} (h : l.point = .barrier c) :
    l.resume = afterBarrier l c := by
  simp [RunLocal.resume, h]

section Steps
variable {e : Experiment} {m : Clocks} {t : Nat} {σ σ' : RunShared} {l l' : RunLocal}

inductive RunMove (e : Experiment) (m : Clocks) (t : Nat) (σ : RunShared) (l : RunLocal) :
    RunShared → RunLocal → Prop where
  | calibrate (hp : l.point = .guard) (hzero : σ.iterations = 0) :
      RunMove e m t σ l σ (l.goto .initIters)
  | skipCalibration (hp : l.point = .guard) (hne : σ.iterations ≠ 0) :
      RunMove e m t σ l σ { l with point := .testExp, e := 0 }
  | initIters (hp : l.point = .initIters) :
      RunMove e m t σ l { σ with iters := 1 } (l.goto .testElapsed)
  | goOn (hp : l.point = .testElapsed) (hle : σ.elapsed ≤ m.bound t) :
      RunMove e m t σ l σ (l.goto (.barrier .calTop))
  | settle (hp : l.point = .testElapsed) (hgt : ¬ σ.elapsed ≤ m.bound t) (ht : t = 0) :
      RunMove e m t σ l σ (l.goto .calculate)
  | await (hp : l.point = .testElapsed) (hgt : ¬ σ.elapsed ≤ m.bound t) (ht : t ≠ 0) :
      RunMove e m t σ l σ (l.goto (.barrier .calDone))
  | startCal (hp : l.point = .startCal) (ht : t = 0) :
      RunMove e m t σ l { σ.tick with istart := m.clock σ.readings }
        (l.goto (.barrier .calStarted))
  | passStartCal (hp : l.point = .startCal) (ht : t ≠ 0) :
      RunMove e m t σ l σ (l.goto (.barrier .calStarted))
  | callCal (hp : l.point = .testCal) (hlt : l.i < σ.iters) :
      RunMove e m t σ l σ (l.goto .benchCal)
  | calledCal (hp : l.point = .testCal) (hge : ¬ l.i < σ.iters) :
      RunMove e m t σ l σ (l.goto (.barrier .calCalled))
  | benchCal (hp : l.point = .benchCal) : RunMove e m t σ l σ (l.calledOnce .testCal)
  | stopCal (hp : l.point = .stopCal) (ht : t = 0) :
      RunMove e m t σ l { σ.tick with istop := m.clock σ.readings } (l.goto .setElapsed)
  | passStopCal (hp : l.point = .stopCal) (ht : t ≠ 0) :
      RunMove e m t σ l σ (l.goto (.barrier .calStopped))
  | setElapsed (hp : l.point = .setElapsed) :
      RunMove e m t σ l { σ with elapsed := m.round (σ.istop - σ.istart) }
        (l.goto (.barrier .calStopped))
  | readIters (hp : l.point = .readIters) :
      RunMove e m t σ l σ { l with point := .storeIters, tmp := σ.iters }
  | storeIters (hp : l.point = .storeIters) :
      RunMove e m t σ l { σ with iters := wrap64 (l.tmp * 2) } (l.goto .testElapsed)
  | calculate (hp : l.point = .calculate) :
      RunMove e m t σ l σ { l with point := .schedule, tmp := σ.iters }
  | schedule (hp : l.point = .schedule) :
      RunMove e m t σ l { σ with iterations := m.predict e l.tmp σ.elapsed }
        (l.goto (.barrier .calDone))
  | enterExp (hp : l.point = .testExp) (hlt : l.e < e.experiments) :
      RunMove e m t σ l σ (l.goto (.barrier .expTop))
  | leaveExps (hp : l.point = .testExp) (hge : ¬ l.e < e.experiments) :
      RunMove e m t σ l σ (l.goto (.barrier .runEnd))
  | startExp (hp : l.point = .startExp) (ht : t = 0) :
      RunMove e m t σ l σ.tick
        { l with point := .barrier .expStarted, start := m.clock σ.readings }
  | passStartExp (hp : l.point = .startExp) (ht : t ≠ 0) :
      RunMove e m t σ l σ (l.goto (.barrier .expStarted))
  | call (hp : l.point = .testCall) (hlt : l.i < σ.iterations) :
      RunMove e m t σ l σ (l.goto .bench)
  | called (hp : l.point = .testCall) (hge : ¬ l.i < σ.iterations) :
      RunMove e m t σ l σ (l.goto (.barrier .expCalled))
  | bench (hp : l.point = .bench) : RunMove e m t σ l σ (l.calledOnce .testCall)
  | stopExp (hp : l.point = .stopExp) (ht : t = 0) :
      RunMove e m t σ l σ.tick
        { l with point := .barrier .expStopped, stop := m.clock σ.readings }
  | passStopExp (hp : l.point = .stopExp) (ht : t ≠ 0) :
      RunMove e m t σ l σ (l.goto (.barrier .expStopped))
  | record (hp : l.point = .record)
      (hkept : 0 ≤ l.e ∧ t = 0 ∧ 0 < m.round (l.stop - l.start)) :
      RunMove e m t σ l { σ with seconds := σ.seconds ++ [m.round (l.stop - l.start)] }
        { l with point := .testExp, e := addStep 1 l.e }
  | drop (hp : l.point = .record)
      (hdropped : ¬ (0 ≤ l.e ∧ t = 0 ∧ 0 < m.round (l.stop - l.start))) :
      RunMove e m t σ l σ { l with point := .testExp, e := addStep 1 l.e }

theorem runStep_moves (h : runStep e m t σ l = some (σ', l')) : RunMove e m t σ l σ' l' := by
  cases hp : l.point
  all_goals simp only [runStep, hp] at h
  case guard =>
    split at h
    · rename_i hzero
      obtain ⟨rfl, rfl⟩ := Prod.mk.inj (Option.some.inj h)
      exact .calibrate hp hzero
    · rename_i hne
      obtain ⟨rfl, rfl⟩ := Prod.mk.inj (Option.some.inj h)
      exact .skipCalibration hp hne
  case initIters =>
    obtain ⟨rfl, rfl⟩ := Prod.mk.inj (Option.some.inj h)
    exact .initIters hp
  case testElapsed =>
    split at h
    · rename_i hle
      obtain ⟨rfl, rfl⟩ := Prod.mk.inj (Option.some.inj h)
      exact .goOn hp hle
    · rename_i hgt
      split at h
      · rename_i ht
        obtain ⟨rfl, rfl⟩ := Prod.mk.inj (Option.some.inj h)
        exact .settle hp hgt ht
      · rename_i ht
        obtain ⟨rfl, rfl⟩ := Prod.mk.inj (Option.some.inj h)
        exact .await hp hgt ht
  case startCal =>
    split at h
    · rename_i ht
      obtain ⟨rfl, rfl⟩ := Prod.mk.inj (Option.some.inj h)
      exact .startCal hp ht
    · rename_i ht
      obtain ⟨rfl, rfl⟩ := Prod.mk.inj (Option.some.inj h)
      exact .passStartCal hp ht
  case testCal =>
    split at h
    · rename_i hlt
      obtain ⟨rfl, rfl⟩ := Prod.mk.inj (Option.some.inj h)
      exact .callCal hp hlt
    · rename_i hge
      obtain ⟨rfl, rfl⟩ := Prod.mk.inj (Option.some.inj h)
      exact .calledCal hp hge
  case benchCal =>
    obtain ⟨rfl, rfl⟩ := Prod.mk.inj (Option.some.inj h)
    exact .benchCal hp
  case stopCal =>
    split at h
    · rename_i ht
      obtain ⟨rfl, rfl⟩ := Prod.mk.inj (Option.some.inj h)
      exact .stopCal hp ht
    · rename_i ht
      obtain ⟨rfl, rfl⟩ := Prod.mk.inj (Option.some.inj h)
      exact .passStopCal hp ht
  case setElapsed =>
    obtain ⟨rfl, rfl⟩ := Prod.mk.inj (Option.some.inj h)
    exact .setElapsed hp
  case readIters =>
    obtain ⟨rfl, rfl⟩ := Prod.mk.inj (Option.some.inj h)
    exact .readIters hp
  case storeIters =>
    obtain ⟨rfl, rfl⟩ := Prod.mk.inj (Option.some.inj h)
    exact .storeIters hp
  case calculate =>
    obtain ⟨rfl, rfl⟩ := Prod.mk.inj (Option.some.inj h)
    exact .calculate hp
  case schedule =>
    obtain ⟨rfl, rfl⟩ := Prod.mk.inj (Option.some.inj h)
    exact .schedule hp
  case testExp =>
    split at h
    · rename_i hlt
      obtain ⟨rfl, rfl⟩ := Prod.mk.inj (Option.some.inj h)
      exact .enterExp hp hlt
    · rename_i hge
      obtain ⟨rfl, rfl⟩ := Prod.mk.inj (Option.some.inj h)
      exact .leaveExps hp hge
  case startExp =>
    split at h
    · rename_i ht
      obtain ⟨rfl, rfl⟩ := Prod.mk.inj (Option.some.inj h)
      exact .startExp hp ht
    · rename_i ht
      obtain ⟨rfl, rfl⟩ := Prod.mk.inj (Option.some.inj h)
      exact .passStartExp hp ht
  case testCall =>
    split at h
    · rename_i hlt
      obtain ⟨rfl, rfl⟩ := Prod.mk.inj (Option.some.inj h)
      exact .call hp hlt
    · rename_i hge
      obtain ⟨rfl, rfl⟩ := Prod.mk.inj (Option.some.inj h)
      exact .called hp hge
  case bench =>
    obtain ⟨rfl, rfl⟩ := Prod.mk.inj (Option.some.inj h)
    exact .bench hp
  case stopExp =>
    split at h
    · rename_i ht
      obtain ⟨rfl, rfl⟩ := Prod.mk.inj (Option.some.inj h)
      exact .stopExp hp ht
    · rename_i ht
      obtain ⟨rfl, rfl⟩ := Prod.mk.inj (Option.some.inj h)
      exact .passStopExp hp ht
  case record =>
    split at h
    · rename_i hkept
      obtain ⟨rfl, rfl⟩ := Prod.mk.inj (Option.some.inj h)
      exact .record hp hkept
    · rename_i hdropped
      obtain ⟨rfl, rfl⟩ := Prod.mk.inj (Option.some.inj h)
      exact .drop hp hdropped
  case barrier c => simp at h
  case finished => simp at h

end Steps

theorem runStep_eq_none_iff (e : Experiment) (m : Clocks) (t : Nat) (σ : RunShared)
    (l : RunLocal) : runStep e m t σ l = none ↔
      l.point = .finished ∨ ∃ c, l.point = .barrier c := by
  cases hp : l.point
  case barrier c => simp [runStep, hp]
  case finished => simp [runStep, hp]
  all_goals
    simp only [runStep, hp, reduceCtorEq, exists_false, or_false, iff_false]
    repeat' split
    all_goals simp only [reduceCtorEq, not_false_eq_true]

theorem participants_eq {e : Experiment} (h : e.numThreads < 2147483648) (h0 : 1 ≤ e.numThreads) :
    (wrap32 e.numThreads).toNat = e.numThreads.toNat := by
  rw [wrap32_of_bounds (by omega) h]

end PChase
