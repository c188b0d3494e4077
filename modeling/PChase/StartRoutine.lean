import PChase.CountLoop

/-!
# The CPU of a thread

`Thread::start_routine` up to the call of `run`, with the `CPU_*` macros of glibc on the
1024 bits of a `cpu_set_t`.
-/

namespace PChase

open CountLoop
set_option autoImplicit false

abbrev CpuSet := BitVec 1024

/-- `CPU_ZERO(cs)` -/
def cpuZero : CpuSet := 0#1024

/-- `CPU_ISSET(cpu, cs)` -/
def cpuIsset (cpu : Nat) (cs : CpuSet) : Bool := cs.getLsbD cpu

/-- `CPU_ALLOC_SIZE(cpus)`: whole mask words of 64 bits, in bytes. -/
def cpuAllocSize (cpus : Nat) : Nat := (cpus + 63) / 64 * 8

/-- `CPU_SET_S(cpu, size, cs)` -/
def cpuSetS (cpu size : Nat) (cs : CpuSet) : CpuSet :=
  if cpu / 8 < size then cs ||| BitVec.twoPow 1024 cpu else cs

/-- The set a thread asks for, unless it divides by zero; `cs` is the set it was given. -/
def startRoutine (cs : CpuSet) (id : Nat) : Option CpuSet := do
  let counted ← forLoop (fun count => cpuIsset count cs) (fun count => count + 1) 1025 0
  let count := counted.length
  if count = 0 then none else some (cpuSetS (id % count) (cpuAllocSize 1) cpuZero)

example : startRoutine 0b111 4 = some 0b10 := by decide +kernel

def Holds (set : CpuSet) (cpu : Nat) : Prop := ∀ i, cpuIsset i set = true ↔ i = cpu

def Requests (cs : CpuSet) (id cpu : Nat) : Prop :=
  ∃ set, startRoutine cs id = some set ∧ Holds set cpu

/-- Every thread asks for one CPU of the mask, and none is used twice before all are. -/
structure AffinityRight (cs : CpuSet) : Prop where
  given : ∀ id, ∃ cpu, Requests cs id cpu ∧ cpuIsset cpu cs = true
  fair : ∀ i j cpu, i < j → Requests cs i cpu → Requests cs j cpu →
    ∀ c, cpuIsset c cs = true → ∃ k < j, Requests cs k c

def IsInitial (cs : CpuSet) (count : Nat) : Prop := ∀ i, cpuIsset i cs = true ↔ i < count

section Count
variable {cs : CpuSet} {count : Nat}

theorem cpuIsset_lt {cpu : Nat} (h : cpuIsset cpu cs = true) : cpu < 1024 :=
  BitVec.lt_of_getLsbD h

theorem iterate_add_one (n : Nat) : (fun count => count + 1)^[n] 0 = n := by
  induction n with
  | zero => rfl
  | succ n ih => rw [Function.iterate_succ_apply', ih]

theorem counted_eq_some_iff (xs : List Nat) :
    forLoop (fun count => cpuIsset count cs) (fun count => count + 1) 1025 0 = some xs ↔
      ∃ n < 1025, (∀ i < n, cpuIsset i cs = true) ∧ cpuIsset n cs = false ∧
        xs = values (fun count => count + 1) 0 n := by
  simp only [forLoop_eq_some_iff, iterate_add_one]

theorem exists_counted (cs : CpuSet) : ∃ n < 1025, (∀ i < n, cpuIsset i cs = true) ∧
    cpuIsset n cs = false ∧
      forLoop (fun count => cpuIsset count cs) (fun count => count + 1) 1025 0 =
        some (values (fun count => count + 1) 0 n) := by
  cases hloop : forLoop (fun count => cpuIsset count cs) (fun count => count + 1) 1025 0 with
  | none =>
    have hset := (forLoop_eq_none_iff _ _ _ _).mp hloop 1024 (by omega)
    rw [iterate_add_one] at hset
    exact absurd (cpuIsset_lt hset) (by omega)
  | some xs =>
    obtain ⟨n, hn, hbefore, hend, rfl⟩ := (counted_eq_some_iff xs).mp hloop
    exact ⟨n, hn, hbefore, hend, rfl⟩

theorem startRoutine_eq {n : Nat} (hbefore : ∀ i < n, cpuIsset i cs = true)
    (hend : cpuIsset n cs = false) (id : Nat) :
    startRoutine cs id = if n = 0 then none else some (cpuSetS (id % n) (cpuAllocSize 1) cpuZero) := by
  obtain ⟨k, _, hbefore', hend', hloop⟩ := exists_counted cs
  have hkn : k = n := by
    rcases Nat.lt_trichotomy k n with hlt | heq | hgt
    · simp [hbefore k hlt] at hend'
    · exact heq
    · simp [hbefore' n hgt] at hend
  simp only [startRoutine, hloop, Option.bind_eq_bind, Option.bind_some, values_length, hkn]

theorem cpuSetS_isset (cpu i : Nat) : cpuIsset i (cpuSetS cpu (cpuAllocSize 1) cpuZero) = true ↔
    cpu < 64 ∧ i = cpu := by
  unfold cpuSetS cpuAllocSize cpuIsset cpuZero
  by_cases hcpu : cpu < 64
  · rw [if_pos (by omega), BitVec.zero_or, BitVec.getLsbD_twoPow]
    simp only [hcpu, true_and, Bool.and_eq_true, decide_eq_true_eq]
    omega
  · rw [if_neg (by omega)]
    simp [hcpu]

theorem requests_iff {n : Nat} (hbefore : ∀ i < n, cpuIsset i cs = true)
    (hend : cpuIsset n cs = false) (id cpu : Nat) :
    Requests cs id cpu ↔ n ≠ 0 ∧ id % n < 64 ∧ cpu = id % n := by
  simp only [Requests, startRoutine_eq hbefore hend]
  by_cases hn : n = 0
  · simp [hn]
  · simp only [if_neg hn, Option.some.injEq, exists_eq_left', Holds, cpuSetS_isset]
    constructor
    · intro h
      obtain ⟨hsmall, hcpu⟩ := (h cpu).mpr rfl
      exact ⟨hn, hsmall, hcpu⟩
    · intro h i
      obtain ⟨_, hsmall, rfl⟩ := h
      exact ⟨fun hi => hi.2, fun hi => ⟨hsmall, hi⟩⟩

end Count

/-- The threads are placed rightly if and only if the mask is the first `count` CPUs, at
least one and at most 64. -/
theorem affinity_right_iff (cs : CpuSet) :
    AffinityRight cs ↔ ∃ count, 1 ≤ count ∧ count ≤ 64 ∧ IsInitial cs count := by
  obtain ⟨n, _, hbefore, hend, _⟩ := exists_counted cs
  have hrequests := requests_iff hbefore hend
  constructor
  · intro hright
    obtain ⟨_, hzero, _⟩ := hright.given 0
    obtain ⟨hpos, _, _⟩ := (hrequests 0 _).mp hzero
    obtain ⟨_, h64, _⟩ := hright.given 64
    obtain ⟨_, hsmall, _⟩ := (hrequests 64 _).mp h64
    have hle : n ≤ 64 := by
      by_contra hgt
      rw [Nat.mod_eq_of_lt (by omega)] at hsmall
      omega
    refine ⟨n, by omega, hle, ?_⟩
    intro c
    refine ⟨?_, hbefore c⟩
    intro hc
    have hfirst : Requests cs 0 0 := (hrequests 0 0).mpr
      ⟨hpos, by rw [Nat.zero_mod]; omega, (Nat.zero_mod n).symm⟩
    have hagain : Requests cs n 0 := (hrequests n 0).mpr
      ⟨hpos, by rw [Nat.mod_self]; omega, (Nat.mod_self n).symm⟩
    obtain ⟨k, hk, hused⟩ := hright.fair 0 n 0 (by omega) hfirst hagain c hc
    obtain ⟨_, _, hck⟩ := (hrequests k c).mp hused
    rw [Nat.mod_eq_of_lt hk] at hck
    omega
  · intro hinitial
    obtain ⟨count, hpos, hle, hinitial⟩ := hinitial
    have hcount : n = count := by
      rcases Nat.lt_trichotomy n count with hlt | heq | hgt
      · simp [(hinitial n).mpr hlt] at hend
      · exact heq
      · exact absurd ((hinitial count).mp (hbefore count hgt)) (Nat.lt_irrefl _)
    subst hcount
    have hmod : ∀ id, id % n < n := fun id => Nat.mod_lt id hpos
    refine ⟨?_, ?_⟩
    · intro id
      have := hmod id
      exact ⟨id % n, (hrequests id _).mpr ⟨by omega, by omega, rfl⟩, (hinitial _).mpr (hmod id)⟩
    · intro i j cpu hij hi hj c hc
      obtain ⟨_, _, hcpu⟩ := (hrequests i cpu).mp hi
      obtain ⟨_, _, hcpu'⟩ := (hrequests j cpu).mp hj
      have hlt := (hinitial c).mp hc
      have hj' : n ≤ j := by
        by_contra hlow
        rw [Nat.mod_eq_of_lt (by omega)] at hcpu hcpu'
        omega
      refine ⟨c, by omega, (hrequests c c).mpr ⟨by omega, ?_, ?_⟩⟩
      · rw [Nat.mod_eq_of_lt hlt]
        omega
      · exact (Nat.mod_eq_of_lt hlt).symm

/-- A thread that may run on CPU 1 only divides by zero. -/
theorem affinity_wrong_of_second_cpu : startRoutine 0b10 0 = none ∧ ¬ AffinityRight 0b10 := by
  have hnone : startRoutine 0b10 0 = none := by decide +kernel
  refine ⟨hnone, ?_⟩
  intro hright
  obtain ⟨_, ⟨set, hset, _⟩, _⟩ := hright.given 0
  rw [hnone] at hset
  simp at hset

end PChase
