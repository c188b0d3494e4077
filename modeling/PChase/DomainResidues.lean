import Mathlib.Data.List.GetD
import PChase.ExactNumbers
import PChase.MapReading

/-!
# Domains as residues

A domain is the residue of what the placement words say, modulo the number of domains.
The remainder of C keeps the sign and the integers have widths, so that this holds of the
entries exactly when the widths lose nothing that matters modulo the number of domains.
-/

namespace PChase

open CInt CountLoop
set_option autoImplicit false

def Kept (domains x v : Int) : Prop := domains ∣ v - x ∧ (0 ≤ x ∨ domains ∣ v)

def IsResidue (domains : Int) (value entry : Option Int) : Prop :=
  ∃ v d, value = some v ∧ entry = some d ∧ d = v % domains ∧ 0 ≤ d ∧ d < domains

section Residues
variable {domains x v : Int} (hpos : 1 ≤ domains)
include hpos

theorem tmod_eq_emod_iff : x.tmod domains = v % domains ↔ Kept domains x v := by
  unfold Kept
  rw [Int.tmod_eq_emod]
  have hx := Int.emod_nonneg x (b := domains) (by omega)
  have hx' := Int.emod_lt_of_pos x (b := domains) (by omega)
  have hv := Int.emod_nonneg v (b := domains) (by omega)
  have hsame : domains ∣ v - x ↔ x % domains = v % domains := by
    rw [eq_comm, Int.emod_eq_emod_iff_emod_sub_eq_zero, Int.dvd_iff_emod_eq_zero]
  rw [hsame]
  split
  · rename_i h
    rw [Nat.cast_zero, Int.sub_zero]
    constructor
    · intro heq
      refine ⟨heq, h.imp_right ?_⟩
      intro hdvd
      rw [Int.dvd_iff_emod_eq_zero] at hdvd ⊢
      omega
    · exact And.left
  · rename_i h
    rw [not_or] at h
    constructor
    · intro heq
      omega
    · intro hkept
      obtain ⟨heq, hle | hdvd⟩ := hkept
      · omega
      · rw [Int.dvd_iff_emod_eq_zero] at hdvd h
        omega

theorem isResidue_tmod_iff :
    IsResidue domains (some v) (some (x.tmod domains)) ↔ Kept domains x v := by
  rw [← tmod_eq_emod_iff hpos]
  have hv := Int.emod_nonneg v (b := domains) (by omega)
  have hv' := Int.emod_lt_of_pos v (b := domains) (by omega)
  constructor
  · intro h
    obtain ⟨v', d, hvalue, hentry, hd, _, _⟩ := h
    obtain rfl := Option.some.inj hvalue
    obtain rfl := Option.some.inj hentry
    exact hd
  · intro h
    exact ⟨v, _, rfl, rfl, h, by omega, by omega⟩

theorem wrap32_tmod (hlt : domains < 2147483648) : wrap32 (x.tmod domains) = x.tmod domains := by
  have hbound := tmod_lt (x := x) (n := domains) (by omega)
  exact wrap32_of_inInt32 ⟨by omega, by omega⟩

omit hpos in
theorem kept_self (hv : 0 ≤ v) : Kept domains v v :=
  ⟨by rw [Int.sub_self]; exact dvd_zero domains, .inl hv⟩

end Residues

/-- What the placement words ask for: a domain computed from that of the thread, or a map. -/
inductive DomainPlacement where
  | computed (chainOf : Int → Int)
  | map (text : CStr)

variable {p : Platform}

def placementOf (phrases : List (Phrase p)) : DomainPlacement :=
  match lastWriter .numaPlacement phrases with
  | none => .computed fun d => d
  | some x =>
    match x.setting with
    | .numaXor _ => .computed fun d => (d.toNat ^^^ numberValue x.argument : Nat)
    | .numaAdd _ => .computed fun d => d + numberValue x.argument
    | .numaMap _ => .map x.argument
    | _ => .computed fun d => d

/-- The expression for the domain of a thread; a map may have none. -/
def threadValue (domains : Int) (placement : DomainPlacement) (i : Nat) : Option Int :=
  match placement with
  | .computed _ => some (i % domains)
  | .map text => (scanned text)[i]?.map fun g => (numberValue g.thread : Int)

def chainValue (domains : Int) (placement : DomainPlacement) (i j : Nat) : Option Int :=
  match placement with
  | .computed chainOf => some (chainOf (i % domains))
  | .map text => (scanned text)[i]?.bind fun g => g.chains[j]?.map fun t => (numberValue t : Int)

/-- Every thread and chain is on the residue of its expression. -/
def Experiment.DomainsExist (e : Experiment) (domains : Int) (placement : DomainPlacement) : Prop :=
  ∀ i < e.numThreads.toNat,
    IsResidue domains (threadValue domains placement i) (e.threadDomain.getD i none) ∧
      ∀ j < e.chainsPerThread.toNat, IsResidue domains (chainValue domains placement i j)
        ((e.chainDomain.getD i []).getD j none)

def threadCount (phrases : List (Phrase p)) : Nat :=
  (wrap64 ((statedNumber .threads phrases).getD 1 : Nat)).toNat

/-- The widths keep the residues: 64 bits of a computed expression, 32 of a number in a map,
which has to be complete. -/
def ResiduesKept (domains : Int) (threads : Nat) (placement : DomainPlacement) : Prop :=
  match placement with
  | .computed chainOf => ∀ i < threads,
      Kept domains (wrap64 (chainOf ((i : Int) % domains))) (chainOf ((i : Int) % domains))
  | .map text => MapComplete text ∧ ∀ g ∈ scanned text, ∀ word ∈ g.thread :: g.chains,
      Kept domains (wrap32 (numberValue word)) (numberValue word)

section Computed

def Experiment.chainOf (e : Experiment) (d : Int) : Int :=
  match e.numaPlacement with
  | .numaXor => wrap32 ((xor64 d e.offsetOrMask).tmod e.numNumaDomains)
  | .numaAdd => wrap32 ((wrap64 (d + e.offsetOrMask)).tmod e.numNumaDomains)
  | _ => d

theorem allocPlaced_eq (e : Experiment) : allocPlaced e = allocDomains e e.chainOf := by
  unfold allocPlaced Experiment.chainOf
  cases e.numaPlacement
  all_goals rfl

theorem allocComputed_entries {e e' : Experiment} (h : allocComputed e = some e') :
    e'.numThreads = e.numThreads ∧ ∀ i < e'.numThreads.toNat,
      e'.threadDomain.getD i none = some (wrap32 ((i : Int).tmod e.numNumaDomains)) ∧
        ∀ j < e'.chainsPerThread.toNat, (e'.chainDomain.getD i []).getD j none =
          some (e.chainOf (wrap32 ((i : Int).tmod e.numNumaDomains))) := by
  obtain ⟨_, seeds, _, _, hplaced⟩ := (allocComputed_eq_some_iff e e').mp h
  rw [allocPlaced_eq] at hplaced
  obtain ⟨threads, hthreads, hrest⟩ := Option.bind_eq_some_iff.mp hplaced
  obtain ⟨chains, hchains, he⟩ := Option.bind_eq_some_iff.mp hrest
  obtain ⟨_, rfl⟩ := (countUp_eq_some_iff _ _).mp hthreads
  obtain ⟨_, rfl⟩ := (countUp_eq_some_iff _ _).mp hchains
  simp only [Option.pure_def, Option.some.injEq] at he
  subst he
  refine ⟨rfl, ?_⟩
  intro i hi
  have hi' : i < e.numThreads.toNat := hi
  constructor
  · simp [Experiment.setRandomState, hi']
  · intro j hj
    have hj' : j < e.chainsPerThread.toNat := hj
    simp [Experiment.setRandomState, hi', hj']
    rfl

end Computed

section Written

theorem xor64_wrap64 (d n : Nat) : xor64 d (wrap64 n) = wrap64 (d ^^^ n : Nat) := by
  have hwrap : BitVec.ofInt 64 (wrap64 n) = BitVec.ofNat 64 n := by
    apply BitVec.eq_of_toInt_eq
    rw [BitVec.toInt_ofInt, BitVec.toInt_ofNat']
    exact Int.bmod_bmod
  unfold xor64
  rw [hwrap, BitVec.ofInt_natCast, ← BitVec.ofNat_xor, BitVec.toInt_ofNat']
  rfl

theorem wrap64_add_wrap64 (x y : Int) : wrap64 (x + wrap64 y) = wrap64 (x + y) :=
  Int.add_bmod_bmod

theorem domainNumber_eq (text : CStr) : domainNumber text = wrap32 (numberValue text) := by
  rw [domainNumber, parseNumber_eq, wrap32_wrap64]

variable {phrases : List (Phrase p)} {x : Phrase p}

theorem lastWriter_of_subset {slot slot' : Slot} (hx : lastWriter slot phrases = some x)
    (hsub : ∀ y : Setting, (slot'.write y).isSome → (slot.write y).isSome)
    (hwrite : (slot'.write x.setting).isSome) : lastWriter slot' phrases = some x := by
  have hfilter : phrases.filter (fun y => (slot'.write y.setting).isSome) =
      (phrases.filter fun y => (slot.write y.setting).isSome).filter
        fun y => (slot'.write y.setting).isSome := by
    rw [List.filter_filter]
    apply List.filter_congr
    intro y _
    cases hy : (slot'.write y.setting).isSome with
    | false => rfl
    | true => rw [hsub y.setting hy, Bool.true_and]
  obtain ⟨ys, hys⟩ := List.getLast?_eq_some_iff.mp hx
  unfold lastWriter
  rw [hfilter, hys, List.filter_append, List.filter_singleton]
  simp [hwrite]

theorem placement_of_mask (y : Setting) (h : (Slot.offsetOrMask.write y).isSome) :
    (Slot.numaPlacement.write y).isSome := by
  cases y
  all_goals first | rfl | cases h

theorem placement_of_map (y : Setting) (h : (Slot.placementMap.write y).isSome) :
    (Slot.numaPlacement.write y).isSome := by
  cases y
  all_goals first | rfl | cases h

theorem Phrase.numaXor_eq {m : Int} (h : x.setting = .numaXor m) : m = parseNumber x.argument := by
  obtain ⟨words, setting, hreads⟩ := x
  subst h
  cases hreads
  rfl

theorem Phrase.numaAdd_eq {m : Int} (h : x.setting = .numaAdd m) : m = parseNumber x.argument := by
  obtain ⟨words, setting, hreads⟩ := x
  subst h
  cases hreads
  rfl

theorem Phrase.numaMap_eq {s : CStr} (h : x.setting = .numaMap s) : s = x.argument := by
  obtain ⟨words, setting, hreads⟩ := x
  subst h
  cases hreads
  rfl

def Experiment.Places (e : Experiment) (placement : DomainPlacement) : Prop :=
  match placement with
  | .computed chainOf => e.numaPlacement ≠ .numaMap ∧ ∀ d : Nat,
      (e.numaPlacement = .numaLocal ∧ chainOf d = d) ∨
      (e.numaPlacement = .numaXor ∧ xor64 d e.offsetOrMask = wrap64 (chainOf d)) ∨
      (e.numaPlacement = .numaAdd ∧ wrap64 (d + e.offsetOrMask) = wrap64 (chainOf d))
  | .map text => e.numaPlacement = .numaMap ∧ e.placementMap = some text

theorem mask_of_lastWriter {phrases : List (Phrase p)} {m : Int}
    (hx : lastWriter .numaPlacement phrases = some x)
    (hs : x.setting = .numaXor m ∨ x.setting = .numaAdd m) :
    (requested phrases).offsetOrMask = m := by
  rcases hs with hs | hs
  · have hwriter : lastWriter .offsetOrMask phrases = some x :=
      lastWriter_of_subset hx placement_of_mask (by rw [hs]; rfl)
    exact read_of_lastWriter hwriter (by rw [hs]; rfl)
  · have hwriter : lastWriter .offsetOrMask phrases = some x :=
      lastWriter_of_subset hx placement_of_mask (by rw [hs]; rfl)
    exact read_of_lastWriter hwriter (by rw [hs]; rfl)

theorem requested_places (phrases : List (Phrase p)) :
    (requested phrases).Places (placementOf phrases) := by
  unfold placementOf
  split
  · rename_i hx
    have hplacement : (requested phrases).numaPlacement = .numaLocal := read_of_no_writer hx
    refine ⟨by rw [hplacement]; decide, ?_⟩
    intro d
    exact .inl ⟨hplacement, rfl⟩
  · rename_i x hx
    have hwrite := write_of_lastWriter hx
    cases hs : x.setting with
    | numaLocal =>
      have hplacement : (requested phrases).numaPlacement = .numaLocal :=
        read_of_lastWriter hx (by rw [hs]; rfl)
      refine ⟨by rw [hplacement]; decide, ?_⟩
      intro d
      exact .inl ⟨hplacement, rfl⟩
    | numaXor m =>
      have hplacement : (requested phrases).numaPlacement = .numaXor :=
        read_of_lastWriter hx (by rw [hs]; rfl)
      refine ⟨by rw [hplacement]; decide, ?_⟩
      intro d
      refine .inr (.inl ⟨hplacement, ?_⟩)
      rw [mask_of_lastWriter hx (.inl hs), Phrase.numaXor_eq hs, parseNumber_eq, xor64_wrap64]
      rfl
    | numaAdd m =>
      have hplacement : (requested phrases).numaPlacement = .numaAdd :=
        read_of_lastWriter hx (by rw [hs]; rfl)
      refine ⟨by rw [hplacement]; decide, ?_⟩
      intro d
      refine .inr (.inr ⟨hplacement, ?_⟩)
      rw [mask_of_lastWriter hx (.inr hs), Phrase.numaAdd_eq hs, parseNumber_eq, wrap64_add_wrap64]
    | numaMap s =>
      have hplacement : (requested phrases).numaPlacement = .numaMap :=
        read_of_lastWriter hx (by rw [hs]; rfl)
      have hwriter : lastWriter .placementMap phrases = some x :=
        lastWriter_of_subset hx placement_of_map (by rw [hs]; rfl)
      have hmap : (requested phrases).placementMap = some s :=
        read_of_lastWriter hwriter (by rw [hs]; rfl)
      exact ⟨hplacement, by rw [hmap, Phrase.numaMap_eq hs]⟩
    | _ => simp [hs, Slot.write] at hwrite

end Written

theorem threadCount_eq (phrases : List (Phrase p)) :
    threadCount phrases = (requested phrases).numThreads.toNat := by
  have hget : (requested phrases).numThreads =
      wrap64 ((statedNumber .threads phrases).getD 1 : Nat) := by
    cases hs : statedNumber .threads phrases with
    | none => exact get_of_not_stated (by decide) hs
    | some v => exact (get_of_statedNumber hs).1
  rw [threadCount, hget]

section Outcome
variable {e e' : Experiment} {domains : Int} (hpos : 1 ≤ domains) (hlt : domains < 2147483648)
include hpos hlt

theorem chainOf_isResidue_iff {chainOf : Int → Int} (hn : e.numNumaDomains = domains)
    (hplaces : e.Places (.computed chainOf)) (d : Nat) (hd : (d : Int) < domains) :
    IsResidue domains (some (chainOf d)) (some (e.chainOf d)) ↔
      Kept domains (wrap64 (chainOf d)) (chainOf d) := by
  unfold Experiment.chainOf
  obtain ⟨hmode, hvalue⟩ | ⟨hmode, hvalue⟩ | ⟨hmode, hvalue⟩ := hplaces.2 d
  · have hd64 : wrap64 (d : Int) = d := wrap64_of_inInt64 ⟨by omega, by omega⟩
    rw [hmode, hvalue, hd64]
    exact iff_of_true
      ⟨d, d, rfl, rfl, (Int.emod_eq_of_lt (by omega) hd).symm, by omega, hd⟩
      (kept_self (by omega))
  · rw [hmode]
    simp only [hvalue, hn]
    rw [wrap32_tmod hpos hlt]
    exact isResidue_tmod_iff hpos
  · rw [hmode]
    simp only [hvalue, hn]
    rw [wrap32_tmod hpos hlt]
    exact isResidue_tmod_iff hpos

/-- The tables of a computed placement are right when 64 bits keep the residues. -/
theorem computed_domains_exist_iff {chainOf : Int → Int} (hn : e.numNumaDomains = domains)
    (hchains : 1 ≤ e'.chainsPerThread) (hplaces : e.Places (.computed chainOf))
    (h : allocComputed e = some e') : e'.DomainsExist domains (.computed chainOf) ↔
      ResiduesKept domains e.numThreads.toNat (.computed chainOf) := by
  obtain ⟨hthreads, hentries⟩ := allocComputed_entries h
  have hiff : ∀ i < e.numThreads.toNat, (IsResidue domains (some ((i : Int) % domains))
      (e'.threadDomain.getD i none) ∧ ∀ j < e'.chainsPerThread.toNat,
        IsResidue domains (some (chainOf ((i : Int) % domains)))
          ((e'.chainDomain.getD i []).getD j none)) ↔
      Kept domains (wrap64 (chainOf ((i : Int) % domains))) (chainOf ((i : Int) % domains)) := by
    intro i hi
    obtain ⟨hthread, hchain⟩ := hentries i (hthreads ▸ hi)
    have hrem : wrap32 ((i : Int).tmod e.numNumaDomains) = (i : Int) % domains := by
      rw [hn, wrap32_tmod hpos hlt, Int.tmod_eq_emod_of_nonneg (by omega)]
    have hmod := Int.emod_nonneg (i : Int) (b := domains) (by omega)
    have hmod' := Int.emod_lt_of_pos (i : Int) (b := domains) (by omega)
    rw [hrem] at hthread hchain
    obtain ⟨d, hd⟩ := Int.eq_ofNat_of_zero_le hmod
    rw [hd] at hthread hchain hmod' ⊢
    have hfirst : IsResidue domains (some (d : Int)) (e'.threadDomain.getD i none) := by
      rw [hthread]
      exact ⟨d, d, rfl, rfl, (Int.emod_eq_of_lt (by omega) hmod').symm, by omega, hmod'⟩
    have hall : (∀ j < e'.chainsPerThread.toNat, IsResidue domains (some (chainOf d))
        ((e'.chainDomain.getD i []).getD j none)) ↔
        IsResidue domains (some (chainOf d)) (some (e.chainOf d)) := by
      constructor
      · intro hj
        have hzero := hj 0 (by omega)
        rwa [hchain 0 (by omega)] at hzero
      · intro hone j hj
        rwa [hchain j hj]
    rw [hall, and_iff_right hfirst]
    exact chainOf_isResidue_iff hpos hlt hn hplaces d hmod'
  unfold Experiment.DomainsExist ResiduesKept
  rw [hthreads]
  exact forall₂_congr hiff

omit hlt in
theorem isResidue_word_iff (word : CStr) : IsResidue domains (some (numberValue word : Int))
    (some ((domainNumber word).tmod domains)) ↔
      Kept domains (wrap32 (numberValue word)) (numberValue word) := by
  rw [domainNumber_eq]
  exact isResidue_tmod_iff hpos

omit hpos hlt in
theorem threadValue_scanned {text : CStr} {i : Nat} (hi : i < (scanned text).length) :
    threadValue domains (.map text) i = some (numberValue (scanned text)[i].thread : Int) := by
  simp [threadValue, hi]

omit hpos hlt in
theorem chainValue_scanned {text : CStr} {i j : Nat} (hi : i < (scanned text).length)
    (hj : j < (scanned text)[i].chains.length) :
    chainValue domains (.map text) i j = some (numberValue (scanned text)[i].chains[j] : Int) := by
  simp [chainValue, hi, hj]

omit hpos hlt in
theorem Experiment.DomainsExist.fullyAssigned {placement : DomainPlacement} (htables : e.Tables)
    (hexist : e.DomainsExist domains placement) : e.FullyAssigned := by
  constructor
  · intro d hmem
    obtain ⟨i, hi, rfl⟩ := List.getElem_of_mem hmem
    obtain ⟨_, d, _, hd, _⟩ := (hexist i (htables.threads ▸ hi)).1
    rw [List.getD_eq_getElem _ _ hi] at hd
    simp [hd]
  · intro row hrow d hmem
    have hlength := htables.chains row hrow
    obtain ⟨i, hi, rfl⟩ := List.getElem_of_mem hrow
    obtain ⟨j, hj, rfl⟩ := List.getElem_of_mem hmem
    obtain ⟨_, d, _, hd, _⟩ := (hexist i (htables.groups ▸ hi)).2 j (hlength ▸ hj)
    rw [List.getD_eq_getElem _ _ hi, List.getD_eq_getElem _ _ hj] at hd
    simp [hd]

omit hlt in
/-- The tables of a map are right when it is complete and 32 bits keep the residues. -/
theorem map_domains_exist_iff {text : CStr} (hn : e.numNumaDomains = domains)
    (h : allocMap e text = .ok e') (threads : Nat) : e'.DomainsExist domains (.map text) ↔
      ResiduesKept domains threads (.map text) := by
  obtain ⟨hlen, hle, hthreads, hchains, hthread, hchain⟩ := allocMap_ok h
  rw [hn] at hthread hchain
  have hentry : ∀ i (hi : i < (scanned text).length), i < (countThreads 1 text).toNat →
      e'.threadDomain.getD i none =
          some ((domainNumber (scanned text)[i].thread).tmod domains) ∧
        ∀ j (hj : j < (scanned text)[i].chains.length), j < (countChains 1 text).toNat →
          (e'.chainDomain.getD i []).getD j none =
            some ((domainNumber (scanned text)[i].chains[j]).tmod domains) := by
    intro i hi hi'
    rw [hthread, hchain]
    refine ⟨by simp [hi, hi'], ?_⟩
    intro j hj hj'
    simp [hi, hi', hj, hj']
  constructor
  · intro hexist
    have hcomplete := (fullyAssigned_iff_complete h).mp (hexist.fullyAssigned (allocMap_tables h))
    unfold Experiment.DomainsExist at hexist
    rw [hthreads, hchains] at hexist
    refine ⟨hcomplete, ?_⟩
    intro g hg word hmem
    obtain ⟨i, hi, rfl⟩ := List.getElem_of_mem hg
    obtain ⟨hfirst, hrest⟩ := hexist i (by omega)
    obtain ⟨hthread', hchain'⟩ := hentry i hi (by omega)
    rcases List.mem_cons.mp hmem with rfl | hmem
    · rw [threadValue_scanned hi, hthread'] at hfirst
      exact (isResidue_word_iff hpos _).mp hfirst
    · obtain ⟨j, hj, rfl⟩ := List.getElem_of_mem hmem
      have hshort := hle _ hg
      have hresidue := hrest j (by omega)
      rw [chainValue_scanned hi hj, hchain' j hj (by omega)] at hresidue
      exact (isResidue_word_iff hpos _).mp hresidue
  · intro hkept
    unfold Experiment.DomainsExist
    rw [hthreads, hchains]
    intro i hi
    obtain ⟨⟨hcount, hgroups⟩, hwords⟩ := hkept
    have hi' : i < (scanned text).length := by omega
    have hmem := List.getElem_mem hi'
    obtain ⟨hthread', hchain'⟩ := hentry i hi' hi
    constructor
    · rw [threadValue_scanned hi', hthread']
      exact (isResidue_word_iff hpos _).mpr (hwords _ hmem _ (List.mem_cons_self ..))
    · intro j hj
      have hj' : j < (scanned text)[i].chains.length := by
        have := hgroups _ hmem
        omega
      rw [chainValue_scanned hi' hj', hchain' j hj' hj]
      exact (isResidue_word_iff hpos _).mpr (hwords _ hmem _ (List.mem_cons_of_mem _ (List.getElem_mem hj')))

end Outcome

/-- Every domain exists and is the residue of its expression exactly when the widths keep
the residues and a map is complete. -/
theorem domains_exist_iff {args : List CStr} {e : Experiment}
    (h : parseArgs p args = .accepted e) :
    (∃ phrases : List (Phrase p), args = commandWords phrases) ∧
      ∀ phrases : List (Phrase p), args = commandWords phrases →
        (e.DomainsExist (p.numaMaxNode + 1) (placementOf phrases) ↔
          ResiduesKept (p.numaMaxNode + 1) (threadCount phrases) (placementOf phrases)) := by
  refine ⟨exists_phrases h, ?_⟩
  intro phrases hargs
  subst hargs
  have hpos : 1 ≤ p.numaMaxNode + 1 := by
    have := p.numaMaxNode_nonneg
    omega
  have hchains := (accepted_of_parseArgs h).chainsPerThread_pos
  have hplaces := requested_places phrases
  rw [parseArgs_commandWords] at h
  obtain ⟨e₁, hd, ⟨hmap, ha⟩ | ⟨hne, hc⟩⟩ := (allocate_eq_accepted_iff p _ e).mp h
  · have hsame : Slot.Kept .numaPlacement ∧ Slot.Kept .placementMap := ⟨trivial, trivial⟩
    have hmode := (deriveSizes_read hsame.1 hd).symm.trans hmap
    have htext := deriveSizes_read hsame.2 hd
    cases hplacement : placementOf phrases with
    | computed chainOf =>
      rw [hplacement] at hplaces
      exact absurd hmode hplaces.1
    | map text =>
      rw [hplacement] at hplaces
      have htext' : e₁.placementMap = some text := htext.trans hplaces.2
      rw [htext', Option.getD_some] at ha
      exact map_domains_exist_iff hpos rfl ha _
  · have hmode : e₁.numaPlacement = (requested phrases).numaPlacement := deriveSizes_read
      (show Slot.Kept .numaPlacement from trivial) hd
    have hmask : e₁.offsetOrMask = (requested phrases).offsetOrMask := deriveSizes_read
      (show Slot.Kept .offsetOrMask from trivial) hd
    have hcount : e₁.numThreads = (requested phrases).numThreads := (deriveSizes_keeps hd).2.1
    cases hplacement : placementOf phrases with
    | map text =>
      rw [hplacement] at hplaces
      exact absurd (hmode.trans hplaces.1) hne
    | computed chainOf =>
      rw [hplacement] at hplaces
      have hplaces' : (e₁.setNuma p).Places (.computed chainOf) := by
        unfold Experiment.Places at hplaces ⊢
        rw [← hmode, ← hmask] at hplaces
        exact hplaces
      rw [threadCount_eq, ← hcount]
      exact computed_domains_exist_iff (e := e₁.setNuma p) hpos p.numaMaxNode_lt rfl hchains
        hplaces' hc

def threeNodes : Platform := ⟨2, id, by decide, by decide⟩

def nextNode : Phrase threeNodes :=
  ⟨["-n".toList, "add".toList, "1".toList], .numaAdd (parseNumber "1".toList),
    .numaAdd (by decide) (by decide)⟩

theorem next_node_domains_exist : ∃ e,
    parseArgs threeNodes (commandWords [nextNode]) = .accepted e ∧
      e.DomainsExist 3 (placementOf [nextNode]) := by
  have hrun : ∃ e, parseArgs threeNodes (commandWords [nextNode]) = .accepted e := ⟨_, rfl⟩
  obtain ⟨e, he⟩ := hrun
  refine ⟨e, he, ((domains_exist_iff he).2 [nextNode] rfl).mpr ?_⟩
  have hcount : threadCount [nextNode] = 1 := by decide +kernel
  intro i hi
  rw [hcount] at hi
  obtain rfl : i = 0 := Nat.lt_one_iff.mp hi
  exact ⟨by decide +kernel, by decide +kernel⟩

def farOffset : Phrase threeNodes :=
  ⟨["-n".toList, "add".toList, "9223372036854775808".toList],
    .numaAdd (parseNumber "9223372036854775808".toList), .numaAdd (by decide) (by decide)⟩

/-- An offset of 2^63 is kept as -2^63, and the chain is sent to domain -2. -/
theorem far_offset_negative_domain : ∃ e,
    parseArgs threeNodes (commandWords [farOffset]) = .accepted e ∧
      e.chainDomain = [[some (-2)]] ∧ ¬ e.DomainsExist 3 (placementOf [farOffset]) := by
  have hrequested : requested [farOffset] =
      { numaPlacement := .numaAdd, offsetOrMask := -9223372036854775808 } := by decide +kernel
  have hrun : ∃ e, parseArgs threeNodes (commandWords [farOffset]) = .accepted e ∧
      e.chainDomain = [[some (-2)]] ∧ e.numThreads = 1 ∧ e.chainsPerThread = 1 := by
    rw [parseArgs_commandWords, hrequested]
    exact ⟨_, rfl, by decide +kernel, rfl, rfl⟩
  obtain ⟨e, he, hchain, hthreads, hchains⟩ := hrun
  refine ⟨e, he, hchain, ?_⟩
  intro hexist
  obtain ⟨v, d, _, hd, _, hnonneg, _⟩ :=
    (hexist 0 (by rw [hthreads]; decide)).2 0 (by rw [hchains]; decide)
  rw [hchain] at hd
  obtain rfl : -2 = d := Option.some.inj hd
  omega

end PChase
