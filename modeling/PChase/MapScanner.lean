import Mathlib.Computability.StateTransition
import PChase.MapReading

/-!
# The scanning loop of `alloc_map`, step by step

Lines 652 to 698 as a machine: one step for each test of the cursor, with the array
elements that the step writes. Its runs end on every string, and they end as `alloc_map`
does.
-/

namespace PChase

open CInt StateTransition
set_option autoImplicit false

section Runs
variable {σ : Type*} {step : σ → Option σ} {a b : σ}

/-- What every step keeps holds of all that is reached. -/
theorem Reaches.keeps {Keeps : σ → Prop} (hreach : Reaches step a b)
    (hstep : ∀ x y, step x = some y → Keeps x → Keeps y) (ha : Keeps a) : Keeps b := by
  induction hreach with
  | refl => exact ha
  | tail _ hxy ih => exact hstep _ _ hxy ih

/-- A machine stops when every step lowers a number. -/
theorem eval_dom_of_lt (size : σ → Nat) (hstep : ∀ x y, step x = some y → size y < size x)
    (a : σ) : (eval step a).Dom := by
  induction h : size a using Nat.strong_induction_on generalizing a with
  | _ n ih =>
    subst h
    cases hnext : step a with
    | none => exact Part.dom_iff_mem.mpr ⟨a, mem_eval.mpr ⟨.refl, hnext⟩⟩
    | some b =>
      rw [reaches_eval (Relation.ReflTransGen.single (Option.mem_def.mpr hnext))]
      exact ih _ (hstep a b hnext) b rfl

end Runs

inductive ScanPoint where
  /-- before the test of the loop over the groups -/
  | group
  /-- before the test of the loop that copies a thread domain -/
  | threadText
  /-- before the test of the loop over the chains -/
  | chain
  /-- before the test of the loop that copies a chain domain -/
  | chainText
  | done
  /-- `Malformed map.` and `exit(1)` -/
  | malformed
  deriving Repr, DecidableEq

/-- The variables of the loop: the string from `p` on, and `buf` up to `i`. -/
structure Scanner where
  point : ScanPoint
  rest : CStr
  t : Nat
  c : Nat
  buf : CStr
  tables : MapTables

def Scanner.start (map : CStr) : Scanner := ⟨.group, map, 0, 0, [], .empty⟩

/-- A write to `buf[i]`, to `thread_domain[t]` or to `chain_domain[t][c]`. -/
inductive MapWrite where
  | buf (i : Nat)
  | thread (t : Nat)
  | chain (t c : Nat)
  deriving Repr, DecidableEq

def MapWrite.Inside (threads chains : Int) : MapWrite → Prop
  | .buf i => i < 64
  | .thread t => t < threads
  | .chain t c => t < threads ∧ c < chains

instance MapWrite.decidableInside (threads chains : Int) (w : MapWrite) :
    Decidable (w.Inside threads chains) :=
  match w with
  | .buf i => inferInstanceAs (Decidable (i < 64))
  | .thread t => inferInstanceAs (Decidable ((t : Int) < threads))
  | .chain t c => inferInstanceAs (Decidable ((t : Int) < threads ∧ (c : Int) < chains))

namespace Scanner

/-- Lines 667 to 671. -/
def endThread (s : Scanner) (rest : CStr) : Scanner × List MapWrite :=
  ({ s with
      point := .chain
      rest
      c := 0
      tables := s.tables.setThread s.t (domainNumber s.buf) },
    [.buf s.buf.length, .thread s.t])

/-- Lines 688 to 690. -/
def endChain (s : Scanner) (rest : CStr) : Scanner × List MapWrite :=
  ({ s with
      point := .chain
      rest
      c := s.c + 1
      tables := s.tables.setChain s.t s.c (domainNumber s.buf) },
    [.buf s.buf.length, .chain s.t s.c])

/-- `buf[i] = *p; i++; p++;` -/
def copy (s : Scanner) (ch : Char) (rest : CStr) : Scanner × List MapWrite :=
  ({ s with rest, buf := s.buf ++ [ch] }, [.buf s.buf.length])

/-- One test of the cursor and what follows it up to the next test. -/
def turn (threads chains : Int) (s : Scanner) : Option (Scanner × List MapWrite) :=
  match s.point, s.rest with
  | .group, [] => some ({ s with point := .done }, [])
  | .group, _ :: _ => some ({ s with point := .threadText, buf := [] }, [])
  | .threadText, [] => some (s.endThread [])
  | .threadText, ch :: p => some (if ch = ':' then s.endThread p else s.copy ch p)
  | .chain, [] => some ({ s with point := .done }, [])
  | .chain, ch :: p =>
    if ch = ';' then some ({ s with point := .group, rest := p, t := s.t + 1 }, [])
    else if chains ≤ s.c ∨ threads ≤ s.t then some ({ s with point := .malformed }, [])
    else some ({ s with point := .chainText, buf := [] }, [])
  | .chainText, [] => some (s.endChain [])
  | .chainText, ch :: p =>
    if ch = ';' then some (s.endChain (ch :: p))
    else some (if ch = ',' then s.endChain p else s.copy ch p)
  | .done, _ => none
  | .malformed, _ => none

def step (threads chains : Int) (s : Scanner) : Option Scanner :=
  (s.turn threads chains).map Prod.fst

inductive Moves (threads chains : Int) : Scanner → Scanner × List MapWrite → Prop where
  | mapEnd (t c : Nat) (buf : CStr) (m : MapTables) :
      Moves threads chains ⟨.group, [], t, c, buf, m⟩ (⟨.done, [], t, c, buf, m⟩, [])
  | group (ch : Char) (p : CStr) (t c : Nat) (buf : CStr) (m : MapTables) :
      Moves threads chains ⟨.group, ch :: p, t, c, buf, m⟩
        (⟨.threadText, ch :: p, t, c, [], m⟩, [])
  | threadEnd (t c : Nat) (buf : CStr) (m : MapTables) :
      Moves threads chains ⟨.threadText, [], t, c, buf, m⟩
        (endThread ⟨.threadText, [], t, c, buf, m⟩ [])
  | threadColon (p : CStr) (t c : Nat) (buf : CStr) (m : MapTables) :
      Moves threads chains ⟨.threadText, ':' :: p, t, c, buf, m⟩
        (endThread ⟨.threadText, ':' :: p, t, c, buf, m⟩ p)
  | threadChar (ch : Char) (p : CStr) (t c : Nat) (buf : CStr) (m : MapTables) (hch : ch ≠ ':') :
      Moves threads chains ⟨.threadText, ch :: p, t, c, buf, m⟩
        (copy ⟨.threadText, ch :: p, t, c, buf, m⟩ ch p)
  | chainsEnd (t c : Nat) (buf : CStr) (m : MapTables) :
      Moves threads chains ⟨.chain, [], t, c, buf, m⟩ (⟨.done, [], t, c, buf, m⟩, [])
  | chainsSemi (p : CStr) (t c : Nat) (buf : CStr) (m : MapTables) :
      Moves threads chains ⟨.chain, ';' :: p, t, c, buf, m⟩ (⟨.group, p, t + 1, c, buf, m⟩, [])
  | refused (ch : Char) (p : CStr) (t c : Nat) (buf : CStr) (m : MapTables) (hch : ch ≠ ';')
      (hfull : chains ≤ c ∨ threads ≤ t) :
      Moves threads chains ⟨.chain, ch :: p, t, c, buf, m⟩
        (⟨.malformed, ch :: p, t, c, buf, m⟩, [])
  | chain (ch : Char) (p : CStr) (t c : Nat) (buf : CStr) (m : MapTables) (hch : ch ≠ ';')
      (hthread : t < threads) (hchain : c < chains) :
      Moves threads chains ⟨.chain, ch :: p, t, c, buf, m⟩
        (⟨.chainText, ch :: p, t, c, [], m⟩, [])
  | chainEnd (t c : Nat) (buf : CStr) (m : MapTables) :
      Moves threads chains ⟨.chainText, [], t, c, buf, m⟩
        (endChain ⟨.chainText, [], t, c, buf, m⟩ [])
  | chainSemi (p : CStr) (t c : Nat) (buf : CStr) (m : MapTables) :
      Moves threads chains ⟨.chainText, ';' :: p, t, c, buf, m⟩
        (endChain ⟨.chainText, ';' :: p, t, c, buf, m⟩ (';' :: p))
  | chainComma (p : CStr) (t c : Nat) (buf : CStr) (m : MapTables) :
      Moves threads chains ⟨.chainText, ',' :: p, t, c, buf, m⟩
        (endChain ⟨.chainText, ',' :: p, t, c, buf, m⟩ p)
  | chainChar (ch : Char) (p : CStr) (t c : Nat) (buf : CStr) (m : MapTables) (hch : ch ≠ ';')
      (hcomma : ch ≠ ',') :
      Moves threads chains ⟨.chainText, ch :: p, t, c, buf, m⟩
        (copy ⟨.chainText, ch :: p, t, c, buf, m⟩ ch p)

section Turns
variable {threads chains : Int} {s s' : Scanner} {r : Scanner × List MapWrite}

theorem moves_of_turn (h : s.turn threads chains = some r) :
    Moves threads chains s r := by
  obtain ⟨point, rest, t, c, buf, m⟩ := s
  cases point with
  | group =>
    cases rest with
    | nil =>
      obtain rfl := Option.some.inj h
      exact .mapEnd t c buf m
    | cons ch p =>
      obtain rfl := Option.some.inj h
      exact .group ch p t c buf m
  | threadText =>
    cases rest with
    | nil =>
      obtain rfl := Option.some.inj h
      exact .threadEnd t c buf m
    | cons ch p =>
      simp only [turn, Option.some.injEq] at h
      by_cases hch : ch = ':'
      · subst hch
        rw [if_pos rfl] at h
        subst h
        exact .threadColon p t c buf m
      · rw [if_neg hch] at h
        subst h
        exact .threadChar ch p t c buf m hch
  | chain =>
    cases rest with
    | nil =>
      obtain rfl := Option.some.inj h
      exact .chainsEnd t c buf m
    | cons ch p =>
      simp only [turn] at h
      by_cases hch : ch = ';'
      · subst hch
        rw [if_pos rfl] at h
        obtain rfl := Option.some.inj h
        exact .chainsSemi p t c buf m
      rw [if_neg hch] at h
      by_cases hfull : chains ≤ c ∨ threads ≤ t
      · rw [if_pos hfull] at h
        obtain rfl := Option.some.inj h
        exact .refused ch p t c buf m hch hfull
      · rw [if_neg hfull] at h
        obtain rfl := Option.some.inj h
        exact .chain ch p t c buf m hch (by omega) (by omega)
  | chainText =>
    cases rest with
    | nil =>
      obtain rfl := Option.some.inj h
      exact .chainEnd t c buf m
    | cons ch p =>
      simp only [turn] at h
      by_cases hch : ch = ';'
      · subst hch
        rw [if_pos rfl] at h
        obtain rfl := Option.some.inj h
        exact .chainSemi p t c buf m
      rw [if_neg hch] at h
      by_cases hcomma : ch = ','
      · subst hcomma
        rw [if_pos rfl] at h
        obtain rfl := Option.some.inj h
        exact .chainComma p t c buf m
      · rw [if_neg hcomma] at h
        obtain rfl := Option.some.inj h
        exact .chainChar ch p t c buf m hch hcomma
  | done => cases h
  | malformed => cases h

theorem Moves.turn_eq (h : Moves threads chains s r) :
    s.turn threads chains = some r := by
  cases h with
  | mapEnd => rfl
  | group => rfl
  | threadEnd => rfl
  | threadColon => rfl
  | threadChar ch p t c buf m hch => simp only [turn, if_neg hch]
  | chainsEnd => rfl
  | chainsSemi => rfl
  | refused ch p t c buf m hch hfull => simp only [turn, if_neg hch, if_pos hfull]
  | chain ch p t c buf m hch hthread hchain =>
    have hroom : ¬ (chains ≤ c ∨ threads ≤ t) := by omega
    simp only [turn, if_neg hch, if_neg hroom]
  | chainEnd => rfl
  | chainSemi => rfl
  | chainComma => rfl
  | chainChar ch p t c buf m hch hcomma => simp only [turn, if_neg hch, if_neg hcomma]

theorem step_eq_some (h : s.step threads chains = some s') :
    ∃ ws, Moves threads chains s (s', ws) := by
  obtain ⟨r, hturn, rfl⟩ := Option.map_eq_some_iff.mp h
  exact ⟨r.2, moves_of_turn hturn⟩

theorem Moves.reaches (h : Moves threads chains s r) : Reaches (step threads chains) s r.1 := by
  apply Relation.ReflTransGen.single
  rw [Option.mem_def, step, h.turn_eq]
  rfl

end Turns

def loopsLeft : CStr → Nat
  | [] => 1
  | ch :: _ => if ch = ';' then 1 else 3

/-- Every turn lowers this: the characters that are left come first, then the loops from
the outside to the inside. -/
def size (s : Scanner) : Nat :=
  match s.point with
  | .group => 6 * s.rest.length + 5
  | .threadText => 6 * s.rest.length + 4
  | .chain => 6 * s.rest.length + loopsLeft s.rest
  | .chainText => 6 * s.rest.length + 2
  | .done => 0
  | .malformed => 0

section Termination
variable {threads chains : Int} {s : Scanner} {r : Scanner × List MapWrite}

theorem loopsLeft_pos (p : CStr) : 1 ≤ loopsLeft p ∧ loopsLeft p ≤ 3 := by
  cases p with
  | nil => decide
  | cons ch p =>
    by_cases hch : ch = ';'
    · simp [loopsLeft, hch]
    · simp [loopsLeft, hch]

theorem Moves.size_lt (h : Moves threads chains s r) : r.1.size < s.size := by
  cases h with
  | mapEnd => simp [size]
  | group => simp [size]
  | threadEnd => simp [size, endThread, loopsLeft]
  | threadColon p =>
    have hloops := loopsLeft_pos p
    simp only [size, endThread, List.length_cons]
    omega
  | threadChar ch p =>
    simp only [size, copy, List.length_cons]
    omega
  | chainsEnd => simp [size, loopsLeft]
  | chainsSemi p =>
    simp only [size, List.length_cons]
    omega
  | refused => simp [size]
  | chain ch p t c buf m hch => simp [size, loopsLeft, hch]
  | chainEnd => simp [size, endChain, loopsLeft]
  | chainSemi => simp [size, endChain, loopsLeft]
  | chainComma p =>
    have hloops := loopsLeft_pos p
    simp only [size, endChain, List.length_cons]
    omega
  | chainChar ch p =>
    simp only [size, copy, List.length_cons]
    omega

theorem eval_step_dom (threads chains : Int) (s : Scanner) : (eval (step threads chains) s).Dom := by
  apply eval_dom_of_lt size
  intro x y hstep
  obtain ⟨ws, hmove⟩ := step_eq_some hstep
  exact hmove.size_lt

end Termination

structure Counted (semicolons : Nat) (chains : Int) (s : Scanner) : Prop where
  groups : s.t + s.rest.count ';' ≤ semicolons
  room : s.point = .chainText → s.c < chains

section Counts
variable {threads chains : Int} {semicolons : Nat} {s s' : Scanner}
  {r : Scanner × List MapWrite}

theorem counted_start (map : CStr) (chains : Int) :
    Counted (map.count ';') chains (start map) := by
  constructor
  · simp [start]
  · intro hpoint
    cases hpoint

theorem Counted.move (hs : Counted semicolons chains s) (h : Moves threads chains s r) :
    Counted semicolons chains r.1 := by
  obtain ⟨hgroups, hroom⟩ := hs
  cases h with
  | mapEnd => exact ⟨hgroups, nofun⟩
  | group => exact ⟨hgroups, nofun⟩
  | threadEnd => exact ⟨hgroups, nofun⟩
  | threadColon p t => exact ⟨by simpa [endThread] using hgroups, nofun⟩
  | threadChar ch p t =>
    refine ⟨?_, nofun⟩
    have hle := List.count_le_count_cons (a := ';') (b := ch) (l := p)
    simp only [copy] at hgroups ⊢
    omega
  | chainsEnd => exact ⟨hgroups, nofun⟩
  | chainsSemi p t =>
    refine ⟨?_, nofun⟩
    simp only [List.count_cons_self] at hgroups ⊢
    omega
  | refused => exact ⟨hgroups, nofun⟩
  | chain ch p t c buf m hch hthread hchain => exact ⟨hgroups, fun _ => hchain⟩
  | chainEnd => exact ⟨hgroups, nofun⟩
  | chainSemi => exact ⟨hgroups, nofun⟩
  | chainComma p t => exact ⟨by simpa [endChain] using hgroups, nofun⟩
  | chainChar ch p t c buf m hch =>
    refine ⟨?_, fun _ => hroom rfl⟩
    rw [List.count_cons_of_ne hch] at hgroups
    exact hgroups

end Counts

def GroupsAhead (p : CStr) : Prop :=
  ∃ fuel, p.length ≤ fuel ∧ ∀ g ∈ scannedFrom fuel p, g.TextsFit

def ChainsAhead (p : CStr) : Prop :=
  (∀ text ∈ chainTexts (p.takeWhile (· ≠ ';')), text.length ≤ 63) ∧
    GroupsAhead ((p.dropWhile (· ≠ ';')).drop 1)

def TextsAhead (s : Scanner) : Prop :=
  match s.point with
  | .group => GroupsAhead s.rest
  | .threadText =>
    s.buf.length + (scanThread s.rest).1.length ≤ 63 ∧ ChainsAhead (scanThread s.rest).2
  | .chain => ChainsAhead s.rest
  | .chainText =>
    s.buf.length + (scanToken s.rest).1.length ≤ 63 ∧ ChainsAhead (scanToken s.rest).2
  | .done => True
  | .malformed => True

section Texts
variable {threads chains : Int} {s : Scanner} {r : Scanner × List MapWrite} {ch : Char} {p : CStr}

theorem GroupsAhead.thread (h : GroupsAhead (ch :: p)) :
    (scanThread (ch :: p)).1.length ≤ 63 ∧ ChainsAhead (scanThread (ch :: p)).2 := by
  obtain ⟨fuel, hfuel, hfit⟩ := h
  rw [List.length_cons] at hfuel
  obtain ⟨fuel, rfl⟩ : ∃ k, fuel = k + 1 := ⟨fuel - 1, by omega⟩
  rw [scannedFrom, List.forall_mem_cons] at hfit
  obtain ⟨⟨hthread, htexts⟩, hrest⟩ := hfit
  refine ⟨hthread, htexts, fuel, ?_, hrest⟩
  have hscan := (scanThread_suffix (ch :: p)).length_le
  have hdrop := ((scanThread (ch :: p)).2.dropWhile_suffix (· ≠ ';')).length_le
  rw [List.length_cons] at hscan
  rw [List.length_drop]
  omega

theorem ChainsAhead.semi (h : ChainsAhead (';' :: p)) : GroupsAhead p := by
  have hgroups := h.2
  simpa using hgroups

theorem ChainsAhead.token (h : ChainsAhead (ch :: p)) (hch : ch ≠ ';') :
    (scanToken (ch :: p)).1.length ≤ 63 ∧ ChainsAhead (scanToken (ch :: p)).2 := by
  obtain ⟨a, q, hsplit, ha, hq⟩ := exists_group (ch :: p)
  rw [hsplit] at h ⊢
  obtain ⟨htake, hdrop⟩ := takeWhile_semi ha hq
  obtain ⟨htexts, hgroups⟩ := h
  rw [htake] at htexts
  rw [hdrop] at hgroups
  have hne : a ≠ [] := by
    rintro rfl
    rcases hq with rfl | ⟨p', rfl⟩
    · cases hsplit
    · exact hch (List.cons.inj hsplit).1
  by_cases hcomma : ',' ∈ a
  · obtain ⟨text, b, rfl, htext⟩ := List.eq_append_cons_of_mem hcomma
    rw [List.mem_append, List.mem_cons, not_or, not_or] at ha
    obtain ⟨hsemi_text, _, hsemi_b⟩ := ha
    rw [chainTexts_comma htext, List.forall_mem_cons] at htexts
    rw [List.append_assoc, List.cons_append, scanToken_comma hsemi_text htext]
    obtain ⟨htake_b, hdrop_b⟩ := takeWhile_semi hsemi_b hq
    refine ⟨htexts.1, ?_, ?_⟩
    · rw [htake_b]
      exact htexts.2
    · rw [hdrop_b]
      exact hgroups
  · rw [chainTexts_last hne hcomma, List.forall_mem_singleton] at htexts
    rw [scanToken_last ha hcomma hq]
    obtain ⟨htake_q, hdrop_q⟩ := takeWhile_semi (s := []) (by simp) hq
    refine ⟨htexts, ?_, ?_⟩
    · rw [← List.nil_append q, htake_q]
      decide
    · rw [← List.nil_append q, hdrop_q]
      exact hgroups

theorem textsAhead_start {map : CStr} (hfit : ∀ g ∈ scanned map, g.TextsFit) :
    TextsAhead (start map) := ⟨map.length, Nat.le_refl _, hfit⟩

theorem Moves.textsAhead (h : Moves threads chains s r) (hs : s.TextsAhead) :
    r.1.TextsAhead := by
  cases h with
  | mapEnd => trivial
  | group ch p => simpa [TextsAhead] using GroupsAhead.thread hs
  | threadEnd => exact hs.2
  | threadColon => exact hs.2
  | threadChar ch p t c buf m hch =>
    obtain ⟨hbuf, hahead⟩ := hs
    simp only [scanThread, if_neg hch, List.length_cons] at hbuf hahead
    refine ⟨?_, hahead⟩
    simp only [copy, List.length_append, List.length_singleton]
    omega
  | chainsEnd => trivial
  | chainsSemi p => exact ChainsAhead.semi hs
  | refused => trivial
  | chain ch p t c buf m hch => simpa [TextsAhead] using ChainsAhead.token hs hch
  | chainEnd => exact hs.2
  | chainSemi => exact hs.2
  | chainComma => exact hs.2
  | chainChar ch p t c buf m hch hcomma =>
    obtain ⟨hbuf, hahead⟩ := hs
    simp only [scanToken, if_neg hch, if_neg hcomma, List.length_cons] at hbuf hahead
    refine ⟨?_, hahead⟩
    simp only [copy, List.length_append, List.length_singleton]
    omega

theorem endThread_inside (hbuf : s.buf.length < 64) (ht : s.t < threads) (p : CStr) :
    ∀ w ∈ (s.endThread p).2, w.Inside threads chains := by
  simp only [endThread, List.forall_mem_cons]
  exact ⟨hbuf, ht, by simp⟩

theorem endChain_inside (hbuf : s.buf.length < 64) (ht : s.t < threads) (hc : s.c < chains)
    (p : CStr) : ∀ w ∈ (s.endChain p).2, w.Inside threads chains := by
  simp only [endChain, List.forall_mem_cons]
  exact ⟨hbuf, ⟨ht, hc⟩, by simp⟩

theorem copy_inside (hbuf : s.buf.length < 64) (ch : Char) (p : CStr) :
    ∀ w ∈ (s.copy ch p).2, w.Inside threads chains := by
  simp only [copy, List.forall_mem_singleton]
  exact hbuf

theorem TextsAhead.buf_lt (hs : s.TextsAhead)
    (hpoint : s.point = .threadText ∨ s.point = .chainText) : s.buf.length < 64 := by
  unfold TextsAhead at hs
  rcases hpoint with hpoint | hpoint
  · rw [hpoint] at hs
    exact Nat.lt_succ_of_le (Nat.le_of_add_right_le hs.1)
  · rw [hpoint] at hs
    exact Nat.lt_succ_of_le (Nat.le_of_add_right_le hs.1)

/-- Where texts fit and semicolons count threads, a turn writes inside the arrays. -/
theorem Moves.inside {semicolons : Nat} (h : Moves threads chains s r)
    (hthreads : semicolons < threads) (hcounted : Counted semicolons chains s)
    (hs : s.TextsAhead) : ∀ w ∈ r.2, w.Inside threads chains := by
  obtain ⟨hgroups, hroom⟩ := hcounted
  have ht : s.t < threads := by omega
  cases h with
  | mapEnd => simp
  | group => simp
  | threadEnd => exact endThread_inside (hs.buf_lt (.inl rfl)) ht _
  | threadColon => exact endThread_inside (hs.buf_lt (.inl rfl)) ht _
  | threadChar => exact copy_inside (hs.buf_lt (.inl rfl)) _ _
  | chainsEnd => simp
  | chainsSemi => simp
  | refused => simp
  | chain => simp
  | chainEnd => exact endChain_inside (hs.buf_lt (.inr rfl)) ht (hroom rfl) _
  | chainSemi => exact endChain_inside (hs.buf_lt (.inr rfl)) ht (hroom rfl) _
  | chainComma => exact endChain_inside (hs.buf_lt (.inr rfl)) ht (hroom rfl) _
  | chainChar => exact copy_inside (hs.buf_lt (.inr rfl)) _ _

end Texts

section Runs
variable {threads chains : Int} {map : CStr} {s : Scanner}

theorem keeps_of_reaches {Keeps : Scanner → Prop}
    (h : Reaches (step threads chains) (start map) s) (hstart : Keeps (start map))
    (hmove : ∀ x r, Moves threads chains x r → Keeps x → Keeps r.1) : Keeps s := by
  apply Reaches.keeps h _ hstart
  intro x y hstep hx
  obtain ⟨ws, hxy⟩ := step_eq_some hstep
  exact hmove x (y, ws) hxy hx

theorem counted_of_reaches (h : Reaches (step threads chains) (start map) s) :
    Counted (map.count ';') chains s :=
  keeps_of_reaches h (counted_start map chains) fun _ _ hmove hx => hx.move hmove

theorem textsAhead_of_reaches (hfit : ∀ g ∈ scanned map, g.TextsFit)
    (h : Reaches (step threads chains) (start map) s) : s.TextsAhead :=
  keeps_of_reaches h (textsAhead_start hfit) fun _ _ hmove hx => hmove.textsAhead hx

end Runs

def Ends (threads chains : Int) (s : Scanner) : Except MapError MapTables → Prop
  | .ok m => ∃ s' ∈ eval (step threads chains) s, s'.point = .done ∧ s'.tables = m
  | .error .malformed => ∃ s' ∈ eval (step threads chains) s, s'.point = .malformed
  | .error .overrun => True
  | .error .endless => True

section Refinement
variable {threads chains : Int} {s s' : Scanner} {r : Except MapError MapTables}

theorem Ends.of_reaches (hreach : Reaches (step threads chains) s s')
    (h : Ends threads chains s' r) : Ends threads chains s r := by
  cases r with
  | ok m =>
    unfold Ends at h ⊢
    rwa [reaches_eval hreach]
  | error err =>
    cases err with
    | malformed =>
      unfold Ends at h ⊢
      rwa [reaches_eval hreach]
    | overrun => trivial
    | endless => trivial

variable (threads chains) in
theorem thread_reaches (p : CStr) (t c : Nat) (buf : CStr) (m : MapTables) :
    Reaches (step threads chains) ⟨.threadText, p, t, c, buf, m⟩
      ⟨.chain, (scanThread p).2, t, 0, buf ++ (scanThread p).1,
        m.setThread t (domainNumber (buf ++ (scanThread p).1))⟩ := by
  induction p generalizing buf with
  | nil =>
    have hend : Moves threads chains _ _ := .threadEnd t c buf m
    simpa [endThread, scanThread] using hend.reaches
  | cons ch p ih =>
    by_cases hch : ch = ':'
    · subst hch
      have hcolon : Moves threads chains _ _ := .threadColon p t c buf m
      simpa [endThread, scanThread] using hcolon.reaches
    · have hcopy : Moves threads chains _ _ := .threadChar ch p t c buf m hch
      have hrest := ih (buf ++ [ch])
      rw [List.append_assoc, List.singleton_append] at hrest
      rw [scanThread, if_neg hch]
      exact hcopy.reaches.trans hrest

variable (threads chains) in
theorem token_reaches (p : CStr) (t c : Nat) (buf : CStr) (m : MapTables) :
    Reaches (step threads chains) ⟨.chainText, p, t, c, buf, m⟩
      ⟨.chain, (scanToken p).2, t, c + 1, buf ++ (scanToken p).1,
        m.setChain t c (domainNumber (buf ++ (scanToken p).1))⟩ := by
  induction p generalizing buf with
  | nil =>
    have hend : Moves threads chains _ _ := .chainEnd t c buf m
    simpa [endChain, scanToken] using hend.reaches
  | cons ch p ih =>
    by_cases hch : ch = ';'
    · subst hch
      have hsemi : Moves threads chains _ _ := .chainSemi p t c buf m
      simpa [endChain, scanToken] using hsemi.reaches
    by_cases hcomma : ch = ','
    · subst hcomma
      have hnext : Moves threads chains _ _ := .chainComma p t c buf m
      simpa [endChain, scanToken] using hnext.reaches
    · have hcopy : Moves threads chains _ _ := .chainChar ch p t c buf m hch hcomma
      have hrest := ih (buf ++ [ch])
      rw [List.append_assoc, List.singleton_append] at hrest
      rw [scanToken, if_neg hch, if_neg hcomma]
      exact hcopy.reaches.trans hrest

theorem exists_cons_of_not_groupEnd {p : CStr} (hp : ¬ GroupEnd p) :
    ∃ ch q, p = ch :: q ∧ ch ≠ ';' := by
  cases p with
  | nil => exact absurd (.inl rfl) hp
  | cons ch q =>
    refine ⟨ch, q, rfl, ?_⟩
    rintro rfl
    exact hp (.inr ⟨q, rfl⟩)

theorem refused_ends {ch : Char} {t c : Nat} (hch : ch ≠ ';') (hfull : chains ≤ c ∨ threads ≤ t)
    (p buf : CStr) (m : MapTables) :
    Ends threads chains ⟨.chain, ch :: p, t, c, buf, m⟩ (.error .malformed) := by
  have hrefused := (Moves.refused ch p t c buf m hch hfull).reaches
  exact ⟨_, mem_eval.mpr ⟨hrefused, rfl⟩, rfl⟩

theorem done_ends (hdone : s'.point = .done) (hreach : Reaches (step threads chains) s s') :
    Ends threads chains s (.ok s'.tables) := by
  have hstop : step threads chains s' = none := by
    unfold step turn
    rw [hdone]
    rfl
  exact ⟨s', mem_eval.mpr ⟨hreach, hstop⟩, hdone, rfl⟩

/-- The loop over the chains does what `scanChains` does, whatever follows it. -/
theorem chains_ends (next : CStr × MapTables → Except MapError MapTables) (t : Nat)
    (hnext : ∀ p c buf m, GroupEnd p → Ends threads chains ⟨.chain, p, t, c, buf, m⟩ (next (p, m)))
    (fuel c : Nat) (p buf : CStr) (m : MapTables) :
    Ends threads chains ⟨.chain, p, t, c, buf, m⟩
      (scanChains threads chains t fuel c p m >>= next) := by
  induction fuel generalizing c p buf m with
  | zero =>
    by_cases hp : GroupEnd p
    · rw [scanChains_end t 0 c hp]
      exact hnext p c buf m hp
    obtain ⟨ch, q, rfl, hch⟩ := exists_cons_of_not_groupEnd hp
    rw [scanChains, if_neg hch]
    split
    · rename_i hfull
      exact refused_ends hch hfull q buf m
    · trivial
  | succ fuel ih =>
    by_cases hp : GroupEnd p
    · rw [scanChains_end t (fuel + 1) c hp]
      exact hnext p c buf m hp
    obtain ⟨ch, q, rfl, hch⟩ := exists_cons_of_not_groupEnd hp
    by_cases hfull : chains ≤ c ∨ threads ≤ t
    · rw [scanChains, if_neg hch, if_pos hfull]
      exact refused_ends hch hfull q buf m
    rw [scanChains, if_neg hch, if_neg hfull]
    rw [not_or, not_le, not_le] at hfull
    have henter := (Moves.chain ch q t c buf m hch hfull.2 hfull.1).reaches
    have htoken := token_reaches threads chains (ch :: q) t c [] m
    apply Ends.of_reaches (henter.trans htoken)
    by_cases hlong : 63 < (scanToken (ch :: q)).1.length
    · simp only [readBuf, if_pos hlong]
      trivial
    · simp only [readBuf, if_neg hlong]
      exact ih (c + 1) _ _ _

variable (threads chains) in
/-- The loop over the groups does what `scanGroups` does. -/
theorem groups_ends (fuel t c : Nat) (p buf : CStr) (m : MapTables) :
    Ends threads chains ⟨.group, p, t, c, buf, m⟩ (scanGroups threads chains fuel t p m) := by
  induction fuel generalizing t c p buf m with
  | zero =>
    cases p with
    | nil => exact done_ends rfl (Moves.mapEnd t c buf m).reaches
    | cons ch p => trivial
  | succ fuel ih =>
    cases p with
    | nil => exact done_ends rfl (Moves.mapEnd t c buf m).reaches
    | cons ch p =>
      have henter : Moves threads chains _ _ := .group ch p t c buf m
      have hthread := thread_reaches threads chains (ch :: p) t c [] m
      apply Ends.of_reaches (henter.reaches.trans hthread)
      rw [scanGroups]
      by_cases hlong : 63 < (scanThread (ch :: p)).1.length
      · simp only [readBuf, if_pos hlong]
        trivial
      by_cases hfull : threads ≤ t
      · simp only [readBuf, if_neg hlong, if_pos hfull]
        trivial
      simp only [readBuf, if_neg hlong, if_neg hfull]
      apply chains_ends
      intro p' c' buf' m' hp'
      rcases hp' with rfl | ⟨q, rfl⟩
      · exact done_ends rfl (Moves.chainsEnd t c' buf' m').reaches
      · have hsemi : Moves threads chains _ _ := .chainsSemi q t c' buf' m'
        exact (ih (t + 1) c' q buf' m').of_reaches hsemi.reaches

end Refinement

end Scanner

/-- The machine ends as `alloc_map` does, with the tables that become its fields. -/
theorem allocMap_scanner (e : Experiment) (map : CStr) :
    (∀ e', allocMap e map = .ok e' →
      ∃ s ∈ eval (Scanner.step (countThreads 1 map) (countChains 1 map)) (.start map),
        s.point = .done ∧ e' = e.setMap (countThreads 1 map) (countChains 1 map) s.tables) ∧
    (allocMap e map = .error .malformed →
      ∃ s ∈ eval (Scanner.step (countThreads 1 map) (countChains 1 map)) (.start map),
        s.point = .malformed) := by
  have hends := Scanner.groups_ends (countThreads 1 map) (countChains 1 map) map.length 0 0 map []
    .empty
  constructor
  · intro e' hread
    obtain ⟨_, _, m, hscan, rfl⟩ := (allocMap_eq_ok_iff e e' map).mp hread
    rw [hscan] at hends
    obtain ⟨s, hs, hdone, rfl⟩ := hends
    exact ⟨s, hs, hdone, rfl⟩
  · intro hmalformed
    have hscan : scanGroups (countThreads 1 map) (countChains 1 map) map.length 0 map .empty =
        .error .malformed := by
      simp only [allocMap] at hmalformed
      split at hmalformed
      · cases hmalformed
      · cases hrun : scanGroups (countThreads 1 map) (countChains 1 map) map.length 0 map .empty with
        | ok m =>
          rw [hrun] at hmalformed
          cases hmalformed
        | error err =>
          rw [hrun] at hmalformed
          exact congrArg Except.error (Except.error.inj hmalformed)
    rw [hscan] at hends
    exact hends

/-- The scanning loop of `alloc_map` ends on every string. When the count of threads fits an
`int`, the test for too many threads never succeeds; when the texts fit the buffer too, every
write is inside its array. -/
theorem scanner_bounded (map : CStr) :
    (eval (Scanner.step (countThreads 1 map) (countChains 1 map)) (.start map)).Dom ∧
      (1 + map.count ';' < 2147483648 →
        ∀ s, Reaches (Scanner.step (countThreads 1 map) (countChains 1 map)) (.start map) s →
          ¬ countThreads 1 map ≤ s.t ∧
            ((∀ g ∈ scanned map, g.TextsFit) →
              ∀ r, s.turn (countThreads 1 map) (countChains 1 map) = some r →
                ∀ w ∈ r.2, w.Inside (countThreads 1 map) (countChains 1 map))) := by
  refine ⟨Scanner.eval_step_dom _ _ _, ?_⟩
  intro hthreads s hreach
  have hcounted := Scanner.counted_of_reaches hreach
  have hgroups := hcounted.groups
  have hroom : (map.count ';' : Int) < countThreads 1 map := by
    rw [countThreads_of_fits hthreads]
    omega
  refine ⟨by omega, ?_⟩
  intro hfit r hturn
  exact (Scanner.moves_of_turn hturn).inside hroom hcounted
    (Scanner.textsAhead_of_reaches hfit hreach)

theorem first_write_inside : ∀ w ∈ [MapWrite.buf 0, .thread 0],
    w.Inside (countThreads 1 ":1;:2".toList) (countChains 1 ":1;:2".toList) := by
  have hreach : Reaches (Scanner.step (countThreads 1 ":1;:2".toList)
      (countChains 1 ":1;:2".toList)) (.start ":1;:2".toList)
      ⟨.threadText, ":1;:2".toList, 0, 0, [], .empty⟩ := Relation.ReflTransGen.single rfl
  exact ((scanner_bounded ":1;:2".toList).2 (by decide) _ hreach).2 (by decide +kernel) _ rfl

def colonGroups : Nat → CStr
  | 0 => []
  | n + 1 => ':' :: ';' :: colonGroups n

section ColonGroups

theorem count_colonGroups (n : Nat) : (colonGroups n).count ';' = n := by
  induction n with
  | zero => rfl
  | succ n ih =>
    rw [colonGroups, List.count_cons_of_ne (by decide), List.count_cons_self, ih]

theorem colonGroups_fit (fuel n : Nat) :
    ∀ g ∈ scannedFrom fuel (colonGroups n), g.TextsFit := by
  induction fuel generalizing n with
  | zero =>
    cases n with
    | zero => simp [colonGroups, scannedFrom]
    | succ n => simp [colonGroups, scannedFrom]
  | succ fuel ih =>
    cases n with
    | zero => simp [colonGroups, scannedFrom]
    | succ n =>
      have hgroup := scannedFrom_cons (x := []) (y := []) (p := ';' :: colonGroups n)
        (by simp) (by simp) (.inr ⟨_, rfl⟩) fuel
      rw [List.nil_append, List.nil_append, List.drop_one, List.tail_cons] at hgroup
      rw [colonGroups, hgroup, List.forall_mem_cons]
      exact ⟨by decide, ih n⟩

theorem colonGroups_write {n : Nat} (hn : 1 ≤ n) (threads chains : Int) :
    ∃ s r, Reaches (Scanner.step threads chains) (.start (colonGroups n)) s ∧
      s.turn threads chains = some r ∧ .thread 0 ∈ r.2 := by
  obtain ⟨n, rfl⟩ : ∃ k, n = k + 1 := ⟨n - 1, by omega⟩
  have hgroup : Scanner.Moves threads chains _ _ := .group ':' (';' :: colonGroups n) 0 0 [] .empty
  have hcolon : Scanner.Moves threads chains _ _ :=
    .threadColon (';' :: colonGroups n) 0 0 [] .empty
  exact ⟨_, _, hgroup.reaches, hcolon.turn_eq, by simp [Scanner.endThread]⟩

end ColonGroups

/-- The count of threads leaves the `int` range, and the first write is behind its array. -/
theorem two_billion_groups_outside :
    (∀ g ∈ scanned (colonGroups 2147483647), g.TextsFit) ∧
      ∃ s r w, Reaches (Scanner.step (countThreads 1 (colonGroups 2147483647))
          (countChains 1 (colonGroups 2147483647))) (.start (colonGroups 2147483647)) s ∧
        s.turn (countThreads 1 (colonGroups 2147483647))
          (countChains 1 (colonGroups 2147483647)) = some r ∧
        w ∈ r.2 ∧ ¬ w.Inside (countThreads 1 (colonGroups 2147483647))
          (countChains 1 (colonGroups 2147483647)) := by
  refine ⟨colonGroups_fit _ _, ?_⟩
  have hthreads : countThreads 1 (colonGroups 2147483647) = -2147483648 := by
    rw [countThreads_eq 1 _ inInt32_one, count_colonGroups]
    decide
  rw [hthreads]
  obtain ⟨s, r, hreach, hturn, hwrite⟩ := colonGroups_write (n := 2147483647) (by decide)
    (-2147483648) (countChains 1 (colonGroups 2147483647))
  refine ⟨s, r, .thread 0, hreach, hturn, hwrite, ?_⟩
  simp [MapWrite.Inside]

end PChase
