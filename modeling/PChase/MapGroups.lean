import PChase.DomainMap

/-!
# The groups of a domain map

What the scanner of `alloc_map` makes of an arbitrary string: the groups it meets, each a
thread text with its chain texts, the checks they have to pass, and the tables they fill.
-/

namespace PChase

open CInt
set_option autoImplicit false

/-- What `alloc_map` keeps of a text. -/
def domainNumber (text : CStr) : Int := wrap32 (parseNumber text)

/-- The texts between the commas; behind a last comma there is none. -/
def chainTexts (s : CStr) : List CStr :=
  if (s.splitOn ',').getLast? = some [] then (s.splitOn ',').dropLast else s.splitOn ','

structure MapGroup where
  thread : CStr
  chains : List CStr
  deriving Repr, DecidableEq

/-- The groups as the scanner meets them: a thread text ends at a colon, whatever stands
before it, and the chains of the group at the next semicolon. -/
def scannedFrom : Nat → CStr → List MapGroup
  | _, [] => []
  | 0, _ :: _ => []
  | fuel + 1, ch :: p =>
    ⟨(scanThread (ch :: p)).1, chainTexts ((scanThread (ch :: p)).2.takeWhile (· ≠ ';'))⟩ ::
      scannedFrom fuel (((scanThread (ch :: p)).2.dropWhile (· ≠ ';')).drop 1)

def scanned (map : CStr) : List MapGroup := scannedFrom map.length map

def GroupEnd (p : CStr) : Prop := p = [] ∨ ∃ q, p = ';' :: q

section Texts

theorem chainTexts_last {s : CStr} (hs : s ≠ []) (h : ',' ∉ s) : chainTexts s = [s] := by
  unfold chainTexts
  rw [List.splitOn_eq_singleton h, if_neg (by simpa using hs)]

theorem chainTexts_comma {a : CStr} (h : ',' ∉ a) (p : CStr) :
    chainTexts (a ++ ',' :: p) = a :: chainTexts p := by
  unfold chainTexts
  rw [List.splitOn_append_cons_self_of_not_mem h]
  have hne := List.splitOn_ne_nil ',' p
  rw [List.getLast?_cons_of_ne_nil hne, List.dropLast_cons_of_ne_nil hne]
  split
  · rfl
  · rfl

theorem scanThread_colon {s : CStr} (h : ':' ∉ s) (p : CStr) :
    scanThread (s ++ ':' :: p) = (s, p) := by
  induction s with
  | nil => rfl
  | cons c s ih =>
    obtain ⟨hc, hs⟩ := not_or.mp (List.mem_cons.not.mp h)
    rw [List.cons_append, scanThread, if_neg (Ne.symm hc), ih hs]

theorem scanThread_end {s : CStr} (h : ':' ∉ s) : scanThread s = (s, []) := by
  induction s with
  | nil => rfl
  | cons c s ih =>
    obtain ⟨hc, hs⟩ := not_or.mp (List.mem_cons.not.mp h)
    rw [scanThread, if_neg (Ne.symm hc), ih hs]

theorem scanToken_last {s p : CStr} (hsemi : ';' ∉ s) (hcomma : ',' ∉ s) (hp : GroupEnd p) :
    scanToken (s ++ p) = (s, p) := by
  induction s with
  | nil =>
    rcases hp with rfl | ⟨q, rfl⟩
    · rfl
    · rfl
  | cons c s ih =>
    obtain ⟨hc, hs⟩ := not_or.mp (List.mem_cons.not.mp hsemi)
    obtain ⟨hc', hs'⟩ := not_or.mp (List.mem_cons.not.mp hcomma)
    rw [List.cons_append, scanToken, if_neg (Ne.symm hc), if_neg (Ne.symm hc'), ih hs hs']

theorem scanToken_comma {s : CStr} (hsemi : ';' ∉ s) (hcomma : ',' ∉ s) (p : CStr) :
    scanToken (s ++ ',' :: p) = (s, p) := by
  induction s with
  | nil => rfl
  | cons c s ih =>
    obtain ⟨hc, hs⟩ := not_or.mp (List.mem_cons.not.mp hsemi)
    obtain ⟨hc', hs'⟩ := not_or.mp (List.mem_cons.not.mp hcomma)
    rw [List.cons_append, scanToken, if_neg (Ne.symm hc), if_neg (Ne.symm hc'), ih hs hs']

theorem takeWhile_semi {s p : CStr} (hs : ';' ∉ s) (hp : GroupEnd p) :
    (s ++ p).takeWhile (· ≠ ';') = s ∧ (s ++ p).dropWhile (· ≠ ';') = p := by
  have hall : ∀ c ∈ s, decide (c ≠ ';') = true := fun c hc =>
    decide_eq_true fun heq => hs (heq ▸ hc)
  rw [List.takeWhile_append_of_pos hall, List.dropWhile_append_of_pos hall]
  rcases hp with rfl | ⟨q, rfl⟩
  · simp
  · simp

theorem exists_group (s : CStr) : ∃ a p, s = a ++ p ∧ ';' ∉ a ∧ GroupEnd p := by
  by_cases h : ';' ∈ s
  · obtain ⟨a, q, rfl, ha⟩ := List.eq_append_cons_of_mem h
    exact ⟨a, ';' :: q, rfl, ha, .inr ⟨q, rfl⟩⟩
  · exact ⟨s, [], (List.append_nil s).symm, h, .inl rfl⟩

end Texts

section Checks

def checkTexts (chains : Int) : Nat → List CStr → Except MapError Unit
  | _, [] => .ok ()
  | c, text :: texts =>
    if chains ≤ c then .error .malformed
    else if 63 < text.length then .error .overrun
    else checkTexts chains (c + 1) texts

def fillChains (t : Nat) : Nat → List CStr → MapTables → MapTables
  | _, [], m => m
  | c, text :: texts, m => fillChains t (c + 1) texts (m.setChain t c (domainNumber text))

def checkGroups (threads chains : Int) : Nat → List MapGroup → Except MapError Unit
  | _, [] => .ok ()
  | t, g :: gs =>
    if 63 < g.thread.length then .error .overrun
    else if threads ≤ t then .error .overrun
    else checkTexts chains 0 g.chains >>= fun _ => checkGroups threads chains (t + 1) gs

def fillGroups : Nat → List MapGroup → MapTables → MapTables
  | _, [], m => m
  | t, g :: gs, m =>
    fillGroups (t + 1) gs (fillChains t 0 g.chains (m.setThread t (domainNumber g.thread)))

variable {threads chains : Int}

theorem scanChains_end (t fuel c : Nat) {p : CStr} (hp : GroupEnd p) (m : MapTables) :
    scanChains threads chains t fuel c p m = .ok (p, m) := by
  rcases hp with rfl | ⟨q, rfl⟩
  · cases fuel with
    | zero => rfl
    | succ fuel => rfl
  · cases fuel with
    | zero => rfl
    | succ fuel => rfl

theorem scanChains_turn {t c : Nat} (ht : t < threads) (fuel : Nat) {s rest : CStr} {text : CStr}
    (hs : s.head? ≠ some ';') (hne : s ≠ []) (hscan : scanToken s = (text, rest)) (m : MapTables) :
    scanChains threads chains t (fuel + 1) c s m =
      if chains ≤ c then .error .malformed
      else if 63 < text.length then .error .overrun
      else scanChains threads chains t fuel (c + 1) rest (m.setChain t c (domainNumber text)) := by
  obtain ⟨ch, p, rfl⟩ := List.exists_cons_of_ne_nil hne
  have hch : ch ≠ ';' := by simpa using hs
  have hor : (chains ≤ c ∨ threads ≤ t) ↔ chains ≤ c := or_iff_left (by omega)
  simp only [scanChains, hch, if_false, hor, hscan]
  split
  · rfl
  · unfold readBuf
    split
    · rfl
    · rfl

theorem scanChains_eq {t : Nat} (ht : t < threads) (n c fuel : Nat) {text p : CStr}
    (hn : text.length ≤ n) (hsemi : ';' ∉ text) (hp : GroupEnd p) (hfuel : n ≤ fuel)
    (m : MapTables) : scanChains threads chains t fuel c (text ++ p) m =
      (checkTexts chains c (chainTexts text)).map
        fun _ => (p, fillChains t c (chainTexts text) m) := by
  induction n generalizing c fuel text m with
  | zero =>
    obtain rfl : text = [] := List.length_eq_zero_iff.mp (by omega)
    exact scanChains_end t fuel c hp m
  | succ n ih =>
    by_cases hne : text = []
    · subst text
      exact scanChains_end t fuel c hp m
    obtain ⟨fuel, rfl⟩ : ∃ k, fuel = k + 1 := ⟨fuel - 1, by omega⟩
    have hhead : (text ++ p).head? ≠ some ';' := by
      obtain ⟨ch, s, rfl⟩ := List.exists_cons_of_ne_nil hne
      intro hch
      exact hsemi (by simp_all)
    have happ : text ++ p ≠ [] := by simp [hne]
    by_cases hcomma : ',' ∈ text
    · obtain ⟨a, b, rfl, ha⟩ := List.eq_append_cons_of_mem hcomma
      rw [List.mem_append, List.mem_cons, not_or, not_or] at hsemi
      obtain ⟨hsemi_a, _, hsemi_b⟩ := hsemi
      rw [List.length_append, List.length_cons] at hn
      rw [List.append_assoc, List.cons_append] at hhead happ ⊢
      rw [scanChains_turn ht fuel hhead happ (scanToken_comma hsemi_a ha _), chainTexts_comma ha,
        checkTexts, fillChains, ih (c + 1) fuel (by omega) hsemi_b (by omega)]
      split
      · rfl
      · split
        · rfl
        · rfl
    · rw [scanChains_turn ht fuel hhead happ (scanToken_last hsemi hcomma hp),
        chainTexts_last hne hcomma, scanChains_end t fuel (c + 1) hp]
      simp only [checkTexts, fillChains]
      split
      · rfl
      · split
        · rfl
        · rfl

theorem scanThread_suffix (s : CStr) : (scanThread s).2 <:+ s := by
  induction s with
  | nil => exact List.suffix_rfl
  | cons c s ih =>
    rw [scanThread]
    split
    · exact List.suffix_cons c s
    · exact ih.trans (List.suffix_cons c s)

theorem scanGroups_eq (fuel t : Nat) {s : CStr} (hfuel : s.length ≤ fuel) (m : MapTables) :
    scanGroups threads chains fuel t s m =
      (checkGroups threads chains t (scannedFrom fuel s)).map
        fun _ => fillGroups t (scannedFrom fuel s) m := by
  induction fuel generalizing t s m with
  | zero =>
    obtain rfl : s = [] := List.length_eq_zero_iff.mp (by omega)
    rfl
  | succ fuel ih =>
    cases s with
    | nil => rfl
    | cons ch q =>
      obtain ⟨text, p, hrest, hsemi, hp⟩ := exists_group (scanThread (ch :: q)).2
      obtain ⟨htake, hdrop⟩ := takeWhile_semi hsemi hp
      have hlen := (scanThread_suffix (ch :: q)).length_le
      rw [hrest, List.length_append] at hlen
      rw [List.length_cons] at hlen hfuel
      simp only [scanGroups, scannedFrom, hrest, htake, hdrop, checkGroups, fillGroups, readBuf]
      split
      · rfl
      simp only [bind, Except.bind]
      split
      · rfl
      rename_i ht
      rw [scanChains_eq (by omega) (text ++ p).length 0 _ (by simp) hsemi hp (Nat.le_refl _)]
      cases checkTexts chains 0 (chainTexts text) with
      | error err => rfl
      | ok u =>
        rcases hp with rfl | ⟨q', rfl⟩
        · cases fuel with
          | zero => rfl
          | succ fuel => rfl
        · rw [List.length_cons] at hlen
          have hq : q'.length ≤ fuel := by omega
          exact ih (t + 1) hq _

theorem allocMap_eq (e : Experiment) (map : CStr) : allocMap e map =
    if countThreads 1 map ≤ 0 ∨ countChains 1 map ≤ 0 then .error .overrun
    else (checkGroups (countThreads 1 map) (countChains 1 map) 0 (scanned map)).map fun _ =>
      e.setMap (countThreads 1 map) (countChains 1 map)
        (fillGroups 0 (scanned map) MapTables.empty) := by
  simp only [allocMap, scanGroups_eq _ _ (Nat.le_refl _), bind, Except.bind, pure, Except.pure]
  split
  · rfl
  · unfold scanned
    cases checkGroups (countThreads 1 map) (countChains 1 map) 0 (scannedFrom map.length map) with
    | error err => rfl
    | ok u => rfl

theorem checkTexts_eq_ok_iff {c : Nat} (hc : c ≤ chains) (texts : List CStr) :
    checkTexts chains c texts = .ok () ↔
      (c : Int) + texts.length ≤ chains ∧ ∀ text ∈ texts, text.length ≤ 63 := by
  induction texts generalizing c with
  | nil => simp [checkTexts, hc]
  | cons text texts ih =>
    rw [checkTexts, List.forall_mem_cons, List.length_cons]
    split
    · simp only [reduceCtorEq, false_iff]
      omega
    split
    · simp only [reduceCtorEq, false_iff]
      omega
    · rw [ih (by omega)]
      constructor
      · intro h
        exact ⟨by omega, by omega, h.2⟩
      · intro h
        exact ⟨by omega, h.2.2⟩

theorem checkTexts_malformed {c : Nat} (hc : c ≤ chains) {texts : List CStr}
    (hfit : ∀ text ∈ texts, text.length ≤ 63) (hlen : chains < c + texts.length) :
    checkTexts chains c texts = .error .malformed := by
  induction texts generalizing c with
  | nil =>
    rw [List.length_nil] at hlen
    omega
  | cons text texts ih =>
    rw [List.forall_mem_cons] at hfit
    rw [List.length_cons] at hlen
    rw [checkTexts]
    split
    · rfl
    · rw [if_neg (by omega)]
      exact ih (by omega) hfit.2 (by omega)

def MapGroup.TextsFit (g : MapGroup) : Prop :=
  g.thread.length ≤ 63 ∧ ∀ text ∈ g.chains, text.length ≤ 63

instance (g : MapGroup) : Decidable g.TextsFit := inferInstanceAs (Decidable (_ ∧ _))

theorem checkGroups_eq_ok_iff (hchains : 0 ≤ chains) {t : Nat} (ht : t ≤ threads)
    (gs : List MapGroup) : checkGroups threads chains t gs = .ok () ↔
      (t : Int) + gs.length ≤ threads ∧ ∀ g ∈ gs, g.TextsFit ∧ (g.chains.length : Int) ≤ chains := by
  induction gs generalizing t with
  | nil => simp [checkGroups, ht]
  | cons g gs ih =>
    rw [checkGroups, List.forall_mem_cons, List.length_cons]
    unfold MapGroup.TextsFit
    split
    · simp only [reduceCtorEq, false_iff]
      omega
    split
    · simp only [reduceCtorEq, false_iff]
      omega
    have htexts := checkTexts_eq_ok_iff hchains g.chains
    cases hrun : checkTexts chains 0 g.chains with
    | error err =>
      rw [hrun] at htexts
      simp only [reduceCtorEq, false_iff] at htexts
      simp only [bind, Except.bind, reduceCtorEq, false_iff]
      intro h
      exact htexts ⟨by omega, h.2.1.1.2⟩
    | ok u =>
      obtain ⟨hlen, hfit⟩ := htexts.mp hrun
      have hstep := ih (t := t + 1) (by omega)
      simp only [bind, Except.bind, hstep]
      constructor
      · intro h
        exact ⟨by omega, ⟨⟨by omega, hfit⟩, by omega⟩, h.2⟩
      · intro h
        exact ⟨by omega, h.2.2⟩

/-- If there is room for the groups and their texts, too many chains are what is refused. -/
theorem checkGroups_malformed (hchains : 0 ≤ chains) {t : Nat} {gs : List MapGroup}
    (hroom : (t : Int) + gs.length ≤ threads) (hfit : ∀ g ∈ gs, g.TextsFit)
    (hlong : ∃ g ∈ gs, chains < g.chains.length) :
    checkGroups threads chains t gs = .error .malformed := by
  induction gs generalizing t with
  | nil => simp at hlong
  | cons g gs ih =>
    rw [List.forall_mem_cons] at hfit
    rw [List.length_cons] at hroom
    obtain ⟨⟨hthread, htexts⟩, hrest⟩ := hfit
    rw [checkGroups, if_neg (by omega), if_neg (by omega)]
    by_cases hg : chains < g.chains.length
    · rw [checkTexts_malformed hchains htexts (by omega)]
      rfl
    · have hok : checkTexts chains 0 g.chains = .ok () :=
        (checkTexts_eq_ok_iff hchains g.chains).mpr ⟨by
          push_cast
          omega, htexts⟩
      rw [hok]
      apply ih (by omega) hrest
      obtain ⟨g', hmem, hg'⟩ := hlong
      rcases List.mem_cons.mp hmem with rfl | hmem
      · exact absurd hg' hg
      · exact ⟨g', hmem, hg'⟩

end Checks

section Tables

theorem setChain_chainDomain (m : MapTables) (t c : Nat) (d : Int) (t' i : Nat) :
    (m.setChain t c d).chainDomain t' i =
      if t' = t ∧ i = c then some d else m.chainDomain t' i := by
  simp only [MapTables.setChain, Function.update_apply]
  by_cases ht : t' = t
  · subst t'
    simp only [if_true, Function.update_apply, true_and]
  · simp [ht]

theorem fillChains_threadDomain (t c : Nat) (texts : List CStr) (m : MapTables) :
    (fillChains t c texts m).threadDomain = m.threadDomain := by
  induction texts generalizing c m with
  | nil => rfl
  | cons text texts ih => exact ih (c + 1) _

theorem fillChains_of_ne {t c t' i : Nat} (texts : List CStr) (m : MapTables)
    (h : t' ≠ t ∨ i < c) : (fillChains t c texts m).chainDomain t' i = m.chainDomain t' i := by
  induction texts generalizing c m with
  | nil => rfl
  | cons text texts ih =>
    rw [fillChains, ih _ (by omega), setChain_chainDomain, if_neg (by omega)]

theorem fillChains_chainDomain (t c j : Nat) (texts : List CStr) (m : MapTables) :
    (fillChains t c texts m).chainDomain t (c + j) =
      (texts[j]?.map domainNumber).or (m.chainDomain t (c + j)) := by
  induction texts generalizing c j m with
  | nil => rfl
  | cons text texts ih =>
    cases j with
    | zero =>
      rw [fillChains, fillChains_of_ne _ _ (by omega), setChain_chainDomain, if_pos ⟨rfl, rfl⟩]
      rfl
    | succ j =>
      have hshift : c + (j + 1) = c + 1 + j := by omega
      rw [fillChains, hshift, ih, setChain_chainDomain,
        if_neg (by omega), List.getElem?_cons_succ]

theorem fillGroups_of_lt {t i : Nat} (h : i < t) (gs : List MapGroup) (m : MapTables) :
    (fillGroups t gs m).threadDomain i = m.threadDomain i ∧
      ∀ j, (fillGroups t gs m).chainDomain i j = m.chainDomain i j := by
  induction gs generalizing t m with
  | nil => exact ⟨rfl, fun _ => rfl⟩
  | cons g gs ih =>
    obtain ⟨hthread, hchain⟩ := ih (t := t + 1) (by omega)
      (fillChains t 0 g.chains (m.setThread t (domainNumber g.thread)))
    rw [fillGroups]
    constructor
    · rw [hthread, fillChains_threadDomain]
      exact Function.update_of_ne (by omega) _ _
    · intro j
      rw [hchain, fillChains_of_ne _ _ (by omega)]
      rfl

theorem fillGroups_entries (t k : Nat) (gs : List MapGroup) (m : MapTables) :
    (fillGroups t gs m).threadDomain (t + k) =
        (gs[k]?.map fun g => domainNumber g.thread).or (m.threadDomain (t + k)) ∧
      ∀ j, (fillGroups t gs m).chainDomain (t + k) j =
        (gs[k]?.bind fun g => g.chains[j]?.map domainNumber).or (m.chainDomain (t + k) j) := by
  induction gs generalizing t k m with
  | nil => exact ⟨rfl, fun _ => rfl⟩
  | cons g gs ih =>
    rw [fillGroups]
    cases k with
    | zero =>
      obtain ⟨hthread, hchain⟩ := fillGroups_of_lt (Nat.lt_add_one t) gs
        (fillChains t 0 g.chains (m.setThread t (domainNumber g.thread)))
      constructor
      · rw [Nat.add_zero t, hthread, fillChains_threadDomain]
        exact Function.update_self ..
      · intro j
        have hfill := fillChains_chainDomain t 0 j g.chains
          (m.setThread t (domainNumber g.thread))
        rw [Nat.zero_add] at hfill
        rw [Nat.add_zero t, hchain, hfill]
        rfl
    | succ k =>
      have hshift : t + (k + 1) = t + 1 + k := by omega
      obtain ⟨hthread, hchain⟩ := ih (t + 1) k
        (fillChains t 0 g.chains (m.setThread t (domainNumber g.thread)))
      rw [hshift]
      constructor
      · rw [hthread, fillChains_threadDomain, List.getElem?_cons_succ]
        congr 1
        exact Function.update_of_ne (by omega) _ _
      · intro j
        rw [hchain, fillChains_of_ne _ _ (by omega), List.getElem?_cons_succ]
        rfl

theorem fillGroups_empty (i j : Nat) (gs : List MapGroup) :
    (fillGroups 0 gs MapTables.empty).threadDomain i =
        gs[i]?.map (fun g => domainNumber g.thread) ∧
      (fillGroups 0 gs MapTables.empty).chainDomain i j =
        gs[i]?.bind fun g => g.chains[j]?.map domainNumber := by
  obtain ⟨hthread, hchain⟩ := fillGroups_entries 0 i gs MapTables.empty
  have hchain' := hchain j
  rw [Nat.zero_add] at hthread hchain'
  rw [hthread, hchain']
  exact ⟨Option.or_none, Option.or_none⟩

end Tables

section Counts

theorem countThreads_eq (threads : Int) (s : CStr) (h : InInt32 threads) :
    countThreads threads s = wrap32 (threads + s.count ';') := by
  induction s generalizing threads with
  | nil => simp [countThreads, wrap32_of_inInt32 h]
  | cons c s ih =>
    rw [countThreads]
    split
    · rename_i hc
      subst hc
      rw [ih _ (wrap32_inInt32 _), wrap32_wrap32_add, List.count_cons_self]
      congr 1
      push_cast
      ring
    · rename_i hc
      rw [ih _ h, List.count_cons_of_ne hc]

theorem countChains_eq (chains : Int) (s : CStr) (h : InInt32 chains) :
    countChains chains s = wrap32 (chains + (s.takeWhile (· ≠ ';')).count ',') := by
  induction s generalizing chains with
  | nil => simp [countChains, wrap32_of_inInt32 h]
  | cons c s ih =>
    rw [countChains]
    split
    · rename_i hc
      simp [hc, wrap32_of_inInt32 h]
    · rename_i hc
      have htake : (c :: s).takeWhile (· ≠ ';') = c :: s.takeWhile (· ≠ ';') :=
        List.takeWhile_cons_of_pos (by simpa using hc)
      rw [htake]
      split
      · rename_i hcomma
        subst hcomma
        rw [ih _ (wrap32_inInt32 _), wrap32_wrap32_add, List.count_cons_self]
        congr 1
        push_cast
        ring
      · rename_i hcomma
        rw [ih _ h, List.count_cons_of_ne hcomma]

end Counts

section WellFormed

def behindColon (group : CStr) : CStr := (group.dropWhile (· ≠ ':')).drop 1

theorem behindColon_append {x : CStr} (hx : ':' ∉ x) (y : CStr) :
    behindColon (x ++ ':' :: y) = y := by
  have hall : ∀ c ∈ x, decide (c ≠ ':') = true := fun c hc =>
    decide_eq_true fun heq => hx (heq ▸ hc)
  unfold behindColon
  rw [List.dropWhile_append_of_pos hall]
  simp

/-- Every group between semicolons has a colon, and `n` chains behind it. -/
def GroupsHave (n : Nat) (s : CStr) : Prop :=
  ∀ group ∈ s.splitOn ';', ':' ∈ group ∧ (chainTexts (behindColon group)).length = n

instance (n : Nat) (s : CStr) : Decidable (GroupsHave n s) :=
  inferInstanceAs (Decidable (∀ group ∈ s.splitOn ';', _))

theorem scannedFrom_cons {x y p : CStr} (hx : ':' ∉ x) (hy : ';' ∉ y) (hp : GroupEnd p)
    (fuel : Nat) : scannedFrom (fuel + 1) (x ++ ':' :: (y ++ p)) =
      ⟨x, chainTexts y⟩ :: scannedFrom fuel (p.drop 1) := by
  have hne : x ++ ':' :: (y ++ p) ≠ [] := by simp
  obtain ⟨ch, q, hs⟩ := List.exists_cons_of_ne_nil hne
  have hthread := scanThread_colon hx (y ++ p)
  obtain ⟨htake, hdrop⟩ := takeWhile_semi hy hp
  rw [hs] at hthread ⊢
  rw [scannedFrom, hthread, htake, hdrop]

theorem scannedFrom_end {s : CStr} (hs : ':' ∉ s) (hne : s ≠ []) (fuel : Nat) :
    scannedFrom (fuel + 1) s = [⟨s, []⟩] := by
  obtain ⟨ch, q, rfl⟩ := List.exists_cons_of_ne_nil hne
  rw [scannedFrom, scanThread_end hs]
  cases fuel with
  | zero => rfl
  | succ fuel => rfl

theorem length_scannedFrom (fuel : Nat) (s : CStr) :
    (scannedFrom fuel s).length ≤ 1 + (scanThread s).2.count ';' := by
  induction fuel generalizing s with
  | zero => cases s <;> simp [scannedFrom]
  | succ fuel ih =>
    cases s with
    | nil => simp [scannedFrom]
    | cons ch q =>
      obtain ⟨y, p, hrest, hy, hp⟩ := exists_group (scanThread (ch :: q)).2
      obtain ⟨_, hdrop⟩ := takeWhile_semi hy hp
      rw [scannedFrom, hrest, hdrop, List.length_cons, List.count_append]
      rcases hp with rfl | ⟨r, rfl⟩
      · cases fuel <;> simp [scannedFrom]
      · have hlater := ih r
        have hcount := (scanThread_suffix r).sublist.count_le ';'
        rw [List.count_cons_self, List.drop_one, List.tail_cons]
        omega

theorem groupsHave_last {n : Nat} {a : CStr} (ha : ';' ∉ a) :
    GroupsHave n a ↔ ':' ∈ a ∧ (chainTexts (behindColon a)).length = n := by
  unfold GroupsHave
  rw [List.splitOn_eq_singleton ha, List.forall_mem_singleton]

theorem groupsHave_semi {n : Nat} {a : CStr} (ha : ';' ∉ a) (q : CStr) :
    GroupsHave n (a ++ ';' :: q) ↔
      (':' ∈ a ∧ (chainTexts (behindColon a)).length = n) ∧ GroupsHave n q := by
  unfold GroupsHave
  rw [List.splitOn_append_cons_self_of_not_mem ha, List.forall_mem_cons]

theorem GroupsHave.colon_mem {n : Nat} {a p : CStr} (ha : ';' ∉ a) (hp : GroupEnd p)
    (h : GroupsHave n (a ++ p)) : ':' ∈ a := by
  rcases hp with rfl | ⟨q, rfl⟩
  · rw [List.append_nil, groupsHave_last ha] at h
    exact h.1
  · exact ((groupsHave_semi ha q).mp h).1.1

theorem not_complete_of_no_colon {n : Nat} (hn : 1 ≤ n) (fuel : Nat) {a p : CStr}
    (ha : ':' ∉ a) (hp : GroupEnd p) :
    ¬ ((scannedFrom (fuel + 1) (a ++ p)).length = 1 + (a ++ p).count ';' ∧
      ∀ g ∈ scannedFrom (fuel + 1) (a ++ p), g.chains.length = n) := by
  intro h
  obtain ⟨hlen, hchains⟩ := h
  by_cases hcolon : ':' ∈ a ++ p
  · rcases hp with rfl | ⟨q, rfl⟩
    · simp [ha] at hcolon
    · have hq : ':' ∈ q := by simpa [ha] using hcolon
      obtain ⟨x, y, rfl, hx⟩ := List.eq_append_cons_of_mem hq
      have hthread : ':' ∉ a ++ ';' :: x := by simp [ha, hx]
      have hbound := length_scannedFrom (fuel + 1) (a ++ ';' :: (x ++ ':' :: y))
      have hassoc : a ++ ';' :: (x ++ ':' :: y) = (a ++ ';' :: x) ++ ':' :: y := by simp
      rw [hassoc] at hlen hbound
      rw [scanThread_colon hthread] at hbound
      simp only [List.count_append, List.count_cons_self, List.count_cons] at hlen hbound
      omega
  · by_cases hne : a ++ p = []
    · rw [hne] at hlen
      simp [scannedFrom] at hlen
    · rw [scannedFrom_end hcolon hne] at hchains
      have hzero := hchains _ (List.mem_singleton_self _)
      simp at hzero
      omega

/-- The scanner meets as many groups as there are pieces, with `n` chains each, exactly when
every piece has a colon and `n` chains. -/
theorem groupsHave_iff {n : Nat} (hn : 1 ≤ n) (fuel : Nat) {s : CStr} (hs : s.length ≤ fuel) :
    ((scannedFrom fuel s).length = 1 + s.count ';' ∧
      ∀ g ∈ scannedFrom fuel s, g.chains.length = n) ↔ GroupsHave n s := by
  induction fuel generalizing s with
  | zero =>
    obtain rfl : s = [] := List.length_eq_zero_iff.mp (by omega)
    rw [groupsHave_last (by simp)]
    simp [scannedFrom]
  | succ fuel ih =>
    obtain ⟨a, p, rfl, ha, hp⟩ := exists_group s
    by_cases hcolon : ':' ∈ a
    · obtain ⟨x, y, rfl, hx⟩ := List.eq_append_cons_of_mem hcolon
      have hy : ';' ∉ y := fun hmem => ha (by simp [hmem])
      have hcount : (x ++ ':' :: y).count ';' = 0 := List.count_eq_zero.mpr ha
      have hscan : scannedFrom (fuel + 1) (x ++ ':' :: y ++ p) =
          ⟨x, chainTexts y⟩ :: scannedFrom fuel (p.drop 1) := by
        rw [List.append_assoc, List.cons_append]
        exact scannedFrom_cons hx hy hp fuel
      rw [hscan, List.count_append, hcount, List.length_cons, List.forall_mem_cons]
      rcases hp with rfl | ⟨q, rfl⟩
      · have hnil : scannedFrom fuel (List.drop 1 ([] : CStr)) = [] := by cases fuel <;> rfl
        rw [hnil, List.append_nil, groupsHave_last ha, behindColon_append hx]
        simp
      · rw [List.length_append, List.length_cons] at hs
        rw [groupsHave_semi ha, behindColon_append hx, ← ih (by omega), List.count_cons_self,
          List.drop_one, List.tail_cons]
        constructor
        · intro h
          exact ⟨⟨hcolon, h.2.1⟩, by omega, h.2.2⟩
        · intro h
          exact ⟨by omega, h.1.2, h.2.2⟩
    · exact iff_of_false (not_complete_of_no_colon hn fuel hcolon hp)
        fun h => hcolon (h.colon_mem ha hp)

end WellFormed

end PChase
