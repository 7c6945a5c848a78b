import Trace4J.Profiler.EventList

/-!
# Reading an argument back

The argument string that names events, a method and a decode threshold, and what the parse
of it stores in a fresh process. The names come back as they are; a rate comes back when it
fits 32 bits.
-/

namespace Trace4J.Profiler
open Library

/-! ## Arguments -/

structure EventSpec where
  client : Option Text
  name : Text
  rate : Option Text

def EventSpec.text (e : EventSpec) : Text :=
  (match e.client with
    | some client => client ++ [':', ':']
    | none => []) ++ e.name ++
  match e.rate with
  | some rate => '@' :: rate
  | none => []

structure ArgumentSpec where
  events : List EventSpec
  method : Option Text
  threshold : Option Text

def ArgumentSpec.tokens (a : ArgumentSpec) : List Text :=
  a.events.map EventSpec.text ++ a.method.toList.map (methodMark ++ ·) ++ a.threshold.toList

def ArgumentSpec.text (a : ArgumentSpec) : Text := [','].intercalate a.tokens

def IsDecimal (s : Text) : Prop := s ≠ [] ∧ isNumber s = true

structure IsName (s : Text) : Prop where
  ne_nil : s ≠ []
  comma : ',' ∉ s
  rate : '@' ∉ s
  client : ¬[':', ':'] <:+: s
  method : ¬methodMark <:+: s

structure EventSpec.Valid (e : EventSpec) : Prop where
  name : IsName e.name
  notNumber : isNumber e.name = false
  client : ∀ client ∈ e.client, IsName client
  rate : ∀ rate ∈ e.rate, IsDecimal rate ∧ decimalValue rate < 2 ^ 64

structure ArgumentSpec.Valid (a : ArgumentSpec) : Prop where
  events : ∀ e ∈ a.events, e.Valid
  first : ∃ e es, a.events = e :: es ∧ e.client.isSome
  method : ∀ m ∈ a.method, ',' ∉ m
  threshold : ∀ t ∈ a.threshold, IsDecimal t ∧ decimalValue t < 2 ^ 64

/-- What the parse should have stored. -/
structure ArgumentSpec.Stored (a : ArgumentSpec) (g : Statics) : Prop where
  numEvents : g.numEvents = a.events.length
  names : ∀ i e, a.events[i]? = some e → (g.eventInfo i).name = e.name
  thresholds : ∀ i e, a.events[i]? = some e →
    (g.eventInfo i).threshold.toNat = (e.rate.map decimalValue).getD 0
  method : g.selectedMethod = a.method.getD []
  threshold : g.decodeThreshold.toNat = (a.threshold.map decimalValue).getD 0

def ArgumentSpec.ReadsBack (p : Platform) (a : ArgumentSpec) : Prop :=
  ∃ g, parseArgument p a.text {} = .ok g ∧ a.Stored g

/-- What the code can take: five events, rates of 32 bits, no colon at the end of a client,
and no client that makes a method of the last event. -/
structure ArgumentSpec.Fits (a : ArgumentSpec) : Prop where
  events : a.events.length ≤ maxEvents
  rates : ∀ e ∈ a.events, ∀ rate ∈ e.rate, decimalValue rate < 2 ^ 32
  clients : ∀ e ∈ a.events, ∀ client ∈ e.client, client.getLast? ≠ some ':'
  last : a.method = none → ∀ e ∈ a.events.getLast?, ∀ client ∈ e.client,
    ¬['M', 'e', 't', 'h', 'o', 'd'] <:+ client

/-! ## Searching -/

section Search
variable {p q x y z s : Text} {c d : Char}

theorem findPos_eq_none : findPos p s = none ↔ ¬p <:+: s := by
  induction s with
  | nil => simp [findPos]
  | cons c s ih =>
    rw [findPos, List.infix_cons_iff, not_or]
    split_ifs with h
    · simp [h]
    · rw [Option.map_eq_none_iff, ih, and_iff_right h]

theorem findPos_char (h : c ∉ x) : findPos [c] (x ++ c :: y) = some x.length := by
  induction x with
  | nil => simp [findPos]
  | cons d x ih =>
    have hne : c ≠ d := fun heq => h (heq ▸ List.mem_cons_self)
    have hx : c ∉ x := fun hmem => h (List.mem_cons_of_mem _ hmem)
    rw [List.cons_append, findPos, if_neg (by simpa using hne), ih hx]
    rfl

theorem findPos_colons (h : ¬[':', ':'] <:+: x) (hlast : x.getLast? ≠ some ':') :
    findPos [':', ':'] (x ++ ':' :: ':' :: y) = some x.length := by
  induction x with
  | nil => simp [findPos]
  | cons c x ih =>
    rw [List.infix_cons_iff, not_or] at h
    have hlast' : x.getLast? ≠ some ':' := by
      cases x with
      | nil => simp
      | cons d x => simpa using hlast
    have hnot : ¬[':', ':'] <+: c :: (x ++ ':' :: ':' :: y) := by
      intro hinit
      rw [List.cons_prefix_cons] at hinit
      obtain ⟨rfl, hinit⟩ := hinit
      cases x with
      | nil => exact hlast rfl
      | cons d x =>
        rw [List.cons_append, List.cons_prefix_cons] at hinit
        obtain ⟨rfl, -⟩ := hinit
        exact h.1 ⟨x, rfl⟩
    rw [List.cons_append, findPos, if_neg hnot, ih h.2 hlast']
    rfl

theorem infix_of_append (hd : d ∉ y) (h : q ++ [d] <:+: x ++ y) : q ++ [d] <:+: x := by
  obtain ⟨s, t, h⟩ := h
  obtain ⟨as, hx, -⟩ | ⟨bs, hx, hy⟩ := List.append_eq_append_iff.mp h
  · exact ⟨s, as, hx.symm⟩
  · obtain rfl | ⟨front, last, rfl⟩ := List.eq_nil_or_concat' bs
    · exact ⟨s, [], by rw [hx]; simp⟩
    · rw [← List.append_assoc, ← List.append_assoc] at hx
      obtain ⟨-, hlast⟩ := List.append_inj' hx rfl
      rw [hy, ← List.singleton_inj.mp hlast] at hd
      simp at hd

/-- Where a pattern that ends in `d` can be in a text that is cut at a `d`. -/
theorem infix_cases (hd : d ∉ q) (h : q ++ [d] <:+: x ++ d :: y) :
    q ++ [d] <:+: x ∨ q <:+ x ∨ q ++ [d] <:+: y := by
  obtain ⟨s, t, h⟩ := h
  rw [List.append_assoc, List.append_assoc, ← List.append_assoc] at h
  obtain ⟨as, hx, ht⟩ | ⟨bs, hx, hy⟩ := List.append_eq_append_iff.mp h
  · cases as with
    | nil => exact .inr (.inl ⟨s, by rw [hx, List.append_nil]⟩)
    | cons a as =>
      obtain ⟨rfl, -⟩ := List.cons.inj ht
      exact .inl ⟨s, as, by rw [hx]; simp⟩
  · cases bs with
    | nil => exact .inr (.inl ⟨s, by rw [hx, List.append_nil]⟩)
    | cons b bs =>
      obtain ⟨rfl, hrest⟩ := List.cons.inj hy
      right
      right
      rw [List.append_cons x d bs] at hx
      obtain ⟨as, hxd, hq⟩ | ⟨cs, -, hbs⟩ := List.append_eq_append_iff.mp hx
      · obtain rfl | ⟨front, last, rfl⟩ := List.eq_nil_or_concat' as
        · exact ⟨[], t, by rw [hrest, hq]; simp⟩
        · rw [← List.append_assoc] at hxd
          obtain ⟨-, hlast⟩ := List.append_inj' hxd rfl
          rw [hq, ← List.singleton_inj.mp hlast] at hd
          simp at hd
      · exact ⟨cs, t, by rw [hrest, hbs]; simp⟩

end Search

/-! ## Rates and tokens -/

section Text
variable {e : EventSpec} {a : ArgumentSpec} {s client : Text}

theorem isDigit_of_isNumber (h : isNumber s = true) : ∀ c ∈ s, c.isDigit = true := by
  rw [isNumber, List.all_eq_true] at h
  exact h

theorem not_mem_of_isNumber {c : Char} (h : isNumber s = true) (hc : c.isDigit = false) :
    c ∉ s := by
  intro hmem
  rw [isDigit_of_isNumber h c hmem] at hc
  cases hc

theorem isspace_of_isDigit {c : Char} (h : c.isDigit = true) : isspace c = false := by
  rw [Char.isDigit, Bool.and_eq_true, decide_eq_true_eq, decide_eq_true_eq] at h
  have hlow : 48 ≤ c.toNat := h.1
  rw [isspace, decide_eq_false_iff_not]
  rintro (rfl | ⟨-, hle⟩)
  · exact absurd hlow (by decide)
  · omega

theorem stoull_decimal (h : IsDecimal s) (hlt : decimalValue s < 2 ^ 64) :
    stoull s = .ok (decimalValue s) := by
  obtain ⟨hne, hnumber⟩ := h
  have hdigits := isDigit_of_isNumber hnumber
  obtain ⟨c, t, rfl⟩ := List.exists_cons_of_ne_nil hne
  have hc := hdigits c List.mem_cons_self
  have hdrop : (c :: t).dropWhile isspace = c :: t :=
    List.dropWhile_cons_of_neg (by simp [isspace_of_isDigit hc])
  have hminus : c ≠ '-' := by
    rintro rfl
    cases hc
  have hplus : c ≠ '+' := by
    rintro rfl
    cases hc
  have htake : (c :: t).takeWhile Char.isDigit = c :: t :=
    List.takeWhile_eq_self_iff.mpr hdigits
  unfold stoull
  have hfit : ¬(c :: t = [] ∨ 2 ^ 64 ≤ decimalValue (c :: t)) :=
    not_or_intro hne hlt.not_ge
  simp only [hdrop, List.head?_cons, Option.some.injEq, hminus, hplus, decide_false,
    Bool.false_eq_true, or_self, if_false, htake, hfit]

theorem readThreshold_decimal (hlt : decimalValue s < 2 ^ 64) :
    (readThreshold s).toNat = decimalValue s := by
  unfold readThreshold
  rw [min_eq_left (by omega)]
  exact UInt64.toNat_ofNat_of_lt' hlt

def EventSpec.tail (e : EventSpec) : Text :=
  e.name ++ match e.rate with
  | some rate => '@' :: rate
  | none => []

theorem EventSpec.text_of_client (h : e.client = some client) :
    e.text = client ++ ':' :: ':' :: e.tail := by
  rw [EventSpec.text, h, EventSpec.tail]
  simp

theorem EventSpec.text_of_none (h : e.client = none) : e.text = e.tail := by
  rw [EventSpec.text, h, EventSpec.tail]
  simp

theorem EventSpec.Valid.not_mem_rate (h : e.Valid) {c : Char} (hc : c.isDigit = false)
    (hat : c ≠ '@') :
    c ∉ (match e.rate with
      | some rate => '@' :: rate
      | none => [] : Text) := by
  cases hrate : e.rate with
  | none => exact List.not_mem_nil
  | some rate =>
    rw [List.mem_cons, not_or]
    exact ⟨hat, not_mem_of_isNumber (h.rate rate hrate).1.2 hc⟩

theorem EventSpec.Valid.comma_not_mem_text (h : e.Valid) : ',' ∉ e.text := by
  have htail : ',' ∉ e.tail := by
    rw [EventSpec.tail, List.mem_append, not_or]
    exact ⟨h.name.comma, h.not_mem_rate rfl (by decide)⟩
  cases hclient : e.client with
  | none => rwa [EventSpec.text_of_none hclient]
  | some client =>
    rw [EventSpec.text_of_client hclient]
    simp [(h.client client hclient).comma, htail]

theorem EventSpec.text_ne_nil (h : e.Valid) : e.text ≠ [] := by
  rw [EventSpec.text]
  simp [h.name.ne_nil]

theorem EventSpec.Valid.text_not_number (h : e.Valid) : isNumber e.text = false := by
  have hname : ∃ c ∈ e.name, ¬c.isDigit = true := by
    have hnot := h.notNumber
    rw [isNumber, List.all_eq_false] at hnot
    exact hnot
  obtain ⟨c, hc, hdigit⟩ := hname
  rw [isNumber, List.all_eq_false]
  refine ⟨c, ?_, hdigit⟩
  rw [EventSpec.text]
  simp [hc]

/-- The mark of a method can only arise from a client before its separator. -/
theorem EventSpec.Valid.method_not_within (h : e.Valid)
    (hclient : ∀ client ∈ e.client, ¬['M', 'e', 't', 'h', 'o', 'd'] <:+ client) :
    ¬methodMark <:+: e.text := by
  have hmark : methodMark = ['M', 'e', 't', 'h', 'o', 'd'] ++ [':'] := rfl
  have hq : ':' ∉ ['M', 'e', 't', 'h', 'o', 'd'] := by decide
  have htail : ¬methodMark <:+: e.tail := by
    intro hin
    rw [hmark, EventSpec.tail] at hin
    exact h.name.method (infix_of_append (h.not_mem_rate rfl (by decide)) hin)
  cases hc : e.client with
  | none => rwa [EventSpec.text_of_none hc]
  | some client =>
    rw [EventSpec.text_of_client hc, hmark]
    intro hin
    obtain hin | hin | hin := infix_cases hq hin
    · exact (h.client client hc).method hin
    · exact hclient client hc hin
    · obtain hin | hin | hin := infix_cases (x := []) hq hin
      · simp at hin
      · simp at hin
      · exact htail hin

end Text

/-! ## The list of tokens -/

section Tokens
variable {a : ArgumentSpec}

theorem ArgumentSpec.Valid.token (h : a.Valid) : ∀ token ∈ a.tokens, token ≠ [] ∧ ',' ∉ token := by
  intro token hmem
  rw [ArgumentSpec.tokens, List.mem_append, List.mem_append, List.mem_map, List.mem_map] at hmem
  obtain (⟨e, he, rfl⟩ | ⟨m, hm, rfl⟩) | ht := hmem
  · exact ⟨EventSpec.text_ne_nil (h.events e he), (h.events e he).comma_not_mem_text⟩
  · rw [Option.mem_toList] at hm
    refine ⟨by simp [methodMark], ?_⟩
    rw [List.mem_append, not_or]
    exact ⟨by decide, h.method m hm⟩
  · rw [Option.mem_toList] at ht
    obtain ⟨⟨hne, hnumber⟩, -⟩ := h.threshold token ht
    exact ⟨hne, not_mem_of_isNumber hnumber rfl⟩

theorem ArgumentSpec.Valid.perfEventList_text (h : a.Valid) : perfEventList a.text = a.tokens := by
  have hne : a.tokens ≠ [] := by
    obtain ⟨e, es, hevents, -⟩ := h.first
    rw [ArgumentSpec.tokens, hevents]
    simp
  rw [perfEventList_eq, tokenize, ArgumentSpec.text,
    List.splitOn_intercalate ',' (fun token hmem => (h.token token hmem).2) hne,
    List.filter_eq_self]
  intro token hmem
  exact decide_eq_true (h.token token hmem).1

theorem ArgumentSpec.Valid.front (h : a.Valid) (hfits : a.Fits) : ∃ before last,
    a.events.map EventSpec.text ++ a.method.toList.map (methodMark ++ ·) = before ++ [last] ∧
      isNumber last = false ∧
      (findPos methodMark last = some 0 ∧ before = a.events.map EventSpec.text ∧
          a.method = some (last.drop 7) ∨
        findPos methodMark last = none ∧ before ++ [last] = a.events.map EventSpec.text ∧
          a.method = none) := by
  cases hmethod : a.method with
  | some m =>
    refine ⟨_, methodMark ++ m, rfl, rfl, .inl ⟨?_, rfl, rfl⟩⟩
    rw [methodMark]
    rfl
  | none =>
    obtain ⟨e, es, hevents, -⟩ := h.first
    obtain hnil | ⟨before, last, hlast⟩ := List.eq_nil_or_concat' a.events
    · rw [hnil] at hevents
      cases hevents
    · have hin : last ∈ a.events := by simp [hlast]
      have hvalid := h.events last hin
      refine ⟨before.map EventSpec.text, last.text, by simp [hlast], hvalid.text_not_number, ?_⟩
      refine .inr ⟨?_, by simp [hlast], rfl⟩
      rw [findPos_eq_none]
      apply hvalid.method_not_within
      exact hfits.last hmethod last (by simp [hlast])

theorem ArgumentSpec.Valid.splitEventList_tokens (h : a.Valid) (hfits : a.Fits) :
    splitEventList a.tokens =
      .ok ⟨a.events.map EventSpec.text, a.threshold.map readThreshold, a.method⟩ := by
  obtain ⟨before, last, hfront, hnumber, hmark⟩ := h.front hfits
  unfold splitEventList ArgumentSpec.tokens
  rw [hfront]
  cases hthreshold : a.threshold with
  | some t =>
    rw [Option.toList_some, List.getLast?_concat, List.dropLast_concat]
    simp only [(h.threshold t hthreshold).1.2, if_true, List.getLast?_concat,
      List.dropLast_concat, Option.map_some]
    obtain ⟨hpos, hbefore, hmethod⟩ | ⟨hpos, hall, hmethod⟩ := hmark
    · rw [hpos, hbefore, hmethod]
    · rw [hpos, hall, hmethod]
  | none =>
    rw [Option.toList_none, List.append_nil, List.getLast?_concat, List.dropLast_concat]
    simp only [hnumber, Bool.false_eq_true, if_false, List.getLast?_concat,
      List.dropLast_concat, Option.map_none]
    obtain ⟨hpos, hbefore, hmethod⟩ | ⟨hpos, hall, hmethod⟩ := hmark
    · rw [hpos, hbefore, hmethod]
    · rw [hpos, hall, hmethod]

end Tokens

/-! ## The events -/

section Events
variable {p : Platform} {e : EventSpec} {es : List EventSpec} {g g' : Statics} {i : ℕ}
variable {clientName : Text}

theorem clientOf_text (h : e.Valid) (hlast : ∀ client ∈ e.client, client.getLast? ≠ some ':')
    (hname : e.client = none → clientName ≠ []) : ∃ client before,
      clientOf e.text clientName = .ok (client, before.length) ∧ client ≠ [] ∧
        e.text = before ++ e.tail ∧ '@' ∉ before := by
  cases hclient : e.client with
  | some client =>
    have hok := h.client client hclient
    refine ⟨client.map Char.toUpper, client ++ [':', ':'], ?_, ?_, ?_, ?_⟩
    · rw [EventSpec.text_of_client hclient, clientOf,
        findPos_colons hok.client (hlast client hclient)]
      simp
    · simpa using hok.ne_nil
    · rw [EventSpec.text_of_client hclient]
      simp
    · simp [hok.rate]
  | none =>
    have hnot : findPos [':', ':'] e.text = none := by
      rw [findPos_eq_none, EventSpec.text_of_none hclient]
      intro hin
      have hmark : ([':', ':'] : Text) = [':'] ++ [':'] := rfl
      rw [hmark, EventSpec.tail] at hin
      exact h.name.client (infix_of_append (h.not_mem_rate rfl (by decide)) hin)
    refine ⟨clientName, [], ?_, hname hclient, EventSpec.text_of_none hclient, List.not_mem_nil⟩
    rw [clientOf, hnot]
    exact if_neg (hname hclient)

/-- Name and rate, when the name starts at `pos`. -/
theorem nameAndRate_text {info : EventInfo} {before : Text} (h : e.Valid) (hat : '@' ∉ before) :
    nameAndRate (before ++ e.tail) before.length info =
      .ok { info with
        name := e.name
        threshold := match e.rate with
          | some rate => UInt32.ofNat (decimalValue rate)
          | none => info.threshold } := by
  have hname : '@' ∉ before ++ e.name := by
    rw [List.mem_append, not_or]
    exact ⟨hat, h.name.rate⟩
  rw [EventSpec.tail]
  cases hrate : e.rate with
  | none =>
    have hnot : findPos ['@'] (before ++ e.name) = none := by
      rw [findPos_eq_none]
      intro hin
      exact hname (hin.subset (by simp))
    simp only [List.append_nil, nameAndRate, hnot, List.drop_left]
  | some rate =>
    obtain ⟨hdecimal, hlt⟩ := h.rate rate hrate
    have hpos : findPos ['@'] (before ++ (e.name ++ '@' :: rate)) =
        some (before ++ e.name).length := by
      rw [← List.append_assoc]
      exact findPos_char hname
    have hdrop :
        (before ++ (e.name ++ '@' :: rate)).drop ((before ++ e.name).length + 1) = rate := by
      rw [← List.append_assoc, ← List.drop_drop, List.drop_left]
      rfl
    have hle : before.length ≤ (before ++ e.name).length := by simp
    have hsub : (before ++ e.name).length - before.length = e.name.length := by simp
    simp only [nameAndRate, hpos, hdrop, stoull_decimal hdecimal hlt, bind, Except.bind, if_pos hle,
      List.drop_left, hsub, List.take_left]

def EventSpec.rateValue (e : EventSpec) : ℕ := (e.rate.map decimalValue).getD 0

structure EventStored (e : EventSpec) (i : ℕ) (g g' : Statics) : Prop where
  name : (g'.eventInfo i).name = e.name
  threshold : (g'.eventInfo i).threshold.toNat = e.rateValue
  others : ∀ j, j ≠ i → g'.eventInfo j = g.eventInfo j
  numEvents : g'.numEvents = g.numEvents
  decodeThreshold : g'.decodeThreshold = g.decodeThreshold
  selectedMethod : g'.selectedMethod = g.selectedMethod
  watermark : g'.watermark.curWatermarkId = g.watermark.curWatermarkId + 1

structure EventSpec.Storable (p : Platform) (e : EventSpec) : Prop extends e.Valid where
  rate32 : ∀ rate ∈ e.rate, decimalValue rate < 2 ^ 32
  colon : ∀ client ∈ e.client, client.getLast? ≠ some ':'
  encoded : ∀ preciseIp, (p.encodeEvent e.name preciseIp).isSome

theorem setupWatermarkMetric_of_ne {w : Watermark} (h : w.curWatermarkId ≠ maxEvents)
    (client name : Text) : ∃ w', setupWatermarkMetric w client name = some w' := by
  unfold setupWatermarkMetric
  dsimp only
  rw [if_neg h]
  split_ifs
  · exact ⟨_, rfl⟩
  · exact ⟨_, rfl⟩

theorem nameAndRate_stored {before : Text} {info : EventInfo} (h : e.Storable p)
    (hat : '@' ∉ before) (hfresh : info.threshold = 0) : ∃ info',
      nameAndRate (before ++ e.tail) before.length info = .ok info' ∧ info'.name = e.name ∧
        info'.threshold.toNat = e.rateValue := by
  refine ⟨_, nameAndRate_text h.toValid hat, rfl, ?_⟩
  rw [EventSpec.rateValue]
  cases hrate : e.rate with
  | none => simp [hfresh]
  | some rate => exact UInt32.toNat_ofNat_of_lt' (h.rate32 rate hrate)

theorem processEvent_stored (h : e.Storable p) (hname : e.client = none → clientName ≠ [])
    (hfresh : (g.eventInfo i).threshold = 0) (hcur : g.watermark.curWatermarkId ≠ maxEvents) :
    ∃ client g', processEvent p i e.text clientName g = .ok (client, g') ∧ client ≠ [] ∧
      EventStored e i g g' := by
  obtain ⟨client, before, hclient, hne, htext, hat⟩ := clientOf_text h.toValid h.colon hname
  obtain ⟨info, hinfo, hinfoName, hinfoThreshold⟩ := nameAndRate_stored h hat hfresh
  obtain ⟨info', hprecise, hsame⟩ : ∃ info' : EventInfo,
      (if info.threshold ≠ 0 then { info with preciseIp := p.preciseIp } else info) = info' ∧
        info'.name = info.name ∧ info'.threshold = info.threshold := by
    refine ⟨_, rfl, ?_⟩
    split_ifs
    · exact ⟨rfl, rfl⟩
    · exact ⟨rfl, rfl⟩
  obtain ⟨hname', hthreshold'⟩ := hsame
  rw [hinfoName] at hname'
  obtain ⟨preciseIp, hencode⟩ := Option.isSome_iff_exists.mp (h.encoded info'.preciseIp)
  obtain ⟨w, hw⟩ := setupWatermarkMetric_of_ne hcur client e.name
  have hprocess : processEvent p i e.text clientName g = .ok (client, { g with
      eventInfo := Function.update g.eventInfo i { info' with preciseIp := preciseIp }
      watermark := w }) := by
    unfold processEvent
    rw [hclient, htext]
    simp only [bind, Except.bind, hinfo, hprecise, hname', hencode, hw]
  refine ⟨client, _, hprocess, hne, ?_⟩
  constructor
  · simp only [Function.update_self, hname']
  · simp only [Function.update_self, hthreshold', hinfoThreshold]
  · exact fun j hj => Function.update_of_ne hj _ _
  · rfl
  · rfl
  · rfl
  · exact setupWatermarkMetric_cur hw

variable (clientName) in
/-- The loop over the events from the one at `i` on. -/
theorem processEvents_stored (hes : ∀ e ∈ es, e.Storable p)
    (hname : ∀ e ∈ es.head?, e.client = none → clientName ≠ [])
    (hfresh : ∀ j, i ≤ j → (g.eventInfo j).threshold = 0)
    (hcur : g.watermark.curWatermarkId + es.length ≤ maxEvents) :
    ∃ g', processEvents p i (es.map EventSpec.text) clientName g = .ok g' ∧
      g'.numEvents = g.numEvents ∧ g'.decodeThreshold = g.decodeThreshold ∧
      g'.selectedMethod = g.selectedMethod ∧ (∀ j < i, g'.eventInfo j = g.eventInfo j) ∧
      ∀ j e, es[j]? = some e → (g'.eventInfo (i + j)).name = e.name ∧
        (g'.eventInfo (i + j)).threshold.toNat = e.rateValue := by
  induction es generalizing i clientName g with
  | nil => exact ⟨g, rfl, rfl, rfl, rfl, fun _ _ => rfl, fun j e hj => by simp at hj⟩
  | cons e es ih =>
    rw [List.length_cons] at hcur
    obtain ⟨client, g₁, hevent, hne, hstored⟩ :=
      processEvent_stored (i := i) (hes e List.mem_cons_self) (hname e rfl) (hfresh i le_rfl)
        (by omega)
    obtain ⟨g', hrest, hnum, hdecode, hmethod, hbefore, hafter⟩ :=
      ih client (i := i + 1) (g := g₁)
        (fun e he => hes e (List.mem_cons_of_mem _ he)) (fun _ _ _ => hne)
        (fun j hj => by rw [hstored.others j (by omega)]; exact hfresh j (by omega))
        (by rw [hstored.watermark]; omega)
    refine ⟨g', ?_, hnum.trans hstored.numEvents, hdecode.trans hstored.decodeThreshold,
      hmethod.trans hstored.selectedMethod, ?_, ?_⟩
    · rw [List.map_cons, processEvents, hevent]
      exact hrest
    · intro j hj
      rw [hbefore j (by omega), hstored.others j (by omega)]
    · intro j e' hj
      cases j with
      | zero =>
        obtain rfl := Option.some.inj hj
        rw [Nat.add_zero, hbefore i (by omega)]
        exact ⟨hstored.name, hstored.threshold⟩
      | succ j =>
        have hnext := hafter j e' hj
        rw [Nat.add_right_comm, Nat.add_assoc] at hnext
        exact hnext

end Events

theorem ArgumentSpec.length_tokens_le (a : ArgumentSpec) :
    a.tokens.length ≤ a.events.length + 2 := by
  rw [ArgumentSpec.tokens]
  cases a.method <;> cases a.threshold <;> simp

theorem argument_readsBack (p : Platform) (a : ArgumentSpec) (hvalid : a.Valid) (hfits : a.Fits)
    (hencoded : ∀ e ∈ a.events, ∀ preciseIp, (p.encodeEvent e.name preciseIp).isSome) :
    a.ReadsBack p := by
  have hcount : a.events.length ≤ 5 := hfits.events
  have hsplit := hvalid.splitEventList_tokens hfits
  have hstorable : ∀ e ∈ a.events, e.Storable p := fun e he =>
    { toValid := hvalid.events e he
      rate32 := hfits.rates e he
      colon := hfits.clients e he
      encoded := hencoded e he }
  have hfirst : ∀ e ∈ a.events.head?, e.client = none → ([] : Text) ≠ [] := by
    intro e he hnone
    obtain ⟨first, es, hevents, hclient⟩ := hvalid.first
    rw [hevents, List.head?_cons, Option.mem_some] at he
    rw [he, hnone] at hclient
    cases hclient
  obtain ⟨g, hprocess, hnum, hdecode, hmethod, -, hevents⟩ :=
    processEvents_stored [] (i := 0)
      (g := configure ⟨a.events.map EventSpec.text, a.threshold.map readThreshold, a.method⟩ {})
      hstorable hfirst (fun _ _ => rfl)
      (by change 0 + a.events.length ≤ 5; omega)
  simp only [Nat.zero_add] at hevents
  refine ⟨g, ?_, ?_⟩
  · have hlen : a.tokens.length < 2 ^ 32 := by
      have := a.length_tokens_le
      omega
    have hmax : ¬maxNumEvents ≤ (a.events.map EventSpec.text).length := by
      rw [List.length_map]
      unfold maxNumEvents
      omega
    rw [parseArgument, hvalid.perfEventList_text, parseEventList_eq hlen hsplit, processEventList,
      hsplit]
    simp only [bind, Except.bind, if_neg hmax, hprocess]
    rfl
  · constructor
    · rw [hnum]
      exact List.length_map _
    · exact fun i e he => (hevents i e he).1
    · exact fun i e he => (hevents i e he).2
    · rw [hmethod]
      rfl
    · rw [hdecode, configure]
      cases hthreshold : a.threshold with
      | none => rfl
      | some t => exact readThreshold_decimal (hvalid.threshold t hthreshold).2

/-! ## Arguments that come back, and arguments that do not -/

instance (s : Text) : Decidable (IsName s) :=
  decidable_of_iff (s ≠ [] ∧ ',' ∉ s ∧ '@' ∉ s ∧ ¬[':', ':'] <:+: s ∧ ¬methodMark <:+: s)
    ⟨fun h => ⟨h.1, h.2.1, h.2.2.1, h.2.2.2.1, h.2.2.2.2⟩,
      fun h => ⟨h.ne_nil, h.comma, h.rate, h.client, h.method⟩⟩

instance (s : Text) : Decidable (IsDecimal s) := inferInstanceAs (Decidable (_ ∧ _))

instance (e : EventSpec) : Decidable e.Valid :=
  decidable_of_iff (IsName e.name ∧ isNumber e.name = false ∧
      (∀ client ∈ e.client, IsName client) ∧
      ∀ rate ∈ e.rate, IsDecimal rate ∧ decimalValue rate < 2 ^ 64)
    ⟨fun h => ⟨h.1, h.2.1, h.2.2.1, h.2.2.2⟩, fun h => ⟨h.name, h.notNumber, h.client, h.rate⟩⟩

def fullArgument : ArgumentSpec :=
  ⟨[⟨some ['c'], ['A', ':', 'u'], some ['1', '0', '0']⟩, ⟨none, ['B'], none⟩], some ['m'],
    some ['7']⟩

theorem argument_readsBack_fullArgument : fullArgument.ReadsBack plainPlatform :=
  argument_readsBack plainPlatform fullArgument
    ⟨by decide, ⟨_, _, rfl, rfl⟩, by decide, by decide⟩
    ⟨by decide, by decide, by decide, nofun⟩
    (fun _ _ _ => rfl)

def sixEvents : ArgumentSpec :=
  ⟨⟨some ['c'], ['a'], none⟩ :: List.replicate 5 ⟨none, ['a'], none⟩, none, none⟩

def wideRate : ArgumentSpec :=
  ⟨[⟨some ['c'], ['a'], some ['4', '2', '9', '4', '9', '6', '7', '2', '9', '7']⟩], none, none⟩

def methodClient : ArgumentSpec :=
  ⟨[⟨some ['M', 'e', 't', 'h', 'o', 'd'], ['a'], none⟩], none, none⟩

def colonClient : ArgumentSpec := ⟨[⟨some ['c', ':'], ['a'], none⟩], none, none⟩

def parsed {α : Type} (a : ArgumentSpec) (read : Statics → α) : Except ParseFault α :=
  (parseArgument plainPlatform a.text {}).map read

theorem parsed_of_readsBack {α : Type} {a : ArgumentSpec} (read : Statics → α)
    (h : a.ReadsBack plainPlatform) : ∃ g, a.Stored g ∧ parsed a read = .ok (read g) := by
  obtain ⟨g, hparse, hstored⟩ := h
  exact ⟨g, hstored, by rw [parsed, hparse]; rfl⟩

/-- Six events fail the assertion on the watermarks, the rate `2 ^ 32 + 1` is stored as 1, the
client `Method` makes a method of its event, and a colon at the end of a client is taken for
the name. -/
theorem not_readsBack_plain :
    (sixEvents.Valid ∧ ¬sixEvents.ReadsBack plainPlatform) ∧
    (wideRate.Valid ∧ ¬wideRate.ReadsBack plainPlatform) ∧
    (methodClient.Valid ∧ ¬methodClient.ReadsBack plainPlatform) ∧
    (colonClient.Valid ∧ ¬colonClient.ReadsBack plainPlatform) := by
  refine ⟨⟨⟨by decide, ⟨_, _, rfl, rfl⟩, nofun, nofun⟩, ?_⟩,
    ⟨⟨by decide, ⟨_, _, rfl, rfl⟩, nofun, nofun⟩, ?_⟩,
    ⟨⟨by decide, ⟨_, _, rfl, rfl⟩, nofun, nofun⟩, ?_⟩,
    ⟨⟨by decide, ⟨_, _, rfl, rfl⟩, nofun, nofun⟩, ?_⟩⟩
  · intro h
    obtain ⟨g, -, hread⟩ := parsed_of_readsBack (fun g => g.numEvents) h
    have hfault : parsed sixEvents (fun g => g.numEvents) = .error (.rejected .assertion) := by
      decide +kernel
    rw [hfault] at hread
    cases hread
  · intro h
    obtain ⟨g, hstored, hread⟩ := parsed_of_readsBack
      (fun g => (g.eventInfo 0).threshold.toNat) h
    have hone : parsed wideRate (fun g => (g.eventInfo 0).threshold.toNat) = .ok 1 := by
      decide +kernel
    rw [hone, Except.ok.injEq, hstored.thresholds 0 _ rfl] at hread
    exact absurd hread (by decide)
  · intro h
    obtain ⟨g, hstored, hread⟩ := parsed_of_readsBack (fun g => g.numEvents) h
    have hzero : parsed methodClient (fun g => g.numEvents) = .ok 0 := by
      decide +kernel
    rw [hzero, Except.ok.injEq, hstored.numEvents] at hread
    exact absurd hread (by decide)
  · intro h
    obtain ⟨g, hstored, hread⟩ := parsed_of_readsBack (fun g => (g.eventInfo 0).name) h
    have hname : parsed colonClient (fun g => (g.eventInfo 0).name) = .ok [':', 'a'] := by
      decide +kernel
    rw [hname, Except.ok.injEq, hstored.names 0 _ rfl] at hread
    exact absurd hread (by decide)

end Trace4J.Profiler
