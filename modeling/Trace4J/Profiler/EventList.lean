import Mathlib.Data.List.TakeWhile
import Trace4J.Profiler.Sessions

/-!
# Indexing the event list

`Tokenize` over its two positions, and `process_event_list` with `num_events`, the 32-bit
counter that it decrements twice and indexes the list with before anything is known about
the size of the list.
-/

namespace Trace4J.Profiler
open Library

/-! ## Tokens -/

/-- The first position from `start` on at which `p` holds; `none` is `npos`. -/
def findFirst (p : Char → Bool) (str : Text) (start : Option ℕ) : Option ℕ :=
  start.bind fun i =>
    let k := i + ((str.drop i).takeWhile fun c => !p c).length
    if k < str.length then some k else none

def findFirstNotOf (delimiters str : Text) : Option ℕ → Option ℕ :=
  findFirst (fun c => decide (c ∉ delimiters)) str

def findFirstOf (delimiters str : Text) : Option ℕ → Option ℕ :=
  findFirst (fun c => decide (c ∈ delimiters)) str

def substrTo (str : Text) : Option ℕ → Option ℕ → Text
  | some lastPos, some pos => (str.drop lastPos).take (pos - lastPos)
  | some lastPos, none => str.drop lastPos
  | none, _ => []

def tokenizeLoop (str delimiters : Text) :
    ℕ → Option ℕ → Option ℕ → List Text → List Text
  | 0, _, _, tokens => tokens
  | fuel + 1, lastPos, pos, tokens =>
    if pos ≠ none ∨ lastPos ≠ none then
      let tokens := tokens ++ [substrTo str lastPos pos]
      let lastPos := findFirstNotOf delimiters str pos
      let pos := findFirstOf delimiters str lastPos
      tokenizeLoop str delimiters fuel lastPos pos tokens
    else tokens

/-- `Tokenize`; every pass takes a character, so the fuel is never used up. -/
def tokenizeStr (str delimiters : Text) : List Text :=
  let lastPos := findFirstNotOf delimiters str (some 0)
  let pos := findFirstOf delimiters str lastPos
  tokenizeLoop str delimiters (str.length + 1) lastPos pos []

def perfEventList (arg : Text) : List Text := tokenizeStr arg [',']

/-! ## The counter -/

inductive ParseFault
  | belowZero
  | outOfBounds
  | rejected (fault : StartFault)
deriving DecidableEq

def decrement (n : ℕ) : Except ParseFault ℕ := if n = 0 then .error .belowZero else .ok (n - 1)

def eventAt (eventList : List Text) (i : ℕ) : Except ParseFault Text :=
  match eventList[i]? with
  | none => .error .outOfBounds
  | some event => .ok event

structure EventHead where
  numEvents : ℕ
  threshold : Option UInt64
  method : Option Text

/-- `process_event_list` up to the first assertion. -/
def eventHead (eventList : List Text) : Except ParseFault EventHead := do
  let size ← decrement eventList.length
  let numEvents := size % 2 ^ 32
  let last ← eventAt eventList numEvents
  let threshold := if isNumber last then some (readThreshold last) else none
  let numEvents := if isNumber last then numEvents else (numEvents + 1) % 2 ^ 32
  let numEvents ← decrement numEvents
  let tempstr ← eventAt eventList numEvents
  match findPos methodMark tempstr with
  | some pos => .ok ⟨numEvents, threshold, some (tempstr.drop (pos + 7))⟩
  | none => .ok ⟨(numEvents + 1) % 2 ^ 32, threshold, none⟩

/-- The loop from event `i` on, with so many events to go. -/
def eventLoop (p : Platform) (eventList : List Text) :
    ℕ → ℕ → Text → Statics → Except ParseFault Statics
  | 0, _, _, g => .ok g
  | n + 1, i, clientName, g => do
    let event ← eventAt eventList i
    let (clientName, g) ← (processEvent p i event clientName g).mapError .rejected
    eventLoop p eventList n (i + 1) clientName g

def EventHead.store (head : EventHead) (g : Statics) : Statics :=
  { g with
    numEvents := head.numEvents
    decodeThreshold := head.threshold.getD g.decodeThreshold
    selectedMethod := head.method.getD g.selectedMethod }

def parseEventList (p : Platform) (eventList : List Text) (g : Statics) :
    Except ParseFault Statics := do
  let head ← eventHead eventList
  if maxNumEvents ≤ head.numEvents then .error (.rejected .assertion)
  else eventLoop p eventList head.numEvents 0 [] (head.store g)

def parseArgument (p : Platform) (arg : Text) (g : Statics) : Except ParseFault Statics :=
  parseEventList p (perfEventList arg) g

/-! ## The tokens of a string -/

section Tokens
variable {str x s : Text} {i fuel : ℕ} {tokens : List Text}

theorem tokenize_of_not_mem (h : ',' ∉ x) : tokenize x = if x = [] then [] else [x] := by
  rw [tokenize, List.splitOn_eq_singleton h]
  split_ifs with hx
  · simp [hx]
  · simp [hx]

theorem tokenize_append (h : ',' ∉ x) :
    tokenize (x ++ ',' :: s) = (if x = [] then [] else [x]) ++ tokenize s := by
  unfold tokenize
  rw [List.splitOn_append_cons_self_of_not_mem h]
  split_ifs with hx
  · simp [hx]
  · simp [hx]

theorem tokenize_of_commas (h : ∀ c ∈ x, c = ',') : tokenize (x ++ s) = tokenize s := by
  induction x with
  | nil => rfl
  | cons c x ih =>
    obtain ⟨rfl, hx⟩ := List.forall_mem_cons.mp h
    rw [List.cons_append]
    exact (tokenize_append (x := []) List.not_mem_nil).trans (ih hx)

theorem findFirst_some (p : Char → Bool) (str : Text) (i : ℕ) :
    findFirst p str (some i) =
      if i + ((str.drop i).takeWhile fun c => !p c).length < str.length then
        some (i + ((str.drop i).takeWhile fun c => !p c).length) else none := rfl

theorem findFirst_split (p : Char → Bool) (hi : i ≤ str.length) :
    (findFirst p str (some i) = none ∧ ∀ c ∈ str.drop i, p c = false) ∨
    ∃ x c s, str.drop i = x ++ c :: s ∧ (∀ d ∈ x, p d = false) ∧ p c = true ∧
      findFirst p str (some i) = some (i + x.length) := by
  have hsplit := List.takeWhile_append_dropWhile (p := fun c => !p c) (l := str.drop i)
  have hlen := congrArg List.length hsplit
  rw [List.length_append, List.length_drop] at hlen
  have hbefore : ∀ d ∈ (str.drop i).takeWhile (fun c => !p c), p d = false := by
    intro d hd
    simpa using List.mem_takeWhile_imp hd
  rw [findFirst_some]
  cases hrest : (str.drop i).dropWhile fun c => !p c with
  | nil =>
    rw [hrest, List.append_nil] at hsplit
    rw [hrest, List.length_nil] at hlen
    left
    refine ⟨if_neg (by omega), ?_⟩
    rw [← hsplit]
    exact hbefore
  | cons c s =>
    rw [hrest] at hsplit
    rw [hrest, List.length_cons] at hlen
    right
    refine ⟨_, c, s, hsplit.symm, hbefore, ?_, if_pos (by omega)⟩
    have hhead := List.head?_dropWhile_not (fun c => !p c) (str.drop i)
    rw [hrest] at hhead
    simpa using hhead

theorem tokenizeLoop_stop : tokenizeLoop str [','] fuel none none tokens = tokens := by
  cases fuel with
  | zero => rfl
  | succ fuel => exact if_neg (by simp)

variable (tokens) in
/-- Each pass finds a run of commas, then a token. -/
theorem tokenizeLoop_eq (hi : i ≤ str.length) (hfuel : str.length - i < fuel) :
    tokenizeLoop str [','] fuel (findFirstNotOf [','] str (some i))
      (findFirstOf [','] str (findFirstNotOf [','] str (some i))) tokens =
        tokens ++ tokenize (str.drop i) := by
  induction fuel generalizing i tokens with
  | zero => omega
  | succ fuel ih =>
    obtain ⟨hnone, hall⟩ | ⟨x, c, s, hdrop, hx, hc, hsome⟩ :=
      findFirst_split (fun c => decide (c ∉ [','])) hi
    · have hcommas : ∀ c ∈ str.drop i, c = ',' := fun c hc => by simpa using hall c hc
      have hempty := tokenize_of_commas (s := []) hcommas
      rw [List.append_nil] at hempty
      rw [findFirstNotOf, hnone, hempty]
      exact tokenizeLoop_stop.trans (List.append_nil _).symm
    · have hcommas : ∀ d ∈ x, d = ',' := fun d hd => by simpa using hx d hd
      have hstart : str.drop (i + x.length) = c :: s := by
        rw [← List.drop_drop, hdrop, List.drop_left]
      have hbound : i + x.length ≤ str.length := by
        have hlen := congrArg List.length hdrop
        rw [List.length_drop, List.length_append] at hlen
        omega
      rw [findFirstNotOf, hsome, hdrop, tokenize_of_commas hcommas, tokenizeLoop,
        if_pos (.inr (Option.some_ne_none _))]
      obtain ⟨hend, htoken⟩ | ⟨y, d, t, htoken, hy, hd, hend⟩ :=
        findFirst_split (fun c => decide (c ∈ [','])) hbound
      · have hnot : ',' ∉ c :: s := by
          intro hmem
          rw [hstart] at htoken
          simpa using htoken ',' hmem
        rw [findFirstOf, hend, tokenize_of_not_mem hnot, if_neg (List.cons_ne_nil _ _)]
        simp only [substrTo, hstart]
        exact tokenizeLoop_stop
      · have hcomma : d = ',' := by simpa using hd
        have hnot : ',' ∉ y := fun hmem => by simpa using hy ',' hmem
        have hne : y ≠ [] := by
          rintro rfl
          rw [hstart, List.nil_append, List.cons.injEq] at htoken
          rw [htoken.1, hcomma] at hc
          simp at hc
        have hrest : str.drop (i + x.length + y.length) = ',' :: t := by
          rw [← List.drop_drop, htoken, List.drop_left, hcomma]
        have hpos : 0 < y.length := List.length_pos_iff.mpr hne
        have hbound' : i + x.length + y.length ≤ str.length := by
          have hlen := congrArg List.length hrest
          rw [List.length_drop, List.length_cons] at hlen
          omega
        have hsub : substrTo str (some (i + x.length)) (some (i + x.length + y.length)) = y := by
          rw [substrTo, htoken, Nat.add_sub_cancel_left, List.take_left]
        rw [findFirstOf, hend, hsub]
        refine (ih _ hbound' (by omega)).trans ?_
        have hskip : tokenize (',' :: t) = tokenize t := tokenize_append (x := []) List.not_mem_nil
        rw [hrest, hskip, ← hstart, htoken, hcomma, tokenize_append hnot, if_neg hne,
          List.append_assoc]

theorem perfEventList_eq (arg : Text) : perfEventList arg = tokenize arg := by
  have hloop := tokenizeLoop_eq [] (Nat.zero_le arg.length) (Nat.lt_succ_self _)
  rw [List.drop_zero, List.nil_append] at hloop
  exact hloop

end Tokens

/-! ## The bounds of the list -/

def InBounds (p : Platform) (arg : Text) (g : Statics) : Prop :=
  parseArgument p arg g ≠ .error .belowZero ∧ parseArgument p arg g ≠ .error .outOfBounds ∧
    ∀ g', parseArgument p arg g = .ok g' → g'.numEvents ≤ (perfEventList arg).length

/-- There is a token, and one is left in front of a number at the end. With as many tokens
as the counter has values the sizes are those of the counter. -/
def LeavesOne (eventList : List Text) : Prop :=
  ∃ last, eventList[(eventList.length - 1) % 2 ^ 32]? = some last ∧
    if isNumber last then eventList.length % 2 ^ 32 ≠ 1 else eventList.length % 2 ^ 32 ≠ 0

section Bounds
variable {p : Platform} {eventList : List Text} {g g' : Statics} {n i : ℕ} {clientName : Text}

theorem decrement_of_pos (h : 0 < n) : decrement n = .ok (n - 1) := if_neg h.ne'

theorem eventAt_of_lt (h : i < eventList.length) : eventAt eventList i = .ok eventList[i] := by
  rw [eventAt, List.getElem?_eq_getElem h]

def countAfterNumber (size : ℕ) (number : Bool) : ℕ :=
  if number then (size - 1) % 2 ^ 32 else ((size - 1) % 2 ^ 32 + 1) % 2 ^ 32

theorem countAfterNumber_le (number : Bool) (h : 0 < n) : countAfterNumber n number ≤ n := by
  unfold countAfterNumber
  split_ifs <;> omega

theorem leavesOne_iff_countAfterNumber {last : Text} (hpos : 0 < eventList.length)
    (hlast : eventList[(eventList.length - 1) % 2 ^ 32]? = some last) :
    LeavesOne eventList ↔ countAfterNumber eventList.length (isNumber last) ≠ 0 := by
  unfold LeavesOne countAfterNumber
  simp only [hlast, Option.some.injEq, exists_eq_left']
  split_ifs <;> omega

theorem eventHead_eq {last : Text} (hpos : 0 < eventList.length)
    (hlast : eventList[(eventList.length - 1) % 2 ^ 32]? = some last) :
    eventHead eventList =
      (decrement (countAfterNumber eventList.length (isNumber last))).bind fun numEvents =>
        (eventAt eventList numEvents).bind fun tempstr =>
          match findPos methodMark tempstr with
          | some pos => .ok ⟨numEvents, if isNumber last then some (readThreshold last) else none,
              some (tempstr.drop (pos + 7))⟩
          | none => .ok ⟨(numEvents + 1) % 2 ^ 32,
              if isNumber last then some (readThreshold last) else none, none⟩ := by
  unfold eventHead
  rw [decrement_of_pos hpos]
  simp only [bind, Except.bind, eventAt, hlast]
  rfl

theorem eventHead_cases (eventList : List Text) :
    (¬LeavesOne eventList ∧ eventHead eventList = .error .belowZero) ∨
    (LeavesOne eventList ∧ ∃ head, eventHead eventList = .ok head ∧
      head.numEvents ≤ eventList.length) := by
  obtain hnil | hpos := Nat.eq_zero_or_pos eventList.length
  · left
    rw [List.length_eq_zero_iff] at hnil
    subst hnil
    exact ⟨by simp [LeavesOne], rfl⟩
  · have hlast := List.getElem?_eq_getElem
      (show (eventList.length - 1) % 2 ^ 32 < eventList.length by omega)
    rw [leavesOne_iff_countAfterNumber hpos hlast, eventHead_eq hpos hlast]
    have hle := countAfterNumber_le (n := eventList.length)
      (isNumber eventList[(eventList.length - 1) % 2 ^ 32]) hpos
    generalize countAfterNumber eventList.length _ = count at hle
    obtain rfl | hcount := Nat.eq_zero_or_pos count
    · exact .inl ⟨fun h => h rfl, rfl⟩
    · right
      refine ⟨hcount.ne', ?_⟩
      rw [decrement_of_pos hcount]
      have hlast : count - 1 < eventList.length := by omega
      simp only [Except.bind, eventAt_of_lt hlast]
      cases findPos methodMark eventList[count - 1] with
      | none =>
        refine ⟨_, rfl, ?_⟩
        dsimp only
        omega
      | some pos =>
        refine ⟨_, rfl, ?_⟩
        dsimp only
        omega

/-- Without overflow of the counter the head is the one that cuts the list. -/
theorem eventHead_of_split {l : EventList} (hlen : eventList.length < 2 ^ 32)
    (h : splitEventList eventList = .ok l) :
    eventHead eventList = .ok ⟨l.events.length, l.threshold, l.method⟩ ∧
      l.events <+: eventList := by
  unfold splitEventList at h
  obtain rfl | ⟨front, last, rfl⟩ := List.eq_nil_or_concat' eventList
  · cases h
  rw [List.length_append, List.length_singleton] at hlen
  have hindex : ((front ++ [last]).length - 1) % 2 ^ 32 = front.length := by
    rw [List.length_append, List.length_singleton]
    omega
  have hlast : (front ++ [last])[((front ++ [last]).length - 1) % 2 ^ 32]? = some last := by
    rw [hindex, List.getElem?_concat_length]
  have hcount : countAfterNumber (front ++ [last]).length (isNumber last) =
      (if isNumber last then front else front ++ [last]).length := by
    unfold countAfterNumber
    rw [hindex]
    split_ifs
    · rfl
    · rw [List.length_append, List.length_singleton, Nat.mod_eq_of_lt hlen]
  rw [eventHead_eq (by simp) hlast, hcount]
  rw [List.getLast?_concat, List.dropLast_concat] at h
  dsimp only at h
  have hinit : (if isNumber last then front else front ++ [last]) <+: front ++ [last] := by
    split_ifs
    · exact List.prefix_append _ _
    · exact List.prefix_rfl
  generalize (if isNumber last then front else front ++ [last]) = rest at h hinit
  obtain rfl | ⟨events, tempstr, rfl⟩ := List.eq_nil_or_concat' rest
  · cases h
  rw [List.getLast?_concat, List.dropLast_concat] at h
  have hat : eventAt (front ++ [last]) events.length = .ok tempstr := by
    obtain ⟨after, hafter⟩ := hinit
    rw [eventAt, ← hafter, List.append_assoc, List.getElem?_append_right le_rfl]
    simp
  have hlt : events.length + 1 < 2 ^ 32 := by
    have hle := hinit.length_le
    rw [List.length_append, List.length_append, List.length_singleton, List.length_singleton] at hle
    omega
  have hdecrement : decrement (events.length + 1) = .ok events.length :=
    decrement_of_pos (Nat.succ_pos _)
  rw [List.length_append, List.length_singleton, hdecrement]
  simp only [Except.bind, hat, Nat.mod_eq_of_lt hlt]
  cases hpos : findPos methodMark tempstr with
  | none =>
    simp only [hpos] at h
    rw [← Except.ok.inj h]
    exact ⟨by simp, hinit⟩
  | some pos =>
    simp only [hpos] at h
    rw [← Except.ok.inj h]
    exact ⟨by simp, (List.prefix_append _ _).trans hinit⟩

theorem eventLoop_eq {events rest : List Text} (h : eventList.drop i = events ++ rest) :
    eventLoop p eventList events.length i clientName g =
      (processEvents p i events clientName g).mapError .rejected := by
  induction events generalizing i clientName g with
  | nil => rfl
  | cons event events ih =>
    have hat : eventAt eventList i = .ok event := by
      have hhead := congrArg List.head? h
      rw [List.head?_drop, List.cons_append, List.head?_cons] at hhead
      rw [eventAt, hhead]
    have hrest : eventList.drop (i + 1) = events ++ rest := by
      rw [← List.drop_drop, h]
      rfl
    rw [List.length_cons, eventLoop, processEvents, hat]
    simp only [bind, Except.bind]
    cases processEvent p i event clientName g with
    | error e => rfl
    | ok out => exact ih hrest

theorem parseEventList_eq {l : EventList} (hlen : eventList.length < 2 ^ 32)
    (h : splitEventList eventList = .ok l) :
    parseEventList p eventList g = (processEventList p eventList g).mapError .rejected := by
  obtain ⟨hhead, rest, hrest⟩ := eventHead_of_split hlen h
  unfold parseEventList processEventList
  rw [hhead, h]
  simp only [bind, Except.bind]
  split_ifs with hmax
  · rfl
  · have hdrop : eventList.drop 0 = l.events ++ rest := by rw [List.drop_zero, hrest]
    exact eventLoop_eq hdrop

variable (clientName) in
theorem eventLoop_inBounds (h : i + n ≤ eventList.length) :
    eventLoop p eventList n i clientName g ≠ .error .belowZero ∧
      eventLoop p eventList n i clientName g ≠ .error .outOfBounds ∧
      ∀ g', eventLoop p eventList n i clientName g = .ok g' → g'.numEvents = g.numEvents := by
  induction n generalizing i clientName g with
  | zero =>
    refine ⟨nofun, nofun, ?_⟩
    intro g' hg
    rw [Except.ok.inj hg]
  | succ n ih =>
    have hi : i < eventList.length := by omega
    rw [eventLoop, eventAt_of_lt hi]
    simp only [bind, Except.bind]
    cases hevent : processEvent p i eventList[i] clientName g with
    | error e => exact ⟨nofun, nofun, nofun⟩
    | ok out =>
      obtain ⟨hnum, -⟩ := processEvent_ok hevent
      simp only [Except.mapError]
      rw [← hnum]
      exact ih _ (by omega)

end Bounds

theorem parseArgument_inBounds_iff (p : Platform) (arg : Text) (g : Statics) :
    InBounds p arg g ↔ LeavesOne (perfEventList arg) := by
  unfold InBounds parseArgument parseEventList
  obtain ⟨hnot, herror⟩ | ⟨hone, head, hhead, hle⟩ :=
    eventHead_cases (perfEventList arg)
  · rw [herror]
    exact iff_of_false (fun h => h.1 rfl) hnot
  · rw [hhead]
    apply iff_of_true ?_ hone
    simp only [bind, Except.bind]
    split_ifs with hmax
    · exact ⟨nofun, nofun, nofun⟩
    · obtain ⟨hbelow, hbounds, hnum⟩ := eventLoop_inBounds (p := p) (g := head.store g) []
        (show 0 + head.numEvents ≤ (perfEventList arg).length by omega)
      refine ⟨hbelow, hbounds, ?_⟩
      intro g' hg
      rw [hnum g' hg]
      exact hle

/-- Nothing, only delimiters, and only a number. -/
theorem not_inBounds_plain :
    ¬InBounds plainPlatform [] {} ∧ ¬InBounds plainPlatform [',', ','] {} ∧
      ¬InBounds plainPlatform ['1', '0'] {} :=
  ⟨fun h => h.1 rfl, fun h => h.1 rfl, fun h => h.1 rfl⟩

example : (eventHead (perfEventList methodOnly)).map EventHead.numEvents = .ok 0 := rfl

end Trace4J.Profiler
