import Mathlib.Data.List.Chain
import Trace4J.Library.Run
import Trace4J.Offline.PftraceFlatten

/-!
# The slices one by one

The loop of `output_to_pftrace` with its stack as the list it is, on which an index out of
range raises, and with each event marked with the row it is emitted for. A row is opened
once for itself, and again whenever the row above it is popped.
-/

namespace Trace4J.Offline
open Library

section Slices
variable {M : Type}

/-! ## The script -/

inductive Emission (M : Type)
  | opens (row : Trace M)
  | reopens (popped below : Trace M) (categories : Text)
  | closes (ts : ℤ)

def Emission.event : Emission M → TrackEvent M
  | .opens row => openRow row
  | .reopens popped below categories =>
    .opened popped.stop below.name categories popped.metricsDict
  | .closes ts => .closed ts

def Emission.row : Emission M → Option (Trace M)
  | .opens row => some row
  | _ => none

inductive ScriptFault
  | indexError

structure ScriptState (M : Type) where
  i : ℕ := 0
  myStack : List (Trace M) := []
  out : List (Emission M) := []

def lastRow : List (Trace M) → Except ScriptFault (Trace M)
  | [] => .error .indexError
  | top :: _ => .ok top

def popRow : List (Trace M) → Except ScriptFault (Trace M × List (Trace M))
  | [] => .error .indexError
  | top :: stack => .ok (top, stack)

def popLoop (i : Trace M) : List (Trace M) → List (Emission M) × List (Trace M)
  | temp :: below :: stack =>
    if temp.stop < i.start then
      let out := popLoop i (below :: stack)
      (.closes temp.stop ::
        .reopens temp below (pySlice i.callpath 1 i.callpath.length) :: out.1, out.2)
    else ([], temp :: below :: stack)
  | stack => ([], stack)

def ScriptState.openRow (s : ScriptState M) (row : Trace M) (stack : List (Trace M))
    (out : List (Emission M)) : ScriptState M where
  i := s.i + 1
  myStack := row :: stack
  out := s.out ++ out ++ [.opens row]

def rowStep (row : Trace M) (s : ScriptState M) : Except ScriptFault (ScriptState M) :=
  if s.i = 0 then .ok (s.openRow row s.myStack [])
  else do
    let top ← lastRow s.myStack
    if row.start < top.stop then .ok (s.openRow row s.myStack [.closes row.start])
    else do
      let (out, stack) := popLoop row s.myStack
      let top ← lastRow stack
      if row.start < top.stop then .ok (s.openRow row stack (out ++ [.closes row.start]))
      else do
        let (temp, stack) ← popRow stack
        .ok (s.openRow row stack (out ++ [.closes temp.stop]))

def drainLoop : List (Trace M) → List (Emission M) × List (Trace M)
  | temp :: below :: stack =>
    let out := drainLoop (below :: stack)
    (.closes temp.stop :: .reopens temp below temp.callpath :: out.1, out.2)
  | stack => ([], stack)

def script (traceList : List (Trace M)) : Except ScriptFault (List (Emission M)) := do
  let s ← run rowStep (sortedRows traceList) {}
  let (out, stack) := drainLoop s.myStack
  let (temp, _) ← popRow stack
  .ok (s.out ++ out ++ [.closes temp.stop])

/-! ## What is emitted -/

/-- A row is only opened again right after the row above it was closed. -/
def AfterPop (a b : Emission M) : Prop :=
  ∀ popped below categories, b = .reopens popped below categories → a = .closes popped.stop

structure Piece (es : List (Emission M)) : Prop where
  chain : es.IsChain AfterPop
  head : ∀ e ∈ es.head?, ∃ ts, e = .closes ts

structure OneSliceOpen (traceList : List (Trace M)) (es : List (Emission M)) : Prop where
  events : outputToPftrace traceList = some (es.map Emission.event)
  alternates : Alternates (es.map Emission.event)
  starts : ∃ row, es.head? = some (.opens row)
  ends : ∃ ts, es.getLast? = some (.closes ts)
  rows : es.filterMap Emission.row = sortedRows traceList
  reopened : es.IsChain AfterPop

def StackBusy (traceList : List (Trace M)) : Prop :=
  ∀ done later, sortedRows traceList = done ++ later → done ≠ [] →
    ∃ s, run rowStep done {} = .ok s ∧ s.myStack ≠ []

variable {traceList rows rest Q : List (Trace M)} {top next i row r : Trace M}
variable {es fs : List (Emission M)} {s : ScriptState M} {a : Emission M} {ts : ℤ}

theorem piece_nil : Piece ([] : List (Emission M)) := ⟨.nil, by simp⟩

theorem Piece.append (he : Piece es) (hf : Piece fs) : Piece (es ++ fs) := by
  constructor
  · refine List.isChain_append.mpr ⟨he.chain, hf.chain, ?_⟩
    rintro x - y hy popped below categories rfl
    obtain ⟨ts, hts⟩ := hf.head _ hy
    cases hts
  · intro e hmem
    cases es with
    | nil => exact hf.head e hmem
    | cons x es => exact he.head e hmem

theorem piece_pop (top next : Trace M) (categories : Text) (h : Piece es) :
    Piece (.closes top.stop :: .reopens top next categories :: es) := by
  have hpair : Piece [.closes top.stop, .reopens top next categories] := by
    constructor
    · refine List.isChain_cons_cons.mpr ⟨?_, .singleton _⟩
      rintro popped below c ⟨⟩
      rfl
    · rintro e ⟨⟩
      exact ⟨_, rfl⟩
  exact hpair.append h

theorem piece_open (ts : ℤ) (row : Trace M) : Piece [.closes ts, .opens row] := by
  constructor
  · refine List.isChain_cons_cons.mpr ⟨?_, .singleton _⟩
    rintro popped below c ⟨⟩
  · rintro e ⟨⟩
    exact ⟨_, rfl⟩

theorem popLoop_spec (i top : Trace M) (rest : List (Trace M)) :
    (popLoop i (top :: rest)).1.map Emission.event = (popWhile i top rest).1 ∧
      (popLoop i (top :: rest)).2 = (popWhile i top rest).2.1 :: (popWhile i top rest).2.2 ∧
      (popLoop i (top :: rest)).1.filterMap Emission.row = [] ∧
      Piece (popLoop i (top :: rest)).1 := by
  induction rest generalizing top with
  | nil => exact ⟨rfl, rfl, rfl, piece_nil⟩
  | cons next rest ih =>
    by_cases hlt : top.stop < i.start
    · obtain ⟨hevents, hstack, hrows, hpiece⟩ := ih next
      simp only [popLoop, popWhile, if_pos hlt]
      refine ⟨?_, hstack, hrows, piece_pop top next _ hpiece⟩
      rw [List.map_cons, List.map_cons, hevents]
      rfl
    · rw [popLoop, popWhile, if_neg hlt, if_neg hlt]
      exact ⟨rfl, rfl, rfl, piece_nil⟩

theorem drainLoop_spec (top : Trace M) (rest : List (Trace M)) :
    ∃ last, (drainLoop (top :: rest)).2 = [last] ∧
      (drainLoop (top :: rest)).1.map Emission.event ++ [.closed last.stop] = drain top rest ∧
      (drainLoop (top :: rest)).1.filterMap Emission.row = [] ∧
      Piece (drainLoop (top :: rest)).1 := by
  induction rest generalizing top with
  | nil => exact ⟨top, rfl, rfl, rfl, piece_nil⟩
  | cons next rest ih =>
    obtain ⟨last, hstack, hevents, hrows, hpiece⟩ := ih next
    simp only [drainLoop, drain]
    refine ⟨last, hstack, ?_, hrows, piece_pop top next _ hpiece⟩
    rw [← hevents]
    rfl

theorem rowStep_spec (hi : s.i ≠ 0) (hstack : s.myStack = top :: rest) (row : Trace M) :
    ∃ es s', rowStep row s = .ok s' ∧ s'.i ≠ 0 ∧ s'.out = s.out ++ es ∧
      s'.myStack = (pushRow row top rest).2.1 :: (pushRow row top rest).2.2 ∧
      es.map Emission.event = (pushRow row top rest).1 ∧
      es.filterMap Emission.row = [row] ∧ Piece es := by
  by_cases hlt : row.start < top.stop
  · refine ⟨[.closes row.start, .opens row], s.openRow row s.myStack [.closes row.start], ?_,
      Nat.succ_ne_zero _, ?_, ?_, ?_, rfl, piece_open _ _⟩
    · simp only [rowStep, if_neg hi, hstack, lastRow, bind, Except.bind, if_pos hlt]
    · simp [ScriptState.openRow]
    · simp [ScriptState.openRow, hstack, pushRow, hlt]
    · simp [pushRow, hlt, Emission.event]
  · obtain ⟨hevents, hstack', hrows, hpiece⟩ := popLoop_spec row top rest
    generalize hp : popLoop row (top :: rest) = p at hevents hstack' hrows hpiece
    generalize hw : popWhile row top rest = w at hevents hstack'
    obtain ⟨out, stack⟩ := p
    obtain ⟨wout, wtop, wrest⟩ := w
    obtain rfl : stack = wtop :: wrest := hstack'
    obtain rfl : out.map Emission.event = wout := hevents
    have hpush : pushRow row top rest =
        (out.map Emission.event ++ (place row wtop wrest).1, (place row wtop wrest).2) := by
      simp only [pushRow, if_neg hlt, hw]
    have hout : ∀ ts, (out ++ [Emission.closes ts, .opens row]).filterMap Emission.row = [row] := by
      intro ts
      rw [List.filterMap_append, hrows]
      rfl
    by_cases hlt' : row.start < wtop.stop
    · refine ⟨out ++ [.closes row.start, .opens row],
        s.openRow row (wtop :: wrest) (out ++ [.closes row.start]), ?_, Nat.succ_ne_zero _, ?_, ?_,
        ?_, hout _, hpiece.append (piece_open _ _)⟩
      · simp only [rowStep, if_neg hi, hstack, lastRow, bind, Except.bind, if_neg hlt, hp,
          if_pos hlt']
      · simp [ScriptState.openRow]
      · simp [ScriptState.openRow, hpush, place, hlt']
      · simp [hpush, place, hlt', Emission.event]
    · refine ⟨out ++ [.closes wtop.stop, .opens row],
        s.openRow row wrest (out ++ [.closes wtop.stop]), ?_, Nat.succ_ne_zero _, ?_, ?_,
        ?_, hout _, hpiece.append (piece_open _ _)⟩
      · simp only [rowStep, if_neg hi, hstack, lastRow, bind, Except.bind, if_neg hlt, hp,
          if_neg hlt', popRow]
      · simp [ScriptState.openRow]
      · simp [ScriptState.openRow, hpush, place, hlt']
      · simp [hpush, place, hlt', Emission.event]

theorem run_rowStep_spec (rows : List (Trace M)) (hi : s.i ≠ 0) (hstack : s.myStack = top :: rest) :
    ∃ es s' top' rest', run rowStep rows s = .ok s' ∧ s'.i ≠ 0 ∧ s'.out = s.out ++ es ∧
      s'.myStack = top' :: rest' ∧
      es.map Emission.event ++ drain top' rest' = emitRows top rest rows ∧
      es.filterMap Emission.row = rows ∧ Piece es := by
  induction rows generalizing s top rest with
  | nil => exact ⟨[], s, top, rest, rfl, hi, by simp, hstack, rfl, rfl, piece_nil⟩
  | cons row rows ih =>
    obtain ⟨es, s₁, hstep, hi₁, hout₁, hstack₁, hevents₁, hrows₁, hpiece₁⟩ :=
      rowStep_spec hi hstack row
    obtain ⟨fs, s', top', rest', hrun, hi', hout', hstack', hevents', hrows', hpiece'⟩ :=
      ih hi₁ hstack₁
    refine ⟨es ++ fs, s', top', rest', run_cons.mpr ⟨s₁, hstep, hrun⟩, hi', ?_, hstack', ?_, ?_,
      hpiece₁.append hpiece'⟩
    · rw [hout', hout₁, List.append_assoc]
    · rw [List.map_append, List.append_assoc, hevents', hevents₁]
      rfl
    · rw [List.filterMap_append, hrows₁, hrows']
      rfl

theorem rowStep_first (row : Trace M) :
    rowStep row {} = .ok { i := 1, myStack := [row], out := [.opens row] } := rfl

theorem stackBusy (traceList : List (Trace M)) : StackBusy traceList := by
  intro done later _ hne
  cases done with
  | nil => exact absurd rfl hne
  | cons row done =>
    obtain ⟨es, s, top, rest, hrun, -, -, hstack, -⟩ :=
      run_rowStep_spec (s := { i := 1, myStack := [row], out := [.opens row] }) done
        Nat.one_ne_zero rfl
    exact ⟨s, run_cons.mpr ⟨_, rowStep_first row, hrun⟩, by simp [hstack]⟩

/-- Any rows leave one slice open at a time, each opened once for itself, and the script
returns. -/
theorem script_oneSliceOpen (traceList : List (Trace M)) (hne : traceList ≠ []) :
    ∃ es, script traceList = .ok es ∧ OneSliceOpen traceList es ∧ StackBusy traceList := by
  cases hsorted : sortedRows traceList with
  | nil =>
    have hperm := sortedRows_perm traceList
    rw [hsorted] at hperm
    exact absurd hperm.nil_eq.symm hne
  | cons row rows =>
    obtain ⟨es, s, top, rest, hrun, -, hout, hstack, hevents, hrows, hpiece⟩ :=
      run_rowStep_spec (s := { i := 1, myStack := [row], out := [.opens row] }) rows
        Nat.one_ne_zero rfl
    obtain ⟨last, hlast, hdrain, hdrows, hdpiece⟩ := drainLoop_spec top rest
    have hscript : script traceList =
        .ok (.opens row :: es ++ (drainLoop (top :: rest)).1 ++ [.closes last.stop]) := by
      simp only [script, hsorted, run_cons.mpr ⟨_, rowStep_first row, hrun⟩, bind, Except.bind,
        hstack, hlast, popRow, hout, List.singleton_append]
    have hall : (Emission.opens row :: es ++ (drainLoop (top :: rest)).1 ++
        [Emission.closes last.stop]).map Emission.event = openRow row :: emitRows row [] rows := by
      rw [← hevents, ← hdrain]
      simp [Emission.event]
    refine ⟨_, hscript, ⟨?_, ?_, ⟨row, rfl⟩, ⟨last.stop, List.getLast?_concat⟩, ?_, ?_⟩,
      stackBusy traceList⟩
    · rw [hall, outputToPftrace, hsorted]
    · rw [hall]
      exact emitRows_alternates _ _ _ _ _ _ _
    · rw [hsorted, List.filterMap_append, List.cons_append, List.filterMap_cons,
        List.filterMap_append, hrows, hdrows]
      simp [Emission.row]
    · have hclose : Piece [(.closes last.stop : Emission M)] :=
        ⟨.singleton _, fun e he => ⟨last.stop, (Option.some.inj he).symm⟩⟩
      have htail := (hpiece.append hdpiece).append hclose
      refine List.isChain_cons.mpr ⟨?_, htail.chain⟩
      rintro e he popped below categories rfl
      obtain ⟨ts, hts⟩ := htail.head _ he
      cases hts

theorem script_oneSliceOpen_twoEndsRows : ∃ es, script twoEndsRows = .ok es ∧
    OneSliceOpen twoEndsRows es ∧ StackBusy twoEndsRows :=
  script_oneSliceOpen twoEndsRows (by decide)

end Slices
end Trace4J.Offline
