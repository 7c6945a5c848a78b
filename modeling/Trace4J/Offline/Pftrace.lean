import Mathlib.Data.List.Sort
import Trace4J.Library.Extent

/-!
# The slices of a trace file

`output_to_pftrace` flattens the nested rows of a thread into one track on which at
most one slice is open. A Python string is a list of characters here and `sorted` is
the stable insertion sort. The stack of the script is never empty once the first row
is on it, so it is a top row and the rows below.
-/

namespace Trace4J.Offline
open Library Extent

abbrev Text := List Char

/-! ## Python strings -/

/-- A Python index: negative ones count from the end, and all are cut to the length. -/
def pyIndex (len : ℕ) (i : ℤ) : ℕ := min (if i < 0 then (len + i).toNat else i.toNat) len

def pySlice (s : Text) (lo hi : ℤ) : Text :=
  (s.take (pyIndex s.length hi)).drop (pyIndex s.length lo)

theorem pyIndex_nat (len i : ℕ) : pyIndex len i = min i len := by
  rw [pyIndex, if_neg (by omega), Int.toNat_natCast]

theorem pySlice_nat (s : Text) (i j : ℕ) : pySlice s i j = (s.take j).drop i := by
  rw [pySlice, pyIndex_nat, pyIndex_nat, ← List.take_eq_take_min]
  obtain h | h := Nat.le_total i s.length
  · rw [Nat.min_eq_left h]
  · have hlen : (s.take j).length ≤ s.length := List.length_take_le' j s
    rw [Nat.min_eq_right h, List.drop_eq_nil_of_le hlen, List.drop_eq_nil_of_le (hlen.trans h)]

theorem pySlice_drop {s : Text} (k : ℕ) : pySlice s k s.length = s.drop k := by
  rw [pySlice_nat, List.take_length]

def pyFind (c : Char) : Text → ℤ
  | [] => -1
  | a :: s => if a = c then 0 else if pyFind c s < 0 then -1 else pyFind c s + 1

def pyRfind (c : Char) (s : Text) : ℤ :=
  let i := pyFind c s.reverse
  if i < 0 then -1 else s.length - 1 - i

/-- `s.rfind(c, 0, hi)` -/
def pyRfindTo (c : Char) (s : Text) (hi : ℤ) : ℤ := pyRfind c (pySlice s 0 hi)

/-! ## Rows and slices -/

structure Trace (M : Type) where
  start : ℤ
  stop : ℤ
  metricsDict : M
  callpath : Text

def sliceName (callpath : Text) : Text :=
  let s := pySlice callpath (pyRfind '\n' callpath + 2) callpath.length
  let paren := pyFind '(' s
  pySlice s (pyRfindTo '.' s (pyRfindTo '.' s paren) + 1) paren

inductive TrackEvent (M : Type)
  | opened (ts : ℤ) (name categories : Text) (metrics : M)
  | closed (ts : ℤ)

def TrackEvent.ts {M : Type} : TrackEvent M → ℤ
  | .opened ts _ _ _ => ts
  | .closed ts => ts

def TrackEvent.label {M : Type} : TrackEvent M → Option Text
  | .opened _ name _ _ => some name
  | .closed _ => none

section Script
variable {M : Type}

def Trace.name (r : Trace M) : Text := sliceName r.callpath

def Trace.extent (r : Trace M) : Extent ℤ := ⟨r.start, r.stop⟩

def openRow (r : Trace M) : TrackEvent M :=
  .opened r.start r.name (pySlice r.callpath 1 r.callpath.length) r.metricsDict

/-- `while len(my_stack) > 1 and rows[my_stack[-1]].end < rows[i].start` -/
def popWhile (i : Trace M) : Trace M → List (Trace M) →
    List (TrackEvent M) × Trace M × List (Trace M)
  | top, [] => ([], top, [])
  | top, next :: rest =>
    if top.stop < i.start then
      let out := popWhile i next rest
      (.closed top.stop ::
        .opened top.stop next.name (pySlice i.callpath 1 i.callpath.length) top.metricsDict ::
        out.1, out.2)
    else ([], top, next :: rest)

def place (i top : Trace M) (rest : List (Trace M)) :
    List (TrackEvent M) × Trace M × List (Trace M) :=
  if i.start < top.stop then ([.closed i.start, openRow i], i, top :: rest)
  else ([.closed top.stop, openRow i], i, rest)

def pushRow (i top : Trace M) (rest : List (Trace M)) :
    List (TrackEvent M) × Trace M × List (Trace M) :=
  if i.start < top.stop then ([.closed i.start, openRow i], i, top :: rest)
  else
    let out := popWhile i top rest
    let out' := place i out.2.1 out.2.2
    (out.1 ++ out'.1, out'.2)

def drain : Trace M → List (Trace M) → List (TrackEvent M)
  | top, [] => [.closed top.stop]
  | top, next :: rest =>
    .closed top.stop :: .opened top.stop next.name top.callpath top.metricsDict :: drain next rest

def emitRows : Trace M → List (Trace M) → List (Trace M) → List (TrackEvent M)
  | top, rest, [] => drain top rest
  | top, rest, i :: rows =>
    let out := pushRow i top rest
    out.1 ++ emitRows out.2.1 out.2.2 rows

def sortedRows (traceList : List (Trace M)) : List (Trace M) :=
  traceList.insertionSort fun a b => a.start ≤ b.start

/-- The events on the track; with no row the script fails at `my_stack.pop()`. -/
def outputToPftrace (traceList : List (Trace M)) : Option (List (TrackEvent M)) :=
  match sortedRows traceList with
  | [] => none
  | r :: rows => some (openRow r :: emitRows r [] rows)

/-! ## What the track should show -/

def Trace.Contains (r : Trace M) (t : ℤ) : Prop := r.start ≤ t ∧ t < r.stop

def labelFrom (cur : Option Text) (t : ℤ) : List (TrackEvent M) → Option Text
  | [] => cur
  | e :: es => if t < e.ts then cur else labelFrom e.label t es

/-- At `t` the label is the name of a smallest row that contains `t`, or there is none. -/
def Labels (rows : List (Trace M)) (t : ℤ) : Option Text → Prop
  | none => ∀ r ∈ rows, ¬r.Contains t
  | some name => ∃ r ∈ rows, r.name = name ∧ r.Contains t ∧
      ∀ r' ∈ rows, r'.Contains t → r.stop - r.start ≤ r'.stop - r'.start

/-- One slice at a time: every slice is closed before the next one is opened. -/
def Alternates : List (TrackEvent M) → Prop
  | [] => True
  | .opened _ _ _ _ :: .closed _ :: es => Alternates es
  | _ => False

structure Flattens (rows : List (Trace M)) (events : List (TrackEvent M)) : Prop where
  alternates : Alternates events
  ordered : events.Pairwise fun a b => a.ts ≤ b.ts
  labels : ∀ t, Labels rows t (labelFrom none t events)

def Trace.Nonempty (r : Trace M) : Prop := r.start < r.stop

instance (r : Trace M) : Decidable r.Nonempty := inferInstanceAs (Decidable (_ < _))

def LongerFirst (a b : Trace M) : Prop :=
  a.start = b.start → a.Nonempty → b.Nonempty → b.stop ≤ a.stop

instance (a b : Trace M) : Decidable (LongerFirst a b) :=
  inferInstanceAs (Decidable (_ → _ → _ → _))

def endsAt (t : ℤ) (r : Trace M) : Bool := decide (r.Nonempty ∧ r.stop = t)

/-- No row starts where two or more others end. -/
def SingleEnds (rows : List (Trace M)) : Prop :=
  ∀ r ∈ rows, r.Nonempty → rows.countP (endsAt r.start) ≤ 1

instance (rows : List (Trace M)) : Decidable (SingleEnds rows) :=
  inferInstanceAs (Decidable (∀ r ∈ rows, _ → _ ≤ _))

end Script
end Trace4J.Offline
