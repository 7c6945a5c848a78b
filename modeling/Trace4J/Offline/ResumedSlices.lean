import Mathlib.Data.List.Chain
import Trace4J.Offline.PftraceFlatten

/-!
# The slices that are opened again

Where an inner row has ended the row around it is opened again, and then the call path
and the metrics are those of other rows. Which rows are around a row is read off the rows
themselves, in order of start: one of them is over as soon as some later row starts when
neither it nor anything begun within it is left.
-/

namespace Trace4J.Offline
open Library

section Resumed
variable {M : Type}

/-- The call path of a row as a category, with or without its leading line break. -/
def Trace.PathOf (r : Trace M) (categories : Text) : Prop :=
  categories = r.callpath ∨ categories = pySlice r.callpath 1 r.callpath.length

def CarriesOneRow (traceList : List (Trace M)) : Prop :=
  ∀ events, outputToPftrace traceList = some events →
    ∀ ts name categories metrics, .opened ts name categories metrics ∈ events →
      ∃ r ∈ traceList, r.name = name ∧ r.PathOf categories ∧ r.metricsDict = metrics

/-! ## The rows that are open -/

def startsAt (t : ℤ) (r : Trace M) : Bool := decide (r.start = t)

def stopsAt (t : ℤ) (r : Trace M) : Bool := decide (r.stop = t)

/-- When `i` starts, `b` or a row begun within it is still going, or ends just there. Of the
rows that end there each row that starts there takes the place of one. -/
def OpenAt (b : Trace M) (within : List (Trace M)) (i : Trace M) : Prop :=
  i.start < b.stop ∨ (∃ m ∈ within, i.start < m.stop) ∨
    within.countP (startsAt i.start) < within.countP (stopsAt i.start)

instance (b : Trace M) (within : List (Trace M)) (i : Trace M) : Decidable (OpenAt b within i) :=
  inferInstanceAs (Decidable (_ ∨ _ ∨ _))

def StillOpen (b : Trace M) (later : List (Trace M)) : Prop :=
  ∀ k (h : k < later.length), OpenAt b (later.take k) later[k]

instance (b : Trace M) (later : List (Trace M)) : Decidable (StillOpen b later) :=
  inferInstanceAs (Decidable (∀ k (h : k < later.length), OpenAt b (later.take k) later[k]))

/-- The rows that are open behind the last one, the innermost first. -/
def openRows : List (Trace M) → List (Trace M)
  | [] => []
  | b :: later => if StillOpen b later then openRows later ++ [b] else openRows later

/-- Of the open rows, innermost first, those that stay when a row starts at `t`. -/
def closeRows (t : ℤ) : List (Trace M) → List (Trace M)
  | [] => []
  | c :: opened =>
    if c.stop < t then closeRows t opened else if t < c.stop then c :: opened else opened

variable {done later opened rows within : List (Trace M)} {b c i m : Trace M} {t u : ℤ}

theorem startsAt_iff : startsAt t b = true ↔ b.start = t := by simp [startsAt]

theorem stopsAt_iff : stopsAt t b = true ↔ b.stop = t := by simp [stopsAt]

theorem stillOpen_concat : StillOpen b (later ++ [i]) ↔ StillOpen b later ∧ OpenAt b later i := by
  constructor
  · intro h
    refine ⟨?_, ?_⟩
    · intro k hk
      have hopen := h k (by simp; omega)
      rwa [List.getElem_append_left hk, List.take_append_of_le_length hk.le] at hopen
    · have hopen := h later.length (by simp)
      simpa using hopen
  · rintro ⟨hbefore, hi⟩ k hk
    obtain hk' | rfl : k < later.length ∨ k = later.length := by
      simp at hk
      omega
    · rw [List.getElem_append_left hk', List.take_append_of_le_length hk'.le]
      exact hbefore k hk'
    · simpa using hi

theorem mem_of_mem_openRows (h : m ∈ openRows rows) : m ∈ rows := by
  induction rows with
  | nil => exact h
  | cons b later ih =>
    rw [openRows] at h
    split_ifs at h with hb
    · obtain h | h := List.mem_append.mp h
      · exact List.mem_cons_of_mem _ (ih h)
      · exact List.mem_singleton.mp h ▸ List.mem_cons_self
    · exact List.mem_cons_of_mem _ (ih h)

theorem mem_openRows_of_lt (hm : m ∈ rows) (h : ∀ r ∈ rows, r.start < m.stop) :
    m ∈ openRows rows := by
  induction rows with
  | nil => exact hm
  | cons b later ih =>
    rw [openRows]
    obtain rfl | hm := List.mem_cons.mp hm
    · have hopen : StillOpen m later := by
        intro k hk
        exact .inl (h _ (List.mem_cons_of_mem _ (List.getElem_mem hk)))
      rw [if_pos hopen]
      exact List.mem_append_right _ List.mem_cons_self
    · have hlater := ih hm fun r hr => h r (List.mem_cons_of_mem _ hr)
      split_ifs
      · exact List.mem_append_left _ hlater
      · exact hlater

theorem closeRows_nil (h : ∀ m ∈ opened, m.stop < t) : closeRows t opened = [] := by
  induction opened with
  | nil => rfl
  | cons c opened ih =>
    rw [closeRows, if_pos (h c List.mem_cons_self)]
    exact ih fun m hm => h m (List.mem_cons_of_mem _ hm)

theorem closeRows_concat_of_mem (hm : m ∈ opened) (h : t ≤ m.stop) (b : Trace M) :
    closeRows t (opened ++ [b]) = closeRows t opened ++ [b] := by
  induction opened with
  | nil => cases hm
  | cons c opened ih =>
    rw [List.cons_append, closeRows, closeRows]
    split_ifs with hlt
    · obtain rfl | hm := List.mem_cons.mp hm
      · omega
      · exact ih hm
    · rfl
    · rfl

theorem closeRows_concat_of_lt (h : ∀ m ∈ opened, m.stop < t) (b : Trace M) :
    closeRows t (opened ++ [b]) = closeRows t [b] := by
  induction opened with
  | nil => rfl
  | cons c opened ih =>
    rw [List.cons_append, closeRows, if_pos (h c List.mem_cons_self)]
    exact ih fun m hm => h m (List.mem_cons_of_mem _ hm)

theorem countP_closeRows_lt (h : u < t) :
    (closeRows u opened).countP (stopsAt t) = opened.countP (stopsAt t) := by
  induction opened with
  | nil => rfl
  | cons c opened ih =>
    have hne : c.stop ≤ u → ¬stopsAt t c = true := by
      rw [stopsAt_iff]
      omega
    rw [closeRows]
    split_ifs with hlt hgt
    · rw [ih, List.countP_cons_of_neg (hne hlt.le)]
    · rfl
    · rw [List.countP_cons_of_neg (hne (not_lt.mp hgt))]

theorem countP_closeRows_eq (hle : ∀ m ∈ opened, m.stop ≤ t)
    (hpos : 0 < opened.countP (stopsAt t)) :
    (closeRows t opened).countP (stopsAt t) + 1 = opened.countP (stopsAt t) := by
  induction opened with
  | nil => cases hpos
  | cons c opened ih =>
    have hc := hle c List.mem_cons_self
    rw [closeRows, if_neg (not_lt.mpr hc)]
    split_ifs with hlt
    · have hne : ¬stopsAt t c = true := by
        rw [stopsAt_iff]
        omega
      rw [List.countP_cons_of_neg hne] at hpos ⊢
      exact ih (fun m hm => hle m (List.mem_cons_of_mem _ hm)) hpos
    · rw [List.countP_cons_of_pos (stopsAt_iff.mpr (by omega))]

def Follows (rows : List (Trace M)) : Prop :=
  ∀ done i later, rows = done ++ i :: later →
    openRows (done ++ [i]) = i :: closeRows i.start (openRows done)

theorem Follows.of_concat (h : Follows (rows ++ [i])) : Follows rows := by
  rintro done j later rfl
  exact h done j (later ++ [i]) (by simp)

/-- Of the rows that end at `t`, as many are gone as have started there. -/
theorem countP_openRows (hfollows : Follows later) (hb : b.stop ≤ t)
    (hopen : StillOpen b later) (hle : ∀ m ∈ later, m.start ≤ t ∧ m.stop ≤ t) :
    (openRows later).countP (stopsAt t) + later.countP (startsAt t) =
      later.countP (stopsAt t) := by
  induction later using List.reverseRecOn with
  | nil => rfl
  | append_singleton later i ih =>
    obtain ⟨hbefore, hi⟩ := stillOpen_concat.mp hopen
    have hlater : ∀ m ∈ later, m.start ≤ t ∧ m.stop ≤ t := fun m hm =>
      hle m (List.mem_append_left _ hm)
    have ih := ih hfollows.of_concat hbefore hlater
    rw [hfollows later i [] rfl, List.countP_append, List.countP_append, List.countP_cons,
      List.countP_singleton, List.countP_singleton]
    obtain hlt | hstart := (hle i (by simp)).1.lt_or_eq
    · have hne : ¬startsAt t i = true := by
        rw [startsAt_iff]
        omega
      rw [countP_closeRows_lt hlt, if_neg hne]
      omega
    · have hcount : later.countP (startsAt t) < later.countP (stopsAt t) := by
        obtain hi | ⟨m, hm, hi⟩ | hi := hi
        · omega
        · have := (hlater m hm).2
          omega
        · rwa [hstart] at hi
      have hgone := countP_closeRows_eq
        (fun m hm => (hlater m (mem_of_mem_openRows hm)).2)
        (by omega : 0 < (openRows later).countP (stopsAt t))
      rw [hstart, if_pos (startsAt_iff.mpr hstart)]
      omega

/-- `b` stays exactly when it ends behind `i`'s start or a row open within it does not end
before. -/
theorem openAt_iff (hfollows : Follows later) (hopen : StillOpen b later)
    (hsorted : ∀ m ∈ later, m.start ≤ i.start) :
    OpenAt b later i ↔ i.start < b.stop ∨ ∃ m ∈ openRows later, i.start ≤ m.stop := by
  by_cases hb : i.start < b.stop
  · exact iff_of_true (.inl hb) (.inl hb)
  · by_cases hlate : ∃ m ∈ later, i.start < m.stop
    · obtain ⟨m, hm, hlt⟩ := hlate
      refine iff_of_true (.inr (.inl ⟨m, hm, hlt⟩)) (.inr ⟨m, ?_, hlt.le⟩)
      exact mem_openRows_of_lt hm fun r hr => (hsorted r hr).trans_lt hlt
    · have hcount := countP_openRows hfollows (not_lt.mp hb) hopen fun m hm =>
        ⟨hsorted m hm, not_lt.mp fun hlt => hlate ⟨m, hm, hlt⟩⟩
      constructor
      · intro h
        have hlt := (h.resolve_left hb).resolve_left hlate
        obtain ⟨m, hm, hstop⟩ := List.countP_pos_iff.mp
          (by omega : 0 < (openRows later).countP (stopsAt i.start))
        exact .inr ⟨m, hm, (stopsAt_iff.mp hstop).ge⟩
      · intro h
        obtain ⟨m, hm, hle⟩ := h.resolve_left hb
        have hstop : m.stop = i.start :=
          le_antisymm (not_lt.mp fun hlt => hlate ⟨m, mem_of_mem_openRows hm, hlt⟩) hle
        have hpos : 0 < (openRows later).countP (stopsAt i.start) :=
          List.countP_pos_iff.mpr ⟨m, hm, stopsAt_iff.mpr hstop⟩
        exact .inr (.inr (by omega))

theorem openRows_step (hfollows : Follows later) (hsorted : ∀ m ∈ later, m.start ≤ i.start)
    (hlater : openRows (later ++ [i]) = i :: closeRows i.start (openRows later)) :
    openRows (b :: later ++ [i]) = i :: closeRows i.start (openRows (b :: later)) := by
  rw [List.cons_append, openRows, openRows, hlater]
  by_cases hopen : StillOpen b later
  · have hstill := stillOpen_concat.trans
      (and_iff_right hopen |>.trans (openAt_iff hfollows hopen hsorted))
    rw [if_pos hopen]
    by_cases hwithin : ∃ m ∈ openRows later, i.start ≤ m.stop
    · obtain ⟨m, hm, hle⟩ := hwithin
      rw [if_pos (hstill.mpr (.inr ⟨m, hm, hle⟩)), closeRows_concat_of_mem hm hle,
        List.cons_append]
    · have hlt : ∀ m ∈ openRows later, m.stop < i.start := fun m hm =>
        not_le.mp fun hle => hwithin ⟨m, hm, hle⟩
      rw [closeRows_concat_of_lt hlt, closeRows_nil hlt, closeRows, closeRows]
      by_cases hb : i.start < b.stop
      · rw [if_pos (hstill.mpr (.inl hb)), if_neg (not_lt.mpr hb.le), if_pos hb,
          List.singleton_append]
      · rw [if_neg fun h => hwithin ((hstill.mp h).resolve_left hb), if_neg hb, ite_self]
  · rw [if_neg hopen, if_neg fun h => hopen (stillOpen_concat.mp h).1]

theorem follows (rows : List (Trace M)) (hsorted : Sorted rows) : Follows rows := by
  induction hn : rows.length using Nat.strong_induction_on generalizing rows with
  | _ n ih =>
    rintro done i later rfl
    cases done with
    | nil => rfl
    | cons b done =>
      have hmid : Sorted (done ++ i :: later) := hsorted.of_cons
      have hfollows := ih _ (by simp at hn ⊢; omega) _ hmid rfl
      have hdone : Follows done := by
        refine ih _ ?_ _ (List.pairwise_append.mp hmid).1 rfl
        simp at hn
        omega
      refine openRows_step hdone ?_ (hfollows done i later rfl)
      exact fun m hm => (List.pairwise_append.mp hmid).2.2 m hm i List.mem_cons_self

/-! ## Which rows coincide -/

/-- Behind the rows `done` the rows `inner`, then `c`, then `b` are open within each other. -/
def Inside (done inner : List (Trace M)) (c b : Trace M) : Prop :=
  ∃ outer, openRows done = inner ++ c :: b :: outer

/-- Some row has the name of `b`, the call path `categories` and the metrics of `c`. -/
def Coincide (traceList : List (Trace M)) (b c : Trace M) (categories : Text) : Prop :=
  ∃ r ∈ traceList, r.name = b.name ∧ r.PathOf categories ∧ r.metricsDict = c.metricsDict

/-- The next row starts when `c` and all within it have ended, or no row is left. -/
structure RowsCoincide (traceList rows : List (Trace M)) : Prop where
  ended : ∀ done i later inner c b, rows = done ++ i :: later → Inside done inner c b →
    (∀ m ∈ inner ++ [c], m.stop < i.start) →
    Coincide traceList b c (pySlice i.callpath 1 i.callpath.length)
  left : ∀ inner c b, Inside rows inner c b → Coincide traceList b c c.callpath

def Apart (rows : List (Trace M)) : Prop := rows.IsChain fun a b => a.stop ≤ b.start

/-- No row has the name of an open row and the metrics of the row directly inside it. -/
def ToldApart (traceList rows : List (Trace M)) : Prop :=
  ∀ done later inner c b, rows = done ++ later → Inside done inner c b →
    ∀ r ∈ traceList, r.name = b.name → r.metricsDict ≠ c.metricsDict

variable {traceList rest Q : List (Trace M)} {top next r : Trace M}
variable {events : List (TrackEvent M)} {ts : ℤ}

def AllCarry (traceList : List (Trace M)) (events : List (TrackEvent M)) : Prop :=
  ∀ ts name categories metrics, .opened ts name categories metrics ∈ events →
    ∃ r ∈ traceList, r.name = name ∧ r.PathOf categories ∧ r.metricsDict = metrics

theorem allCarry_closed :
    AllCarry traceList (.closed ts :: events) ↔ AllCarry traceList events := by
  simp [AllCarry]

theorem allCarry_opened {name categories : Text} {metrics : M} :
    AllCarry traceList (.opened ts name categories metrics :: events) ↔
      (∃ r ∈ traceList, r.name = name ∧ r.PathOf categories ∧ r.metricsDict = metrics) ∧
        AllCarry traceList events := by
  constructor
  · intro h
    exact ⟨h ts name categories metrics List.mem_cons_self,
      fun t n c m hmem => h t n c m (List.mem_cons_of_mem _ hmem)⟩
  · rintro ⟨hhead, htail⟩ t n c m hmem
    obtain heq | hmem := List.mem_cons.mp hmem
    · cases heq
      exact hhead
    · exact htail t n c m hmem

theorem allCarry_openRow (hr : r ∈ traceList) :
    AllCarry traceList (openRow r :: events) ↔ AllCarry traceList events := by
  rw [openRow, allCarry_opened]
  exact and_iff_right ⟨r, hr, rfl, .inr rfl, rfl⟩

def EndedFine (traceList : List (Trace M)) (i : Trace M) (opened : List (Trace M)) : Prop :=
  ∀ inner c b outer, opened = inner ++ c :: b :: outer →
    (∀ m ∈ inner ++ [c], m.stop < i.start) →
    Coincide traceList b c (pySlice i.callpath 1 i.callpath.length)

def LeftFine (traceList opened : List (Trace M)) : Prop :=
  ∀ inner c b outer, opened = inner ++ c :: b :: outer → Coincide traceList b c c.callpath

def Fine (traceList : List (Trace M)) : List (Trace M) → List (Trace M) → Prop
  | opened, [] => LeftFine traceList opened
  | opened, i :: Q =>
    EndedFine traceList i opened ∧ Fine traceList (i :: closeRows i.start opened) Q

theorem leftFine_cons : LeftFine traceList (top :: next :: rest) ↔
    Coincide traceList next top top.callpath ∧ LeftFine traceList (next :: rest) := by
  constructor
  · intro h
    refine ⟨h [] top next rest rfl, ?_⟩
    rintro inner c b outer heq
    exact h (top :: inner) c b outer (by rw [heq, List.cons_append])
  · rintro ⟨htop, h⟩ inner c b outer heq
    cases inner with
    | nil =>
      cases heq
      exact htop
    | cons x inner => exact h inner c b outer (List.cons.inj heq).2

theorem endedFine_cons (hlt : top.stop < i.start) :
    EndedFine traceList i (top :: next :: rest) ↔
      Coincide traceList next top (pySlice i.callpath 1 i.callpath.length) ∧
        EndedFine traceList i (next :: rest) := by
  constructor
  · intro h
    refine ⟨h [] top next rest rfl (by simpa using hlt), ?_⟩
    intro inner c b outer heq hover
    refine h (top :: inner) c b outer (by rw [heq, List.cons_append]) ?_
    intro m hm
    obtain rfl | hm := List.mem_cons.mp hm
    · exact hlt
    · exact hover m hm
  · rintro ⟨htop, h⟩ inner c b outer heq hover
    cases inner with
    | nil =>
      cases heq
      exact htop
    | cons x inner =>
      exact h inner c b outer (List.cons.inj heq).2 fun m hm =>
        hover m (List.mem_cons_of_mem _ hm)

theorem endedFine_of_le (h : i.start ≤ top.stop ∨ rest = []) :
    EndedFine traceList i (top :: rest) := by
  intro inner c b outer heq hover
  have htop : rest ≠ [] ∧ top.stop < i.start := by
    cases inner with
    | nil =>
      cases heq
      exact ⟨by simp, hover _ (by simp)⟩
    | cons x inner =>
      cases heq
      exact ⟨by simp, hover _ (by simp)⟩
  obtain h | h := h
  · exact absurd htop.2 (not_lt.mpr h)
  · exact absurd h htop.1

theorem allCarry_iff (top : Trace M) (rest Q : List (Trace M)) (hQ : ∀ r ∈ Q, r ∈ traceList) :
    AllCarry traceList (emitRows top rest Q) ↔ Fine traceList (top :: rest) Q := by
  induction top, rest, Q using rows_induction with
  | close top =>
    refine iff_of_true (by simp [AllCarry, emitRows, drain]) ?_
    intro inner c b outer heq
    have hlen := congrArg List.length heq
    simp at hlen
    omega
  | pop top next rest Q hover ih =>
    rw [emitRows_reopen next rest hover, allCarry_closed, allCarry_opened, ih hQ]
    cases Q with
    | nil => exact leftFine_cons.symm
    | cons i rows =>
      have hlt := hover i rfl
      have hclose : closeRows i.start (top :: next :: rest) = closeRows i.start (next :: rest) :=
        if_pos hlt
      rw [Fine, Fine, endedFine_cons hlt, hclose, and_assoc]
      rfl
  | push top rest i rows hlt ih =>
    rw [emitRows_push hlt, allCarry_closed, allCarry_openRow (hQ i List.mem_cons_self),
      ih fun r hr => hQ r (List.mem_cons_of_mem _ hr), Fine, closeRows,
      if_neg (not_lt.mpr hlt.le), if_pos hlt]
    exact (and_iff_right (endedFine_of_le (.inl hlt.le))).symm
  | replace top rest i rows hrep ih =>
    have hclose : closeRows i.start (top :: rest) = rest := by
      rw [closeRows, if_neg (not_lt.mpr hrep.1)]
      split_ifs with hlt
      · rw [hrep.2.resolve_right hlt.ne]
        rfl
      · rfl
    rw [emitRows_replace hrep, allCarry_closed, allCarry_openRow (hQ i List.mem_cons_self),
      ih fun r hr => hQ r (List.mem_cons_of_mem _ hr), Fine, hclose]
    exact (and_iff_right (endedFine_of_le (hrep.2.symm.imp_left Eq.ge))).symm

theorem fine_iff (hfollows : Follows (done ++ Q)) : Fine traceList (openRows done) Q ↔
    (∀ between i later, Q = between ++ i :: later →
      EndedFine traceList i (openRows (done ++ between))) ∧
    LeftFine traceList (openRows (done ++ Q)) := by
  induction Q generalizing done with
  | nil => simp [Fine]
  | cons i Q ih =>
    have hnext : Follows (done ++ [i] ++ Q) := by
      rw [List.append_assoc]
      exact hfollows
    rw [Fine, ← hfollows done i Q rfl, ih hnext, List.append_assoc, List.singleton_append,
      ← and_assoc]
    refine and_congr_left fun _ => ?_
    constructor
    · rintro ⟨hi, h⟩ between j later heq
      cases between with
      | nil =>
        cases heq
        rwa [List.append_nil]
      | cons x between =>
        cases heq
        have hj := h between j later rfl
        rwa [List.append_assoc] at hj
    · intro h
      refine ⟨by simpa using h [] i Q rfl, ?_⟩
      rintro between j later rfl
      have hj := h (i :: between) j later rfl
      rwa [List.append_assoc]

theorem carriesOneRow_iff_coincide (traceList : List (Trace M)) :
    CarriesOneRow traceList ↔ RowsCoincide traceList (sortedRows traceList) := by
  have hfollows := follows _ (sortedRows_sorted traceList)
  have hmem : ∀ x ∈ sortedRows traceList, x ∈ traceList := fun x hx =>
    (sortedRows_perm traceList).mem_iff.mp hx
  unfold CarriesOneRow outputToPftrace
  cases hsorted : sortedRows traceList with
  | nil =>
    refine iff_of_true (by simp) ⟨?_, ?_⟩
    · intro done i later inner c b heq
      exact absurd heq (by simp)
    · rintro inner c b ⟨outer, hopen⟩
      exact absurd hopen (by simp [openRows])
  | cons r rows =>
    rw [hsorted] at hfollows hmem
    have hr : openRows [r] = [r] := hfollows [] r rows rfl
    have hall : AllCarry traceList (openRow r :: emitRows r [] rows) ↔
        Fine traceList (openRows [r]) rows := by
      rw [allCarry_openRow (hmem r List.mem_cons_self), hr]
      exact allCarry_iff r [] rows fun x hx => hmem x (List.mem_cons_of_mem _ hx)
    rw [fine_iff hfollows, List.singleton_append] at hall
    constructor
    · intro h
      obtain ⟨hended, hleft⟩ := hall.mp (h _ rfl)
      refine ⟨?_, fun inner c b ⟨outer, hopen⟩ => hleft inner c b outer hopen⟩
      rintro done i later inner c b heq ⟨outer, hopen⟩ hover
      cases done with
      | nil => exact absurd hopen (by simp [openRows])
      | cons x done =>
        cases heq
        exact hended done i later rfl inner c b outer hopen hover
    · rintro h events ⟨⟩
      refine hall.mpr ⟨?_, fun inner c b outer hopen => h.left inner c b ⟨outer, hopen⟩⟩
      rintro between i later rfl inner c b outer hopen hover
      exact h.ended (r :: between) i later inner c b rfl ⟨outer, hopen⟩ hover

theorem openRows_of_apart (h : Apart (rows ++ [i])) (hfollows : Follows (rows ++ [i])) :
    openRows (rows ++ [i]) = [i] := by
  induction rows using List.reverseRecOn generalizing i with
  | nil => rfl
  | append_singleton rows j ih =>
    have hle : j.stop ≤ i.start :=
      (List.isChain_append.mp h).2.2 j (by simp) i (by simp)
    rw [hfollows (rows ++ [j]) i [] rfl, ih (List.isChain_append.mp h).1 hfollows.of_concat,
      closeRows]
    split_ifs
    · rfl
    · omega
    · rfl

theorem not_inside_of_apart (h : Apart rows) (hfollows : Follows rows) (inner : List (Trace M))
    (c b : Trace M) : ¬Inside rows inner c b := by
  rintro ⟨outer, hopen⟩
  cases rows using List.reverseRecOn with
  | nil => exact absurd hopen (by simp [openRows])
  | append_singleton rows i =>
    rw [openRows_of_apart h hfollows] at hopen
    have hlen := congrArg List.length hopen
    simp at hlen
    omega

theorem rowsCoincide_of_apart (h : Apart rows) (hfollows : Follows rows) :
    RowsCoincide traceList rows := by
  constructor
  · rintro done i later inner c b rfl hin
    refine absurd hin (not_inside_of_apart (List.isChain_append.mp h).1 ?_ inner c b)
    rintro done' j later' rfl
    exact hfollows done' j (later' ++ i :: later) (by simp)
  · exact fun inner c b hin => absurd hin (not_inside_of_apart h hfollows inner c b)

theorem ToldApart.not_coincide {inner : List (Trace M)} {categories : Text}
    (h : ToldApart traceList (done ++ later)) (hin : Inside done inner c b) :
    ¬Coincide traceList b c categories := by
  rintro ⟨r, hr, hname, -, hmetrics⟩
  exact h done later inner c b rfl hin r hr hname hmetrics

theorem length_openRows_le (h : ∀ c b, ¬Inside done [] c b) : (openRows done).length ≤ 1 := by
  cases hopen : openRows done with
  | nil => exact Nat.zero_le 1
  | cons c opened =>
    cases opened with
    | nil => exact le_rfl
    | cons b outer => exact absurd ⟨outer, hopen⟩ (h c b)

/-- No second row is ever open when rows are told apart: it would have to end at last. -/
theorem openRows_single (hrows : rows = done ++ Q) (hfollows : Follows rows)
    (htold : ToldApart traceList rows) (h : RowsCoincide traceList rows) :
    (openRows done).length ≤ 1 := by
  induction Q generalizing done with
  | nil =>
    rw [List.append_nil] at hrows
    subst hrows
    refine length_openRows_le fun c b hin => ?_
    rw [← List.append_nil rows] at htold
    exact htold.not_coincide hin (h.left [] c b hin)
  | cons i Q ih =>
    have hnext : (openRows (done ++ [i])).length ≤ 1 := ih (by simpa using hrows)
    rw [hfollows done i Q hrows] at hnext
    refine length_openRows_le fun c b hin => ?_
    obtain ⟨outer, hopen⟩ := hin
    have hlt : c.stop < i.start := by
      by_contra hge
      rw [hopen, List.nil_append, closeRows, if_neg hge] at hnext
      split_ifs at hnext
      · simp at hnext
      · simp at hnext
    subst hrows
    exact htold.not_coincide ⟨outer, hopen⟩
      (h.ended done i Q [] c b rfl ⟨outer, hopen⟩ (by simpa using hlt))

theorem apart_of_single (hfollows : Follows rows)
    (h : ∀ done later, rows = done ++ later → (openRows done).length ≤ 1) : Apart rows := by
  refine List.isChain_iff_forall_rel_of_append_cons_cons.mpr ?_
  rintro j i before later rfl
  have hj := hfollows before j (i :: later) rfl
  have hi := hfollows (before ++ [j]) i later (by simp)
  have hlen := h (before ++ [j, i]) later (by simp)
  rw [show before ++ [j, i] = before ++ [j] ++ [i] by simp, hi, hj, closeRows] at hlen
  by_contra hlt
  rw [if_neg (by omega), if_pos (by omega)] at hlen
  simp at hlen

/-- Every slice is of one row when no row starts before the one ahead of it has ended, and
only then as long as rows are told apart by name and metrics. In general the name, the path and
the metrics that are put together where a row is opened again have to be those of a row. -/
theorem carriesOneRow_iff (traceList : List (Trace M)) :
    (Apart (sortedRows traceList) → CarriesOneRow traceList) ∧
      (ToldApart traceList (sortedRows traceList) →
        (CarriesOneRow traceList ↔ Apart (sortedRows traceList))) ∧
      (CarriesOneRow traceList ↔ RowsCoincide traceList (sortedRows traceList)) := by
  have hfollows := follows _ (sortedRows_sorted traceList)
  have hapart : Apart (sortedRows traceList) → CarriesOneRow traceList := fun h =>
    (carriesOneRow_iff_coincide traceList).mpr (rowsCoincide_of_apart h hfollows)
  refine ⟨hapart, fun htold => ⟨fun h => ?_, hapart⟩, carriesOneRow_iff_coincide traceList⟩
  have hcoincide := (carriesOneRow_iff_coincide traceList).mp h
  exact apart_of_single hfollows fun done later hrows =>
    openRows_single hrows hfollows htold hcoincide

def outerRow : Trace ℕ := ⟨0, 100, 1, "\n a.A.run(A.java:1)".toList⟩

def innerRow : Trace ℕ := ⟨10, 20, 2, "\n a.A.run(A.java:1)\n a.A.f(A.java:2)".toList⟩

/-- The slice after the inner row has the name of the outer one and the rest of the inner. -/
theorem not_carriesOneRow_innerRow : ¬CarriesOneRow [outerRow, innerRow] := by
  intro h
  obtain ⟨r, hr, hname, -, hmetrics⟩ :=
    h _ rfl 20 outerRow.name innerRow.callpath innerRow.metricsDict (List.mem_of_getElem?
      (show _[4]? = some _ from rfl))
  simp only [List.mem_cons, List.not_mem_nil, or_false] at hr
  obtain rfl | rfl := hr
  · exact absurd hmetrics (by decide)
  · exact absurd hname (by decide +kernel)

example : openRows [outerRow, innerRow] = [innerRow, outerRow] := by rfl

end Resumed
end Trace4J.Offline
