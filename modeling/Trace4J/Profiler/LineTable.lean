import Trace4J.Profiler.CodeCache

/-!
# Line tables of methods

`Method::loadBCILineTable`, which turns the line number table of a method into ranges of
bytecode indices. An entry of the table ends where the next one of the table starts, in
whatever order the table comes, and of two ranges with one start the first stays.
-/

namespace Trace4J.Profiler
open Library

structure LineEntry where
  startLocation : ℕ
  lineNumber : ℤ
deriving DecidableEq

/-- What JVMTI answers about a method; `none` is an error. -/
structure MethodLines where
  location : Option (ℤ × ℤ)
  lineTable : Option (List LineEntry)

def tmpEnd (endLocation : ℤ) : List LineEntry → ℤ
  | [] => endLocation
  | next :: _ => next.startLocation - 1

/-- The locations are signed, and a range that is not empty starts at 0 or later, so its
end is the same number when it becomes unsigned. -/
def lineLoop (endLocation : ℤ) : List LineEntry → RangeSet ℤ → Option (RangeSet ℤ)
  | [], s => some s
  | entry :: entries, s =>
    let stop := tmpEnd endLocation entries
    if stop < entry.startLocation then lineLoop endLocation entries s
    else do
      let s ← s.insert entry.startLocation stop.toNat entry.lineNumber
      lineLoop endLocation entries s

def loadBCILineTable (isNative : Bool) (jvmti : MethodLines) (s : RangeSet ℤ) :
    Option (RangeSet ℤ) :=
  if isNative then some s
  else if s.entries ≠ [] then some s
  else
    match jvmti.location with
    | none => some s
    | some (_, endLocation) =>
      match jvmti.lineTable with
      | none => some s
      | some lineTable => lineLoop endLocation lineTable s

/-! ## Stretches of a table -/

/-- In the order of the table, what each entry would cover. -/
def stretches (endLocation : ℤ) : List LineEntry → List (Range ℤ)
  | [] => []
  | entry :: entries =>
    if tmpEnd endLocation entries < entry.startLocation then stretches endLocation entries
    else ⟨entry.startLocation, (tmpEnd endLocation entries).toNat, entry.lineNumber⟩ ::
      stretches endLocation entries

def Kept (endLocation : ℤ) (table : List LineEntry) (r : Range ℤ) : Prop :=
  (stretches endLocation table).find? (fun q => q.start = r.start) = some r

def Range.Holds (r : Range ℤ) (bci : ℕ) : Prop := r.start ≤ bci ∧ bci ≤ r.stop

/-- Every start of the table lies in one kept stretch, and in no second one, and the line
of that stretch is the line of an entry with this start. -/
def EachOnce (endLocation : ℤ) (table : List LineEntry) : Prop :=
  ∀ x ∈ table, ∃ r, Kept endLocation table r ∧ r.Holds x.startLocation ∧
    (∃ y ∈ table, y.startLocation = x.startLocation ∧ y.lineNumber = r.data) ∧
    ∀ q, Kept endLocation table q → q.Holds x.startLocation → q = r

variable {endLocation : ℤ} {table : List LineEntry} {s : RangeSet ℤ} {r q : Range ℤ} {bci : ℕ}

theorem lineLoop_eq : lineLoop endLocation table s = some
    (((stretches endLocation table).map fun r => (r.start, r)).foldl
      (fun s a => s.emplace a.1 a.2) s) := by
  induction table generalizing s with
  | nil => rfl
  | cons entry entries ih =>
    rw [lineLoop, stretches]
    split_ifs with hlt
    · exact ih
    · have hle : entry.startLocation ≤ (tmpEnd endLocation entries).toNat := by omega
      simp only [RangeSet.insert, if_pos hle, Option.bind_eq_bind, Option.bind_some, ih,
        List.map_cons, List.foldl_cons]

theorem mem_lineLoop (h : lineLoop endLocation table .empty = some s) (e : ℕ × Range ℤ) :
    e ∈ s.entries ↔ e.1 = e.2.start ∧ Kept endLocation table e.2 := by
  rw [lineLoop_eq, Option.some.injEq] at h
  subst h
  rw [OrderedMap.mem_foldl_emplace, or_iff_right (by simp [OrderedMap.empty]), List.find?_map]
  simp only [OrderedMap.empty, List.not_mem_nil, false_implies, implies_true, true_and,
    Option.map_eq_some_iff, Function.comp_def, Kept]
  constructor
  · rintro ⟨r, hr, rfl⟩
    exact ⟨rfl, hr⟩
  · rintro ⟨hkey, hr⟩
    refine ⟨e.2, ?_, Prod.ext hkey.symm rfl⟩
    rw [hkey]
    exact hr

theorem mem_of_kept (h : Kept endLocation table r) : r ∈ stretches endLocation table :=
  List.mem_of_find?_eq_some h

theorem kept_unique (hr : Kept endLocation table r) (hq : Kept endLocation table q)
    (h : r.start = q.start) : r = q := by
  unfold Kept at hr hq
  rw [h] at hr
  exact Option.some.inj (hr.symm.trans hq)

/-! ## Shape of a stretch -/

theorem stretch_le (h : r ∈ stretches endLocation table) : r.start ≤ r.stop := by
  induction table with
  | nil => cases h
  | cons entry entries ih =>
    rw [stretches] at h
    split_ifs at h with hlt
    · exact ih h
    · obtain rfl | h := List.mem_cons.mp h
      · dsimp only
        omega
      · exact ih h

theorem exists_start (h : r ∈ stretches endLocation table) :
    ∃ x ∈ table, x.startLocation = r.start := by
  induction table with
  | nil => cases h
  | cons entry entries ih =>
    rw [stretches] at h
    split_ifs at h with hlt
    · obtain ⟨x, hx, hstart⟩ := ih h
      exact ⟨x, List.mem_cons_of_mem _ hx, hstart⟩
    · obtain rfl | h := List.mem_cons.mp h
      · exact ⟨entry, List.mem_cons_self, rfl⟩
      · obtain ⟨x, hx, hstart⟩ := ih h
        exact ⟨x, List.mem_cons_of_mem _ hx, hstart⟩

/-- A stretch ends before the start of an entry or with the method. -/
theorem stop_spec (h : r ∈ stretches endLocation table) :
    (∃ x ∈ table, r.stop + 1 = x.startLocation) ∨ (r.stop : ℤ) = endLocation := by
  induction table with
  | nil => cases h
  | cons entry entries ih =>
    have hrest : r ∈ stretches endLocation entries →
        (∃ x ∈ entry :: entries, r.stop + 1 = x.startLocation) ∨ (r.stop : ℤ) = endLocation := by
      intro hr
      obtain ⟨x, hx, hstop⟩ | hstop := ih hr
      · exact .inl ⟨x, List.mem_cons_of_mem _ hx, hstop⟩
      · exact .inr hstop
    rw [stretches] at h
    split_ifs at h with hlt
    · exact hrest h
    · obtain rfl | h := List.mem_cons.mp h
      · dsimp only
        cases entries with
        | nil =>
          right
          rw [tmpEnd] at hlt ⊢
          omega
        | cons next entries =>
          left
          refine ⟨next, by simp, ?_⟩
          rw [tmpEnd] at hlt ⊢
          omega
      · exact hrest h

/-! ## What is stored -/

def RangeSet.PairwiseDisjoint (s : RangeSet ℤ) : Prop :=
  ∀ a ∈ s.entries, ∀ b ∈ s.entries, ∀ bci, a.2.Holds bci → b.2.Holds bci → a = b

theorem holds_start (h : r ∈ stretches endLocation table) : r.Holds r.start :=
  ⟨le_rfl, stretch_le h⟩

theorem kept_of_getData {line : ℤ} (hs : lineLoop endLocation table .empty = some s)
    (h : s.getData bci = some line) :
    ∃ r, Kept endLocation table r ∧ r.Holds bci ∧ r.data = line := by
  rw [RangeSet.getData, Option.map_eq_some_iff] at h
  obtain ⟨r, hrange, hdata⟩ := h
  unfold RangeSet.getRange at hrange
  split at hrange
  · cases hrange
  · next it hit =>
    obtain ⟨hmem, hle, -⟩ := OrderedMap.floorEntry_eq_some.mp hit
    obtain ⟨hkey, hkept⟩ := (mem_lineLoop hs it).mp hmem
    split_ifs at hrange with hstop
    obtain rfl := Option.some.inj hrange
    exact ⟨it.2, hkept, ⟨hkey ▸ hle, not_lt.mp hstop⟩, hdata⟩

theorem getData_of_kept (hs : lineLoop endLocation table .empty = some s)
    (hdisjoint : s.PairwiseDisjoint) (hr : Kept endLocation table r) (hbci : r.Holds bci) :
    s.floorEntry bci = some (r.start, r) ∧ s.getData bci = some r.data := by
  have hmem : (r.start, r) ∈ s.entries := (mem_lineLoop hs _).mpr ⟨rfl, hr⟩
  have hfloor : s.floorEntry bci = some (r.start, r) := by
    refine OrderedMap.floorEntry_eq_some.mpr ⟨hmem, hbci.1, ?_⟩
    intro a ha hle
    by_contra hlt
    obtain ⟨hkey, hkept⟩ := (mem_lineLoop hs a).mp ha
    -- the start of the later range would lie in both
    have hboth : r.Holds a.1 := ⟨(not_le.mp hlt).le, hle.trans hbci.2⟩
    have hself : a.2.Holds a.1 := hkey ▸ holds_start (mem_of_kept hkept)
    have heq := hdisjoint a ha _ hmem a.1 hself hboth
    exact hlt (heq ▸ le_rfl)
  refine ⟨hfloor, ?_⟩
  rw [RangeSet.getData, RangeSet.getRange, hfloor]
  simp only [if_neg (not_lt.mpr hbci.2), Option.map_some]

theorem EachOnce.kept_eq (h : EachOnce endLocation table) (hr : Kept endLocation table r)
    (hq : Kept endLocation table q) (hrq : r.Holds bci) (hqb : q.Holds bci)
    (hlt : r.start < q.start) : r = q := by
  obtain ⟨x, hx, hstart⟩ := exists_start (mem_of_kept hq)
  obtain ⟨p, -, -, -, hunique⟩ := h x hx
  have hrx : r.Holds x.startLocation := by
    rw [hstart]
    exact ⟨hlt.le, hqb.1.trans hrq.2⟩
  have hqx : q.Holds x.startLocation := by
    rw [hstart]
    exact holds_start (mem_of_kept hq)
  rw [hunique r hr hrx, hunique q hq hqx]

theorem EachOnce.pairwiseDisjoint (h : EachOnce endLocation table)
    (hs : lineLoop endLocation table .empty = some s) : s.PairwiseDisjoint := by
  intro a ha b hb bci hab hbb
  obtain ⟨hakey, hakept⟩ := (mem_lineLoop hs a).mp ha
  obtain ⟨hbkey, hbkept⟩ := (mem_lineLoop hs b).mp hb
  have heq : a.2 = b.2 := by
    obtain hlt | heq | hgt := lt_trichotomy a.2.start b.2.start
    · exact h.kept_eq hakept hbkept hab hbb hlt
    · exact kept_unique hakept hbkept heq
    · exact (h.kept_eq hbkept hakept hbb hab hgt).symm
  exact Prod.ext (by rw [hakey, hbkey, heq]) heq

/-! ## Tables in order -/

section Sorted
variable (hsorted : table.Pairwise fun x y => x.startLocation ≤ y.startLocation)
include hsorted

theorem start_of_sorted (hend : ∀ x ∈ table, (x.startLocation : ℤ) ≤ endLocation) :
    ∀ x ∈ table, ∃ r ∈ stretches endLocation table, r.start = x.startLocation ∧
      ∃ y ∈ table, y.startLocation = x.startLocation ∧ y.lineNumber = r.data := by
  induction table with
  | nil => simp
  | cons entry entries ih =>
    obtain ⟨hhead, hrest⟩ := List.pairwise_cons.mp hsorted
    have htail : ∀ x ∈ entries, ∃ r ∈ stretches endLocation (entry :: entries),
        r.start = x.startLocation ∧
          ∃ y ∈ entry :: entries, y.startLocation = x.startLocation ∧ y.lineNumber = r.data := by
      intro x hx
      obtain ⟨r, hr, hstart, y, hy, hyx, hline⟩ :=
        ih hrest (fun x hx => hend x (List.mem_cons_of_mem _ hx)) x hx
      refine ⟨r, ?_, hstart, y, List.mem_cons_of_mem _ hy, hyx, hline⟩
      rw [stretches]
      split_ifs
      · exact hr
      · exact List.mem_cons_of_mem _ hr
    intro x hx
    obtain rfl | hx := List.mem_cons.mp hx
    · by_cases hlt : tmpEnd endLocation entries < x.startLocation
      · -- the next entry has the same start
        cases entries with
        | nil =>
          have := hend x List.mem_cons_self
          rw [tmpEnd] at hlt
          omega
        | cons next entries =>
          have hle := hhead next List.mem_cons_self
          rw [tmpEnd] at hlt
          have heq : next.startLocation = x.startLocation := by omega
          rw [← heq]
          exact htail next List.mem_cons_self
      · refine ⟨⟨x.startLocation, (tmpEnd endLocation entries).toNat, x.lineNumber⟩, ?_, rfl,
          x, List.mem_cons_self, rfl, rfl⟩
        rw [stretches, if_neg hlt]
        exact List.mem_cons_self
    · exact htail x hx

theorem separate_of_sorted :
    (stretches endLocation table).Pairwise fun r q => r.stop < q.start := by
  induction table with
  | nil => exact List.Pairwise.nil
  | cons entry entries ih =>
    obtain ⟨hhead, hrest⟩ := List.pairwise_cons.mp hsorted
    rw [stretches]
    split_ifs with hlt
    · exact ih hrest
    · refine List.pairwise_cons.mpr ⟨?_, ih hrest⟩
      intro q hq
      obtain ⟨y, hy, hstart⟩ := exists_start hq
      cases entries with
      | nil => cases hy
      | cons next entries =>
        have hle : next.startLocation ≤ y.startLocation := by
          obtain rfl | hy := List.mem_cons.mp hy
          · exact le_rfl
          · exact (List.pairwise_cons.mp hrest).1 y hy
        rw [tmpEnd] at hlt ⊢
        dsimp only
        omega

theorem eachOnce_of_sorted (hend : ∀ x ∈ table, (x.startLocation : ℤ) ≤ endLocation) :
    EachOnce endLocation table := by
  have hunique : ∀ r ∈ stretches endLocation table, ∀ q ∈ stretches endLocation table,
      ∀ bci, r.Holds bci → q.Holds bci → r = q := by
    have hsymm : Std.Symm fun r q : Range ℤ => ∀ bci, r.Holds bci → q.Holds bci → r = q :=
      ⟨fun r q h bci hq hr => (h bci hr hq).symm⟩
    apply List.Pairwise.forall_of_forall
    · exact fun r _ bci _ _ => rfl
    · apply (separate_of_sorted hsorted).imp
      intro r q hlt bci hr hq
      exact absurd (hr.2.trans_lt hlt) (not_lt.mpr hq.1)
  have hkept : ∀ r ∈ stretches endLocation table, Kept endLocation table r := by
    intro r hr
    rw [Kept]
    cases hfind : (stretches endLocation table).find? fun q => q.start = r.start with
    | none => simpa using List.find?_eq_none.mp hfind r hr
    | some q =>
      have hq := List.mem_of_find?_eq_some hfind
      have hstart : q.start = r.start := by simpa using List.find?_some hfind
      rw [hunique q hq r hr r.start (hstart ▸ holds_start hq) (holds_start hr)]
  intro x hx
  obtain ⟨r, hr, hstart, hline⟩ := start_of_sorted hsorted hend x hx
  have hholds : r.Holds x.startLocation := hstart ▸ holds_start hr
  exact ⟨r, hkept r hr, hholds, hline, fun q hq hqx =>
    hunique q (mem_of_kept hq) r hr x.startLocation hqx hholds⟩

end Sorted
end Trace4J.Profiler
