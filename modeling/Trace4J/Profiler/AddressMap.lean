import Trace4J.Library.IntervalMap
import Trace4J.Profiler.LineTable

/-!
# Address maps of compiled methods

`loadAddrLocationMap`, which turns the address map of a compiled method into ranges of
addresses with lines, and `addr2line`, which looks an address up in them. The line of an
entry goes to the addresses before it, and the first entry without a line ends the ranges.
-/

namespace Trace4J.Profiler
open Library

/-! ## Loading and looking up -/

structure AddrLocation where
  startAddress : ℕ
  location : ℤ

structure MethodCode where
  method : CompiledMethod
  isNative : Bool
  bci2line : RangeSet ℤ
  addr2line : RangeSet ℤ := .empty

/-- `addr - 1` on `uint64_t` -/
def prevAddr (addr : ℕ) : ℕ := (addr + (2 ^ 64 - 1)) % 2 ^ 64

def lineOf (bci2line : RangeSet ℤ) (location : ℤ) : Option ℤ :=
  bci2line.getData (location % 2 ^ 64).toNat

namespace MethodCode

/-- The loop over the entries after the one at `entry`; `none` is a failed assertion. -/
def addrLoop (m : MethodCode) : AddrLocation → List AddrLocation → RangeSet ℤ →
    Option (RangeSet ℤ)
  | _, [], s => some s
  | entry, next :: map, s =>
    let endAddr := prevAddr next.startAddress
    if endAddr < entry.startAddress then none
    else if m.method.lastAddr < endAddr then none
    else
      match lineOf m.bci2line next.location with
      | none => some s
      | some lineno => do
        let s ← s.insert entry.startAddress endAddr lineno
        addrLoop m next map s

def loadAddrLocationMap (m : MethodCode) : List AddrLocation → Option MethodCode
  | [] => some m
  | first :: map =>
    if m.isNative then some m
    else if m.bci2line.entries = [] then some m
    else
      let endAddr := prevAddr first.startAddress
      if endAddr < m.method.startAddr then none
      else
        match lineOf m.bci2line first.location with
        | none => some m
        | some lineno => do
          let s ← m.addr2line.insert m.method.startAddr endAddr lineno
          let s ← m.addrLoop first map s
          some { m with addr2line := s }

def new (method : CompiledMethod) (isNative : Bool) (jvmti : MethodLines)
    (map : List AddrLocation) : Option MethodCode := do
  let bci2line ← loadBCILineTable isNative jvmti .empty
  loadAddrLocationMap { method, isNative, bci2line } map

/-- `addr2line`, where 0 is no line. -/
def lineAt (m : MethodCode) (addr : ℕ) : Option ℤ :=
  if m.addr2line.entries = [] then some 0
  else
    match m.addr2line.getData addr with
    | some line => some line
    | none => if m.method.startAddr ≤ addr ∧ addr ≤ m.method.lastAddr then some 0 else none

end MethodCode

/-! ## What an address map says -/

/-- The line of the first entry after `addr`, as far as the entries before the first one
without a line reach. -/
def mappedLine (line : ℤ → Option ℤ) (map : List AddrLocation) (addr : ℕ) : Option ℤ :=
  match (map.takeWhile fun e => (line e.location).isSome).getLast? with
  | none => none
  | some last =>
    if addr < last.startAddress then
      (map.find? fun e => addr < e.startAddress).bind fun e => line e.location
    else none

def MapFits (method : CompiledMethod) (map : List AddrLocation) : Prop :=
  map.Pairwise (fun a b => a.startAddress < b.startAddress) ∧
    ∀ e ∈ map, method.startAddr < e.startAddress ∧ e.startAddress ≤ method.lastAddr + 1

def addrRanges (line : ℤ → Option ℤ) : ℕ → List AddrLocation → List (Range ℤ)
  | _, [] => []
  | start, entry :: map =>
    match line entry.location with
    | none => []
    | some lineno =>
      ⟨start, entry.startAddress - 1, lineno⟩ :: addrRanges line entry.startAddress map

variable {line : ℤ → Option ℤ} {map : List AddrLocation} {start addr : ℕ} {r : Range ℤ}

theorem start_le_of_mem (h : r ∈ addrRanges line start map)
    (hsorted : map.Pairwise fun a b => a.startAddress < b.startAddress)
    (habove : ∀ e ∈ map, start < e.startAddress) : start ≤ r.start ∧ r.start ≤ r.stop := by
  induction map generalizing start with
  | nil => cases h
  | cons entry map ih =>
    obtain ⟨hhead, hrest⟩ := List.pairwise_cons.mp hsorted
    have hlt := habove entry List.mem_cons_self
    rw [addrRanges] at h
    split at h
    · cases h
    · obtain rfl | h := List.mem_cons.mp h
      · dsimp only
        omega
      · have := ih h hrest hhead
        omega

theorem addrRanges_separated
    (hsorted : map.Pairwise fun a b => a.startAddress < b.startAddress)
    (habove : ∀ e ∈ map, start < e.startAddress) :
    (addrRanges line start map).Pairwise fun a b => a.stop < b.start := by
  induction map generalizing start with
  | nil => exact List.Pairwise.nil
  | cons entry map ih =>
    obtain ⟨hhead, hrest⟩ := List.pairwise_cons.mp hsorted
    have hlt := habove entry List.mem_cons_self
    rw [addrRanges]
    split
    · exact List.Pairwise.nil
    · refine List.pairwise_cons.mpr ⟨?_, ih hrest hhead⟩
      intro q hq
      have := start_le_of_mem hq hrest hhead
      dsimp only
      omega

theorem mappedLine_of_cons {entry : AddrLocation} {lineno : ℤ}
    (hline : line entry.location = some lineno) (hle : entry.startAddress ≤ addr) :
    mappedLine line (entry :: map) addr = mappedLine line map addr := by
  have hskip : ¬addr < entry.startAddress := not_lt.mpr hle
  unfold mappedLine
  rw [List.takeWhile_cons_of_pos (by simp [hline]),
    List.find?_cons_of_neg (by simpa using hle)]
  cases hlast : (map.takeWhile fun e => (line e.location).isSome).getLast? with
  | none =>
    rw [List.getLast?_eq_none_iff] at hlast
    simp [hlast, hle]
  | some last =>
    rw [List.getLast?_cons, hlast]
    rfl

theorem mappedLine_of_lt {entry : AddrLocation} {lineno : ℤ}
    (hline : line entry.location = some lineno) (hlt : addr < entry.startAddress)
    (hafter : ∀ e ∈ map, entry.startAddress < e.startAddress) :
    mappedLine line (entry :: map) addr = some lineno := by
  unfold mappedLine
  rw [List.takeWhile_cons_of_pos (by simp [hline]),
    List.find?_cons_of_pos (by simpa using hlt)]
  have hlast : ∃ last, (entry :: map.takeWhile fun e => (line e.location).isSome).getLast? =
      some last ∧ entry.startAddress ≤ last.startAddress := by
    refine ⟨_, List.getLast?_eq_getLast_of_ne_nil (List.cons_ne_nil _ _), ?_⟩
    obtain h | h := List.mem_cons.mp (List.getLast_mem (List.cons_ne_nil entry
      (map.takeWhile fun e => (line e.location).isSome)))
    · rw [h]
    · exact (hafter _ ((List.takeWhile_prefix _).subset h)).le
  obtain ⟨last, hlast, hle⟩ := hlast
  rw [hlast]
  simp [hlt.trans_le hle, hline]

theorem mappedLine_eq_some (hsorted : map.Pairwise fun a b => a.startAddress < b.startAddress)
    (habove : ∀ e ∈ map, start < e.startAddress) (hstart : start ≤ addr) (lineno : ℤ) :
    mappedLine line map addr = some lineno ↔
      ∃ r ∈ addrRanges line start map, r.Holds addr ∧ r.data = lineno := by
  induction map generalizing start with
  | nil => simp [mappedLine, addrRanges]
  | cons entry map ih =>
    obtain ⟨hhead, hrest⟩ := List.pairwise_cons.mp hsorted
    rw [addrRanges]
    cases hline : line entry.location with
    | none => simp [mappedLine, hline]
    | some first =>
      simp only [List.exists_mem_cons_iff, Range.Holds]
      obtain hlt | hle := lt_or_ge addr entry.startAddress
      · rw [mappedLine_of_lt hline hlt hhead, Option.some.injEq]
        have hfirst : addr ≤ entry.startAddress - 1 := by omega
        have hlater : ¬∃ r ∈ addrRanges line entry.startAddress map,
            (r.start ≤ addr ∧ addr ≤ r.stop) ∧ r.data = lineno := by
          intro h
          obtain ⟨r, hr, hholds, -⟩ := h
          have := start_le_of_mem hr hrest hhead
          omega
        rw [or_iff_left hlater]
        simp [hstart, hfirst]
      · have hfirst : ¬addr ≤ entry.startAddress - 1 := by
          have := habove entry List.mem_cons_self
          omega
        rw [mappedLine_of_cons hline hle, ih hrest hhead hle]
        simp [hfirst, Range.Holds]

/-! ## Running the loader -/

theorem CompiledMethod.lastAddr_lt (method : CompiledMethod) : method.lastAddr < 2 ^ 64 := by
  unfold CompiledMethod.lastAddr
  omega

theorem prevAddr_of_pos (h : 0 < addr) (hle : addr ≤ 2 ^ 64) : prevAddr addr = addr - 1 := by
  unfold prevAddr
  omega

def keyed (r : Range ℤ) : ℕ × Range ℤ := (r.start, r)

theorem RangeSet.insert_of_after {s : RangeSet ℤ} {start stop : ℕ} (data : ℤ)
    (hle : start ≤ stop) (hafter : ∀ e ∈ s.entries, e.1 < start) :
    ∃ s', s.insert start stop data = some s' ∧
      s'.entries = s.entries ++ [keyed ⟨start, stop, data⟩] := by
  refine ⟨_, if_pos hle, ?_⟩
  exact OrderedMap.emplaceEntries_of_lt hafter

namespace MethodCode
variable {m loaded : MethodCode}

theorem addrLoop_entries {entry : AddrLocation} {s : RangeSet ℤ}
    (hfits : (entry :: map).Pairwise fun a b => a.startAddress < b.startAddress)
    (hlast : ∀ e ∈ map, e.startAddress ≤ m.method.lastAddr + 1)
    (hafter : ∀ e ∈ s.entries, e.1 < entry.startAddress) :
    ∃ s', m.addrLoop entry map s = some s' ∧ s'.entries =
      s.entries ++ (addrRanges (lineOf m.bci2line) entry.startAddress map).map keyed := by
  induction map generalizing entry s with
  | nil => exact ⟨s, rfl, by simp [addrRanges]⟩
  | cons next map ih =>
    obtain ⟨hhead, hrest⟩ := List.pairwise_cons.mp hfits
    have hlt := hhead next List.mem_cons_self
    have hend := hlast next List.mem_cons_self
    have hbound := m.method.lastAddr_lt
    have hprev : prevAddr next.startAddress = next.startAddress - 1 :=
      prevAddr_of_pos (by omega) (by omega)
    have horder : ¬next.startAddress - 1 < entry.startAddress := by omega
    have hinside : ¬m.method.lastAddr < next.startAddress - 1 := by omega
    simp only [addrLoop, hprev, if_neg horder, if_neg hinside]
    rw [addrRanges]
    cases hline : lineOf m.bci2line next.location with
    | none => exact ⟨s, rfl, by simp⟩
    | some lineno =>
      obtain ⟨s₁, hinsert, hentries⟩ := RangeSet.insert_of_after lineno
        (not_lt.mp horder) hafter
      have hnext : ∀ e ∈ s₁.entries, e.1 < next.startAddress := by
        intro e he
        rw [hentries] at he
        obtain he | he := List.mem_append.mp he
        · exact (hafter e he).trans hlt
        · rw [List.mem_singleton.mp he]
          exact hlt
      obtain ⟨s', hloop, hs'⟩ :=
        ih hrest (fun e he => hlast e (List.mem_cons_of_mem _ he)) hnext
      refine ⟨s', ?_, ?_⟩
      · simp only [hinsert, Option.bind_eq_bind, Option.bind_some, hloop]
      · rw [hs', hentries]
        simp

theorem loadAddrLocationMap_entries (hfits : MapFits m.method map)
    (hnative : m.isNative = true → m.bci2line = .empty) (hempty : m.addr2line = .empty) :
    ∃ loaded, m.loadAddrLocationMap map = some loaded ∧ loaded.method = m.method ∧
      loaded.addr2line.entries =
        (addrRanges (lineOf m.bci2line) m.method.startAddr map).map keyed := by
  have hnone : m.bci2line.entries = [] →
      addrRanges (lineOf m.bci2line) m.method.startAddr map = [] := by
    intro h
    have hline : ∀ location, lineOf m.bci2line location = none := by
      intro location
      rw [lineOf, RangeSet.getData, RangeSet.getRange, OrderedMap.floorEntry, h]
      rfl
    cases map with
    | nil => rfl
    | cons entry map => rw [addrRanges, hline]
  cases map with
  | nil => exact ⟨m, rfl, rfl, by rw [hempty]; rfl⟩
  | cons first map =>
    rw [loadAddrLocationMap]
    by_cases hnat : m.isNative = true
    · rw [if_pos hnat, hnone (by rw [hnative hnat]; rfl)]
      exact ⟨m, rfl, rfl, by rw [hempty]; rfl⟩
    by_cases hbci : m.bci2line.entries = []
    · rw [if_neg hnat, if_pos hbci, hnone hbci]
      exact ⟨m, rfl, rfl, by rw [hempty]; rfl⟩
    obtain ⟨hsorted, hwithin⟩ := hfits
    obtain ⟨habove, hend⟩ := hwithin first List.mem_cons_self
    have hbound := m.method.lastAddr_lt
    have hprev : prevAddr first.startAddress = first.startAddress - 1 :=
      prevAddr_of_pos (by omega) (by omega)
    have horder : ¬first.startAddress - 1 < m.method.startAddr := by omega
    simp only [if_neg hnat, if_neg hbci, hprev, if_neg horder]
    rw [addrRanges]
    cases hline : lineOf m.bci2line first.location with
    | none => exact ⟨m, rfl, rfl, by rw [hempty]; rfl⟩
    | some lineno =>
      have hfree : ∀ e ∈ m.addr2line.entries, e.1 < m.method.startAddr := by
        rw [hempty]
        exact fun e he => absurd he List.not_mem_nil
      obtain ⟨s₁, hinsert, hentries⟩ := RangeSet.insert_of_after lineno
        (not_lt.mp horder) hfree
      have hnext : ∀ e ∈ s₁.entries, e.1 < first.startAddress := by
        intro e he
        rw [hentries, hempty] at he
        rw [List.mem_singleton.mp he]
        exact habove
      obtain ⟨s', hloop, hs'⟩ := addrLoop_entries (m := m) hsorted
        (fun e he => (hwithin e (List.mem_cons_of_mem _ he)).2) hnext
      refine ⟨{ m with addr2line := s' }, ?_, rfl, ?_⟩
      · simp only [hinsert, Option.bind_eq_bind, Option.bind_some, hloop]
      · rw [hs', hentries, hempty]
        rfl

theorem loadBCILineTable_empty (isNative : Bool) (jvmti : MethodLines) :
    ∃ bci2line, loadBCILineTable isNative jvmti .empty = some bci2line ∧
      (isNative = true → bci2line = .empty) := by
  unfold loadBCILineTable
  cases isNative with
  | true => exact ⟨.empty, rfl, fun _ => rfl⟩
  | false =>
    rw [if_neg Bool.false_ne_true, if_neg (fun h => h rfl)]
    cases jvmti.location with
    | none => exact ⟨.empty, rfl, fun _ => rfl⟩
    | some location =>
      cases jvmti.lineTable with
      | none => exact ⟨.empty, rfl, fun _ => rfl⟩
      | some lineTable => exact ⟨_, lineLoop_eq, fun h => absurd h Bool.false_ne_true⟩

theorem new_entries {method : CompiledMethod} (isNative : Bool) (jvmti : MethodLines)
    (hfits : MapFits method map) :
    ∃ bci2line loaded, loadBCILineTable isNative jvmti .empty = some bci2line ∧
      MethodCode.new method isNative jvmti map = some loaded ∧ loaded.method = method ∧
      loaded.addr2line.entries =
        (addrRanges (lineOf bci2line) method.startAddr map).map keyed := by
  obtain ⟨bci2line, hbci, hnative⟩ := loadBCILineTable_empty isNative jvmti
  obtain ⟨loaded, hload, hmethod, hentries⟩ :=
    loadAddrLocationMap_entries (m := { method, isNative, bci2line }) hfits hnative rfl
  refine ⟨bci2line, loaded, hbci, ?_, hmethod, hentries⟩
  rw [MethodCode.new, hbci, Option.bind_eq_bind, Option.bind_some, hload]

end MethodCode

/-! ## Looking up what was loaded -/

theorem RangeSet.getRange_eq_holding {α : Type} (s : RangeSet α) (probeKey : ℕ) :
    s.getRange probeKey = (s.holding Range.stop probeKey).map Prod.snd := by
  unfold RangeSet.getRange OrderedMap.holding
  cases s.floorEntry probeKey with
  | none => rfl
  | some it =>
    by_cases hlt : it.2.stop < probeKey
    · simp [hlt, Option.filter, not_le.mpr hlt]
    · simp [hlt, Option.filter, not_lt.mp hlt]

section Lookup
variable {s : RangeSet ℤ} (hs : s.entries = (addrRanges line start map).map keyed)
  (hsorted : map.Pairwise fun a b => a.startAddress < b.startAddress)
  (habove : ∀ e ∈ map, start < e.startAddress)
include hs hsorted habove

theorem separated_of_entries : s.Separated Range.stop := by
  constructor
  · intro e he
    rw [hs, List.mem_map] at he
    obtain ⟨r, hr, rfl⟩ := he
    exact (start_le_of_mem hr hsorted habove).2
  · rw [hs, List.pairwise_map]
    exact addrRanges_separated hsorted habove

theorem getData_of_entries (hstart : start ≤ addr) :
    s.getData addr = mappedLine line map addr := by
  apply Option.ext
  intro lineno
  rw [mappedLine_eq_some hsorted habove hstart, RangeSet.getData, RangeSet.getRange_eq_holding,
    Option.map_map, Option.map_eq_some_iff]
  simp only [(separated_of_entries hs hsorted habove).holding_eq_some, hs, List.mem_map,
    Function.comp_apply]
  constructor
  · intro h
    obtain ⟨e, ⟨⟨r, hr, rfl⟩, hholds⟩, hdata⟩ := h
    exact ⟨r, hr, hholds, hdata⟩
  · intro h
    obtain ⟨r, hr, hholds, hdata⟩ := h
    exact ⟨keyed r, ⟨⟨r, hr, rfl⟩, hholds⟩, hdata⟩

end Lookup

theorem MethodCode.lineAt_eq {m : MethodCode}
    (hin : m.method.startAddr ≤ addr ∧ addr ≤ m.method.lastAddr) :
    m.lineAt addr = some ((m.addr2line.getData addr).getD 0) := by
  unfold lineAt
  split_ifs with hempty
  · rw [RangeSet.getData, RangeSet.getRange, OrderedMap.floorEntry, hempty]
    rfl
  · cases m.addr2line.getData addr with
    | none => rfl
    | some line => rfl

end Trace4J.Profiler
