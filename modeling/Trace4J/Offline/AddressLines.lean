import Trace4J.Offline.RangeTree
import Trace4J.Profiler.AddressMap

/-!
# The lines of addresses, from the profiler to the scripts

The ranges of a compiled method are dumped, loaded into the range tree of a `Method` and
looked up there, beside `addr2line` of the profiler.
-/

namespace Trace4J.Offline
open Library Profiler

def addr2lineXml (m : MethodCode) : List RangeXml := m.addr2line.entries.map fun e => rangeXml e.2

/-- The outer `none` is the `ValueError` of `str2int`. -/
def RangeTree.addr2line (tree : RangeTree) (addr : Text) : Option (Option Text) :=
  (str2int addr).map fun key => (tree.queryTree key).map fun range => range.2.2

structure MethodTrees where
  addr2line : RangeTree
  bci2line : RangeTree

def loadMethodTrees (addr2line bci2line : List RangeXml) : Option MethodTrees := do
  let addr2lineTree ← loadRanges .empty addr2line
  let bci2lineTree ← loadRanges .empty bci2line
  some ⟨addr2lineTree, bci2lineTree⟩

section Load
variable {s : RangeSet ℤ} {tree : RangeTree}

theorem loadRanges_of_separated (h : s.Separated Range.stop)
    (hkey : ∀ e ∈ s.entries, e.1 = e.2.start) :
    ∃ tree, loadRanges .empty (s.entries.map fun e => rangeXml e.2) = some tree ∧
      tree.entries = s.entries.map treeItem := by
  have hwf : ∀ e ∈ s.entries, e.1 = e.2.start ∧ e.2.start ≤ e.2.stop := by
    intro e he
    have hle := h.start_le e he
    rw [hkey e he] at hle
    exact ⟨hkey e he, hle⟩
  obtain ⟨tree, hload, htree⟩ :=
    loadRanges_entries s.entries .empty hwf (s.sorted.and h.lt_start) (by
      intro t ht
      cases ht)
  exact ⟨tree, hload, htree⟩

theorem tree_separated (h : s.Separated Range.stop)
    (htree : tree.entries = s.entries.map treeItem) : tree.Separated Prod.fst := by
  constructor
  · intro e he
    rw [htree, List.mem_map] at he
    obtain ⟨r, hr, rfl⟩ := he
    exact Int.ofNat_le.mpr (h.start_le r hr)
  · rw [htree, List.pairwise_map]
    exact h.lt_start.imp fun hlt => Int.ofNat_lt.mpr hlt

theorem tree_holding (h : s.Separated Range.stop) (htree : tree.entries = s.entries.map treeItem)
    (addr : ℕ) : tree.holding Prod.fst (addr : ℤ) = (s.holding Range.stop addr).map treeItem := by
  apply Option.ext
  intro e
  rw [(tree_separated h htree).holding_eq_some, htree, List.mem_map, Option.map_eq_some_iff]
  simp only [h.holding_eq_some]
  constructor
  · intro hin
    obtain ⟨⟨r, hr, rfl⟩, hstart, hstop⟩ := hin
    exact ⟨r, ⟨hr, Int.ofNat_le.mp hstart, Int.ofNat_le.mp hstop⟩, rfl⟩
  · intro hin
    obtain ⟨r, ⟨hr, hstart, hstop⟩, rfl⟩ := hin
    exact ⟨⟨r, hr, rfl⟩, Int.ofNat_le.mpr hstart, Int.ofNat_le.mpr hstop⟩

theorem tree_addr2line (h : s.Separated Range.stop) (htree : tree.entries = s.entries.map treeItem)
    (addr : ℕ) :
    tree.addr2line (Nat.toDigits 10 addr) = some ((s.getData addr).map intText) := by
  rw [RangeTree.addr2line, str2int_toDigits, Option.map_some, RangeTree.queryTree_eq_holding,
    tree_holding h htree, RangeSet.getData, RangeSet.getRange_eq_holding]
  simp only [Option.map_map]
  rfl

end Load

theorem addr2line_agrees (method : CompiledMethod) (isNative : Bool) (jvmti : MethodLines)
    (map : List AddrLocation) (hfits : MapFits method map) :
    ∃ bci2line loaded tree, loadBCILineTable isNative jvmti .empty = some bci2line ∧
      MethodCode.new method isNative jvmti map = some loaded ∧
      loadRanges .empty (addr2lineXml loaded) = some tree ∧
      (∀ bci2lineRanges trees, loadMethodTrees (addr2lineXml loaded) bci2lineRanges = some trees →
        trees.addr2line = tree) ∧
      ∀ addr, method.startAddr ≤ addr → addr ≤ method.lastAddr →
        loaded.lineAt addr = some ((mappedLine (lineOf bci2line) map addr).getD 0) ∧
        tree.addr2line (Nat.toDigits 10 addr) =
          some ((mappedLine (lineOf bci2line) map addr).map intText) := by
  obtain ⟨bci2line, loaded, hbci, hnew, hmethod, hentries⟩ :=
    MethodCode.new_entries isNative jvmti hfits
  have habove : ∀ e ∈ map, method.startAddr < e.startAddress := fun e he => (hfits.2 e he).1
  have hseparated := separated_of_entries hentries hfits.1 habove
  have hkey : ∀ e ∈ loaded.addr2line.entries, e.1 = e.2.start := by
    intro e he
    rw [hentries, List.mem_map] at he
    obtain ⟨r, -, rfl⟩ := he
    rfl
  obtain ⟨tree, hload, htree⟩ := loadRanges_of_separated hseparated hkey
  refine ⟨bci2line, loaded, tree, hbci, hnew, hload, ?_, ?_⟩
  · intro bci2lineRanges trees htrees
    rw [loadMethodTrees, addr2lineXml, hload, Option.bind_eq_bind, Option.bind_some,
      Option.bind_eq_some_iff] at htrees
    obtain ⟨bci2lineTree, -, htrees⟩ := htrees
    rw [← Option.some.inj htrees]
  · intro addr hstart hlast
    have hdata := getData_of_entries hentries hfits.1 habove hstart
    constructor
    · rw [MethodCode.lineAt_eq (hmethod ▸ ⟨hstart, hlast⟩), hdata]
    · rw [tree_addr2line hseparated htree, hdata]

def leafCode : CompiledMethod := ⟨7, 1, 32, 4096⟩

def leafMap : List AddrLocation := [⟨4100, 0⟩, ⟨4110, 5⟩, ⟨4128, 40⟩]

theorem addr2line_agrees_leafMap :
    ∃ bci2line loaded tree,
      loadBCILineTable false ⟨some (0, 20), some [⟨0, 10⟩, ⟨4, 11⟩]⟩ .empty = some bci2line ∧
      MethodCode.new leafCode false ⟨some (0, 20), some [⟨0, 10⟩, ⟨4, 11⟩]⟩ leafMap = some loaded ∧
      loadRanges .empty (addr2lineXml loaded) = some tree ∧
      ∀ addr, leafCode.startAddr ≤ addr → addr ≤ leafCode.lastAddr →
        loaded.lineAt addr = some ((mappedLine (lineOf bci2line) leafMap addr).getD 0) ∧
        tree.addr2line (Nat.toDigits 10 addr) =
          some ((mappedLine (lineOf bci2line) leafMap addr).map intText) := by
  have hfits : MapFits leafCode leafMap := by
    unfold MapFits
    decide
  obtain ⟨bci2line, loaded, tree, hbci, hnew, hload, -, hlines⟩ :=
    addr2line_agrees leafCode false ⟨some (0, 20), some [⟨0, 10⟩, ⟨4, 11⟩]⟩ leafMap hfits
  exact ⟨bci2line, loaded, tree, hbci, hnew, hload, hlines⟩

end Trace4J.Offline
