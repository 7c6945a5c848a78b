import Mathlib.Data.Finset.Max
import Trace4J.Offline.OutputToFile
import Trace4J.Profiler.LineTable
import Trace4J.Profiler.MethodResolution

/-!
# The lines of a method, from the profiler to the scripts

The range tree in which a `Method` of the Python side keeps the dumped ranges, and when the
ranges of a line table come back from it as the lines of the bytecode indices.
-/

namespace Trace4J.Offline
open Library Profiler

/-! ## Numbers of an attribute -/

def hexDigit (c : Char) : Option ℕ :=
  if c.isDigit then some (c.toNat - '0'.toNat)
  else if 'a' ≤ c ∧ c ≤ 'f' then some (c.toNat - 'a'.toNat + 10)
  else if 'A' ≤ c ∧ c ≤ 'F' then some (c.toNat - 'A'.toNat + 10)
  else none

def readHexDigits : ℕ → Bool → Text → Option ℕ
  | n, afterDigit, [] => if afterDigit then some n else none
  | n, afterDigit, c :: s =>
    match hexDigit c with
    | some d => readHexDigits (16 * n + d) true s
    | none => if c = '_' ∧ afterDigit then readHexDigits n false s else none

def readHex : Text → Option ℕ
  | '0' :: 'x' :: '_' :: s | '0' :: 'X' :: '_' :: s => readHexDigits 0 false s
  | '0' :: 'x' :: s | '0' :: 'X' :: s => readHexDigits 0 false s
  | s => readHexDigits 0 false s

/-- `int(s, 16)` for the ASCII digits. -/
def pyHexInt (s : Text) : Option ℤ :=
  match strip s with
  | '-' :: t => (readHex t).map fun n : ℕ => -(n : ℤ)
  | '+' :: t => (readHex t).map fun n : ℕ => (n : ℤ)
  | t => (readHex t).map fun n : ℕ => (n : ℤ)

def str2int : Text → Option ℤ
  | '0' :: 'x' :: s => pyHexInt s
  | s => pyInt s

inductive IntArg
  | int (n : ℤ)
  | str (s : Text)

def IntArg.value : IntArg → Option ℤ
  | .int n => some n
  | .str s => str2int s

/-! ## The range tree -/

/-- From the start of a range to its end and its data. -/
abbrev RangeTree := OrderedMap ℤ (ℤ × Text)

namespace RangeTree

def setItem (tree : RangeTree) (start stop : ℤ) (data : Text) : RangeTree :=
  (tree.erase start).emplace start (stop, data)

def ceilingItem (tree : RangeTree) (key : ℤ) : Option (ℤ × ℤ × Text) :=
  tree.entries.find? fun e => key ≤ e.1

/-- `none` is the `KeyError` of a search that finds nothing. -/
def isOverlap (tree : RangeTree) (start stop : ℤ) : Option Bool :=
  match tree.entries.head?, tree.entries.getLast? with
  | some (minStart, _), some (maxStart, maxEnd, _) =>
    if stop < minStart then some false
    else if start ≤ minStart then some true
    else do
      let (_, leftEnd, _) ← tree.floorEntry start
      if start ≤ leftEnd then some true
      else if maxEnd < start then some false
      else if maxStart ≤ stop then some true
      else do
        let (rightStart, _) ← tree.ceilingItem start
        some (decide (rightStart ≤ stop))
  | _, _ => some false

end RangeTree

inductive AddOutcome
  | added (tree : RangeTree)
  | valueError
  | keyError
  | assertionError

def AddOutcome.tree? : AddOutcome → Option RangeTree
  | added tree => some tree
  | _ => none

structure AddCall where
  start : IntArg
  stop : IntArg
  data : Text

def AddCall.range? (c : AddCall) : Option (ℤ × ℤ × Text) := do
  let start ← c.start.value
  let stop ← c.stop.value
  some (start, stop, c.data)

namespace RangeTree

def addRange (tree : RangeTree) (c : AddCall) : AddOutcome :=
  match c.range? with
  | none => .valueError
  | some (start, stop, data) =>
    match tree.isOverlap start stop with
    | none => .keyError
    | some true => .assertionError
    | some false => .added (tree.setItem start stop data)

/-- `none` is any of the exceptions. -/
def addRangeToTree (tree : RangeTree) (start stop data : Text) : Option RangeTree :=
  (tree.addRange ⟨.str start, .str stop, data⟩).tree?

/-- `queryTree`; the outer `none` is the `KeyError` of `floor_item`. -/
def queryTreeItem (tree : RangeTree) (proxyKey : ℤ) : Option (Option (ℤ × ℤ × Text)) :=
  match tree.entries.head? with
  | none => some none
  | some (minKey, _) =>
    if proxyKey < minKey then some none
    else do
      let (leftStart, leftEnd, data) ← tree.floorEntry proxyKey
      some (if proxyKey ≤ leftEnd then some (leftStart, leftEnd, data) else none)

def queryTree (tree : RangeTree) (proxyKey : ℤ) : Option (ℤ × ℤ × Text) :=
  (tree.queryTreeItem proxyKey).join

def bci2line (tree : RangeTree) (bci : Text) : Option (Option Text) :=
  (str2int bci).map fun key => (tree.queryTree key).map fun range => range.2.2

end RangeTree

/-! ## Writing and loading the ranges -/

structure RangeXml where
  start : Text
  stop : Text
  data : Text

def rangeXml (r : Range ℤ) : RangeXml :=
  ⟨Nat.toDigits 10 r.start, Nat.toDigits 10 r.stop, intText r.data⟩

/-- The children of `bci2line` in the dump of a method; without any, the element is not
written, and none is loaded. -/
def bci2lineXml (s : RangeSet ℤ) : List RangeXml := s.entries.map fun e => rangeXml e.2

def loadRanges (tree : RangeTree) (ranges : List RangeXml) : Option RangeTree :=
  ranges.foldlM (fun tree range => tree.addRangeToTree range.start range.stop range.data) tree

def loadBci2line (ranges : List RangeXml) : Option RangeTree := loadRanges .empty ranges

/-! ## The line of a bytecode index -/

def LineAt (table : List LineEntry) (bci : ℕ) (line : ℤ) : Prop :=
  ∃ x ∈ table, x.lineNumber = line ∧ x.startLocation ≤ bci ∧
    ∀ y ∈ table, y.startLocation ≤ bci → y.startLocation ≤ x.startLocation

def MapsLines (startLocation endLocation : ℤ) (table : List LineEntry) : Prop :=
  ∃ s, loadBCILineTable false ⟨some (startLocation, endLocation), some table⟩ .empty = some s ∧
    s.PairwiseDisjoint ∧
    ∃ tree, loadBci2line (bci2lineXml s) = some tree ∧
      ∀ bci : ℕ, (bci : ℤ) ≤ endLocation → (∃ x ∈ table, x.startLocation ≤ bci) →
        ∃ line, LineAt table bci line ∧ s.getData bci = some line ∧
          tree.bci2line (Nat.toDigits 10 bci) = some (some (intText line))

/-! ## Loading ranges that come in order -/

theorem str2int_toDigits (n : ℕ) : str2int (Nat.toDigits 10 n) = some (n : ℤ) := by
  unfold str2int
  split
  · next s h =>
    have hx : 'x'.isDigit = true :=
      Nat.isDigit_of_mem_toDigits (b := 10) (n := n) (by decide) le_rfl (by rw [h]; simp)
    exact absurd hx (by decide)
  · exact pyInt_toDigits n

namespace RangeTree
variable {tree : RangeTree} {start stop : ℤ} {data : Text}

theorem isOverlap_of_after (h : ∀ a ∈ tree.entries, a.1 < start ∧ a.2.1 < start)
    (hle : start ≤ stop) : tree.isOverlap start stop = some false := by
  have hfloor : tree.floorEntry start = tree.entries.getLast? :=
    OrderedMap.floorEntry_of_le fun a ha => (h a ha).1.le
  unfold isOverlap
  cases hmin : tree.entries.head? with
  | none => rfl
  | some first =>
    cases hmax : tree.entries.getLast? with
    | none => rfl
    | some last =>
      obtain ⟨hfirst, -⟩ := h first (List.mem_of_head? hmin)
      obtain ⟨-, hlast⟩ := h last (List.mem_of_getLast? hmax)
      have hbefore : ¬stop < first.1 := (hfirst.trans_le hle).le.not_gt
      simp only [hfloor, hmax, if_neg hbefore, if_neg hfirst.not_ge, Option.bind_eq_bind,
        Option.bind_some, if_neg hlast.not_ge, if_pos hlast]

theorem addRangeToTree_of_free {lo hi : Text} (hstart : str2int lo = some start)
    (hstop : str2int hi = some stop) (hfree : tree.isOverlap start stop = some false) :
    tree.addRangeToTree lo hi data = some (tree.setItem start stop data) := by
  have hrange : AddCall.range? ⟨.str lo, .str hi, data⟩ = some (start, stop, data) := by
    simp [AddCall.range?, IntArg.value, hstart, hstop]
  rw [addRangeToTree, addRange, hrange]
  dsimp only
  rw [hfree]
  rfl

theorem setItem_entries (h : ∀ a ∈ tree.entries, a.1 < start) :
    (tree.setItem start stop data).entries = tree.entries ++ [(start, stop, data)] := by
  change OrderedMap.emplaceEntries start (stop, data) (tree.erase start).entries = _
  rw [OrderedMap.erase_of_lt h, OrderedMap.emplaceEntries_of_lt h]

end RangeTree

def treeItem (e : ℕ × Range ℤ) : ℤ × ℤ × Text := (e.1, e.2.stop, intText e.2.data)

theorem loadRanges_entries (es : List (ℕ × Range ℤ)) (tree : RangeTree)
    (hkey : ∀ e ∈ es, e.1 = e.2.start ∧ e.2.start ≤ e.2.stop)
    (hsep : es.Pairwise fun a b => a.1 < b.1 ∧ a.2.stop < b.1)
    (hafter : ∀ t ∈ tree.entries, ∀ e ∈ es, t.1 < e.1 ∧ t.2.1 < e.1) :
    ∃ tree', loadRanges tree (es.map fun e => rangeXml e.2) = some tree' ∧
      tree'.entries = tree.entries ++ es.map treeItem := by
  induction es generalizing tree with
  | nil => exact ⟨tree, rfl, by simp⟩
  | cons e es ih =>
    obtain ⟨⟨hstart, hle⟩, hkeys⟩ := List.forall_mem_cons.mp hkey
    obtain ⟨hhead, hrest⟩ := List.pairwise_cons.mp hsep
    have hnew : ∀ t ∈ tree.entries, t.1 < e.2.start ∧ t.2.1 < e.2.start := by
      intro t ht
      rw [← hstart]
      exact hafter t ht e List.mem_cons_self
    set next := tree.setItem e.2.start e.2.stop (intText e.2.data) with hnext
    have hentries : next.entries = tree.entries ++ [treeItem e] := by
      rw [hnext, RangeTree.setItem_entries fun t ht => (hnew t ht).1, ← hstart, treeItem]
    have hadd : tree.addRangeToTree (rangeXml e.2).start (rangeXml e.2).stop (rangeXml e.2).data =
        some next := by
      have hover : tree.isOverlap e.2.start e.2.stop = some false :=
        RangeTree.isOverlap_of_after hnew (by exact_mod_cast hle)
      exact RangeTree.addRangeToTree_of_free (str2int_toDigits _) (str2int_toDigits _) hover
    obtain ⟨tree', hload, htree'⟩ := ih next hkeys hrest (by
      intro t ht e' he'
      rw [hentries] at ht
      obtain ht | ht := List.mem_append.mp ht
      · exact hafter t ht e' (List.mem_cons_of_mem _ he')
      · obtain ⟨hlt, hstop⟩ := hhead e' he'
        rw [List.mem_singleton.mp ht]
        exact ⟨Int.ofNat_lt.mpr hlt, Int.ofNat_lt.mpr hstop⟩)
    refine ⟨tree', ?_, ?_⟩
    · simpa only [loadRanges, List.map_cons, List.foldlM_cons, hadd, Option.bind_eq_bind,
        Option.bind_some] using hload
    · rw [htree', hentries, List.map_cons, List.append_assoc, List.singleton_append]

section Table
variable {startLocation endLocation : ℤ} {table : List LineEntry} {s : RangeSet ℤ}
variable {tree : RangeTree} {bci : ℕ}

theorem loadBci2line_entries (hs : lineLoop endLocation table .empty = some s)
    (hdisjoint : s.PairwiseDisjoint) :
    ∃ tree, loadBci2line (bci2lineXml s) = some tree ∧ tree.entries = s.entries.map treeItem := by
  have hwf : ∀ e ∈ s.entries, e.1 = e.2.start ∧ e.2.start ≤ e.2.stop := by
    intro e he
    obtain ⟨hkey, hkept⟩ := (mem_lineLoop hs e).mp he
    exact ⟨hkey, stretch_le (mem_of_kept hkept)⟩
  have hsep : s.entries.Pairwise fun a b => a.1 < b.1 ∧ a.2.stop < b.1 := by
    apply s.sorted.imp_of_mem
    intro a b ha hb hlt
    refine ⟨hlt, ?_⟩
    by_contra hstop
    obtain ⟨hakey, -⟩ := hwf a ha
    obtain ⟨hbkey, hble⟩ := hwf b hb
    have heq : a = b := hdisjoint a ha b hb b.1
      ⟨by rw [← hakey]; exact hlt.le, not_lt.mp hstop⟩ ⟨hbkey.ge, by rw [hbkey]; exact hble⟩
    exact hlt.ne (congrArg Prod.fst heq)
  obtain ⟨tree, hload, htree⟩ := loadRanges_entries s.entries .empty hwf hsep (by
    intro t ht
    cases ht)
  exact ⟨tree, hload, htree⟩

theorem bci2line_of_floorEntry {e : ℕ × Range ℤ} (htree : tree.entries = s.entries.map treeItem)
    (hfloor : s.floorEntry bci = some e) (hstop : bci ≤ e.2.stop) :
    tree.bci2line (Nat.toDigits 10 bci) = some (some (intText e.2.data)) := by
  obtain ⟨hmem, hle, -⟩ := OrderedMap.floorEntry_eq_some.mp hfloor
  have hitem : tree.floorEntry (bci : ℤ) = some (treeItem e) := by
    have hkeys : (fun a : ℤ × ℤ × Text => decide (a.1 ≤ (bci : ℤ))) ∘ treeItem =
        fun a : ℕ × Range ℤ => decide (a.1 ≤ bci) := by
      funext a
      simp [treeItem]
    rw [OrderedMap.floorEntry] at hfloor ⊢
    rw [htree, List.takeWhile_map, hkeys, List.getLast?_map, hfloor, Option.map_some]
  unfold RangeTree.bci2line RangeTree.queryTree RangeTree.queryTreeItem
  rw [str2int_toDigits, Option.map_some]
  cases hhead : tree.entries.head? with
  | none =>
    rw [List.head?_eq_none_iff, htree, List.map_eq_nil_iff] at hhead
    rw [hhead] at hmem
    cases hmem
  | some first =>
    have hfirst : first.1 ≤ (bci : ℤ) := by
      obtain ⟨rest, hrest⟩ := List.head?_eq_some_iff.mp hhead
      have hsorted := tree.sorted
      have hin : treeItem e ∈ tree.entries := htree ▸ List.mem_map_of_mem hmem
      rw [hrest] at hsorted hin
      have hitemle : (treeItem e).1 ≤ (bci : ℤ) := Int.ofNat_le.mpr hle
      obtain hin | hin := List.mem_cons.mp hin
      · exact hin ▸ hitemle
      · exact ((List.pairwise_cons.mp hsorted).1 _ hin).le.trans hitemle
    have hend : (bci : ℤ) ≤ e.2.stop := by exact_mod_cast hstop
    simp only [if_neg hfirst.not_gt, hitem, treeItem, if_pos hend, Option.bind_eq_bind,
      Option.bind_some, Option.join_some, Option.map_some]

theorem eachOnce_of_mapsLines (hend : ∀ x ∈ table, (x.startLocation : ℤ) ≤ endLocation)
    (h : MapsLines startLocation endLocation table) : EachOnce endLocation table := by
  obtain ⟨s, hs, hdisjoint, tree, -, hlines⟩ := h
  replace hs : lineLoop endLocation table .empty = some s := hs
  intro x hx
  obtain ⟨line, ⟨y, hy, hline, hyx, hmax⟩, hdata, -⟩ :=
    hlines x.startLocation (hend x hx) ⟨x, hx, le_rfl⟩
  obtain ⟨r, hr, hholds, hrline⟩ := kept_of_getData hs hdata
  have hstart : y.startLocation = x.startLocation := le_antisymm hyx (hmax x hx le_rfl)
  refine ⟨r, hr, hholds, ⟨y, hy, hstart, hline.trans hrline.symm⟩, ?_⟩
  intro q hq hqx
  have hmem : ∀ p, Kept endLocation table p → (p.start, p) ∈ s.entries := fun p hp =>
    (mem_lineLoop hs _).mpr ⟨rfl, hp⟩
  exact congrArg Prod.snd (hdisjoint _ (hmem q hq) _ (hmem r hr) _ hqx hholds)

/-- The stretch that holds the greatest start up to `bci` reaches as far as `bci`. -/
theorem lineAt_of_eachOnce (h : EachOnce endLocation table) (hle : (bci : ℤ) ≤ endLocation)
    (hsome : ∃ x ∈ table, x.startLocation ≤ bci) :
    ∃ r, Kept endLocation table r ∧ r.Holds bci ∧ LineAt table bci r.data := by
  have hnonempty : (table.filter fun y => y.startLocation ≤ bci).toFinset.Nonempty := by
    obtain ⟨x, hx, hxb⟩ := hsome
    exact ⟨x, by simp [hx, hxb]⟩
  obtain ⟨x, hx, hmax⟩ := Finset.exists_max_image _ LineEntry.startLocation hnonempty
  simp only [List.mem_toFinset, List.mem_filter, decide_eq_true_eq] at hx hmax
  obtain ⟨r, hr, hholds, ⟨y, hy, hyx, hline⟩, -⟩ := h x hx.1
  refine ⟨r, hr, ⟨hholds.1.trans hx.2, ?_⟩, y, hy, hline, hyx ▸ hx.2, ?_⟩
  · by_contra hlt
    obtain ⟨z, hz, hstop⟩ | hstop := stop_spec (mem_of_kept hr)
    · have hzx := hmax z ⟨hz, by omega⟩
      have := hholds.2
      omega
    · omega
  · intro z hz hzb
    rw [hyx]
    exact hmax z ⟨hz, hzb⟩

theorem mapsLines_iff (hend : ∀ x ∈ table, (x.startLocation : ℤ) ≤ endLocation) :
    MapsLines startLocation endLocation table ↔ EachOnce endLocation table := by
  constructor
  · exact eachOnce_of_mapsLines hend
  · intro h
    have hs : lineLoop endLocation table .empty = some _ := lineLoop_eq
    have hdisjoint := h.pairwiseDisjoint hs
    obtain ⟨tree, hload, htree⟩ := loadBci2line_entries hs hdisjoint
    refine ⟨_, hs, hdisjoint, tree, hload, ?_⟩
    intro bci hle hsome
    obtain ⟨r, hr, hholds, hline⟩ := lineAt_of_eachOnce h hle hsome
    obtain ⟨hfloor, hdata⟩ := getData_of_kept hs hdisjoint hr hholds
    exact ⟨r.data, hline, hdata, bci2line_of_floorEntry htree hfloor hholds.2⟩

end Table

def repeatedStart : List LineEntry := [⟨0, 10⟩, ⟨3, 11⟩, ⟨3, 12⟩, ⟨7, 13⟩]

theorem mapsLines_repeatedStart : MapsLines 0 9 repeatedStart := by
  have hend : ∀ x ∈ repeatedStart, (x.startLocation : ℤ) ≤ 9 := by decide
  exact (mapsLines_iff hend).mpr (eachOnce_of_sorted (by decide) hend)

def backwardStart : List LineEntry := [⟨0, 10⟩, ⟨5, 20⟩, ⟨2, 30⟩]

/-- The ranges `[0, 4]` and `[2, 10]` overlap, and the second one does not load. -/
theorem not_mapsLines_backwardStart : (∀ x ∈ backwardStart, (x.startLocation : ℤ) ≤ 10) ∧
    ¬MapsLines 0 10 backwardStart ∧
    ((lineLoop 10 backwardStart .empty).bind fun s => loadBci2line (bci2lineXml s)).isNone := by
  refine ⟨by decide, ?_, by decide +kernel⟩
  rintro ⟨s, hs, hdisjoint, -⟩
  have hmem : ∀ r, Kept 10 backwardStart r → (r.start, r) ∈ s.entries := fun r hr =>
    (mem_lineLoop hs _).mpr ⟨rfl, hr⟩
  have heq := hdisjoint _ (hmem ⟨0, 4, 10⟩ rfl) _ (hmem ⟨2, 10, 30⟩ rfl) 2
    ⟨by decide, by decide⟩ ⟨by decide, by decide⟩
  exact absurd (congrArg Prod.fst heq) (by decide)

end Trace4J.Offline
