import Mathlib.Data.Int.ConditionallyCompleteOrder
import Mathlib.Order.ConditionallyCompleteLattice.Basic
import Trace4J.Library.IntervalMap
import Trace4J.Offline.BciLines

/-!
# The range tree of a method

`addRangeToTree` and `queryTree` over a whole sequence of calls: which ranges are accepted,
and which one a query finds.
-/

namespace Trace4J.Offline
open Library

def AddCall.InOrder (c : AddCall) : Prop := ∀ r ∈ c.range?, r.1 ≤ r.2.1

namespace RangeTree

variable {tree : RangeTree} {start stop key : ℤ} {r : ℤ × ℤ × Text}

/-! ## The range above a key -/

theorem ceilingItem_of_mem (hr : r ∈ tree.entries) (hle : key ≤ r.1) :
    ∃ right ∈ tree.entries, tree.ceilingItem key = some right ∧ key ≤ right.1 ∧
      ∀ a ∈ tree.entries, key ≤ a.1 → right.1 ≤ a.1 := by
  cases h : tree.ceilingItem key with
  | none =>
    rw [ceilingItem, List.find?_eq_none] at h
    exact absurd hle (by simpa using h r hr)
  | some right =>
    obtain ⟨hright, before, after, hentries, hbefore⟩ := List.find?_eq_some_iff_append.mp h
    refine ⟨right, by simp [hentries], rfl, by simpa using hright, ?_⟩
    intro a ha hka
    have hsorted := tree.sorted
    rw [hentries] at ha hsorted
    obtain ha | ha := List.mem_append.mp ha
    · exact absurd hka (by simpa using hbefore a ha)
    · obtain rfl | ha := List.mem_cons.mp ha
      · exact le_rfl
      · exact ((List.pairwise_cons.mp (List.pairwise_append.mp hsorted).2.1).1 a ha).le

/-! ## Queries -/

theorem queryTreeItem_eq_holding :
    tree.queryTreeItem key = some (tree.holding Prod.fst key) := by
  unfold queryTreeItem OrderedMap.holding
  cases hmin : tree.entries.head? with
  | none =>
    rw [List.head?_eq_none_iff] at hmin
    simp [OrderedMap.floorEntry, hmin]
  | some first =>
    dsimp only
    split_ifs with hlt
    · -- nothing starts up to the key
      cases hfloor : tree.floorEntry key with
      | none => rfl
      | some left =>
        obtain ⟨hmem, hle, -⟩ := OrderedMap.floorEntry_eq_some.mp hfloor
        have hfirst := OrderedMap.le_of_head? hmin hmem
        exact absurd (hfirst.trans hle) hlt.not_ge
    · obtain ⟨left, hleft⟩ :=
        OrderedMap.exists_floorEntry (List.mem_of_head? hmin) (not_lt.mp hlt)
      rw [hleft]
      simp [Option.filter]

theorem queryTree_eq_holding : tree.queryTree key = tree.holding Prod.fst key := by
  rw [queryTree, queryTreeItem_eq_holding, Option.join_some]

/-! ## The overlap test -/

/-- Each exit has ruled out or found the range that meets the new one. -/
theorem isOverlap_eq (h : tree.Separated Prod.fst) (hle : start ≤ stop) :
    ∃ overlap, tree.isOverlap start stop = some overlap ∧
      (overlap = true ↔ ∃ r ∈ tree.entries, OrderedMap.Meets Prod.fst start stop r) := by
  have hnone : (∀ r ∈ tree.entries, stop < r.1 ∨ r.2.1 < start) →
      (false = true ↔ ∃ r ∈ tree.entries, OrderedMap.Meets Prod.fst start stop r) := by
    intro hall
    apply iff_of_false Bool.false_ne_true
    intro hex
    obtain ⟨r, hr, hmeets⟩ := hex
    exact (hall r hr).elim (fun hlt => hlt.not_ge hmeets.1) fun hlt => hlt.not_ge hmeets.2
  have hsome : ∀ r ∈ tree.entries, r.1 ≤ stop → start ≤ r.2.1 →
      (true = true ↔ ∃ r ∈ tree.entries, OrderedMap.Meets Prod.fst start stop r) :=
    fun r hr hstop hstart => iff_of_true rfl ⟨r, hr, hstop, hstart⟩
  unfold isOverlap
  cases hmin : tree.entries.head? with
  | none =>
    rw [List.head?_eq_none_iff] at hmin
    refine ⟨false, rfl, hnone ?_⟩
    simp [hmin]
  | some first =>
    have hfirst := List.mem_of_head? hmin
    cases hmax : tree.entries.getLast? with
    | none =>
      rw [List.getLast?_eq_none_iff] at hmax
      rw [hmax] at hfirst
      cases hfirst
    | some last =>
      have hlast := List.mem_of_getLast? hmax
      dsimp only
      by_cases hbefore : stop < first.1
      · refine ⟨false, if_pos hbefore, hnone fun r hr => .inl ?_⟩
        exact hbefore.trans_le (OrderedMap.le_of_head? hmin hr)
      by_cases hcover : start ≤ first.1
      · rw [if_neg hbefore, if_pos hcover]
        exact ⟨true, rfl, hsome first hfirst (not_lt.mp hbefore)
          (hcover.trans (h.start_le first hfirst))⟩
      obtain ⟨left, hleft⟩ := OrderedMap.exists_floorEntry hfirst (not_le.mp hcover).le
      obtain ⟨hleftMem, hleftLe, hleftMax⟩ := OrderedMap.floorEntry_eq_some.mp hleft
      rw [if_neg hbefore, if_neg hcover, hleft, Option.bind_eq_bind, Option.bind_some]
      by_cases hover : start ≤ left.2.1
      · exact ⟨true, if_pos hover, hsome left hleftMem (hleftLe.trans hle) hover⟩
      by_cases hafter : last.2.1 < start
      · rw [if_neg hover, if_pos hafter]
        refine ⟨false, rfl, hnone fun r hr => .inr ?_⟩
        exact (h.stop_le_of_le hr hlast (OrderedMap.le_of_getLast? hmax hr)).trans_lt hafter
      by_cases hreach : last.1 ≤ stop
      · rw [if_neg hover, if_neg hafter, if_pos hreach]
        exact ⟨true, rfl, hsome last hlast hreach (not_lt.mp hafter)⟩
      obtain ⟨right, hrightMem, hright, hrightGe, hrightMin⟩ :=
        ceilingItem_of_mem hlast (hle.trans (not_le.mp hreach).le)
      rw [if_neg hover, if_neg hafter, if_neg hreach, hright, Option.bind_some]
      refine ⟨_, rfl, ?_⟩
      by_cases hend : right.1 ≤ stop
      · rw [decide_eq_true hend]
        exact hsome right hrightMem hend (hrightGe.trans (h.start_le right hrightMem))
      · rw [decide_eq_false hend]
        refine hnone fun r hr => ?_
        obtain hrs | hrs := le_total r.1 start
        · have hstop := h.stop_le_of_le hr hleftMem (hleftMax r hr hrs)
          exact .inr (hstop.trans_lt (not_le.mp hover))
        · exact .inl ((not_le.mp hend).trans_le (hrightMin r hr hrs))

theorem setItem_of_free (hfree : ∀ a ∈ tree.entries, a.1 ≠ start) (data : Text) :
    tree.setItem start stop data = tree.emplace start (stop, data) := by
  have hkeep : tree.erase start = tree := by
    cases tree with
    | mk entries sorted =>
      simp only [OrderedMap.erase, OrderedMap.mk.injEq, List.filter_eq_self]
      exact fun a ha => decide_eq_true (hfree a ha)
  rw [setItem, hkeep]

end RangeTree

/-! ## Sequences of calls -/

/-- A tree and, in the order of the calls, the ranges that were accepted. -/
structure Accepting where
  tree : RangeTree
  accepted : List (ℤ × ℤ × Text)

def span (r : ℤ × ℤ × Text) : Set ℤ := Set.Icc r.1 r.2.1

namespace Accepting

def init : Accepting := ⟨.empty, []⟩

/-- A call that raises leaves the tree as it is. -/
def call (s : Accepting) (c : AddCall) : Accepting :=
  match s.tree.addRange c with
  | .added tree => ⟨tree, s.accepted ++ c.range?.toList⟩
  | _ => s

def run (calls : List AddCall) : Accepting := calls.foldl call init

structure Sound (s : Accepting) : Prop where
  separated : s.tree.Separated Prod.fst
  mem_entries : ∀ r, r ∈ s.tree.entries ↔ r ∈ s.accepted
  disjoint : s.accepted.Pairwise fun a b => Disjoint (span a) (span b)

variable {s : Accepting} {c : AddCall} {r : ℤ × ℤ × Text}

theorem Sound.disjoint_iff (h : s.Sound) (hle : r.1 ≤ r.2.1) :
    (∀ a ∈ s.accepted, Disjoint (span a) (span r)) ↔
      ∀ a ∈ s.tree.entries, ¬OrderedMap.Meets Prod.fst r.1 r.2.1 a := by
  apply forall_congr'
  intro a
  rw [h.mem_entries]
  apply imp_congr_right
  intro ha
  exact OrderedMap.disjoint_iff_not_meets (h.separated.start_le a ((h.mem_entries a).mpr ha)) hle

theorem Sound.addRange_cases (h : s.Sound) (hc : c.InOrder) :
    (c.range? = none ∧ s.tree.addRange c = .valueError) ∨
    (∃ r, c.range? = some r ∧ (¬∀ a ∈ s.accepted, Disjoint (span a) (span r)) ∧
      s.tree.addRange c = .assertionError) ∨
    (∃ r, c.range? = some r ∧ r.1 ≤ r.2.1 ∧ (∀ a ∈ s.accepted, Disjoint (span a) (span r)) ∧
      s.tree.addRange c = .added (s.tree.emplace r.1 r.2)) := by
  unfold RangeTree.addRange
  cases hrange : c.range? with
  | none => exact .inl ⟨rfl, rfl⟩
  | some r =>
    right
    have hle : r.1 ≤ r.2.1 := hc r hrange
    obtain ⟨overlap, hoverlap, hmeets⟩ := RangeTree.isOverlap_eq h.separated hle
    have hdisjoint := h.disjoint_iff hle
    dsimp only
    rw [hoverlap]
    cases overlap with
    | true =>
      left
      refine ⟨r, rfl, ?_, rfl⟩
      obtain ⟨a, ha, hmeet⟩ := hmeets.mp rfl
      rw [hdisjoint]
      exact fun hall => hall a ha hmeet
    | false =>
      right
      have hfree : ∀ a ∈ s.tree.entries, ¬OrderedMap.Meets Prod.fst r.1 r.2.1 a := by
        intro a ha hmeet
        exact Bool.false_ne_true (hmeets.mpr ⟨a, ha, hmeet⟩)
      refine ⟨r, rfl, hle, hdisjoint.mpr hfree, ?_⟩
      dsimp only
      rw [RangeTree.setItem_of_free (h.separated.ne_start hle hfree)]

theorem sound_init : init.Sound :=
  ⟨OrderedMap.separated_empty, fun _ => Iff.rfl, List.Pairwise.nil⟩

theorem Sound.call (h : s.Sound) (hc : c.InOrder) : (s.call c).Sound := by
  unfold Accepting.call
  obtain ⟨-, hadd⟩ | ⟨r, -, -, hadd⟩ | ⟨r, hrange, hle, hdisjoint, hadd⟩ := h.addRange_cases hc
  · rw [hadd]
    exact h
  · rw [hadd]
    exact h
  · have hfree := (h.disjoint_iff hle).mp hdisjoint
    rw [hadd, hrange]
    constructor
    · exact h.separated.emplace hle hfree
    · intro a
      have hnew : a = (r.1, r.2) ∧ (∀ b ∈ s.tree.entries, b.1 ≠ r.1) ↔ a = r :=
        and_iff_left (h.separated.ne_start hle hfree)
      rw [OrderedMap.mem_emplace, hnew, h.mem_entries]
      simp
    · rw [Option.toList_some, List.pairwise_append]
      refine ⟨h.disjoint, List.pairwise_singleton _ _, ?_⟩
      intro a ha b hb
      rw [List.mem_singleton.mp hb]
      exact hdisjoint a ha

theorem sound_run {calls : List AddCall} (hcalls : ∀ c ∈ calls, c.InOrder) :
    (run calls).Sound := by
  induction calls using List.reverseRecOn with
  | nil => exact sound_init
  | append_singleton calls c ih =>
    rw [run, List.foldl_concat]
    apply Sound.call
    · exact ih fun c hc => hcalls c (List.mem_append_left _ hc)
    · exact hcalls c (by simp)

end Accepting

theorem rangeTree_accepts_disjoint (calls : List AddCall) (hcalls : ∀ c ∈ calls, c.InOrder) :
    (Accepting.run calls).accepted.Pairwise (fun a b => Disjoint (span a) (span b)) ∧
    (∀ c : AddCall, c.InOrder →
      (Accepting.run calls).tree.addRange c ≠ .keyError ∧
      ((∃ tree, (Accepting.run calls).tree.addRange c = .added tree) ↔
        ∃ r, c.range? = some r ∧
          ∀ a ∈ (Accepting.run calls).accepted, Disjoint (span a) (span r))) ∧
    ∀ key, ∃ found, (Accepting.run calls).tree.queryTreeItem key = some found ∧
      ∀ r, found = some r ↔ r ∈ (Accepting.run calls).accepted ∧ key ∈ span r := by
  have hsound := Accepting.sound_run hcalls
  refine ⟨hsound.disjoint, ?_, ?_⟩
  · intro c hc
    obtain ⟨hrange, hadd⟩ | ⟨r, hrange, hmeets, hadd⟩ | ⟨r, hrange, -, hdisjoint, hadd⟩ :=
      hsound.addRange_cases hc
    · simp [hadd, hrange]
    · simp only [hadd, hrange, Option.some.injEq, exists_eq_left', reduceCtorEq, exists_false,
        ne_eq, not_false_eq_true, true_and, false_iff]
      exact hmeets
    · simp only [hadd, hrange, Option.some.injEq, exists_eq_left', reduceCtorEq, ne_eq,
        not_false_eq_true, true_and]
      exact iff_of_true ⟨_, rfl⟩ hdisjoint
  · intro key
    refine ⟨_, RangeTree.queryTreeItem_eq_holding, ?_⟩
    intro r
    rw [hsound.separated.holding_eq_some, hsound.mem_entries]
    exact Iff.rfl

def meetingCalls : List AddCall :=
  [⟨.str "10".toList, .str "0x14".toList, ['1']⟩, ⟨.int 20, .int 30, ['2']⟩,
    ⟨.int 21, .str "30".toList, ['3']⟩]

/-- The second range shares one key with the first, and the third one is free of both. -/
theorem rangeTree_accepts_meetingCalls :
    (Accepting.run meetingCalls).accepted = [(10, 20, ['1']), (21, 30, ['3'])] ∧
    (∀ key, ∃ found, (Accepting.run meetingCalls).tree.queryTreeItem key = some found ∧
      ∀ r, found = some r ↔ r ∈ (Accepting.run meetingCalls).accepted ∧ key ∈ span r) :=
  ⟨by decide +kernel,
    (rangeTree_accepts_disjoint meetingCalls (by
      unfold AddCall.InOrder meetingCalls
      decide +kernel)).2.2⟩

end Trace4J.Offline
