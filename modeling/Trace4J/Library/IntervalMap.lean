import Mathlib.Data.Set.Lattice
import Mathlib.Order.CompletePartialOrder
import Mathlib.Order.Interval.Set.Basic
import Trace4J.Library.OrderedMap

/-!
# Maps of intervals

An ordered map whose values carry the end of an interval that starts at the key. When the
intervals are apart, the entry before the first key above a given one is the only entry
that can hold it.
-/

namespace Trace4J.Library.OrderedMap
variable {K V : Type*} [LinearOrder K]

structure Separated (stop : V → K) (m : OrderedMap K V) : Prop where
  start_le : ∀ e ∈ m.entries, e.1 ≤ stop e.2
  lt_start : m.entries.Pairwise fun a b => stop a.2 < b.1

def Meets (stop : V → K) (lo hi : K) (e : K × V) : Prop := e.1 ≤ hi ∧ lo ≤ stop e.2

def holding (stop : V → K) (m : OrderedMap K V) (k : K) : Option (K × V) :=
  (m.floorEntry k).filter fun e => k ≤ stop e.2

variable {stop : V → K} {m : OrderedMap K V} {e a b : K × V} {k lo hi : K} {v : V}

theorem disjoint_iff_not_meets (he : e.1 ≤ stop e.2) (hle : lo ≤ hi) :
    Disjoint (Set.Icc e.1 (stop e.2)) (Set.Icc lo hi) ↔ ¬Meets stop lo hi e := by
  rw [← not_iff_not, not_not, Set.not_disjoint_iff]
  constructor
  · intro h
    obtain ⟨x, hx, hk⟩ := h
    exact ⟨hx.1.trans hk.2, hk.1.trans hx.2⟩
  · intro h
    exact ⟨max e.1 lo, ⟨le_max_left _ _, max_le he h.2⟩, le_max_right _ _, max_le h.1 hle⟩

namespace Separated
variable (h : m.Separated stop)
include h

theorem stop_lt_of_lt (ha : a ∈ m.entries) (hb : b ∈ m.entries) (hlt : a.1 < b.1) :
    stop a.2 < b.1 := by
  obtain ⟨before, after, hentries⟩ := List.append_of_mem ha
  have hsorted := m.sorted
  have hstart := h.lt_start
  rw [hentries] at hb hsorted hstart
  obtain hb | hb := List.mem_append.mp hb
  · have hback := (List.pairwise_append.mp hsorted).2.2 b hb a List.mem_cons_self
    exact absurd hlt hback.not_gt
  · obtain rfl | hb := List.mem_cons.mp hb
    · exact absurd hlt (lt_irrefl _)
    · exact (List.pairwise_cons.mp (List.pairwise_append.mp hstart).2.1).1 b hb

theorem stop_le_of_le (ha : a ∈ m.entries) (hb : b ∈ m.entries) (hle : a.1 ≤ b.1) :
    stop a.2 ≤ stop b.2 := by
  obtain hlt | heq := hle.lt_or_eq
  · exact (h.stop_lt_of_lt ha hb hlt).le.trans (h.start_le b hb)
  · rw [eq_of_mem ha hb heq]

theorem holding_eq_some : m.holding stop k = some e ↔
    e ∈ m.entries ∧ e.1 ≤ k ∧ k ≤ stop e.2 := by
  rw [holding, Option.filter_eq_some_iff, floorEntry_eq_some, decide_eq_true_iff]
  constructor
  · intro he
    exact ⟨he.1.1, he.1.2.1, he.2⟩
  · intro he
    refine ⟨⟨he.1, he.2.1, ?_⟩, he.2.2⟩
    intro a ha hak
    by_contra hlt
    have hstop := h.stop_lt_of_lt he.1 ha (not_le.mp hlt)
    exact hstop.not_ge (hak.trans he.2.2)

theorem emplace (hle : k ≤ stop v) (hfree : ∀ a ∈ m.entries, ¬Meets stop k (stop v) a) :
    (m.emplace k v).Separated stop := by
  constructor
  · intro e he
    obtain he | ⟨rfl, -⟩ := mem_emplace.mp he
    · exact h.start_le e he
    · exact hle
  · apply (m.emplace k v).sorted.imp_of_mem
    intro a b ha hb hlt
    obtain ha | ⟨rfl, -⟩ := mem_emplace.mp ha
    · obtain hb | ⟨rfl, -⟩ := mem_emplace.mp hb
      · exact h.stop_lt_of_lt ha hb hlt
      · by_contra hstop
        exact hfree a ha ⟨hlt.le.trans hle, not_lt.mp hstop⟩
    · obtain hb | ⟨rfl, -⟩ := mem_emplace.mp hb
      · by_contra hstop
        exact hfree b hb ⟨not_lt.mp hstop, hlt.le.trans (h.start_le b hb)⟩
      · exact absurd hlt (lt_irrefl _)

theorem ne_start (hle : k ≤ stop v) (hfree : ∀ a ∈ m.entries, ¬Meets stop k (stop v) a) :
    ∀ a ∈ m.entries, a.1 ≠ k := by
  intro a ha heq
  exact hfree a ha ⟨heq ▸ hle, heq ▸ h.start_le a ha⟩

end Separated

theorem separated_empty : (empty : OrderedMap K V).Separated stop :=
  ⟨fun e he => absurd he (by simp [empty]), List.Pairwise.nil⟩

end Trace4J.Library.OrderedMap
