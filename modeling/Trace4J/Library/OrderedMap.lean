import Mathlib.Data.List.Nodup
import Mathlib.Order.Lattice
import Mathlib.Tactic.Common

/-!
# Ordered maps

A map kept as a list with increasing keys, with an insertion that leaves an entry in
place when its key is taken, and the search for the entry before the first key above a
given one.
-/

namespace Trace4J.Library

structure OrderedMap (K V : Type*) [LinearOrder K] where
  entries : List (K × V)
  sorted : entries.Pairwise fun a b => a.1 < b.1

namespace OrderedMap
variable {K V : Type*} [LinearOrder K]

def empty : OrderedMap K V := ⟨[], List.Pairwise.nil⟩

def emplaceEntries (k : K) (v : V) : List (K × V) → List (K × V)
  | [] => [(k, v)]
  | e :: es =>
    if k < e.1 then (k, v) :: e :: es
    else if k = e.1 then e :: es
    else e :: emplaceEntries k v es

theorem mem_emplaceEntries {k : K} {v : V} {es : List (K × V)}
    (h : es.Pairwise fun a b => a.1 < b.1) {e : K × V} :
    e ∈ emplaceEntries k v es ↔ e ∈ es ∨ e = (k, v) ∧ ∀ a ∈ es, a.1 ≠ k := by
  induction es with
  | nil => simp [emplaceEntries]
  | cons a es ih =>
    obtain ⟨ha, hes⟩ := List.pairwise_cons.mp h
    rw [emplaceEntries]
    split_ifs with hlt heq
    · have hfree : ∀ b ∈ a :: es, b.1 ≠ k := by
        intro b hb
        obtain rfl | hb := List.mem_cons.mp hb
        · exact hlt.ne'
        · exact (hlt.trans (ha b hb)).ne'
      rw [List.mem_cons, and_iff_left hfree, or_comm]
    · have htaken : ¬∀ b ∈ a :: es, b.1 ≠ k := fun hall => hall a List.mem_cons_self heq.symm
      rw [or_iff_left fun h => htaken h.2]
    · rw [List.mem_cons, ih hes, List.mem_cons, List.forall_mem_cons]
      have hne : a.1 ≠ k := fun h => heq h.symm
      tauto

theorem emplaceEntries_sorted {k : K} {v : V} {es : List (K × V)}
    (h : es.Pairwise fun a b => a.1 < b.1) :
    (emplaceEntries k v es).Pairwise fun a b => a.1 < b.1 := by
  induction es with
  | nil => exact List.pairwise_singleton _ _
  | cons a es ih =>
    obtain ⟨ha, hes⟩ := List.pairwise_cons.mp h
    rw [emplaceEntries]
    split_ifs with hlt heq
    · refine List.pairwise_cons.mpr ⟨?_, h⟩
      intro b hb
      obtain rfl | hb := List.mem_cons.mp hb
      · exact hlt
      · exact hlt.trans (ha b hb)
    · exact h
    · refine List.pairwise_cons.mpr ⟨?_, ih hes⟩
      intro b hb
      rw [mem_emplaceEntries hes] at hb
      obtain hb | ⟨rfl, -⟩ := hb
      · exact ha b hb
      · exact lt_of_le_of_ne (not_lt.mp hlt) fun h => heq h.symm

def emplace (m : OrderedMap K V) (k : K) (v : V) : OrderedMap K V :=
  ⟨emplaceEntries k v m.entries, emplaceEntries_sorted m.sorted⟩

def erase (m : OrderedMap K V) (k : K) : OrderedMap K V :=
  ⟨m.entries.filter fun e => e.1 ≠ k, m.sorted.filter _⟩

def floorEntry (m : OrderedMap K V) (k : K) : Option (K × V) :=
  (m.entries.takeWhile fun e => e.1 ≤ k).getLast?

variable {m : OrderedMap K V} {k : K} {v : V} {e : K × V}

theorem mem_emplace : e ∈ (m.emplace k v).entries ↔
    e ∈ m.entries ∨ e = (k, v) ∧ ∀ a ∈ m.entries, a.1 ≠ k :=
  mem_emplaceEntries m.sorted

theorem mem_erase : e ∈ (m.erase k).entries ↔ e ∈ m.entries ∧ e.1 ≠ k := by
  simp [erase]

theorem emplaceEntries_of_lt {es : List (K × V)} (h : ∀ a ∈ es, a.1 < k) :
    emplaceEntries k v es = es ++ [(k, v)] := by
  induction es with
  | nil => rfl
  | cons a es ih =>
    obtain ⟨ha, hes⟩ := List.forall_mem_cons.mp h
    rw [emplaceEntries, if_neg ha.not_gt, if_neg ha.ne', ih hes, List.cons_append]

theorem erase_of_lt (h : ∀ a ∈ m.entries, a.1 < k) : (m.erase k).entries = m.entries := by
  rw [erase, List.filter_eq_self]
  intro a ha
  simpa using (h a ha).ne

/-- Of the pairs with one key the first one is kept. -/
theorem mem_foldl_emplace (es : List (K × V)) :
    e ∈ (es.foldl (fun m a => m.emplace a.1 a.2) m).entries ↔
      e ∈ m.entries ∨ (∀ a ∈ m.entries, a.1 ≠ e.1) ∧ es.find? (fun a => a.1 = e.1) = some e := by
  induction es generalizing m with
  | nil => simp
  | cons b es ih =>
    have hmem : (e ∈ m.entries ∧ (∀ a ∈ m.entries, a.1 ≠ e.1)) ↔ False :=
      iff_of_false (fun h => h.2 e h.1 rfl) id
    rw [List.foldl_cons, ih, mem_emplace, List.find?_cons]
    by_cases hb : b.1 = e.1
    · have htaken : ¬((∀ a ∈ (m.emplace b.1 b.2).entries, a.1 ≠ e.1) ∧
          es.find? (fun a => a.1 = e.1) = some e) := by
        rintro ⟨hfree, -⟩
        by_cases hin : ∀ a ∈ m.entries, a.1 ≠ b.1
        · exact hfree b (mem_emplace.mpr (.inr ⟨rfl, hin⟩)) hb
        · push Not at hin
          obtain ⟨a, ha, hab⟩ := hin
          exact hfree a (mem_emplace.mpr (.inl ha)) (hab.trans hb)
      rw [or_iff_left htaken, hb]
      simp only [decide_true, Option.some.injEq]
      have heq : e = (e.1, b.2) ↔ b = e := by
        rw [← hb, eq_comm]
      rw [heq]
      tauto
    · have hfree : (∀ a ∈ (m.emplace b.1 b.2).entries, a.1 ≠ e.1) ↔ ∀ a ∈ m.entries, a.1 ≠ e.1 := by
        constructor
        · exact fun h a ha => h a (mem_emplace.mpr (.inl ha))
        · intro h a ha
          obtain ha | ⟨rfl, -⟩ := mem_emplace.mp ha
          · exact h a ha
          · exact hb
      have hne : e ≠ (b.1, b.2) := by
        rintro rfl
        exact hb rfl
      rw [hfree]
      simp only [hb, hne, false_and, or_false, decide_false]

theorem eq_of_mem {a b : K × V} (ha : a ∈ m.entries) (hb : b ∈ m.entries) (h : a.1 = b.1) :
    a = b := by
  have hnodup : (m.entries.map Prod.fst).Nodup :=
    List.pairwise_map.mpr (m.sorted.imp fun hlt => hlt.ne)
  exact List.inj_on_of_nodup_map hnodup ha hb h

theorem takeWhile_eq_filter (es : List (K × V)) (h : es.Pairwise fun a b => a.1 < b.1) :
    (es.takeWhile fun e => e.1 ≤ k) = es.filter fun e => e.1 ≤ k := by
  induction es with
  | nil => rfl
  | cons a es ih =>
    obtain ⟨ha, hes⟩ := List.pairwise_cons.mp h
    by_cases hle : a.1 ≤ k
    · rw [List.takeWhile_cons_of_pos (by simpa using hle),
        List.filter_cons_of_pos (by simpa using hle), ih hes]
    · rw [List.takeWhile_cons_of_neg (by simpa using hle)]
      symm
      rw [List.filter_eq_nil_iff]
      intro b hb
      obtain rfl | hb := List.mem_cons.mp hb
      · simpa using hle
      · simpa using (not_le.mp hle).trans (ha b hb)

theorem floorEntry_of_le (h : ∀ a ∈ m.entries, a.1 ≤ k) : m.floorEntry k = m.entries.getLast? := by
  rw [floorEntry, takeWhile_eq_filter _ m.sorted, List.filter_eq_self.mpr]
  intro a ha
  simpa using h a ha

theorem floorEntry_eq_some : m.floorEntry k = some e ↔
    e ∈ m.entries ∧ e.1 ≤ k ∧ ∀ a ∈ m.entries, a.1 ≤ k → a.1 ≤ e.1 := by
  have hmem : ∀ a, a ∈ (m.entries.filter fun e => e.1 ≤ k) ↔ a ∈ m.entries ∧ a.1 ≤ k := by simp
  have hsorted := m.sorted.filter fun e => e.1 ≤ k
  rw [floorEntry, takeWhile_eq_filter _ m.sorted, List.getLast?_eq_some_iff]
  constructor
  · rintro ⟨ys, hys⟩
    obtain ⟨he, hek⟩ := (hmem e).mp (by simp [hys])
    refine ⟨he, hek, fun a ha hak => ?_⟩
    have hin : a ∈ ys ++ [e] := hys ▸ (hmem a).mpr ⟨ha, hak⟩
    rw [hys] at hsorted
    obtain hin | hin := List.mem_append.mp hin
    · exact ((List.pairwise_append.mp hsorted).2.2 a hin e (by simp)).le
    · rw [List.mem_singleton.mp hin]
  · rintro ⟨he, hek, hmax⟩
    have hin := (hmem e).mpr ⟨he, hek⟩
    obtain h | ⟨ys, last, hys⟩ := List.eq_nil_or_concat (m.entries.filter fun e => e.1 ≤ k)
    · rw [h] at hin
      cases hin
    · rw [List.concat_eq_append] at hys
      obtain ⟨hlast, hlastk⟩ := (hmem last).mp (by simp [hys])
      refine ⟨ys, ?_⟩
      have hle : e.1 ≤ last.1 := by
        rw [hys] at hin hsorted
        obtain hin | hin := List.mem_append.mp hin
        · exact ((List.pairwise_append.mp hsorted).2.2 e hin last (by simp)).le
        · rw [List.mem_singleton.mp hin]
      rw [hys, eq_of_mem he hlast (le_antisymm hle (hmax last hlast hlastk))]

theorem le_of_head? (h : m.entries.head? = some e) {a : K × V} (ha : a ∈ m.entries) :
    e.1 ≤ a.1 := by
  obtain ⟨rest, hrest⟩ := List.head?_eq_some_iff.mp h
  have hsorted := m.sorted
  rw [hrest] at ha hsorted
  obtain rfl | ha := List.mem_cons.mp ha
  · exact le_rfl
  · exact ((List.pairwise_cons.mp hsorted).1 a ha).le

theorem le_of_getLast? (h : m.entries.getLast? = some e) {a : K × V} (ha : a ∈ m.entries) :
    a.1 ≤ e.1 := by
  obtain ⟨rest, hrest⟩ := List.getLast?_eq_some_iff.mp h
  have hsorted := m.sorted
  rw [hrest] at ha hsorted
  obtain ha | ha := List.mem_append.mp ha
  · exact ((List.pairwise_append.mp hsorted).2.2 a ha e (List.mem_singleton_self e)).le
  · rw [List.mem_singleton.mp ha]

theorem exists_floorEntry (he : e ∈ m.entries) (hle : e.1 ≤ k) :
    ∃ floor, m.floorEntry k = some floor := by
  cases h : m.floorEntry k with
  | some floor => exact ⟨floor, rfl⟩
  | none =>
    rw [floorEntry, List.getLast?_eq_none_iff, takeWhile_eq_filter _ m.sorted,
      List.filter_eq_nil_iff] at h
    exact absurd hle (by simpa using h e he)

end OrderedMap
end Trace4J.Library
