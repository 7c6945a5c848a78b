import Trace4J.Offline.Pftrace

/-!
# Nested rows and the order of the track

The events that follow from a stack and the rows still to come are ordered only if the
stack closes from the top down. That is so when of two rows with one start the longer
comes first, and no row starts where two others end: the popping loop stops at a row
that ends where the new one starts, and the branch after it takes one such row off.
-/

namespace Trace4J.Offline
open Library Extent

section Flattening
variable {M : Type} {a top next i : Trace M} {rest rows Q : List (Trace M)}

/-! ## One move at a time -/

def Over (top : Trace M) (Q : List (Trace M)) : Prop := ∀ i ∈ Q.head?, top.stop < i.start

def Replaces (top : Trace M) (rest : List (Trace M)) (i : Trace M) : Prop :=
  top.stop ≤ i.start ∧ (rest = [] ∨ top.stop = i.start)

theorem emitRows_push (h : i.start < top.stop) :
    emitRows top rest (i :: rows) =
      .closed i.start :: openRow i :: emitRows i (top :: rest) rows := by
  simp [emitRows, pushRow, h]

theorem emitRows_replace (h : Replaces top rest i) :
    emitRows top rest (i :: rows) = .closed top.stop :: openRow i :: emitRows i rest rows := by
  have hle : ¬i.start < top.stop := not_lt.mpr h.1
  cases rest with
  | nil => simp [emitRows, pushRow, popWhile, place, hle]
  | cons next rest =>
    have hlt : ¬top.stop < i.start := by
      obtain h' | h' := h.2
      · cases h'
      · omega
    simp [emitRows, pushRow, popWhile, place, hle, hlt]

def reopenPath (top : Trace M) : List (Trace M) → Text
  | [] => top.callpath
  | i :: _ => pySlice i.callpath 1 i.callpath.length

theorem emitRows_reopen (next : Trace M) (rest : List (Trace M)) (h : Over top Q) :
    emitRows top (next :: rest) Q =
      .closed top.stop :: .opened top.stop next.name (reopenPath top Q) top.metricsDict ::
        emitRows next rest Q := by
  cases Q with
  | nil => rfl
  | cons i rows =>
    have hlt : top.stop < i.start := h i rfl
    have hle : ¬i.start < top.stop := by omega
    simp only [emitRows, pushRow, if_neg hle, popWhile, if_pos hlt, reopenPath]
    split_ifs with hnext
    · have hstay : popWhile i next rest = ([], next, rest) := by
        cases rest with
        | nil => rfl
        | cons x xs => simp [popWhile, show ¬next.stop < i.start by omega]
      simp [hstay, place, hnext]
    · rfl

theorem emitRows_pop (next : Trace M) (rest : List (Trace M)) (h : Over top Q) : ∃ categories metrics,
    emitRows top (next :: rest) Q =
      .closed top.stop :: .opened top.stop next.name categories metrics ::
        emitRows next rest Q :=
  ⟨_, _, emitRows_reopen next rest h⟩

/-- Induction along the moves of the script. -/
theorem rows_induction {P : Trace M → List (Trace M) → List (Trace M) → Prop}
    (close : ∀ top, P top [] [])
    (pop : ∀ top next rest Q, Over top Q → P next rest Q → P top (next :: rest) Q)
    (push : ∀ top rest i rows, i.start < top.stop → P i (top :: rest) rows →
      P top rest (i :: rows))
    (replace : ∀ top rest i rows, Replaces top rest i → P i rest rows → P top rest (i :: rows))
    (top : Trace M) (rest Q : List (Trace M)) : P top rest Q := by
  induction Q generalizing top rest with
  | nil =>
    induction rest generalizing top with
    | nil => exact close top
    | cons next rest ih => exact pop top next rest [] (by simp [Over]) (ih next)
  | cons i rows ih =>
    induction rest generalizing top with
    | nil =>
      by_cases h : i.start < top.stop
      · exact push _ _ _ _ h (ih _ _)
      · exact replace _ _ _ _ ⟨not_lt.mp h, .inl rfl⟩ (ih _ _)
    | cons next rest ihr =>
      rcases lt_trichotomy i.start top.stop with h | h | h
      · exact push _ _ _ _ h (ih _ _)
      · exact replace _ _ _ _ ⟨h.ge, .inr h.symm⟩ (ih _ _)
      · refine pop _ _ _ _ ?_ (ihr next)
        simpa [Over] using h

theorem emitRows_alternates (top : Trace M) (rest Q : List (Trace M)) (ts : ℤ)
    (name categories : Text) (metrics : M) :
    Alternates (.opened ts name categories metrics :: emitRows top rest Q) := by
  induction top, rest, Q using rows_induction generalizing ts name categories metrics with
  | close top => simp [emitRows, drain, Alternates]
  | pop top next rest Q h ih =>
    obtain ⟨c, m, he⟩ := emitRows_pop next rest h
    rw [he]
    exact ih _ _ _ _
  | push top rest i rows h ih =>
    rw [emitRows_push h]
    exact ih _ _ _ _
  | replace top rest i rows h ih =>
    rw [emitRows_replace h]
    exact ih _ _ _ _

/-! ## What an ordered track needs -/

def Nested (a b : Trace M) : Prop := a.start ≤ b.start ∧ (b.start < a.stop → b.stop ≤ a.stop)

def Blocks (Q : List (Trace M)) (y x : Trace M) : Prop :=
  y.stop = x.stop → ∀ r ∈ Q, r.start = x.stop → ¬r.Nonempty

abbrev Ordered (events : List (TrackEvent M)) : Prop := events.Pairwise fun a b => a.ts ≤ b.ts

abbrev Sorted (rows : List (Trace M)) : Prop := rows.Pairwise fun a b => a.start ≤ b.start

theorem stops_sublist (top : Trace M) (rest Q : List (Trace M)) :
    ((top :: rest).map Trace.stop).Sublist ((emitRows top rest Q).map TrackEvent.ts) := by
  induction top, rest, Q using rows_induction with
  | close top => exact List.Sublist.refl _
  | pop top next rest Q h ih =>
    obtain ⟨c, m, he⟩ := emitRows_pop next rest h
    rw [he]
    exact (ih.cons _).cons_cons _
  | push top rest i rows h ih =>
    rw [emitRows_push h]
    exact (((List.sublist_cons_self _ _).trans ih).cons _).cons _
  | replace top rest i rows h ih =>
    rw [emitRows_replace h]
    exact (((List.sublist_cons_self _ _).trans ih).cons _).cons_cons _

theorem stops_sorted (h : Ordered (emitRows top rest Q)) :
    (top :: rest).Pairwise fun y x => y.stop ≤ x.stop := by
  have hts : ((emitRows top rest Q).map TrackEvent.ts).Pairwise (· ≤ ·) := List.pairwise_map.mpr h
  exact List.pairwise_map.mp (hts.sublist (stops_sublist top rest Q))

theorem top_stop_le (h : Ordered (emitRows top rest Q)) : ∀ x ∈ rest, top.stop ≤ x.stop :=
  (List.pairwise_cons.mp (stops_sorted h)).1

theorem first_le {i r : Trace M} {rows : List (Trace M)} (h : Sorted (i :: rows))
    (hr : r ∈ i :: rows) : i.start ≤ r.start := by
  obtain rfl | hr := List.mem_cons.mp hr
  · exact le_rfl
  · exact List.rel_of_pairwise_cons h hr

theorem Over.lt (h : Over top Q) (hsorted : Sorted Q) : ∀ r ∈ Q, top.stop < r.start := by
  intro r hr
  cases Q with
  | nil => cases hr
  | cons i rows =>
    have hi : top.stop < i.start := h i rfl
    obtain rfl | hr := List.mem_cons.mp hr
    · exact hi
    · exact hi.trans_le (List.rel_of_pairwise_cons hsorted hr)

theorem Ordered.tail {d e : TrackEvent M} {es : List (TrackEvent M)}
    (h : Ordered (d :: e :: es)) : Ordered es := h.of_cons.of_cons

theorem nested_of_ordered (top : Trace M) (rest Q : List (Trace M))
    (h : Ordered (emitRows top rest Q)) (hsorted : Sorted Q) :
    (∀ x ∈ top :: rest, ∀ r ∈ Q, r.start < x.stop → r.stop ≤ x.stop) ∧
      Q.Pairwise Nested := by
  induction top, rest, Q using rows_induction with
  | close top => exact ⟨by simp, List.Pairwise.nil⟩
  | pop top next rest Q hover ih =>
    obtain ⟨c, m, he⟩ := emitRows_pop next rest hover
    rw [he] at h
    obtain ⟨hstack, hQ⟩ := ih h.tail hsorted
    refine ⟨?_, hQ⟩
    intro x hx r hr hlt
    obtain rfl | hx := List.mem_cons.mp hx
    · exact absurd (hover.lt hsorted r hr) (by omega)
    · exact hstack x hx r hr hlt
  | push top rest i rows hlt ih =>
    rw [emitRows_push hlt] at h
    obtain ⟨hle, hrows⟩ := List.pairwise_cons.mp hsorted
    obtain ⟨hstack, hQ⟩ := ih h.tail hrows
    refine ⟨?_, List.pairwise_cons.mpr ⟨?_, hQ⟩⟩
    · intro x hx r hr hrx
      obtain rfl | hr := List.mem_cons.mp hr
      · exact top_stop_le h.tail x hx
      · exact hstack x (List.mem_cons_of_mem _ hx) r hr hrx
    · exact fun r hr => ⟨hle r hr, hstack i List.mem_cons_self r hr⟩
  | replace top rest i rows hrep ih =>
    rw [emitRows_replace hrep] at h
    obtain ⟨hle, hrows⟩ := List.pairwise_cons.mp hsorted
    obtain ⟨hstack, hQ⟩ := ih h.tail hrows
    refine ⟨?_, List.pairwise_cons.mpr ⟨?_, hQ⟩⟩
    · intro x hx r hr hrx
      have hir : i.start ≤ r.start := by
        obtain rfl | hr := List.mem_cons.mp hr
        · exact le_rfl
        · exact hle r hr
      obtain rfl | hx := List.mem_cons.mp hx
      · exact absurd hrep.1 (by omega)
      · obtain rfl | hr := List.mem_cons.mp hr
        · exact top_stop_le h.tail x hx
        · exact hstack x (List.mem_cons_of_mem _ hx) r hr hrx
    · exact fun r hr => ⟨hle r hr, hstack i List.mem_cons_self r hr⟩

theorem blocks_of_ordered (top : Trace M) (rest Q : List (Trace M))
    (h : Ordered (emitRows top rest Q)) (hsorted : Sorted Q) (hle : ∀ r ∈ Q, r.start ≤ r.stop) :
    (top :: rest).Pairwise (Blocks Q) := by
  induction top, rest, Q using rows_induction with
  | close top => exact List.pairwise_singleton _ _
  | pop top next rest Q hover ih =>
    obtain ⟨c, m, he⟩ := emitRows_pop next rest hover
    rw [he] at h
    refine List.pairwise_cons.mpr ⟨?_, ih h.tail hsorted hle⟩
    intro x _ hstop r hr hstart
    exact absurd (hover.lt hsorted r hr) (by omega)
  | push top rest i rows hlt ih =>
    have hstops := stops_sorted h
    rw [emitRows_push hlt] at h
    have hrows := (ih h.tail hsorted.of_cons fun r hr => hle r (List.mem_cons_of_mem _ hr)).of_cons
    apply (List.Pairwise.and_mem.mp hrows).imp
    rintro y x ⟨-, hx, hblocks⟩ hstop r hr hstart
    obtain rfl | hr := List.mem_cons.mp hr
    · obtain rfl | hx := List.mem_cons.mp hx
      · exact absurd hlt (by omega)
      · exact absurd (List.rel_of_pairwise_cons hstops hx) (by omega)
    · exact hblocks hstop r hr hstart
  | replace top rest i rows hrep ih =>
    rw [emitRows_replace hrep] at h
    obtain ⟨hfirst, hrows⟩ := List.pairwise_cons.mp hsorted
    have hi := hle i List.mem_cons_self
    have hbelow := top_stop_le h.tail
    obtain ⟨hnew, hold⟩ := List.pairwise_cons.mp
      (ih h.tail hrows fun r hr => hle r (List.mem_cons_of_mem _ hr))
    -- row `i` is now above `x` and ends at or before its end
    have hstart : ∀ x ∈ rest, i.start = x.stop → ¬i.Nonempty := by
      intro x hx hix hne
      have := hbelow x hx
      unfold Trace.Nonempty at hne
      omega
    refine List.pairwise_cons.mpr ⟨?_, (List.Pairwise.and_mem.mp hold).imp ?_⟩
    · intro x hx hstop r hr hrx
      obtain rfl | hr := List.mem_cons.mp hr
      · exact hstart x hx hrx
      · have h1 := hrep.1
        have h2 := hfirst r hr
        have h3 := hbelow x hx
        exact hnew x hx (by omega) r hr hrx
    · rintro y x ⟨-, hx, hblocks⟩ hstop r hr hrx
      obtain rfl | hr := List.mem_cons.mp hr
      · exact hstart x hx hrx
      · exact hblocks hstop r hr hrx

theorem endsAt_iff (t : ℤ) (r : Trace M) : endsAt t r = true ↔ r.Nonempty ∧ r.stop = t := by
  simp [endsAt]

theorem not_endsAt_of_le {t : ℤ} {r : Trace M} (h : t ≤ r.start) : endsAt t r ≠ true := by
  rw [Ne, endsAt_iff]
  rintro ⟨hne, hstop⟩
  unfold Trace.Nonempty at hne
  omega

theorem single_of_ordered (top : Trace M) (rest Q : List (Trace M))
    (h : Ordered (emitRows top rest Q)) (hsorted : Sorted Q) (hle : ∀ r ∈ Q, r.start ≤ r.stop) :
    ∀ r ∈ Q, r.Nonempty → (top :: rest ++ Q).countP (endsAt r.start) ≤ 1 := by
  induction top, rest, Q using rows_induction with
  | close top => simp
  | pop top next rest Q hover ih =>
    obtain ⟨c, m, he⟩ := emitRows_pop next rest hover
    rw [he] at h
    intro r hr hne
    have htop : endsAt r.start top ≠ true := by
      rw [Ne, endsAt_iff]
      have := hover.lt hsorted r hr
      omega
    rw [List.cons_append, List.countP_cons_of_neg htop]
    exact ih h.tail hsorted hle r hr hne
  | push top rest i rows hlt ih =>
    have hstops := top_stop_le h
    rw [emitRows_push hlt] at h
    intro r hr hne
    obtain rfl | hr := List.mem_cons.mp hr
    · -- the whole stack is still open where `r` starts
      have hnone : (top :: rest ++ r :: rows).countP (endsAt r.start) = 0 := by
        rw [List.countP_eq_zero]
        intro x hx
        obtain hx | hx := List.mem_append.mp hx
        · rw [endsAt_iff]
          obtain rfl | hx := List.mem_cons.mp hx
          · omega
          · have := hstops x hx
            omega
        · exact not_endsAt_of_le (first_le hsorted hx)
      omega
    · have hperm : (top :: rest ++ i :: rows).Perm (i :: top :: rest ++ rows) := List.perm_middle
      rw [hperm.countP_eq]
      exact ih h.tail hsorted.of_cons (fun r hr => hle r (List.mem_cons_of_mem _ hr)) r hr hne
  | replace top rest i rows hrep ih =>
    have hblocks := (List.pairwise_cons.mp (blocks_of_ordered top rest _ h hsorted hle)).1
    rw [emitRows_replace hrep] at h
    have ih := ih h.tail hsorted.of_cons fun r hr => hle r (List.mem_cons_of_mem _ hr)
    intro r hr hne
    have hir := first_le hsorted hr
    have hlater : i.start = r.start → ∀ x ∈ i :: rows, ¬endsAt r.start x = true := by
      intro hstart x hx
      exact not_endsAt_of_le (hstart.ge.trans (first_le hsorted hx))
    by_cases hstop : top.stop = r.start
    · -- `r` starts where the top row ends: no other row ends there
      have hnone : (rest ++ i :: rows).countP (endsAt r.start) = 0 := by
        rw [List.countP_eq_zero]
        intro x hx
        obtain hx | hx := List.mem_append.mp hx
        · rw [endsAt_iff]
          rintro ⟨-, hxstop⟩
          exact hblocks x hx (by omega) r hr (by omega) hne
        · have := hrep.1
          exact hlater (by omega) x hx
      rw [List.cons_append, List.countP_cons, hnone]
      split_ifs <;> omega
    · have htop : endsAt r.start top ≠ true := by
        rw [Ne, endsAt_iff]
        tauto
      rw [List.cons_append, List.countP_cons_of_neg htop]
      obtain rfl | hr := List.mem_cons.mp hr
      · have hrest : rest = [] := hrep.2.resolve_right hstop
        subst hrest
        exact (List.countP_eq_zero.mpr (hlater rfl)).le.trans zero_le_one
      · have hperm : (rest ++ i :: rows).Perm (i :: rest ++ rows) := List.perm_middle
        rw [hperm.countP_eq]
        exact ih r hr hne

/-! ## What is enough -/

/-- The script has emitted up to time `a` and the top row's slice is open. -/
structure Live (a : ℤ) (top : Trace M) (rest Q : List (Trace M)) : Prop where
  chain : (top :: rest).Pairwise fun y x => x.start ≤ y.start ∧ y.stop ≤ x.stop
  busy : ∀ x ∈ rest, x.Nonempty
  started : top.start ≤ a
  going : a ≤ top.stop
  valid : ∀ r ∈ Q, r.start ≤ r.stop
  later : ∀ r ∈ Q, a ≤ r.start
  rows : Q.Pairwise Nested
  nested : ∀ x ∈ top :: rest, ∀ r ∈ Q, Nested x r
  single : ∀ r ∈ Q, r.Nonempty → (top :: rest ++ Q).countP (endsAt r.start) ≤ 1
  blocks : ∀ x ∈ rest, Blocks Q top x

structure Shows (a : ℤ) (top : Trace M) (rest Q : List (Trace M)) : Prop where
  ordered : Ordered (emitRows top rest Q)
  later : ∀ e ∈ emitRows top rest Q, a ≤ e.ts
  labels : ∀ t, a ≤ t →
    Labels (top :: rest ++ Q) t (labelFrom (some top.name) t (emitRows top rest Q))

section Labels
variable {t : ℤ} {l : Option Text} {l₁ l₂ : List (Trace M)}

theorem Labels.perm (hperm : l₁.Perm l₂) (h : Labels l₁ t l) : Labels l₂ t l := by
  cases l with
  | none => exact fun r hr => h r (hperm.mem_iff.mpr hr)
  | some name =>
    obtain ⟨r, hr, hname, hcontains, hleast⟩ := h
    exact ⟨r, hperm.mem_iff.mp hr, hname, hcontains,
      fun r' hr' => hleast r' (hperm.mem_iff.mpr hr')⟩

theorem Labels.cons (ha : ¬a.Contains t) (h : Labels l₁ t l) : Labels (a :: l₁) t l := by
  cases l with
  | none =>
    intro r hr
    obtain rfl | hr := List.mem_cons.mp hr
    · exact ha
    · exact h r hr
  | some name =>
    obtain ⟨r, hr, hname, hcontains, hleast⟩ := h
    refine ⟨r, List.mem_cons_of_mem _ hr, hname, hcontains, ?_⟩
    intro r' hr' hcontains'
    obtain rfl | hr' := List.mem_cons.mp hr'
    · exact absurd hcontains' ha
    · exact hleast r' hr' hcontains'

end Labels

theorem labelFrom_cons_of_lt {cur : Option Text} {t : ℤ} {e : TrackEvent M}
    {es : List (TrackEvent M)} (h : t < e.ts) : labelFrom cur t (e :: es) = cur := if_pos h

theorem labelFrom_cons_of_le {cur : Option Text} {t : ℤ} {e : TrackEvent M}
    {es : List (TrackEvent M)} (h : e.ts ≤ t) :
    labelFrom cur t (e :: es) = labelFrom e.label t es := if_neg (not_lt.mpr h)

theorem Live.labels_top {a t : ℤ} (h : Live a top rest Q) (hat : a ≤ t) (hstop : t < top.stop)
    (hQ : ∀ r ∈ Q, t < r.start) : Labels (top :: rest ++ Q) t (some top.name) := by
  refine ⟨top, by simp, rfl, ⟨h.started.trans hat, hstop⟩, ?_⟩
  intro r hr hcontains
  obtain hr | hr := List.mem_append.mp hr
  · obtain rfl | hr := List.mem_cons.mp hr
    · exact le_rfl
    · have hchain := List.rel_of_pairwise_cons h.chain hr
      omega
  · exact absurd hcontains.1 (not_le.mpr (hQ r hr))

theorem Live.sorted {a : ℤ} (h : Live a top rest Q) : Sorted Q := h.rows.imp fun h => h.1

theorem two_le_countP {p : Trace M → Bool} {x : Trace M} {l : List (Trace M)} (htop : p top = true)
    (hx : x ∈ l) (hpx : p x = true) : 2 ≤ (top :: l).countP p := by
  have hpos : 0 < l.countP p := List.countP_pos_iff.mpr ⟨x, hx, hpx⟩
  rw [List.countP_cons_of_pos htop]
  omega

theorem blocks_of_single {l : List (Trace M)}
    (h : ∀ r ∈ Q, r.Nonempty → (top :: l).countP (endsAt r.start) ≤ 1)
    (htop : top.Nonempty) {x : Trace M} (hx : x ∈ l) (hne : x.Nonempty) : Blocks Q top x := by
  intro hstop r hr hstart hr'
  have htwo := two_le_countP ((endsAt_iff r.start top).mpr ⟨htop, by omega⟩) hx
    ((endsAt_iff r.start x).mpr ⟨hne, by omega⟩)
  have := h r hr hr'
  omega

theorem Live.pop {a : ℤ} (h : Live a top (next :: rest) Q) (hover : Over top Q) :
    Live top.stop next rest Q where
  chain := h.chain.of_cons
  busy x hx := h.busy x (List.mem_cons_of_mem _ hx)
  started := by
    have hchain := List.rel_of_pairwise_cons h.chain (List.mem_cons_self (a := next))
    have hstarted := h.started
    have hgoing := h.going
    omega
  going := (List.rel_of_pairwise_cons h.chain List.mem_cons_self).2
  valid := h.valid
  later r hr := (hover.lt h.sorted r hr).le
  rows := h.rows
  nested x hx := h.nested x (List.mem_cons_of_mem _ hx)
  single r hr hne := (List.Sublist.countP_le (List.sublist_cons_self _ _)).trans
    (h.single r hr hne)
  blocks x hx := by
    apply blocks_of_single (l := rest ++ Q) _ (h.busy next List.mem_cons_self)
      (List.mem_append_left _ hx) (h.busy x (List.mem_cons_of_mem _ hx))
    exact fun r hr hne => (List.Sublist.countP_le (List.sublist_cons_self _ _)).trans
      (h.single r hr hne)

theorem Live.push {a : ℤ} (h : Live a top rest (i :: rows)) (hlt : i.start < top.stop) :
    Live i.start i (top :: rest) rows := by
  have hai := h.later i List.mem_cons_self
  have htop : top.Nonempty := by
    have hstarted := h.started
    unfold Trace.Nonempty
    omega
  have hstack : ∀ x ∈ top :: rest, x.start ≤ i.start ∧ i.start < x.stop := by
    intro x hx
    refine ⟨(h.nested x hx i List.mem_cons_self).1, ?_⟩
    obtain rfl | hx := List.mem_cons.mp hx
    · exact hlt
    · exact hlt.trans_le (List.rel_of_pairwise_cons h.chain hx).2
  have hbusy : ∀ x ∈ top :: rest, x.Nonempty := by
    intro x hx
    obtain rfl | hx := List.mem_cons.mp hx
    · exact htop
    · exact h.busy x hx
  have hsingle : ∀ r ∈ rows, r.Nonempty →
      (i :: top :: rest ++ rows).countP (endsAt r.start) ≤ 1 := by
    intro r hr hne
    have hperm : (top :: rest ++ i :: rows).Perm (i :: top :: rest ++ rows) := List.perm_middle
    rw [← hperm.countP_eq]
    exact h.single r (List.mem_cons_of_mem _ hr) hne
  obtain ⟨hi, hrows⟩ := List.pairwise_cons.mp h.rows
  refine ⟨List.pairwise_cons.mpr ⟨?_, h.chain⟩, hbusy, le_rfl, h.valid i List.mem_cons_self,
    fun r hr => h.valid r (List.mem_cons_of_mem _ hr), fun r hr => (hi r hr).1, hrows, ?_,
    hsingle, ?_⟩
  · intro x hx
    exact ⟨(hstack x hx).1, (h.nested x hx i List.mem_cons_self).2 (hstack x hx).2⟩
  · intro x hx r hr
    obtain rfl | hx := List.mem_cons.mp hx
    · exact hi r hr
    · exact h.nested x hx r (List.mem_cons_of_mem _ hr)
  · intro x hx
    by_cases hne : i.Nonempty
    · exact blocks_of_single hsingle hne (List.mem_append_left _ hx) (hbusy x hx)
    · -- an empty row cannot end where a row ends that is open around it
      intro hstop
      have hopen := (hstack x hx).2
      unfold Trace.Nonempty at hne
      omega

theorem Live.replace {a : ℤ} (h : Live a top rest (i :: rows)) (hrep : Replaces top rest i) :
    Live i.start i rest rows := by
  obtain ⟨hi, hrows⟩ := List.pairwise_cons.mp h.rows
  have hvalid := h.valid i List.mem_cons_self
  have hstop : ∀ x ∈ rest, top.stop = i.start := by
    intro x hx
    exact hrep.2.resolve_left (List.ne_nil_of_mem hx)
  have hsingle : ∀ r ∈ rows, r.Nonempty → (i :: rest ++ rows).countP (endsAt r.start) ≤ 1 := by
    intro r hr hne
    have hperm : (rest ++ i :: rows).Perm (i :: rest ++ rows) := List.perm_middle
    rw [← hperm.countP_eq]
    exact (List.Sublist.countP_le (List.sublist_cons_self _ _)).trans
      (h.single r (List.mem_cons_of_mem _ hr) hne)
  refine ⟨List.pairwise_cons.mpr ⟨?_, h.chain.of_cons⟩, h.busy, le_rfl, hvalid,
    fun r hr => h.valid r (List.mem_cons_of_mem _ hr), fun r hr => (hi r hr).1, hrows, ?_,
    hsingle, ?_⟩
  · intro x hx
    have hnested := h.nested x (List.mem_cons_of_mem _ hx) i List.mem_cons_self
    refine ⟨hnested.1, ?_⟩
    by_cases hlt : i.start < x.stop
    · exact hnested.2 hlt
    · -- `x` ends with the top row, so `i` is empty
      have hchain := List.rel_of_pairwise_cons h.chain hx
      have hends := hstop x hx
      have hempty := h.blocks x hx (by omega) i List.mem_cons_self (by omega)
      unfold Trace.Nonempty at hempty
      omega
  · intro x hx r hr
    obtain rfl | hx := List.mem_cons.mp hx
    · exact hi r hr
    · exact h.nested x (List.mem_cons_of_mem _ hx) r (List.mem_cons_of_mem _ hr)
  · intro x hx
    by_cases hne : i.Nonempty
    · exact blocks_of_single hsingle hne (List.mem_append_left _ hx) (h.busy x hx)
    · intro hix r hr hstart
      have hends := hstop x hx
      unfold Trace.Nonempty at hne
      exact h.blocks x hx (by omega) r (List.mem_cons_of_mem _ hr) hstart

theorem ordered_cons_cons {b : ℤ} {d e : TrackEvent M} {es : List (TrackEvent M)}
    (hde : d.ts ≤ e.ts) (he : e.ts = b) (hes : ∀ f ∈ es, b ≤ f.ts) (h : Ordered es) :
    Ordered (d :: e :: es) := by
  refine List.pairwise_cons.mpr ⟨?_, List.pairwise_cons.mpr ⟨?_, h⟩⟩
  · intro f hf
    obtain rfl | hf := List.mem_cons.mp hf
    · exact hde
    · exact hde.trans (he.le.trans (hes f hf))
  · exact fun f hf => he.le.trans (hes f hf)

theorem later_cons_cons {a b : ℤ} {d e : TrackEvent M} {es : List (TrackEvent M)}
    (hd : a ≤ d.ts) (hde : d.ts ≤ e.ts) (he : e.ts = b) (hes : ∀ f ∈ es, b ≤ f.ts) :
    ∀ f ∈ d :: e :: es, a ≤ f.ts := by
  intro f hf
  obtain rfl | hf := List.mem_cons.mp hf
  · exact hd
  · obtain rfl | hf := List.mem_cons.mp hf
    · exact hd.trans hde
    · exact (hd.trans hde).trans (he.le.trans (hes f hf))

theorem Live.shows (top : Trace M) (rest Q : List (Trace M)) (a : ℤ) (h : Live a top rest Q) :
    Shows a top rest Q := by
  induction top, rest, Q using rows_induction generalizing a with
  | close top =>
    refine ⟨List.pairwise_singleton _ _, ?_, ?_⟩
    · intro e he
      obtain rfl := List.mem_singleton.mp he
      exact h.going
    · intro t hat
      by_cases hlt : t < top.stop
      · rw [emitRows, drain, labelFrom_cons_of_lt hlt]
        exact h.labels_top hat hlt (by simp)
      · rw [emitRows, drain, labelFrom_cons_of_le (not_lt.mp hlt)]
        intro r hr hcontains
        obtain rfl := List.mem_singleton.mp hr
        exact hlt hcontains.2
  | pop top next rest Q hover ih =>
    have hshows := ih top.stop (h.pop hover)
    obtain ⟨c, m, he⟩ := emitRows_pop next rest hover
    refine ⟨?_, ?_, ?_⟩
    · rw [he]
      exact ordered_cons_cons le_rfl rfl hshows.later hshows.ordered
    · rw [he]
      exact later_cons_cons h.going le_rfl rfl hshows.later
    · intro t hat
      rw [he]
      by_cases hlt : t < top.stop
      · rw [labelFrom_cons_of_lt hlt]
        exact h.labels_top hat hlt fun r hr => hlt.trans (hover.lt h.sorted r hr)
      · rw [labelFrom_cons_of_le (not_lt.mp hlt), labelFrom_cons_of_le (not_lt.mp hlt)]
        exact (hshows.labels t (not_lt.mp hlt)).cons fun hcontains => hlt hcontains.2
  | push top rest i rows hpush ih =>
    have hshows := ih i.start (h.push hpush)
    refine ⟨?_, ?_, ?_⟩
    · rw [emitRows_push hpush]
      exact ordered_cons_cons le_rfl rfl hshows.later hshows.ordered
    · rw [emitRows_push hpush]
      exact later_cons_cons (h.later i List.mem_cons_self) le_rfl rfl hshows.later
    · intro t hat
      rw [emitRows_push hpush]
      by_cases hlt : t < i.start
      · rw [labelFrom_cons_of_lt hlt]
        apply h.labels_top hat (hlt.trans hpush)
        intro r hr
        exact hlt.trans_le (first_le h.sorted hr)
      · rw [labelFrom_cons_of_le (not_lt.mp hlt), labelFrom_cons_of_le (not_lt.mp hlt)]
        exact (hshows.labels t (not_lt.mp hlt)).perm List.perm_middle.symm
  | replace top rest i rows hrep ih =>
    have hshows := ih i.start (h.replace hrep)
    have hlater : ∀ t < i.start, ∀ r ∈ i :: rows, t < r.start :=
      fun t hlt r hr => hlt.trans_le (first_le h.sorted hr)
    refine ⟨?_, ?_, ?_⟩
    · rw [emitRows_replace hrep]
      exact ordered_cons_cons hrep.1 rfl hshows.later hshows.ordered
    · rw [emitRows_replace hrep]
      exact later_cons_cons h.going hrep.1 rfl hshows.later
    · intro t hat
      rw [emitRows_replace hrep]
      by_cases htop : t < top.stop
      · rw [labelFrom_cons_of_lt htop]
        exact h.labels_top hat htop (hlater t (htop.trans_le hrep.1))
      · rw [labelFrom_cons_of_le (not_lt.mp htop)]
        by_cases hlt : t < i.start
        · -- a gap on the track, with the stack down to its last row
          rw [labelFrom_cons_of_lt hlt]
          have hrest : rest = [] := hrep.2.resolve_right (by omega)
          subst hrest
          intro r hr hcontains
          obtain rfl | hr := List.mem_cons.mp hr
          · exact htop hcontains.2
          · exact absurd hcontains.1 (not_le.mpr (hlater t hlt r hr))
        · rw [labelFrom_cons_of_le (not_lt.mp hlt)]
          have hmiddle : (rest ++ i :: rows).Perm (i :: (rest ++ rows)) := List.perm_middle
          have hlabels := (hshows.labels t (not_lt.mp hlt)).perm hmiddle.symm
          exact hlabels.cons fun hcontains => htop hcontains.2

/-! ## The sorted rows -/

theorem sortedRows_perm (traceList : List (Trace M)) : (sortedRows traceList).Perm traceList :=
  List.perm_insertionSort _ _

theorem sortedRows_sorted (traceList : List (Trace M)) : Sorted (sortedRows traceList) :=
  List.pairwise_insertionSort (fun a b : Trace M => a.start ≤ b.start) traceList

theorem filter_sortedRows (traceList : List (Trace M)) (t : ℤ) :
    (sortedRows traceList).filter (fun r => r.start = t) =
      traceList.filter fun r => r.start = t := by
  set p : Trace M → Bool := fun r => r.start = t
  have hsorted : (traceList.filter p).Pairwise fun a b => a.start ≤ b.start := by
    apply List.pairwise_of_forall_mem_list
    intro a ha b hb
    have ha : a.start = t := by simpa [p] using (List.mem_filter.mp ha).2
    have hb : b.start = t := by simpa [p] using (List.mem_filter.mp hb).2
    omega
  have hsub := List.sublist_insertionSort (r := fun a b : Trace M => a.start ≤ b.start) hsorted
    List.filter_sublist
  have hfilter := hsub.filter p
  rw [List.filter_filter] at hfilter
  simp only [Bool.and_self] at hfilter
  exact (hfilter.eq_of_length ((sortedRows_perm traceList).filter p).length_eq.symm).symm

theorem longerFirst_iff_filter (rows : List (Trace M)) :
    rows.Pairwise LongerFirst ↔
      ∀ t : ℤ, (rows.filter fun r => r.start = t).Pairwise LongerFirst := by
  constructor
  · exact fun h t => h.filter _
  · intro h
    rw [List.pairwise_iff_forall_sublist]
    intro a b hab hstart
    have hsub := hab.filter fun r => r.start = a.start
    rw [List.filter_cons_of_pos (by simp), List.filter_cons_of_pos (by simp [hstart])] at hsub
    exact List.pairwise_iff_forall_sublist.mp (h a.start) hsub hstart

theorem sortedRows_longerFirst (traceList : List (Trace M)) :
    (sortedRows traceList).Pairwise LongerFirst ↔ traceList.Pairwise LongerFirst := by
  rw [longerFirst_iff_filter, longerFirst_iff_filter]
  simp only [filter_sortedRows]

theorem SingleEnds.perm {l₁ l₂ : List (Trace M)} (hperm : l₁.Perm l₂) (h : SingleEnds l₁) :
    SingleEnds l₂ := by
  intro r hr hne
  rw [← hperm.countP_eq]
  exact h r (hperm.mem_iff.mpr hr) hne

theorem nested_iff_longerFirst {a b : Trace M} (hstart : a.start ≤ b.start)
    (hb : b.start ≤ b.stop) (hlam : Laminar a.extent b.extent) :
    Nested a b ↔ LongerFirst a b := by
  constructor
  · intro h heq ha _
    unfold Trace.Nonempty at ha
    exact h.2 (by omega)
  · intro h
    refine ⟨hstart, fun hlt => ?_⟩
    obtain (hapart | hapart) | hwithin | hwithin := hlam
    · simp only [Trace.extent] at hapart
      omega
    · simp only [Trace.extent] at hapart
      omega
    · -- `a` lies in `b`, so they start together
      simp only [Within, Trace.extent] at hwithin
      exact h (by omega) (by unfold Trace.Nonempty; omega) (by unfold Trace.Nonempty; omega)
    · exact hwithin.2

section Rows
variable {traceList : List (Trace M)}

theorem sortedRows_nested_iff (hvalid : ∀ r ∈ traceList, r.start ≤ r.stop)
    (hlam : traceList.Pairwise fun a b => Laminar a.extent b.extent) :
    (sortedRows traceList).Pairwise Nested ↔ traceList.Pairwise LongerFirst := by
  have hperm := sortedRows_perm traceList
  have hlam' := (hperm.pairwise_iff Laminar.symm).mpr hlam
  have hpairs := List.Pairwise.and_mem.mp ((sortedRows_sorted traceList).and hlam')
  rw [← sortedRows_longerFirst]
  constructor
  · intro h
    apply (h.and hpairs).imp
    rintro a b ⟨hnested, -, hb, hstart, hab⟩
    exact (nested_iff_longerFirst hstart (hvalid b (hperm.mem_iff.mp hb)) hab).mp hnested
  · intro h
    apply (h.and hpairs).imp
    rintro a b ⟨hlonger, -, hb, hstart, hab⟩
    exact (nested_iff_longerFirst hstart (hvalid b (hperm.mem_iff.mp hb)) hab).mpr hlonger

theorem live_first {r : Trace M} (hvalid : ∀ x ∈ r :: rows, x.start ≤ x.stop)
    (hnested : (r :: rows).Pairwise Nested) (hsingle : SingleEnds (r :: rows)) :
    Live r.start r [] rows := by
  obtain ⟨hr, hrows⟩ := List.pairwise_cons.mp hnested
  refine ⟨List.pairwise_singleton _ _, by simp, le_rfl, hvalid r List.mem_cons_self,
    fun x hx => hvalid x (List.mem_cons_of_mem _ hx), fun x hx => (hr x hx).1, hrows, ?_,
    fun x hx => hsingle x (List.mem_cons_of_mem _ hx), by simp⟩
  intro x hx
  obtain rfl := List.mem_singleton.mp hx
  exact hr

theorem Live.flattens {r : Trace M} (h : Live r.start r [] rows) :
    Flattens (r :: rows) (openRow r :: emitRows r [] rows) := by
  have hshows := Live.shows _ _ _ _ h
  refine ⟨emitRows_alternates _ _ _ _ _ _ _, List.pairwise_cons.mpr ⟨hshows.later, hshows.ordered⟩,
    fun t => ?_⟩
  by_cases hlt : t < r.start
  · rw [labelFrom_cons_of_lt hlt]
    intro x hx hcontains
    obtain rfl | hx := List.mem_cons.mp hx
    · exact absurd hcontains.1 (not_le.mpr hlt)
    · have := h.later x hx
      have := hcontains.1
      omega
  · rw [labelFrom_cons_of_le (not_lt.mp hlt)]
    exact hshows.labels t (not_lt.mp hlt)

theorem outputToPftrace_flattens_iff (hne : traceList ≠ [])
    (hvalid : ∀ r ∈ traceList, r.start ≤ r.stop)
    (hlam : traceList.Pairwise fun a b => Laminar a.extent b.extent) :
    (∃ events, outputToPftrace traceList = some events ∧ Flattens traceList events) ↔
      traceList.Pairwise LongerFirst ∧ SingleEnds traceList := by
  have hperm := sortedRows_perm traceList
  rw [← sortedRows_nested_iff hvalid hlam]
  unfold outputToPftrace
  cases hrows : sortedRows traceList with
  | nil =>
    rw [hrows] at hperm
    exact absurd hperm.nil_eq.symm hne
  | cons r rows =>
    have hsorted := sortedRows_sorted traceList
    rw [hrows] at hperm hsorted
    have hvalid' : ∀ x ∈ r :: rows, x.start ≤ x.stop :=
      fun x hx => hvalid x (hperm.mem_iff.mp hx)
    obtain ⟨hfirst, hsorted'⟩ := List.pairwise_cons.mp hsorted
    constructor
    · rintro ⟨events, hevents, hflat⟩
      obtain rfl := Option.some.inj hevents
      have hordered : Ordered (emitRows r [] rows) := hflat.ordered.of_cons
      obtain ⟨hstack, hnested⟩ := nested_of_ordered r [] rows hordered hsorted'
      refine ⟨List.pairwise_cons.mpr ⟨?_, hnested⟩, SingleEnds.perm hperm ?_⟩
      · exact fun x hx => ⟨hfirst x hx, hstack r List.mem_cons_self x hx⟩
      · intro x hx hxne
        obtain rfl | hx := List.mem_cons.mp hx
        · -- nothing ends where the first row starts
          have hnone : (x :: rows).countP (endsAt x.start) = 0 := by
            rw [List.countP_eq_zero]
            intro y hy
            apply not_endsAt_of_le
            obtain rfl | hy := List.mem_cons.mp hy
            · exact le_rfl
            · exact hfirst y hy
          omega
        · exact single_of_ordered r [] rows hordered hsorted'
            (fun y hy => hvalid' y (List.mem_cons_of_mem _ hy)) x hx hxne
    · rintro ⟨hnested, hsingle⟩
      have hflat := (live_first hvalid' hnested (hsingle.perm hperm.symm)).flattens
      exact ⟨_, rfl, hflat.alternates, hflat.ordered, fun t => (hflat.labels t).perm hperm⟩

end Rows

def siblingRows : List (Trace Unit) :=
  [⟨0, 20, (), "\n a.A.run(A.java:1)".toList⟩, ⟨0, 10, (), "\n a.A.f(A.java:2)".toList⟩,
    ⟨10, 20, (), "\n a.A.g(A.java:3)".toList⟩]

theorem outputToPftrace_siblingRows :
    ∃ events, outputToPftrace siblingRows = some events ∧ Flattens siblingRows events :=
  (outputToPftrace_flattens_iff (by decide) (by decide) (by decide)).mpr (by decide)

def twoEndsRows : List (Trace Unit) :=
  [⟨0, 10, (), "\n a.A.run(A.java:1)".toList⟩, ⟨5, 10, (), "\n a.A.f(A.java:2)".toList⟩,
    ⟨10, 20, (), "\n a.A.g(A.java:3)".toList⟩]

theorem outputToPftrace_twoEndsRows : twoEndsRows ≠ [] ∧
    (∀ r ∈ twoEndsRows, r.start ≤ r.stop) ∧
    twoEndsRows.Pairwise (fun a b => Laminar a.extent b.extent) ∧
    (outputToPftrace twoEndsRows).map (List.map TrackEvent.ts) =
      some [0, 5, 5, 10, 10, 20, 20, 10] ∧
    ¬∃ events, outputToPftrace twoEndsRows = some events ∧ Flattens twoEndsRows events := by
  have hts : (outputToPftrace twoEndsRows).map (List.map TrackEvent.ts) =
      some [0, 5, 5, 10, 10, 20, 20, 10] := by decide
  refine ⟨by decide, by decide, by decide, hts, ?_⟩
  rintro ⟨events, hevents, hflat⟩
  rw [hevents] at hts
  have hordered : (events.map TrackEvent.ts).Pairwise (· ≤ ·) :=
    List.pairwise_map.mpr hflat.ordered
  rw [Option.some.inj hts] at hordered
  exact absurd hordered (by decide)

end Flattening
end Trace4J.Offline
