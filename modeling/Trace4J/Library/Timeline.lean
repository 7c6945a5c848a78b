import Mathlib.Data.List.Pairwise
import Mathlib.Data.Nat.Basic
import Trace4J.Library.Extent

/-!
# Call trees laid out on a time line

A stack of open calls, each with the point where it started and what was counted in it
so far. A call starts at the current point of its caller; a return closes an interval
and pays the amount `p` counted since the last change to the caller only. The outermost
call of each tree starts at `base`, the end of the last outermost call that returned.

The closed intervals are laminar as long as an inner call is still at its start when the
last amount is paid at its return, and a new tree is begun only when nothing closed lies
beyond `base`.
-/

namespace Trace4J.Library
open Extent

structure Span where
  start : ℕ
  count : ℕ
  kids : List (Extent ℕ)

def Span.pos (a : Span) : ℕ := a.start + a.count

def Span.close (a : Span) (p : ℕ) : Extent ℕ := ⟨a.start, a.pos + p⟩

/-- `pairs` are the closed calls whose caller is closed too, with that caller. -/
structure Timeline where
  base : ℕ
  settled : Bool
  opened : List Span
  closed : List (Extent ℕ)
  pairs : List (Extent ℕ × Extent ℕ)

namespace Timeline

def new : Timeline := ⟨0, true, [], [], []⟩

def begin (t : Timeline) : Timeline := { t with opened := [⟨t.base, 0, []⟩] }

def call (p : ℕ) (t : Timeline) : Timeline :=
  match t.opened with
  | [] => t
  | a :: rest => { t with opened := ⟨a.pos + p, 0, []⟩ :: { a with count := a.count + p } :: rest }

def ret (p : ℕ) (t : Timeline) : Timeline :=
  match t.opened with
  | [] => t
  | [a] =>
    { base := (a.close p).stop
      settled := true
      opened := []
      closed := a.close p :: t.closed
      pairs := a.kids.map (·, a.close p) ++ t.pairs }
  | a :: b :: rest =>
    { base := t.base
      settled := false
      opened := { b with count := b.count + p, kids := a.close p :: b.kids } :: rest
      closed := a.close p :: t.closed
      pairs := a.kids.map (·, a.close p) ++ t.pairs }

end Timeline

def Stacked : List Span → Prop
  | a :: b :: rest => a.start = b.pos ∧ Stacked (b :: rest)
  | _ => True

structure Timeline.Ordered (t : Timeline) : Prop where
  laminar : t.closed.Pairwise Laminar
  within : ∀ p ∈ t.pairs, Within p.1 p.2
  settled : t.settled = true → ∀ J ∈ t.closed, J.stop ≤ t.base
  stacked : Stacked t.opened
  reached : ∀ a rest, t.opened = a :: rest → ∀ J ∈ t.closed, J.stop ≤ a.pos
  outside : ∀ a ∈ t.opened, ∀ J ∈ t.closed, J.stop ≤ a.start ∨ a.start ≤ J.start
  kids : ∀ a ∈ t.opened, ∀ J ∈ a.kids, a.start ≤ J.start ∧ J.stop ≤ a.pos

variable {t : Timeline} {a b : Span} {rest : List Span} {p : ℕ}

theorem Stacked.start_le (h : Stacked (a :: rest)) : ∀ b ∈ rest, b.start ≤ a.start := by
  induction rest generalizing a with
  | nil => simp
  | cons c rest ih =>
    obtain ⟨hac, hc⟩ := h
    intro b hb
    have hca : c.start ≤ a.start := by
      rw [hac, Span.pos]
      omega
    rcases List.mem_cons.mp hb with rfl | hb
    · exact hca
    · exact (ih hc b hb).trans hca

namespace Timeline

theorem ordered_new : new.Ordered := by
  constructor <;> simp [new, Stacked]

theorem Ordered.begin (h : t.Ordered) (hs : t.settled = true) : t.begin.Ordered where
  laminar := h.laminar
  within := h.within
  settled := h.settled
  stacked := trivial
  reached a rest ho := by
    cases ho
    exact h.settled hs
  outside a ha J hJ := by
    rw [List.mem_singleton.mp ha]
    exact .inl (h.settled hs J hJ)
  kids a ha := by
    rw [List.mem_singleton.mp ha]
    simp

theorem Ordered.call (h : t.Ordered) (ho : t.opened = a :: rest) : (t.call p).Ordered := by
  have hcall : t.call p = { t with
      opened := ⟨a.pos + p, 0, []⟩ :: { a with count := a.count + p } :: rest } := by
    simp only [Timeline.call, ho]
  have ha : a ∈ t.opened := by simp [ho]
  rw [hcall]
  refine ⟨h.laminar, h.within, h.settled, ⟨?_, ?_⟩, ?_, ?_, ?_⟩
  · simp only [Span.pos]
    omega
  · have hst := h.stacked
    rw [ho] at hst
    cases rest with
    | nil => trivial
    | cons b rest => exact hst
  · rintro x xs ⟨⟩ J hJ
    have := h.reached a rest ho J hJ
    simp only [Span.pos] at this ⊢
    omega
  · intro x hx J hJ
    rcases List.mem_cons.mp hx with rfl | hx
    · left
      have := h.reached a rest ho J hJ
      simp only [Span.pos] at this ⊢
      omega
    · rcases List.mem_cons.mp hx with rfl | hx
      · exact h.outside a ha J hJ
      · exact h.outside x (by simp [ho, hx]) J hJ
  · intro x hx J hJ
    rcases List.mem_cons.mp hx with rfl | hx
    · cases hJ
    · rcases List.mem_cons.mp hx with rfl | hx
      · have := h.kids a ha J hJ
        simp only [Span.pos] at this ⊢
        omega
      · exact h.kids x (by simp [ho, hx]) J hJ

theorem Ordered.kids_within (h : t.Ordered) (ha : a ∈ t.opened) :
    ∀ q ∈ a.kids.map (·, a.close p) ++ t.pairs, Within q.1 q.2 := by
  intro q hq
  rcases List.mem_append.mp hq with hq | hq
  · obtain ⟨J, hJ, rfl⟩ := List.mem_map.mp hq
    have := h.kids a ha J hJ
    simp only [Within, Span.close]
    omega
  · exact h.within q hq

theorem Ordered.ret_outermost (h : t.Ordered) (ho : t.opened = [a]) : (t.ret p).Ordered := by
  have hret : t.ret p = ⟨(a.close p).stop, true, [], a.close p :: t.closed,
      a.kids.map (·, a.close p) ++ t.pairs⟩ := by
    simp only [Timeline.ret, ho]
  have ha : a ∈ t.opened := by simp [ho]
  have hreach := h.reached a [] ho
  rw [hret]
  refine ⟨List.pairwise_cons.mpr ⟨?_, h.laminar⟩, h.kids_within ha, ?_, trivial, ?_, ?_, ?_⟩
  · intro J hJ
    rcases h.outside a ha J hJ with hlt | hge
    · exact .inl (.inr hlt)
    · refine .inr (.inr ⟨hge, ?_⟩)
      exact (hreach J hJ).trans (by simp [Span.close])
  · intro _ J hJ
    rcases List.mem_cons.mp hJ with rfl | hJ
    · exact le_rfl
    · exact (hreach J hJ).trans (by simp [Span.close])
  · simp
  · simp
  · simp

theorem Ordered.ret_inner (h : t.Ordered) (ho : t.opened = a :: b :: rest) (h0 : a.count = 0) :
    (t.ret p).Ordered := by
  have hret : t.ret p = ⟨t.base, false,
      { b with count := b.count + p, kids := a.close p :: b.kids } :: rest,
      a.close p :: t.closed, a.kids.map (·, a.close p) ++ t.pairs⟩ := by
    simp only [Timeline.ret, ho]
  have ha : a ∈ t.opened := by simp [ho]
  have hb : b ∈ t.opened := by simp [ho]
  have hst := h.stacked
  rw [ho] at hst
  have hpos : a.pos = a.start := by simp [Span.pos, h0]
  have hab : a.start = b.start + b.count := hst.1
  have hreach := h.reached a (b :: rest) ho
  rw [hret]
  refine ⟨List.pairwise_cons.mpr ⟨?_, h.laminar⟩, h.kids_within ha, by simp, ?_, ?_, ?_, ?_⟩
  · intro J hJ
    exact .inl (.inr ((hreach J hJ).trans hpos.le))
  · cases rest with
    | nil => trivial
    | cons c rest => exact hst.2
  · rintro x xs ⟨⟩ J hJ
    rcases List.mem_cons.mp hJ with rfl | hJ
    · simp only [Span.close, Span.pos, h0, hab]
      omega
    · have := hreach J hJ
      rw [hpos, hab] at this
      simp only [Span.pos]
      omega
  · intro x hx J hJ
    rcases List.mem_cons.mp hJ with rfl | hJ
    · right
      rcases List.mem_cons.mp hx with rfl | hx
      · exact hst.start_le b (by simp)
      · exact hst.start_le x (by simp [hx])
    · rcases List.mem_cons.mp hx with rfl | hx
      · exact h.outside b hb J hJ
      · exact h.outside x (by simp [ho, hx]) J hJ
  · intro x hx J hJ
    rcases List.mem_cons.mp hx with rfl | hx
    · rcases List.mem_cons.mp hJ with rfl | hJ
      · simp only [Span.close, Span.pos, h0, hab]
        omega
      · have := h.kids b hb J hJ
        simp only [Span.pos] at this ⊢
        omega
    · exact h.kids x (by simp [ho, hx]) J hJ

end Timeline
end Trace4J.Library
