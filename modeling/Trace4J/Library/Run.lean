import Mathlib.Logic.Basic
import Mathlib.Tactic.Common

/-!
# Runs of a fallible step function

A machine is a step function that returns the next state or a fault. `run`
feeds it a list of inputs and stops at the first fault. `Meets` says that
every step of a run is taken in a state, and with an input, that satisfies a
given condition; it is the form in which a property that is only kept by some
steps is carried over a whole run.
-/

namespace Trace4J.Library
universe v

theorem bind_eq_ok {ε : Type*} {α β : Type v} {x : Except ε α} {f : α → Except ε β} {b : β} :
    (x >>= f) = .ok b ↔ ∃ a, x = .ok a ∧ f a = .ok b := by
  cases x <;> simp [bind, Except.bind]

theorem bind_eq_error {ε : Type*} {α β : Type v} {x : Except ε α} {f : α → Except ε β} {e : ε} :
    (x >>= f) = .error e ↔ x = .error e ∨ ∃ a, x = .ok a ∧ f a = .error e := by
  cases x <;> simp [bind, Except.bind]

theorem map_eq_ok {ε : Type*} {α β : Type v} {x : Except ε α} {f : α → β} {b : β} :
    x.map f = .ok b ↔ ∃ a, x = .ok a ∧ f a = b := by
  cases x <;> simp [Except.map]

theorem foldlM_keeps {ε ι σ : Type*} {f : σ → ι → Except ε σ} {P : σ → Prop} {l : List ι} {s t : σ}
    (keep : ∀ i ∈ l, ∀ s s', P s → f s i = .ok s' → P s') (hP : P s) (h : l.foldlM f s = .ok t) :
    P t := by
  induction l generalizing s with
  | nil =>
    cases h
    exact hP
  | cons i l ih =>
    rw [List.forall_mem_cons] at keep
    obtain ⟨s', hs, hl⟩ := bind_eq_ok.mp (List.foldlM_cons.symm.trans h)
    exact ih keep.2 (keep.1 s s' hP hs) hl

theorem ok_of_ite_error {ε α : Type*} {c : Prop} [Decidable c] {e : ε} {x : Except ε α} {a : α}
    (h : (if c then .error e else x) = .ok a) : ¬c ∧ x = .ok a := by
  split_ifs at h with hc
  exact ⟨hc, h⟩

/-- `Ensures bad x Q`: `x` raises no fault of the kind `bad`, and when it returns, its
value satisfies `Q`. -/
structure Ensures {ε : Type*} {α : Type v} (bad : ε → Prop) (x : Except ε α) (Q : α → Prop) :
    Prop where
  ok : ∀ a, x = .ok a → Q a
  error : ∀ e, x = .error e → ¬bad e

namespace Ensures
variable {ε : Type*} {α β : Type v} {bad : ε → Prop} {Q R : α → Prop}

theorem pure {a : α} (h : Q a) : Ensures bad (.ok a : Except ε α) Q := by
  constructor
  · rintro b ⟨⟩
    exact h
  · rintro e ⟨⟩

theorem bind {x : Except ε α} {f : α → Except ε β} {S : β → Prop} (hx : Ensures bad x Q)
    (hf : ∀ a, x = .ok a → Q a → Ensures bad (f a) S) : Ensures bad (x >>= f) S := by
  constructor
  · intro b hb
    obtain ⟨a, ha, hb⟩ := bind_eq_ok.mp hb
    exact (hf a ha (hx.ok a ha)).ok b hb
  · intro e he
    rcases bind_eq_error.mp he with h | ⟨a, ha, he⟩
    · exact hx.error e h
    · exact (hf a ha (hx.ok a ha)).error e he

theorem mono {x : Except ε α} (h : Ensures bad x Q) (hQ : ∀ a, Q a → R a) : Ensures bad x R :=
  ⟨fun a ha => hQ a (h.ok a ha), h.error⟩

end Ensures

section Run
variable {σ ι ε : Type*} (step : ι → σ → Except ε σ)

def run : List ι → σ → Except ε σ
  | [], s => .ok s
  | i :: is, s => step i s >>= run is

def Meets (C : ι → σ → Prop) : List ι → σ → Prop
  | [], _ => True
  | i :: is, s => C i s ∧ ∀ s', step i s = .ok s' → Meets C is s'

variable {step}

theorem run_cons {i : ι} {is : List ι} {s t : σ} :
    run step (i :: is) s = .ok t ↔ ∃ s', step i s = .ok s' ∧ run step is s' = .ok t :=
  bind_eq_ok

theorem run_append {is js : List ι} {s t : σ} :
    run step (is ++ js) s = .ok t ↔ ∃ s', run step is s = .ok s' ∧ run step js s' = .ok t := by
  induction is generalizing s with
  | nil => simp [run]
  | cons i is ih =>
    simp only [List.cons_append, run_cons, ih]
    constructor
    · rintro ⟨s₁, h₁, s₂, h₂, h₃⟩
      exact ⟨s₂, ⟨s₁, h₁, h₂⟩, h₃⟩
    · rintro ⟨s₂, ⟨s₁, h₁, h₂⟩, h₃⟩
      exact ⟨s₁, h₁, s₂, h₂, h₃⟩

/-- An invariant that every step meeting `C` keeps, without a bad fault, holds after
every run whose steps all meet `C`, and no such run ends in a bad fault. -/
theorem run_ensures {bad : ε → Prop} {C : ι → σ → Prop} {P : σ → Prop}
    (keep : ∀ i s, P s → C i s → Ensures bad (step i s) P) {is : List ι} {s : σ} (hP : P s)
    (hC : Meets step C is s) : Ensures bad (run step is s) P := by
  induction is generalizing s with
  | nil => exact .pure hP
  | cons i is ih => exact (keep i s hP hC.1).bind fun s' hs hP' => ih hP' (hC.2 s' hs)

theorem run_invariant {C : ι → σ → Prop} {P : σ → Prop}
    (keep : ∀ i s s', P s → C i s → step i s = .ok s' → P s')
    {is : List ι} {s t : σ} (hP : P s) (hC : Meets step C is s) (hr : run step is s = .ok t) :
    P t := by
  have keep' : ∀ i s, P s → C i s → Ensures (fun _ => False) (step i s) P := fun i s hP hC =>
    ⟨fun s' hs => keep i s s' hP hC hs, fun _ _ h => h⟩
  exact (run_ensures keep' hP hC).ok t hr

theorem run_keeps {P : σ → Prop} (keep : ∀ i s s', P s → step i s = .ok s' → P s') {is : List ι}
    {s t : σ} (hP : P s) (hr : run step is s = .ok t) : P t := by
  induction is generalizing s with
  | nil =>
    cases hr
    exact hP
  | cons i is ih =>
    obtain ⟨s', hs, hr⟩ := run_cons.mp hr
    exact ih (keep i s s' hP hs) hr

theorem Meets.cons_ok {C : ι → σ → Prop} {i : ι} {is : List ι} {s s' : σ} (hC : C i s)
    (hs : step i s = .ok s') (h : Meets step C is s') : Meets step C (i :: is) s := by
  refine ⟨hC, fun t ht => ?_⟩
  obtain rfl := Except.ok.inj (hs.symm.trans ht)
  exact h

theorem Meets.concat {C : ι → σ → Prop} {i : ι} {is : List ι} {s t : σ} (h : Meets step C is s)
    (hr : run step is s = .ok t) (hC : C i t) : Meets step C (is ++ [i]) s := by
  induction is generalizing s with
  | nil =>
    cases hr
    exact ⟨hC, fun _ _ => trivial⟩
  | cons j js ih =>
    obtain ⟨s', hs, hr⟩ := run_cons.mp hr
    exact Meets.cons_ok h.1 hs (ih (h.2 s' hs) hr)

theorem Meets.of_append {C : ι → σ → Prop} {is js : List ι} {s : σ}
    (h : Meets step C (is ++ js) s) : Meets step C is s := by
  induction is generalizing s with
  | nil => trivial
  | cons i is ih => exact ⟨h.1, fun s' hs => ih (h.2 s' hs)⟩

theorem Meets.and_of_mem {C : ι → σ → Prop} {D : ι → Prop} {is : List ι} {s : σ}
    (hD : ∀ i ∈ is, D i) (hC : Meets step C is s) : Meets step (fun i s => D i ∧ C i s) is s := by
  induction is generalizing s with
  | nil => trivial
  | cons i is ih =>
    obtain ⟨hi, his⟩ := List.forall_mem_cons.mp hD
    exact ⟨⟨hi, hC.1⟩, fun s' hs => ih his (hC.2 s' hs)⟩

theorem meets_of_mem {D : ι → Prop} {is : List ι} {s : σ} (hD : ∀ i ∈ is, D i) :
    Meets step (fun i _ => D i) is s := by
  induction is generalizing s with
  | nil => trivial
  | cons i is ih =>
    obtain ⟨hi, his⟩ := List.forall_mem_cons.mp hD
    exact ⟨hi, fun s' _ => ih his⟩

/-- While the goal is not reached, some run makes the measure smaller. -/
theorem exists_run_of_measure {P Q : σ → Prop} (μ : σ → ℕ)
    (progress : ∀ s, P s → ¬Q s → ∃ is s', run step is s = .ok s' ∧ P s' ∧ μ s' < μ s) {s : σ}
    (hP : P s) : ∃ is t, run step is s = .ok t ∧ P t ∧ Q t := by
  induction hμ : μ s using Nat.strongRecOn generalizing s with
  | ind n ih =>
    by_cases hQ : Q s
    · exact ⟨[], s, rfl, hP, hQ⟩
    · obtain ⟨is, s', hrun, hP', hlt⟩ := progress s hP hQ
      obtain ⟨js, t, hrun', hPt, hQt⟩ := ih (μ s') (hμ ▸ hlt) hP' rfl
      exact ⟨is ++ js, t, run_append.mpr ⟨s', hrun, hrun'⟩, hPt, hQt⟩

instance decidableMeets (C : ι → σ → Prop) [∀ i s, Decidable (C i s)] :
    ∀ is s, Decidable (Meets step C is s)
  | [], _ => .isTrue trivial
  | i :: is, s =>
    match hs : step i s with
    | .ok s' =>
      have := decidableMeets C is s'
      decidable_of_iff (C i s ∧ Meets step C is s') (by simp [Meets, hs])
    | .error _ => decidable_of_iff (C i s) (by simp [Meets, hs])

end Run
end Trace4J.Library
