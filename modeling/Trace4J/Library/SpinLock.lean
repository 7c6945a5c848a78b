import Mathlib.Logic.Function.Basic
import Trace4J.Library.Run

/-!
# Sections under a spin lock

Actors run sections one after another, each under the same test-and-set lock, in any
interleaving of their single actions. What they share is touched in sections only, so that
every interleaving comes to the same as whole sections in the order in which they are left.
-/

namespace Trace4J.Library.SpinLock

/-! ## The lock -/

def compareAndSwap (old new word : ℕ) : Bool × ℕ :=
  if word = old then (true, new) else (false, word)

def tryLock (word : ℕ) : Bool × ℕ := compareAndSwap 0 1 word

def unlock (word : ℕ) : ℕ := (compareAndSwap 1 0 word).2

def isLocked (word : ℕ) : Bool := decide (0 < word)

/-! ## The actors -/

abbrev Act (σ ρ ε : Type*) := σ × ρ → Except ε (σ × ρ)

/-- Actions one after another; the variables of the actor tell which one is next. -/
inductive Prog (σ ρ ε : Type*)
  | done
  | act (f : Act σ ρ ε) (next : ρ → Prog σ ρ ε)

def Prog.exec {σ ρ ε : Type*} : Prog σ ρ ε → σ × ρ → Except ε (σ × ρ)
  | .done, y => .ok y
  | .act f next, y => f y >>= fun y' => (next y'.2).exec y'

/-- The sections: their bodies, and whether the lock is asserted before it is given back. -/
structure Code (ι κ σ ρ ε : Type*) where
  body : ι × κ → Prog σ ρ ε
  asserts : κ → Bool

inductive Place (κ σ ρ ε : Type*)
  | between (todo : List κ)
  | inside (k : κ) (rest : Prog σ ρ ε) (todo : List κ)

inductive Fault (ε : Type*)
  | act (e : ε)
  | notLocked

/-- `left` are the sections that are over, in the order in which they were left. -/
structure State (ι κ σ ρ ε : Type*) where
  word : ℕ
  shared : σ
  locals : ι → ρ
  place : ι → Place κ σ ρ ε
  left : List (ι × κ)

section Machine
variable {ι κ σ ρ ε : Type*}

def start (prog : ι → List κ) (x : σ × (ι → ρ)) : State ι κ σ ρ ε :=
  ⟨0, x.1, x.2, fun i => .between (prog i), []⟩

def Place.todo : Place κ σ ρ ε → List κ
  | .between todo => todo
  | .inside k _ todo => k :: todo

def Place.IsBetween (p : Place κ σ ρ ε) : Prop := ∃ todo, p = .between todo

variable [DecidableEq ι] (code : Code ι κ σ ρ ε)

/-- One action of actor `i`; an attempt to take the lock is one action. -/
def step (i : ι) (s : State ι κ σ ρ ε) : Except (Fault ε) (State ι κ σ ρ ε) :=
  match s.place i with
  | .between [] => .ok s
  | .between (k :: todo) =>
    if (tryLock s.word).1 then
      .ok { s with
        word := (tryLock s.word).2
        place := Function.update s.place i (.inside k (code.body (i, k)) todo) }
    else .ok s
  | .inside k (.act f next) todo =>
    match f (s.shared, s.locals i) with
    | .error e => .error (.act e)
    | .ok y => .ok { s with
        shared := y.1
        locals := Function.update s.locals i y.2
        place := Function.update s.place i (.inside k (next y.2) todo) }
  | .inside k .done todo =>
    if code.asserts k ∧ isLocked s.word = false then .error .notLocked
    else .ok { s with
      word := unlock s.word
      place := Function.update s.place i (.between todo)
      left := s.left ++ [(i, k)] }

def atomically (e : ι × κ) (x : σ × (ι → ρ)) : Except ε (σ × (ι → ρ)) :=
  ((code.body e).exec (x.1, x.2 e.1)).map fun y => (y.1, Function.update x.2 e.1 y.2)

def State.program (s : State ι κ σ ρ ε) (i : ι) : List κ :=
  (s.left.filter fun e => e.1 = i).map Prod.snd ++ (s.place i).todo

/-! ## Linear states -/

variable (P : ι × κ → σ × (ι → ρ) → Prop)

structure Reached (init : σ × (ι → ρ)) (left : List (ι × κ)) (x : σ × (ι → ρ)) : Prop where
  run : run (atomically code) left init = .ok x
  meets : Meets (atomically code) P left init

structure Free (init : σ × (ι → ρ)) (s : State ι κ σ ρ ε) : Prop where
  word : s.word = 0
  between : ∀ i, (s.place i).IsBetween
  reached : Reached code P init s.left (s.shared, s.locals)

/-- Actor `i` is in section `k`, with `rest` of it to come. `x` is what was there when it took
the lock. -/
structure Holds (init : σ × (ι → ρ)) (s : State ι κ σ ρ ε) (i : ι) (k : κ)
    (rest : Prog σ ρ ε) (x : σ × (ι → ρ)) : Prop where
  word : s.word = 1
  place : ∃ todo, s.place i = .inside k rest todo
  others : ∀ j, j ≠ i → (s.place j).IsBetween
  reached : Reached code P init s.left x
  entered : P (i, k) x
  exec : (code.body (i, k)).exec (x.1, x.2 i) = rest.exec (s.shared, s.locals i)
  frame : ∀ j, j ≠ i → s.locals j = x.2 j

/-- At most one actor is in a section, and whole sections lead to what was there when it went
in. -/
inductive Linear (init : σ × (ι → ρ)) (s : State ι κ σ ρ ε) : Prop
  | free (h : Free code P init s) : Linear init s
  | held (i : ι) (k : κ) (rest : Prog σ ρ ε) (x : σ × (ι → ρ))
      (h : Holds code P init s i k rest x) : Linear init s

variable {code P} {init : σ × (ι → ρ)} {s s' : State ι κ σ ρ ε} {i j : ι} {k : κ} {todo : List κ}
  {rest : Prog σ ρ ε} {f : Act σ ρ ε} {next : ρ → Prog σ ρ ε} {x : σ × (ι → ρ)} {y : σ × ρ}

theorem linear_start (prog : ι → List κ) : Linear code P init (start prog init) :=
  .free ⟨rfl, fun i => ⟨prog i, rfl⟩, rfl, trivial⟩

theorem Reached.concat (h : Reached code P init s.left x) (hP : P (i, k) x)
    {x' : σ × (ι → ρ)} (hx : atomically code (i, k) x = .ok x') :
    Reached code P init (s.left ++ [(i, k)]) x' where
  run := run_append.mpr ⟨x, h.run, run_cons.mpr ⟨x', hx, rfl⟩⟩
  meets := h.meets.concat h.run hP

theorem Reached.of_append {left left' : List (ι × κ)} (h : Reached code P init (left ++ left') x) :
    ∃ y, Reached code P init left y := by
  obtain ⟨y, hy, -⟩ := run_append.mp h.run
  exact ⟨y, hy, h.meets.of_append⟩

omit [DecidableEq ι] in
theorem not_isBetween_inside (h : s.place i = .inside k rest todo) :
    ¬(s.place i).IsBetween := by
  rintro ⟨todo', h'⟩
  simp [h] at h'

/-- Whoever is in a section is the one that holds the lock. -/
theorem Linear.holds (h : Linear code P init s) (hplace : s.place i = .inside k rest todo) :
    ∃ x, Holds code P init s i k rest x := by
  cases h with
  | free h => exact absurd (h.between i) (not_isBetween_inside hplace)
  | held j k' rest' x h =>
    by_cases hj : i = j
    · subst hj
      obtain ⟨todo', hplace'⟩ := h.place
      cases hplace.symm.trans hplace'
      exact ⟨x, h⟩
    · exact absurd (h.others i hj) (not_isBetween_inside hplace)

theorem Linear.exclusive (h : Linear code P init s) (hi : ¬(s.place i).IsBetween)
    (hj : ¬(s.place j).IsBetween) : i = j := by
  cases h with
  | free h => exact absurd (h.between i) hi
  | held l k rest x h =>
    have heq : ∀ m, ¬(s.place m).IsBetween → m = l := fun m hm => by
      by_contra hne
      exact hm (h.others m hne)
    rw [heq i hi, heq j hj]

theorem Linear.word_le (h : Linear code P init s) : s.word = 0 ∨ s.word = 1 := by
  cases h with
  | free h => exact .inl h.word
  | held i k rest x h => exact .inr h.word

theorem Linear.free_of_word (h : Linear code P init s) (hword : s.word = 0) :
    Free code P init s := by
  cases h with
  | free h => exact h
  | held i k rest x h =>
    rw [h.word] at hword
    cases hword

/-! ## One action -/

theorem isBetween_update {p : Place κ σ ρ ε} (hj : j ≠ i) (h : (s.place j).IsBetween) :
    (Function.update s.place i p j).IsBetween := by
  rw [Function.update_of_ne hj]
  exact h

theorem Free.acquire (h : Free code P init s) (hP : P (i, k) (s.shared, s.locals))
    (todo : List κ) :
    Holds code P init
      { s with word := 1, place := Function.update s.place i (.inside k (code.body (i, k)) todo) }
      i k (code.body (i, k)) (s.shared, s.locals) where
  word := rfl
  place := ⟨todo, Function.update_self ..⟩
  others j hj := isBetween_update hj (h.between j)
  reached := h.reached
  entered := hP
  exec := rfl
  frame _ _ := rfl

theorem Holds.act (h : Holds code P init s i k (.act f next) x)
    (hf : f (s.shared, s.locals i) = .ok y) (todo : List κ) :
    Holds code P init
      { s with
        shared := y.1
        locals := Function.update s.locals i y.2
        place := Function.update s.place i (.inside k (next y.2) todo) } i k (next y.2) x where
  word := h.word
  place := ⟨todo, Function.update_self ..⟩
  others j hj := isBetween_update hj (h.others j hj)
  reached := h.reached
  entered := h.entered
  exec := by
    rw [h.exec, Prog.exec, hf]
    simp only [Function.update_self]
    rfl
  frame j hj := by
    dsimp only
    rw [Function.update_of_ne hj]
    exact h.frame j hj

theorem Holds.atomically (h : Holds code P init s i k .done x) :
    atomically code (i, k) x = .ok (s.shared, s.locals) := by
  have hlocals : Function.update x.2 i (s.locals i) = s.locals := by
    funext j
    by_cases hj : j = i
    · rw [hj, Function.update_self]
    · rw [Function.update_of_ne hj, h.frame j hj]
  rw [SpinLock.atomically, h.exec, Prog.exec, Except.map, hlocals]

theorem Holds.release (h : Holds code P init s i k .done x) (todo : List κ) :
    Free code P init
      { s with
        word := 0
        place := Function.update s.place i (.between todo)
        left := s.left ++ [(i, k)] } where
  word := rfl
  between j := by
    by_cases hj : j = i
    · subst hj
      exact ⟨todo, Function.update_self ..⟩
    · exact isBetween_update hj (h.others j hj)
  reached := h.reached.concat h.entered h.atomically

theorem Holds.atomically_error (h : Holds code P init s i k (.act f next) x) {e : ε}
    (hf : f (s.shared, s.locals i) = .error e) : SpinLock.atomically code (i, k) x = .error e := by
  rw [SpinLock.atomically, h.exec, Prog.exec, hf]
  rfl

theorem Linear.step_cases (h : Linear code P init s) (hs : step code i s = .ok s') :
    s' = s ∨
    (∃ k todo, s.place i = .between (k :: todo) ∧ Free code P init s ∧
      s' = { s with
        word := 1
        place := Function.update s.place i (.inside k (code.body (i, k)) todo) }) ∨
    (∃ k f next todo x y, s.place i = .inside k (.act f next) todo ∧
      Holds code P init s i k (.act f next) x ∧ f (s.shared, s.locals i) = .ok y ∧
      s' = { s with
        shared := y.1
        locals := Function.update s.locals i y.2
        place := Function.update s.place i (.inside k (next y.2) todo) }) ∨
    ∃ k todo x, s.place i = .inside k .done todo ∧ Holds code P init s i k .done x ∧
      s' = { s with
        word := 0
        place := Function.update s.place i (.between todo)
        left := s.left ++ [(i, k)] } := by
  rw [step] at hs
  cases hp : s.place i with
  | between todo =>
    rw [hp] at hs
    cases todo with
    | nil => exact .inl (Except.ok.inj hs).symm
    | cons k todo =>
      dsimp only at hs
      obtain hword | hword := h.word_le
      · rw [hword] at hs
        exact .inr (.inl ⟨k, todo, rfl, h.free_of_word hword, (Except.ok.inj hs).symm⟩)
      · rw [hword] at hs
        exact .inl (Except.ok.inj hs).symm
  | inside k rest todo =>
    rw [hp] at hs
    obtain ⟨x, hx⟩ := h.holds hp
    cases rest with
    | done =>
      dsimp only at hs
      rw [hx.word] at hs
      obtain ⟨-, hs⟩ := ok_of_ite_error hs
      exact .inr (.inr (.inr ⟨k, todo, x, rfl, hx, (Except.ok.inj hs).symm⟩))
    | act f next =>
      dsimp only at hs
      cases hf : f (s.shared, s.locals i) with
      | error e => simp [hf] at hs
      | ok y =>
        rw [hf] at hs
        exact .inr (.inr (.inl ⟨k, f, next, todo, x, y, rfl, hx, hf, (Except.ok.inj hs).symm⟩))

/-- The assertion on the lock never fails, and an action that fails is one of a section that
fails as a whole. -/
theorem Linear.step_error (h : Linear code P init s) {fault : Fault ε}
    (hs : step code i s = .error fault) :
    ∃ k rest e x, fault = .act e ∧ Holds code P init s i k rest x ∧
      atomically code (i, k) x = .error e := by
  rw [step] at hs
  cases hp : s.place i with
  | between todo =>
    rw [hp] at hs
    cases todo with
    | nil => cases hs
    | cons k todo =>
      dsimp only at hs
      split_ifs at hs
  | inside k rest todo =>
    rw [hp] at hs
    obtain ⟨x, hx⟩ := h.holds hp
    cases rest with
    | done =>
      dsimp only at hs
      rw [hx.word] at hs
      simp [isLocked] at hs
    | act f next =>
      dsimp only at hs
      cases hf : f (s.shared, s.locals i) with
      | ok y => simp [hf] at hs
      | error e =>
        rw [hf] at hs
        cases hs
        exact ⟨k, _, e, x, rfl, hx, hx.atomically_error hf⟩

def AtEntry (P : ι × κ → σ × (ι → ρ) → Prop) (i : ι) (s : State ι κ σ ρ ε) : Prop :=
  ∀ k todo, s.place i = .between (k :: todo) → s.word = 0 → P (i, k) (s.shared, s.locals)

/-- Where no whole section fails, no action does, and the state stays linear. -/
theorem Linear.step (h : Linear code P init s) (hentry : AtEntry P i s)
    (hok : ∀ left x e, Reached code P init left x → P e x → ∃ x', atomically code e x = .ok x') :
    Ensures (fun _ => True) (step code i s) (Linear code P init) := by
  constructor
  · intro s' hs
    obtain rfl | ⟨k, todo, hp, hfree, rfl⟩ | ⟨k, f, next, todo, x, y, -, hx, hf, rfl⟩ |
      ⟨k, todo, x, -, hx, rfl⟩ := h.step_cases hs
    · exact h
    · exact .held i k _ _ (hfree.acquire (hentry k todo hp hfree.word) todo)
    · exact .held i k _ x (hx.act hf todo)
    · exact .free (hx.release todo)
  · intro fault hs
    obtain ⟨k, rest, e, x, -, hx, herr⟩ := h.step_error hs
    obtain ⟨x', hx'⟩ := hok s.left x (i, k) hx.reached hx.entered
    rw [herr] at hx'
    cases hx'

theorem program_update {p : Place κ σ ρ ε} (word : ℕ) (shared : σ) (locals : ι → ρ)
    (htodo : p.todo = (s.place i).todo) (j : ι) :
    State.program ⟨word, shared, locals, Function.update s.place i p, s.left⟩ j = s.program j := by
  by_cases hj : j = i
  · subst hj
    simp only [State.program, Function.update_self, htodo]
  · simp only [State.program, Function.update_of_ne hj]

theorem Linear.program_step (h : Linear code P init s) (hs : SpinLock.step code i s = .ok s')
    (j : ι) : s'.program j = s.program j := by
  obtain rfl | ⟨k, todo, hp, -, rfl⟩ | ⟨k, f, next, todo, x, y, hp, -, -, rfl⟩ |
    ⟨k, todo, x, hp, -, rfl⟩ := h.step_cases hs
  · rfl
  · exact program_update _ _ _ (by rw [hp]; rfl) j
  · exact program_update _ _ _ (by rw [hp]; rfl) j
  · by_cases hj : j = i
    · subst hj
      simp [State.program, hp, Place.todo]
    · simp [State.program, Function.update_of_ne hj, Ne.symm hj]

end Machine
end Trace4J.Library.SpinLock
