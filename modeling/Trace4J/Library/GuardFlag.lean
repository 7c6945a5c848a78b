import Mathlib.Tactic.Common

/-!
# A flag that interrupting routines test and set

Routines of one thread interrupt one another, so that they form a stack of which only the top
one runs. A routine reads the flag first, sets it in any case, and goes inside when it read
it down. `Sound` is what holds of the flag and of the stack at every point: the flag is up
exactly while some routine is inside, no routine is inside above another, and what a routine
has read is still true of the routines below it.
-/

namespace Trace4J.Library.GuardFlag

inductive Role
  | outside
  | read (prev : Bool)
  | inside
deriving DecidableEq, Repr

def anyInside (roles : List Role) : Bool := roles.any (· = .inside)

def Disciplined : List Role → Prop
  | [] => True
  | .outside :: roles => Disciplined roles
  | .read prev :: roles => prev = anyInside roles ∧ Disciplined roles
  | .inside :: roles => anyInside roles = false ∧ Disciplined roles

structure Sound (flag : Bool) (roles : List Role) : Prop where
  flag_eq : flag = anyInside roles
  disciplined : Disciplined roles

variable {flag : Bool} {role : Role} {roles : List Role}

theorem anyInside_eq_true : anyInside roles = true ↔ .inside ∈ roles := by
  simp [anyInside]

theorem Disciplined.tail (h : Disciplined (role :: roles)) : Disciplined roles := by
  cases role with
  | outside => exact h
  | read prev => exact h.2
  | inside => exact h.2

theorem Disciplined.pairwise (h : Disciplined roles) :
    roles.Pairwise fun a b => ¬(a = .inside ∧ b = .inside) := by
  induction roles with
  | nil => exact .nil
  | cons role roles ih =>
    refine List.pairwise_cons.mpr ⟨?_, ih h.tail⟩
    rintro b hb ⟨rfl, rfl⟩
    exact absurd (anyInside_eq_true.mpr hb) (by rw [h.1]; decide)

namespace Sound

theorem nil : Sound false [] := ⟨rfl, trivial⟩

theorem push (h : Sound flag roles) : Sound flag (.outside :: roles) := by
  refine ⟨?_, h.disciplined⟩
  rw [h.flag_eq]
  rfl

theorem pop (h : Sound flag (.outside :: roles)) : Sound flag roles := by
  refine ⟨?_, h.disciplined⟩
  rw [h.flag_eq]
  rfl

theorem read (h : Sound flag (.outside :: roles)) : Sound flag (.read flag :: roles) :=
  ⟨h.flag_eq, h.flag_eq, h.disciplined⟩

theorem enter (h : Sound flag (.read false :: roles)) : Sound true (.inside :: roles) :=
  ⟨rfl, h.disciplined.1.symm, h.disciplined.2⟩

theorem refuse (h : Sound flag (.read true :: roles)) : Sound true (.outside :: roles) :=
  ⟨h.disciplined.1, h.disciplined.2⟩

theorem leave (h : Sound flag (.inside :: roles)) : Sound false (.outside :: roles) :=
  ⟨h.disciplined.1.symm, h.disciplined.2⟩

end Sound

/-! ## Where the flag may be left up -/

def Apart : List Role → Prop
  | [] => True
  | .outside :: roles => Apart roles
  | .read prev :: roles => (prev = false → anyInside roles = false) ∧ Apart roles
  | .inside :: roles => anyInside roles = false ∧ Apart roles

theorem Apart.tail (h : Apart (role :: roles)) : Apart roles := by
  cases role with
  | outside => exact h
  | read prev => exact h.2
  | inside => exact h.2

theorem Apart.pairwise (h : Apart roles) :
    roles.Pairwise fun a b => ¬(a = .inside ∧ b = .inside) := by
  induction roles with
  | nil => exact .nil
  | cons role roles ih =>
    refine List.pairwise_cons.mpr ⟨?_, ih h.tail⟩
    rintro b hb ⟨rfl, rfl⟩
    exact absurd (anyInside_eq_true.mpr hb) (by rw [h.1]; decide)

theorem Apart.above {below : List Role} (h : Apart (roles ++ .inside :: below)) :
    ∀ role ∈ roles, role = .outside ∨ role = .read true := by
  induction roles with
  | nil => nofun
  | cons role roles ih =>
    refine List.forall_mem_cons.mpr ⟨?_, ih h.tail⟩
    have hin : anyInside (roles ++ .inside :: below) = true := anyInside_eq_true.mpr (by simp)
    cases role with
    | outside => exact .inl rfl
    | inside => exact absurd (h.1.symm.trans hin) Bool.false_ne_true
    | read prev =>
      cases prev with
      | false => exact absurd ((h.1 rfl).symm.trans hin) Bool.false_ne_true
      | true => exact .inr rfl

/-- The flag is up while some routine is inside, and it may be up when none is. -/
structure Covered (flag : Bool) (roles : List Role) : Prop where
  up : anyInside roles = true → flag = true
  apart : Apart roles

namespace Covered

theorem push (h : Covered flag roles) : Covered flag (.outside :: roles) := ⟨h.up, h.apart⟩

theorem pop (h : Covered flag (role :: roles)) : Covered flag roles := by
  refine ⟨fun hin => h.up ?_, ?_⟩
  · rw [anyInside_eq_true] at hin ⊢
    exact List.mem_cons_of_mem role hin
  · exact h.apart.tail

theorem read (h : Covered flag (.outside :: roles)) : Covered flag (.read flag :: roles) := by
  refine ⟨h.up, fun hflag => ?_, h.apart⟩
  cases hin : anyInside roles with
  | false => rfl
  | true => exact absurd (hflag.symm.trans (h.up hin)) Bool.false_ne_true

theorem enter (h : Covered flag (.read false :: roles)) : Covered true (.inside :: roles) :=
  ⟨fun _ => rfl, h.apart.1 rfl, h.apart.2⟩

theorem refuse (h : Covered flag (.read true :: roles)) : Covered true (.outside :: roles) :=
  ⟨fun _ => rfl, h.apart.2⟩

theorem leave (h : Covered flag (.inside :: roles)) : Covered false (.outside :: roles) := by
  refine ⟨fun hin => ?_, h.apart.2⟩
  exact absurd (h.apart.1.symm.trans hin) Bool.false_ne_true

theorem lower (h : Covered flag (.inside :: roles)) : Covered flag (.outside :: roles) :=
  h.pop.push

end Covered
end Trace4J.Library.GuardFlag
