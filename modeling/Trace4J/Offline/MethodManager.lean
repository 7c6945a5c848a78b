import Mathlib.Data.List.AList
import Trace4J.Offline.Pftrace

/-!
# Methods in the offline scripts

`MethodManager` of the Python side and the part of `load_method` that fills it. A
method element is the record of its attributes; the line tables below it are not kept.
-/

namespace Trace4J.Offline

structure Method where
  methodId : Text
  version : Text
  file : Text
  startAddr : Text
  codeSize : Text
  methodName : Text
  className : Text

abbrev MethodManager := AList fun _ : Text => Method

def methodKey (methodId version : Text) : Text := methodId ++ '#' :: version

def Method.key (m : Method) : Text := methodKey m.methodId m.version

namespace MethodManager

def addMethod (mgr : MethodManager) (m : Method) : MethodManager :=
  match mgr.lookup m.key with
  | some _ => mgr
  | none => mgr.insert m.key m

/-- A version 0 that is not there is made from version 1 and kept. -/
def getMethod (mgr : MethodManager) (methodId version : Text) : Option Method × MethodManager :=
  match mgr.lookup (methodKey methodId version) with
  | some m => (some m, mgr)
  | none =>
    if version ≠ ['0'] then (none, mgr)
    else
      match mgr.lookup (methodKey methodId ['1']) with
      | none => (none, mgr)
      | some candidate =>
        let m := { candidate with version := ['0'], startAddr := ['0'], codeSize := ['0'] }
        (some m, mgr.addMethod m)

end MethodManager

def loadMethod (methods : List Method) : MethodManager :=
  methods.foldl MethodManager.addMethod ∅

namespace MethodManager
variable {mgr : MethodManager} {m : Method} {key methodId version : Text}

theorem lookup_addMethod (h : (mgr.lookup key).isSome) : ((mgr.addMethod m).lookup key).isSome := by
  unfold addMethod
  cases hm : mgr.lookup m.key with
  | some m' => exact h
  | none =>
    have hne : key ≠ m.key := by
      rintro rfl
      simp [hm] at h
    simpa only [AList.lookup_insert_ne hne] using h

theorem lookup_addMethod_self : ((mgr.addMethod m).lookup m.key).isSome := by
  unfold addMethod
  cases hm : mgr.lookup m.key with
  | some m' => simp [hm]
  | none => simp

theorem lookup_foldl (methods : List Method) (mgr : MethodManager) (key : Text)
    (h : (mgr.lookup key).isSome ∨ ∃ m ∈ methods, m.key = key) :
    ((methods.foldl addMethod mgr).lookup key).isSome := by
  induction methods generalizing mgr with
  | nil => exact h.resolve_right (by simp)
  | cons m ms ih =>
    apply ih
    obtain h | ⟨m', hm', rfl⟩ := h
    · exact .inl (lookup_addMethod h)
    · obtain rfl | hm' := List.mem_cons.mp hm'
      · exact .inl lookup_addMethod_self
      · exact .inr ⟨m', hm', rfl⟩

end MethodManager

section Load
variable {methods : List Method} {m : Method}

theorem loadMethod_getMethod (hm : m ∈ methods) :
    ((loadMethod methods).getMethod m.methodId m.version).1 ≠ none := by
  have hkey : ((loadMethod methods).lookup m.key).isSome :=
    MethodManager.lookup_foldl methods ∅ m.key (.inr ⟨m, hm, rfl⟩)
  obtain ⟨m', hm'⟩ := Option.isSome_iff_exists.mp hkey
  rw [Method.key] at hm'
  simp only [MethodManager.getMethod, hm']
  exact Option.some_ne_none m'

theorem loadMethod_getMethod_zero (hm : m ∈ methods) (hone : m.version = ['1']) :
    ((loadMethod methods).getMethod m.methodId ['0']).1 ≠ none := by
  have hkey : ((loadMethod methods).lookup m.key).isSome :=
    MethodManager.lookup_foldl methods ∅ m.key (.inr ⟨m, hm, rfl⟩)
  obtain ⟨m', hm'⟩ := Option.isSome_iff_exists.mp hkey
  rw [Method.key, hone] at hm'
  unfold MethodManager.getMethod
  cases hzero : (loadMethod methods).lookup (methodKey m.methodId ['0']) with
  | some z => simp
  | none => simp [hm']

end Load
end Trace4J.Offline
