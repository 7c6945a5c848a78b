import Trace4J.Offline.AddressLines
import Trace4J.Offline.MethodManager

/-!
# Source positions and slice labels

`Interpreter.getSrcPosition` prints a frame of a call path, and `output_to_pftrace` cuts the
name of the slice out of the last frame. The cut starts one character too late: it takes
away a piece of the package, or the first character of a class that has none.
-/

namespace Trace4J.Offline
open Library

/-! ## Positions -/

/-- The names that `getSrcPosition` looks up, and `ip` as it stands at the end. -/
structure Frame where
  className : Option Text := none
  methodName : Option Text := none
  sourceFile : Option Text := none
  sourceLineno : Option Text := none
  ip : Option Text := none

def rootName : Text := ['R', 'o', 'o', 't']

def orUnknown : Option Text → Text
  | some (c :: s) => c :: s
  | _ => ['?', '?']

def Frame.text (f : Frame) : Text :=
  let className := orUnknown f.className
  if className = rootName then []
  else
    className ++ '.' :: orUnknown f.methodName ++
      '(' :: orUnknown f.sourceFile ++ ':' :: orUnknown f.sourceLineno ++ [')']

/-- The line tables of a method are what `trees` finds for it. -/
structure Interpreter where
  methodManager : MethodManager
  contextManager : ContextManager
  trees : Method → MethodTrees

namespace Interpreter

/-- `none` is the `ValueError` of a lookup. -/
def frame (intpr : Interpreter) (ctxt : Context) : Option (Frame × Interpreter) :=
  if ctxt.id ∈ intpr.contextManager.rootSet then some ({ className := some rootName }, intpr)
  else
    let (method, methodManager) := intpr.methodManager.getMethod ctxt.methodId ctxt.methodVersion
    let intpr := { intpr with methodManager := methodManager }
    if ctxt.binaryAddr ≠ ['0'] then
      match method with
      | none => some ({ ip := some ctxt.binaryAddr }, intpr)
      | some m => do
        let line ← (intpr.trees m).addr2line.addr2line ctxt.binaryAddr
        some (⟨some m.className, some m.methodName, some m.file, line, some ctxt.binaryAddr⟩, intpr)
    else
      match method with
      | none => some ({}, intpr)
      | some m => do
        let line ← (intpr.trees m).bci2line.bci2line ctxt.bci
        some (⟨some m.className, some m.methodName, some m.file, line, none⟩, intpr)

/-- `hex(int(ip))` is computed for its exception only. -/
def getSrcPosition (intpr : Interpreter) (ctxt : Context) : Option (Text × Interpreter) := do
  let (f, intpr) ← intpr.frame ctxt
  match f.ip with
  | none => some (f.text, intpr)
  | some ip => (pyInt ip).map fun _ => (f.text, intpr)

def srcPositions : Interpreter → List Context → Option (List Text × Interpreter)
  | intpr, [] => some ([], intpr)
  | intpr, ctxt :: path => do
    let (position, intpr) ← intpr.getSrcPosition ctxt
    let (positions, intpr) ← intpr.srcPositions path
    some (position :: positions, intpr)

def lastFrame : Interpreter → List Context → Option Frame
  | _, [] => none
  | intpr, [ctxt] => (intpr.frame ctxt).map fun out => out.1
  | intpr, ctxt :: path => do
    let (_, intpr) ← intpr.getSrcPosition ctxt
    intpr.lastFrame path

def callpath (intpr : Interpreter) (path : List Context) : Option Text :=
  (intpr.srcPositions path).map fun out => ['\n'].intercalate out.1

end Interpreter

/-- A class by the components of its package and its simple name. -/
structure ClassName where
  package : List Text
  simple : Text
  simple_dot : '.' ∉ simple

namespace ClassName

def text (c : ClassName) : Text := ['.'].intercalate (c.package ++ [c.simple])

def label (c : ClassName) (method : Text) : Text := c.simple ++ '.' :: method

end ClassName

/-! ## Searching -/

section Search
variable {c : Char} {x y x' y' s : Text}

theorem pyFind_of_not_mem (h : c ∉ s) : pyFind c s = -1 := by
  induction s with
  | nil => rfl
  | cons a s ih =>
    rw [List.mem_cons, not_or] at h
    rw [pyFind, if_neg (Ne.symm h.1), ih h.2]
    rfl

theorem pyFind_append (h : c ∉ x) : pyFind c (x ++ c :: y) = x.length := by
  induction x with
  | nil => simp [pyFind]
  | cons a x ih =>
    rw [List.mem_cons, not_or] at h
    rw [List.cons_append, pyFind, if_neg (Ne.symm h.1), ih h.2, List.length_cons]
    simp

theorem pyRfind_of_not_mem (h : c ∉ s) : pyRfind c s = -1 := by
  have hreverse : c ∉ s.reverse := by simpa using h
  simp [pyRfind, pyFind_of_not_mem hreverse]

theorem pyRfind_append (h : c ∉ y) : pyRfind c (x ++ c :: y) = x.length := by
  have hreverse : pyFind c (x ++ c :: y).reverse = y.length := by
    have hy : c ∉ y.reverse := by simpa using h
    rw [List.reverse_append, List.reverse_cons, List.append_assoc, List.singleton_append,
      pyFind_append hy, List.length_reverse]
  simp only [pyRfind, hreverse, List.length_append, List.length_cons]
  split_ifs <;> omega

theorem exists_last_of_mem (h : c ∈ s) : ∃ x y, s = x ++ c :: y ∧ c ∉ y := by
  have hreverse : c ∈ s.reverse := by simpa using h
  obtain ⟨y, x, hs, hy⟩ := List.eq_append_cons_of_mem hreverse
  refine ⟨x.reverse, y.reverse, ?_, by simpa using hy⟩
  rw [← s.reverse_reverse, hs]
  simp

theorem last_unique (hy : c ∉ y) (hy' : c ∉ y') (h : x ++ c :: y = x' ++ c :: y') :
    x = x' ∧ y = y' := by
  have hlen : x.length = x'.length := by
    have hfind := pyRfind_append hy (x := x)
    rw [h, pyRfind_append hy'] at hfind
    omega
  have hsplit := List.append_inj h hlen
  exact ⟨hsplit.1, (List.cons.inj hsplit.2).2⟩

theorem pyRfind_add_one (c : Char) (s : Text) :
    ∃ front rest, s = front ++ rest ∧ pyRfind c s + 1 = (front.length : ℤ) ∧ c ∉ rest ∧
      (front = [] ∨ front.getLast? = some c) := by
  by_cases h : c ∈ s
  · obtain ⟨x, y, hs, hy⟩ := exists_last_of_mem h
    have hfind := pyRfind_append hy (x := x)
    rw [← hs] at hfind
    exact ⟨x ++ [c], y, by simp [hs], by simp [hfind], hy, Or.inr (by simp)⟩
  · exact ⟨[], s, rfl, by simp [pyRfind_of_not_mem h], h, Or.inl rfl⟩

theorem pyRfind_front (hfront : x = [] ∨ x.getLast? = some c) (hy : c ∉ y) :
    pyRfind c (x ++ y) + 1 = x.length := by
  obtain rfl | hlast := hfront
  · simp [pyRfind_of_not_mem hy]
  · obtain ⟨x', rfl⟩ := List.getLast?_eq_some_iff.mp hlast
    rw [List.append_assoc, List.singleton_append, pyRfind_append hy]
    simp

theorem pySlice_from (i : ℕ) (hi : ℤ) : pySlice s i hi = (pySlice s 0 hi).drop i := by
  have hzero : pySlice s 0 hi = s.take (pyIndex s.length hi) := by simp [pySlice, pyIndex]
  rw [hzero, pySlice, pyIndex_nat]
  obtain h | h := Nat.le_total i s.length
  · rw [Nat.min_eq_left h]
  · have hlen : (s.take (pyIndex s.length hi)).length ≤ s.length := List.length_take_le' _ s
    rw [Nat.min_eq_right h, List.drop_eq_nil_of_le hlen, List.drop_eq_nil_of_le (hlen.trans h)]

theorem pySlice_to (hi : ℤ) : pySlice s 0 hi = s.take (pyIndex s.length hi) := by
  simp [pySlice, pyIndex]

end Search

/-! ## The last line -/

def lastLine (s : Text) : Text := s.drop (pyRfind '\n' s + 1).toNat

section Lines
variable {before line s : Text}

theorem lastLine_append (hbefore : before = [] ∨ before.getLast? = some '\n')
    (hline : '\n' ∉ line) : lastLine (before ++ line) = line := by
  rw [lastLine, pyRfind_front hbefore hline, Int.toNat_natCast, List.drop_left]

theorem lastLine_of_not_mem (h : '\n' ∉ s) : lastLine s = s := by
  have hline : lastLine ([] ++ s) = s := lastLine_append (Or.inl rfl) h
  rwa [List.nil_append] at hline

theorem lastLine_join (hbefore : before = [] ∨ before.getLast? = some '\n') :
    lastLine (before ++ s) = lastLine s := by
  obtain ⟨front, rest, hs, -, hrest, hfront⟩ := pyRfind_add_one '\n' s
  rw [hs, lastLine_append hfront hrest, ← List.append_assoc]
  apply lastLine_append _ hrest
  obtain rfl | hlast := hfront
  · simpa using hbefore
  · exact Or.inr (by simp [hlast])

theorem intercalate_concat (positions : List Text) (line : Text) :
    ∃ before, ['\n'].intercalate (positions ++ [line]) = before ++ line ∧
      (before = [] ∨ before.getLast? = some '\n') := by
  induction positions with
  | nil => exact ⟨[], by simp [List.intercalate], Or.inl rfl⟩
  | cons position positions ih =>
    obtain ⟨before, hjoin, hbefore⟩ := ih
    refine ⟨position ++ '\n' :: before, ?_, Or.inr ?_⟩
    · rw [List.cons_append, List.intercalate_cons_of_ne_nil (by simp), hjoin]
      simp
    · obtain rfl | hlast := hbefore
      · simp
      · simp [List.getLast?_cons, hlast]

end Lines

/-! ## Labels -/

/-- The last two dotted parts of what precedes the first bracket. -/
def labelOf (s : Text) : Text :=
  let paren := pyFind '(' s
  pySlice s (pyRfindTo '.' s (pyRfindTo '.' s paren) + 1) paren

def beforeParen (s : Text) : Text := pySlice s 0 (pyFind '(' s)

/-- The label stands in front of the bracket, after a dot if after anything. -/
def Spells (label s : Text) : Prop :=
  ∃ front, beforeParen s = front ++ label ∧ (front = [] ∨ front.getLast? = some '.')

section Label
variable {simple method s : Text}

/-- From its second character on the last line of a path is what the label is cut from. -/
theorem sliceName_eq_labelOf (callpath : Text) :
    sliceName callpath = labelOf ((lastLine callpath).drop 1) := by
  obtain ⟨front, rest, hs, hfind, -⟩ := pyRfind_add_one '\n' callpath
  have hcut : pySlice callpath (pyRfind '\n' callpath + 2) callpath.length =
      (lastLine callpath).drop 1 := by
    have hnat : pyRfind '\n' callpath + 2 = ((front.length + 1 : ℕ) : ℤ) := by
      push_cast
      omega
    rw [hnat, pySlice_drop, lastLine, hfind, Int.toNat_natCast, List.drop_drop]
  rw [sliceName, hcut, labelOf]

theorem exists_beforeParen (s : Text) : ∃ rest, s = beforeParen s ++ rest := by
  refine ⟨s.drop (pyIndex s.length (pyFind '(' s)), ?_⟩
  rw [beforeParen, pySlice_to, List.take_append_drop]

theorem labelOf_eq_drop {front : Text}
    (h : pyRfindTo '.' s (pyRfind '.' (beforeParen s)) + 1 = front.length) :
    labelOf s = (beforeParen s).drop front.length := by
  rw [beforeParen, ← pySlice_from, ← h]
  rfl

theorem Spells.of_labelOf_eq (h : labelOf s = simple ++ '.' :: method) :
    Spells (simple ++ '.' :: method) s := by
  obtain ⟨front, rest, hs, hfind, -, hfront⟩ :=
    pyRfind_add_one '.' (pySlice s 0 (pyRfind '.' (beforeParen s)))
  have hdrop := labelOf_eq_drop hfind
  obtain ⟨after, hafter⟩ := exists_beforeParen s
  have hlen : front.length ≤ (beforeParen s).length := by
    have hlabel := congrArg List.length (hdrop.symm.trans h)
    simp at hlabel
    omega
  -- both are prefixes of the text
  have hinit : (beforeParen s).take front.length = front := by
    rw [← @List.take_append_of_le_length _ (beforeParen s) after _ hlen, ← hafter]
    rw [pySlice_to] at hs
    have hsplit := List.take_append_drop (pyIndex s.length (pyRfind '.' (beforeParen s))) s
    rw [← hsplit, hs, List.append_assoc, List.take_left]
  refine ⟨front, ?_, hfront⟩
  calc beforeParen s
      = (beforeParen s).take front.length ++ (beforeParen s).drop front.length :=
        (List.take_append_drop _ _).symm
    _ = front ++ (simple ++ '.' :: method) := by rw [hinit, ← hdrop, h]

theorem Spells.labelOf_eq (hsimple : '.' ∉ simple) (hmethod : '.' ∉ method)
    (h : Spells (simple ++ '.' :: method) s) : labelOf s = simple ++ '.' :: method := by
  obtain ⟨front, hread, hfront⟩ := h
  rw [← List.append_assoc] at hread
  have hdot : pyRfind '.' (beforeParen s) = (front ++ simple).length := by
    rw [hread, pyRfind_append hmethod]
  have hclass : pyRfindTo '.' s (pyRfind '.' (beforeParen s)) + 1 = front.length := by
    obtain ⟨after, hafter⟩ := exists_beforeParen s
    have hinit : pySlice s 0 (front ++ simple).length = front ++ simple := by
      have hslice := pySlice_nat s 0 (front ++ simple).length
      rw [List.drop_zero] at hslice
      refine hslice.trans ?_
      rw [hafter, hread, List.append_assoc, List.take_left]
    rw [hdot, pyRfindTo, hinit, pyRfind_front hfront hsimple]
  rw [labelOf_eq_drop hclass, hread, List.append_assoc, List.drop_left]

theorem labelOf_eq_iff (hsimple : '.' ∉ simple) (hmethod : '.' ∉ method) :
    labelOf s = simple ++ '.' :: method ↔ Spells (simple ++ '.' :: method) s := by
  constructor
  · exact Spells.of_labelOf_eq
  · exact Spells.labelOf_eq hsimple hmethod

end Label

/-! ## Frames of a named method -/

/-- When the label of a frame is complete. Of a plain frame the cut takes one character, which
must be one of the package. -/
def Frame.Complete (f : Frame) (c : ClassName) (method : Text) : Prop :=
  if '\n' ∉ f.text ∧ '(' ∉ c.text then c.package ≠ [] ∧ method ≠ []
  else Spells (c.label method) ((lastLine f.text).drop 1)

section Frames
variable {f : Frame} {c : ClassName} {method : Text}

theorem ClassName.exists_text (c : ClassName) :
    ∃ front, c.text = front ++ c.simple ∧
      (c.package = [] ∧ front = [] ∨ c.package ≠ [] ∧ front.getLast? = some '.') := by
  rw [ClassName.text]
  induction c.package with
  | nil => exact ⟨[], by simp [List.intercalate], Or.inl ⟨rfl, rfl⟩⟩
  | cons name package ih =>
    obtain ⟨front, htext, hfront⟩ := ih
    refine ⟨name ++ '.' :: front, ?_, Or.inr ⟨by simp, ?_⟩⟩
    · rw [List.cons_append, List.intercalate_cons_of_ne_nil (by simp), htext]
      simp
    · obtain ⟨-, rfl⟩ | ⟨-, hlast⟩ := hfront
      · simp
      · simp [List.getLast?_cons, hlast]

theorem orUnknown_some {s : Text} : orUnknown (some s) = if s = [] then ['?', '?'] else s := by
  cases s <;> rfl

theorem beforeParen_append {x rest : Text} (h : '(' ∉ x) : beforeParen (x ++ '(' :: rest) = x := by
  rw [beforeParen, pyFind_append h]
  refine (pySlice_nat _ 0 _).trans ?_
  rw [List.take_left, List.drop_zero]

theorem orUnknown_eq_iff : orUnknown (some method) = method ↔ method ≠ [] := by
  rw [orUnknown_some]
  split_ifs with h <;> simp [h]

theorem exists_cons_orUnknown (s : Text) : ∃ a t, orUnknown (some s) = a :: t := by
  cases s with
  | nil => exact ⟨'?', ['?'], rfl⟩
  | cons a t => exact ⟨a, t, rfl⟩

theorem mem_orUnknown {s : Text} {a : Char} (ha : a ≠ '?') (h : a ∉ s) :
    a ∉ orUnknown (some s) := by
  rw [orUnknown_some]
  split_ifs
  · simpa using ha
  · exact h

/-- The cut leaves the simple name whole exactly if the class has a package. -/
theorem exists_front_iff (c : ClassName) :
    (∃ front, (orUnknown (some c.text)).drop 1 = front ++ c.simple ∧
      (front = [] ∨ front.getLast? = some '.')) ↔ c.package ≠ [] := by
  obtain ⟨front, htext, hpackage⟩ := c.exists_text
  rw [orUnknown_some]
  constructor
  · rintro ⟨front', hdrop, hfront'⟩ hnil
    obtain ⟨-, rfl⟩ | ⟨hne, -⟩ := hpackage
    · rw [List.nil_append] at htext
      split_ifs at hdrop with hempty
      · rw [← htext, hempty, List.append_nil] at hdrop
        simp [← hdrop] at hfront'
      · have hlen := congrArg List.length hdrop
        have hpos := List.length_pos_iff.mpr hempty
        simp [htext] at hlen hpos
        omega
    · exact hne hnil
  · intro hne
    obtain ⟨hnil, -⟩ | ⟨-, hlast⟩ := hpackage
    · exact absurd hnil hne
    · cases front with
      | nil => cases hlast
      | cons a front =>
        rw [htext, if_neg (by simp)]
        refine ⟨front, rfl, ?_⟩
        cases front with
        | nil => exact Or.inl rfl
        | cons b front => exact Or.inr (by simpa using hlast)

theorem Frame.text_of_package (hclass : f.className = some c.text) (h : c.text ≠ rootName) :
    f.text = orUnknown (some c.text) ++ '.' :: orUnknown f.methodName ++
      '(' :: orUnknown f.sourceFile ++ ':' :: orUnknown f.sourceLineno ++ [')'] := by
  have hroot : orUnknown (some c.text) ≠ rootName := by
    rw [orUnknown_some]
    split_ifs
    · decide
    · exact h
  rw [Frame.text, hclass]
  exact if_neg hroot

theorem package_eq_nil_of_root (h : c.text = rootName) : c.package = [] := by
  obtain ⟨front, htext, ⟨hnil, -⟩ | ⟨-, hlast⟩⟩ := c.exists_text
  · exact hnil
  · have hdot : '.' ∈ rootName := by
      rw [← h, htext]
      exact List.mem_append_left _ (List.mem_of_getLast? hlast)
    exact absurd hdot (by decide)

theorem spells_iff_of_plain (hclass : f.className = some c.text)
    (hmethod : f.methodName = some method) (hdot : '.' ∉ method) (hparen : '(' ∉ method)
    (hc : '(' ∉ c.text) :
    Spells (c.label method) (f.text.drop 1) ↔ c.package ≠ [] ∧ method ≠ [] := by
  by_cases hroot : c.text = rootName
  · have htext : f.text = [] := by simp [Frame.text, hclass, hroot, rootName, orUnknown]
    simp [htext, Spells, beforeParen, pySlice, ClassName.label, package_eq_nil_of_root hroot]
  · have hmethod' := mem_orUnknown (by decide) hdot
    have hdrop : beforeParen (f.text.drop 1) =
        (orUnknown (some c.text)).drop 1 ++ '.' :: orUnknown (some method) := by
      have hclass' := mem_orUnknown (by decide) hc
      have hmethod'' := mem_orUnknown (by decide) hparen
      obtain ⟨a, s, hs⟩ := exists_cons_orUnknown c.text
      rw [hs, List.mem_cons, not_or] at hclass'
      rw [Frame.text_of_package hclass hroot, hmethod, hs]
      simp only [List.cons_append, List.append_assoc, List.drop_succ_cons, List.drop_zero]
      rw [← List.cons_append, ← List.append_assoc]
      apply beforeParen_append
      simp [hclass'.2, hmethod'']
    rw [← exists_front_iff, ← orUnknown_eq_iff, Spells, hdrop]
    constructor
    · rintro ⟨front, hread, hfront⟩
      rw [ClassName.label, ← List.append_assoc] at hread
      have hparts := last_unique hmethod' hdot hread
      exact ⟨⟨front, hparts.1, hfront⟩, hparts.2⟩
    · rintro ⟨⟨front, hdropped, hfront⟩, hname⟩
      refine ⟨front, ?_, hfront⟩
      rw [hdropped, hname, ClassName.label, List.append_assoc]

theorem labelOf_eq_iff_complete (hclass : f.className = some c.text)
    (hmethod : f.methodName = some method) (hdot : '.' ∉ method) (hparen : '(' ∉ method) :
    labelOf ((lastLine f.text).drop 1) = c.label method ↔ f.Complete c method := by
  rw [ClassName.label, labelOf_eq_iff c.simple_dot hdot, Frame.Complete]
  split_ifs with hplain
  · rw [lastLine_of_not_mem hplain.1]
    exact spells_iff_of_plain hclass hmethod hdot hparen hplain.2
  · rfl

end Frames

/-! ## Paths -/

section Paths
variable {intpr intpr' : Interpreter} {ctxt : Context} {path : List Context} {f : Frame}
  {position key : Text} {positions : List Text}

theorem Interpreter.frame_of_getSrcPosition
    (h : intpr.getSrcPosition ctxt = some (position, intpr')) :
    ∃ f, intpr.frame ctxt = some (f, intpr') ∧ position = f.text := by
  rw [getSrcPosition] at h
  cases hframe : intpr.frame ctxt with
  | none => simp [hframe] at h
  | some out =>
    refine ⟨out.1, ?_⟩
    rw [hframe] at h
    simp only [Option.bind_eq_bind, Option.bind_some] at h
    split at h
    · cases h
      exact ⟨rfl, rfl⟩
    · rw [Option.map_eq_some_iff] at h
      obtain ⟨-, -, hout⟩ := h
      cases hout
      exact ⟨rfl, rfl⟩

theorem Interpreter.srcPositions_concat (h : intpr.srcPositions path = some (positions, intpr'))
    (hlast : intpr.lastFrame path = some f) : ∃ before, positions = before ++ [f.text] := by
  induction path generalizing intpr intpr' positions with
  | nil => cases hlast
  | cons ctxt path ih =>
    rw [srcPositions] at h
    cases hposition : intpr.getSrcPosition ctxt with
    | none => simp [hposition] at h
    | some out =>
      simp only [hposition, Option.bind_eq_bind, Option.bind_some] at h
      cases hrest : out.2.srcPositions path with
      | none => simp [hrest] at h
      | some out' =>
        simp only [hrest, Option.bind_some, Option.some.injEq, Prod.mk.injEq] at h
        cases path with
        | nil =>
          obtain ⟨f', hframe, hf'⟩ := frame_of_getSrcPosition hposition
          simp only [lastFrame, hframe, Option.map_some, Option.some.injEq] at hlast
          cases hrest
          exact ⟨[], by rw [← h.1, hf', hlast, List.nil_append]⟩
        | cons ctxt' path =>
          obtain ⟨before, hbefore⟩ := ih hrest (by simpa [lastFrame, hposition] using hlast)
          exact ⟨out.1 :: before, by rw [← h.1, hbefore, List.cons_append]⟩

theorem Interpreter.key_of_lastFrame (h : intpr.callpath path = some key)
    (hlast : intpr.lastFrame path = some f) :
    ∃ before, key = before ++ f.text ∧ (before = [] ∨ before.getLast? = some '\n') := by
  rw [callpath, Option.map_eq_some_iff] at h
  obtain ⟨out, hout, hkey⟩ := h
  obtain ⟨positions, hpositions⟩ := srcPositions_concat hout hlast
  rw [← hkey, hpositions]
  exact intercalate_concat positions f.text

/-- The label of a path names the class and the method of its last frame, each complete,
exactly if that frame meets the condition. -/
theorem sliceName_callpath_iff {c : ClassName} {method : Text}
    (h : intpr.callpath path = some key) (hlast : intpr.lastFrame path = some f)
    (hclass : f.className = some c.text) (hmethod : f.methodName = some method)
    (hdot : '.' ∉ method) (hparen : '(' ∉ method) :
    sliceName key = c.label method ↔ f.Complete c method := by
  obtain ⟨before, hkey, hbefore⟩ := Interpreter.key_of_lastFrame h hlast
  rw [sliceName_eq_labelOf, hkey, lastLine_join hbefore]
  exact labelOf_eq_iff_complete hclass hmethod hdot hparen

/-! Two paths of a root and one frame: `Main.run` and `java.util.List.add`. -/

def mainRun : Method :=
  ⟨['7'], ['1'], ['M', '.', 'j'], ['0'], ['0'], ['r', 'u', 'n'], ['M', 'a', 'i', 'n']⟩

def mainClass : ClassName := ⟨[], ['M', 'a', 'i', 'n'], by decide⟩

def listAdd : Method :=
  ⟨['7'], ['1'], ['L', '.', 'j'], ['0'], ['0'], ['a', 'd', 'd'],
    ['j', 'a', 'v', 'a', '.', 'u', 't', 'i', 'l', '.', 'L', 'i', 's', 't']⟩

def listClass : ClassName :=
  ⟨[['j', 'a', 'v', 'a'], ['u', 't', 'i', 'l']], ['L', 'i', 's', 't'], by decide⟩

def oneMethod (m : Method) : Interpreter :=
  ⟨loadMethod [m], { rootSet := {['0']} }, fun _ => ⟨.empty, .empty⟩⟩

def rootAndFrame : List Context :=
  [⟨['0'], ['0'], ['0'], ['0'], ['0'], ∅, [], {['5']}⟩,
    ⟨['5'], ['1'], ['0'], ['7'], ['3'], ∅, ['0'], ∅⟩]

def mainKey : Text :=
  ['\n', 'M', 'a', 'i', 'n', '.', 'r', 'u', 'n', '(', 'M', '.', 'j', ':', '?', '?', ')']

theorem not_sliceName_mainRun :
    ¬ ∀ (intpr : Interpreter) (path : List Context) (key : Text) (f : Frame) (c : ClassName)
      (method : Text), intpr.callpath path = some key → intpr.lastFrame path = some f →
      f.className = some c.text → f.methodName = some method → '.' ∉ method → '(' ∉ method →
      sliceName key = c.label method := by
  intro h
  have hlabel := h (oneMethod mainRun) rootAndFrame mainKey
    ⟨some mainRun.className, some mainRun.methodName, some mainRun.file, none, none⟩ mainClass
    mainRun.methodName rfl rfl rfl rfl (by decide) (by decide)
  have hcut : sliceName mainKey = ['a', 'i', 'n', '.', 'r', 'u', 'n'] := by decide +kernel
  exact absurd (hcut.symm.trans hlabel) (by decide)

def listKey : Text :=
  ['\n', 'j', 'a', 'v', 'a', '.', 'u', 't', 'i', 'l', '.', 'L', 'i', 's', 't', '.', 'a', 'd',
    'd', '(', 'L', '.', 'j', ':', '?', '?', ')']

def listFrame : Frame :=
  ⟨some listAdd.className, some listAdd.methodName, some listAdd.file, none, none⟩

theorem sliceName_listAdd :
    (oneMethod listAdd).callpath rootAndFrame = some listKey ∧
      sliceName listKey = listClass.label listAdd.methodName := by
  have hkey : (oneMethod listAdd).callpath rootAndFrame = some listKey := rfl
  have hlast : (oneMethod listAdd).lastFrame rootAndFrame = some listFrame := rfl
  have hcomplete : listFrame.Complete listClass listAdd.methodName := by
    rw [Frame.Complete, if_pos (by decide)]
    decide
  refine ⟨hkey, ?_⟩
  exact (sliceName_callpath_iff hkey hlast rfl rfl (by decide) (by decide)).mpr hcomplete

end Paths
end Trace4J.Offline
