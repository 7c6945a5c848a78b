import Trace4J.Offline.HomoXmlParser
import Trace4J.Offline.XmlSegments

/-!
# Splitting the method file

`splitMethod.py` cuts the method file into files of a given number of methods, and
`process_raw_data.py` puts the method files together again. The last file takes the text
behind the last method for one more method, and no file has the name under which the methods
are put together.
-/

namespace Trace4J.Offline
open Library

/-! ## Splitting -/

def splitOnLoop (sep : Text) : ℕ → Text → List Text
  | 0, s => [s]
  | fuel + 1, s =>
    let i := findText sep s
    if i < 0 then [s] else s.take i.toNat :: splitOnLoop sep fuel (s.drop (i.toNat + sep.length))

/-- `s.split(sep)` -/
def pySplitOn (sep s : Text) : List Text := splitOnLoop sep s.length s

/-- `s.count(sep)` -/
def pyCount (sep s : Text) : ℕ := (pySplitOn sep s).length - 1

def methodTag : Text := ['m', 'e', 't', 'h', 'o', 'd']

def closeMethod : Text := closeTag methodTag

/-- The parts from number `i` on that go into one file, each with its tag. -/
def splitFile (parts : List Text) (methodsPerFile i : ℕ) : Text :=
  ((parts.drop i).take methodsPerFile).flatMap (· ++ closeMethod)

/-- `range(0, total, step)` -/
def pyRange (total step : ℕ) : List ℕ := (List.range ((total + step - 1) / step)).map (· * step)

def splitFileByMethodTag (content : Text) (methodsPerFile : ℕ) : List Text :=
  let parts := pySplitOn closeMethod content
  let total := parts.length - 1
  (pyRange total methodsPerFile).map (splitFile parts methodsPerFile)

/-! ## Merging -/

def agentTrace : Text := ['a', 'g', 'e', 'n', 't', '-', 't', 'r', 'a', 'c', 'e', '-']

def dotRun : Text := ['.', 'r', 'u', 'n']

def outputFilename (fileCount : ℕ) : Text :=
  agentTrace ++ methodTag ++ Nat.toDigits 10 (fileCount + 1) ++ dotRun

structure File where
  name : Text
  content : Text

def splitFiles (content : Text) (methodsPerFile : ℕ) : List File :=
  (splitFileByMethodTag content methodsPerFile).mapIdx fun i output => ⟨outputFilename i, output⟩

/-- The `tid` of a file in `get_all_files`. -/
def tidOf (f : Text) : Option Text :=
  if agentTrace <+: f ∧ 0 ≤ findText dotRun f then
    some (pySlice f agentTrace.length (findText dotRun f))
  else none

abbrev FileDict := AList fun _ : Text => List Text

abbrev RootDict := AList fun _ : Text => XmlNode

def addFile (dict : FileDict) (f : File) : FileDict :=
  match tidOf f.name with
  | none => dict
  | some tid => dict.insert tid ((dict.lookup tid).getD [] ++ [f.content])

def getAllFiles (files : List File) : FileDict := files.foldl addFile ∅

def XmlNode.addChildren (obj : XmlNode) (cs : List XmlNode) : XmlNode :=
  ⟨obj.name, obj.attr, obj.children ++ cs⟩

inductive MergeError
  | parser | keyError

section Merge
variable (parse : Text → Text → Option XmlNode)

/-- `parallel1` on the texts of the files. `parse` is `parse_input_file`: it gets the tag of the
level-one nodes and the text of a file. -/
def parallel1Texts (tid : Text) (files : List Text) : Except MergeError (Option XmlNode) := do
  let levelOneNodeTag :=
    if findText methodTag tid ≠ -1 then methodTag else ['c', 'o', 'n', 't', 'e', 'x', 't']
  let root ← files.foldlM (fun root f =>
    match parse levelOneNodeTag f with
    | none => .error .parser
    | some newRoot => .ok (root.addChildren newRoot.children)) virtualRoot
  .ok (if root.children = [] then none else some root)

def addRoot (dict : RootDict) (entry : Σ _ : Text, List Text) : Except MergeError RootDict := do
  match ← parallel1Texts parse entry.1 entry.2 with
  | none => .ok dict
  | some root => .ok (dict.insert entry.1 root)

def mergeSuffix (dict : RootDict) (i : ℕ) : Except MergeError RootDict :=
  match dict.lookup (methodTag ++ Nat.toDigits 10 i) with
  | none => .ok dict
  | some part =>
    match dict.lookup methodTag with
    | none => .error .keyError
    | some root =>
      .ok ((dict.insert methodTag (root.addChildren part.children)).erase
        (methodTag ++ Nat.toDigits 10 i))

def mergeMethods (files : List File) : Except MergeError XmlNode := do
  let dict ← (getAllFiles files).entries.foldlM (addRoot parse) ∅
  let dict ← (List.range' 2 95).foldlM mergeSuffix dict
  match dict.lookup methodTag with
  | none => .error .keyError
  | some root => .ok root

end Merge

/-! ## Parts -/

/-- The first character of a separator stands nowhere else in it, so that no two occurrences
overlap. -/
def HeadOnce (sep : Text) : Prop := ∃ a body, sep = a :: body ∧ a ∉ body

theorem closeMethod_headOnce : HeadOnce closeMethod := ⟨'<', closeMethod.tail, rfl, by decide⟩

def joined (sep : Text) (parts : List Text) : Text := parts.flatMap (· ++ sep)

section Parts
variable {sep s x rest out out' last : Text} {parts : List Text}

theorem HeadOnce.ne_nil (h : HeadOnce sep) : sep ≠ [] := by
  obtain ⟨a, body, rfl, -⟩ := h
  exact List.cons_ne_nil a body

theorem infix_of_findText (h : 0 ≤ findText sep s) : sep <:+: s := by
  obtain ⟨x, y, hs, -⟩ := findText_split h
  exact ⟨x, y, by rw [hs, List.append_assoc]⟩

theorem HeadOnce.not_starts (hsep : HeadOnce sep) {c : Char} (hx : ¬sep <:+: c :: x) :
    ¬sep <+: (c :: x) ++ (sep ++ rest) := by
  intro hstart
  obtain hle | hle := Nat.le_total sep.length (c :: x).length
  · exact hx (List.prefix_of_prefix_length_le hstart (List.prefix_append _ _) hle).isInfix
  · obtain ⟨u, hu⟩ := List.prefix_of_prefix_length_le (List.prefix_append _ _) hstart hle
    obtain ⟨a, body, rfl, ha⟩ := hsep
    rw [← hu, List.prefix_append_right_inj] at hstart
    obtain ⟨hc, hbody⟩ := List.cons.inj hu
    cases u with
    | nil => exact hx (by rw [← hu, List.append_nil])
    | cons d u =>
      have hd : d = c := by
        rw [List.cons_append, List.cons_append, List.cons_prefix_cons] at hstart
        exact hstart.1
      apply ha
      rw [← hbody, hd, hc]
      simp

theorem HeadOnce.findText_append (hsep : HeadOnce sep) (hx : ¬sep <:+: x) :
    findText sep (x ++ (sep ++ rest)) = x.length := by
  induction x with
  | nil => exact findText_prefix (List.prefix_append sep rest)
  | cons c x ih =>
    have hx' : ¬sep <:+: x := fun h => hx (h.trans (List.infix_cons (List.infix_refl x)))
    rw [List.cons_append, findText, ← List.cons_append, if_neg (hsep.not_starts hx), ih hx',
      List.length_cons]
    split_ifs <;> omega

theorem splitOnLoop_joined (hsep : HeadOnce sep) (hparts : ∀ p ∈ parts, ¬sep <:+: p)
    (hlast : ¬sep <:+: last) {fuel : ℕ} (hfuel : parts.length ≤ fuel) :
    splitOnLoop sep fuel (joined sep parts ++ last) = parts ++ [last] := by
  induction parts generalizing fuel with
  | nil =>
    have hneg : findText sep last < 0 := by
      by_contra h
      exact hlast (infix_of_findText (not_lt.mp h))
    cases fuel with
    | zero => rfl
    | succ fuel => exact if_pos hneg
  | cons p parts ih =>
    rw [List.forall_mem_cons] at hparts
    rw [List.length_cons] at hfuel
    cases fuel with
    | zero => omega
    | succ fuel =>
      have htext : joined sep (p :: parts) ++ last = p ++ (sep ++ (joined sep parts ++ last)) := by
        simp [joined]
      have hfind : findText sep (p ++ (sep ++ (joined sep parts ++ last))) = p.length :=
        hsep.findText_append hparts.1
      rw [splitOnLoop, htext, hfind]
      simp only [Int.toNat_natCast, if_neg (Int.natCast_nonneg p.length).not_gt, List.take_left,
        ← List.drop_drop, List.drop_left]
      rw [ih hparts.2 (by omega), List.cons_append]

theorem exists_parts (hsep : sep ≠ []) (s : Text) :
    ∃ parts last, s = joined sep parts ++ last ∧ (∀ p ∈ parts, ¬sep <:+: p) ∧ ¬sep <:+: last := by
  induction hn : s.length using Nat.strong_induction_on generalizing s with
  | _ n ih =>
    by_cases hfind : 0 ≤ findText sep s
    · obtain ⟨x, y, hs, hx⟩ := findText_split hfind
      have hlen : y.length < n := by
        have hpos := List.length_pos_iff.mpr hsep
        rw [← hn, hs, List.length_append, List.length_append]
        omega
      have hclean : ¬sep <:+: x := by
        intro hmem
        have hfirst := findText_nonneg hmem
        have happend := Offline.findText_append hfirst (t := sep ++ y)
        obtain ⟨u, v, hx', hu⟩ := findText_split hfirst
        have hpos := List.length_pos_iff.mpr hsep
        have hlen' := congrArg List.length hx'
        rw [← hs, hx, hu] at happend
        simp only [List.length_append] at hlen'
        omega
      obtain ⟨parts, last, hy, hparts, hlast⟩ := ih y.length hlen y rfl
      refine ⟨x :: parts, last, ?_, List.forall_mem_cons.mpr ⟨hclean, hparts⟩, hlast⟩
      rw [hs, hy]
      simp [joined]
    · have hs : ¬sep <:+: s := fun h => hfind (findText_nonneg h)
      exact ⟨[], s, rfl, nofun, hs⟩

theorem pySplitOn_joined (hsep : HeadOnce sep) (hparts : ∀ p ∈ parts, ¬sep <:+: p)
    (hlast : ¬sep <:+: last) : pySplitOn sep (joined sep parts ++ last) = parts ++ [last] := by
  apply splitOnLoop_joined hsep hparts hlast
  have hpos := List.length_pos_iff.mpr hsep.ne_nil
  have hjoined : parts.length ≤ (joined sep parts).length := by
    clear hparts
    induction parts with
    | nil => exact le_rfl
    | cons p parts ih =>
      rw [joined] at ih ⊢
      rw [List.flatMap_cons, List.length_append, List.length_append, List.length_cons]
      omega
  rw [List.length_append]
  omega

theorem joined_append (xs ys : List Text) :
    joined sep (xs ++ ys) = joined sep xs ++ joined sep ys := by
  simp [joined]

/-- The text up to and including the last occurrence of the separator. -/
structure UpToLast (sep s out : Text) : Prop where
  isPrefix : out <+: s
  ends : sep <:+ out
  longest : ∀ out', out' <+: s → sep <:+ out' → out'.length ≤ out.length

theorem UpToLast.unique (h : UpToLast sep s out) (h' : UpToLast sep s out') : out = out' := by
  have hlen := Nat.le_antisymm (h'.longest out h.isPrefix h.ends)
    (h.longest out' h'.isPrefix h'.ends)
  exact (List.prefix_of_prefix_length_le h.isPrefix h'.isPrefix hlen.le).eq_of_length hlen

theorem HeadOnce.not_ends (hsep : HeadOnce sep) {r : Text} (hs : sep <:+ s) (hr : r ≠ [])
    (hclean : ¬sep <:+: r) : ¬sep <:+ s ++ r := by
  intro hends
  obtain hle | hle := Nat.le_total sep.length r.length
  · exact hclean (List.suffix_of_suffix_length_le hends (List.suffix_append _ _) hle).isInfix
  · obtain ⟨v, hv⟩ := List.suffix_of_suffix_length_le (List.suffix_append s r) hends hle
    obtain ⟨a, body, rfl, ha⟩ := hsep
    cases v with
    | nil => exact hclean (by rw [← hv, List.nil_append])
    | cons d v =>
      obtain ⟨hd, hbody⟩ := List.cons.inj hv
      have hends' : d :: v <:+ s := by
        rwa [← hv, List.suffix_append_self_iff] at hends
      have hlen : (d :: v).length < (a :: body).length := by
        have hpos := List.length_pos_iff.mpr hr
        rw [← hv, List.length_append]
        omega
      -- the head would stand in the separator once more
      have hsuffix := List.suffix_of_suffix_length_le hends' hs hlen.le
      obtain heq | hbody' := List.suffix_cons_iff.mp hsuffix
      · exact hlen.ne (congrArg List.length heq)
      · exact ha (hd ▸ hbody'.subset List.mem_cons_self)

theorem upToLast_joined (hsep : HeadOnce sep) (hparts : parts ≠ []) (hlast : ¬sep <:+: last) :
    UpToLast sep (joined sep parts ++ last) (joined sep parts) := by
  have hends : sep <:+ joined sep parts := by
    rw [← List.dropLast_append_getLast hparts, joined_append]
    refine (List.suffix_append (parts.getLast hparts) sep).trans ?_
    simp [joined]
  refine ⟨List.prefix_append _ _, hends, ?_⟩
  intro out' hout hends'
  by_contra hlt
  have hle : (joined sep parts).length ≤ out'.length := (not_le.mp hlt).le
  obtain ⟨r, rfl⟩ := List.prefix_of_prefix_length_le (List.prefix_append _ _) hout hle
  rw [List.prefix_append_right_inj] at hout
  refine hsep.not_ends hends ?_ ?_ hends'
  · intro hnil
    simp [hnil] at hlt
  · intro hmem
    exact hlast (hmem.trans hout.isInfix)

theorem flatten_chunks (parts : List Text) (size count : ℕ) :
    ((List.range count).map fun i => joined sep ((parts.drop (i * size)).take size)).flatten =
      joined sep (parts.take (count * size)) := by
  induction count with
  | zero => simp [joined]
  | succ count ih =>
    rw [List.range_succ, List.map_append, List.flatten_append, ih, Nat.succ_mul, List.take_add,
      joined_append]
    simp

end Parts

/-! ## The files -/

section Split
variable {content f : Text} {methodsPerFile : ℕ}

theorem pyRange_stop {total step : ℕ} (hstep : 0 < step) :
    (total + step - 1) / step * step = total ↔ step ∣ total := by
  have hdiv := Nat.div_add_mod (total + step - 1) step
  have hmod := Nat.mod_lt (total + step - 1) hstep
  constructor
  · intro h
    exact ⟨_, by rw [← h, Nat.mul_comm]⟩
  · rintro ⟨c, rfl⟩
    generalize (step * c + step - 1) / step = q at hdiv ⊢
    have hle : step * c < step * (q + 1) := by
      rw [Nat.mul_succ]
      omega
    have hge : step * q < step * (c + 1) := by
      rw [Nat.mul_succ]
      omega
    have hq := Nat.lt_of_mul_lt_mul_left hle
    have hc := Nat.lt_of_mul_lt_mul_left hge
    rw [Nat.mul_comm, show q = c by omega]

theorem le_pyRange_stop (total : ℕ) {step : ℕ} (hstep : 0 < step) :
    total ≤ (total + step - 1) / step * step := by
  have hdiv := Nat.div_add_mod (total + step - 1) step
  have hmod := Nat.mod_lt (total + step - 1) hstep
  rw [Nat.mul_comm]
  omega

theorem exists_split (content : Text) :
    ∃ parts last, content = joined closeMethod parts ++ last ∧
      (∀ p ∈ parts ++ [last], ¬closeMethod <:+: p) ∧
      pySplitOn closeMethod content = parts ++ [last] ∧
      pyCount closeMethod content = parts.length := by
  obtain ⟨parts, last, hcontent, hparts, hlast⟩ :=
    exists_parts closeMethod_headOnce.ne_nil content
  have hsplit := pySplitOn_joined closeMethod_headOnce hparts hlast
  rw [← hcontent] at hsplit
  refine ⟨parts, last, hcontent, ?_, hsplit, by simp [pyCount, hsplit]⟩
  rw [List.forall_mem_append, List.forall_mem_singleton]
  exact ⟨hparts, hlast⟩

/-- The files hold the content up to its last method exactly if they are all full. -/
theorem concat_iff (hcount : 0 < pyCount closeMethod content) (hper : 0 < methodsPerFile) :
    UpToLast closeMethod content (splitFileByMethodTag content methodsPerFile).flatten ↔
      methodsPerFile ∣ pyCount closeMethod content := by
  obtain ⟨parts, last, hcontent, hclean, hsplit, hlength⟩ := exists_split content
  rw [hlength] at hcount ⊢
  have hlast := (List.forall_mem_append.mp hclean).2 last (List.mem_singleton_self last)
  have hup := upToLast_joined closeMethod_headOnce (List.ne_nil_of_length_pos hcount) hlast
  rw [← hcontent] at hup
  have hflatten : (splitFileByMethodTag content methodsPerFile).flatten =
      joined closeMethod ((parts ++ [last]).take
        ((parts.length + methodsPerFile - 1) / methodsPerFile * methodsPerFile)) := by
    rw [← flatten_chunks, splitFileByMethodTag, hsplit, pyRange, List.map_map]
    simp [splitFile, joined, Function.comp_def]
  have hle := le_pyRange_stop parts.length hper
  rw [← pyRange_stop hper, hflatten]
  generalize (parts.length + methodsPerFile - 1) / methodsPerFile * methodsPerFile = stop at hle ⊢
  constructor
  · intro h
    by_contra hne
    -- the text behind the last method has got a tag
    have hall : (parts ++ [last]).take stop = parts ++ [last] := by
      apply List.take_of_length_le
      rw [List.length_append, List.length_singleton]
      omega
    have hlen := congrArg List.length (h.unique hup)
    have hpos := List.length_pos_iff.mpr closeMethod_headOnce.ne_nil
    have hextra : joined closeMethod [last] = last ++ closeMethod := List.flatMap_singleton _ _
    rw [hall, joined_append, hextra, List.length_append, List.length_append] at hlen
    omega
  · intro h
    rw [h, List.take_left]
    exact hup

theorem count_le (hf : f ∈ splitFileByMethodTag content methodsPerFile) :
    pyCount closeMethod f ≤ methodsPerFile := by
  obtain ⟨parts, last, -, hclean, hsplit, -⟩ := exists_split content
  rw [splitFileByMethodTag, hsplit, List.mem_map] at hf
  obtain ⟨i, -, rfl⟩ := hf
  have hchunk : ∀ p ∈ ((parts ++ [last]).drop i).take methodsPerFile, ¬closeMethod <:+: p :=
    fun p hp => hclean p (List.mem_of_mem_drop (List.mem_of_mem_take hp))
  have hnil : ¬closeMethod <:+: [] := by
    rw [List.infix_nil]
    exact closeMethod_headOnce.ne_nil
  have hfile := pySplitOn_joined closeMethod_headOnce hchunk hnil
  rw [List.append_nil] at hfile
  rw [pyCount, splitFile, ← joined, hfile, List.length_append, List.length_singleton,
    Nat.add_sub_cancel]
  exact List.length_take_le _ _

end Split

/-! ## The merge -/

section Keys
variable {parse : Text → Text → Option XmlNode} {files : List File} {dict dict' : RootDict}

theorem digits_ne_nil (n : ℕ) : methodTag ++ Nat.toDigits 10 n ≠ methodTag := by
  intro h
  exact Nat.toDigits_ne_nil (List.append_right_eq_self.mp h)

/-- No part has the `tid` under which `main` looks for the methods. -/
theorem tidOf_outputFilename (i : ℕ) :
    tidOf (outputFilename i) = some (methodTag ++ Nat.toDigits 10 (i + 1)) := by
  have hclean : ¬dotRun <:+: agentTrace ++ methodTag ++ Nat.toDigits 10 (i + 1) := by
    intro h
    have hdot := h.subset (List.mem_cons_self : '.' ∈ dotRun)
    rw [List.mem_append] at hdot
    obtain hdot | hdot := hdot
    · exact absurd hdot (by decide)
    · exact absurd (Nat.isDigit_of_mem_toDigits (by decide) le_rfl hdot) (by decide)
  have hsep : HeadOnce dotRun := ⟨'.', dotRun.tail, rfl, by decide⟩
  have hfind : findText dotRun (agentTrace ++ methodTag ++ Nat.toDigits 10 (i + 1) ++
      (dotRun ++ [])) = _ := hsep.findText_append hclean
  rw [List.append_nil] at hfind
  have hstart : agentTrace <+: agentTrace ++ methodTag ++ Nat.toDigits 10 (i + 1) ++ dotRun := by
    simp only [List.append_assoc]
    exact List.prefix_append _ _
  rw [tidOf, outputFilename, hfind, if_pos ⟨hstart, Int.natCast_nonneg _⟩, pySlice_nat,
    List.take_left, List.append_assoc, List.drop_left]

theorem lookup_addFile {files : FileDict} {f : File} (hf : tidOf f.name ≠ some methodTag)
    (h : files.lookup methodTag = none) : (addFile files f).lookup methodTag = none := by
  rw [addFile]
  cases htid : tidOf f.name with
  | none => exact h
  | some tid =>
    have hne : methodTag ≠ tid := fun heq => hf (heq ▸ htid)
    rw [AList.lookup_insert_ne hne, h]

theorem lookup_getAllFiles (h : ∀ f ∈ files, tidOf f.name ≠ some methodTag) :
    (getAllFiles files).lookup methodTag = none := by
  have hfold : ∀ dict : FileDict, dict.lookup methodTag = none →
      (files.foldl addFile dict).lookup methodTag = none := by
    induction files with
    | nil => exact fun _ hdict => hdict
    | cons f files ih =>
      rw [List.forall_mem_cons] at h
      exact fun dict hdict => ih h.2 _ (lookup_addFile h.1 hdict)
  exact hfold ∅ (AList.lookup_empty _)

theorem lookup_addRoot {entry : Σ _ : Text, List Text} (hne : entry.1 ≠ methodTag)
    (hdict : dict.lookup methodTag = none) (h : addRoot parse dict entry = .ok dict') :
    dict'.lookup methodTag = none := by
  obtain ⟨root, -, hroot⟩ := bind_eq_ok.mp h
  cases root with
  | none =>
    cases hroot
    exact hdict
  | some root =>
    cases hroot
    rw [AList.lookup_insert_ne hne.symm, hdict]

theorem lookup_mergeSuffix {i : ℕ} (hdict : dict.lookup methodTag = none)
    (h : mergeSuffix dict i = .ok dict') : dict'.lookup methodTag = none := by
  rw [mergeSuffix, hdict] at h
  cases hpart : dict.lookup (methodTag ++ Nat.toDigits 10 i) with
  | none =>
    rw [hpart] at h
    cases h
    exact hdict
  | some part =>
    rw [hpart] at h
    cases h

theorem mergeMethods_ne_ok (h : ∀ f ∈ files, tidOf f.name ≠ some methodTag) (root : XmlNode) :
    mergeMethods parse files ≠ .ok root := by
  intro hok
  obtain ⟨dict, hload, hok⟩ := bind_eq_ok.mp hok
  obtain ⟨dict', hmerge, hok⟩ := bind_eq_ok.mp hok
  have hkeys : ∀ entry ∈ (getAllFiles files).entries, entry.1 ≠ methodTag := by
    intro entry hentry heq
    have hnone := AList.lookup_eq_none.mp (lookup_getAllFiles h)
    exact hnone (heq ▸ AList.mem_keys.mpr (List.mem_map_of_mem hentry))
  have hdict : dict.lookup methodTag = none :=
    foldlM_keeps (P := fun d : RootDict => d.lookup methodTag = none)
      (fun entry hentry _ _ hP => lookup_addRoot (hkeys entry hentry) hP)
      (AList.lookup_empty _) hload
  have hdict' : dict'.lookup methodTag = none :=
    foldlM_keeps (P := fun d : RootDict => d.lookup methodTag = none)
      (fun _ _ _ _ hP => lookup_mergeSuffix hP) hdict hmerge
  rw [hdict'] at hok
  cases hok

end Keys

/-! ## Splitting and merging -/

/-- The original file is replaced by the files of `splitMethod.py`, and they are listed in any
order among the others. -/
structure KeepsMethods (parse : Text → Text → Option XmlNode) (others : List File) (content : Text)
    (methodsPerFile : ℕ) : Prop where
  concat : UpToLast closeMethod content (splitFileByMethodTag content methodsPerFile).flatten
  bounded : ∀ f ∈ splitFileByMethodTag content methodsPerFile,
    pyCount closeMethod f ≤ methodsPerFile
  merged : ∀ files, files.Perm (others ++ splitFiles content methodsPerFile) →
    ∃ root, mergeMethods parse files = .ok root ∧
      ∀ original, parse methodTag content = some original →
        root.children.Perm original.children

/-- No input keeps its methods, since nothing is merged. The files are the content exactly if
the number of methods is divided evenly, and hold few enough methods. -/
theorem not_keepsMethods (parse : Text → Text → Option XmlNode) (others : List File)
    (content : Text) (methodsPerFile : ℕ) (hcount : 0 < pyCount closeMethod content)
    (hper : 0 < methodsPerFile) (hothers : ∀ f ∈ others, tidOf f.name ≠ some methodTag) :
    ¬KeepsMethods parse others content methodsPerFile ∧
      (UpToLast closeMethod content (splitFileByMethodTag content methodsPerFile).flatten ↔
        methodsPerFile ∣ pyCount closeMethod content) ∧
      ∀ f ∈ splitFileByMethodTag content methodsPerFile,
        pyCount closeMethod f ≤ methodsPerFile := by
  refine ⟨?_, concat_iff hcount hper, fun f hf => count_le hf⟩
  intro h
  obtain ⟨root, hroot, -⟩ := h.merged _ (List.Perm.refl _)
  refine mergeMethods_ne_ok ?_ root hroot
  intro f hf
  obtain hf | hf := List.mem_append.mp hf
  · exact hothers f hf
  · rw [splitFiles, List.mem_mapIdx] at hf
    obtain ⟨i, -, rfl⟩ := hf
    rw [tidOf_outputFilename]
    exact fun heq => digits_ne_nil _ (Option.some.inj heq)

def oneMethodText : Text := '<' :: methodTag ++ '>' :: closeMethod

theorem splitFileByMethodTag_oneMethodText :
    splitFileByMethodTag oneMethodText 2 = [oneMethodText ++ closeMethod] := by
  decide +kernel

theorem not_keepsMethods_oneMethodText :
    ¬∀ (parse : Text → Text → Option XmlNode) (others : List File) (content : Text)
      (methodsPerFile : ℕ), 0 < pyCount closeMethod content → 0 < methodsPerFile →
      (∀ f ∈ others, tidOf f.name ≠ some methodTag) →
      KeepsMethods parse others content methodsPerFile := by
  intro h
  have hkeeps := h (fun _ s => parseXml s) [] oneMethodText 2 (by decide +kernel) (by decide) nofun
  have hlonger := hkeeps.concat.isPrefix.length_le
  rw [splitFileByMethodTag_oneMethodText] at hlonger
  exact absurd hlonger (by decide)

theorem not_keepsMethods_evenSplit :
    ¬KeepsMethods (fun _ s => parseXml s) [] oneMethodText 1 := by
  have hpos : 0 < pyCount closeMethod oneMethodText := by decide +kernel
  exact (not_keepsMethods (fun _ s => parseXml s) [] oneMethodText 1 hpos (by decide) nofun).1

end Trace4J.Offline
