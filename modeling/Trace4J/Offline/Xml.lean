import Mathlib.Data.List.AList
import Mathlib.Data.List.DropRight
import Trace4J.Offline.Pftrace

/-!
# The XML parser of the offline scripts

`XMLParser` of `pylib/xml.py`. An assertion that fails and an index or unpacking error
are `none`. The two regular expressions are the functions below: each alternative of
`split_attr` is chosen by its first character, so the greedy match never backtracks,
and `tag_end` looks for a `>` with an even number of double quotes after it.
-/

namespace Trace4J.Offline

abbrev AttrDict := AList fun _ : Text => Text

inductive XmlNode
  | mk (name : Text) (attr : AttrDict) (children : List XmlNode)

namespace XmlNode

def name : XmlNode → Text
  | ⟨name, _, _⟩ => name

def attr : XmlNode → AttrDict
  | ⟨_, attr, _⟩ => attr

def children : XmlNode → List XmlNode
  | ⟨_, _, children⟩ => children

def addChild (obj c : XmlNode) : XmlNode := ⟨obj.name, obj.attr, obj.children ++ [c]⟩

end XmlNode

/-! ## Python strings -/

def isSpace (c : Char) : Bool :=
  (0x09 ≤ c.toNat && c.toNat ≤ 0x0d) || (0x1c ≤ c.toNat && c.toNat ≤ 0x20) ||
    c.toNat == 0x85 || c.toNat == 0xa0 || c.toNat == 0x1680 ||
    (0x2000 ≤ c.toNat && c.toNat ≤ 0x200a) || c.toNat == 0x2028 || c.toNat == 0x2029 ||
    c.toNat == 0x202f || c.toNat == 0x205f || c.toNat == 0x3000

def strip (s : Text) : Text := (s.dropWhile isSpace).rdropWhile isSpace

theorem strip_length_le (s : Text) : (strip s).length ≤ s.length := by
  have hdrop : (s.dropWhile isSpace).length ≤ s.length := (List.dropWhile_suffix isSpace).length_le
  exact (List.rdropWhile_prefix isSpace _).length_le.trans hdrop

/-- `s.find(p)` -/
def findText (p : Text) : Text → ℤ
  | [] => if p = [] then 0 else -1
  | c :: s =>
    if p <+: c :: s then 0
    else if findText p s < 0 then -1 else findText p s + 1

/-- `s.find(p, lo)` for `0 ≤ lo`. -/
def findTextFrom (p s : Text) (lo : ℕ) : ℤ :=
  if s.length < lo then -1
  else
    let i := findText p (s.drop lo)
    if i < 0 then -1 else i + lo

/-! ### Searching and stripping -/

theorem findText_length {p s : Text} (h : 0 ≤ findText p s) : p.length ≤ s.length := by
  induction s with
  | nil =>
    unfold findText at h
    split_ifs at h with hp
    · simp [hp]
    · omega
  | cons c s ih =>
    unfold findText at h
    split_ifs at h with hp hneg
    · exact hp.length_le
    · omega
    · have := ih (by omega)
      rw [List.length_cons]
      omega

theorem findText_append {p s t : Text} (h : 0 ≤ findText p s) :
    findText p (s ++ t) = findText p s := by
  induction s with
  | nil =>
    unfold findText at h
    split_ifs at h with hp
    · subst hp
      cases t <;> simp [findText]
    · omega
  | cons c s ih =>
    rw [List.cons_append, findText, findText]
    by_cases hp : p <+: c :: s
    · have hpt : p <+: c :: (s ++ t) := hp.trans (List.prefix_append (c :: s) t)
      rw [if_pos hp, if_pos hpt]
    · have hs : 0 ≤ findText p s := by
        rw [findText, if_neg hp] at h
        split_ifs at h <;> omega
      have hlen := findText_length hs
      have hpt : ¬p <+: c :: (s ++ t) := by
        intro hpre
        refine hp (List.prefix_of_prefix_length_le hpre (List.prefix_append (c :: s) t) ?_)
        rw [List.length_cons]
        omega
      rw [if_neg hp, if_neg hpt, ih hs]

theorem findText_prefix {p s : Text} (h : p <+: s) : findText p s = 0 := by
  cases s with
  | nil => simp [findText, List.prefix_nil.mp h]
  | cons c s => rw [findText, if_pos h]

theorem findText_split {p s : Text} (h : 0 ≤ findText p s) :
    ∃ x y, s = x ++ (p ++ y) ∧ findText p s = x.length := by
  induction s with
  | nil =>
    unfold findText at h ⊢
    split_ifs at h ⊢ with hp
    · exact ⟨[], [], by simp [hp], rfl⟩
    · omega
  | cons c s ih =>
    unfold findText at h ⊢
    split_ifs at h ⊢ with hp hneg
    · obtain ⟨y, hy⟩ := hp
      exact ⟨[], y, hy.symm, rfl⟩
    · omega
    · obtain ⟨x, y, hs, hx⟩ := ih (by omega)
      refine ⟨c :: x, y, by rw [hs, List.cons_append], ?_⟩
      rw [hx, List.length_cons]
      omega

theorem drop_findText {p s : Text} (h : 0 ≤ findText p s) :
    p <+: s.drop (findText p s).toNat := by
  obtain ⟨x, y, hs, hx⟩ := findText_split h
  rw [hx, Int.toNat_natCast, hs, List.drop_left]
  exact List.prefix_append p y

theorem rdropWhile_append_of_last {s t : Text} {c : Char} (hc : isSpace c = false) :
    (s ++ [c] ++ t).rdropWhile isSpace = s ++ [c] ++ t.rdropWhile isSpace := by
  induction t using List.reverseRecOn with
  | nil => simp [hc]
  | append_singleton t d ih =>
    rw [← List.append_assoc]
    by_cases hd : isSpace d = true
    · rw [List.rdropWhile_concat_pos _ _ _ hd, List.rdropWhile_concat_pos _ _ _ hd, ih]
    · rw [List.rdropWhile_concat_neg _ _ _ hd, List.rdropWhile_concat_neg _ _ _ hd,
        List.append_assoc]

theorem rdropWhile_spaces {ws : Text} (h : ∀ c ∈ ws, isSpace c = true) :
    ws.rdropWhile isSpace = [] :=
  List.rdropWhile_eq_nil_iff.mpr h

/-! ## The regular expressions -/

def splitTagEnd : Text → Option (Text × Text)
  | [] => none
  | c :: s =>
    if c = '>' ∧ s.count '"' % 2 = 0 then some ([c], s)
    else (splitTagEnd s).map fun r => (c :: r.1, r.2)

def keepToken (token : Text) (tokens : List Text) : List Text :=
  if token = [] then tokens else token :: tokens

/-- The token that starts here, and the tokens after it. `quote` is the quotation mark
of the quoted part we are in; one that is never closed separates tokens like a blank. -/
def scanAttr : Option Char → Text → Text × List Text
  | _, [] => ([], [])
  | some q, c :: s =>
    let r := scanAttr (if c = q then none else some q) s
    (c :: r.1, r.2)
  | none, c :: s =>
    if c = ' ' ∨ (c = '"' ∨ c = '\'') ∧ c ∉ s then
      let r := scanAttr none s
      ([], keepToken r.1 r.2)
    else
      let r := scanAttr (if c = '"' ∨ c = '\'' then some c else none) s
      (c :: r.1, r.2)

/-- `split_attr.split(s)[1::2]` -/
def splitAttr (s : Text) : List Text :=
  let r := scanAttr none s
  keepToken r.1 r.2

/-! ## Segments and tags -/

inductive SegType
  | opening
  | closing
deriving DecidableEq

def getNextSegment (inputStr : Text) : Option (Option (SegType × Text × Text)) :=
  match strip inputStr with
  | [] => some none
  | '<' :: c :: s =>
    (splitTagEnd ('<' :: c :: s)).map fun r =>
      some (if c = '/' then .closing else .opening, r.1, r.2)
  | _ => none

/-- `key, val = attr.split("=")` and the strip of the quotes. -/
def parseAttr (attr : Text) : Option (Text × Text) :=
  match attr.splitOn '=' with
  | [key, val] => some (key, pySlice (strip val) 1 (-1))
  | _ => none

def parseAttrs (attrs : List Text) : Option AttrDict :=
  (attrs.mapM parseAttr).map fun pairs => pairs.foldl (fun d e => d.insert e.1 e.2) ∅

def parseOpenTag (openTagStr : Text) : Option (Text × AttrDict) :=
  match splitAttr (pySlice openTagStr 1 (-1)) with
  | [] => none
  | tagName :: attrs => (parseAttrs attrs).map fun d => (tagName, d)

/-! ## The parser -/

/-- `node_stack`. A node joins its parent's children when it is popped; the virtual
root is gone when it was closed. -/
inductive NodeStack
  | nodes (top : XmlNode) (below : List XmlNode)
  | empty (root : XmlNode)

def closeNode (top : XmlNode) : List XmlNode → NodeStack
  | [] => .empty top
  | parent :: below => .nodes (parent.addChild top) below

def handleSegment (seg : SegType × Text) : NodeStack → Option NodeStack
  | .empty _ => none
  | .nodes top below =>
    match seg.1 with
    | .opening =>
      (parseOpenTag seg.2).map fun tag => .nodes ⟨tag.1, tag.2, []⟩ (top :: below)
    | .closing =>
      if top.name = pySlice seg.2 2 (-1) then some (closeNode top below) else none

def foldNodes (top : XmlNode) : List XmlNode → XmlNode
  | [] => top
  | parent :: below => foldNodes (parent.addChild top) below

def NodeStack.root : NodeStack → XmlNode
  | .nodes top below => foldNodes top below
  | .empty root => root

/-- Every segment takes at least one character, so the length is enough fuel. -/
def parseLoop : ℕ → Text → NodeStack → Option NodeStack
  | 0, _, _ => none
  | fuel + 1, remains, stack => do
    match ← getNextSegment remains with
    | none => some stack
    | some (segType, tagSeg, remains) =>
      let stack ← handleSegment (segType, tagSeg) stack
      parseLoop fuel remains stack

def stripHeader (fileStr : Text) : Text :=
  let i1 := findText ['<', '?'] fileStr
  let i2 := findTextFrom ['?', '>'] fileStr (i1 + 1).toNat
  if 0 ≤ i1 ∧ i1 < i2 then pySlice fileStr (i2 + 2) fileStr.length else fileStr

def virtualRoot : XmlNode := ⟨['r', 'o', 'o', 't'], ∅, []⟩

/-- `XMLParser(file_str).getVirtualRoot()` -/
def parseXml (fileStr : Text) : Option XmlNode :=
  let content := stripHeader fileStr
  (parseLoop (content.length + 1) content (.nodes virtualRoot [])).map NodeStack.root

end Trace4J.Offline
