import Mathlib.Data.List.AList
import Trace4J.Profiler.Metrics

/-!
# The XML writer of the profiler

`XMLObj` with `addAttr`, `addChild` and `getXMLStr`. The attributes stand in the order
in which the hash map is walked and the children in the order of their ids, that of a
`std::map`. A value is stored with its quotes, and nothing is escaped.
-/

namespace Trace4J.Profiler

inductive XmlObj
  | mk (tagName : Text) (attrMap : AList fun _ : Text => Text) (childrenMap : List (ℕ × XmlObj))

def quoted (value : Text) : Text := '"' :: value ++ ['"']

def attrStr (e : Sigma fun _ : Text => Text) : Text := ' ' :: e.1 ++ '=' :: e.2

def attrsStr (attrMap : AList fun _ : Text => Text) : Text := attrMap.entries.flatMap attrStr

namespace XmlObj

def new (tagName : Text) : XmlObj := ⟨tagName, ∅, []⟩

def tagName : XmlObj → Text
  | ⟨tagName, _, _⟩ => tagName

def attrMap : XmlObj → AList fun _ : Text => Text
  | ⟨_, attrMap, _⟩ => attrMap

def childrenMap : XmlObj → List (ℕ × XmlObj)
  | ⟨_, _, childrenMap⟩ => childrenMap

def addAttr (obj : XmlObj) (key value : Text) : XmlObj :=
  ⟨obj.tagName, obj.attrMap.insert key (quoted value), obj.childrenMap⟩

def insertChild (id : ℕ) (child : XmlObj) : List (ℕ × XmlObj) → List (ℕ × XmlObj)
  | [] => [(id, child)]
  | e :: es =>
    if id < e.1 then (id, child) :: e :: es
    else if id = e.1 then (id, child) :: es
    else e :: insertChild id child es

def addChild (obj : XmlObj) (id : ℕ) (child : XmlObj) : XmlObj :=
  ⟨obj.tagName, obj.attrMap, insertChild id child obj.childrenMap⟩

mutual
def getXMLStr : XmlObj → ℕ → Text
  | ⟨tagName, attrMap, childrenMap⟩, indentNum =>
    let indent := List.replicate indentNum ' '
    indent ++ ('<' :: tagName ++ attrsStr attrMap ++ ['>', '\n']) ++
      childrenStr childrenMap ((indentNum + 2) % 2 ^ 32) ++
      indent ++ ('<' :: '/' :: tagName ++ ['>', '\n'])

def childrenStr : List (ℕ × XmlObj) → ℕ → Text
  | [], _ => []
  | (_, child) :: rest, indentNum => child.getXMLStr indentNum ++ childrenStr rest indentNum
end

end XmlObj
end Trace4J.Profiler
