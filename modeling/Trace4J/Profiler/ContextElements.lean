import Trace4J.Profiler.ContextXml
import Trace4J.Profiler.XmlRoundTrip

/-!
# The elements of a trace file

`createXMLObj` of a context and of its metrics, and the part of `load_context` that takes the
nodes of the parser apart. What is read from a node is what the context was written with, in
whatever order the hash maps of the attributes were walked.
-/

namespace Trace4J

def contextTag : List Char := ['c', 'o', 'n', 't', 'e', 'x', 't']
def metricsTag : List Char := ['m', 'e', 't', 'r', 'i', 'c', 's']
def metricTag : List Char := ['m', 'e', 't', 'r', 'i', 'c']
def idKey : List Char := ['i', 'd']
def methodIdKey : List Char := ['m', 'e', 't', 'h', 'o', 'd', '_', 'i', 'd']
def methodVersionKey : List Char :=
  ['m', 'e', 't', 'h', 'o', 'd', '_', 'v', 'e', 'r', 's', 'i', 'o', 'n']
def binaryAddrKey : List Char := ['b', 'i', 'n', 'a', 'r', 'y', '_', 'a', 'd', 'd', 'r']
def bciKey : List Char := ['b', 'c', 'i']
def parentIdKey : List Char := ['p', 'a', 'r', 'e', 'n', 't', '_', 'i', 'd']
def valueKey : List Char := ['v', 'a', 'l', 'u', 'e']
def measureKey : List Char := ['m', 'e', 'a', 's', 'u', 'r', 'e']
def eventKey : List Char := ['e', 'v', 'e', 'n', 't']

namespace Offline

/-- The loop over the children of a `metrics` node; a missing key is an exception. -/
def metricsOf : List XmlNode → Option (List MetricXml)
  | [] => some []
  | metric :: rest =>
    match metric.attr.lookup valueKey with
    | none => some []
    | some value => do
      let event ← metric.attr.lookup eventKey
      let measure ← metric.attr.lookup measureKey
      let rest ← metricsOf rest
      some (⟨event, measure, some value⟩ :: rest)

/-- A second `metrics` child fails the assertion. -/
def metricsChild (children : List XmlNode) : Option (Option (List MetricXml)) :=
  match children.filter fun c => c.name = metricsTag with
  | [] => some none
  | [metrics] => (metricsOf metrics.children).map some
  | _ => none

def contextXmlOf (ctxtXml : XmlNode) : Option ContextXml := do
  let id ← ctxtXml.attr.lookup idKey
  let methodVersion ← ctxtXml.attr.lookup methodVersionKey
  let binaryAddr ← ctxtXml.attr.lookup binaryAddrKey
  let methodId ← ctxtXml.attr.lookup methodIdKey
  let bci ← ctxtXml.attr.lookup bciKey
  let parentId ← ctxtXml.attr.lookup parentIdKey
  let metrics ← metricsChild ctxtXml.children
  some ⟨id, methodId, methodVersion, binaryAddr, bci, parentId, metrics⟩

def loadContextRoot (contextRoot : XmlNode) : Option ContextManager := do
  let contexts ← contextRoot.children.mapM contextXmlOf
  loadContext contexts

end Offline

namespace Profiler
open Offline (XmlNode MetricXml ContextXml noParent metricsOf metricsChild contextXmlOf)

section Writer
variable (realText : ℚ → Text)

def metricObj (i : ℕ) (v : MetricVal) (info : MetricInfo) : XmlObj :=
  ((XmlObj.new metricTag).addAttr idKey (idText i)
    |>.addAttr valueKey (metricText realText v)
    |>.addAttr measureKey info.eventMeasure
    |>.addAttr eventKey info.eventName)

/-- The loop of `createXMLObj<ContextMetrics>` from index `i` on. -/
def addMetrics : ℕ → List (MetricVal × MetricInfo) → XmlObj → XmlObj
  | _, [], obj => obj
  | i, (v, info) :: rest, obj =>
    addMetrics (i + 1) rest (obj.addChild i (metricObj realText i v info))

def metricsObj (infos : List MetricInfo) (m : ContextMetrics) : XmlObj :=
  addMetrics realText 0 (m.zip infos) (XmlObj.new metricsTag)

def contextAttrs (t : ContextTree) (n : ℕ) : XmlObj :=
  let frame := (t.contextMap n).frame
  ((XmlObj.new contextTag).addAttr idKey (idText n)
    |>.addAttr methodIdKey (pointerText frame.methodId)
    |>.addAttr methodVersionKey (versionText frame.methodVersion)
    |>.addAttr binaryAddrKey (toDecimal frame.binaryAddr)
    |>.addAttr bciKey (intText frame.bci)
    |>.addAttr parentIdKey (((t.contextMap n).parent.map idText).getD noParent))

def contextObj (infos : List MetricInfo) (t : ContextTree) (n : ℕ) : XmlObj :=
  match (t.contextMap n).metrics with
  | none => contextAttrs t n
  | some m => (contextAttrs t n).addChild 0 (metricsObj realText infos m)

end Writer

/-! ## Hash order -/

mutual
/-- The same tree, with the hash maps of the attributes walked in another order. -/
def Rehashed : XmlObj → XmlObj → Prop
  | ⟨tagName, attrMap, childrenMap⟩, ⟨tagName', attrMap', childrenMap'⟩ =>
    tagName' = tagName ∧ attrMap.entries.Perm attrMap'.entries ∧
      RehashedAll childrenMap childrenMap'

def RehashedAll : List (ℕ × XmlObj) → List (ℕ × XmlObj) → Prop
  | [], [] => True
  | (id, obj) :: rest, (id', obj') :: rest' => id' = id ∧ Rehashed obj obj' ∧ RehashedAll rest rest'
  | _, _ => False
end

mutual
theorem Rehashed.refl : ∀ obj : XmlObj, Rehashed obj obj
  | ⟨_, _, childrenMap⟩ => ⟨rfl, .refl _, RehashedAll.refl childrenMap⟩

theorem RehashedAll.refl : ∀ childrenMap : List (ℕ × XmlObj), RehashedAll childrenMap childrenMap
  | [] => trivial
  | (_, obj) :: rest => ⟨rfl, Rehashed.refl obj, RehashedAll.refl rest⟩
end

mutual
theorem SameTree.of_rehashed : ∀ {obj obj' : XmlObj} {node : XmlNode}, Rehashed obj obj' →
    SameTree obj' node → SameTree obj node
  | ⟨_, attrMap, childrenMap⟩, ⟨_, attrMap', childrenMap'⟩, ⟨_, _, _⟩, hhash, hsame => by
    obtain ⟨rfl, hperm, hchildren⟩ := hhash
    obtain ⟨hname, hattr, hsorted, htrees⟩ := hsame
    obtain ⟨hids, htrees⟩ := SameTrees.of_rehashed hchildren htrees
    refine ⟨hname, fun key v => ?_, hids ▸ hsorted, htrees⟩
    rw [hattr key v, AList.perm_lookup hperm]

theorem SameTrees.of_rehashed : ∀ {childrenMap childrenMap' : List (ℕ × XmlObj)}
    {children : List XmlNode}, RehashedAll childrenMap childrenMap' →
    SameTrees childrenMap' children →
    childrenMap'.map Prod.fst = childrenMap.map Prod.fst ∧ SameTrees childrenMap children
  | [], [], _, _, hsame => ⟨rfl, hsame⟩
  | (_, _) :: _, (_, _) :: _, _ :: _, hhash, hsame => by
    obtain ⟨rfl, hobj, hrest⟩ := hhash
    obtain ⟨hids, htrees⟩ := SameTrees.of_rehashed hrest hsame.2
    exact ⟨by rw [List.map_cons, List.map_cons, hids], hsame.1.of_rehashed hobj, htrees⟩
  | _ :: _, _ :: _, [], _, hsame => hsame.elim
  | [], _ :: _, _, hhash, _ => hhash.elim
  | _ :: _, [], _, hhash, _ => hhash.elim
end

/-! ## What the script reads -/

namespace XmlObj
variable {obj : XmlObj} {key key' value : Text}

theorem lookup_addAttr : (obj.addAttr key value).attrMap.lookup key' =
    if key' = key then some (quoted value) else obj.attrMap.lookup key' := by
  split_ifs with h
  · exact h ▸ AList.lookup_insert _
  · exact AList.lookup_insert_ne h

theorem insertChild_last {id : ℕ} {child : XmlObj} {childrenMap : List (ℕ × XmlObj)}
    (h : ∀ c ∈ childrenMap, c.1 < id) :
    insertChild id child childrenMap = childrenMap ++ [(id, child)] := by
  induction childrenMap with
  | nil => rfl
  | cons e es ih =>
    obtain ⟨he, hes⟩ := List.forall_mem_cons.mp h
    rw [insertChild, if_neg (by omega), if_neg (by omega), ih hes, List.cons_append]

end XmlObj

section Reader
variable {realText : ℚ → Text} {infos : List MetricInfo} {t : ContextTree} {n : ℕ}

def metricChildren (realText : ℚ → Text) : ℕ → List (MetricVal × MetricInfo) → List (ℕ × XmlObj)
  | _, [] => []
  | i, (v, info) :: rest => (i, metricObj realText i v info) :: metricChildren realText (i + 1) rest

theorem addMetrics_eq (l : List (MetricVal × MetricInfo)) (i : ℕ) (tagName : Text)
    (attrMap : AList fun _ : Text => Text) (childrenMap : List (ℕ × XmlObj))
    (h : ∀ c ∈ childrenMap, c.1 < i) :
    addMetrics realText i l ⟨tagName, attrMap, childrenMap⟩ =
      ⟨tagName, attrMap, childrenMap ++ metricChildren realText i l⟩ := by
  induction l generalizing i childrenMap with
  | nil => simp [addMetrics, metricChildren]
  | cons e l ih =>
    obtain ⟨v, info⟩ := e
    have hadd : (XmlObj.mk tagName attrMap childrenMap).addChild i (metricObj realText i v info) =
        ⟨tagName, attrMap, childrenMap ++ [(i, metricObj realText i v info)]⟩ :=
      congrArg (XmlObj.mk tagName attrMap) (XmlObj.insertChild_last h)
    rw [addMetrics, hadd, ih, metricChildren, List.append_assoc, List.singleton_append]
    intro c hc
    obtain hc | hc := List.mem_append.mp hc
    · exact (h c hc).trans (Nat.lt_succ_self i)
    · rw [List.mem_singleton.mp hc]
      exact Nat.lt_succ_self i

theorem metricsObj_eq (infos : List MetricInfo) (m : ContextMetrics) :
    metricsObj realText infos m = ⟨metricsTag, ∅, metricChildren realText 0 (m.zip infos)⟩ :=
  addMetrics_eq _ 0 metricsTag ∅ [] (by simp)

theorem lookup_metricObj (realText : ℚ → Text) (i : ℕ) (v : MetricVal) (info : MetricInfo) :
    let attrMap := (metricObj realText i v info).attrMap
    attrMap.lookup valueKey = some (quoted (metricText realText v)) ∧
      attrMap.lookup eventKey = some (quoted info.eventName) ∧
      attrMap.lookup measureKey = some (quoted info.eventMeasure) := by
  simp [metricObj, XmlObj.lookup_addAttr, valueKey, eventKey, measureKey]

theorem metricsOf_metricChildren (l : List (MetricVal × MetricInfo)) (i : ℕ)
    {children : List XmlNode} (h : SameTrees (metricChildren realText i l) children) :
    metricsOf children = some (l.map fun e => metricXml realText e.1 e.2) := by
  induction l generalizing i children with
  | nil =>
    cases children with
    | nil => rfl
    | cons c cs => exact h.elim
  | cons e l ih =>
    obtain ⟨v, info⟩ := e
    cases children with
    | nil => exact h.elim
    | cons c cs =>
      obtain ⟨name, attr, nodes⟩ := c
      obtain ⟨⟨-, hattr, -, -⟩, hrest⟩ := h
      obtain ⟨hvalue, hevent, hmeasure⟩ := lookup_metricObj realText i v info
      have hvalue' : attr.lookup valueKey = some (metricText realText v) := (hattr _ _).mpr hvalue
      have hevent' : attr.lookup eventKey = some info.eventName := (hattr _ _).mpr hevent
      have hmeasure' : attr.lookup measureKey = some info.eventMeasure := (hattr _ _).mpr hmeasure
      simp [metricsOf, XmlNode.attr, hvalue', hevent', hmeasure', ih _ hrest, metricXml]

theorem lookup_contextAttrs :
    let attrMap := (contextAttrs t n).attrMap
    let frame := (t.contextMap n).frame
    attrMap.lookup idKey = some (quoted (idText n)) ∧
      attrMap.lookup methodIdKey = some (quoted (pointerText frame.methodId)) ∧
      attrMap.lookup methodVersionKey = some (quoted (versionText frame.methodVersion)) ∧
      attrMap.lookup binaryAddrKey = some (quoted (toDecimal frame.binaryAddr)) ∧
      attrMap.lookup bciKey = some (quoted (intText frame.bci)) ∧
      attrMap.lookup parentIdKey =
        some (quoted (((t.contextMap n).parent.map idText).getD noParent)) := by
  simp [contextAttrs, XmlObj.lookup_addAttr, idKey, methodIdKey, methodVersionKey, binaryAddrKey,
    bciKey, parentIdKey]

theorem contextObj_eq (realText : ℚ → Text) (infos : List MetricInfo) (t : ContextTree) (n : ℕ) :
    contextObj realText infos t n = ⟨contextTag, (contextAttrs t n).attrMap,
      (t.contextMap n).metrics.toList.map fun m => (0, metricsObj realText infos m)⟩ := by
  rw [contextObj]
  cases (t.contextMap n).metrics with
  | none => rfl
  | some m => rfl

theorem metricsChild_eq {children : List XmlNode}
    (h : SameTrees ((t.contextMap n).metrics.toList.map fun m =>
      (0, metricsObj realText infos m)) children) :
    metricsChild children = some ((t.contextMap n).metrics.map (metricsXml realText infos)) := by
  cases hm : (t.contextMap n).metrics with
  | none =>
    rw [hm] at h
    cases children with
    | nil => rfl
    | cons c cs => exact h.elim
  | some m =>
    rw [hm] at h
    match children, h with
    | [⟨name, attr, nodes⟩], h =>
      have hsame := h.1
      rw [metricsObj_eq] at hsame
      obtain ⟨rfl, -, -, hmetrics⟩ := hsame
      have hread := metricsOf_metricChildren _ _ hmetrics
      simp only [metricsChild, XmlNode.name, XmlNode.children, List.filter_cons_of_pos,
        decide_true, List.filter_nil, hread]
      simp [metricsXml, ← List.map_uncurry_zip_eq_zipWith, Function.uncurry_def]
    | _ :: _ :: _, h => exact h.2.elim

/-- What is written of a context is what is read. -/
theorem contextXmlOf_eq {node : XmlNode} (h : SameTree (contextObj realText infos t n) node) :
    contextXmlOf node = some (contextXml realText infos t n) := by
  obtain ⟨name, attr, children⟩ := node
  rw [contextObj_eq] at h
  obtain ⟨-, hattr, -, hchildren⟩ := h
  obtain ⟨hid, hmethod, hversion, hbinary, hbci, hparent⟩ := lookup_contextAttrs (t := t) (n := n)
  have hmetrics := metricsChild_eq hchildren
  simp only [contextXmlOf, XmlNode.attr, XmlNode.children, (hattr _ _).mpr hid,
    (hattr _ _).mpr hmethod, (hattr _ _).mpr hversion, (hattr _ _).mpr hbinary,
    (hattr _ _).mpr hbci, (hattr _ _).mpr hparent, hmetrics, Option.bind_eq_bind, Option.bind_some]
  rfl

end Reader

/-! ## Plain text -/

/-- Text that neither ends a value nor looks like a part of a tag, and that a C string can hold. -/
def Plain (text : Text) : Prop := ∀ c ∈ text, c ∉ ['"', '=', '<', '>', '\x00']

def PlainName (name : Text) : Prop :=
  Word name ∧ '\x00' ∉ name ∧ name.head? ≠ some '/' ∧ name.head? ≠ some '?'

def PlainEntry (e : Entry) : Prop := PlainName e.1 ∧ ∃ v, e.2 = quoted v ∧ Plain v

def Tag.Plain : Tag → Prop
  | opening tagName attrMap => PlainName tagName ∧ ∀ e ∈ attrMap.entries, PlainEntry e
  | closing tagName => PlainName tagName

def SameTag : Tag → Tag → Prop
  | .opening tagName attrMap, .opening tagName' attrMap' =>
    tagName' = tagName ∧ attrMap.entries.Perm attrMap'.entries
  | .closing tagName, .closing tagName' => tagName' = tagName
  | _, _ => False

/-- An element of the file: plain text in its tags, and its close tag only at its end. -/
structure Element (tag : Text) (obj : XmlObj) : Prop where
  name : obj.tagName = tag
  plain : ∀ t ∈ obj.tags, t.Plain
  inner : ∀ t ∈ childrenTags obj.childrenMap, t ≠ .closing tag
  sorted : obj.Sorted

mutual
theorem Rehashed.tags : ∀ {obj obj' : XmlObj}, Rehashed obj obj' →
    ∀ t' ∈ obj'.tags, ∃ t ∈ obj.tags, SameTag t t'
  | ⟨tagName, attrMap, childrenMap⟩, ⟨_, attrMap', childrenMap'⟩, ⟨rfl, hperm, hchildren⟩ => by
    intro t' ht'
    rw [XmlObj.tags, List.mem_cons, List.mem_append, List.mem_singleton] at ht'
    obtain rfl | ht' | rfl := ht'
    · exact ⟨.opening _ attrMap, by simp [XmlObj.tags], rfl, hperm⟩
    · obtain ⟨t, ht, hsame⟩ := RehashedAll.tags hchildren t' ht'
      exact ⟨t, by simp [XmlObj.tags, ht], hsame⟩
    · exact ⟨.closing _, by simp [XmlObj.tags], rfl⟩

theorem RehashedAll.tags : ∀ {childrenMap childrenMap' : List (ℕ × XmlObj)},
    RehashedAll childrenMap childrenMap' →
    ∀ t' ∈ childrenTags childrenMap', ∃ t ∈ childrenTags childrenMap, SameTag t t'
  | [], [], _ => by simp [childrenTags]
  | (_, obj) :: rest, (_, obj') :: rest', ⟨_, hobj, hrest⟩ => by
    intro t' ht'
    rw [childrenTags, List.mem_append] at ht'
    obtain ht' | ht' := ht'
    · obtain ⟨t, ht, hsame⟩ := hobj.tags t' ht'
      exact ⟨t, by simp [childrenTags, ht], hsame⟩
    · obtain ⟨t, ht, hsame⟩ := RehashedAll.tags hrest t' ht'
      exact ⟨t, by simp [childrenTags, ht], hsame⟩
end

mutual
theorem Rehashed.sorted : ∀ {obj obj' : XmlObj}, Rehashed obj obj' → obj.Sorted → obj'.Sorted
  | ⟨_, _, _⟩, ⟨_, _, _⟩, ⟨_, _, hchildren⟩, ⟨hids, hall⟩ => by
    obtain ⟨hmap, hall'⟩ := RehashedAll.sorted hchildren hall
    exact ⟨hmap ▸ hids, hall'⟩

theorem RehashedAll.sorted : ∀ {childrenMap childrenMap' : List (ℕ × XmlObj)},
    RehashedAll childrenMap childrenMap' → SortedAll childrenMap →
    childrenMap.map Prod.fst = childrenMap'.map Prod.fst ∧ SortedAll childrenMap'
  | [], [], _, _ => ⟨rfl, trivial⟩
  | (_, _) :: _, (_, _) :: _, ⟨rfl, hobj, hrest⟩, ⟨hsorted, hall⟩ => by
    obtain ⟨hmap, hall'⟩ := RehashedAll.sorted hrest hall
    exact ⟨by rw [List.map_cons, List.map_cons, hmap], hobj.sorted hsorted, hall'⟩
end

theorem SameTag.plain {t t' : Tag} (h : SameTag t t') (ht : t.Plain) : t'.Plain := by
  match t, t', h with
  | .opening _ attrMap, .opening _ attrMap', ⟨rfl, hperm⟩ =>
    exact ⟨ht.1, fun e he => ht.2 e (hperm.mem_iff.mpr he)⟩
  | .closing _, .closing _, rfl => exact ht

theorem Element.rehash {tag : Text} {obj obj' : XmlObj} (h : Element tag obj)
    (hhash : Rehashed obj obj') : Element tag obj' := by
  obtain ⟨tagName, attrMap, childrenMap⟩ := obj
  obtain ⟨tagName', attrMap', childrenMap'⟩ := obj'
  refine ⟨hhash.1.trans h.name, fun t' ht' => ?_, fun t' ht' => ?_, hhash.sorted h.sorted⟩
  · obtain ⟨t, ht, hsame⟩ := hhash.tags t' ht'
    exact hsame.plain (h.plain t ht)
  · rintro rfl
    obtain ⟨t, ht, hsame⟩ := RehashedAll.tags hhash.2.2 _ ht'
    refine h.inner t ht ?_
    match t, hsame with
    | .closing _, rfl => rfl

/-! ### Contexts are elements -/

theorem plain_toDigits {b : ℕ} (hb : 1 < b) (hle : b ≤ 16) (n : ℕ) : Plain (Nat.toDigits b n) := by
  have hdigit : ∀ d < 16, Nat.digitChar d ∉ ['"', '=', '<', '>', '\x00'] := by decide
  induction n using Nat.strong_induction_on with
  | _ n ih =>
    rw [Nat.toDigits_eq_if hb]
    intro c hc
    split_ifs at hc with hlt
    · rw [List.mem_singleton.mp hc]
      exact hdigit n (hlt.trans_le hle)
    · obtain hc | hc := List.mem_append.mp hc
      · exact ih (n / b) (Nat.div_lt_self (by omega) hb) c hc
      · rw [List.mem_singleton.mp hc]
        exact hdigit _ ((Nat.mod_lt n (by omega)).trans_le hle)

theorem Plain.cons {c : Char} {text : Text} (hc : c ∉ ['"', '=', '<', '>', '\x00'])
    (h : Plain text) : Plain (c :: text) := List.forall_mem_cons.mpr ⟨hc, h⟩

theorem plain_idText (n : ℕ) : Plain (idText n) := plain_toDigits (by decide) (by decide) n

theorem plain_intText (i : ℤ) : Plain (intText i) := by
  have hdigits := plain_idText i.natAbs
  rw [intText]
  split_ifs
  · exact hdigits.cons (by decide)
  · exact hdigits

theorem plain_pointerText (p : UInt64) : Plain (pointerText p) := by
  have hdigits : Plain (Nat.toDigits 16 p.toNat) := plain_toDigits (by decide) le_rfl _
  rw [pointerText]
  split_ifs
  · exact .cons (by decide) (List.forall_mem_nil _)
  · exact .cons (by decide) (hdigits.cons (by decide))

theorem plain_parentText (parent : Option ℕ) : Plain ((parent.map idText).getD noParent) := by
  cases parent with
  | none => exact .cons (by decide) (.cons (by decide) (List.forall_mem_nil _))
  | some p => exact plain_idText p

structure PlainMetrics (realText : ℚ → Text) (infos : List MetricInfo) (m : ContextMetrics) :
    Prop where
  names : ∀ info ∈ infos, Plain info.eventName ∧ Plain info.eventMeasure
  values : ∀ v ∈ m, Plain (metricText realText v)

def PlainEntries (obj : XmlObj) : Prop := ∀ e ∈ obj.attrMap.entries, PlainEntry e

theorem PlainEntries.addAttr {obj : XmlObj} {key value : Text} (h : PlainEntries obj)
    (hkey : PlainName key) (hvalue : Plain value) : PlainEntries (obj.addAttr key value) := by
  intro e he
  change e ∈ (obj.attrMap.insert key (quoted value)).entries at he
  rw [AList.entries_insert] at he
  obtain rfl | he := List.mem_cons.mp he
  · exact ⟨hkey, value, rfl, hvalue⟩
  · exact h e ((List.kerase_sublist _ _).subset he)

instance decidableWord (w : Text) : Decidable (Word w) :=
  have := List.decidableBAll (fun c => c ∉ [' ', '"', '\'', '=', '<', '>']) w
  inferInstanceAs (Decidable (w ≠ [] ∧ ∀ c ∈ w, c ∉ [' ', '"', '\'', '=', '<', '>']))

instance decidablePlain (text : Text) : Decidable (Plain text) :=
  List.decidableBAll (fun c => c ∉ ['"', '=', '<', '>', '\x00']) text

instance decidablePlainName (name : Text) : Decidable (PlainName name) :=
  inferInstanceAs (Decidable (Word name ∧ '\x00' ∉ name ∧ name.head? ≠ some '/' ∧
    name.head? ≠ some '?'))

theorem plain_new (tagName : Text) : PlainEntries (.new tagName) := by
  simp [PlainEntries, XmlObj.new, XmlObj.attrMap]

theorem plain_contextAttrs (t : ContextTree) (n : ℕ) : PlainEntries (contextAttrs t n) := by
  refine .addAttr (.addAttr (.addAttr (.addAttr (.addAttr (.addAttr (plain_new _) ?_
    (plain_idText n)) ?_ (plain_pointerText _)) ?_ (plain_idText _)) ?_ (plain_idText _)) ?_
    (plain_intText _)) ?_ (plain_parentText _)
  all_goals decide

section Elements
variable {realText : ℚ → Text} {infos : List MetricInfo} {t : ContextTree} {n : ℕ}

theorem plain_metricObj {i : ℕ} {v : MetricVal} {info : MetricInfo}
    (hv : Plain (metricText realText v)) (hname : Plain info.eventName)
    (hmeasure : Plain info.eventMeasure) : PlainEntries (metricObj realText i v info) := by
  refine .addAttr (.addAttr (.addAttr (.addAttr (plain_new _) ?_ (plain_idText i)) ?_ hv) ?_
    hmeasure) ?_ hname
  all_goals decide

theorem tags_metricObj (i : ℕ) (v : MetricVal) (info : MetricInfo) :
    (metricObj realText i v info).tags =
      [.opening metricTag (metricObj realText i v info).attrMap, .closing metricTag] := rfl

theorem mem_metricChildren {c : ℕ × XmlObj} (l : List (MetricVal × MetricInfo)) (i : ℕ)
    (h : c ∈ metricChildren realText i l) :
    i ≤ c.1 ∧ ∃ e ∈ l, c.2 = metricObj realText c.1 e.1 e.2 := by
  induction l generalizing i with
  | nil => cases h
  | cons e l ih =>
    obtain rfl | h := List.mem_cons.mp h
    · exact ⟨le_rfl, e, List.mem_cons_self, rfl⟩
    · obtain ⟨hle, e', he', heq⟩ := ih (i + 1) h
      exact ⟨by omega, e', List.mem_cons_of_mem e he', heq⟩

theorem sorted_metricChildren (l : List (MetricVal × MetricInfo)) (i : ℕ) :
    ((metricChildren realText i l).map Prod.fst).Pairwise (· < ·) ∧
      SortedAll (metricChildren realText i l) := by
  induction l generalizing i with
  | nil => exact ⟨.nil, trivial⟩
  | cons e l ih =>
    obtain ⟨hids, hall⟩ := ih (i + 1)
    refine ⟨List.pairwise_cons.mpr ⟨fun j hj => ?_, hids⟩, ⟨.nil, trivial⟩, hall⟩
    obtain ⟨c, hc, rfl⟩ := List.mem_map.mp hj
    exact (mem_metricChildren l (i + 1) hc).1

theorem tags_metricsObj {m : ContextMetrics} (h : PlainMetrics realText infos m) :
    ∀ tag ∈ (metricsObj realText infos m).tags, tag.Plain ∧ tag ≠ .closing contextTag := by
  rw [metricsObj_eq]
  intro tag htag
  rw [XmlObj.tags, List.mem_cons, List.mem_append, List.mem_singleton] at htag
  obtain rfl | htag | rfl := htag
  · exact ⟨⟨by decide, by simp⟩, by simp⟩
  · obtain ⟨c, hc, htag⟩ := mem_childrenTags.mp htag
    obtain ⟨-, ⟨v, info⟩, he, heq⟩ := mem_metricChildren _ 0 hc
    obtain ⟨hv, hinfo⟩ := List.of_mem_zip he
    obtain ⟨hname, hmeasure⟩ := h.names info hinfo
    rw [heq, tags_metricObj] at htag
    simp only [List.mem_cons, List.not_mem_nil, or_false] at htag
    obtain rfl | rfl := htag
    · exact ⟨⟨by decide, plain_metricObj (h.values v hv) hname hmeasure⟩, by simp⟩
    · exact ⟨show PlainName metricTag by decide, by simp [metricTag, contextTag]⟩
  · exact ⟨show PlainName metricsTag by decide, by simp [metricsTag, contextTag]⟩

theorem sorted_metricsObj (m : ContextMetrics) : (metricsObj realText infos m).Sorted := by
  rw [metricsObj_eq]
  exact sorted_metricChildren _ 0

theorem element_contextObj
    (h : ∀ m, (t.contextMap n).metrics = some m → PlainMetrics realText infos m) :
    Element contextTag (contextObj realText infos t n) := by
  rw [contextObj_eq]
  have hmem : ∀ {c : ℕ × XmlObj}, c ∈ ((t.contextMap n).metrics.toList.map fun m =>
      (0, metricsObj realText infos m)) →
      ∃ m, (t.contextMap n).metrics = some m ∧ c = (0, metricsObj realText infos m) := by
    intro c hc
    obtain ⟨m, hm, rfl⟩ := List.mem_map.mp hc
    exact ⟨m, Option.mem_toList.mp hm, rfl⟩
  have hinner : ∀ tag ∈ childrenTags ((t.contextMap n).metrics.toList.map fun m =>
      (0, metricsObj realText infos m)), tag.Plain ∧ tag ≠ .closing contextTag := by
    intro tag htag
    obtain ⟨c, hc, htag⟩ := mem_childrenTags.mp htag
    obtain ⟨m, hm, rfl⟩ := hmem hc
    exact tags_metricsObj (h m hm) tag htag
  refine ⟨rfl, fun tag htag => ?_, fun tag htag => (hinner tag htag).2, ?_, ?_⟩
  · rw [XmlObj.tags, List.mem_cons, List.mem_append, List.mem_singleton] at htag
    obtain rfl | htag | rfl := htag
    · exact ⟨by decide, plain_contextAttrs t n⟩
    · exact (hinner tag htag).1
    · exact show PlainName contextTag by decide
  · cases (t.contextMap n).metrics with
    | none => exact .nil
    | some m => exact List.pairwise_singleton _ _
  · rw [sortedAll_iff]
    intro c hc
    obtain ⟨m, -, rfl⟩ := hmem hc
    exact sorted_metricsObj m

end Elements

end Profiler
end Trace4J
