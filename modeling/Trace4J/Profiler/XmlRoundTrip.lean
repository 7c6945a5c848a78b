import Trace4J.Profiler.XmlOpenTag

/-!
# Trees, written and read back

Which trees of `XMLObj` nodes `XMLParser` reads back from the text of `getXMLStr`.
-/

namespace Trace4J.Profiler
open Offline (XmlNode NodeStack parseXml parseSegs parseSegs_preorder parseXml_spaced stripHeader
  Spaced IsSegment segType SegType isSpace Headed HeaderIn Glued Filler parseOpenTag pySlice)

/-! ## Trees -/

/-- A tree built by `addAttr` and `addChild`. The hash map of the attributes may be walked
in any order. -/
inductive Built : XmlObj → Prop
  | new {tagName : Text} : Word tagName → Built (.new tagName)
  | addAttr {obj : XmlObj} {key value : Text} : Built obj → Word key → '"' ∉ value →
      Built (obj.addAttr key value)
  | addChild {obj child : XmlObj} {id : ℕ} : Built obj → Built child →
      id ∉ obj.childrenMap.map Prod.fst → id < 2 ^ 32 → Built (obj.addChild id child)
  | rehash {obj : XmlObj} {attrMap : AList fun _ : Text => Text} : Built obj →
      obj.attrMap.entries.Perm attrMap.entries → Built ⟨obj.tagName, attrMap, obj.childrenMap⟩

mutual
/-- The same tags, the same attributes, and the children in the order of their ids. -/
def SameTree : XmlObj → XmlNode → Prop
  | ⟨tagName, attrMap, childrenMap⟩, ⟨name, attr, children⟩ =>
    name = tagName ∧ (∀ key v, attr.lookup key = some v ↔ attrMap.lookup key = some (quoted v)) ∧
      (childrenMap.map Prod.fst).Pairwise (· < ·) ∧ SameTrees childrenMap children

def SameTrees : List (ℕ × XmlObj) → List XmlNode → Prop
  | [], [] => True
  | (_, obj) :: childrenMap, node :: children => SameTree obj node ∧ SameTrees childrenMap children
  | _, _ => False
end

inductive Tag
  | opening (tagName : Text) (attrMap : AList fun _ : Text => Text)
  | closing (tagName : Text)

namespace Tag

def text : Tag → Text
  | opening tagName attrMap => '<' :: (tagName ++ attrsStr attrMap ++ ['>'])
  | closing tagName => '<' :: ('/' :: tagName ++ ['>'])

def isOpening : Tag → Bool
  | opening _ _ => true
  | closing _ => false

def Readable : Tag → Prop
  | opening tagName attrMap =>
    tagName.head? ≠ some '/' ∧ ∀ e ∈ attrMap.entries, '=' ∉ e.2
  | closing _ => True

instance decidableReadable : (tag : Tag) → Decidable tag.Readable
  | opening tagName attrMap =>
    inferInstanceAs (Decidable (tagName.head? ≠ some '/' ∧ ∀ e ∈ attrMap.entries, '=' ∉ e.2))
  | closing _ => .isTrue trivial

def marks : Tag → List Text
  | opening tagName attrMap =>
    if attrMap.entries = [] then ['<' :: (tagName ++ ['>'])]
    else ('<' :: tagName) :: attrMap.entries.map (·.2)
  | closing tagName => ['<' :: ('/' :: tagName ++ ['>'])]

def Good : Tag → Prop
  | opening tagName attrMap => Word tagName ∧ ∀ e ∈ attrMap.entries, GoodEntry e
  | closing tagName => Word tagName

end Tag

mutual
def XmlObj.tags : XmlObj → List Tag
  | ⟨tagName, attrMap, childrenMap⟩ =>
    .opening tagName attrMap :: (childrenTags childrenMap ++ [.closing tagName])

def childrenTags : List (ℕ × XmlObj) → List Tag
  | [] => []
  | (_, child) :: rest => child.tags ++ childrenTags rest
end

def ReadsBack (obj : XmlObj) : Prop :=
  (∀ tag ∈ obj.tags, tag.Readable) ∧ ¬HeaderIn (obj.tags.flatMap Tag.marks)

/-! ### Built trees -/

mutual
def XmlObj.Sorted : XmlObj → Prop
  | ⟨_, _, childrenMap⟩ => (childrenMap.map Prod.fst).Pairwise (· < ·) ∧ SortedAll childrenMap

def SortedAll : List (ℕ × XmlObj) → Prop
  | [] => True
  | (_, child) :: rest => child.Sorted ∧ SortedAll rest
end

theorem mem_childrenTags {tag : Tag} {childrenMap : List (ℕ × XmlObj)} :
    tag ∈ childrenTags childrenMap ↔ ∃ c ∈ childrenMap, tag ∈ c.2.tags := by
  induction childrenMap with
  | nil => simp [childrenTags]
  | cons c rest ih => simp [childrenTags, ih]

theorem sortedAll_iff {childrenMap : List (ℕ × XmlObj)} :
    SortedAll childrenMap ↔ ∀ c ∈ childrenMap, c.2.Sorted := by
  induction childrenMap with
  | nil => simp [SortedAll]
  | cons c rest ih => simp [SortedAll, ih]

theorem mem_insertChild {id : ℕ} {child : XmlObj} {childrenMap : List (ℕ × XmlObj)}
    {c : ℕ × XmlObj} (h : c ∈ XmlObj.insertChild id child childrenMap) :
    c = (id, child) ∨ c ∈ childrenMap := by
  fun_induction XmlObj.insertChild id child childrenMap with
  | case1 => simpa using h
  | case2 => simpa using h
  | case3 e es hlt heq =>
    rcases List.mem_cons.mp h with h | h
    · exact .inl h
    · exact .inr (List.mem_cons_of_mem e h)
  | case4 e es hlt hne ih =>
    rcases List.mem_cons.mp h with h | h
    · exact .inr (by simp [h])
    · exact (ih h).imp_right (List.mem_cons_of_mem e)

theorem sorted_insertChild {id : ℕ} {child : XmlObj} {childrenMap : List (ℕ × XmlObj)}
    (h : (childrenMap.map Prod.fst).Pairwise (· < ·)) :
    ((XmlObj.insertChild id child childrenMap).map Prod.fst).Pairwise (· < ·) := by
  fun_induction XmlObj.insertChild id child childrenMap with
  | case1 => simp
  | case2 e es hlt =>
    rw [List.map_cons, List.pairwise_cons]
    refine ⟨fun i hi => ?_, h⟩
    rw [List.map_cons, List.pairwise_cons] at h
    rw [List.map_cons] at hi
    rcases List.mem_cons.mp hi with rfl | hi
    · exact hlt
    · exact hlt.trans (h.1 i hi)
  | case3 e es hlt heq => simpa [heq] using h
  | case4 e es hlt hne ih =>
    rw [List.map_cons, List.pairwise_cons] at h ⊢
    refine ⟨fun i hi => ?_, ih h.2⟩
    obtain ⟨c, hc, rfl⟩ := List.mem_map.mp hi
    rcases mem_insertChild hc with rfl | hc
    · have : e.1 ≠ id := fun h => hne h.symm
      simp only
      omega
    · exact h.1 _ (List.mem_map.mpr ⟨c, hc, rfl⟩)

theorem good_tags_iff {tagName : Text} {attrMap : AList fun _ : Text => Text}
    {childrenMap : List (ℕ × XmlObj)} :
    (∀ tag ∈ (XmlObj.mk tagName attrMap childrenMap).tags, tag.Good) ↔
      Word tagName ∧ (∀ e ∈ attrMap.entries, GoodEntry e) ∧
        ∀ c ∈ childrenMap, ∀ tag ∈ c.2.tags, tag.Good := by
  simp only [XmlObj.tags, List.forall_mem_cons, List.forall_mem_append, mem_childrenTags,
    Tag.Good, List.not_mem_nil]
  constructor
  · rintro ⟨⟨hname, hattr⟩, hchildren, -⟩
    exact ⟨hname, hattr, fun c hc tag htag => hchildren tag ⟨c, hc, htag⟩⟩
  · rintro ⟨hname, hattr, hchildren⟩
    refine ⟨⟨hname, hattr⟩, fun tag ⟨c, hc, htag⟩ => hchildren c hc tag htag, hname, ?_⟩
    simp

theorem Built.good {obj : XmlObj} (h : Built obj) :
    (∀ tag ∈ obj.tags, tag.Good) ∧ obj.Sorted := by
  induction h with
  | new hword =>
    refine ⟨good_tags_iff.mpr ⟨hword, ?_, ?_⟩, ?_⟩
    · simp
    · simp
    · simp [XmlObj.new, XmlObj.Sorted, SortedAll]
  | @addAttr obj key value _ hkey hvalue ih =>
    obtain ⟨tagName, attrMap, childrenMap⟩ := obj
    obtain ⟨hname, hattr, hchildren⟩ := good_tags_iff.mp ih.1
    refine ⟨good_tags_iff.mpr ⟨hname, ?_, hchildren⟩, ih.2⟩
    intro e he
    rw [AList.entries_insert] at he
    rcases List.mem_cons.mp he with rfl | he
    · exact ⟨hkey, value, rfl, hvalue⟩
    · exact hattr e ((List.kerase_sublist _ _).subset he)
  | @addChild obj child id _ _ hid _ ih ihc =>
    obtain ⟨tagName, attrMap, childrenMap⟩ := obj
    obtain ⟨hname, hattr, hchildren⟩ := good_tags_iff.mp ih.1
    obtain ⟨hids, hsorted⟩ := ih.2
    rw [sortedAll_iff] at hsorted
    refine ⟨good_tags_iff.mpr ⟨hname, hattr, fun c hc => ?_⟩, sorted_insertChild hids, ?_⟩
    · rcases mem_insertChild hc with rfl | hc
      · exact ihc.1
      · exact hchildren c hc
    · rw [sortedAll_iff]
      intro c hc
      rcases mem_insertChild hc with rfl | hc
      · exact ihc.2
      · exact hsorted c hc
  | @rehash obj attrMap _ hperm ih =>
    obtain ⟨tagName, attrMap', childrenMap⟩ := obj
    obtain ⟨hname, hattr, hchildren⟩ := good_tags_iff.mp ih.1
    exact ⟨good_tags_iff.mpr ⟨hname, fun e he => hattr e (hperm.mem_iff.mpr he), hchildren⟩, ih.2⟩

/-! ## The text of a tree -/

def Printed (ss : List Text) (text : Text) : Prop := Spaced ss text ∧ text.count '"' % 2 = 0

def Laid (tags : List Tag) (text : Text) : Prop :=
  Printed (tags.map Tag.text) text ∧ Glued (tags.flatMap Tag.marks) text

theorem Tag.Good.isSegment {tag : Tag} (h : tag.Good) : IsSegment tag.text := by
  cases tag with
  | opening tagName attrMap =>
    exact ⟨_, rfl, tight_append (h.1.ne (by simp)) (tight_attrs h.2)⟩
  | closing tagName =>
    refine ⟨_, rfl, fun x y hxy => ?_⟩
    have hgt : '>' ∈ '/' :: tagName := by simp [hxy]
    exact absurd hgt (by simp [h.ne])

theorem Tag.Good.count {tag : Tag} (h : tag.Good) : tag.text.count '"' % 2 = 0 := by
  cases tag with
  | opening tagName attrMap =>
    have hname : tagName.count '"' = 0 := List.count_eq_zero.mpr (h.1.ne (by simp))
    have hattrs := count_attrs h.2
    simp only [Tag.text, attrsStr, List.count_cons, List.count_append, hname]
    simpa using hattrs
  | closing tagName =>
    have hname : tagName.count '"' = 0 := List.count_eq_zero.mpr (Word.ne h (by simp))
    simp [Tag.text, hname]

variable {tags : List Tag} {tag : Tag} {rest : Text}

theorem getLast?_quoted (v : Text) : (quoted v).getLast? = some '"' := List.getLast?_concat

theorem glued_attrs {es : List Entry} {parts : List Text} (h : ∀ e ∈ es, GoodEntry e)
    (hrest : Glued parts rest) :
    Glued (es.map (·.2) ++ parts) (es.flatMap attrStr ++ rest) := by
  induction es with
  | nil => exact hrest
  | cons e es ih =>
    obtain ⟨⟨hkey, v, hv, hq⟩, hes⟩ := List.forall_mem_cons.mp h
    have hsplit : (e :: es).flatMap attrStr ++ rest =
        (' ' :: (e.1 ++ ['='])) ++ (quoted v ++ (es.flatMap attrStr ++ rest)) := by
      simp [attrStr, hv]
    rw [hsplit, List.map_cons, hv]
    refine .cons ⟨by simp [hkey.ne], fun hin => ?_⟩ (.inr rfl) ?_ ?_ (ih hes)
    · have hgt : '>' ∈ ' ' :: (e.1 ++ ['=']) := hin.subset (by simp)
      exact absurd hgt (by simp [hkey.ne])
    · simp [getLast?_quoted]
    · simp [getLast?_quoted]

theorem glued_tag {parts : List Text} (h : tag.Good) (hrest : Glued parts rest) :
    Glued (tag.marks ++ parts) (tag.text ++ rest) := by
  have hwhole : ∀ {body : Text},
      Glued (('<' :: (body ++ ['>'])) :: parts) ('<' :: (body ++ ['>']) ++ rest) := by
    intro body
    have hlast : ('<' :: (body ++ ['>'])).getLast? = some '>' := by
      rw [← List.cons_append]
      exact List.getLast?_concat
    refine @Glued.cons [] _ rest parts ⟨by simp, by simp⟩ (.inl rfl) ?_ ?_ hrest
    · rw [hlast]
      decide
    · rw [hlast]
      simp
  cases tag with
  | opening tagName attrMap =>
    obtain ⟨hname, hattr⟩ := h
    rw [Tag.marks]
    split_ifs with hnil
    · have hattrs : attrsStr attrMap = [] := by rw [attrsStr, hnil, List.flatMap_nil]
      rw [Tag.text, hattrs, List.append_nil]
      exact hwhole
    · obtain ⟨e, es, hes⟩ := List.exists_cons_of_ne_nil hnil
      have hgt : Glued parts (['>'] ++ rest) :=
        hrest.filler ⟨by simp, by simp [List.infix_cons_iff]⟩ (by simp)
      have hlast : ('<' :: tagName).getLast? ≠ some '<' := by
        obtain ⟨c, w, rfl⟩ := List.exists_cons_of_ne_nil hname.1
        rw [List.getLast?_cons_cons]
        exact fun h => hname.ne (c := '<') (by simp) (List.mem_of_getLast? h)
      have hsplit : (Tag.opening tagName attrMap).text ++ rest =
          [] ++ (('<' :: tagName) ++ (attrMap.entries.flatMap attrStr ++ (['>'] ++ rest))) := by
        simp [Tag.text, attrsStr]
      rw [hsplit, List.cons_append]
      refine .cons ⟨by simp, by simp⟩ (.inl rfl) hlast ?_ (glued_attrs hattr hgt)
      simp [hes, attrStr]
  | closing tagName => exact hwhole

theorem Laid.line (h : Laid tags rest) (hgood : tag.Good) (n : ℕ) :
    Laid (tag :: tags) (List.replicate n ' ' ++ (tag.text ++ '\n' :: rest)) := by
  obtain ⟨⟨hspaced, heven⟩, hglued⟩ := h
  have hindent : ∀ c ∈ List.replicate n ' ', isSpace c = true := by
    intro c hc
    rw [List.eq_of_mem_replicate hc]
    decide
  have hline : Spaced (tags.map Tag.text) (['\n'] ++ rest) := hspaced.spaces (by simp; decide)
  have heven' : (['\n'] ++ rest).count '"' % 2 = 0 := by simpa using heven
  refine ⟨⟨.cons hindent hgood.isSegment heven' hline, ?_⟩, ?_⟩
  · have htag := hgood.count
    have hreplicate : (List.replicate n ' ').count '"' = 0 := by simp [List.count_replicate]
    rw [List.count_append, List.count_append, List.count_cons_of_ne (by decide), hreplicate]
    omega
  · have hnl : Glued (tags.flatMap Tag.marks) (['\n'] ++ rest) :=
      hglued.filler ⟨by simp, by simp [List.infix_cons_iff]⟩ (by simp)
    refine (glued_tag hgood hnl).filler ⟨by simp, fun hin => ?_⟩ ?_
    · have hgt : '>' ∈ List.replicate n ' ' := hin.subset (by simp)
      exact absurd (List.eq_of_mem_replicate hgt) (by decide)
    · intro hlast
      exact absurd (List.eq_of_mem_replicate (List.mem_of_getLast? hlast)) (by decide)

mutual
theorem laid_getXMLStr : ∀ (obj : XmlObj) (n : ℕ) {tags : List Tag} {rest : Text},
    (∀ tag ∈ obj.tags, tag.Good) → Laid tags rest →
    Laid (obj.tags ++ tags) (obj.getXMLStr n ++ rest)
  | ⟨tagName, attrMap, childrenMap⟩, n, tags, rest, hgood, hrest => by
    simp only [XmlObj.tags, List.forall_mem_cons, List.forall_mem_append] at hgood
    obtain ⟨hopen, hchildren, hclose, -⟩ := hgood
    have hlaid := (laid_childrenStr childrenMap ((n + 2) % 2 ^ 32) hchildren
      (hrest.line hclose n)).line hopen n
    simpa [XmlObj.tags, XmlObj.getXMLStr, Tag.text] using hlaid

theorem laid_childrenStr : ∀ (childrenMap : List (ℕ × XmlObj)) (n : ℕ) {tags : List Tag}
    {rest : Text}, (∀ tag ∈ childrenTags childrenMap, tag.Good) → Laid tags rest →
    Laid (childrenTags childrenMap ++ tags) (XmlObj.childrenStr childrenMap n ++ rest)
  | [], _, _, _, _, hrest => hrest
  | (_, child) :: childrenMap, n, tags, rest, hgood, hrest => by
    simp only [childrenTags, List.forall_mem_append] at hgood
    have hlaid := laid_getXMLStr child n hgood.1 (laid_childrenStr childrenMap n hgood.2 hrest)
    simpa [childrenTags, XmlObj.childrenStr] using hlaid
end

theorem laid_text {obj : XmlObj} (h : ∀ tag ∈ obj.tags, tag.Good) (n : ℕ) :
    Laid obj.tags (obj.getXMLStr n) := by
  have hnil : Laid [] [] := ⟨⟨.nil (by simp), rfl⟩, .nil ⟨by simp, by simp⟩⟩
  simpa using laid_getXMLStr obj n h hnil

/-! ## Trees that are read back -/

theorem segType_opening {tagName : Text} (attrMap : AList fun _ : Text => Text)
    (h : Word tagName) : segType (Tag.opening tagName attrMap).text =
      if tagName.head? = some '/' then .closing else .opening := by
  obtain ⟨c, w, rfl⟩ := List.exists_cons_of_ne_nil h.1
  simp [segType, Tag.text]

theorem segType_closing {tagName : Text} : segType (Tag.closing tagName).text = .closing := rfl

theorem pySlice_closing {tagName : Text} :
    pySlice (Tag.closing tagName).text 2 (-1) = tagName := by
  have hlo : Offline.pyIndex (tagName.length + 3) 2 = 2 := by
    rw [Offline.pyIndex, if_neg (by decide)]
    exact Nat.min_eq_left (by omega)
  have hhi : Offline.pyIndex (tagName.length + 3) (-1) = tagName.length + 2 := by
    rw [Offline.pyIndex, if_pos (by decide)]
    omega
  have hlen : (Tag.closing tagName).text.length = tagName.length + 3 := by simp [Tag.text]
  rw [pySlice, hlen, hlo, hhi]
  simp [Tag.text]

theorem handleText_opening {tagName : Text} {attrMap : AList fun _ : Text => Text}
    (hgood : (Tag.opening tagName attrMap).Good) (hread : (Tag.opening tagName attrMap).Readable) :
    ∃ d : Offline.AttrDict,
      (∀ key v, d.lookup key = some v ↔ attrMap.lookup key = some (quoted v)) ∧
      ∀ top below, Offline.handleText (.nodes top below) (Tag.opening tagName attrMap).text =
        some (.nodes ⟨tagName, d, []⟩ (top :: below)) := by
  have heq : ∀ e ∈ attrMap.entries, '=' ∉ value e := by
    intro e he hmem
    have hquoted := (hgood.2 e he).eq_quoted
    apply hread.2 e he
    rw [hquoted]
    simp [quoted, hmem]
  obtain ⟨d, hd, hlook⟩ := parseOpenTag_tag hgood.1 hgood.2 heq
  refine ⟨d, hlook, fun top below => ?_⟩
  have htype := segType_opening attrMap hgood.1
  rw [if_neg hread.1] at htype
  rw [Offline.handleText, htype]
  simp only [Offline.handleSegment, Tag.text, hd]
  rfl

theorem handleText_closing {tagName : Text} {d : Offline.AttrDict} {children below : List XmlNode}
    {top : XmlNode} :
    Offline.handleText (.nodes ⟨tagName, d, children⟩ (top :: below)) (Tag.closing tagName).text =
      some (.nodes (top.addChild ⟨tagName, d, children⟩) below) := by
  rw [Offline.handleText, segType_closing]
  simp only [Offline.handleSegment, pySlice_closing]
  exact if_pos rfl

theorem parseSegs_cons {t : Text} {ss : List Text} {stack stack' : NodeStack}
    (h : Offline.handleText stack t = some stack') :
    parseSegs (t :: ss) stack = parseSegs ss stack' := by
  rw [parseSegs, List.foldlM_cons, h]
  rfl

mutual
theorem parseSegs_tags : ∀ obj : XmlObj, (∀ tag ∈ obj.tags, tag.Good) →
    (∀ tag ∈ obj.tags, tag.Readable) → obj.Sorted →
    ∃ node, SameTree obj node ∧ ∀ ss top below,
      parseSegs (obj.tags.map Tag.text ++ ss) (.nodes top below) =
        parseSegs ss (.nodes (top.addChild node) below)
  | ⟨tagName, attrMap, childrenMap⟩, hgood, hread, hsorted => by
    simp only [XmlObj.tags, List.forall_mem_cons, List.forall_mem_append] at hgood hread
    obtain ⟨d, hd, hopen⟩ := handleText_opening hgood.1 hread.1
    obtain ⟨nodes, hsame, hparse⟩ :=
      parseSegs_childrenTags childrenMap hgood.2.1 hread.2.1 hsorted.2
    refine ⟨⟨tagName, d, nodes⟩, ⟨rfl, hd, hsorted.1, hsame⟩, fun ss top below => ?_⟩
    simp only [XmlObj.tags, List.map_cons, List.map_append, List.cons_append, List.append_assoc,
      List.map_nil]
    rw [parseSegs_cons (hopen top below), hparse, List.nil_append, List.nil_append,
      parseSegs_cons handleText_closing]

theorem parseSegs_childrenTags : ∀ childrenMap : List (ℕ × XmlObj),
    (∀ tag ∈ childrenTags childrenMap, tag.Good) →
    (∀ tag ∈ childrenTags childrenMap, tag.Readable) → SortedAll childrenMap →
    ∃ nodes, SameTrees childrenMap nodes ∧ ∀ ss name attr children below,
      parseSegs ((childrenTags childrenMap).map Tag.text ++ ss)
          (.nodes ⟨name, attr, children⟩ below) =
        parseSegs ss (.nodes ⟨name, attr, children ++ nodes⟩ below)
  | [], _, _, _ => ⟨[], trivial, fun ss name attr children below => by simp [childrenTags]⟩
  | (_, child) :: childrenMap, hgood, hread, hsorted => by
    simp only [childrenTags, List.forall_mem_append] at hgood hread
    obtain ⟨node, hnode, hfirst⟩ := parseSegs_tags child hgood.1 hread.1 hsorted.1
    obtain ⟨nodes, hnodes, hmore⟩ :=
      parseSegs_childrenTags childrenMap hgood.2 hread.2 hsorted.2
    refine ⟨node :: nodes, ⟨hnode, hnodes⟩, fun ss name attr children below => ?_⟩
    simp only [childrenTags, List.map_append, List.append_assoc]
    rw [hfirst]
    simpa [XmlNode.addChild, XmlNode.name, XmlNode.attr, XmlNode.children] using
      hmore ss name attr (children ++ [node]) below
end

theorem parseXml_of_readsBack {obj : XmlObj} (hgood : ∀ tag ∈ obj.tags, tag.Good)
    (hsorted : obj.Sorted) (h : ReadsBack obj) (n : ℕ) :
    ∃ root node, parseXml (obj.getXMLStr n) = some root ∧ root.children = [node] ∧
      SameTree obj node := by
  obtain ⟨⟨hspaced, -⟩, hglued⟩ := laid_text hgood n
  obtain ⟨node, hsame, hparse⟩ := parseSegs_tags obj hgood h.1 hsorted
  have hstrip : stripHeader (obj.getXMLStr n) = obj.getXMLStr n :=
    Offline.stripHeader_of_not_headed (mt hglued.headed_iff.mp h.2)
  have hsegs := hparse [] Offline.virtualRoot []
  rw [← hstrip] at hspaced
  refine ⟨Offline.virtualRoot.addChild node, node, ?_, rfl, hsame⟩
  rw [parseXml_spaced hspaced, ← List.append_nil (obj.tags.map Tag.text), hsegs]
  rfl

/-! ## Trees that are not -/

def opens (ss : List Text) : List Text := ss.filter (segType · = .opening)

mutual
theorem length_preorder : ∀ (obj : XmlObj) (node : XmlNode), SameTree obj node →
    node.preorder.length = obj.tags.countP Tag.isOpening
  | ⟨tagName, attrMap, childrenMap⟩, ⟨name, attr, children⟩, h => by
    have hchildren := length_preorders childrenMap children h.2.2.2
    simp [XmlNode.preorder, XmlObj.tags, hchildren, List.countP_cons, Tag.isOpening]

theorem length_preorders : ∀ (childrenMap : List (ℕ × XmlObj)) (children : List XmlNode),
    SameTrees childrenMap children →
    (Offline.preorders children).length = (childrenTags childrenMap).countP Tag.isOpening
  | [], [], _ => rfl
  | (_, obj) :: childrenMap, node :: children, h => by
    have hnode := length_preorder obj node h.1
    have hmore := length_preorders childrenMap children h.2
    simp [Offline.preorders, childrenTags, hnode, hmore]
  | [], _ :: _, h => h.elim
  | _ :: _, [], h => h.elim
end

theorem mapM_opens {text : Text} {ss : List Text} {root node : XmlNode}
    (hspaced : Spaced ss (stripHeader text)) (hparse : parseXml text = some root)
    (hroot : root.children = [node]) :
    (opens ss).mapM parseOpenTag = some node.preorder := by
  rw [parseXml_spaced hspaced, Option.map_eq_some_iff] at hparse
  obtain ⟨stack, hstack, rfl⟩ := hparse
  obtain ⟨opened, hopened, hpre⟩ := parseSegs_preorder hstack
  rcases hnode : stack.root with ⟨name, attr, children⟩
  obtain rfl : children = [node] := by simpa [hnode, XmlNode.children] using hroot
  have heq : (name, attr) :: node.preorder = (['r', 'o', 'o', 't'], ∅) :: opened := by
    rw [hnode] at hpre
    simpa [XmlNode.preorder, Offline.preorders, NodeStack.root, Offline.foldNodes,
      Offline.virtualRoot] using hpre
  rw [opens, hopened, (List.cons.inj heq).2]

theorem length_opens_le (tags : List Tag) :
    (opens (tags.map Tag.text)).length ≤ tags.countP Tag.isOpening := by
  rw [opens, ← List.countP_eq_length_filter, List.countP_map]
  refine List.countP_mono_left fun tag htag hopen => ?_
  cases tag with
  | opening => rfl
  | closing tagName => simp [segType_closing] at hopen

theorem readable_of_opens {opened : List (Text × Offline.AttrDict)}
    (hgood : ∀ tag ∈ tags, tag.Good)
    (hopens : (opens (tags.map Tag.text)).mapM parseOpenTag = some opened)
    (hlen : opened.length = tags.countP Tag.isOpening) : ∀ tag ∈ tags, tag.Readable := by
  rw [mapM_eq_some] at hopens
  rw [← hopens.length_eq] at hlen
  intro tag htag
  cases tag with
  | closing => trivial
  | opening tagName attrMap =>
    obtain ⟨hname, hattr⟩ := hgood _ htag
    have hslash : tagName.head? ≠ some '/' := by
      intro hslash
      obtain ⟨before, after, rfl⟩ := List.append_of_mem htag
      have htype := segType_opening attrMap hname
      have hbefore := length_opens_le before
      have hafter := length_opens_le after
      rw [if_pos hslash] at htype
      simp [opens, htype, List.countP_cons, Tag.isOpening] at hlen hbefore hafter
      omega
    refine ⟨hslash, fun e he heq => ?_⟩
    have htype := segType_opening attrMap hname
    rw [if_neg hslash] at htype
    have hmem : (Tag.opening tagName attrMap).text ∈ opens (tags.map Tag.text) := by
      rw [opens, List.mem_filter]
      exact ⟨List.mem_map.mpr ⟨_, htag, rfl⟩, by simp [htype]⟩
    obtain ⟨node, -, hnode⟩ := exists_of_forall₂ hopens hmem
    have hvalue : '=' ∈ value e := by
      rw [(hattr e he).eq_quoted] at heq
      simpa [quoted] using heq
    rw [Tag.text, parseOpenTag_eq_none hname hattr he hvalue] at hnode
    cases hnode

/-! ### Headers -/

theorem eq_nil_of_singleton {c : Char} {z b : Text} (h : [c] = z ++ c :: b) : b = [] := by
  have hlen := congrArg List.length h
  simp only [List.length_append, List.length_cons, List.length_nil] at hlen
  exact List.eq_nil_of_length_eq_zero (by omega)

theorem attrs_cut {es : List Entry} {z b : Text} (h : ∀ e ∈ es, GoodEntry e)
    (heq : es.flatMap attrStr ++ ['>'] = z ++ '>' :: b) :
    b = [] ∨ ∃ es₁ e es₂ u w, es = es₁ ++ e :: es₂ ∧ value e = u ++ '>' :: w ∧
      b = w ++ ('"' :: es₂.flatMap attrStr ++ ['>']) := by
  induction es generalizing z with
  | nil => exact .inl (eq_nil_of_singleton heq)
  | cons e es ih =>
    obtain ⟨he, hes⟩ := List.forall_mem_cons.mp h
    have hfront : '>' ∉ ' ' :: (e.1 ++ ['=', '"']) := by simp [he.1.ne]
    have hsplit : (e :: es).flatMap attrStr ++ ['>'] = ' ' :: (e.1 ++ ['=', '"']) ++
        (value e ++ ('"' :: es.flatMap attrStr ++ ['>'])) := by
      simp [attrStr, he.eq_quoted, quoted]
    rw [hsplit] at heq
    rcases Offline.append_eq_append_cons heq with ⟨y, hy, -⟩ | ⟨y, -, hy⟩
    · simp [hy] at hfront
    · rcases Offline.append_eq_append_cons hy with ⟨w, hw, rfl⟩ | ⟨y', -, hy'⟩
      · exact .inr ⟨[], e, es, y, w, rfl, hw, rfl⟩
      · cases y' with
        | nil => simp at hy'
        | cons c y' =>
          have htail := (List.cons.inj hy').2
          apply (ih hes htail).imp_right
          rintro ⟨es₁, e', es₂, u, w, rfl, hw⟩
          exact ⟨e :: es₁, e', es₂, u, w, rfl, hw⟩

theorem tag_cut {a b : Text} (h : tag.Good) (heq : tag.text = a ++ '>' :: b) :
    b = [] ∨ ∃ tagName attrMap es₁ e es₂ u w, tag = .opening tagName attrMap ∧
      attrMap.entries = es₁ ++ e :: es₂ ∧ value e = u ++ '>' :: w ∧
      b = w ++ ('"' :: es₂.flatMap attrStr ++ ['>']) := by
  cases tag with
  | opening tagName attrMap =>
    have hfront : '>' ∉ '<' :: tagName := by simp [h.1.ne]
    have hsplit : (Tag.opening tagName attrMap).text =
        '<' :: tagName ++ (attrMap.entries.flatMap attrStr ++ ['>']) := by
      simp [Tag.text, attrsStr]
    rw [hsplit] at heq
    rcases Offline.append_eq_append_cons heq with ⟨y, hy, -⟩ | ⟨y, -, hy⟩
    · simp [hy] at hfront
    · apply (attrs_cut h.2 hy).imp_right
      rintro ⟨es₁, e, es₂, u, w, hes⟩
      exact ⟨tagName, attrMap, es₁, e, es₂, u, w, rfl, hes⟩
  | closing tagName =>
    have hfront : '>' ∉ '<' :: '/' :: tagName := by simp [Word.ne h]
    have hsplit : (Tag.closing tagName).text = '<' :: '/' :: tagName ++ ['>'] := rfl
    rw [hsplit] at heq
    rcases Offline.append_eq_append_cons heq with ⟨y, hy, -⟩ | ⟨y, -, hy⟩
    · simp [hy] at hfront
    · exact .inl (eq_nil_of_singleton hy)

theorem countP_opening {tagName : Text} {attrMap : AList fun _ : Text => Text} :
    (Tag.opening tagName attrMap :: tags).countP Tag.isOpening = tags.countP Tag.isOpening + 1 := by
  simp [List.countP_cons, Tag.isOpening]

theorem tags_eq_cons (obj : XmlObj) :
    ∃ tags, obj.tags = .opening obj.tagName obj.attrMap :: tags := by
  obtain ⟨tagName, attrMap, childrenMap⟩ := obj
  exact ⟨_, rfl⟩

theorem countP_after {obj : XmlObj} {before after : List Tag}
    (h : obj.tags = before ++ tag :: after) :
    after.countP Tag.isOpening < obj.tags.countP Tag.isOpening ∧
      (before ≠ [] → tag.isOpening = true →
        after.countP Tag.isOpening + 1 < obj.tags.countP Tag.isOpening) := by
  obtain ⟨tags, htags⟩ := tags_eq_cons obj
  cases before with
  | nil =>
    obtain ⟨rfl, rfl⟩ := List.cons.inj (htags.symm.trans h)
    rw [htags, countP_opening]
    exact ⟨by omega, by simp⟩
  | cons first before =>
    obtain ⟨rfl, -⟩ := List.cons.inj (htags.symm.trans h)
    rw [h, List.cons_append, countP_opening, List.countP_append, List.countP_cons]
    refine ⟨by omega, fun _ htag => ?_⟩
    rw [if_pos htag]
    omega

theorem not_parse_of_cut {obj : XmlObj} {n : ℕ} {root node : XmlNode} {before after : List Tag}
    {attrMap : AList fun _ : Text => Text} {es₁ es₂ : List Entry} {e : Entry}
    {tagName u w : Text} (hgood : ∀ tag ∈ obj.tags, tag.Good)
    (htags : obj.tags = before ++ .opening tagName attrMap :: after)
    (hes : attrMap.entries = es₁ ++ e :: es₂) (hv : value e = u ++ '<' :: w) (hw : '"' ∉ w)
    (hspaced : Spaced (('<' :: (w ++ '"' :: es₂.flatMap attrStr ++ ['>'])) :: after.map Tag.text)
      (stripHeader (obj.getXMLStr n)))
    (hparse : parseXml (obj.getXMLStr n) = some root) (hroot : root.children = [node]) :
    ¬SameTree obj node := by
  intro hsame
  have hopens := mapM_eq_some.mp (mapM_opens hspaced hparse hroot)
  have hlen := hopens.length_eq
  have hle := length_opens_le after
  obtain ⟨hlt, hlt'⟩ := countP_after htags
  rw [length_preorder obj node hsame, opens, List.filter_cons, ← opens] at hlen
  rw [opens, List.filter_cons, ← opens] at hopens
  split_ifs at hopens hlen with htype
  · rw [List.length_cons] at hlen
    obtain ⟨name, attr, children⟩ := node
    obtain ⟨hfirst, -⟩ := List.forall₂_cons.mp hopens
    rcases before with _ | ⟨first, before⟩
    · obtain ⟨objName, objAttr, childrenMap⟩ := obj
      obtain ⟨rfl, hattr, -⟩ := hsame
      obtain ⟨htag, -⟩ := List.cons.inj htags
      obtain ⟨rfl, rfl⟩ := Tag.opening.inj htag
      obtain ⟨hname, hentries⟩ := hgood (.opening name objAttr) (by simp [XmlObj.tags])
      exact cut_tag_differs hentries hname hes hv hw hfirst hattr
    · have := hlt' (by simp) rfl
      omega
  · omega

theorem first_eq_bracket {text tail : Text} {root : XmlNode} {c : Char}
    (hparse : parseXml text = some root)
    (hdrop : (stripHeader text).dropWhile isSpace = c :: tail) : c = '<' := by
  by_contra hc
  rw [Offline.parseXml_eq_none hc hdrop] at hparse
  cases hparse

theorem spaced_of_cut {text w rest : Text} {ss : List Text} {es : List Entry} {root : XmlNode}
    (hparse : parseXml text = some root) (hw : '"' ∉ w) (hes : ∀ e ∈ es, GoodEntry e)
    (htext : stripHeader text = w ++ ('"' :: es.flatMap attrStr ++ ['>'] ++ rest))
    (heven : rest.count '"' % 2 = 0) (hrest : Spaced ss rest) :
    ∃ ws w', w = ws ++ '<' :: w' ∧
      Spaced (('<' :: (w' ++ '"' :: es.flatMap attrStr ++ ['>'])) :: ss) (stripHeader text) := by
  have hfirst : ∀ {c : Char} {tail : Text}, _ = c :: tail → c = '<' := first_eq_bracket hparse
  rw [htext, List.dropWhile_append] at hfirst
  cases hdrop : w.dropWhile isSpace with
  | nil =>
    -- Only white space is left of the value, so the text starts with its quote.
    rw [hdrop, List.isEmpty_nil, if_pos rfl] at hfirst
    exact absurd (hfirst rfl) (by decide)
  | cons c w' =>
    rw [hdrop, if_neg (by simp)] at hfirst
    obtain rfl := hfirst rfl
    have hsplit : w = w.takeWhile isSpace ++ '<' :: w' := by
      rw [← hdrop, List.takeWhile_append_dropWhile]
    have hspaces : ∀ c ∈ w.takeWhile isSpace, isSpace c = true :=
      fun c hc => List.mem_takeWhile_imp hc
    have hw' : '"' ∉ w' := fun hmem => hw (by rw [hsplit]; simp [hmem])
    have hsegment : IsSegment ('<' :: (w' ++ '"' :: es.flatMap attrStr ++ ['>'])) :=
      ⟨_, rfl, tight_value hw' (tight_attrs hes) (count_attrs hes)⟩
    refine ⟨w.takeWhile isSpace, w', hsplit, ?_⟩
    have htext' : stripHeader text = w.takeWhile isSpace ++
        ('<' :: (w' ++ '"' :: es.flatMap attrStr ++ ['>']) ++ rest) := by
      rw [htext]
      nth_rewrite 1 [hsplit]
      simp
    rw [htext']
    exact .cons hspaces hsegment heven hrest

theorem not_headed_of_parse {obj : XmlObj} {n : ℕ} {root node : XmlNode}
    (hgood : ∀ tag ∈ obj.tags, tag.Good) (hparse : parseXml (obj.getXMLStr n) = some root)
    (hroot : root.children = [node]) (hsame : SameTree obj node) :
    ¬Headed (obj.getXMLStr n) := by
  intro hheaded
  obtain ⟨⟨hspaced, -⟩, -⟩ := laid_text hgood n
  obtain ⟨x, hx⟩ := Offline.stripHeader_of_headed hheaded
  obtain ⟨ss, t, ss', a, b, rest, hss, ht, hcontent, hrest, heven⟩ := hspaced.split hx
  obtain ⟨before, tags, htags, rfl, hss'⟩ := List.map_eq_append_iff.mp hss
  obtain ⟨tag, after, rfl, rfl, rfl⟩ := List.map_eq_cons_iff.mp hss'
  have htag : tag.Good := hgood tag (by simp [htags])
  rcases tag_cut htag ht with rfl | ⟨tagName, attrMap, es₁, e, es₂, u, w, rfl, hes, hv, rfl⟩
  · rw [List.nil_append] at hcontent
    rw [← hcontent] at hrest
    have hlen := (mapM_eq_some.mp (mapM_opens hrest hparse hroot)).length_eq
    have hle := length_opens_le after
    have hlt := (countP_after htags).1
    rw [length_preorder obj node hsame] at hlen
    omega
  · have hquote : '"' ∉ w := fun hmem => (htag.2 e (by simp [hes])).not_mem (by simp [hv, hmem])
    have hes₂ : ∀ e' ∈ es₂, GoodEntry e' := fun e' he' => htag.2 e' (by simp [hes, he'])
    rw [List.append_assoc] at hcontent
    obtain ⟨ws, w', rfl, hcut⟩ := spaced_of_cut hparse hquote hes₂ hcontent heven hrest
    have hv' : value e = (u ++ '>' :: ws) ++ '<' :: w' := by simp [hv]
    have hquote' : '"' ∉ w' := fun hmem => hquote (by simp [hmem])
    exact not_parse_of_cut hgood htags hes hv' hquote' hcut hparse hroot hsame

/-- A tree is read back exactly when no tag name starts with a slash, no value has an
equals sign, and no `<?` has a `?>` behind it. -/
theorem parseXml_getXMLStr_iff {obj : XmlObj} (h : Built obj) (n : ℕ) :
    (∃ root node, parseXml (obj.getXMLStr n) = some root ∧ root.children = [node] ∧
      SameTree obj node) ↔ ReadsBack obj := by
  obtain ⟨hgood, hsorted⟩ := h.good
  refine ⟨?_, fun h => parseXml_of_readsBack hgood hsorted h n⟩
  rintro ⟨root, node, hparse, hroot, hsame⟩
  obtain ⟨⟨hspaced, -⟩, hglued⟩ := laid_text hgood n
  have hheaded := not_headed_of_parse hgood hparse hroot hsame
  have hstrip := Offline.stripHeader_of_not_headed hheaded
  rw [← hstrip] at hspaced
  have hopens := mapM_opens hspaced hparse hroot
  refine ⟨readable_of_opens hgood hopens (length_preorder obj node hsame), ?_⟩
  rwa [← hglued.headed_iff]

def methodObj : XmlObj :=
  ((XmlObj.new ['m']).addAttr ['a'] ['<', 'i', '>', ' ', '\'', '?', '>']).addChild 7 (.new ['f'])

theorem methodObj_built : Built methodObj :=
  .addChild (.addAttr (.new (by simp [Word])) (by simp [Word]) (by simp)) (.new (by simp [Word]))
    (by simp [XmlObj.new, XmlObj.addAttr, XmlObj.childrenMap]) (by decide)

theorem methodObj_reads_back : ∃ root node, parseXml (methodObj.getXMLStr 0) = some root ∧
    root.children = [node] ∧ SameTree methodObj node := by
  refine (parseXml_getXMLStr_iff methodObj_built 0).mpr ⟨by decide +kernel, fun hheader => ?_⟩
  obtain ⟨w, hw, hin⟩ := hheader.exists_mem
  have hno : ∀ w ∈ methodObj.tags.flatMap Tag.marks, ¬['<', '?'] <:+: w := by decide +kernel
  exact hno w hw hin

def equalsObj : XmlObj := (XmlObj.new ['m']).addAttr ['a'] ['x', '=', 'y']

theorem equalsObj_not_read_back : Built equalsObj ∧
    ¬∃ root node, parseXml (equalsObj.getXMLStr 0) = some root ∧ root.children = [node] ∧
      SameTree equalsObj node := by
  refine ⟨.addAttr (.new (by simp [Word])) (by simp [Word]) (by simp), ?_⟩
  rintro ⟨root, node, hparse, -⟩
  have hnone : (parseXml (equalsObj.getXMLStr 0)).isNone = true := by decide +kernel
  rw [hparse] at hnone
  cases hnone

end Trace4J.Profiler
