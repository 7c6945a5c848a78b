import Trace4J.Offline.HomoXmlProgress
import Trace4J.Profiler.BufferedOutput
import Trace4J.Profiler.ContextElements
import Trace4J.Profiler.TraceOutput

/-!
# The trace file of a thread

From the contexts of a thread to the manager that the script builds: the elements as text,
`writef` over the buffer of the file, the threads of `HomoXMLParser` and `load_context`. An
element too long for the buffer on the stack loses its last character, which is the line break.
-/

namespace Trace4J.Profiler
open Library
open Offline (XmlNode closeTag findText findText_prefix parseXml parseXml_spaced parseSegs
  stripHeader isSpace Spaced Headed LevelOneNode Layout)

/-! ## One element -/

/-- The text of an element without the line break behind its close tag. -/
def elementText (obj : XmlObj) : Text := (obj.getXMLStr 0).dropLast

variable {tag : Text} {obj : XmlObj} {t : Tag}

theorem getXMLStr_eq (obj : XmlObj) : ∃ inner, obj.getXMLStr 0 =
    '<' :: obj.tagName ++ inner ++ closeTag obj.tagName ++ ['\n'] := by
  obtain ⟨tagName, attrMap, childrenMap⟩ := obj
  refine ⟨attrsStr attrMap ++ ['>', '\n'] ++ XmlObj.childrenStr childrenMap 2, ?_⟩
  simp [XmlObj.getXMLStr, XmlObj.tagName, closeTag]

theorem getXMLStr_eq_elementText (obj : XmlObj) :
    obj.getXMLStr 0 = elementText obj ++ ['\n'] := by
  obtain ⟨inner, heq⟩ := getXMLStr_eq obj
  rw [elementText, heq, List.dropLast_concat]

theorem elementText_eq (obj : XmlObj) : ∃ inner, elementText obj =
    '<' :: obj.tagName ++ inner ++ closeTag obj.tagName := by
  obtain ⟨inner, heq⟩ := getXMLStr_eq obj
  exact ⟨inner, by rw [elementText, heq, List.dropLast_concat]⟩

/-! ### Plain tags -/

theorem Plain.notMem {text : Text} (h : Plain text) {c : Char}
    (hc : c ∈ ['"', '=', '<', '>', '\x00']) : c ∉ text := fun hmem => h c hmem hc

theorem PlainEntry.good {e : Entry} (h : PlainEntry e) : GoodEntry e := by
  obtain ⟨⟨hkey, -⟩, v, hv, hplain⟩ := h
  exact ⟨hkey, v, hv, hplain.notMem (by simp)⟩

theorem PlainEntry.notMem {e : Entry} (h : PlainEntry e) {c : Char}
    (hc : c ∈ ['=', '<', '>', '\x00']) : c ∉ e.2 := by
  obtain ⟨-, v, hv, hplain⟩ := h
  have hquote : c ≠ '"' := by
    rintro rfl
    exact absurd hc (by decide)
  have hv' : c ∉ v := hplain.notMem (List.mem_cons_of_mem _ hc)
  simp [hv, quoted, hquote, hv']

theorem Tag.Plain.good (h : t.Plain) : t.Good := by
  cases t with
  | opening tagName attrMap => exact ⟨h.1.1, fun e he => (h.2 e he).good⟩
  | closing tagName => exact h.1

theorem Tag.Plain.readable (h : t.Plain) : t.Readable := by
  cases t with
  | opening tagName attrMap => exact ⟨h.1.2.2.1, fun e he => (h.2 e he).notMem (by simp)⟩
  | closing tagName => trivial

theorem not_header_infix {w : Text} (hhead : w.head? ≠ some '?') (hw : '<' ∉ w) :
    ¬['<', '?'] <:+: '<' :: w := by
  rw [List.infix_cons_iff, List.prefix_cons_iff]
  rintro ((hnil | ⟨r, hr, hpre⟩) | hin)
  · cases hnil
  · obtain ⟨-, rfl⟩ := List.cons.inj hr
    obtain ⟨s, rfl⟩ := hpre
    exact hhead rfl
  · exact hw (hin.subset (by simp))

theorem PlainName.head_append {name : Text} (h : PlainName name) (rest : Text) :
    (name ++ rest).head? ≠ some '?' ∧ (name ++ rest).head? ≠ some '/' := by
  obtain ⟨⟨hne, -⟩, -, hslash, hmark⟩ := h
  rw [List.head?_append_of_ne_nil _ hne]
  exact ⟨hmark, hslash⟩

theorem PlainName.notMem {name : Text} (h : PlainName name) : '<' ∉ name ∧ '>' ∉ name :=
  ⟨h.1.ne (by simp), h.1.ne (by simp)⟩

theorem Tag.Plain.not_mark (h : t.Plain) : ∀ w ∈ t.marks, ¬['<', '?'] <:+: w := by
  cases t with
  | opening tagName attrMap =>
    obtain ⟨hname, hattr⟩ := h
    intro w hw
    rw [Tag.marks] at hw
    split_ifs at hw
    · rw [List.mem_singleton.mp hw]
      exact not_header_infix (hname.head_append _).1 (by simp [hname.notMem])
    · obtain rfl | hw := List.mem_cons.mp hw
      · exact not_header_infix hname.2.2.2 hname.notMem.1
      · obtain ⟨e, he, rfl⟩ := List.mem_map.mp hw
        intro hin
        exact (hattr e he).notMem (by simp) (hin.subset (show '<' ∈ _ by simp))
  | closing tagName =>
    intro w hw
    rw [List.mem_singleton.mp hw]
    exact not_header_infix (by simp) (by simp [PlainName.notMem h])

theorem Tag.Plain.body (h : t.Plain) : ∃ body, t.text = '<' :: body ∧ '<' ∉ body := by
  cases t with
  | opening tagName attrMap =>
    obtain ⟨hname, hattr⟩ := h
    refine ⟨_, rfl, ?_⟩
    have hattrs : '<' ∉ attrsStr attrMap := by
      rw [attrsStr, List.mem_flatMap]
      rintro ⟨e, he, hmem⟩
      have hkey := (hattr e he).1.notMem.1
      have hvalue := (hattr e he).notMem (show '<' ∈ _ by simp)
      simp [attrStr, hkey, hvalue] at hmem
    simp [hname.notMem, hattrs]
  | closing tagName => exact ⟨_, rfl, by simp [PlainName.notMem h]⟩

section Reading
variable (h : ∀ t ∈ obj.tags, t.Plain)
include h

theorem spaced_elementText : Spaced (obj.tags.map Tag.text) (elementText obj) := by
  obtain ⟨⟨hspaced, -⟩, -⟩ := laid_text (fun t ht => (h t ht).good) 0
  have hstrip := hspaced.rdropWhile
  obtain ⟨inner, heq⟩ := elementText_eq obj
  have hlast : (elementText obj).rdropWhile isSpace = elementText obj := by
    rw [heq, closeTag, ← List.append_assoc]
    exact List.rdropWhile_concat_neg _ _ _ (by decide)
  rwa [getXMLStr_eq_elementText, List.rdropWhile_concat_pos _ _ _ (by decide), hlast] at hstrip

theorem not_headed_elementText : ¬Headed (elementText obj) := by
  obtain ⟨-, hglued⟩ := laid_text (fun t ht => (h t ht).good) 0
  rintro ⟨x, y, hxy, hend⟩
  have hheaded : Headed (obj.getXMLStr 0) := by
    refine ⟨x, y ++ ['\n'], ?_, hend.trans (List.prefix_append _ ['\n']).isInfix⟩
    rw [getXMLStr_eq_elementText, hxy]
    simp
  obtain ⟨w, hw, hin⟩ := (hglued.headed_iff.mp hheaded).exists_mem
  obtain ⟨t, ht, hw⟩ := List.mem_flatMap.mp hw
  exact (h t ht).not_mark w hw hin

theorem parseXml_elementText (hsorted : obj.Sorted) :
    ∃ node, (parseXml (elementText obj)).map XmlNode.children = some [node] ∧
      SameTree obj node := by
  obtain ⟨node, hsame, hparse⟩ := parseSegs_tags obj (fun t ht => (h t ht).good)
    (fun t ht => (h t ht).readable) hsorted
  have hspaced := spaced_elementText h
  rw [← Offline.stripHeader_of_not_headed (not_headed_elementText h)] at hspaced
  refine ⟨node, ?_, hsame⟩
  rw [parseXml_spaced hspaced, ← List.append_nil (obj.tags.map Tag.text),
    hparse [] Offline.virtualRoot []]
  rfl

end Reading

/-! ### The close tag -/

theorem findText_cons {c : Char} {s : Text} (hnot : ¬closeTag tag <+: c :: s)
    (h : 0 ≤ findText (closeTag tag) s) :
    findText (closeTag tag) (c :: s) = findText (closeTag tag) s + 1 := by
  rw [findText, if_neg hnot, if_neg (not_lt.mpr h)]

theorem findText_skip {w s : Text} (hw : '<' ∉ w) (h : 0 ≤ findText (closeTag tag) s) :
    findText (closeTag tag) (w ++ s) = findText (closeTag tag) s + w.length := by
  induction w with
  | nil => simp
  | cons c w ih =>
    obtain ⟨hc, hw⟩ := not_or.mp (mt List.mem_cons.mpr hw)
    have hnot : ¬closeTag tag <+: c :: (w ++ s) := by
      rw [closeTag, List.cons_append, List.cons_prefix_cons]
      exact fun hpre => hc hpre.1
    have hrest := ih hw
    rw [List.cons_append, findText_cons hnot (by omega), hrest, List.length_cons]
    omega

theorem name_eq_of_prefix {a b rest : Text} (ha : '>' ∉ a) (hb : '>' ∉ b)
    (h : a ++ ['>'] <+: b ++ '>' :: rest) : a = b := by
  obtain ⟨z, hz⟩ := h
  rw [List.append_assoc, List.singleton_append] at hz
  obtain ⟨w, rfl, hw⟩ | ⟨w, rfl, hw⟩ := List.append_eq_append_iff.mp hz
  · cases w with
    | nil => simp
    | cons c w =>
      obtain ⟨rfl, -⟩ := List.cons.inj hw
      simp at hb
  · cases w with
    | nil => simp
    | cons c w =>
      obtain ⟨rfl, -⟩ := List.cons.inj hw
      simp at ha

theorem Tag.Plain.not_close (h : t.Plain) (htag : PlainName tag) (hne : t ≠ .closing tag)
    (rest : Text) : ¬closeTag tag <+: t.text ++ rest := by
  intro hpre
  cases t with
  | opening tagName attrMap =>
    have hhead := (h.1.head_append (attrsStr attrMap ++ ['>'] ++ rest)).2
    obtain ⟨z, hz⟩ := hpre
    simp only [closeTag, Tag.text, List.cons_append, List.append_assoc] at hz hhead
    rw [← (List.cons.inj hz).2] at hhead
    exact hhead rfl
  | closing tagName =>
    have hname : tag ++ ['>'] <+: tagName ++ '>' :: rest := by
      simpa [closeTag, Tag.text] using hpre
    obtain rfl := name_eq_of_prefix htag.notMem.2 (PlainName.notMem h).2 hname
    exact hne rfl

theorem notMem_of_spaces {ws : Text} (h : ∀ c ∈ ws, isSpace c = true) : '<' ∉ ws := fun hmem =>
  absurd (h '<' hmem) (by decide)

theorem findText_tag (h : t.Plain) (htag : PlainName tag) (hne : t ≠ .closing tag) {rest : Text}
    (hrest : 0 ≤ findText (closeTag tag) rest) :
    findText (closeTag tag) (t.text ++ rest) = findText (closeTag tag) rest + t.text.length := by
  have hnot := h.not_close htag hne rest
  obtain ⟨body, hbody, hbracket⟩ := h.body
  have hskip := findText_skip hbracket hrest
  rw [hbody, List.cons_append] at hnot ⊢
  rw [findText_cons hnot (by omega), hskip, List.length_cons]
  omega

theorem findText_closeTag (htag : PlainName tag) (before : List Tag) {text : Text}
    (hplain : ∀ t ∈ before, t.Plain ∧ t ≠ .closing tag)
    (h : Spaced (before.map Tag.text ++ [closeTag tag]) text) :
    ∃ front ws : Text, text = front ++ (closeTag tag ++ ws) ∧ (∀ c ∈ ws, isSpace c = true) ∧
      findText (closeTag tag) text = front.length := by
  induction before generalizing text with
  | nil =>
    obtain _ | @⟨front, _, rest, _, hws, -, -, hrest⟩ := h
    obtain ⟨hspaces⟩ := hrest
    refine ⟨front, rest, rfl, hspaces, ?_⟩
    have hfirst := findText_prefix (List.prefix_append (closeTag tag) rest)
    rw [findText_skip (notMem_of_spaces hws) hfirst.ge, hfirst, zero_add]
  | cons t before ih =>
    obtain ⟨⟨ht, hne⟩, hbefore⟩ := List.forall_mem_cons.mp hplain
    obtain _ | @⟨spaces, _, rest, _, hws, -, -, hrest⟩ := h
    obtain ⟨front, ws, rfl, hspaces, hfound⟩ := ih hbefore hrest
    have htext := findText_tag ht htag hne (hfound.ge.trans' (Int.natCast_nonneg _))
    refine ⟨spaces ++ (t.text ++ front), ws, by simp, hspaces, ?_⟩
    rw [findText_skip (notMem_of_spaces hws) (by omega), htext, hfound, List.length_append,
      List.length_append]
    omega

theorem closeTag_last {front inner ws : Text} (hws : ∀ c ∈ ws, isSpace c = true)
    (h : inner ++ closeTag tag = front ++ (closeTag tag ++ ws)) : ws = [] := by
  induction ws using List.reverseRecOn with
  | nil => rfl
  | append_singleton ws c _ =>
    have hlast := congrArg List.getLast? h
    simp only [closeTag, ← List.append_assoc, List.getLast?_concat] at hlast
    cases hlast
    exact absurd (hws '>' (by simp)) (by decide)

theorem Element.exists_node (h : Element tag obj) :
    ∃ n : LevelOneNode tag, n.text = elementText obj ∧ SameTree obj n.obj := by
  obtain ⟨node, hparse, hsame⟩ := parseXml_elementText h.plain h.sorted
  obtain ⟨inner, htext⟩ := elementText_eq obj
  have hspaced := spaced_elementText h.plain
  have hplain := h.plain
  have hinner := h.inner
  obtain ⟨tagName, attrMap, childrenMap⟩ := obj
  obtain rfl : tagName = tag := h.name
  simp only [XmlObj.tags, List.forall_mem_cons, List.forall_mem_append] at hplain
  obtain ⟨hopen, hchildren, -, -⟩ := hplain
  obtain ⟨front, ws, hfront, hws, hfound⟩ := findText_closeTag hopen.1
    (.opening tagName attrMap :: childrenTags childrenMap)
    (List.forall_mem_cons.mpr ⟨⟨hopen, by simp⟩, fun t ht => ⟨hchildren t ht, hinner t ht⟩⟩)
    (by simpa [XmlObj.tags, Tag.text, closeTag] using hspaced)
  obtain rfl := closeTag_last hws (htext.symm.trans hfront)
  refine ⟨⟨elementText ⟨tagName, attrMap, childrenMap⟩, node, ?_, ?_, ?_, hparse⟩, rfl, hsame⟩
  · rw [htext, List.append_assoc]
    exact List.prefix_append _ _
  · rw [hfound, hfront]
    simp
  · rw [hfound]
    exact Int.natCast_nonneg _

/-! ## The text of the file -/

def xmlFileHeader : Text :=
  ['<', '?', 'x', 'm', 'l', ' ', 'v', 'e', 'r', 's', 'i', 'o', 'n', '=', '"', '1', '.', '0', '"',
    ' ', 'e', 'n', 'c', 'o', 'd', 'i', 'n', 'g', '=', '"', 'u', 't', 'f', '-', '8', '"', '?', '>']

theorem stripHeader_xmlFileHeader (rest : Text) : stripHeader (xmlFileHeader ++ rest) = rest := by
  have hstart : findText ['<', '?'] (xmlFileHeader ++ rest) = 0 :=
    findText_prefix ⟨xmlFileHeader.drop 2 ++ rest, rfl⟩
  have htail : findText ['?', '>'] (xmlFileHeader.tail ++ rest) = 35 :=
    Offline.findText_append (show 0 ≤ findText ['?', '>'] xmlFileHeader.tail by decide +kernel)
      |>.trans (by decide +kernel)
  have hend : Offline.findTextFrom ['?', '>'] (xmlFileHeader ++ rest) 1 = 36 := by
    have hdrop : (xmlFileHeader ++ rest).drop 1 = xmlFileHeader.tail ++ rest := rfl
    rw [Offline.findTextFrom, hdrop, htail, if_neg (by simp [xmlFileHeader])]
    rfl
  have hslice := Offline.pySlice_nat (xmlFileHeader ++ rest) 38 (xmlFileHeader ++ rest).length
  rw [List.take_length] at hslice
  simp only [stripHeader, hstart]
  rw [show ((0 : ℤ) + 1).toNat = 1 from rfl, hend, if_pos (by decide)]
  exact hslice

def IsLine (obj : XmlObj) (line : Text) : Prop :=
  ∃ nl : Text, (∀ c ∈ nl, isSpace c = true) ∧ line = elementText obj ++ nl

theorem exists_layout {elems : List XmlObj} {lines : List Text} (h : ∀ obj ∈ elems, Element tag obj)
    (hlines : List.Forall₂ IsLine elems lines) {ws : Text} (hws : ∀ c ∈ ws, isSpace c = true) :
    ∃ nodes : List (LevelOneNode tag), Layout tag (ws ++ lines.flatten) nodes ∧
      List.Forall₂ (fun obj n => SameTree obj n.obj) elems nodes := by
  induction hlines generalizing ws with
  | nil => exact ⟨[], .nil (by simpa using hws), .nil⟩
  | @cons obj line elems lines hline _ ih =>
    obtain ⟨hobj, helems⟩ := List.forall_mem_cons.mp h
    obtain ⟨nl, hnl, rfl⟩ := hline
    obtain ⟨n, htext, hsame⟩ := hobj.exists_node
    obtain ⟨nodes, hlayout, hnodes⟩ := ih helems hnl
    refine ⟨n :: nodes, ?_, .cons hsame hnodes⟩
    have hfile := Layout.cons (n := n) hws hlayout
    rwa [htext, ← List.append_assoc (elementText obj)] at hfile

/-! ## The bytes of the file -/

def encodeText (text : Text) : List UInt8 := text.flatMap String.utf8EncodeChar

/-- `f.read()` of a file in UTF-8. -/
def decodeText (bytes : List UInt8) : Option Text :=
  bytes.toByteArray.utf8Decode?.map Array.toList

theorem decodeText_encodeText (text : Text) : decodeText (encodeText text) = some text := by
  have hdecode : text.utf8Encode.utf8Decode? = some text.toArray := List.utf8Decode?_utf8Encode
  rw [decodeText, encodeText, ← List.utf8Encode, hdecode]
  rfl

theorem encodeText_append (a b : Text) : encodeText (a ++ b) = encodeText a ++ encodeText b :=
  List.flatMap_append

theorem zero_notMem_utf8EncodeChar {c : Char} (h : c ≠ '\x00') : 0 ∉ String.utf8EncodeChar c := by
  have hbyte : ∀ n : ℕ, n % 256 ≠ 0 → 0 ≠ UInt8.ofNat n := by
    intro n hn heq
    have := congrArg UInt8.toNat heq
    rw [UInt8.toNat_ofNat'] at this
    exact hn this.symm
  have hpos : c.val.toNat ≠ 0 := fun hzero => h (Char.ext (UInt32.toNat_inj.mp hzero))
  rw [String.utf8EncodeChar]
  split_ifs with hone
  · exact List.not_mem_cons_of_ne_of_not_mem (hbyte _ (by omega)) (List.not_mem_nil)
  all_goals
    simp only [List.mem_cons, List.not_mem_nil, or_false, not_or]
    and_intros
    all_goals exact hbyte _ (by omega)

theorem zero_notMem_encodeText {text : Text} (h : '\x00' ∉ text) : 0 ∉ encodeText text := by
  rw [encodeText, List.mem_flatMap]
  rintro ⟨c, hc, hzero⟩
  refine zero_notMem_utf8EncodeChar ?_ hzero
  rintro rfl
  exact h hc

theorem nul_notMem_spaced {ss : List Text} {text : Text} (h : Spaced ss text)
    (hss : ∀ s ∈ ss, '\x00' ∉ s) : '\x00' ∉ text := by
  have hspaces : ∀ {ws : Text}, (∀ c ∈ ws, isSpace c = true) → '\x00' ∉ ws :=
    fun hws hmem => absurd (hws _ hmem) (by decide)
  induction h with
  | nil hws => exact hspaces hws
  | cons hws _ _ _ ih =>
    obtain ⟨hs, hss⟩ := List.forall_mem_cons.mp hss
    simp [hspaces hws, hs, ih hss]

theorem Tag.Plain.nul_notMem (h : t.Plain) : '\x00' ∉ t.text := by
  cases t with
  | opening tagName attrMap =>
    obtain ⟨hname, hattr⟩ := h
    have hattrs : '\x00' ∉ attrsStr attrMap := by
      rw [attrsStr, List.mem_flatMap]
      rintro ⟨e, he, hmem⟩
      have hkey := (hattr e he).1.2.1
      have hvalue := (hattr e he).notMem (show '\x00' ∈ _ by simp)
      simp [attrStr, hkey, hvalue] at hmem
    simp [Tag.text, hname.2.1, hattrs]
  | closing tagName =>
    obtain ⟨-, hname, -⟩ := h
    simp [Tag.text, hname]

/-! ### What is written -/

def Prints (calls : List BufferedOutput.OutputCall) (texts : List Text) : Prop :=
  List.Forall₂ (fun c text => ∃ output, c = .writef output ∧ output.text = encodeText text)
    calls texts

/-- At most the line break is lost. -/
theorem sent_line {output : BufferedOutput.Formatted} {body : Text} (hnul : '\x00' ∉ body)
    (h : output.text = encodeText (body ++ ['\n'])) :
    let c := BufferedOutput.OutputCall.writef output
    ∃ nl : Text, (∀ c ∈ nl, isSpace c = true) ∧
      c.mem.take c.ret.toNat = encodeText (body ++ nl) := by
  intro c
  by_cases hlong : BufferedOutput.localBufferSize ≤ output.text.length
  · refine ⟨[], by simp, ?_⟩
    have htext : output.text = encodeText body ++ [10] := by rw [h, encodeText_append]; rfl
    have hmem : c.mem = encodeText body ++ [0] := by
      rw [BufferedOutput.OutputCall.mem, if_pos hlong, BufferedOutput.vsnprintf, htext]
      simp
    have hlen : (BufferedOutput.cString (encodeText body ++ [0])).length =
        (encodeText body).length :=
      (BufferedOutput.cString_length_eq_iff _).mpr (zero_notMem_encodeText hnul)
    have hfits : (encodeText body).length < 2 ^ 31 := by
      have := output.fits
      rw [htext, List.length_append] at this
      omega
    rw [BufferedOutput.OutputCall.ret, hmem, hlen, (BufferedOutput.int32_eq_iff _).mpr hfits,
      Int.toNat_natCast, List.take_left, List.append_nil]
  · refine ⟨['\n'], by simp [isSpace], ?_⟩
    have hnul' : '\x00' ∉ body ++ ['\n'] := by simp [hnul]
    rw [← h]
    exact BufferedOutput.sent_of_fits ⟨not_le.mp hlong, h ▸ zero_notMem_encodeText hnul'⟩

theorem Element.nul_notMem (h : Element tag obj) : '\x00' ∉ elementText obj := by
  refine nul_notMem_spaced (spaced_elementText h.plain) fun s hs => ?_
  obtain ⟨t, ht, rfl⟩ := List.mem_map.mp hs
  exact (h.plain t ht).nul_notMem

theorem exists_lines {elems : List XmlObj} (helems : ∀ obj ∈ elems, Element tag obj)
    {calls : List BufferedOutput.OutputCall}
    (hcalls : Prints calls (elems.map fun obj => obj.getXMLStr 0)) :
    ∃ lines, List.Forall₂ IsLine elems lines ∧
      (calls.map fun c => c.mem.take c.ret.toNat).flatten = encodeText lines.flatten := by
  induction elems generalizing calls with
  | nil =>
    cases hcalls
    exact ⟨[], .nil, rfl⟩
  | cons obj elems ih =>
    obtain ⟨hobj, helems⟩ := List.forall_mem_cons.mp helems
    obtain _ | ⟨⟨output, rfl, htext⟩, hcalls⟩ := hcalls
    obtain ⟨lines, hlines, hsent⟩ := ih helems hcalls
    obtain ⟨nl, hnl, hline⟩ := sent_line hobj.nul_notMem
      (htext.trans (congrArg encodeText (getXMLStr_eq_elementText obj)))
    refine ⟨(elementText obj ++ nl) :: lines, .cons ⟨nl, hnl, rfl⟩ hlines, ?_⟩
    rw [List.map_cons, List.flatten_cons, List.flatten_cons, hline, hsent, ← encodeText_append]

def traceTexts (elems : List XmlObj) : List Text :=
  (xmlFileHeader ++ ['\n']) :: elems.map fun obj => obj.getXMLStr 0

/-- What the script reads is the header and the lines, up to line breaks. -/
theorem exists_contents {elems : List XmlObj} (helems : ∀ obj ∈ elems, Element tag obj)
    {calls : List BufferedOutput.OutputCall} (hcalls : Prints calls (traceTexts elems))
    (host : BufferedOutput.Host) {name : BufferedOutput.FileName} (hname : name ≠ [])
    (hopen : (BufferedOutput.openFile host BufferedOutput.nameBufferSize name).2 = true) :
    ∃ rets o ws lines, BufferedOutput.execCalls host calls { fileName := name } = .ok (rets, o) ∧
      decodeText (BufferedOutput.delivered host o) = some (xmlFileHeader ++ (ws ++ lines.flatten)) ∧
      (∀ c ∈ ws, isSpace c = true) ∧ List.Forall₂ IsLine elems lines := by
  obtain ⟨o, hrun, hbytes⟩ := BufferedOutput.execCalls_spec calls
    (show ({ fileName := name } : BufferedOutput.Output).Ready host from ⟨hname, hopen⟩)
  obtain _ | @⟨_, _, calls, _, ⟨output, rfl, htext⟩, hcalls⟩ := hcalls
  have hnul : '\x00' ∉ xmlFileHeader := by decide +kernel
  obtain ⟨ws, hws, hheader⟩ := sent_line hnul htext
  obtain ⟨lines, hlines, hsent⟩ := exists_lines helems hcalls
  refine ⟨_, o, ws, lines, hrun, ?_, hws, hlines⟩
  have hempty : ({ fileName := name } : BufferedOutput.Output).bytes = [] := rfl
  rw [hempty, List.nil_append, List.map_cons, List.flatten_cons] at hbytes
  rw [BufferedOutput.delivered_eq, hbytes, hheader, hsent, ← encodeText_append,
    decodeText_encodeText, List.append_assoc]

/-! ## Loading -/

section Loading
variable {realText : ℚ → Text} {infos : List MetricInfo} {tree : ContextTree} {order : List ℕ}

/-- The elements that `threadEnd` writes, whatever order the hash maps have. -/
def Written (realText : ℚ → Text) (infos : List MetricInfo) (tree : ContextTree) (order : List ℕ)
    (elems : List XmlObj) : Prop :=
  List.Forall₂ (fun n obj => Rehashed (contextObj realText infos tree n) obj)
    (tree.dump order) elems

theorem Written.elements (h : Written realText infos tree order elems)
    (hplain : ∀ n ∈ tree.dump order, ∀ m, (tree.contextMap n).metrics = some m →
      PlainMetrics realText infos m) : ∀ obj ∈ elems, Element contextTag obj := by
  intro obj hobj
  obtain ⟨n, hn, hhash⟩ := exists_of_forall₂ h.flip hobj
  exact (element_contextObj (hplain n hn)).rehash hhash

theorem contexts_of_nodes {ns : List ℕ} {elems : List XmlObj}
    {nodes : List (LevelOneNode contextTag)}
    (h : List.Forall₂ (fun n obj => Rehashed (contextObj realText infos tree n) obj) ns elems)
    (hnodes : List.Forall₂ (fun obj n => SameTree obj n.obj) elems nodes) :
    List.Forall₂ (fun node n =>
      Offline.contextXmlOf node.obj = some (contextXml realText infos tree n)) nodes ns := by
  induction h generalizing nodes with
  | nil =>
    cases hnodes
    exact .nil
  | cons hhash _ ih =>
    obtain _ | ⟨hsame, hnodes⟩ := hnodes
    exact .cons (contextXmlOf_eq (hsame.of_rehashed hhash)) (ih hnodes)

theorem exists_loaded {nodes : List (LevelOneNode contextTag)} {children : List XmlNode}
    (h : Written realText infos tree order elems)
    (hnodes : List.Forall₂ (fun obj n => SameTree obj n.obj) elems nodes)
    (hperm : children.Perm (nodes.map LevelOneNode.obj)) :
    ∃ loaded, children.mapM Offline.contextXmlOf = some loaded ∧
      loaded.Perm (writeContexts realText infos tree order) := by
  have hread : List.Forall₂ (fun node x => Offline.contextXmlOf node = some x)
      (nodes.map LevelOneNode.obj) (writeContexts realText infos tree order) := by
    rw [writeContexts, List.forall₂_map_left_iff, List.forall₂_map_right_iff]
    exact contexts_of_nodes h hnodes
  obtain ⟨loaded, hloaded, hp⟩ := List.perm_comp_forall₂ hperm hread
  exact ⟨loaded, mapM_eq_some.mpr hloaded, hp⟩

end Loading

/-! ## The strings of a run -/

/-- The strings of the metrics are numbers with blanks between them. -/
def PlainStrings (m : ContextMetrics) : Prop := ∀ k, Plain (slots m k).str

theorem Plain.append {a b : Text} (ha : Plain a) (hb : Plain b) : Plain (a ++ b) :=
  List.forall_mem_append.mpr ⟨ha, hb⟩

theorem plain_nil : Plain [] := List.forall_mem_nil _

section Strings
variable {update : ℕ → ℕ → Welford → Welford} {w : Watermark} {cv : ℚ → ℚ → ℚ}
variable {sampleCnt i : ℕ} {start stop newValue : Row} {m m' : ContextMetrics}

theorem recordEvent_plain (hw : w.Laid) (h1 : 1 ≤ i) (hi : i < w.curWatermarkId)
    (h : recordEventWith update w cv sampleCnt start stop newValue m i = some m')
    (hm : PlainStrings m) : PlainStrings m' := by
  obtain ⟨-, -, hslots⟩ := recordEvent_updates hw h1 hi h
  have hnumber : ∀ (str : Text) (x : UInt64), Plain str → Plain (str ++ toDecimal x ++ [' ']) :=
    fun str x hstr => (hstr.append (plain_idText x.toNat)).append (by simp [Plain])
  intro k
  rw [hslots]
  simp only [Function.update_apply]
  split_ifs
  all_goals first
    | exact plain_nil
    | exact hnumber _ _ (hm _)
    | exact hm k

theorem foldlM_plain (hw : w.Laid) (l : List ℕ) (hl : ∀ i ∈ l, 1 ≤ i ∧ i < w.curWatermarkId)
    (m m' : ContextMetrics) (hm : PlainStrings m)
    (h : l.foldlM (recordEventWith update w cv sampleCnt start stop newValue) m = some m') :
    PlainStrings m' := by
  induction l generalizing m with
  | nil =>
    cases h
    exact hm
  | cons j l ih =>
    obtain ⟨⟨h1, hj⟩, htail⟩ := List.forall_mem_cons.mp hl
    obtain ⟨m₁, h₁, h⟩ := Option.bind_eq_some_iff.mp (List.foldlM_cons.symm.trans h)
    exact ih htail m₁ (recordEvent_plain hw h1 hj h₁ hm) h

theorem plainStrings_nil : PlainStrings [] := fun _ => plain_nil

theorem recordMetrics_plain {metrics : Option ContextMetrics} (hw : w.Laid)
    (hmetrics : PlainStrings (metrics.getD []))
    (h : recordMetricsWith update w cv metrics start stop newValue = some m') :
    PlainStrings m' := by
  obtain ⟨m₁, hinc, h⟩ := Option.bind_eq_some_iff.mp h
  obtain ⟨⟨m₂, cnt⟩, hget, hfold⟩ := Option.bind_eq_some_iff.mp h
  obtain ⟨-, -, hsame, -⟩ := getMetricVal_some hget
  refine foldlM_plain hw _ (fun i => mem_events.mp) m₂ m' (fun k => ?_) hfold
  rw [hsame, increment_some hinc, Function.update_apply]
  split_ifs
  · exact hmetrics _
  · exact hmetrics k

end Strings

def PlainTree (t : ContextTree) : Prop :=
  ∀ n < t.idCounter, ∀ m, (t.contextMap n).metrics = some m → PlainStrings m

section Runs
variable {cfg : Config} {env : Env} {s s' : Thread} {t t' : ContextTree}

theorem PlainTree.extends (h : PlainTree t) (hext : Extends t t') : PlainTree t' := by
  intro n hn m hm
  by_cases hold : n < t.idCounter
  · rw [hext.old n hold] at hm
    exact h n hold m hm
  · rw [hext.new n (by omega) hn] at hm
    cases hm

theorem TreeStep.plain (hw : cfg.watermark.Laid) (hs : TreeStep cfg env s s')
    (hlinked : s.contextTree.Linked) (h : PlainTree s.contextTree) : PlainTree s'.contextTree := by
  cases hs with
  | same htree _ => exact htree ▸ h
  | build _ htree _ => exact htree ▸ h.extends (constructContext_extends hlinked _ _ _ _ _)
  | record pc methodId version inst _ _ _ hm htree _ =>
    have hgrown := h.extends (constructContext_extends hlinked env.trace pc methodId version
      inst.frame)
    rw [htree]
    intro n hn m hmetrics
    by_cases hn' : n = inst.ctxt
    · subst hn'
      simp only [ContextTree.setMetrics, Function.update_self, Option.some.injEq] at hmetrics
      subst hmetrics
      rw [Instance.update, ← recordMetricsWith_exact] at hm
      refine recordMetrics_plain hw ?_ hm
      cases hold : ((constructContext s.contextTree env.trace pc methodId version
        inst.frame).1.contextMap inst.ctxt).metrics with
      | none => exact plainStrings_nil
      | some m₀ => exact hgrown inst.ctxt hn m₀ hold
    · simp only [ContextTree.setMetrics, Function.update_of_ne hn'] at hmetrics
      exact hgrown n hn m hmetrics

theorem plainTree_run (hw : cfg.watermark.Laid) {events : List Event}
    (hrun : run (step cfg) events Thread.init = .ok s) : PlainTree s.contextTree := by
  have hboth : History cfg s ∧ PlainTree s.contextTree := by
    refine run_keeps (P := fun s => History cfg s ∧ PlainTree s.contextTree) ?_
      ⟨history_init, ?_⟩ hrun
    · rintro ev s s' ⟨hhist, hplain⟩ hstep
      have htree := step_treeStep hstep
      exact ⟨hhist.step hw htree, htree.plain hw hhist.linked hplain⟩
    · intro n _ m hm
      cases hm
  exact hboth.2

theorem plain_infos {clientName : Text} {names : List Text} {w : Watermark}
    (hw : setupWatermarks clientName names {} = some w) (hnames : ∀ e ∈ names, Plain e) :
    ∀ info ∈ w.metricInfoList, Plain info.eventName ∧ Plain info.eventMeasure := by
  have hmeasures : ∀ measure ∈ countMeasure :: eventMeasures, Plain measure := by decide
  cases names with
  | nil =>
    cases hw
    simp
  | cons e es =>
    obtain ⟨he, hes⟩ := List.forall_mem_cons.mp hnames
    rw [(setupWatermarks_cons hw).2, List.forall_mem_cons]
    refine ⟨⟨he, hmeasures _ List.mem_cons_self⟩, fun info hinfo => ?_⟩
    obtain ⟨e', he', hinfo⟩ := List.mem_flatMap.mp hinfo
    obtain ⟨measure, hm, rfl⟩ := List.mem_map.mp hinfo
    exact ⟨hes e' he', hmeasures _ (List.mem_cons_of_mem _ hm)⟩

theorem plain_metrics {realText : ℚ → Text} (hreal : ∀ q, Plain (realText q)) {m : ContextMetrics}
    (hm : PlainStrings m) {v : MetricVal} (hv : v ∈ m) : Plain (metricText realText v) := by
  obtain ⟨k, hk, rfl⟩ := List.mem_iff_getElem.mp hv
  have hstr : Plain (m[k]).str := by simpa [slots, hk] using hm k
  rw [metricText]
  split_ifs
  · exact plain_intText _
  · exact hstr
  · exact hreal _

end Runs

theorem exists_prints (texts : List Text) (h : ∀ text ∈ texts, (encodeText text).length < 2 ^ 31) :
    ∃ calls, Prints calls texts := by
  induction texts with
  | nil => exact ⟨[], .nil⟩
  | cons text texts ih =>
    obtain ⟨htext, hrest⟩ := List.forall_mem_cons.mp h
    obtain ⟨calls, hcalls⟩ := ih hrest
    exact ⟨.writef ⟨encodeText text, htext⟩ :: calls, .cons ⟨_, rfl, rfl⟩ hcalls⟩

def leafElems : List XmlObj :=
  let t := tracedLeaf.contextTree
  (t.dump (List.range t.idCounter)).map
    (contextObj natText tracedConfig.watermark.metricInfoList t)

end Trace4J.Profiler
