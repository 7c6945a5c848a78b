import Trace4J.Offline.Xml

/-!
# The segments of a text

How the parser cuts a text into segments, which nodes the segments open, and what
the strip of the header takes away.
-/

namespace Trace4J.Offline

/-! ## Cutting -/

/-- No `>` in the body of a segment ends it: an odd number of quotes follows. -/
def Tight (body : Text) : Prop := ∀ x y, body = x ++ '>' :: y → y.count '"' % 2 = 1

def IsSegment (s : Text) : Prop := ∃ body, s = '<' :: (body ++ ['>']) ∧ Tight body

def segType (s : Text) : SegType := if s[1]? = some '/' then .closing else .opening

inductive Spaced : List Text → Text → Prop
  | nil {ws : Text} : (∀ c ∈ ws, isSpace c = true) → Spaced [] ws
  | cons {ws s rest : Text} {ss : List Text} : (∀ c ∈ ws, isSpace c = true) → IsSegment s →
      rest.count '"' % 2 = 0 → Spaced ss rest → Spaced (s :: ss) (ws ++ (s ++ rest))

variable {s t text rest : Text} {ss : List Text}

theorem Tight.of_cons {c : Char} {body : Text} (h : Tight (c :: body)) : Tight body :=
  fun x y hxy => h (c :: x) y (by rw [hxy, List.cons_append])

theorem splitTagEnd_append {body : Text} (h : Tight body) (hrest : rest.count '"' % 2 = 0) :
    splitTagEnd (body ++ '>' :: rest) = some (body ++ ['>'], rest) := by
  induction body with
  | nil => simp [splitTagEnd, hrest]
  | cons c body ih =>
    have hskip : ¬(c = '>' ∧ (body ++ '>' :: rest).count '"' % 2 = 0) := by
      rintro ⟨rfl, heven⟩
      have hodd := h [] body rfl
      rw [List.count_append, List.count_cons_of_ne (by decide)] at heven
      omega
    rw [List.cons_append, splitTagEnd, if_neg hskip, ih h.of_cons]
    rfl

theorem Spaced.spaces {ws : Text} (h : Spaced ss text) (hws : ∀ c ∈ ws, isSpace c = true) :
    Spaced ss (ws ++ text) := by
  have happend : ∀ {ws' : Text}, (∀ c ∈ ws', isSpace c = true) →
      ∀ c ∈ ws ++ ws', isSpace c = true := by
    intro ws' hws' c hc
    rcases List.mem_append.mp hc with hc | hc
    · exact hws c hc
    · exact hws' c hc
  cases h with
  | nil hws' => exact .nil (happend hws')
  | cons hws' hs heven hrest =>
    rw [← List.append_assoc]
    exact .cons (happend hws') hs heven hrest

theorem count_rdropWhile : (text.rdropWhile isSpace).count '"' = text.count '"' := by
  induction text using List.reverseRecOn with
  | nil => rfl
  | append_singleton text c ih =>
    by_cases hc : isSpace c = true
    · have hne : c ≠ '"' := by
        rintro rfl
        exact absurd hc (by decide)
      rw [List.rdropWhile_concat_pos _ _ _ hc, ih, List.count_append,
        List.count_singleton, if_neg (by simpa using hne), Nat.add_zero]
    · rw [List.rdropWhile_concat_neg _ _ _ hc]

theorem IsSegment.rdropWhile {ws : Text} (hs : IsSegment s) :
    (ws ++ (s ++ rest)).rdropWhile isSpace = ws ++ (s ++ rest.rdropWhile isSpace) := by
  obtain ⟨body, rfl, -⟩ := hs
  have h : (ws ++ '<' :: body ++ ['>'] ++ rest).rdropWhile isSpace =
      ws ++ '<' :: body ++ ['>'] ++ rest.rdropWhile isSpace := rdropWhile_append_of_last rfl
  simpa using h

theorem Spaced.rdropWhile (h : Spaced ss text) : Spaced ss (text.rdropWhile isSpace) := by
  induction h with
  | nil hws =>
    rw [rdropWhile_spaces hws]
    exact .nil (by simp)
  | cons hws hs heven hrest ih =>
    rw [hs.rdropWhile]
    exact .cons hws hs (by rwa [count_rdropWhile]) ih

theorem getNextSegment_cons {ws : Text} (hws : ∀ c ∈ ws, isSpace c = true) (hs : IsSegment s)
    (heven : rest.count '"' % 2 = 0) :
    getNextSegment (ws ++ (s ++ rest)) =
      some (some (segType s, s, rest.rdropWhile isSpace)) := by
  have hstrip : strip (ws ++ (s ++ rest)) = s ++ rest.rdropWhile isSpace := by
    have hdrop : (ws ++ (s ++ rest)).dropWhile isSpace = s ++ rest := by
      obtain ⟨body, rfl, -⟩ := hs
      rw [List.dropWhile_append_of_pos hws]
      rfl
    have hr : ([] ++ (s ++ rest)).rdropWhile isSpace = [] ++ (s ++ rest.rdropWhile isSpace) :=
      hs.rdropWhile
    rw [strip, hdrop]
    simpa using hr
  rw [← count_rdropWhile] at heven
  obtain ⟨body, rfl, hbody⟩ := hs
  have hopen : Tight ('<' :: body) := by
    intro x y hxy
    cases x with
    | nil => simp at hxy
    | cons c x => exact hbody x y (List.cons.inj hxy).2
  have hcut := splitTagEnd_append hopen heven
  rw [getNextSegment, hstrip]
  cases body with
  | nil => simpa [segType] using hcut
  | cons c body => simpa [segType] using hcut

theorem append_eq_append_cons {c : Char} {x y : Text} (h : s ++ t = x ++ c :: y) :
    (∃ z, s = x ++ c :: z ∧ y = z ++ t) ∨ ∃ z, x = s ++ z ∧ t = z ++ c :: y := by
  rcases List.append_eq_append_iff.mp h with ⟨z, rfl, rfl⟩ | ⟨z, rfl, hz⟩
  · exact .inr ⟨z, rfl, rfl⟩
  · cases z with
    | nil => exact .inr ⟨[], by simp, hz.symm⟩
    | cons d z =>
      obtain ⟨rfl, rfl⟩ := List.cons.inj hz
      exact .inl ⟨z, rfl, rfl⟩

theorem Spaced.split (h : Spaced ss text) {x content : Text} (heq : text = x ++ '>' :: content) :
    ∃ before s after a b rest, ss = before ++ s :: after ∧ s = a ++ '>' :: b ∧
      content = b ++ rest ∧ Spaced after rest ∧ rest.count '"' % 2 = 0 := by
  induction h generalizing x with
  | nil hws =>
    have hgt := hws '>' (by simp [heq])
    exact absurd hgt (by decide)
  | @cons ws s rest ss hws hs heven hrest ih =>
    rcases append_eq_append_cons heq with ⟨z, rfl, -⟩ | ⟨z, -, hz⟩
    · have hgt := hws '>' (by simp)
      exact absurd hgt (by decide)
    · rcases append_eq_append_cons hz with ⟨b, rfl, hb⟩ | ⟨u, -, hu⟩
      · exact ⟨[], _, ss, z, b, rest, rfl, rfl, hb, hrest, heven⟩
      · obtain ⟨before, s', after, a, b, rest', rfl, hcut⟩ := ih hu
        exact ⟨s :: before, s', after, a, b, rest', rfl, hcut⟩

/-! ## Opened nodes -/

def handleText (stack : NodeStack) (s : Text) : Option NodeStack :=
  handleSegment (segType s, s) stack

def parseSegs (ss : List Text) (stack : NodeStack) : Option NodeStack := ss.foldlM handleText stack

theorem parseLoop_spaced (h : Spaced ss text) {fuel : ℕ} (hfuel : ss.length < fuel)
    (stack : NodeStack) : parseLoop fuel text stack = parseSegs ss stack := by
  obtain ⟨fuel, rfl⟩ : ∃ k, fuel = k + 1 := ⟨fuel - 1, by omega⟩
  induction ss generalizing text fuel stack with
  | nil =>
    obtain ⟨hws⟩ := h
    have hseg : getNextSegment text = some none := by
      rw [getNextSegment, strip, List.dropWhile_eq_nil_iff.mpr hws]
      rfl
    simp [parseLoop, hseg, parseSegs]
  | cons s ss ih =>
    obtain _ | ⟨hws, hs, heven, hrest⟩ := h
    rw [List.length_cons] at hfuel
    obtain ⟨fuel, rfl⟩ : ∃ k, fuel = k + 1 := ⟨fuel - 1, by omega⟩
    rw [parseLoop, getNextSegment_cons hws hs heven, parseSegs, List.foldlM_cons]
    simp only [Option.bind_eq_bind, Option.bind_some]
    refine Option.bind_congr fun stack' _ => ?_
    exact ih hrest.rdropWhile stack' fuel (by omega)

theorem IsSegment.length_pos (h : IsSegment s) : 0 < s.length := by
  obtain ⟨body, rfl, -⟩ := h
  simp

theorem Spaced.length_le (h : Spaced ss text) : ss.length ≤ text.length := by
  induction h with
  | nil => simp
  | cons hws hs heven hrest ih =>
    have := hs.length_pos
    simp only [List.length_cons, List.length_append]
    omega

theorem parseXml_spaced (h : Spaced ss (stripHeader text)) :
    parseXml text = (parseSegs ss (.nodes virtualRoot [])).map NodeStack.root := by
  have := h.length_le
  rw [parseXml, parseLoop_spaced h (by omega)]

theorem parseXml_eq_none {c : Char} (hc : c ≠ '<')
    (h : (stripHeader text).dropWhile isSpace = c :: rest) : parseXml text = none := by
  have hspace : isSpace c = false := by
    have hne : (stripHeader text).dropWhile isSpace ≠ [] := by simp [h]
    simpa [h] using List.head_dropWhile_not isSpace hne
  have hstrip : strip (stripHeader text) = c :: rest.rdropWhile isSpace := by
    have hr : ([] ++ [c] ++ rest).rdropWhile isSpace = [] ++ [c] ++ rest.rdropWhile isSpace :=
      rdropWhile_append_of_last hspace
    rw [strip, h]
    simpa using hr
  have hseg : getNextSegment (stripHeader text) = none := by
    rw [getNextSegment, hstrip]
    split
    · simp_all
    · simp_all
    · rfl
  simp [parseXml, parseLoop, hseg]

mutual
def XmlNode.preorder : XmlNode → List (Text × AttrDict)
  | ⟨name, attr, children⟩ => (name, attr) :: preorders children

def preorders : List XmlNode → List (Text × AttrDict)
  | [] => []
  | c :: children => c.preorder ++ preorders children
end

theorem preorders_append (cs ds : List XmlNode) :
    preorders (cs ++ ds) = preorders cs ++ preorders ds := by
  induction cs with
  | nil => rfl
  | cons c cs ih => rw [List.cons_append, preorders, preorders, ih, List.append_assoc]

theorem preorder_addChild (obj c : XmlNode) :
    (obj.addChild c).preorder = obj.preorder ++ c.preorder := by
  obtain ⟨name, attr, children⟩ := obj
  simp [XmlNode.addChild, XmlNode.name, XmlNode.attr, XmlNode.children, XmlNode.preorder,
    preorders_append, preorders]

theorem preorder_foldNodes (top : XmlNode) (below : List XmlNode) :
    (foldNodes top below).preorder =
      (below.reverse.flatMap XmlNode.preorder) ++ top.preorder := by
  induction below generalizing top with
  | nil => simp [foldNodes]
  | cons parent below ih => simp [foldNodes, ih, preorder_addChild]

theorem closeNode_root (top : XmlNode) (below : List XmlNode) :
    (closeNode top below).root = foldNodes top below := by
  cases below <;> rfl

theorem handleText_preorder {stack stack' : NodeStack} (h : handleText stack s = some stack') :
    ∃ opened, ([s].filter (segType · = .opening)).mapM parseOpenTag = some opened ∧
      stack'.root.preorder = stack.root.preorder ++ opened := by
  cases stack with
  | empty root => cases h
  | nodes top below =>
    cases htype : segType s with
    | opening =>
      simp only [handleText, handleSegment, htype, Option.map_eq_some_iff] at h
      obtain ⟨tag, htag, rfl⟩ := h
      refine ⟨[tag], by simp [htype, htag], ?_⟩
      simp [NodeStack.root, preorder_foldNodes, XmlNode.preorder, preorders]
    | closing =>
      simp only [handleText, handleSegment, htype] at h
      split_ifs at h with hname
      obtain rfl := Option.some.inj h
      refine ⟨[], by simp [htype], ?_⟩
      rw [closeNode_root, List.append_nil]
      rfl

/-- The nodes of the result, in document order, are those the segments open. -/
theorem parseSegs_preorder {stack stack' : NodeStack} (h : parseSegs ss stack = some stack') :
    ∃ opened, (ss.filter (segType · = .opening)).mapM parseOpenTag = some opened ∧
      stack'.root.preorder = stack.root.preorder ++ opened := by
  induction ss generalizing stack with
  | nil =>
    obtain rfl := Option.some.inj h
    exact ⟨[], rfl, (List.append_nil _).symm⟩
  | cons s ss ih =>
    rw [parseSegs, List.foldlM_cons, Option.bind_eq_bind, Option.bind_eq_some_iff] at h
    obtain ⟨mid, hs, hss⟩ := h
    obtain ⟨first, hfirst, hmid⟩ := handleText_preorder hs
    obtain ⟨more, hmore, hroot⟩ := ih hss
    refine ⟨first ++ more, ?_, by rw [hroot, hmid, List.append_assoc]⟩
    rw [← List.singleton_append, List.filter_append, List.mapM_append, hfirst, hmore]
    rfl

/-! ## The header -/

def Headed (s : Text) : Prop := ∃ x y, s = x ++ '<' :: '?' :: y ∧ ['?', '>'] <:+: '?' :: y

theorem findText_le {p : Text} {k : ℕ} (h : p <+: s.drop k) :
    0 ≤ findText p s ∧ findText p s ≤ k := by
  induction s generalizing k with
  | nil =>
    obtain rfl : p = [] := by simpa using h
    simp [findText]
  | cons c s ih =>
    rw [findText]
    split_ifs with hp hneg
    · omega
    · cases k with
      | zero => exact absurd h hp
      | succ k =>
        have := ih h
        omega
    · cases k with
      | zero => exact absurd h hp
      | succ k =>
        have := ih h
        omega

theorem findText_nonneg {p : Text} (h : p <:+: s) : 0 ≤ findText p s := by
  obtain ⟨x, y, rfl⟩ := h
  refine (findText_le (k := x.length) ?_).1
  rw [List.append_assoc, List.drop_left]
  exact List.prefix_append p y

theorem drop_suffix_drop {i j : ℕ} (h : i ≤ j) : s.drop j <:+ s.drop i := by
  obtain ⟨d, rfl⟩ := Nat.exists_eq_add_of_le h
  rw [← List.drop_drop]
  exact List.drop_suffix d _

theorem Headed.first (h : Headed s) :
    ∃ x y, s = x ++ '<' :: '?' :: y ∧ findText ['<', '?'] s = x.length ∧
      ['?', '>'] <:+: '?' :: y := by
  obtain ⟨x, y, rfl, hy⟩ := h
  have hfind : ['<', '?'] <+: (x ++ '<' :: '?' :: y).drop x.length := by
    rw [List.drop_left]
    exact ⟨y, rfl⟩
  obtain ⟨hnonneg, hle⟩ := findText_le hfind
  obtain ⟨x', y', heq, hlen⟩ := findText_split hnonneg
  refine ⟨x', y', heq, hlen, hy.trans (List.IsSuffix.isInfix ?_)⟩
  have hx : '?' :: y = (x ++ '<' :: '?' :: y).drop (x.length + 1) := by simp [List.drop_append]
  have hx' : '?' :: y' = (x ++ '<' :: '?' :: y).drop (x'.length + 1) := by
    simp [heq, List.drop_append]
  rw [hx, hx']
  exact drop_suffix_drop (by omega)

theorem stripHeader_of_headed (h : Headed s) : ∃ x, s = x ++ '>' :: stripHeader s := by
  obtain ⟨x, y, hs, hi, hy⟩ := h.first
  obtain ⟨u, v, huv, hj⟩ := findText_split (findText_nonneg hy)
  have hdrop : s.drop (x.length + 1) = '?' :: y := by simp [hs, List.drop_append]
  have hlen : x.length + 1 < s.length := by simp [hs]
  have hi2 : findTextFrom ['?', '>'] s (x.length + 1) = (u.length + (x.length + 1) : ℕ) := by
    rw [findTextFrom, if_neg (by omega), hdrop, hj, if_neg (by omega)]
    rfl
  have hstrip : stripHeader s = v := by
    have htail : s.drop (u.length + (x.length + 1) + 2) = v := by
      rw [show u.length + (x.length + 1) + 2 = x.length + 1 + (u.length + 2) by omega,
        ← List.drop_drop, hdrop, huv]
      simp [List.drop_append]
    have hcast : ((x.length : ℤ) + 1).toNat = x.length + 1 := by omega
    rw [stripHeader, hi]
    simp only [hcast, hi2]
    rw [if_pos (by omega), ← htail]
    exact pySlice_drop _
  refine ⟨x ++ '<' :: (u ++ ['?']), ?_⟩
  rw [hstrip, hs, huv]
  simp

theorem stripHeader_of_not_headed (h : ¬Headed s) : stripHeader s = s := by
  rw [stripHeader]
  refine if_neg fun ⟨hi, hlt⟩ => h ?_
  obtain ⟨x, y, hs, hx⟩ := findText_split hi
  refine ⟨x, y, hs, ?_⟩
  have hdrop : s.drop (x.length + 1) = '?' :: y := by simp [hs, List.drop_append]
  have hcast : ((x.length : ℤ) + 1).toNat = x.length + 1 := by omega
  rw [hx, hcast, findTextFrom, hdrop] at hlt
  have hfound : 0 ≤ findText ['?', '>'] ('?' :: y) := by
    simp only at hlt
    split_ifs at hlt <;> omega
  obtain ⟨u, v, huv, -⟩ := findText_split hfound
  exact ⟨u, v, by rw [huv, List.append_assoc]⟩

/-! ### Headers in a text of parts -/

theorem pair_infix_append {a b : Char} : [a, b] <:+: s ++ t ↔
    [a, b] <:+: s ∨ [a, b] <:+: t ∨ s.getLast? = some a ∧ t.head? = some b := by
  rw [List.infix_append_iff_ne_nil]
  refine or_congr_right (or_congr_right ⟨?_, ?_⟩)
  · rintro ⟨l, r, hl, hr, heq, ⟨x, rfl⟩, ⟨y, rfl⟩⟩
    match l, r, hl, hr with
    | [a'], b' :: r, _, _ =>
      obtain ⟨rfl, rfl, -⟩ : a = a' ∧ b = b' ∧ [] = r := by simpa using heq
      simp
    | _ :: _ :: _, _ :: _, _, _ => simp at heq
  · rintro ⟨hs, ht⟩
    refine ⟨[a], [b], by simp, by simp, rfl, ?_, ?_⟩
    · obtain ⟨x, rfl⟩ := List.getLast?_eq_some_iff.mp hs
      exact List.suffix_append x [a]
    · obtain ⟨y, rfl⟩ := List.head?_eq_some_iff.mp ht
      exact ⟨y, rfl⟩

theorem headed_append (hlt : s.getLast? ≠ some '<')
    (hgt : ¬(s.getLast? = some '?' ∧ t.head? = some '>')) :
    Headed (s ++ t) ↔ Headed s ∨ ['<', '?'] <:+: s ∧ ['?', '>'] <:+: t ∨ Headed t := by
  constructor
  · rintro ⟨x, y, heq, hy⟩
    rcases List.append_eq_append_iff.mp heq with ⟨a, rfl, rfl⟩ | ⟨a, rfl, ha⟩
    · exact .inr (.inr ⟨a, y, rfl, hy⟩)
    · match a, ha with
      | [], ha => exact .inr (.inr ⟨[], y, ha.symm, hy⟩)
      | [c], ha =>
        obtain rfl : '<' = c := by simpa using (List.cons.inj ha).1
        simp at hlt
      | c :: d :: a, ha =>
        obtain ⟨rfl, rfl, rfl⟩ : '<' = c ∧ '?' = d ∧ y = a ++ t := by simpa using ha
        rw [← List.cons_append, pair_infix_append] at hy
        rcases hy with hy | hy | ⟨hlast, hhead⟩
        · exact .inl ⟨x, a, rfl, hy⟩
        · exact .inr (.inl ⟨⟨x, a, by simp⟩, hy⟩)
        · refine absurd ⟨?_, hhead⟩ hgt
          rw [List.getLast?_append_of_ne_nil _ (by simp), List.getLast?_cons_cons, hlast]
  · rintro (⟨x, y, rfl, hy⟩ | ⟨⟨x, y, rfl⟩, ht⟩ | ⟨x, y, rfl, hy⟩)
    · refine ⟨x, y ++ t, by simp, ?_⟩
      exact hy.trans (List.prefix_append ('?' :: y) t).isInfix
    · refine ⟨x, y ++ t, by simp, ?_⟩
      exact ht.trans (List.suffix_append ('?' :: y) t).isInfix
    · exact ⟨s ++ x, y, by simp, hy⟩

def HeaderIn : List Text → Prop
  | [] => False
  | w :: parts => Headed w ∨ ['<', '?'] <:+: w ∧ (∃ w' ∈ parts, ['?', '>'] <:+: w') ∨ HeaderIn parts

theorem HeaderIn.exists_mem {parts : List Text} (h : HeaderIn parts) :
    ∃ w ∈ parts, ['<', '?'] <:+: w := by
  induction parts with
  | nil => exact h.elim
  | cons w parts ih =>
    rcases h with ⟨x, y, rfl, -⟩ | ⟨hw, -⟩ | h
    · exact ⟨_, List.mem_cons_self, x, y, by simp⟩
    · exact ⟨w, List.mem_cons_self, hw⟩
    · obtain ⟨w', hw', hin⟩ := ih h
      exact ⟨w', List.mem_cons_of_mem w hw', hin⟩

def Filler (sep : Text) : Prop := '<' ∉ sep ∧ ¬['?', '>'] <:+: sep

/-- The text is made of the given parts with fillers around them, and no `<?` or `?>`
stands across the border of a part. -/
inductive Glued : List Text → Text → Prop
  | nil {sep : Text} : Filler sep → Glued [] sep
  | cons {sep w rest : Text} {parts : List Text} : Filler sep →
      (w.head? = some '<' ∨ w.head? = some '"') → w.getLast? ≠ some '<' →
      ¬(w.getLast? = some '?' ∧ rest.head? = some '>') → Glued parts rest →
      Glued (w :: parts) (sep ++ (w ++ rest))

theorem Glued.filler {sep : Text} {parts : List Text} (hsep : Filler sep)
    (hlast : sep.getLast? ≠ some '?') (h : Glued parts text) : Glued parts (sep ++ text) := by
  have happend : ∀ {sep' : Text}, Filler sep' → Filler (sep ++ sep') := by
    intro sep' hsep'
    refine ⟨by simp [hsep.1, hsep'.1], ?_⟩
    simp [pair_infix_append, hsep.2, hsep'.2, hlast]
  cases h with
  | nil hsep' => exact .nil (happend hsep')
  | cons hsep' hhead hlt hgt hrest =>
    rw [← List.append_assoc]
    exact .cons (happend hsep') hhead hlt hgt hrest

theorem Filler.last_ne {sep : Text} (h : Filler sep) : sep.getLast? ≠ some '<' := by
  intro hlast
  exact h.1 (List.mem_of_getLast? hlast)

theorem Filler.not_infix {sep : Text} (h : Filler sep) : ¬['<', '?'] <:+: sep := by
  intro hin
  exact h.1 (hin.subset (by simp))

theorem Filler.not_headed {sep : Text} (h : Filler sep) : ¬Headed sep := by
  rintro ⟨x, y, rfl, -⟩
  exact h.1 (by simp)

variable {parts : List Text}

theorem head_ne_of_glued {w : Text} (rest : Text) (h : w.head? = some '<' ∨ w.head? = some '"') :
    (w ++ rest).head? ≠ some '>' := by
  cases w with
  | nil => simp at h
  | cons c w =>
    rintro hc
    simp_all

theorem Glued.infix_iff (h : Glued parts text) :
    ['?', '>'] <:+: text ↔ ∃ w ∈ parts, ['?', '>'] <:+: w := by
  induction h with
  | nil hsep => simpa using hsep.2
  | @cons sep w rest parts hsep hhead hlt hgt _ ih =>
    have hne := head_ne_of_glued rest hhead
    rw [pair_infix_append, pair_infix_append, ih, List.exists_mem_cons_iff]
    simp only [hsep.2, hne, hgt, and_false, or_false, false_or]

theorem Glued.headed_iff (h : Glued parts text) : Headed text ↔ HeaderIn parts := by
  induction h with
  | nil hsep => simpa [HeaderIn] using hsep.not_headed
  | @cons sep w rest parts hsep hhead hlt hgt hrest ih =>
    have hne := head_ne_of_glued rest hhead
    rw [headed_append hsep.last_ne (fun h => hne h.2), headed_append hlt hgt, ih,
      hrest.infix_iff, HeaderIn]
    simp [hsep.not_headed, hsep.not_infix]

end Trace4J.Offline
