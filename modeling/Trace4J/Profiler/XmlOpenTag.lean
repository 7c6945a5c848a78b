import Trace4J.Offline.XmlSegments
import Trace4J.Profiler.Xml

/-!
# Open tags, written and read

The tokens the parser finds in an open tag of the writer, and in what is left of one
when the header strip cuts it inside a value.
-/

namespace Trace4J.Profiler
open Offline (scanAttr keepToken splitAttr pySlice pyIndex strip parseAttr parseAttrs parseOpenTag
  AttrDict Tight rdropWhile_append_of_last append_eq_append_cons)

def Word (w : Text) : Prop := w ≠ [] ∧ ∀ c ∈ w, c ∉ [' ', '"', '\'', '=', '<', '>']

abbrev Entry := Sigma fun _ : Text => Text

/-- An entry of the attribute map as `addAttr` leaves it. -/
def GoodEntry (e : Entry) : Prop := Word e.1 ∧ ∃ v, e.2 = quoted v ∧ '"' ∉ v

def token (e : Entry) : Text := e.1 ++ '=' :: e.2

variable {w name v : Text} {e : Entry} {es : List Entry}

theorem Word.ne (h : Word w) {c : Char} (hc : c ∈ [' ', '"', '\'', '=', '<', '>']) : c ∉ w :=
  fun hmem => h.2 c hmem hc

/-! ## Tokens -/

theorem scanAttr_plain {s : Text} (h : ∀ c ∈ w, c ≠ ' ' ∧ c ≠ '"' ∧ c ≠ '\'') :
    scanAttr none (w ++ s) = (w ++ (scanAttr none s).1, (scanAttr none s).2) := by
  induction w with
  | nil => rfl
  | cons c w ih =>
    obtain ⟨⟨hb, hd, hs⟩, hw⟩ := List.forall_mem_cons.mp h
    simp [scanAttr, hb, hd, hs, ih hw]

theorem scanAttr_open {s : Text} (h : '"' ∉ v) :
    scanAttr (some '"') (v ++ '"' :: s) =
      (v ++ '"' :: (scanAttr none s).1, (scanAttr none s).2) := by
  induction v with
  | nil => simp [scanAttr]
  | cons c v ih =>
    have hc : c ≠ '"' := fun hc => h (by simp [hc])
    simp [scanAttr, hc, ih fun hv => h (List.mem_cons_of_mem c hv)]

theorem scanAttr_quoted {s : Text} (h : '"' ∉ v) :
    scanAttr none (quoted v ++ s) = (quoted v ++ (scanAttr none s).1, (scanAttr none s).2) := by
  have hopen := scanAttr_open (s := s) h
  simp [quoted, scanAttr, hopen]

theorem token_ne_nil : token e ≠ [] := by simp [token]

theorem scanAttr_token {s : Text} (h : GoodEntry e) :
    scanAttr none (token e ++ s) = (token e ++ (scanAttr none s).1, (scanAttr none s).2) := by
  obtain ⟨hkey, v, hv, hq⟩ := h
  have hplain : ∀ c ∈ e.1 ++ ['='], c ≠ ' ' ∧ c ≠ '"' ∧ c ≠ '\'' := by
    intro c hc
    rcases List.mem_append.mp hc with hc | hc
    · have := hkey.2 c hc
      simp_all
    · simp_all
  have hscan := scanAttr_plain (s := quoted v ++ s) hplain
  rw [scanAttr_quoted hq] at hscan
  simpa [token, hv] using hscan

theorem scanAttr_attrs (h : ∀ e ∈ es, GoodEntry e) :
    scanAttr none (es.flatMap attrStr) = ([], es.map token) := by
  induction es with
  | nil => rfl
  | cons e es ih =>
    obtain ⟨he, hes⟩ := List.forall_mem_cons.mp h
    have htoken := scanAttr_token (s := es.flatMap attrStr) he
    have hattr : (e :: es).flatMap attrStr = ' ' :: (token e ++ es.flatMap attrStr) := by
      simp [attrStr, token]
    rw [ih hes, List.append_nil] at htoken
    simp [hattr, scanAttr, htoken, keepToken, token_ne_nil]

theorem splitAttr_tag (hname : Word name) (h : ∀ e ∈ es, GoodEntry e) :
    splitAttr (name ++ es.flatMap attrStr) = name :: es.map token := by
  have hplain : ∀ c ∈ name, c ≠ ' ' ∧ c ≠ '"' ∧ c ≠ '\'' := by
    intro c hc
    have := hname.2 c hc
    simp_all
  simp [splitAttr, scanAttr_plain hplain, scanAttr_attrs h, keepToken, hname.1]

/-! ## Segments -/

theorem tight_append {p t : Text} (hp : '>' ∉ p) (ht : Tight t) : Tight (p ++ t) := by
  intro x y hxy
  rcases append_eq_append_cons hxy with ⟨z, rfl, -⟩ | ⟨z, -, hz⟩
  · simp at hp
  · exact ht z y hz

theorem tight_value {t : Text} (hv : '"' ∉ v) (ht : Tight t) (heven : t.count '"' % 2 = 0) :
    Tight (v ++ '"' :: t) := by
  intro x y hxy
  rcases append_eq_append_cons hxy with ⟨z, rfl, rfl⟩ | ⟨z, -, hz⟩
  · have hz : z.count '"' = 0 := List.count_eq_zero.mpr fun hz => hv (by simp [hz])
    rw [List.count_append, List.count_cons_self, hz]
    omega
  · cases z with
    | nil => simp at hz
    | cons c z => exact ht z y (List.cons.inj hz).2

theorem count_attrs (h : ∀ e ∈ es, GoodEntry e) : (es.flatMap attrStr).count '"' % 2 = 0 := by
  induction es with
  | nil => rfl
  | cons e es ih =>
    obtain ⟨⟨hkey, v, hv, hq⟩, hes⟩ := List.forall_mem_cons.mp h
    have hkey0 : e.1.count '"' = 0 := List.count_eq_zero.mpr (hkey.ne (by simp))
    have hv0 : v.count '"' = 0 := List.count_eq_zero.mpr hq
    have hes0 := ih hes
    simp only [List.flatMap_cons, attrStr, hv, quoted, List.cons_append, List.count_append,
      List.count_cons, hkey0, hv0]
    simpa using hes0

theorem tight_attrs (h : ∀ e ∈ es, GoodEntry e) : Tight (es.flatMap attrStr) := by
  induction es with
  | nil => exact fun x y hxy => by simp at hxy
  | cons e es ih =>
    obtain ⟨⟨hkey, v, hv, hq⟩, hes⟩ := List.forall_mem_cons.mp h
    have hsplit : (e :: es).flatMap attrStr =
        (' ' :: (e.1 ++ ['=', '"'])) ++ (v ++ '"' :: es.flatMap attrStr) := by
      simp [attrStr, hv, quoted]
    rw [hsplit]
    exact tight_append (by simp [hkey.ne]) (tight_value hq (ih hes) (count_attrs hes))

/-! ## Values -/

theorem pySlice_ends {a b : Char} {s : Text} : pySlice (a :: (s ++ [b])) 1 (-1) = s := by
  have hlo : pyIndex (s.length + 2) 1 = 1 := by simp [pyIndex]
  have hhi : pyIndex (s.length + 2) (-1) = s.length + 1 := by
    rw [pyIndex, if_pos (by decide)]
    omega
  have hlen : (a :: (s ++ [b])).length = s.length + 2 := by simp
  rw [pySlice, hlen, hlo, hhi]
  simp

theorem strip_quoted : strip (quoted v) = quoted v := by
  have h : ('"' :: v ++ ['"'] ++ []).rdropWhile Offline.isSpace =
      '"' :: v ++ ['"'] ++ [].rdropWhile Offline.isSpace := rdropWhile_append_of_last rfl
  have hdrop : (quoted v).dropWhile Offline.isSpace = quoted v := rfl
  rw [strip, hdrop]
  simpa [quoted] using h

theorem parseAttr_cons {key val : Text} (hkey : '=' ∉ key) :
    parseAttr (key ++ '=' :: val) =
      if '=' ∈ val then none else some (key, pySlice (strip val) 1 (-1)) := by
  rw [parseAttr, List.splitOn_append_cons_self_of_not_mem hkey]
  split_ifs with hval
  · obtain ⟨x, y, rfl, hx⟩ := List.eq_append_cons_of_mem hval
    rw [List.splitOn_append_cons_self_of_not_mem hx]
    obtain ⟨z, zs, hz⟩ := List.exists_cons_of_ne_nil (List.splitOn_ne_nil '=' y)
    rw [hz]
  · rw [List.splitOn_eq_singleton hval]

theorem parseAttr_some {t key val : Text} (h : parseAttr t = some (key, val)) :
    ∃ raw, t = key ++ '=' :: raw ∧ '=' ∉ key ∧ '=' ∉ raw ∧ val = pySlice (strip raw) 1 (-1) := by
  by_cases hmem : '=' ∈ t
  · obtain ⟨x, y, rfl, hx⟩ := List.eq_append_cons_of_mem hmem
    rw [parseAttr_cons hx] at h
    split_ifs at h with hy
    obtain ⟨rfl, rfl⟩ : x = key ∧ _ = val := by simpa using h
    exact ⟨y, rfl, hx, hy, rfl⟩
  · rw [parseAttr, List.splitOn_eq_singleton hmem] at h
    cases h

theorem parseAttr_token {key : Text} (hkey : Word key) :
    parseAttr (token ⟨key, quoted v⟩) = if '=' ∈ v then none else some (key, v) := by
  have hslice : pySlice (quoted v) 1 (-1) = v := pySlice_ends
  rw [token, parseAttr_cons (hkey.ne (by simp)), strip_quoted, hslice]
  have hmem : '=' ∈ quoted v ↔ '=' ∈ v := by simp [quoted]
  simp only [hmem]

/-! ## The dictionary -/

def insertAll (pairs : List (Text × Text)) (d : AttrDict) : AttrDict :=
  pairs.foldl (fun d e => d.insert e.1 e.2) d

variable {pairs : List (Text × Text)} {d : AttrDict} {key : Text}

theorem lookup_insertAll (h : (insertAll pairs d).lookup key = some v) :
    (key, v) ∈ pairs ∨ d.lookup key = some v := by
  induction pairs generalizing d with
  | nil => exact .inr h
  | cons e pairs ih =>
    rcases ih h with hmem | hlook
    · exact .inl (List.mem_cons_of_mem e hmem)
    · by_cases hkey : key = e.1
      · subst hkey
        rw [AList.lookup_insert] at hlook
        obtain rfl := Option.some.inj hlook
        exact .inl List.mem_cons_self
      · exact .inr (by rwa [AList.lookup_insert_ne hkey] at hlook)

theorem mem_insertAll (h : key ∈ pairs.map Prod.fst ∨ key ∈ d) : key ∈ insertAll pairs d := by
  induction pairs generalizing d with
  | nil => exact h.resolve_left (by simp)
  | cons e pairs ih =>
    apply ih
    simp only [List.map_cons, List.mem_cons, AList.mem_insert] at h ⊢
    tauto

theorem exists_lookup (h : (key, v) ∈ pairs) : ∃ v', (insertAll pairs ∅).lookup key = some v' := by
  have hmem : key ∈ insertAll pairs ∅ := mem_insertAll (.inl (List.mem_map.mpr ⟨_, h, rfl⟩))
  exact Option.isSome_iff_exists.mp (AList.lookup_isSome.mpr hmem)

theorem lookup_insertAll_iff (h : (pairs.map Prod.fst).Nodup) :
    (insertAll pairs ∅).lookup key = some v ↔ (key, v) ∈ pairs := by
  constructor
  · intro hlook
    rcases lookup_insertAll hlook with hmem | hmem
    · exact hmem
    · simp at hmem
  · intro hmem
    obtain ⟨v', hv'⟩ := exists_lookup hmem
    rcases lookup_insertAll hv' with hmem' | hmem'
    · have heq : (key, v') = (key, v) := List.inj_on_of_nodup_map h hmem' hmem rfl
      rw [hv', (Prod.mk.inj heq).2]
    · simp at hmem'

theorem mapM_eq_some {α β : Type} {f : α → Option β} {xs : List α} {ys : List β} :
    xs.mapM f = some ys ↔ List.Forall₂ (fun x y => f x = some y) xs ys := by
  induction xs generalizing ys with
  | nil => simp [eq_comm]
  | cons x xs ih =>
    simp only [List.mapM_cons, Option.bind_eq_bind, Option.pure_def, Option.bind_eq_some_iff, ih]
    constructor
    · rintro ⟨y, hy, ys', hys, heq⟩
      obtain rfl := Option.some.inj heq
      exact .cons hy hys
    · rintro (_ | ⟨hy, hys⟩)
      exact ⟨_, hy, _, hys, rfl⟩

theorem exists_of_forall₂ {α β : Type} {r : α → β → Prop} {xs : List α} {ys : List β}
    (h : List.Forall₂ r xs ys) {x : α} (hx : x ∈ xs) : ∃ y ∈ ys, r x y := by
  induction h with
  | nil => cases hx
  | cons hxy _ ih =>
    rcases List.mem_cons.mp hx with rfl | hx
    · exact ⟨_, List.mem_cons_self, hxy⟩
    · obtain ⟨y, hy, hr⟩ := ih hx
      exact ⟨y, List.mem_cons_of_mem _ hy, hr⟩

theorem parseOpenTag_some {body : Text}
    (h : parseOpenTag ('<' :: (body ++ ['>'])) = some (name, d)) :
    ∃ tokens pairs, splitAttr body = name :: tokens ∧ tokens.mapM parseAttr = some pairs ∧
      d = insertAll pairs ∅ := by
  rw [parseOpenTag, pySlice_ends] at h
  split at h
  · cases h
  case h_2 tagName tokens htokens =>
    simp only [parseAttrs, Option.map_map, Option.map_eq_some_iff] at h
    obtain ⟨pairs, hpairs, heq⟩ := h
    obtain ⟨rfl, rfl⟩ : tagName = name ∧ _ = d := by simpa using heq
    exact ⟨tokens, pairs, htokens, hpairs, rfl⟩

def value (e : Entry) : Text := pySlice e.2 1 (-1)

theorem GoodEntry.eq_quoted (h : GoodEntry e) : e.2 = quoted (value e) := by
  obtain ⟨-, v, hv, -⟩ := h
  have hslice : pySlice (quoted v) 1 (-1) = v := pySlice_ends
  rw [value, hv, hslice]

theorem GoodEntry.not_mem (h : GoodEntry e) : '"' ∉ value e := by
  obtain ⟨-, v, hv, hq⟩ := h
  have hslice : pySlice (quoted v) 1 (-1) = v := pySlice_ends
  rwa [value, hv, hslice]

theorem GoodEntry.parseAttr (h : GoodEntry e) :
    parseAttr (token e) = if '=' ∈ value e then none else some (e.1, value e) := by
  rw [← parseAttr_token h.1, ← h.eq_quoted]

theorem parseOpenTag_tag {attrMap : AList fun _ : Text => Text} (hname : Word name)
    (h : ∀ e ∈ attrMap.entries, GoodEntry e) (heq : ∀ e ∈ attrMap.entries, '=' ∉ value e) :
    ∃ d, parseOpenTag ('<' :: (name ++ attrsStr attrMap ++ ['>'])) = some (name, d) ∧
      ∀ key v, d.lookup key = some v ↔ attrMap.lookup key = some (quoted v) := by
  let pairs := attrMap.entries.map fun e => (e.1, value e)
  have hpairs : (attrMap.entries.map token).mapM parseAttr = some pairs := by
    rw [mapM_eq_some, List.forall₂_map_left_iff, List.forall₂_map_right_iff,
      List.forall₂_same]
    intro e he
    rw [(h e he).parseAttr, if_neg (heq e he)]
  refine ⟨insertAll pairs ∅, ?_, fun key v => ?_⟩
  · rw [parseOpenTag, pySlice_ends, attrsStr, splitAttr_tag hname h]
    simp only [parseAttrs, hpairs]
    rfl
  · have hkeys : (pairs.map Prod.fst).Nodup := by
      have := attrMap.nodupKeys
      rw [List.NodupKeys, List.keys] at this
      simpa [pairs, Function.comp_def] using this
    rw [lookup_insertAll_iff hkeys, ← Option.mem_def, AList.lookup,
      List.mem_dlookup_iff attrMap.nodupKeys]
    simp only [pairs, List.mem_map, Prod.mk.injEq]
    constructor
    · rintro ⟨e, he, rfl, rfl⟩
      rwa [← (h e he).eq_quoted]
    · intro hmem
      exact ⟨_, hmem, rfl, pySlice_ends⟩

theorem parseOpenTag_eq_none {attrMap : AList fun _ : Text => Text} (hname : Word name)
    (h : ∀ e ∈ attrMap.entries, GoodEntry e) (he : e ∈ attrMap.entries) (heq : '=' ∈ value e) :
    parseOpenTag ('<' :: (name ++ attrsStr attrMap ++ ['>'])) = none := by
  by_contra hsome
  obtain ⟨⟨name', d⟩, htag⟩ := Option.ne_none_iff_exists'.mp hsome
  obtain ⟨tokens, pairs, htokens, hpairs, -⟩ := parseOpenTag_some htag
  rw [attrsStr, splitAttr_tag hname h] at htokens
  obtain ⟨-, rfl⟩ := List.cons.inj htokens
  rw [mapM_eq_some, List.forall₂_map_left_iff] at hpairs
  obtain ⟨p, -, hp⟩ := exists_of_forall₂ hpairs he
  rw [(h e he).parseAttr, if_pos heq] at hp
  cases hp

/-! ## What is left of an open tag cut inside a value -/

theorem mem_of_mem_keepToken {a t : Text} {tokens : List Text} (h : t ∈ keepToken a tokens) :
    t ∈ a :: tokens := by
  rw [keepToken] at h
  split_ifs at h
  · exact List.mem_cons_of_mem a h
  · exact h

theorem mem_keepToken {a t : Text} {tokens : List Text} (h : t ∈ a :: tokens) (hne : t ≠ []) :
    t ∈ keepToken a tokens := by
  rw [keepToken]
  split_ifs with ha
  · exact (List.mem_cons.mp h).resolve_left fun hta => hne (hta.trans ha)
  · exact h

theorem scanAttr_length {q : Option Char} {s t : Text}
    (h : t ∈ (scanAttr q s).1 :: (scanAttr q s).2) : t.length ≤ s.length := by
  induction s generalizing q t with
  | nil => simp_all [scanAttr]
  | cons c s ih =>
    rw [List.length_cons]
    have hcons : ∀ {q'}, t ∈ (c :: (scanAttr q' s).1) :: (scanAttr q' s).2 →
        t.length ≤ s.length + 1 := by
      intro q' ht
      rcases List.mem_cons.mp ht with rfl | ht
      · exact Nat.succ_le_succ (ih List.mem_cons_self)
      · exact (ih (List.mem_cons_of_mem _ ht)).trans (Nat.le_succ _)
    cases q with
    | some q => exact hcons h
    | none =>
      simp only [scanAttr] at h
      split_ifs at h
      · rcases List.mem_cons.mp h with rfl | h
        · simp
        · exact (ih (mem_of_mem_keepToken h)).trans (Nat.le_succ _)
      · exact hcons h
      · exact hcons h

theorem splitAttr_length {s t : Text} (h : t ∈ splitAttr s) : t.length ≤ s.length :=
  scanAttr_length (mem_of_mem_keepToken h)

theorem scanAttr_inside {q : Char} {u s : Text} (h : q ∉ u) :
    scanAttr (some q) (u ++ s) = (u ++ (scanAttr (some q) s).1, (scanAttr (some q) s).2) := by
  induction u with
  | nil => rfl
  | cons c u ih =>
    have hc : c ≠ q := fun hc => h (by simp [hc])
    simp [scanAttr, hc, ih fun hu => h (List.mem_cons_of_mem c hu)]

theorem scanAttr_cut {q : Option Char} (rest : Text) (hq : q = none ∨ q = some '\'')
    (hkey : Word key) (hw : '"' ∉ w) :
    let r := scanAttr q (w ++ '"' :: ' ' :: (key ++ '=' :: '"' :: rest))
    ∃ t ∈ r.1 :: r.2, '"' :: ' ' :: (key ++ ['=']) <:+: t := by
  induction w generalizing q with
  | nil =>
    refine ⟨_, List.mem_cons_self, List.IsPrefix.isInfix ?_⟩
    rcases hq with rfl | rfl
    · have hkey' : '"' ∉ ' ' :: (key ++ ['=']) := by simp [hkey.ne]
      have hscan := scanAttr_open (s := rest) hkey'
      simp only [List.cons_append, List.append_assoc, List.nil_append] at hscan
      simp [scanAttr, hscan]
    · have hkey' : '\'' ∉ '"' :: ' ' :: (key ++ ['=']) := by simp [hkey.ne]
      have hscan := scanAttr_inside (s := '"' :: rest) hkey'
      simp only [List.cons_append, List.append_assoc, List.nil_append] at hscan
      simp [hscan]
  | cons c w ih =>
    have hc : c ≠ '"' := fun hc => hw (by simp [hc])
    have hw' : '"' ∉ w := fun h => hw (List.mem_cons_of_mem c h)
    -- A character that joins the token in front of the rest keeps what is found there.
    have hcons : ∀ {q'}, q' = none ∨ q' = some '\'' →
        let r := scanAttr q' (w ++ '"' :: ' ' :: (key ++ '=' :: '"' :: rest))
        ∃ t ∈ (c :: r.1) :: r.2, '"' :: ' ' :: (key ++ ['=']) <:+: t := by
      intro q' hq' r
      obtain ⟨t, ht, hin⟩ := ih hq' hw'
      rcases List.mem_cons.mp ht with rfl | ht
      · exact ⟨_, List.mem_cons_self, List.infix_cons hin⟩
      · exact ⟨t, List.mem_cons_of_mem _ ht, hin⟩
    rcases hq with rfl | rfl
    · simp only [List.cons_append, scanAttr]
      split_ifs with hsep hquote
      · obtain ⟨t, ht, hin⟩ := ih (.inl rfl) hw'
        have hne : t ≠ [] := by
          rintro rfl
          simp at hin
        exact ⟨t, List.mem_cons_of_mem _ (mem_keepToken ht hne), hin⟩
      · exact hcons (.inr (by rw [hquote.resolve_left hc]))
      · exact hcons (.inl rfl)
    · simp only [List.cons_append, scanAttr]
      apply hcons
      split_ifs <;> simp

theorem splitAttr_cut (rest : Text) (hkey : Word key) (hw : '"' ∉ w) :
    ∃ t ∈ splitAttr (w ++ '"' :: ' ' :: (key ++ '=' :: '"' :: rest)),
      '"' :: ' ' :: (key ++ ['=']) <:+: t := by
  obtain ⟨t, ht, hin⟩ := scanAttr_cut rest (.inl rfl) hkey hw
  have hne : t ≠ [] := by
    rintro rfl
    simp at hin
  exact ⟨t, mem_keepToken ht hne, hin⟩

theorem pySlice_length_le (s : Text) (lo hi : ℤ) : (pySlice s lo hi).length ≤ s.length := by
  simp only [pySlice, List.length_drop, List.length_take]
  omega

theorem cut_last_differs {tokens : List Text} (htokens : splitAttr (w ++ ['"']) = name :: tokens)
    (hpairs : List.Forall₂ (fun t p => parseAttr t = some p) tokens pairs)
    (hlook : (insertAll pairs ∅).lookup key = some v) : v.length ≤ w.length := by
  have hmem := (lookup_insertAll hlook).resolve_right (by simp)
  obtain ⟨t, ht, hparse⟩ := exists_of_forall₂ hpairs.flip hmem
  obtain ⟨raw, rfl, -, -, hraw⟩ := parseAttr_some hparse
  have hlen := splitAttr_length (htokens ▸ List.mem_cons_of_mem name ht)
  have hslice := (pySlice_length_le (strip raw) 1 (-1)).trans (Offline.strip_length_le raw)
  rw [← hraw] at hslice
  simp only [List.length_append, List.length_cons, List.length_nil] at hlen
  omega

theorem cut_inner_differs {key' rest : Text} {tokens : List Text} (hkey : Word key')
    (hw : '"' ∉ w)
    (htokens : splitAttr (w ++ '"' :: ' ' :: (key' ++ '=' :: '"' :: rest)) = name :: tokens)
    (hpairs : List.Forall₂ (fun t p => parseAttr t = some p) tokens pairs) :
    '"' ∈ name ∨ ∃ key v, '"' ∈ key ∧ (insertAll pairs ∅).lookup key = some v := by
  obtain ⟨t, ht, x, y, hxy⟩ := splitAttr_cut rest hkey hw
  rw [htokens] at ht
  rcases List.mem_cons.mp ht with rfl | ht
  · exact .inl (by simp [← hxy])
  · obtain ⟨⟨key, val⟩, hmem, hparse⟩ := exists_of_forall₂ hpairs ht
    obtain ⟨raw, hraw, hnkey, hnraw, -⟩ := parseAttr_some hparse
    obtain ⟨val', hlook⟩ := exists_lookup hmem
    refine .inr ⟨key, val', ?_, hlook⟩
    -- The token has one equals sign, and the quote stands in front of it.
    have heq : key ++ '=' :: raw = (x ++ '"' :: ' ' :: key') ++ '=' :: y := by
      rw [← hraw, ← hxy]
      simp
    rcases append_eq_append_cons heq with ⟨z, rfl, -⟩ | ⟨z, hX, hz⟩
    · simp at hnkey
    · cases z with
      | nil =>
        rw [List.append_nil] at hX
        simp [← hX]
      | cons c z =>
        obtain ⟨-, rfl⟩ := List.cons.inj hz
        simp at hnraw

/-- What is left of an open tag whose value was cut does not parse to the tag. -/
theorem cut_tag_differs {attrMap : AList fun _ : Text => Text} {es₁ es₂ : List Entry} {u : Text}
    (h : ∀ e ∈ attrMap.entries, GoodEntry e) (hname : Word name)
    (hes : attrMap.entries = es₁ ++ e :: es₂) (hv : value e = u ++ '<' :: w) (hw : '"' ∉ w)
    (htag : parseOpenTag ('<' :: (w ++ '"' :: es₂.flatMap attrStr ++ ['>'])) = some (name, d))
    (hd : ∀ key v, d.lookup key = some v ↔ attrMap.lookup key = some (quoted v)) : False := by
  obtain ⟨tokens, pairs, htokens, hpairs, rfl⟩ := parseOpenTag_some htag
  rw [mapM_eq_some] at hpairs
  cases es₂ with
  | nil =>
    have he : e ∈ attrMap.entries := by simp [hes]
    have hlook : (insertAll pairs ∅).lookup e.1 = some (value e) := by
      rw [hd, ← (h e he).eq_quoted]
      exact (List.mem_dlookup_iff attrMap.nodupKeys).mpr he
    have hlen := cut_last_differs htokens hpairs hlook
    rw [hv, List.length_append, List.length_cons] at hlen
    omega
  | cons e' es₂ =>
    obtain ⟨hkey, v', hv', -⟩ := h e' (by simp [hes])
    have hbody : w ++ '"' :: (e' :: es₂).flatMap attrStr =
        w ++ '"' :: ' ' :: (e'.1 ++ '=' :: '"' :: (v' ++ '"' :: es₂.flatMap attrStr)) := by
      simp [attrStr, hv', quoted]
    rw [hbody] at htokens
    rcases cut_inner_differs hkey hw htokens hpairs with hquote | ⟨key, v, hquote, hlook⟩
    · exact hname.ne (by simp) hquote
    · have hmem := (List.mem_dlookup_iff attrMap.nodupKeys).mp ((hd key v).mp hlook)
      exact (h _ hmem).1.ne (by simp) hquote

end Trace4J.Profiler
