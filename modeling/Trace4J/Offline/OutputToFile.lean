import Trace4J.Offline.ContextManager
import Trace4J.Offline.Xml

/-!
# The traces of a thread

`ContextManager.getAllPaths` and `output_to_file`, which turns the paths from the root to the
leaves into the list of traces. The order in which Python goes through a set is arbitrary, and
so is a parameter. Printing a source position and reading a float are parameters too.
-/

namespace Trace4J.Offline

/-! ## Words and numbers of a string -/

def splitWords : Text → Text → List Text
  | word, [] => if word = [] then [] else [word]
  | word, c :: s =>
    if isSpace c then
      if word = [] then splitWords [] s else word :: splitWords [] s
    else splitWords (word ++ [c]) s

/-- `s.split()` -/
def pySplit (s : Text) : List Text := splitWords [] s

def readDigits : ℕ → Bool → Text → Option ℕ
  | n, afterDigit, [] => if afterDigit then some n else none
  | n, afterDigit, c :: s =>
    if c.isDigit then readDigits (10 * n + (c.toNat - '0'.toNat)) true s
    else if c = '_' ∧ afterDigit then readDigits n false s
    else none

/-- `int(s)` for the ASCII digits. -/
def pyInt (s : Text) : Option ℤ :=
  match strip s with
  | '-' :: t => (readDigits 0 false t).map fun n : ℕ => -(n : ℤ)
  | '+' :: t => (readDigits 0 false t).map fun n : ℕ => (n : ℤ)
  | t => (readDigits 0 false t).map fun n : ℕ => (n : ℤ)

/-! ## Paths -/

/-- An order for the elements of each set of children. -/
structure SetOrder where
  list : Context → List Text
  nodup : ∀ c, (list c).Nodup
  mem : ∀ c id, id ∈ list c ↔ id ∈ c.childrenIds

inductive Description
  | rootLeaf
  | rootSubnode

namespace ContextManager

def getAllPaths (mgr : ContextManager) (sets : SetOrder) (description : Description) :
    ℕ → Text → Option (List (List Context))
  | 0, _ => none
  | fuel + 1, id => do
    let root ← mgr.contextDict id
    if root.childrenIds = ∅ then some [[root]]
    else
      let below ← (sets.list root).mapM (getAllPaths mgr sets description fuel)
      let retList := below.flatten.map (root :: ·)
      match description with
      | .rootLeaf => some retList
      | .rootSubnode => some (retList ++ [[root]])

end ContextManager

/-! ## `output_to_file` -/

def nearCall : Text :=
  ['B', 'R', '_', 'I', 'N', 'S', 'T', '_', 'R', 'E', 'T', 'I', 'R', 'E', 'D', '.', 'N', 'E', 'A',
    'R', '_', 'C', 'A', 'L', 'L']

def hwInstructions : Text :=
  ['P', 'E', 'R', 'F', '_', 'C', 'O', 'U', 'N', 'T', '_', 'H', 'W', '_', 'I', 'N', 'S', 'T', 'R',
    'U', 'C', 'T', 'I', 'O', 'N', 'S']

def metricKey (event measure : Text) : Text := event ++ ':' :: measure

def countKey : Text := metricKey nearCall ['C', 'O', 'U', 'N', 'T']
def startKey : Text := metricKey hwInstructions ['S', 't', 'a', 'r', 't']
def endKey : Text := metricKey hwInstructions ['E', 'n', 'd']
def meanKey : Text := metricKey hwInstructions ['M', 'E', 'A', 'N']
def cvKey : Text := metricKey hwInstructions ['C', 'V']

structure TraceMetrics where
  instructionsTotal : ℤ
  methodInstanceCount : Text
  instructionsMean : ℤ
  instructionsDispersion : Text

structure Output where
  counter : ℤ := 0
  dumpData : List (Text × MetricsDict) := []
  traceList : List (Trace TraceMetrics) := []

section Output
variable (getSrcPosition : Context → Text) (roundFloat : Text → Option ℤ)
  (formatFloat : Text → Option Text)

def traceMetrics (metrics : MetricsDict) : Option TraceMetrics := do
  let count ← metrics.lookup countKey
  let n ← pyInt count
  let mean ← (metrics.lookup meanKey).bind roundFloat
  let cv ← (metrics.lookup cvKey).bind formatFloat
  some ⟨n * mean, count, mean, cv⟩

/-- The loop over `start_list`; an `end_list` that is too short is an `IndexError`. -/
def traceRows (metrics : MetricsDict) (key : Text) :
    List Text → List Text → Option (List (Trace TraceMetrics))
  | [], _ => some []
  | _ :: _, [] => none
  | start :: starts, stop :: stops => do
    let start ← pyInt start
    let stop ← pyInt stop
    let summary ← traceMetrics roundFloat formatFloat metrics
    let rows ← traceRows metrics key starts stops
    some (⟨start, stop, summary, key⟩ :: rows)

def callKey (path : List Context) : Text := ['\n'].intercalate (path.map getSrcPosition)

def outputContext (path : List Context) (ctxt : Context) (out : Output) : Option Output :=
  if ctxt.metricsDict = ∅ then some out
  else do
    let count ← (ctxt.metricsDict.lookup countKey).bind pyInt
    let key := callKey getSrcPosition path
    let startList ← (ctxt.metricsDict.lookup startKey).map pySplit
    let endList ← (ctxt.metricsDict.lookup endKey).map pySplit
    let rows ← traceRows roundFloat formatFloat ctxt.metricsDict key startList endList
    some
      { counter := out.counter + count
        dumpData := out.dumpData ++ [(key, ctxt.metricsDict)]
        traceList := out.traceList ++ rows }

/-- `while i < len(ctxt_list)`, where `before` is `ctxt_list[:i]`. -/
def outputPath (before : List Context) : List Context → Output → Option Output
  | [], out => some out
  | ctxt :: rest, out => do
    let out ← outputContext getSrcPosition roundFloat formatFloat (before ++ [ctxt]) ctxt out
    outputPath (before ++ [ctxt]) rest out

def outputToFile (sets : SetOrder) (fuel : ℕ) (mgr : ContextManager) : Option Output := do
  let paths ← mgr.getAllPaths sets .rootLeaf fuel ['0']
  paths.foldlM (fun out path => outputPath getSrcPosition roundFloat formatFloat [] path out) {}

end Output

/-! ## Decimal numbers read back -/

section Decimal
variable {s word : Text} {n : ℕ}

theorem isSpace_of_isDigit {c : Char} (h : c.isDigit = true) : isSpace c = false := by
  simp only [Char.isDigit, Bool.and_eq_true, decide_eq_true_eq] at h
  have hlo : 48 ≤ c.toNat := h.1
  have hhi : c.toNat ≤ 57 := h.2
  simp only [isSpace, Bool.or_eq_false_iff, Bool.and_eq_false_iff, decide_eq_false_iff_not,
    beq_eq_false_iff_ne]
  omega

theorem readDigits_eq (hs : ∀ c ∈ s, c.isDigit = true) (n : ℕ) (b : Bool) (h : s ≠ [] ∨ b = true) :
    readDigits n b s = some (Nat.ofDigitChars 10 s n) := by
  induction s generalizing n b with
  | nil => simp_all [readDigits]
  | cons c s ih =>
    obtain ⟨hc, hs⟩ := List.forall_mem_cons.mp hs
    rw [readDigits, if_pos hc, ih hs _ _ (.inr rfl)]
    simp [Nat.ofDigitChars]

theorem strip_of_no_space (h : ∀ c ∈ s, isSpace c = false) : strip s = s := by
  have hdrop : s.dropWhile isSpace = s := by
    cases s with
    | nil => rfl
    | cons c s => simp [h c List.mem_cons_self]
  rw [strip, hdrop]
  induction s using List.reverseRecOn with
  | nil => rfl
  | append_singleton s c _ =>
    rw [List.rdropWhile_concat_neg _ _ _ (by simp [h c (by simp)])]

theorem pyInt_toDigits (n : ℕ) : pyInt (Nat.toDigits 10 n) = some (n : ℤ) := by
  have hdigits : ∀ c ∈ Nat.toDigits 10 n, c.isDigit = true := fun c hc =>
    Nat.isDigit_of_mem_toDigits (by decide) le_rfl hc
  have hread : readDigits 0 false (Nat.toDigits 10 n) = some n := by
    rw [readDigits_eq hdigits _ _ (.inl Nat.toDigits_ne_nil), Nat.ofDigitChars_ten_toDigits]
  rw [pyInt, strip_of_no_space fun c hc => isSpace_of_isDigit (hdigits c hc)]
  split
  · next t ht =>
    exact absurd (hdigits '-' (by rw [ht]; exact List.mem_cons_self)) (by decide)
  · next t ht =>
    exact absurd (hdigits '+' (by rw [ht]; exact List.mem_cons_self)) (by decide)
  · rw [hread, Option.map_some]

theorem splitWords_append (hs : ∀ c ∈ s, isSpace c = false) (word t : Text) :
    splitWords word (s ++ t) = splitWords (word ++ s) t := by
  induction s generalizing word with
  | nil => simp
  | cons c s ih =>
    obtain ⟨hc, hs⟩ := List.forall_mem_cons.mp hs
    rw [List.cons_append, splitWords, if_neg (by simp [hc]), ih hs]
    simp

theorem pySplit_flatMap (words : List Text) (hne : ∀ w ∈ words, w ≠ [])
    (hspace : ∀ w ∈ words, ∀ c ∈ w, isSpace c = false) :
    pySplit (words.flatMap fun w => w ++ [' ']) = words := by
  induction words with
  | nil => rfl
  | cons w words ih =>
    obtain ⟨hw, hne⟩ := List.forall_mem_cons.mp hne
    obtain ⟨hws, hspace⟩ := List.forall_mem_cons.mp hspace
    have hrest := ih hne hspace
    rw [pySplit] at hrest ⊢
    rw [List.flatMap_cons, List.append_assoc, splitWords_append hws, List.nil_append,
      List.singleton_append, splitWords, if_pos (by decide), if_neg hw, hrest]

end Decimal

/-! ## What is appended -/

def Trace.row {M : Type} (r : Trace M) : ℤ × ℤ × Text := (r.start, r.stop, r.callpath)

section Appended
variable {getSrcPosition : Context → Text} {roundFloat : Text → Option ℤ}
  {formatFloat : Text → Option Text} {metrics : MetricsDict} {summary : TraceMetrics}

theorem traceRows_eq {α : Type*} (hsummary : traceMetrics roundFloat formatFloat metrics = some summary)
    (key : Text) (start stop : α → ℕ) (l : List α) :
    traceRows roundFloat formatFloat metrics key (l.map fun x => Nat.toDigits 10 (start x))
        (l.map fun x => Nat.toDigits 10 (stop x)) =
      some (l.map fun x => ⟨start x, stop x, summary, key⟩) := by
  induction l with
  | nil => rfl
  | cons x l ih =>
    simp only [List.map_cons, traceRows, pyInt_toDigits, hsummary, ih]
    rfl

theorem outputPath_append (before path : List Context) (ctxt : Context) (out : Output)
    (hnone : ∀ c ∈ path, c.metricsDict = ∅) :
    outputPath getSrcPosition roundFloat formatFloat before (path ++ [ctxt]) out =
      outputContext getSrcPosition roundFloat formatFloat (before ++ path ++ [ctxt]) ctxt out := by
  induction path generalizing before with
  | nil =>
    simp only [List.nil_append, outputPath, List.append_nil]
    exact bind_pure _
  | cons c path ih =>
    obtain ⟨hc, hnone⟩ := List.forall_mem_cons.mp hnone
    rw [List.cons_append, outputPath, outputContext, if_pos hc]
    have hrest := ih (before ++ [c]) hnone
    simpa using hrest

theorem foldlM_outputPath {α β : Type*} (path : α → List Context) (rows : α → List β)
    (view : Trace TraceMetrics → β) (l : List α)
    (h : ∀ x ∈ l, ∀ out, ∃ out',
      outputPath getSrcPosition roundFloat formatFloat [] (path x) out = some out' ∧
        out'.traceList.map view = out.traceList.map view ++ rows x) (out : Output) :
    ∃ out', (l.map path).foldlM (fun out path =>
        outputPath getSrcPosition roundFloat formatFloat [] path out) out = some out' ∧
      out'.traceList.map view = out.traceList.map view ++ l.flatMap rows := by
  induction l generalizing out with
  | nil => exact ⟨out, rfl, by simp⟩
  | cons x l ih =>
    obtain ⟨hx, h⟩ := List.forall_mem_cons.mp h
    obtain ⟨out₁, h₁, hlist₁⟩ := hx out
    obtain ⟨out₂, h₂, hlist₂⟩ := ih h out₁
    refine ⟨out₂, ?_, ?_⟩
    · rw [List.map_cons, List.foldlM_cons, h₁]
      exact h₂
    · rw [hlist₂, hlist₁, List.flatMap_cons, List.append_assoc]

end Appended

/-! ## Metrics read back -/

def MetricXml.key (x : MetricXml) : Text := metricKey x.event x.measure

section Lookup
variable {x : MetricXml} {d : MetricsDict} {key v : Text}

theorem loadMetrics_append (xs ys : List MetricXml) (d : MetricsDict)
    (hxs : ∀ x ∈ xs, x.value.isSome) :
    loadMetrics (xs ++ ys) d = loadMetrics ys (loadMetrics xs d) := by
  induction xs generalizing d with
  | nil => rfl
  | cons x xs ih =>
    obtain ⟨hx, hxs⟩ := List.forall_mem_cons.mp hxs
    obtain ⟨v, hv⟩ := Option.isSome_iff_exists.mp hx
    simp only [List.cons_append, loadMetrics, hv, ih _ hxs]

theorem lookup_loadMetrics_of_ne (xs : List MetricXml) (d : MetricsDict)
    (hxs : ∀ x ∈ xs, x.key ≠ key) : (loadMetrics xs d).lookup key = d.lookup key := by
  induction xs generalizing d with
  | nil => rfl
  | cons x xs ih =>
    obtain ⟨hx, hxs⟩ := List.forall_mem_cons.mp hxs
    rw [loadMetrics]
    cases hv : x.value with
    | none => rfl
    | some v =>
      simp only
      rw [ih _ hxs]
      exact AList.lookup_insert_ne (Ne.symm hx)

theorem lookup_loadMetrics (xs ys : List MetricXml) (hxs : ∀ x ∈ xs, x.value.isSome)
    (hx : x.value = some v) (hys : ∀ y ∈ ys, y.key ≠ x.key) :
    (loadMetrics (xs ++ x :: ys) ∅).lookup x.key = some v := by
  rw [loadMetrics_append _ _ _ hxs, loadMetrics, hx]
  simp only
  rw [lookup_loadMetrics_of_ne ys _ hys]
  exact AList.lookup_insert _

end Lookup
end Trace4J.Offline
