import Mathlib.Algebra.BigOperators.Group.Finset.Basic
import Mathlib.Algebra.Order.Group.Multiset
import Mathlib.Tactic.Abel
import Trace4J.Library.Run
import Trace4J.Offline.Xml

/-!
# The threaded parser of level-one nodes

`HomoXMLParser` and its `WorkerManager`. One producer cuts the input into level-one nodes
and puts them into a queue; ten consumers parse what they get and add it to the root. The
master hands the eleven routines to threads and runs a routine itself when too many
threads are active. A schedule is any list of actors, and a section under a lock, as
every operation of the queue, is one step.
-/

namespace Trace4J.Offline
open Library

/-! ## The routines -/

def closeTag (tag : Text) : Text := '<' :: '/' :: tag ++ ['>']

/-- The source puts the tag into a regular expression; here it stands for itself. -/
def cutNode (tag inputStr : Text) : Option (Text × Text) :=
  if findText ('<' :: tag) inputStr = 0 ∧ 0 ≤ findText (closeTag tag) inputStr then
    let endingIndex := (findText (closeTag tag) inputStr).toNat + (closeTag tag).length
    some (inputStr.take endingIndex, strip (inputStr.drop endingIndex))
  else none

structure Shared where
  levelOneStrQueue : List Text := []
  producerWorkDone : Bool := false
  root : XmlNode := virtualRoot

/-- Where a routine stands: the producer at the head of its loop, or a consumer about to
read the flag, to ask whether the queue is empty, to get, to parse or to add. -/
inductive Pc
  | produce (inputStr : Text)
  | head
  | checkEmpty
  | get
  | parse (nodeStr : Text)
  | add (levelNode : XmlNode)
  | returned

inductive Blocked
  | notRunnable | exception
deriving DecidableEq, Repr

def routineStep (tag : Text) : Pc → Shared → Except Blocked (Pc × Shared)
  | .produce [], sh => .ok (.returned, { sh with producerWorkDone := true })
  | .produce (c :: inputStr), sh =>
    match cutNode tag (c :: inputStr) with
    | none => .error .exception
    | some (nodeStr, rest) =>
      .ok (.produce rest, { sh with levelOneStrQueue := sh.levelOneStrQueue ++ [nodeStr] })
  | .head, sh => .ok (if sh.producerWorkDone then .checkEmpty else .get, sh)
  | .checkEmpty, sh => .ok (if sh.levelOneStrQueue.isEmpty then .returned else .get, sh)
  | .get, sh =>
    match sh.levelOneStrQueue with
    | [] => .ok (.head, sh)
    | nodeStr :: queue => .ok (.parse nodeStr, { sh with levelOneStrQueue := queue })
  | .parse nodeStr, sh =>
    match (parseXml nodeStr).map XmlNode.children with
    | some [levelNode] => .ok (.add levelNode, sh)
    | _ => .error .exception
  | .add levelNode, sh => .ok (.head, { sh with root := sh.root.addChild levelNode })
  | .returned, _ => .error .notRunnable

/-! ## The worker manager -/

inductive Status
  | unassigned
  | created
  | running (pc : Pc)
  | joined

/-- The master before the `k`th `assignWork`, between creating and starting a worker, in a
routine of its own, and in `finish`. -/
inductive Master
  | assign (k : ℕ)
  | start (k : ℕ)
  | inline (k : ℕ)
  | finish
  | returned

/-- Task 0 is the producer. -/
structure State where
  shared : Shared := {}
  task : ℕ → Status := fun _ => .unassigned
  activeWorkerList : List ℕ := []
  master : Master := .assign 0

inductive Actor
  | master
  | worker (k : ℕ)
deriving DecidableEq, Repr

def numTasks : ℕ := 11

def startPc (content : Text) (k : ℕ) : Pc := if k = 0 then .produce (strip content) else .head

def State.setTask (s : State) (k : ℕ) (st : Status) : State :=
  { s with task := Function.update s.task k st }

def stepTask (tag : Text) (k : ℕ) (pc : Pc) (s : State) : Except Blocked State := do
  let (pc', sh) ← routineStep tag pc s.shared
  .ok { s.setTask k (.running pc') with shared := sh }

def workerStep (tag : Text) (k : ℕ) (s : State) : Except Blocked State :=
  if k ∈ s.activeWorkerList then
    match s.task k with
    | .running .returned =>
      .ok { s.setTask k .joined with activeWorkerList := s.activeWorkerList.erase k }
    | .running pc => stepTask tag k pc s
    | _ => .error .notRunnable
  else .error .notRunnable

def masterStep (tag content : Text) (maxWorkers : ℕ) (s : State) : Except Blocked State :=
  match s.master with
  | .assign k =>
    if k = numTasks then .ok { s with master := .finish }
    else if maxWorkers ≤ s.activeWorkerList.length then
      .ok { s.setTask k (.running (startPc content k)) with master := .inline k }
    else
      .ok { s.setTask k .created with
        activeWorkerList := s.activeWorkerList ++ [k]
        master := .start k }
  | .start k =>
    .ok { s.setTask k (.running (startPc content k)) with master := .assign (k + 1) }
  | .inline k =>
    match s.task k with
    | .running .returned => .ok { s.setTask k .joined with master := .assign (k + 1) }
    | .running pc => stepTask tag k pc s
    | _ => .error .notRunnable
  | .finish => .ok (if s.activeWorkerList = [] then { s with master := .returned } else s)
  | .returned => .error .notRunnable

def step (tag fileStr : Text) (maxWorkers : ℕ) : Actor → State → Except Blocked State
  | .master, s => masterStep tag (stripHeader fileStr) maxWorkers s
  | .worker k, s => workerStep tag k s

/-! ## Inputs -/

/-- A well-formed level-one node: its text starts with the open tag, ends with the first
close tag, and parses to one node. -/
structure LevelOneNode (tag : Text) where
  text : Text
  obj : XmlNode
  opens : '<' :: tag <+: text
  closes : (findText (closeTag tag) text : ℤ) + (closeTag tag).length = text.length
  found : 0 ≤ findText (closeTag tag) text
  parses : (parseXml text).map XmlNode.children = some [obj]

inductive Layout (tag : Text) : Text → List (LevelOneNode tag) → Prop
  | nil {ws : Text} : (∀ c ∈ ws, isSpace c = true) → Layout tag ws []
  | cons {ws rest : Text} {n : LevelOneNode tag} {ns : List (LevelOneNode tag)} :
      (∀ c ∈ ws, isSpace c = true) → Layout tag rest ns →
      Layout tag (ws ++ (n.text ++ rest)) (n :: ns)

variable {tag : Text} {n : LevelOneNode tag} {nodes ns : List (LevelOneNode tag)}

/-! ### Cutting -/

theorem cutNode_append {rest : Text} :
    cutNode tag (n.text ++ rest) = some (n.text, strip rest) := by
  have hopen : findText ('<' :: tag) (n.text ++ rest) = 0 :=
    findText_prefix (n.opens.trans (List.prefix_append _ _))
  have hclose := findText_append (t := rest) n.found
  have hend : (findText (closeTag tag) n.text).toNat + (closeTag tag).length = n.text.length := by
    have := n.closes
    have := n.found
    omega
  simp only [cutNode, hopen, hclose, n.found, and_self, ↓reduceIte, hend]
  simp

theorem node_head : ∃ s, n.text = '<' :: s := by
  obtain ⟨t, ht⟩ := n.opens
  exact ⟨tag ++ t, ht.symm⟩

theorem node_last : ∃ s, n.text = s ++ ['>'] := by
  have hpre := drop_findText n.found
  have hclose := n.closes
  have hfound := n.found
  have heq : closeTag tag = n.text.drop (findText (closeTag tag) n.text).toNat := by
    apply hpre.eq_of_length
    rw [List.length_drop]
    omega
  refine ⟨n.text.take (findText (closeTag tag) n.text).toNat ++ '<' :: '/' :: tag, ?_⟩
  calc n.text = n.text.take (findText (closeTag tag) n.text).toNat ++
        n.text.drop (findText (closeTag tag) n.text).toNat := (List.take_append_drop _ _).symm
    _ = _ := by
      rw [← heq, closeTag]
      simp

/-! ### Stripping -/

theorem rdropWhile_node {rest : Text} :
    (n.text ++ rest).rdropWhile isSpace = n.text ++ rest.rdropWhile isSpace := by
  obtain ⟨s, hs⟩ := node_last (n := n)
  rw [hs]
  exact rdropWhile_append_of_last rfl

theorem Layout.rdropWhile {content : Text} (h : Layout tag content ns) :
    Layout tag (content.rdropWhile isSpace) ns := by
  induction h with
  | nil hws =>
    rw [rdropWhile_spaces hws]
    exact .nil (by simp)
  | @cons ws rest n ns hws hl ih =>
    obtain ⟨s, hs⟩ := node_last (n := n)
    have hsplit : (ws ++ (n.text ++ rest)).rdropWhile isSpace =
        ws ++ (n.text ++ rest.rdropWhile isSpace) := by
      have := rdropWhile_append_of_last (s := ws ++ s) (t := rest) (c := '>') rfl
      rw [hs]
      simpa only [List.append_assoc] using this
    rw [hsplit]
    exact .cons hws ih

inductive Ready (tag : Text) : Text → List (LevelOneNode tag) → Prop
  | nil : Ready tag [] []
  | cons {rest : Text} {n : LevelOneNode tag} {ns : List (LevelOneNode tag)} :
      Layout tag rest ns → Ready tag (n.text ++ rest) (n :: ns)

theorem Layout.ready {content : Text} (h : Layout tag content ns) : Ready tag (strip content) ns := by
  cases h with
  | nil hws =>
    rw [strip, List.dropWhile_eq_nil_iff.mpr hws]
    exact .nil
  | @cons ws rest n ns hws hl =>
    obtain ⟨s, hs⟩ := node_head (n := n)
    have hdrop : (ws ++ (n.text ++ rest)).dropWhile isSpace = n.text ++ rest := by
      rw [List.dropWhile_append_of_pos hws, hs]
      rfl
    rw [strip, hdrop, rdropWhile_node]
    exact .cons hl.rdropWhile

/-! ## Nothing is lost -/

def levelNodes (nodeStr : Text) : Multiset XmlNode :=
  ((parseXml nodeStr).map XmlNode.children).getD []

theorem levelNodes_node : levelNodes n.text = {n.obj} := by
  rw [levelNodes, n.parses]
  rfl

def Pc.holds : Pc → Multiset XmlNode
  | .parse nodeStr => levelNodes nodeStr
  | .add levelNode => {levelNode}
  | _ => 0

def Status.holds : Status → Multiset XmlNode
  | .running pc => pc.holds
  | _ => 0

def Shared.holds (sh : Shared) : Multiset XmlNode :=
  (sh.levelOneStrQueue.map levelNodes).sum + sh.root.children

def State.holds (s : State) : Multiset XmlNode :=
  s.shared.holds + ∑ k ∈ Finset.range numTasks, (s.task k).holds

def objs (ns : List (LevelOneNode tag)) : Multiset XmlNode := ns.map LevelOneNode.obj

def Unproduced (nodes rest : List (LevelOneNode tag)) (done : Bool) : Status → Prop
  | .unassigned | .created => rest = nodes ∧ done = false
  | .running (.produce inputStr) => Ready tag inputStr rest ∧ done = false
  | _ => rest = [] ∧ done = true

def Master.taken : Master → ℕ
  | .assign k => k
  | .start k | .inline k => k + 1
  | .finish | .returned => numTasks

def Status.IsLive : Status → Prop
  | .created | .running _ => True
  | _ => False

def Status.HasEnded : Status → Prop
  | .running .returned | .joined => True
  | _ => False

def Pc.Consumes : Pc → Prop
  | .produce _ => False
  | _ => True

structure Orderly (s : State) : Prop where
  taken_le : s.master.taken ≤ numTasks
  pending : ∀ k, s.master.taken ≤ k → s.task k = .unassigned
  begun : ∀ k < s.master.taken, s.task k ≠ .unassigned
  starting : ∀ k, s.master = .start k → s.task k = .created
  live : ∀ k, (s.task k).IsLive → k ∈ s.activeWorkerList ∨ s.master = .inline k

/-- Every node is still to cut, in the queue, with a consumer or under the root. -/
structure Conserved (nodes : List (LevelOneNode tag)) (s : State) : Prop where
  consumes : ∀ k pc, k ≠ 0 → s.task k = .running pc → pc.Consumes
  checking : ∀ k, s.task k = .running .checkEmpty → s.shared.producerWorkDone = true
  ended : ∀ k, k ≠ 0 → (s.task k).HasEnded →
    s.shared.producerWorkDone = true ∧ s.shared.levelOneStrQueue = []
  total : ∃ rest, Unproduced nodes rest s.shared.producerWorkDone (s.task 0) ∧
    s.holds + objs rest = objs nodes

variable {s s' : State} {sh sh' : Shared} {pc pc' : Pc} {k : ℕ} {st : Status} {content : Text}

theorem orderly_init : Orderly {} where
  taken_le := Nat.zero_le _
  pending _ _ := rfl
  begun k hk := absurd hk (Nat.not_lt_zero k)
  starting k h := by cases h
  live k h := h.elim

theorem conserved_init : Conserved nodes ({} : State) where
  consumes k pc _ h := by cases h
  checking k h := by cases h
  ended k _ h := h.elim
  total := by
    refine ⟨nodes, ⟨rfl, rfl⟩, ?_⟩
    have hzero : ∑ k ∈ Finset.range numTasks, (({} : State).task k).holds = 0 :=
      Finset.sum_eq_zero fun _ _ => rfl
    rw [State.holds, hzero]
    exact zero_add _

theorem holds_update (hk : k < numTasks) (task : ℕ → Status) (st : Status) :
    ∑ j ∈ Finset.range numTasks, (Function.update task k st j).holds + (task k).holds =
      ∑ j ∈ Finset.range numTasks, (task j).holds + st.holds := by
  have hmem : k ∈ Finset.range numTasks := Finset.mem_range.mpr hk
  have hrest : ∑ j ∈ (Finset.range numTasks).erase k, (Function.update task k st j).holds =
      ∑ j ∈ (Finset.range numTasks).erase k, (task j).holds := by
    refine Finset.sum_congr rfl fun j hj => ?_
    rw [Function.update_of_ne (Finset.ne_of_mem_erase hj)]
  rw [← Finset.add_sum_erase _ _ hmem, hrest, Function.update_self, ← Finset.add_sum_erase _
    (fun j => (task j).holds) hmem]
  abel

theorem routineStep_consumer (hc : pc.Consumes) (h : routineStep tag pc sh = .ok (pc', sh')) :
    pc'.Consumes ∧ sh'.holds + pc'.holds = sh.holds + pc.holds ∧
      sh'.producerWorkDone = sh.producerWorkDone ∧
      (sh.levelOneStrQueue = [] → sh'.levelOneStrQueue = []) ∧
      (pc' = .checkEmpty → sh'.producerWorkDone = true) ∧
      (pc' = .returned → pc = .checkEmpty ∧ sh'.levelOneStrQueue = []) := by
  cases pc with
  | produce inputStr => exact hc.elim
  | head =>
    cases h
    cases hd : sh.producerWorkDone with
    | true => exact ⟨trivial, rfl, rfl, id, fun _ => rfl, by simp⟩
    | false => exact ⟨trivial, rfl, rfl, id, by simp, by simp⟩
  | checkEmpty =>
    cases h
    cases hq : sh.levelOneStrQueue.isEmpty with
    | true => exact ⟨trivial, rfl, rfl, id, by simp, fun _ => ⟨rfl, List.isEmpty_iff.mp hq⟩⟩
    | false => exact ⟨trivial, rfl, rfl, id, by simp, by simp⟩
  | get =>
    rw [routineStep] at h
    cases hq : sh.levelOneStrQueue with
    | nil =>
      rw [hq] at h
      cases h
      exact ⟨trivial, rfl, rfl, fun _ => hq, by simp, by simp⟩
    | cons nodeStr queue =>
      rw [hq] at h
      cases h
      refine ⟨trivial, ?_, rfl, by simp, by simp, by simp⟩
      simp only [Shared.holds, Pc.holds, hq, List.map_cons, List.sum_cons]
      abel
  | parse nodeStr =>
    rw [routineStep] at h
    split at h
    · next levelNode hp =>
      cases h
      refine ⟨trivial, ?_, rfl, id, by simp, by simp⟩
      simp only [Pc.holds, levelNodes, hp]
      rfl
    · cases h
  | add levelNode =>
    cases h
    refine ⟨trivial, ?_, rfl, id, by simp, by simp⟩
    simp only [Shared.holds, Pc.holds, XmlNode.addChild, XmlNode.children, add_zero]
    rw [← Multiset.coe_add, ← add_assoc]
    rfl
  | returned => cases h

theorem routineStep_producer {inputStr : Text} (hr : Ready tag inputStr ns)
    (h : routineStep tag (.produce inputStr) sh = .ok (pc', sh')) :
    ns = [] ∧ pc' = .returned ∧ sh' = { sh with producerWorkDone := true } ∨
      ∃ n ns' rest, ns = n :: ns' ∧ pc' = .produce rest ∧ Ready tag rest ns' ∧
        sh' = { sh with levelOneStrQueue := sh.levelOneStrQueue ++ [n.text] } := by
  cases hr with
  | nil =>
    cases h
    exact .inl ⟨rfl, rfl, rfl⟩
  | @cons rest n ns' hl =>
    right
    obtain ⟨t, ht⟩ := node_head (n := n)
    have hcut : cutNode tag (n.text ++ rest) = some (n.text, strip rest) := cutNode_append
    rw [ht, List.cons_append] at h hcut
    rw [routineStep, hcut] at h
    cases h
    exact ⟨n, ns', strip rest, rfl, rfl, hl.ready, by rw [ht]⟩

theorem Orderly.lt_numTasks (h : Orderly s) (hk : s.task k ≠ .unassigned) : k < numTasks := by
  by_contra hn
  exact hk (h.pending k (h.taken_le.trans (not_lt.mp hn)))

theorem Unproduced.of_consumes {rest : List (LevelOneNode tag)} {done : Bool}
    (h : Unproduced nodes rest done (.running pc)) (hc : pc.Consumes) :
    rest = [] ∧ done = true := by
  cases pc with
  | produce inputStr => exact hc.elim
  | _ => exact h

theorem unproduced_of_consumes {rest : List (LevelOneNode tag)} {done : Bool} (hc : pc.Consumes)
    (h : rest = [] ∧ done = true) : Unproduced nodes rest done (.running pc) := by
  cases pc with
  | produce inputStr => exact hc.elim
  | _ => exact h

structure TaskSet (s s' : State) (k : ℕ) (st : Status) : Prop where
  self : s'.task k = st
  other : ∀ j ≠ k, s'.task j = s.task j

theorem taskSet_of_eq (h : s'.task = Function.update s.task k st) : TaskSet s s' k st :=
  ⟨h ▸ Function.update_self .., fun _ hj => h ▸ Function.update_of_ne hj ..⟩

theorem TaskSet.holds (h : TaskSet s s' k st) (hk : k < numTasks) :
    s'.holds + s.shared.holds + (s.task k).holds = s.holds + s'.shared.holds + st.holds := by
  have htask : s'.task = Function.update s.task k st := by
    funext j
    by_cases hj : j = k
    · subst hj
      rw [h.self, Function.update_self]
    · rw [h.other j hj, Function.update_of_ne hj]
  have hsum := holds_update hk s.task st
  simp only [State.holds, htask]
  calc _ = s'.shared.holds + s.shared.holds +
        (∑ j ∈ Finset.range numTasks, (Function.update s.task k st j).holds + (s.task k).holds) := by
        abel
    _ = _ := by
      rw [hsum]
      abel

theorem stepTask_ok (h : stepTask tag k pc s = .ok s') :
    ∃ pc', routineStep tag pc s.shared = .ok (pc', s'.shared) ∧ TaskSet s s' k (.running pc') ∧
      s'.activeWorkerList = s.activeWorkerList ∧ s'.master = s.master := by
  obtain ⟨⟨pc', sh'⟩, hr, h⟩ := bind_eq_ok.mp h
  cases h
  exact ⟨pc', hr, taskSet_of_eq rfl, rfl, rfl⟩

/-! ### One routine moves on -/

theorem Orderly.stepTask (h : Orderly s) (hk : s.task k = .running pc)
    (hs : Offline.stepTask tag k pc s = .ok s') : Orderly s' := by
  obtain ⟨pc', -, ht, hactive, hmaster⟩ := stepTask_ok hs
  refine ⟨?_, fun j hj => ?_, fun j hj => ?_, fun j hj => ?_, fun j hj => ?_⟩
  · exact hmaster ▸ h.taken_le
  · rw [hmaster] at hj
    have hne : j ≠ k := by
      rintro rfl
      simp [h.pending j hj] at hk
    exact (ht.other j hne).trans (h.pending j hj)
  · rw [hmaster] at hj
    by_cases hne : j = k
    · subst hne
      simp [ht.self]
    · exact (ht.other j hne).trans_ne (h.begun j hj)
  · rw [hmaster] at hj
    have hne : j ≠ k := by
      rintro rfl
      simp [h.starting j hj] at hk
    exact (ht.other j hne).trans (h.starting j hj)
  · rw [hactive, hmaster]
    by_cases hne : j = k
    · subst hne
      exact h.live j (by simp [hk, Status.IsLive])
    · exact h.live j (by rwa [← ht.other j hne])

theorem Conserved.consume (ho : Orderly s) (h : Conserved nodes s) (hk : s.task k = .running pc)
    (hc : pc.Consumes) (hr : routineStep tag pc s.shared = .ok (pc', s'.shared))
    (ht : TaskSet s s' k (.running pc')) : Conserved nodes s' := by
  obtain ⟨hc', hholds, hdone, hqueue, hcheck, hreturn⟩ := routineStep_consumer hc hr
  obtain ⟨rest, hun, htotal⟩ := h.total
  refine ⟨fun j q hj hq => ?_, fun j hj => ?_, fun j hj he => ?_, rest, ?_, ?_⟩
  · by_cases hne : j = k
    · subst hne
      cases ht.self.symm.trans hq
      exact hc'
    · exact h.consumes j q hj ((ht.other j hne).symm.trans hq)
  · by_cases hne : j = k
    · subst hne
      cases ht.self.symm.trans hj
      exact hcheck rfl
    · exact hdone.trans (h.checking j ((ht.other j hne).symm.trans hj))
  · by_cases hne : j = k
    · subst hne
      rw [ht.self] at he
      cases pc' with
      | returned =>
        obtain ⟨rfl, hq⟩ := hreturn rfl
        exact ⟨hdone.trans (h.checking j hk), hq⟩
      | _ => exact he.elim
    · rw [ht.other j hne] at he
      obtain ⟨hd, hq⟩ := h.ended j hj he
      exact ⟨hdone.trans hd, hqueue hq⟩
  · by_cases hne : 0 = k
    · subst hne
      rw [hk] at hun
      obtain ⟨hrest, hd⟩ := hun.of_consumes hc
      rw [ht.self]
      exact unproduced_of_consumes hc' ⟨hrest, hdone.trans hd⟩
    · rw [ht.other 0 hne, hdone]
      exact hun
  · have hset := ht.holds (ho.lt_numTasks (by simp [hk]))
    rw [hk] at hset
    have hsame : s'.holds = s.holds := by
      have hboth : s'.holds + (s.shared.holds + pc.holds) = s.holds + (s.shared.holds + pc.holds) := by
        calc _ = s'.holds + s.shared.holds + pc.holds := by rw [add_assoc]
          _ = s.holds + s'.shared.holds + pc'.holds := hset
          _ = _ := by rw [add_assoc, hholds]
      exact add_right_cancel hboth
    rw [hsame, htotal]

theorem Conserved.produce {inputStr : Text} (ho : Orderly s) (h : Conserved nodes s)
    (hk : s.task 0 = .running (.produce inputStr))
    (hr : routineStep tag (.produce inputStr) s.shared = .ok (pc', s'.shared))
    (ht : TaskSet s s' 0 (.running pc')) : Conserved nodes s' := by
  obtain ⟨rest, hun, htotal⟩ := h.total
  rw [hk] at hun
  obtain ⟨hready, hdone⟩ := hun
  have hset := ht.holds (ho.lt_numTasks (by simp [hk]))
  rw [hk] at hset
  have hended : ∀ j, j ≠ 0 → ¬(s'.task j).HasEnded := by
    intro j hj he
    rw [ht.other j hj] at he
    rw [(h.ended j hj he).1] at hdone
    cases hdone
  have hchecking : ∀ j, s'.task j ≠ .running .checkEmpty ∨ j = 0 := by
    intro j
    by_cases hj : j = 0
    · exact .inr hj
    · left
      intro he
      rw [ht.other j hj] at he
      rw [h.checking j he] at hdone
      cases hdone
  have hconsumes : ∀ j q, j ≠ 0 → s'.task j = .running q → q.Consumes := by
    intro j q hj hq
    exact h.consumes j q hj ((ht.other j hj).symm.trans hq)
  obtain ⟨rfl, rfl, hsh⟩ | ⟨n, ns', rest', rfl, rfl, hready', hsh⟩ := routineStep_producer hready hr
  · refine ⟨hconsumes, fun j hj => ?_, fun j hj he => absurd he (hended j hj), [], ?_, ?_⟩
    · rw [hsh]
    · rw [ht.self, hsh]
      exact ⟨rfl, rfl⟩
    · have hsame : s'.holds = s.holds := by
        rw [hsh] at hset
        simp only [Status.holds, Pc.holds, Shared.holds, add_zero] at hset
        exact add_right_cancel hset
      rw [hsame, htotal]
  · refine ⟨hconsumes, fun j hj => ?_, fun j hj he => absurd he (hended j hj), ns', ?_, ?_⟩
    · obtain hne | rfl := hchecking j
      · exact absurd hj hne
      · cases ht.self.symm.trans hj
    · rw [ht.self, hsh]
      exact ⟨hready', hdone⟩
    · have hput : s'.shared.holds = s.shared.holds + {n.obj} := by
        rw [hsh]
        simp only [Shared.holds, List.map_append, List.map_singleton, List.sum_append,
          List.sum_singleton, levelNodes_node]
        abel
      have hmore : s'.holds = s.holds + {n.obj} := by
        rw [hput] at hset
        simp only [Status.holds, Pc.holds, add_zero] at hset
        rw [add_comm s.shared.holds, ← add_assoc] at hset
        exact add_right_cancel hset
      rw [hmore, ← htotal]
      simp only [objs, List.map_cons, ← Multiset.cons_coe, ← Multiset.singleton_add]
      abel

theorem Conserved.stepTask (ho : Orderly s) (h : Conserved nodes s) (hk : s.task k = .running pc)
    (hs : Offline.stepTask tag k pc s = .ok s') : Conserved nodes s' := by
  obtain ⟨pc', hr, ht, -, -⟩ := stepTask_ok hs
  cases pc with
  | produce inputStr =>
    obtain rfl : k = 0 := by
      by_contra hne
      exact h.consumes k _ hne hk
    exact h.produce ho hk hr ht
  | head => exact h.consume ho hk trivial hr ht
  | checkEmpty => exact h.consume ho hk trivial hr ht
  | get => exact h.consume ho hk trivial hr ht
  | parse nodeStr => exact h.consume ho hk trivial hr ht
  | add levelNode => exact h.consume ho hk trivial hr ht
  | returned => cases hr

/-! ### A task changes its status -/

structure Quiet (nodes : List (LevelOneNode tag)) (s : State) (k : ℕ) (st : Status) : Prop where
  lt : k < numTasks
  old : (s.task k).holds = 0
  new : st.holds = 0
  consumes : ∀ pc, k ≠ 0 → st = .running pc → pc.Consumes
  checking : st ≠ .running .checkEmpty
  ended : k ≠ 0 → st.HasEnded → (s.task k).HasEnded
  unproduced : k = 0 → ∀ rest, Unproduced nodes rest s.shared.producerWorkDone (s.task 0) →
    Unproduced nodes rest s.shared.producerWorkDone st

theorem Conserved.quiet (h : Conserved nodes s) (hq : Quiet nodes s k st)
    (hsh : s'.shared = s.shared) (ht : TaskSet s s' k st) : Conserved nodes s' := by
  obtain ⟨rest, hun, htotal⟩ := h.total
  refine ⟨fun j q hj he => ?_, fun j hj => ?_, fun j hj he => ?_, rest, ?_, ?_⟩
  · by_cases hne : j = k
    · subst hne
      exact hq.consumes q hj (ht.self.symm.trans he)
    · exact h.consumes j q hj ((ht.other j hne).symm.trans he)
  · rw [hsh]
    by_cases hne : j = k
    · subst hne
      exact absurd (ht.self.symm.trans hj) hq.checking
    · exact h.checking j ((ht.other j hne).symm.trans hj)
  · rw [hsh]
    by_cases hne : j = k
    · subst hne
      exact h.ended j hj (hq.ended hj (ht.self ▸ he))
    · exact h.ended j hj (ht.other j hne ▸ he)
  · rw [hsh]
    by_cases hne : 0 = k
    · subst hne
      rw [ht.self]
      exact hq.unproduced rfl rest hun
    · rw [ht.other 0 hne]
      exact hun
  · have hset := ht.holds hq.lt
    rw [hq.old, hq.new, hsh, add_zero, add_zero] at hset
    rw [add_right_cancel hset, htotal]

theorem quiet_over (ho : Orderly s) (hk : s.task k = .running .returned) :
    Quiet nodes s k .joined where
  lt := ho.lt_numTasks (by simp [hk])
  old := by rw [hk]; rfl
  new := rfl
  consumes pc _ h := by cases h
  checking h := by cases h
  ended _ _ := by rw [hk]; trivial
  unproduced h0 rest hun := by
    subst h0
    rw [hk] at hun
    exact hun

theorem quiet_created (hlt : k < numTasks) (hk : s.task k = .unassigned) :
    Quiet nodes s k .created where
  lt := hlt
  old := by rw [hk]; rfl
  new := rfl
  consumes pc _ h := by cases h
  checking h := by cases h
  ended _ he := he.elim
  unproduced h0 rest hun := by
    subst h0
    rw [hk] at hun
    exact hun

theorem quiet_start (hl : Layout tag content nodes) (hlt : k < numTasks)
    (hk : s.task k = .unassigned ∨ s.task k = .created) :
    Quiet nodes s k (.running (startPc content k)) where
  lt := hlt
  old := by rcases hk with hk | hk <;> rw [hk] <;> rfl
  new := by
    unfold startPc
    split_ifs <;> rfl
  consumes pc hne h := by
    rw [startPc, if_neg hne] at h
    cases h
    trivial
  checking h := by
    unfold startPc at h
    split_ifs at h
    · cases h
    · cases h
  ended hne he := by
    rw [startPc, if_neg hne] at he
    exact he.elim
  unproduced h0 rest hun := by
    subst h0
    have hun : rest = nodes ∧ s.shared.producerWorkDone = false := by
      rcases hk with hk | hk
      · rwa [hk] at hun
      · rwa [hk] at hun
    obtain ⟨rfl, hdone⟩ := hun
    exact ⟨hl.ready, hdone⟩

theorem Orderly.set (h : Orderly s) (ht : TaskSet s s' k st) (hst : st ≠ .unassigned)
    (hle : s'.master.taken ≤ numTasks)
    (htaken : s'.master.taken = s.master.taken ∧ k < s.master.taken ∨
      s'.master.taken = s.master.taken + 1 ∧ k = s.master.taken)
    (hstart : ∀ j, s'.master = .start j → j = k ∧ st = .created ∨ j ≠ k ∧ s.task j = .created)
    (hlive : st.IsLive → k ∈ s'.activeWorkerList ∨ s'.master = .inline k)
    (hother : ∀ j ≠ k, (s.task j).IsLive → j ∈ s'.activeWorkerList ∨ s'.master = .inline j) :
    Orderly s' := by
  refine ⟨hle, fun j hj => ?_, fun j hj => ?_, fun j hj => ?_, fun j hj => ?_⟩
  · rw [ht.other j (by omega)]
    exact h.pending j (by omega)
  · by_cases hne : j = k
    · subst hne
      exact ht.self.trans_ne hst
    · exact (ht.other j hne).trans_ne (h.begun j (by omega))
  · obtain ⟨rfl, hc⟩ | ⟨hne, hc⟩ := hstart j hj
    · exact ht.self.trans hc
    · exact (ht.other j hne).trans hc
  · by_cases hne : j = k
    · subst hne
      exact hlive (ht.self ▸ hj)
    · exact hother j hne (ht.other j hne ▸ hj)

theorem Orderly.lt_taken (h : Orderly s) (hk : s.task k ≠ .unassigned) : k < s.master.taken := by
  by_contra hn
  exact hk (h.pending k (not_lt.mp hn))

theorem workerStep_keeps (ho : Orderly s) (h : Conserved nodes s)
    (hs : workerStep tag k s = .ok s') : Orderly s' ∧ Conserved nodes s' := by
  unfold workerStep at hs
  split_ifs at hs with hmem
  split at hs
  · next hk =>
    cases hs
    have ht : TaskSet s { s.setTask k .joined with
        activeWorkerList := s.activeWorkerList.erase k } k .joined := taskSet_of_eq rfl
    refine ⟨ho.set ht (by simp) ho.taken_le (.inl ⟨rfl, ho.lt_taken (by simp [hk])⟩) ?_
      (fun hl => hl.elim) ?_, h.quiet (quiet_over ho hk) rfl ht⟩
    · intro j hj
      right
      refine ⟨?_, ho.starting j hj⟩
      rintro rfl
      simp [ho.starting j hj] at hk
    · intro j hne hl
      exact (ho.live j hl).imp_left fun hm => (List.mem_erase_of_ne hne).mpr hm
  · next pc _ hk => exact ⟨ho.stepTask hk hs, h.stepTask ho hk hs⟩
  · cases hs

theorem Orderly.active (h : Orderly s) {j : ℕ} (hj : (s.task j).IsLive)
    (hm : s.master ≠ .inline j) : j ∈ s.activeWorkerList :=
  (h.live j hj).resolve_right hm

theorem Orderly.move (h : Orderly s) {m : Master} (htaken : m.taken = s.master.taken)
    (hinline : ∀ j, s.master ≠ .inline j) (hstart : ∀ j, m ≠ .start j) :
    Orderly { s with master := m } where
  taken_le := htaken.trans_le h.taken_le
  pending j hj := h.pending j (htaken ▸ hj)
  begun j hj := h.begun j (hj.trans_eq htaken)
  starting j hj := absurd hj (hstart j)
  live j hj := .inl (h.active hj (hinline j))

theorem Conserved.move (h : Conserved nodes s) (m : Master) :
    Conserved nodes { s with master := m } :=
  ⟨h.consumes, h.checking, h.ended, h.total⟩

theorem assign_keeps {maxWorkers : ℕ} (hl : Layout tag content nodes) (ho : Orderly s)
    (h : Conserved nodes s) (hm : s.master = .assign k)
    (hs : masterStep tag content maxWorkers s = .ok s') : Orderly s' ∧ Conserved nodes s' := by
  have htaken : s.master.taken = k := by rw [hm]; rfl
  have hk : s.task k = .unassigned := ho.pending k htaken.le
  have hactive : ∀ {j}, (s.task j).IsLive → j ∈ s.activeWorkerList :=
    fun hlive => ho.active hlive (by simp [hm])
  simp only [masterStep, hm] at hs
  split_ifs at hs with hall hfull
  · cases hs
    refine ⟨ho.move ?_ (by simp [hm]) (by simp), h.move _⟩
    rw [htaken, hall]
    rfl
  · cases hs
    have hlt : k < numTasks := lt_of_le_of_ne (htaken ▸ ho.taken_le) hall
    have ht : TaskSet s { s.setTask k (.running (startPc content k)) with master := .inline k } k
        (.running (startPc content k)) := taskSet_of_eq rfl
    refine ⟨ho.set ht (by simp) hlt (.inr ⟨by rw [htaken]; rfl, htaken.symm⟩) ?_
      (fun _ => .inr rfl) (fun j _ hlive => .inl (hactive hlive)),
      h.quiet (quiet_start hl hlt (.inl hk)) rfl ht⟩
    intro j hj
    cases hj
  · cases hs
    have hlt : k < numTasks := lt_of_le_of_ne (htaken ▸ ho.taken_le) hall
    have ht : TaskSet s { s.setTask k .created with
        activeWorkerList := s.activeWorkerList ++ [k], master := .start k } k .created :=
      taskSet_of_eq rfl
    refine ⟨ho.set ht (by simp) hlt (.inr ⟨by rw [htaken]; rfl, htaken.symm⟩) ?_
      (fun _ => .inl (by simp)) ?_, h.quiet (quiet_created hlt hk) rfl ht⟩
    · intro j hj
      cases hj
      exact .inl ⟨rfl, rfl⟩
    · intro j _ hlive
      exact .inl (List.mem_append_left _ (hactive hlive))

theorem start_keeps {maxWorkers : ℕ} (hl : Layout tag content nodes) (ho : Orderly s)
    (h : Conserved nodes s) (hm : s.master = .start k)
    (hs : masterStep tag content maxWorkers s = .ok s') : Orderly s' ∧ Conserved nodes s' := by
  simp only [masterStep, hm] at hs
  cases hs
  have htaken : s.master.taken = k + 1 := by rw [hm]; rfl
  have hk : s.task k = .created := ho.starting k hm
  have hlt : k < numTasks := ho.lt_numTasks (by simp [hk])
  have hactive : ∀ {j}, (s.task j).IsLive → j ∈ s.activeWorkerList :=
    fun hlive => ho.active hlive (by simp [hm])
  have ht : TaskSet s { s.setTask k (.running (startPc content k)) with
      master := .assign (k + 1) } k (.running (startPc content k)) := taskSet_of_eq rfl
  refine ⟨ho.set ht (by simp) hlt (.inl ⟨htaken.symm, by omega⟩) ?_ (fun _ => ?_)
    (fun j _ hlive => .inl (hactive hlive)), h.quiet (quiet_start hl hlt (.inr hk)) rfl ht⟩
  · intro j hj
    cases hj
  · exact .inl (hactive (by simp [hk, Status.IsLive]))

theorem inline_keeps {maxWorkers : ℕ} (ho : Orderly s) (h : Conserved nodes s)
    (hm : s.master = .inline k) (hs : masterStep tag content maxWorkers s = .ok s') :
    Orderly s' ∧ Conserved nodes s' := by
  have htaken : s.master.taken = k + 1 := by rw [hm]; rfl
  simp only [masterStep, hm] at hs
  split at hs
  · next hk =>
    cases hs
    have ht : TaskSet s { s.setTask k .joined with master := .assign (k + 1) } k .joined :=
      taskSet_of_eq rfl
    refine ⟨ho.set ht (by simp) (htaken ▸ ho.taken_le) (.inl ⟨htaken.symm, by omega⟩) ?_
      (fun hlive => hlive.elim) ?_, h.quiet (quiet_over ho hk) rfl ht⟩
    · intro j hj
      cases hj
    · intro j hne hlive
      refine .inl (ho.active hlive ?_)
      rw [hm]
      rintro ⟨⟩
      exact hne rfl
  · next pc _ hk => exact ⟨ho.stepTask hk hs, h.stepTask ho hk hs⟩
  · cases hs

theorem masterStep_keeps {maxWorkers : ℕ} (hl : Layout tag content nodes) (ho : Orderly s)
    (h : Conserved nodes s) (hs : masterStep tag content maxWorkers s = .ok s') :
    Orderly s' ∧ Conserved nodes s' := by
  cases hm : s.master with
  | assign k => exact assign_keeps hl ho h hm hs
  | start k => exact start_keeps hl ho h hm hs
  | inline k => exact inline_keeps ho h hm hs
  | finish =>
    simp only [masterStep, hm] at hs
    cases hs
    split_ifs with hempty
    · refine ⟨ho.move ?_ (by simp [hm]) (by simp), h.move _⟩
      rw [hm]
      rfl
    · exact ⟨ho, h⟩
  | returned =>
    simp only [masterStep, hm] at hs
    cases hs

theorem step_keeps {fileStr : Text} {maxWorkers : ℕ} (hl : Layout tag (stripHeader fileStr) nodes)
    (a : Actor) (s s' : State) (h : Orderly s ∧ Conserved nodes s)
    (hs : step tag fileStr maxWorkers a s = .ok s') : Orderly s' ∧ Conserved nodes s' := by
  cases a with
  | master => exact masterStep_keeps hl h.1 h.2 hs
  | worker k => exact workerStep_keeps h.1 h.2 hs

theorem Orderly.all_joined (h : Orderly s) (hm : s.master = .returned)
    (ha : s.activeWorkerList = []) (hk : k < numTasks) : s.task k = .joined := by
  have hbegun := h.begun k (by rw [hm]; exact hk)
  have hlive : ¬(s.task k).IsLive := by
    intro hl
    rcases h.live k hl with hmem | hin
    · simp [ha] at hmem
    · rw [hm] at hin
      cases hin
  cases hst : s.task k with
  | unassigned => exact absurd hst hbegun
  | created => simp [hst, Status.IsLive] at hlive
  | running pc => simp [hst, Status.IsLive] at hlive
  | joined => rfl

theorem step_idle {fileStr : Text} {maxWorkers : ℕ} (a : Actor) (s s' : State)
    (h : s.master = .returned → s.activeWorkerList = [])
    (hs : step tag fileStr maxWorkers a s = .ok s') :
    s'.master = .returned → s'.activeWorkerList = [] := by
  cases a with
  | worker k =>
    dsimp only [step, workerStep] at hs
    split_ifs at hs with hmem
    have hne : s.master ≠ .returned := by
      intro hm
      simp [h hm] at hmem
    split at hs
    · cases hs
      exact fun hm => absurd hm hne
    · obtain ⟨pc', -, -, -, hmaster⟩ := stepTask_ok hs
      exact fun hm => absurd (hmaster.symm.trans hm) hne
    · cases hs
  | master =>
    dsimp only [step, masterStep] at hs
    split at hs
    · split_ifs at hs
      · cases hs
        intro hm
        cases hm
      · cases hs
        intro hm
        cases hm
      · cases hs
        intro hm
        cases hm
    · cases hs
      intro hm
      cases hm
    · next k hk =>
      split at hs
      · cases hs
        intro hm
        cases hm
      · obtain ⟨pc', -, -, -, hmaster⟩ := stepTask_ok hs
        intro hm
        rw [hmaster, hk] at hm
        cases hm
      · cases hs
    · cases hs
      split_ifs with hempty
      · exact fun _ => hempty
      · exact h
    · cases hs

theorem Conserved.children (ho : Orderly s) (h : Conserved nodes s) (hm : s.master = .returned)
    (hidle : s.activeWorkerList = []) :
    s.shared.root.children.Perm (nodes.map LevelOneNode.obj) := by
  have hjoined : ∀ k < numTasks, s.task k = .joined := fun k hk => ho.all_joined hm hidle hk
  obtain ⟨-, hqueue⟩ := h.ended 1 one_ne_zero (by rw [hjoined 1 (by decide)]; trivial)
  obtain ⟨rest, hun, htotal⟩ := h.total
  rw [hjoined 0 (by decide)] at hun
  obtain ⟨rfl, -⟩ := hun
  have hheld : ∑ k ∈ Finset.range numTasks, (s.task k).holds = 0 :=
    Finset.sum_eq_zero fun k hk => by rw [hjoined k (Finset.mem_range.mp hk)]; rfl
  rw [State.holds, hheld, Shared.holds, hqueue] at htotal
  apply Multiset.coe_eq_coe.mp
  simpa [objs] using htotal

theorem returned_children {fileStr : Text} {maxWorkers : ℕ}
    (hl : Layout tag (stripHeader fileStr) nodes) {schedule : List Actor}
    (hrun : run (step tag fileStr maxWorkers) schedule {} = .ok s) (hm : s.master = .returned) :
    s.shared.root.children.Perm (nodes.map LevelOneNode.obj) := by
  obtain ⟨ho, h⟩ := run_keeps (step_keeps hl) ⟨orderly_init, conserved_init⟩ hrun
  exact h.children ho hm (run_keeps step_idle (by rintro ⟨⟩) hrun hm)

/-- For every interleaving and every number of workers: when the constructor returns, the
children of the virtual root are the level-one nodes of the input, each once. -/
theorem homoXmlParser_children (tag fileStr : Text) (nodes : List (LevelOneNode tag))
    (hl : Layout tag (stripHeader fileStr) nodes) (maxWorkers : ℕ) (schedule : List Actor)
    (s : State) (hrun : run (step tag fileStr maxWorkers) schedule {} = .ok s)
    (hm : s.master = .returned) :
    s.shared.root.children.Perm (nodes.map LevelOneNode.obj) :=
  returned_children hl hrun hm

def emptyNode : LevelOneNode ['m'] where
  text := ['<', 'm', '>', '<', '/', 'm', '>']
  obj := ⟨['m'], ∅, []⟩
  opens := by decide
  closes := by decide
  found := by decide
  parses := rfl

def sharedSchedule : List Actor :=
  [.master, .master, .master, .master, .worker 1, .worker 0, .worker 1, .worker 0, .worker 0,
    .master, .master, .master, .master, .master, .worker 1, .worker 1, .master, .master, .master,
    .master] ++ List.replicate 33 .master ++
    [.worker 1, .worker 1, .worker 1, .worker 0, .master]

def sharedEnd : State :=
  match run (step ['m'] (emptyNode.text ++ emptyNode.text) 2) sharedSchedule {} with
  | .ok s => s
  | .error _ => {}

theorem homoXmlParser_children_shared :
    run (step ['m'] (emptyNode.text ++ emptyNode.text) 2) sharedSchedule {} = .ok sharedEnd ∧
      sharedEnd.shared.root.children.Perm [emptyNode.obj, emptyNode.obj] := by
  have hrun : run (step ['m'] (emptyNode.text ++ emptyNode.text) 2) sharedSchedule {} =
      .ok sharedEnd := rfl
  have hstrip : stripHeader (emptyNode.text ++ emptyNode.text) =
      [] ++ (emptyNode.text ++ ([] ++ (emptyNode.text ++ []))) := by decide +kernel
  have hl : Layout ['m'] (stripHeader (emptyNode.text ++ emptyNode.text))
      [emptyNode, emptyNode] := by
    rw [hstrip]
    exact .cons (by simp) (.cons (by simp) (.nil (by simp)))
  exact ⟨hrun, homoXmlParser_children _ _ _ hl 2 sharedSchedule sharedEnd hrun rfl⟩

end Trace4J.Offline
