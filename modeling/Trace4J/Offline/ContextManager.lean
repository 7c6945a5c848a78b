import Mathlib.Data.Finset.Card
import Mathlib.Data.Finset.Image
import Mathlib.Data.List.AList
import Trace4J.Offline.Pftrace

/-!
# Contexts in the offline scripts

`Context` and `ContextManager` of `pylib/context.py`, and `load_context`. A context
element is the record of its attributes and of its `metrics` child. The dictionaries are
functions, so that two managers are equal when all their lookups agree. The order in
which the nodes arrive is that of the parser threads: `collected` says what the manager
holds after any nodes with distinct ids, whatever their order was.
-/

namespace Trace4J.Offline

structure MetricXml where
  event : Text
  measure : Text
  value : Option Text
deriving DecidableEq

structure ContextXml where
  id : Text
  methodId : Text
  methodVersion : Text
  binaryAddr : Text
  bci : Text
  parentId : Text
  metrics : Option (List MetricXml)
deriving DecidableEq

abbrev MetricsDict := AList fun _ : Text => Text

structure Context where
  id : Text
  methodVersion : Text
  binaryAddr : Text
  methodId : Text
  bci : Text
  metricsDict : MetricsDict
  parentId : Text
  childrenIds : Finset Text

def loadMetrics : List MetricXml → MetricsDict → MetricsDict
  | [], d => d
  | x :: xs, d =>
    match x.value with
    | none => d
    | some v => loadMetrics xs (d.insert (x.event ++ ':' :: x.measure) v)

def Context.ofXml (x : ContextXml) : Context where
  id := x.id
  methodVersion := x.methodVersion
  binaryAddr := x.binaryAddr
  methodId := x.methodId
  bci := x.bci
  metricsDict := loadMetrics (x.metrics.getD []) ∅
  parentId := x.parentId
  childrenIds := ∅

def Context.addChildId (c : Context) (id : Text) : Context :=
  { c with childrenIds := insert id c.childrenIds }

@[ext]
structure ContextManager where
  contextDict : Text → Option Context := fun _ => none
  rootSet : Finset Text := ∅
  parentRootDict : Text → Option (List Text) := fun _ => none

namespace ContextManager

/-- The roots that waited for `ctxt`; `set.remove` fails on a root that is not there. -/
def adopt : List Text → Finset Text → Context → Option (Finset Text × Context)
  | [], roots, ctxt => some (roots, ctxt)
  | r :: rs, roots, ctxt =>
    if r ∈ roots then adopt rs (roots.erase r) (ctxt.addChildId r) else none

/-- The link to the parent, or a place among the roots until the parent comes. -/
def findParent (mgr : ContextManager) (id parentId : Text) : ContextManager :=
  match mgr.contextDict parentId with
  | some parent =>
    { mgr with contextDict :=
        Function.update mgr.contextDict parentId (some (parent.addChildId id)) }
  | none =>
    { mgr with
      rootSet := insert id mgr.rootSet
      parentRootDict := Function.update mgr.parentRootDict parentId
        (some ((mgr.parentRootDict parentId).getD [] ++ [id])) }

def addContext (mgr : ContextManager) (ctxt : Context) : Option ContextManager :=
  if ctxt.parentId = [] then none
  else if ctxt.id = ['0'] ∧ (mgr.contextDict ctxt.id).isSome then some mgr
  else
    (adopt ((mgr.parentRootDict ctxt.id).getD []) mgr.rootSet ctxt).map fun r =>
      findParent
        { contextDict := Function.update mgr.contextDict ctxt.id (some r.2)
          rootSet := r.1
          parentRootDict := Function.update mgr.parentRootDict ctxt.id none }
        ctxt.id ctxt.parentId

def addContexts (mgr : ContextManager) (ctxts : List Context) : Option ContextManager :=
  ctxts.foldlM addContext mgr

end ContextManager

def loadContext (contextRoot : List ContextXml) : Option ContextManager := do
  let mgr ← ({} : ContextManager).addContexts (contextRoot.map Context.ofXml)
  if mgr.rootSet.card = 1 then some mgr else none

/-! ## What the manager holds -/

section Collected
variable (nodes : List Context)

def ids : List Text := nodes.map Context.id

def childrenOf (id : Text) : List Text := ids (nodes.filter fun c => c.parentId = id)

def rootsOf : List Text := ids (nodes.filter fun c => c.parentId ∉ ids nodes)

def withChildren (c : Context) : Context :=
  { c with childrenIds := (childrenOf nodes c.id).toFinset }

def collected : ContextManager where
  contextDict id := (nodes.find? fun c => c.id = id).map (withChildren nodes)
  rootSet := (rootsOf nodes).toFinset
  parentRootDict p :=
    if p ∈ ids nodes ∨ childrenOf nodes p = [] then none else some (childrenOf nodes p)

end Collected

variable {nodes : List Context} {c : Context} {id p : Text}

theorem mem_ids : id ∈ ids nodes ↔ ∃ c ∈ nodes, c.id = id := List.mem_map

theorem mem_childrenOf : id ∈ childrenOf nodes p ↔ ∃ c ∈ nodes, c.parentId = p ∧ c.id = id := by
  simp only [childrenOf, mem_ids, List.mem_filter, decide_eq_true_eq, and_assoc]

theorem mem_rootsOf :
    id ∈ rootsOf nodes ↔ ∃ c ∈ nodes, c.parentId ∉ ids nodes ∧ c.id = id := by
  simp only [rootsOf, mem_ids, List.mem_filter, decide_eq_true_eq, and_assoc]

theorem childrenOf_append (more : List Context) :
    childrenOf (nodes ++ more) p = childrenOf nodes p ++ childrenOf more p := by
  simp [childrenOf, ids]

theorem childrenOf_singleton : childrenOf [c] p = if c.parentId = p then [c.id] else [] := by
  by_cases h : c.parentId = p <;> simp [childrenOf, ids, h]

theorem find?_id_isSome : (nodes.find? fun c => c.id = id).isSome ↔ id ∈ ids nodes := by
  simp [mem_ids]

theorem find?_id_eq_none : (nodes.find? fun c => c.id = id) = none ↔ id ∉ ids nodes := by
  simp [mem_ids]

theorem childrenOf_nodup (h : (ids nodes).Nodup) : (childrenOf nodes p).Nodup :=
  h.sublist (List.filter_sublist.map _)

theorem find?_of_mem (h : (ids nodes).Nodup) (hc : c ∈ nodes) :
    (nodes.find? fun d => d.id = c.id) = some c := by
  obtain ⟨d, hd⟩ := Option.isSome_iff_exists.mp (find?_id_isSome.mpr (mem_ids.mpr ⟨c, hc, rfl⟩))
  have hid : d.id = c.id := by simpa using List.find?_some hd
  rw [hd, List.inj_on_of_nodup_map h (List.mem_of_find?_eq_some hd) hc hid]

theorem contextDict_collected (h : (ids nodes).Nodup) (hc : c ∈ nodes) :
    (collected nodes).contextDict c.id = some (withChildren nodes c) := by
  simp [collected, find?_of_mem h hc]

theorem ids_append_singleton : id ∈ ids (nodes ++ [c]) ↔ id ∈ ids nodes ∨ id = c.id := by
  simp [ids]

theorem withChildren_append (d : Context) :
    withChildren (nodes ++ [c]) d =
      if d.id = c.parentId then (withChildren nodes d).addChildId c.id
      else withChildren nodes d := by
  simp only [withChildren, Context.addChildId, childrenOf_append, childrenOf_singleton, eq_comm]
  split_ifs <;> simp

theorem rootsOf_append (hnodup : (ids nodes).Nodup) :
    (rootsOf (nodes ++ [c])).toFinset =
      if c.parentId ∈ ids (nodes ++ [c]) then
        (rootsOf nodes).toFinset \ (childrenOf nodes c.id).toFinset
      else insert c.id ((rootsOf nodes).toFinset \ (childrenOf nodes c.id).toFinset) := by
  have hold : ∀ x, (∃ d ∈ nodes, d.parentId ∉ ids (nodes ++ [c]) ∧ d.id = x) ↔
      x ∈ rootsOf nodes ∧ x ∉ childrenOf nodes c.id := by
    intro x
    rw [mem_rootsOf, mem_childrenOf]
    simp only [ids_append_singleton]
    constructor
    · rintro ⟨d, hd, hroot, rfl⟩
      refine ⟨⟨d, hd, fun h => hroot (.inl h), rfl⟩, ?_⟩
      rintro ⟨e, he, hep, hid⟩
      obtain rfl := List.inj_on_of_nodup_map hnodup he hd hid
      exact hroot (.inr hep)
    · rintro ⟨⟨d, hd, hroot, rfl⟩, hchild⟩
      refine ⟨d, hd, ?_, rfl⟩
      rintro (h | h)
      · exact hroot h
      · exact hchild ⟨d, hd, h, rfl⟩
  ext x
  rw [List.mem_toFinset, mem_rootsOf]
  have hsplit : (∃ d ∈ nodes ++ [c], d.parentId ∉ ids (nodes ++ [c]) ∧ d.id = x) ↔
      (x ∈ rootsOf nodes ∧ x ∉ childrenOf nodes c.id) ∨
        (c.parentId ∉ ids (nodes ++ [c]) ∧ c.id = x) := by
    rw [← hold x]
    simp only [List.mem_append, List.mem_singleton, or_and_right, exists_or, exists_eq_left]
  rw [hsplit]
  split_ifs with hparent
  · simp [hparent]
  · simp only [hparent, Finset.mem_insert, Finset.mem_sdiff, List.mem_toFinset]
    tauto

namespace ContextManager

theorem adopt_eq (rs : List Text) (roots : Finset Text) (c : Context) (hsub : rs.toFinset ⊆ roots)
    (hnodup : rs.Nodup) :
    adopt rs roots c =
      some (roots \ rs.toFinset, { c with childrenIds := c.childrenIds ∪ rs.toFinset }) := by
  induction rs generalizing roots c with
  | nil => simp [adopt]
  | cons r rs ih =>
    obtain ⟨hr, hrs⟩ := List.nodup_cons.mp hnodup
    rw [List.toFinset_cons, Finset.insert_subset_iff] at hsub
    have hsub' : rs.toFinset ⊆ roots.erase r := by
      intro x hx
      refine Finset.mem_erase.mpr ⟨?_, hsub.2 hx⟩
      rintro rfl
      exact hr (List.mem_toFinset.mp hx)
    rw [adopt, if_pos hsub.1, ih _ _ hsub' hrs, List.toFinset_cons]
    refine congrArg some (Prod.ext ?_ ?_)
    · ext x
      simp only [Finset.mem_sdiff, Finset.mem_erase, Finset.mem_insert]
      tauto
    · simp only [Context.addChildId, Context.mk.injEq, true_and]
      ext x
      simp only [Finset.mem_union, Finset.mem_insert]
      tauto

variable {mgr : ContextManager}

theorem findParent_of_some {q : Context} (h : mgr.contextDict p = some q) :
    mgr.findParent id p = { mgr with
      contextDict := Function.update mgr.contextDict p (some (q.addChildId id)) } := by
  simp only [findParent, h]

theorem findParent_of_none (h : mgr.contextDict p = none) :
    mgr.findParent id p = { mgr with
      rootSet := insert id mgr.rootSet
      parentRootDict := Function.update mgr.parentRootDict p
        (some ((mgr.parentRootDict p).getD [] ++ [id])) } := by
  simp only [findParent, h]

theorem update_contextDict (hfresh : c.childrenIds = ∅) (hnew : c.id ∉ ids nodes) :
    Function.update (collected nodes).contextDict c.id
        (some { c with childrenIds := c.childrenIds ∪ (childrenOf nodes c.id).toFinset }) =
      fun i => ((nodes ++ [c]).find? fun d => d.id = i).map (withChildren nodes) := by
  funext i
  rw [List.find?_append]
  by_cases hi : i = c.id
  · subst hi
    simp [find?_id_eq_none.mpr hnew, withChildren, hfresh]
  · rw [Function.update_of_ne hi]
    simp [collected, Ne.symm hi]

theorem addContext_linked (hnodup : (ids nodes).Nodup) (hin : c.parentId ∈ ids (nodes ++ [c])) :
    findParent
        { contextDict i := ((nodes ++ [c]).find? fun d => d.id = i).map (withChildren nodes)
          rootSet := (collected nodes).rootSet \ (childrenOf nodes c.id).toFinset
          parentRootDict := Function.update (collected nodes).parentRootDict c.id none }
        c.id c.parentId = collected (nodes ++ [c]) := by
  obtain ⟨q, hq⟩ := Option.isSome_iff_exists.mp (find?_id_isSome.mpr hin)
  have hqid : q.id = c.parentId := by simpa using List.find?_some hq
  rw [findParent_of_some (q := withChildren nodes q) (by simp only [hq, Option.map_some])]
  refine ContextManager.ext ?_ ?_ ?_
  · funext i
    by_cases hi : i = c.parentId
    · subst hi
      simp only [Function.update_self, collected, hq, Option.map_some, withChildren_append, hqid,
        if_true]
    · simp only [Function.update_of_ne hi, collected]
      cases hd : (nodes ++ [c]).find? fun d => d.id = i with
      | none => rfl
      | some d =>
        have hdid : d.id = i := by simpa using List.find?_some hd
        simp only [Option.map_some, withChildren_append, hdid, if_neg hi]
  · simp only [collected, rootsOf_append hnodup, if_pos hin]
  · funext i
    by_cases hi : i = c.id
    · subst hi
      simp [collected, ids_append_singleton]
    · have hkids : c.parentId = i → i ∈ ids nodes := by
        rintro rfl
        exact (ids_append_singleton.mp hin).resolve_right hi
      simp only [Function.update_of_ne hi, collected, ids_append_singleton, hi, or_false,
        childrenOf_append, childrenOf_singleton]
      by_cases hp : c.parentId = i
      · simp only [hkids hp, true_or, if_true]
      · simp only [hp, if_false, List.append_nil]

theorem addContext_waiting (hnodup : (ids nodes).Nodup) (hout : c.parentId ∉ ids (nodes ++ [c])) :
    findParent
        { contextDict i := ((nodes ++ [c]).find? fun d => d.id = i).map (withChildren nodes)
          rootSet := (collected nodes).rootSet \ (childrenOf nodes c.id).toFinset
          parentRootDict := Function.update (collected nodes).parentRootDict c.id none }
        c.id c.parentId = collected (nodes ++ [c]) := by
  have hne : c.parentId ≠ c.id := fun h => hout (ids_append_singleton.mpr (.inr h))
  have hold : c.parentId ∉ ids nodes := fun h => hout (ids_append_singleton.mpr (.inl h))
  rw [findParent_of_none (by simp only [find?_id_eq_none.mpr hout, Option.map_none])]
  refine ContextManager.ext ?_ ?_ ?_
  · funext i
    simp only [collected]
    cases hd : (nodes ++ [c]).find? fun d => d.id = i with
    | none => rfl
    | some d =>
      have hdne : d.id ≠ c.parentId := fun h =>
        hout (mem_ids.mpr ⟨d, List.mem_of_find?_eq_some hd, h⟩)
      simp only [Option.map_some, withChildren_append, if_neg hdne]
  · simp only [collected, rootsOf_append hnodup, if_neg hout]
  · funext i
    simp only [Function.update_of_ne hne]
    by_cases hi : i = c.parentId
    · subst hi
      by_cases hnil : childrenOf nodes c.parentId = [] <;>
        simp [collected, hout, hold, hnil, childrenOf_append, childrenOf_singleton]
    · rw [Function.update_of_ne hi]
      by_cases hic : i = c.id
      · subst hic
        simp [collected, ids_append_singleton]
      · simp [collected, ids_append_singleton, hic, childrenOf_append,
          childrenOf_singleton, Ne.symm hi]

theorem addContext_collected (hnodup : (ids nodes).Nodup) (hparent : c.parentId ≠ [])
    (hfresh : c.childrenIds = ∅) (hnew : c.id ∉ ids nodes) :
    (collected nodes).addContext c = some (collected (nodes ++ [c])) := by
  have hdict : (collected nodes).contextDict c.id = none := by
    simp [collected, find?_id_eq_none.mpr hnew]
  have hpending : ((collected nodes).parentRootDict c.id).getD [] = childrenOf nodes c.id := by
    by_cases hnil : childrenOf nodes c.id = [] <;> simp [collected, hnew, hnil]
  have hwaiting : (childrenOf nodes c.id).toFinset ⊆ (collected nodes).rootSet := by
    intro x hx
    obtain ⟨d, hd, hdp, hdx⟩ := mem_childrenOf.mp (List.mem_toFinset.mp hx)
    exact List.mem_toFinset.mpr (mem_rootsOf.mpr ⟨d, hd, hdp ▸ hnew, hdx⟩)
  rw [addContext, if_neg hparent, if_neg (by simp [hdict]), hpending,
    adopt_eq _ _ _ hwaiting (childrenOf_nodup hnodup), Option.map_some,
    update_contextDict hfresh hnew]
  by_cases hin : c.parentId ∈ ids (nodes ++ [c])
  · exact congrArg some (addContext_linked hnodup hin)
  · exact congrArg some (addContext_waiting hnodup hin)

theorem collected_nil : collected [] = {} := rfl

theorem addContexts_append (mgr : ContextManager) (first second : List Context) :
    mgr.addContexts (first ++ second) =
      (mgr.addContexts first).bind fun mgr' => mgr'.addContexts second := by
  simp only [addContexts, List.foldlM_append]
  rfl

structure Fresh (c : Context) : Prop where
  parentId : c.parentId ≠ []
  childrenIds : c.childrenIds = ∅

theorem addContexts_collected (nodes more : List Context) (hnodup : (ids (nodes ++ more)).Nodup)
    (hfresh : ∀ c ∈ more, Fresh c) :
    (collected nodes).addContexts more = some (collected (nodes ++ more)) := by
  induction more generalizing nodes with
  | nil => simp [addContexts]
  | cons c more ih =>
    obtain ⟨hc, hmore⟩ := List.forall_mem_cons.mp hfresh
    have hsplit : (ids nodes ++ c.id :: ids more).Nodup := by
      simpa [ids] using hnodup
    have hnew : c.id ∉ ids nodes := by
      intro hmem
      exact List.nodup_append.mp hsplit |>.2.2 _ hmem _ List.mem_cons_self rfl
    have hstep := addContext_collected (List.nodup_append.mp hsplit).1 hc.parentId hc.childrenIds hnew
    have hassoc : nodes ++ c :: more = nodes ++ [c] ++ more := by simp
    rw [addContexts, List.foldlM_cons, hstep]
    rw [hassoc] at hnodup ⊢
    exact ih _ hnodup hmore

end ContextManager

/-! ## A tree in any order -/

def noParent : Text := ['-', '1']

structure IsTree (nodes : List Context) (root : Context) : Prop where
  nodup : (ids nodes).Nodup
  named : ∀ c ∈ nodes, c.id ≠ []
  fresh : ∀ c ∈ nodes, c.childrenIds = ∅
  root_mem : root ∈ nodes
  root_parent : root.parentId = noParent
  absent : noParent ∉ ids nodes
  parent : ∀ c ∈ nodes, c ≠ root → c.parentId ∈ ids nodes

/-- The manager of a tree: one root, nothing pending but its own entry, and the children
of every node. -/
def treeManager (nodes : List Context) (root : Context) : ContextManager where
  contextDict id := (nodes.find? fun c => c.id = id).map (withChildren nodes)
  rootSet := {root.id}
  parentRootDict p := if p = noParent then some [root.id] else none

theorem find?_perm {order : List Context} (hnodup : (ids nodes).Nodup) (hperm : order.Perm nodes) :
    (order.find? fun c => c.id = id) = nodes.find? fun c => c.id = id := by
  have hids : (ids order).Perm (ids nodes) := hperm.map _
  cases hd : nodes.find? fun c => c.id = id with
  | none =>
    rw [find?_id_eq_none] at hd ⊢
    rwa [hids.mem_iff]
  | some d =>
    have hid : d.id = id := by simpa using List.find?_some hd
    rw [← hid]
    exact find?_of_mem (hids.nodup_iff.mpr hnodup)
      (hperm.mem_iff.mpr (List.mem_of_find?_eq_some hd))

theorem childrenOf_perm {order : List Context} (hperm : order.Perm nodes) :
    (childrenOf order p).Perm (childrenOf nodes p) :=
  (hperm.filter _).map _

theorem withChildren_perm {order : List Context} (hperm : order.Perm nodes) :
    withChildren order = withChildren nodes := by
  funext c
  simp only [withChildren, List.toFinset_eq_of_perm _ _ (childrenOf_perm hperm)]

namespace IsTree
variable {root : Context} {order : List Context}

theorem freshNodes (h : IsTree nodes root) (hc : c ∈ nodes) : ContextManager.Fresh c := by
  refine ⟨?_, h.fresh c hc⟩
  by_cases hroot : c = root
  · rw [hroot, h.root_parent]
    exact List.cons_ne_nil _ _
  · obtain ⟨q, hq, hid⟩ := mem_ids.mp (h.parent c hc hroot)
    exact hid ▸ h.named q hq

theorem perm (h : IsTree nodes root) (hperm : order.Perm nodes) : IsTree order root := by
  have hids : (ids order).Perm (ids nodes) := hperm.map _
  refine ⟨hids.nodup_iff.mpr h.nodup, ?_, ?_, hperm.mem_iff.mpr h.root_mem, h.root_parent, ?_, ?_⟩
  · exact fun c hc => h.named c (hperm.mem_iff.mp hc)
  · exact fun c hc => h.fresh c (hperm.mem_iff.mp hc)
  · rw [hids.mem_iff]
    exact h.absent
  · intro c hc hne
    rw [hids.mem_iff]
    exact h.parent c (hperm.mem_iff.mp hc) hne

theorem root_unique (h : IsTree nodes root) (hc : c ∈ nodes) :
    c.parentId ∉ ids nodes ↔ c = root := by
  constructor
  · intro hout
    by_contra hne
    exact hout (h.parent c hc hne)
  · rintro rfl
    rw [h.root_parent]
    exact h.absent

theorem nodup_nodes (h : IsTree nodes root) : nodes.Nodup := h.nodup.of_map

theorem filter_eq_root {P : Context → Prop} [DecidablePred P] (h : IsTree nodes root)
    (hP : ∀ c ∈ nodes, P c ↔ c = root) : ids (nodes.filter fun c => P c) = [root.id] := by
  have hperm : (nodes.filter fun c => P c).Perm [root] := by
    rw [List.perm_ext_iff_of_nodup (h.nodup_nodes.filter _) (List.nodup_singleton _)]
    intro c
    simp only [List.mem_filter, decide_eq_true_eq, List.mem_singleton]
    constructor
    · rintro ⟨hc, hPc⟩
      exact (hP c hc).mp hPc
    · rintro rfl
      exact ⟨h.root_mem, (hP c h.root_mem).mpr rfl⟩
  rw [ids, List.perm_singleton.mp hperm, List.map_singleton]

theorem collected_eq (h : IsTree nodes root) : collected nodes = treeManager nodes root := by
  refine ContextManager.ext rfl ?_ ?_
  · have hroots : rootsOf nodes = [root.id] :=
      h.filter_eq_root (P := fun c => c.parentId ∉ ids nodes) fun c hc => h.root_unique hc
    simp [collected, treeManager, hroots]
  · funext p
    by_cases hp : p = noParent
    · subst hp
      have hkids : childrenOf nodes noParent = [root.id] := by
        refine h.filter_eq_root (P := fun c => c.parentId = noParent) fun c hc => ?_
        rw [← h.root_unique hc]
        constructor
        · intro heq
          rw [heq]
          exact h.absent
        · intro hout
          rw [(h.root_unique hc).mp hout, h.root_parent]
      simp [collected, treeManager, h.absent, hkids]
    · simp only [collected, treeManager, if_neg hp, ite_eq_left_iff, reduceCtorEq, imp_false,
        not_not]
      by_contra hcase
      obtain ⟨hout, hkids⟩ := not_or.mp hcase
      obtain ⟨id, hid⟩ := List.exists_mem_of_ne_nil _ hkids
      obtain ⟨c, hc, rfl, -⟩ := mem_childrenOf.mp hid
      obtain rfl := (h.root_unique hc).mp hout
      exact hp h.root_parent

theorem addContexts (h : IsTree nodes root) :
    ({} : ContextManager).addContexts nodes = some (treeManager nodes root) := by
  have hload := ContextManager.addContexts_collected [] nodes h.nodup
    fun c hc => h.freshNodes hc
  rw [← ContextManager.collected_nil, hload, List.nil_append, h.collected_eq]

theorem treeManager_perm (h : IsTree nodes root) (hperm : order.Perm nodes) :
    treeManager order root = treeManager nodes root := by
  refine ContextManager.ext ?_ rfl rfl
  funext id
  simp only [treeManager, find?_perm h.nodup hperm, withChildren_perm hperm]

end IsTree

/-- Whatever the order in which the nodes of a tree come, the manager is the same. -/
theorem addContexts_order_free (nodes : List Context) (root : Context) (h : IsTree nodes root)
    (order : List Context) (hperm : order.Perm nodes) :
    ({} : ContextManager).addContexts order = some (treeManager nodes root) := by
  rw [(h.perm hperm).addContexts, h.treeManager_perm hperm]

def bareContext (id parentId : Text) : Context := ⟨id, ['0'], ['0'], ['0'], ['0'], ∅, parentId, ∅⟩

theorem addContexts_rootLast :
    let root := bareContext ['0'] noParent
    let left := bareContext ['1'] ['0']
    let right := bareContext ['2'] ['0']
    let below := bareContext ['3'] ['1']
    ({} : ContextManager).addContexts [below, right, left, root] =
      some (treeManager [root, left, right, below] root) := by
  intro root left right below
  have htree : IsTree [root, left, right, below] root := by
    refine ⟨by decide, by decide, by decide, List.mem_cons_self, rfl, by decide, ?_⟩
    intro c hc hne
    simp only [List.mem_cons, List.not_mem_nil, or_false] at hc
    obtain rfl | rfl | rfl | rfl := hc
    · exact absurd rfl hne
    all_goals decide
  have hperm : [below, right, left, root].Perm [root, left, right, below] :=
    List.reverse_perm [root, left, right, below]
  exact addContexts_order_free _ root htree _ hperm

end Trace4J.Offline
