import Trace4J.Offline.ContextManager

/-!
# Two dumps under one thread id

`parallel1` puts the contexts of all files of a thread id under one root, one file after the
other, each in the order in which its parser threads finished. When two threads had the same
id their trees are loaded into one manager. Ids start at 0 in every thread, so a context that
comes later replaces one of the other tree with its id: `overlaid` says what the manager holds
after a whole tree and any further nodes.
-/

namespace Trace4J.Offline

def rootId : Text := ['0']

instance decidableMemIds (id : Text) (nodes : List Context) : Decidable (id ∈ ids nodes) :=
  decidable_of_iff (∃ c ∈ nodes, c.id = id) mem_ids.symm

def after (id : Text) : List Context → List Context
  | [] => []
  | c :: cs => if c.id = id then cs else after id cs

/-- The children that a later node has got. What waited for its id is adopted; with a node of
the first tree in its place nothing waited, and what that one had got is gone. -/
def laterChildren (a done : List Context) (id : Text) : List Text :=
  childrenOf (if id ∈ ids a then after id done else done) id

def entry (a done : List Context) (id : Text) : Option Context :=
  match done.find? fun d => d.id = id with
  | some d => some { d with childrenIds := (laterChildren a done id).toFinset }
  | none => (a.find? fun c => c.id = id).map (withChildren (a ++ done))

def waiting (a done : List Context) : List Text :=
  ids (done.filter fun d => d.parentId ∉ ids (a ++ done))

def overlaid (a done : List Context) : ContextManager where
  contextDict := entry a done
  rootSet := insert rootId (waiting a done).toFinset
  parentRootDict p :=
    if p = noParent then some [rootId]
    else if p ∈ ids (a ++ done) ∨ childrenOf done p = [] then none
    else some (childrenOf done p)

structure Lower (d : Context) : Prop where
  fresh : ContextManager.Fresh d
  notRoot : d.id ≠ rootId
  named : d.id ≠ noParent
  parent : d.parentId ≠ noParent
  parent_ne : d.parentId ≠ d.id

structure Later (done : List Context) (d : Context) : Prop extends Lower d where
  new : d.id ∉ ids done

section Overlay
variable {a done : List Context} {c d : Context} {id p : Text}

theorem after_append_of_mem (h : id ∈ ids done) (d : Context) :
    after id (done ++ [d]) = after id done ++ [d] := by
  induction done with
  | nil => cases h
  | cons c done ih =>
    rw [List.cons_append, after, after]
    split_ifs with hc
    · rfl
    · apply ih
      obtain h | h := List.mem_cons.mp h
      · exact absurd h.symm hc
      · exact h

theorem after_append_new (h : d.id ∉ ids done) : after d.id (done ++ [d]) = [] := by
  induction done with
  | nil => simp [after]
  | cons c done ih =>
    rw [ids, List.map_cons, List.mem_cons, not_or] at h
    rw [List.cons_append, after, if_neg (Ne.symm h.1), ih h.2]

theorem mem_ids_append : id ∈ ids (a ++ done) ↔ id ∈ ids a ∨ id ∈ ids done := by
  simp [ids]

theorem entry_isSome : (entry a done id).isSome ↔ id ∈ ids (a ++ done) := by
  rw [entry, mem_ids_append]
  cases hd : done.find? fun d => d.id = id with
  | some d =>
    have hmem : id ∈ ids done := find?_id_isSome.mp (by rw [hd]; rfl)
    simp [hmem]
  | none => simp [find?_id_eq_none.mp hd, mem_ids]

theorem entry_append_self (h : Later done d) : entry a (done ++ [d]) d.id =
    some { d with childrenIds :=
      (if d.id ∈ ids a then [] else childrenOf done d.id).toFinset } := by
  have hfind : ((done ++ [d]).find? fun e => e.id = d.id) = some d := by
    simp [List.find?_append, find?_id_eq_none.mpr h.new]
  rw [entry, hfind]
  simp only [laterChildren]
  split_ifs with ha
  · rw [after_append_new h.new]
    rfl
  · rw [childrenOf_append, childrenOf_singleton, if_neg h.parent_ne, List.append_nil]

theorem laterChildren_append (h : id ∈ ids done) (d : Context) :
    laterChildren a (done ++ [d]) id =
      laterChildren a done id ++ if d.parentId = id then [d.id] else [] := by
  simp only [laterChildren]
  split_ifs with ha hp hp <;>
    simp [after_append_of_mem h, childrenOf_append, childrenOf_singleton, hp]

theorem entry_append_of_ne (h : id ≠ d.id) : entry a (done ++ [d]) id =
    (entry a done id).map fun c => if id = d.parentId then c.addChildId d.id else c := by
  have hfind : ((done ++ [d]).find? fun e => e.id = id) = done.find? fun e => e.id = id := by
    simp [List.find?_append, Ne.symm h]
  rw [entry, entry, hfind]
  cases hd : done.find? fun e => e.id = id with
  | some e =>
    have hmem : id ∈ ids done := find?_id_isSome.mp (by rw [hd]; rfl)
    simp only [laterChildren_append hmem, Option.map_some, eq_comm, Option.some.injEq]
    split_ifs with hp
    · simp [Context.addChildId, Finset.union_comm]
    · simp
  | none =>
    cases hc : a.find? fun c => c.id = id with
    | none => rfl
    | some c =>
      have hid : c.id = id := by simpa using List.find?_some hc
      simp only [Option.map_some, ← List.append_assoc, withChildren_append, hid]

theorem entry_id (h : entry a done id = some c) : c.id = id := by
  rw [entry] at h
  cases hd : done.find? fun d => d.id = id with
  | some d =>
    rw [hd] at h
    obtain rfl := Option.some.inj h
    simpa using List.find?_some hd
  | none =>
    rw [hd] at h
    obtain ⟨e, he, rfl⟩ := Option.map_eq_some_iff.mp h
    have hid : e.id = id := by simpa using List.find?_some he
    exact hid

/-! ### One more node -/

theorem mem_waiting :
    id ∈ waiting a done ↔ ∃ e ∈ done, e.parentId ∉ ids (a ++ done) ∧ e.id = id := by
  simp only [waiting, mem_ids, List.mem_filter, decide_eq_true_eq, and_assoc]

def adopted (a done : List Context) (d : Context) : List Text :=
  if d.id ∈ ids a then [] else childrenOf done d.id

theorem mem_adopted :
    id ∈ adopted a done d ↔ d.id ∉ ids a ∧ ∃ e ∈ done, e.parentId = d.id ∧ e.id = id := by
  rw [adopted]
  split_ifs with h
  · simp [h]
  · simp [h, mem_childrenOf]

theorem adopted_nodup (h : (ids done).Nodup) : (adopted a done d).Nodup := by
  rw [adopted]
  split_ifs
  · exact List.nodup_nil
  · exact childrenOf_nodup h

theorem adopted_waiting (h : Later done d) (hid : id ∈ adopted a done d) : id ∈ waiting a done := by
  obtain ⟨ha, e, he, hparent, rfl⟩ := mem_adopted.mp hid
  refine mem_waiting.mpr ⟨e, he, ?_, rfl⟩
  rw [hparent, mem_ids_append]
  exact not_or.mpr ⟨ha, h.new⟩

theorem waiting_append (hnodup : (ids done).Nodup) (h : Later done d) :
    (waiting a (done ++ [d])).toFinset =
      if d.parentId ∈ ids (a ++ done) then (waiting a done).toFinset \ (adopted a done d).toFinset
      else insert d.id ((waiting a done).toFinset \ (adopted a done d).toFinset) := by
  have hids : ∀ x, x ∈ ids (a ++ (done ++ [d])) ↔ x ∈ ids (a ++ done) ∨ x = d.id := by
    intro x
    rw [← List.append_assoc, ids_append_singleton]
  have hold : ∀ x, (∃ e ∈ done, e.parentId ∉ ids (a ++ (done ++ [d])) ∧ e.id = x) ↔
      x ∈ waiting a done ∧ x ∉ adopted a done d := by
    intro x
    rw [mem_waiting, mem_adopted]
    simp only [hids]
    constructor
    · rintro ⟨e, he, hparent, rfl⟩
      obtain ⟨hout, hne⟩ := not_or.mp hparent
      refine ⟨⟨e, he, hout, rfl⟩, ?_⟩
      rintro ⟨-, e', he', hparent', hid⟩
      obtain rfl := List.inj_on_of_nodup_map hnodup he' he hid
      exact hne hparent'
    · rintro ⟨⟨e, he, hout, rfl⟩, hnot⟩
      refine ⟨e, he, not_or.mpr ⟨hout, fun heq => hnot ⟨?_, e, he, heq, rfl⟩⟩, rfl⟩
      rw [mem_ids_append, heq] at hout
      exact (not_or.mp hout).1
  ext x
  have hsplit : x ∈ waiting a (done ++ [d]) ↔ (x ∈ waiting a done ∧ x ∉ adopted a done d) ∨
      (d.parentId ∉ ids (a ++ done) ∧ d.id = x) := by
    rw [mem_waiting, ← hold x]
    simp only [List.mem_append, List.mem_singleton, or_and_right, exists_or, exists_eq_left]
    simp only [hids, h.parent_ne, or_false]
  rw [List.mem_toFinset, hsplit]
  split_ifs with hparent
  · simp [hparent]
  · simp only [hparent, Finset.mem_insert, Finset.mem_sdiff, List.mem_toFinset]
    tauto

theorem parentRootDict_getD (hp : p ≠ noParent) (hout : p ∉ ids (a ++ done)) :
    ((overlaid a done).parentRootDict p).getD [] = childrenOf done p := by
  by_cases hnil : childrenOf done p = [] <;> simp [overlaid, hp, hout, hnil]

theorem update_entry (h : Later done d) (hpn : entry a done d.parentId = none) :
    Function.update (entry a done) d.id
        (some { d with childrenIds := (adopted a done d).toFinset }) = entry a (done ++ [d]) := by
  funext i
  by_cases hi : i = d.id
  · subst hi
    rw [Function.update_self, entry_append_self h]
    rfl
  · rw [Function.update_of_ne hi, entry_append_of_ne hi]
    cases hc : entry a done i with
    | none => rfl
    | some c =>
      have hne : i ≠ d.parentId := by
        rintro rfl
        rw [hpn] at hc
        cases hc
      simp [hne]

theorem update_update_entry (h : Later done d) {q : Context} (hq : entry a done d.parentId = some q) :
    Function.update (Function.update (entry a done) d.id
        (some { d with childrenIds := (adopted a done d).toFinset })) d.parentId
        (some (q.addChildId d.id)) = entry a (done ++ [d]) := by
  funext i
  by_cases hp : i = d.parentId
  · subst hp
    rw [Function.update_self, entry_append_of_ne h.parent_ne, hq]
    simp
  · rw [Function.update_of_ne hp]
    by_cases hi : i = d.id
    · subst hi
      rw [Function.update_self, entry_append_self h]
      rfl
    · rw [Function.update_of_ne hi, entry_append_of_ne hi]
      simp [hp]

theorem adopt_overlaid (hnodup : (ids done).Nodup) (h : Later done d)
    (hroot : rootId ∉ ids done) :
    ContextManager.adopt (((overlaid a done).parentRootDict d.id).getD []) (overlaid a done).rootSet d =
      some (insert rootId ((waiting a done).toFinset \ (adopted a done d).toFinset),
        { d with childrenIds := (adopted a done d).toFinset }) := by
  have hpending : ((overlaid a done).parentRootDict d.id).getD [] = adopted a done d := by
    by_cases ha : d.id ∈ ids a
    · simp [overlaid, h.named, mem_ids_append, ha, adopted]
    · rw [parentRootDict_getD h.named (by rw [mem_ids_append]; exact not_or.mpr ⟨ha, h.new⟩), adopted,
        if_neg ha]
  have hsub : (adopted a done d).toFinset ⊆ (overlaid a done).rootSet := by
    intro x hx
    refine Finset.mem_insert_of_mem (List.mem_toFinset.mpr ?_)
    exact adopted_waiting h (List.mem_toFinset.mp hx)
  have hnotRoot : rootId ∉ (adopted a done d).toFinset := by
    intro hmem
    obtain ⟨-, e, he, -, hid⟩ := mem_adopted.mp (List.mem_toFinset.mp hmem)
    exact hroot (mem_ids.mpr ⟨e, he, hid⟩)
  rw [hpending, ContextManager.adopt_eq _ _ _ hsub (adopted_nodup hnodup), h.fresh.childrenIds,
    Finset.empty_union]
  rw [overlaid, Finset.insert_sdiff_of_notMem _ hnotRoot]

theorem addContext_overlaid (hnodup : (ids done).Nodup) (h : Later done d)
    (hroot : rootId ∉ ids done) :
    (overlaid a done).addContext d = some (overlaid a (done ++ [d])) := by
  rw [ContextManager.addContext, if_neg h.fresh.parentId, if_neg fun hid => h.notRoot hid.1,
    adopt_overlaid hnodup h hroot, Option.map_some]
  have hids : ∀ x, x ∈ ids (a ++ (done ++ [d])) ↔ x ∈ ids (a ++ done) ∨ x = d.id := by
    intro x
    rw [← List.append_assoc, ids_append_singleton]
  apply congrArg some
  by_cases hin : d.parentId ∈ ids (a ++ done)
  · obtain ⟨q, hq⟩ := Option.isSome_iff_exists.mp (entry_isSome.mpr hin)
    rw [ContextManager.findParent_of_some (q := q)
      (by simp only [Function.update_of_ne h.parent_ne]; exact hq)]
    refine ContextManager.ext (update_update_entry h hq) ?_ ?_
    · simp only [overlaid, waiting_append hnodup h, if_pos hin]
    · funext p
      by_cases hp : p = d.id
      · subst hp
        simp [overlaid, hids, h.named]
      · have hkids : d.parentId = p → p ∈ ids (a ++ done) := fun heq => heq ▸ hin
        simp only [Function.update_of_ne hp, overlaid, hids, hp, or_false, childrenOf_append,
          childrenOf_singleton]
        by_cases hparent : d.parentId = p
        · simp [hkids hparent]
        · simp [hparent]
  · have hnone : entry a done d.parentId = none := by
      rw [← Option.not_isSome_iff_eq_none, entry_isSome]
      exact hin
    rw [ContextManager.findParent_of_none
      (by simp only [Function.update_of_ne h.parent_ne]; exact hnone)]
    refine ContextManager.ext (update_entry h hnone) ?_ ?_
    · simp only [overlaid, waiting_append hnodup h, if_neg hin, Finset.insert_comm]
    · funext p
      simp only [Function.update_of_ne h.parent_ne, parentRootDict_getD h.parent hin]
      by_cases hp : p = d.parentId
      · subst hp
        simp [overlaid, h.parent, hids, hin, h.parent_ne, childrenOf_append, childrenOf_singleton]
      · rw [Function.update_of_ne hp]
        by_cases hpd : p = d.id
        · subst hpd
          simp [overlaid, hids, h.named]
        · simp [overlaid, hids, hpd, childrenOf_append, childrenOf_singleton, Ne.symm hp]

/-! ### The whole second file -/

/-- `path` leads from the root of `nodes` down to the context, the root left out. -/
inductive CallPath (nodes : List Context) : Context → List Context → Prop
  | root {c : Context} : c ∈ nodes → c.parentId = noParent → CallPath nodes c []
  | child {q c : Context} {path : List Context} : CallPath nodes q path → c ∈ nodes →
      c.parentId = q.id → CallPath nodes c (path ++ [c])

inductive Leads (nodes : List Context) (p : Context) : Context → Prop
  | here : Leads nodes p p
  | up {c q : Context} : q ∈ nodes → c.parentId = q.id → Leads nodes p q → Leads nodes p c

/-- What the file of a thread holds: a tree whose leaves have metrics. -/
structure IsDump (nodes : List Context) (root : Context) : Prop extends IsTree nodes root where
  root_id : root.id = rootId
  root_metrics : root.metricsDict = ∅
  grounded : ∀ c ∈ nodes, ∃ path, CallPath nodes c path
  covered : ∀ c ∈ nodes, ∃ r ∈ nodes, r.metricsDict ≠ ∅ ∧ Leads nodes c r

variable {b nodes : List Context} {ra rb root : Context}

theorem CallPath.parent_ne {path : List Context} (h : IsTree nodes root)
    (hpath : CallPath nodes c path) : c ∈ nodes ∧ c.parentId ≠ c.id := by
  induction hpath with
  | root hc hparent =>
    refine ⟨hc, fun heq => h.absent (mem_ids.mpr ⟨_, hc, ?_⟩)⟩
    rw [← heq, hparent]
  | child _ hc hparent ih =>
    refine ⟨hc, fun heq => ?_⟩
    obtain rfl := List.inj_on_of_nodup_map h.nodup ih.1 hc (hparent.symm.trans heq)
    exact ih.2 heq

theorem IsDump.lower (h : IsDump nodes root) (hc : c ∈ nodes) (hne : c ≠ root) : Lower c := by
  obtain ⟨path, hpath⟩ := h.grounded c hc
  refine ⟨h.freshNodes hc, ?_, ?_, ?_, (hpath.parent_ne h.toIsTree).2⟩
  · intro hid
    exact hne (List.inj_on_of_nodup_map h.nodup hc h.root_mem (hid.trans h.root_id.symm))
  · intro hid
    exact h.absent (mem_ids.mpr ⟨c, hc, hid⟩)
  · intro hparent
    exact h.absent (hparent ▸ h.parent c hc hne)

def lowerNodes (nodes : List Context) : List Context := nodes.filter fun c => c.id ≠ rootId

theorem mem_lowerNodes : c ∈ lowerNodes nodes ↔ c ∈ nodes ∧ c.id ≠ rootId := by
  simp [lowerNodes]

theorem IsDump.mem_lower (h : IsDump nodes root) (hc : c ∈ nodes) (hne : c ≠ root) :
    c ∈ lowerNodes nodes :=
  mem_lowerNodes.mpr ⟨hc, (h.lower hc hne).notRoot⟩

theorem IsDump.mem_ids_lowerNodes (h : IsDump nodes root) :
    id ∈ ids nodes ↔ id = rootId ∨ id ∈ ids (lowerNodes nodes) := by
  simp only [mem_ids, mem_lowerNodes]
  constructor
  · rintro ⟨c, hc, rfl⟩
    by_cases hid : c.id = rootId
    · exact .inl hid
    · exact .inr ⟨c, ⟨hc, hid⟩, rfl⟩
  · rintro (rfl | ⟨c, ⟨hc, -⟩, rfl⟩)
    · exact ⟨root, h.root_mem, h.root_id⟩
    · exact ⟨c, hc, rfl⟩

theorem overlaid_nil (h : IsDump a ra) : overlaid a [] = treeManager a ra := by
  refine ContextManager.ext ?_ ?_ ?_
  · funext id
    simp [overlaid, entry, treeManager]
  · simp [overlaid, waiting, ids, treeManager, h.root_id]
  · funext p
    simp [overlaid, treeManager, h.root_id, childrenOf, ids]

theorem addContexts_overlaid (hroot : rootId ∈ ids a) (done more : List Context)
    (hnodup : (ids (done ++ lowerNodes more)).Nodup) (hdone : rootId ∉ ids done)
    (hmore : ∀ d ∈ more, d.id = rootId ∧ d.parentId ≠ [] ∨ Lower d) :
    (overlaid a done).addContexts more = some (overlaid a (done ++ lowerNodes more)) := by
  induction more generalizing done with
  | nil => simp [ContextManager.addContexts, lowerNodes]
  | cons d more ih =>
    obtain ⟨hd, hmore⟩ := List.forall_mem_cons.mp hmore
    rw [ContextManager.addContexts, List.foldlM_cons]
    obtain ⟨hid, hparent⟩ | hd := hd
    · have hskip : (overlaid a done).addContext d = some (overlaid a done) := by
        have hsome : ((overlaid a done).contextDict d.id).isSome := by
          rw [hid]
          exact entry_isSome.mpr (mem_ids_append.mpr (.inl hroot))
        rw [ContextManager.addContext, if_neg hparent, if_pos ⟨hid, hsome⟩]
      have hlower : lowerNodes (d :: more) = lowerNodes more := by simp [lowerNodes, hid]
      rw [hskip, hlower]
      exact ih done (hlower ▸ hnodup) hdone hmore
    · have hlower : lowerNodes (d :: more) = d :: lowerNodes more := by
        simp [lowerNodes, hd.notRoot]
      rw [hlower] at hnodup ⊢
      have hsplit : (ids done ++ d.id :: ids (lowerNodes more)).Nodup := by
        simpa [ids] using hnodup
      have hnew : d.id ∉ ids done := fun hmem =>
        List.nodup_append.mp hsplit |>.2.2 _ hmem _ List.mem_cons_self rfl
      rw [addContext_overlaid (List.nodup_append.mp hsplit).1 ⟨hd, hnew⟩ hdone]
      have hassoc : done ++ d :: lowerNodes more = done ++ [d] ++ lowerNodes more := by simp
      rw [hassoc] at hnodup ⊢
      refine ih (done ++ [d]) hnodup ?_ hmore
      rw [ids_append_singleton, not_or]
      exact ⟨hdone, Ne.symm hd.notRoot⟩

theorem addContexts_merged (ha : IsDump a ra) (hb : IsDump b rb) :
    ({} : ContextManager).addContexts (a ++ b) = some (overlaid a (lowerNodes b)) := by
  have hnodup : (ids ([] ++ lowerNodes b)).Nodup := hb.nodup.sublist (List.filter_sublist.map _)
  have hroot : rootId ∈ ids a := mem_ids.mpr ⟨ra, ha.root_mem, ha.root_id⟩
  have hmore : ∀ d ∈ b, d.id = rootId ∧ d.parentId ≠ [] ∨ Lower d := by
    intro d hd
    by_cases hne : d = rb
    · exact .inl (hne ▸ ⟨hb.root_id, (hb.freshNodes hb.root_mem).parentId⟩)
    · exact .inr (hb.lower hd hne)
  rw [ContextManager.addContexts_append, ha.addContexts, Option.bind_some, ← overlaid_nil ha,
    addContexts_overlaid hroot [] b hnodup (by simp [ids]) hmore, List.nil_append]

theorem rootSet_merged (ha : IsDump a ra) (hb : IsDump b rb) :
    (overlaid a (lowerNodes b)).rootSet = {rootId} := by
  have hwaiting : waiting a (lowerNodes b) = [] := by
    rw [List.eq_nil_iff_forall_not_mem]
    intro x hx
    obtain ⟨e, he, hparent, -⟩ := mem_waiting.mp hx
    obtain ⟨heb, hid⟩ := mem_lowerNodes.mp he
    have hne : e ≠ rb := by
      rintro rfl
      exact hid hb.root_id
    rw [mem_ids_append, not_or] at hparent
    obtain hroot | hmem := hb.mem_ids_lowerNodes.mp (hb.parent e heb hne)
    · exact hparent.1 (hroot ▸ mem_ids.mpr ⟨ra, ha.root_mem, ha.root_id⟩)
    · exact hparent.2 hmem
  simp [overlaid, hwaiting]

end Overlay

/-! ## What is kept -/

def Context.frame (c : Context) : Text × Text × Text × Text :=
  (c.methodId, c.methodVersion, c.binaryAddr, c.bci)

inductive ContextManager.Reaches (mgr : ContextManager) : Context → List Context → Prop
  | root {c : Context} : mgr.contextDict rootId = some c → Reaches mgr c []
  | child {q c : Context} {id : Text} {path : List Context} : Reaches mgr q path →
      id ∈ q.childrenIds → mgr.contextDict id = some c → Reaches mgr c (path ++ [c])

def Stands (mgr : ContextManager) (nodes : List Context) (c c' : Context) : Prop :=
  ∃ path path', CallPath nodes c path ∧ mgr.Reaches c' path' ∧
    path'.map Context.frame = path.map Context.frame ∧ c'.metricsDict = c.metricsDict

def Recorded (a b : List Context) : Context ⊕ Context → Prop
  | .inl c => c ∈ a ∧ c.metricsDict ≠ ∅
  | .inr c => c ∈ b ∧ c.metricsDict ≠ ∅

/-- Every context with metrics of either tree has a node of its own in the manager. -/
def KeepsBoth (mgr : ContextManager) (a b : List Context) : Prop :=
  ∃ place : Context ⊕ Context → Context,
    (∀ c, Recorded a b (.inl c) → Stands mgr a c (place (.inl c))) ∧
    (∀ c, Recorded a b (.inr c) → Stands mgr b c (place (.inr c))) ∧
    Set.InjOn (fun x => (place x).id) {x | Recorded a b x}

section Kept
variable {mgr : ContextManager} {a b nodes : List Context} {c c' p q ra rb root : Context}
variable {id : Text} {path path' : List Context}

theorem CallPath.congr (hmem : ∀ x, x ∈ a ↔ x ∈ b) (h : CallPath a c path) : CallPath b c path := by
  induction h with
  | root hc hparent => exact .root ((hmem _).mp hc) hparent
  | child _ hc hparent ih => exact .child ih ((hmem _).mp hc) hparent

theorem Leads.congr (hmem : ∀ x, x ∈ a ↔ x ∈ b) (h : Leads a p c) : Leads b p c := by
  induction h with
  | here => exact .here
  | up hq hparent _ ih => exact .up ((hmem _).mp hq) hparent ih

theorem IsDump.perm (h : IsDump a root) (hperm : b.Perm a) : IsDump b root := by
  have hmem : ∀ x, x ∈ a ↔ x ∈ b := fun x => hperm.mem_iff.symm
  refine ⟨h.toIsTree.perm hperm, h.root_id, h.root_metrics, ?_, ?_⟩
  · intro c hc
    obtain ⟨path, hpath⟩ := h.grounded c ((hmem c).mpr hc)
    exact ⟨path, hpath.congr hmem⟩
  · intro c hc
    obtain ⟨r, hr, hmetrics, hleads⟩ := h.covered c ((hmem c).mpr hc)
    exact ⟨r, (hmem r).mp hr, hmetrics, hleads.congr hmem⟩

theorem KeepsBoth.congr {a' b' : List Context} (ha : ∀ x, x ∈ a ↔ x ∈ a') (hb : ∀ x, x ∈ b ↔ x ∈ b')
    (h : KeepsBoth mgr a b) : KeepsBoth mgr a' b' := by
  have hrec : ∀ x, Recorded a' b' x ↔ Recorded a b x := by
    rintro (c | c)
    · simp [Recorded, ha]
    · simp [Recorded, hb]
  obtain ⟨place, hleft, hright, hinj⟩ := h
  refine ⟨place, ?_, ?_, ?_⟩
  · intro c hc
    obtain ⟨path, path', hpath, hrest⟩ := hleft c ((hrec _).mp hc)
    exact ⟨path, path', hpath.congr ha, hrest⟩
  · intro c hc
    obtain ⟨path, path', hpath, hrest⟩ := hright c ((hrec _).mp hc)
    exact ⟨path, path', hpath.congr hb, hrest⟩
  · simpa only [hrec] using hinj

theorem KeepsBoth.swap (h : KeepsBoth mgr a b) : KeepsBoth mgr b a := by
  obtain ⟨place, hleft, hright, hinj⟩ := h
  have hrec : ∀ x, Recorded a b x.swap ↔ Recorded b a x := by
    rintro (c | c) <;> rfl
  refine ⟨fun x => place x.swap, fun c hc => hright c ((hrec (.inl c)).mpr hc),
    fun c hc => hleft c ((hrec (.inr c)).mpr hc), ?_⟩
  intro x hx y hy heq
  have hswap := hinj ((hrec x).mpr hx) ((hrec y).mpr hy) heq
  exact Sum.swap_leftInverse.injective hswap

/-! ### Ids that do not collide -/

def Carries (mgr : ContextManager) (nodes : List Context) (c : Context) : Prop :=
  ∃ c', mgr.contextDict c.id = some c' ∧ (∀ x ∈ childrenOf nodes c.id, x ∈ c'.childrenIds) ∧
    (c.id ≠ rootId → c'.frame = c.frame ∧ c'.metricsDict = c.metricsDict)

theorem reaches_of_carries (h : IsDump nodes root) (hcarries : ∀ c ∈ nodes, Carries mgr nodes c)
    (hpath : CallPath nodes c path) :
    ∃ c' path', mgr.Reaches c' path' ∧ mgr.contextDict c.id = some c' ∧
      path'.map Context.frame = path.map Context.frame := by
  induction hpath with
  | @root c hc hparent =>
    have hroot : c = root := (h.root_unique hc).mp (hparent ▸ h.absent)
    obtain ⟨c', hdict, -, -⟩ := hcarries c hc
    refine ⟨c', [], .root ?_, hdict, rfl⟩
    rw [← h.root_id, ← hroot]
    exact hdict
  | @child q c path hq hc hparent ih =>
    obtain ⟨q', qpath, hreach, hqdict, hframes⟩ := ih
    obtain ⟨q'', hqdict', hchildren, -⟩ := hcarries q (hq.parent_ne h.toIsTree).1
    obtain rfl := Option.some.inj (hqdict.symm.trans hqdict')
    obtain ⟨c', hdict, -, hsame⟩ := hcarries c hc
    have hne : c ≠ root := by
      rintro rfl
      refine h.absent (mem_ids.mpr ⟨q, (hq.parent_ne h.toIsTree).1, ?_⟩)
      rw [← hparent, h.root_parent]
    refine ⟨c', qpath ++ [c'], .child hreach (hchildren c.id ?_) hdict, hdict, ?_⟩
    · exact mem_childrenOf.mpr ⟨c, hc, hparent, rfl⟩
    · rw [List.map_append, List.map_append, hframes, List.map_singleton, List.map_singleton,
        (hsame (h.lower hc hne).notRoot).1]

theorem carries_first (ha : IsDump a ra) (hdisjoint : ∀ x ∈ ids a, x ∈ ids b → x = rootId)
    (hc : c ∈ a) : Carries (overlaid a (lowerNodes b)) a c := by
  have hnone : c.id ∉ ids (lowerNodes b) := by
    intro hmem
    obtain ⟨d, hd, hid⟩ := mem_ids.mp hmem
    obtain ⟨hdb, hnotRoot⟩ := mem_lowerNodes.mp hd
    exact hnotRoot (hid.trans
      (hdisjoint c.id (mem_ids.mpr ⟨c, hc, rfl⟩) (mem_ids.mpr ⟨d, hdb, hid⟩)))
  refine ⟨withChildren (a ++ lowerNodes b) c, ?_, ?_, fun _ => ⟨rfl, rfl⟩⟩
  · simp only [overlaid, entry, find?_id_eq_none.mpr hnone, find?_of_mem ha.nodup hc,
      Option.map_some]
  · intro x hx
    simp only [withChildren, childrenOf_append, List.mem_toFinset, List.mem_append]
    exact .inl hx

theorem carries_second (ha : IsDump a ra) (hb : IsDump b rb)
    (hdisjoint : ∀ x ∈ ids a, x ∈ ids b → x = rootId) (hc : c ∈ b) :
    Carries (overlaid a (lowerNodes b)) b c := by
  have hchildren : ∀ x ∈ childrenOf b c.id, x ∈ childrenOf (lowerNodes b) c.id := by
    intro x hx
    obtain ⟨e, he, hparent, rfl⟩ := mem_childrenOf.mp hx
    have hne : e ≠ rb := by
      rintro rfl
      refine hb.absent (mem_ids.mpr ⟨c, hc, ?_⟩)
      rw [← hparent, hb.root_parent]
    exact mem_childrenOf.mpr ⟨e, hb.mem_lower he hne, hparent, rfl⟩
  by_cases hroot : c.id = rootId
  · have hnone : rootId ∉ ids (lowerNodes b) := by
      intro hmem
      obtain ⟨d, hd, hid⟩ := mem_ids.mp hmem
      exact (mem_lowerNodes.mp hd).2 hid
    refine ⟨withChildren (a ++ lowerNodes b) ra, ?_, ?_, fun hne => absurd hroot hne⟩
    · have hfind := find?_of_mem ha.nodup ha.root_mem
      rw [ha.root_id] at hfind
      rw [hroot]
      simp only [overlaid, entry, find?_id_eq_none.mpr hnone, hfind, Option.map_some]
    · intro x hx
      simp only [withChildren, childrenOf_append, List.mem_toFinset, List.mem_append]
      rw [ha.root_id, ← hroot]
      exact .inr (hchildren x hx)
  · have hfind : ((lowerNodes b).find? fun d => d.id = c.id) = some c :=
      find?_of_mem (hb.nodup.sublist (List.filter_sublist.map _)) (mem_lowerNodes.mpr ⟨hc, hroot⟩)
    have hout : c.id ∉ ids a := fun hmem =>
      hroot (hdisjoint c.id hmem (mem_ids.mpr ⟨c, hc, rfl⟩))
    refine ⟨{ c with childrenIds := (childrenOf (lowerNodes b) c.id).toFinset }, ?_, ?_,
      fun _ => ⟨rfl, rfl⟩⟩
    · simp only [overlaid, entry, hfind, laterChildren, if_neg hout]
    · intro x hx
      exact List.mem_toFinset.mpr (hchildren x hx)

theorem stands_of_carries (h : IsDump nodes root) (hcarries : ∀ c ∈ nodes, Carries mgr nodes c)
    (hc : c ∈ nodes) (hmetrics : c.metricsDict ≠ ∅) :
    Stands mgr nodes c ((mgr.contextDict c.id).getD c) := by
  obtain ⟨path, hpath⟩ := h.grounded c hc
  obtain ⟨c', path', hreach, hdict, hframes⟩ := reaches_of_carries h hcarries hpath
  obtain ⟨c'', hdict', -, hsame⟩ := hcarries c hc
  obtain rfl := Option.some.inj (hdict.symm.trans hdict')
  have hne : c ≠ root := by
    rintro rfl
    exact hmetrics h.root_metrics
  rw [hdict]
  exact ⟨path, path', hpath, hreach, hframes, (hsame (h.lower hc hne).notRoot).2⟩

theorem keepsBoth_of_disjoint (ha : IsDump a ra) (hb : IsDump b rb)
    (hdisjoint : ∀ x ∈ ids a, x ∈ ids b → x = rootId) :
    KeepsBoth (overlaid a (lowerNodes b)) a b := by
  have hfirst := fun c (hc : c ∈ a) => carries_first ha hdisjoint hc
  have hsecond := fun c (hc : c ∈ b) => carries_second ha hb hdisjoint hc
  have hid : ∀ c, ((overlaid a (lowerNodes b)).contextDict c.id |>.getD c).id = c.id := by
    intro c
    cases hdict : (overlaid a (lowerNodes b)).contextDict c.id with
    | none => rfl
    | some c' => exact entry_id hdict
  have hapart : ∀ c ∈ a, c.metricsDict ≠ ∅ → c.id ∉ ids b := by
    intro c hc hmetrics hmem
    have hroot := hdisjoint c.id (mem_ids.mpr ⟨c, hc, rfl⟩) hmem
    obtain rfl := List.inj_on_of_nodup_map ha.nodup hc ha.root_mem (hroot.trans ha.root_id.symm)
    exact hmetrics ha.root_metrics
  refine ⟨Sum.elim (fun c => ((overlaid a (lowerNodes b)).contextDict c.id).getD c)
    fun c => ((overlaid a (lowerNodes b)).contextDict c.id).getD c,
    fun c hc => stands_of_carries ha hfirst hc.1 hc.2,
    fun c hc => stands_of_carries hb hsecond hc.1 hc.2, ?_⟩
  rintro (c | c) hc (d | d) hd heq
  all_goals simp only [Sum.elim_inl, Sum.elim_inr, hid] at heq
  · rw [List.inj_on_of_nodup_map ha.nodup hc.1 hd.1 heq]
  · exact absurd (mem_ids.mpr ⟨d, hd.1, heq.symm⟩) (hapart c hc.1 hc.2)
  · exact absurd (mem_ids.mpr ⟨c, hc.1, heq⟩) (hapart d hd.1 hd.2)
  · rw [List.inj_on_of_nodup_map hb.nodup hc.1 hd.1 heq]

/-! ### Ids that collide -/

theorem reaches_lookup {done : List Context} (h : (overlaid a done).Reaches c path) :
    (overlaid a done).contextDict c.id = some c := by
  cases h with
  | root hdict => rwa [entry_id hdict]
  | child _ _ hdict => rwa [entry_id hdict]

theorem metrics_of_entry (ha : IsDump a ra) (h : entry a (lowerNodes b) id = some c)
    (hmetrics : c.metricsDict ≠ ∅) :
    (∃ e ∈ a, e.metricsDict ≠ ∅ ∧ e.id ∉ ids b ∧ e.id = id) ∨
      ∃ e ∈ b, e.metricsDict ≠ ∅ ∧ e.id = id := by
  rw [entry] at h
  cases hd : (lowerNodes b).find? fun d => d.id = id with
  | some d =>
    rw [hd] at h
    obtain rfl := Option.some.inj h
    have hid : d.id = id := by simpa using List.find?_some hd
    exact .inr ⟨d, (mem_lowerNodes.mp (List.mem_of_find?_eq_some hd)).1, hmetrics, hid⟩
  | none =>
    rw [hd] at h
    obtain ⟨e, he, rfl⟩ := Option.map_eq_some_iff.mp h
    have hid : e.id = id := by simpa using List.find?_some he
    have hmem := List.mem_of_find?_eq_some he
    refine .inl ⟨e, hmem, hmetrics, fun hin => ?_, hid⟩
    by_cases hroot : e.id = rootId
    · obtain rfl := List.inj_on_of_nodup_map ha.nodup hmem ha.root_mem (hroot.trans ha.root_id.symm)
      exact hmetrics ha.root_metrics
    · obtain ⟨d, hdb, hdid⟩ := mem_ids.mp hin
      refine find?_id_eq_none.mp hd (mem_ids.mpr ⟨d, mem_lowerNodes.mpr ⟨hdb, ?_⟩, hdid.trans hid⟩)
      rwa [hdid]

theorem reached_of_keepsBoth (ha : IsDump a ra) (hb : IsDump b rb)
    (h : KeepsBoth (overlaid a (lowerNodes b)) a b) (hc : c ∈ a) (hmetrics : c.metricsDict ≠ ∅) :
    c.id ∉ ids b ∧ ∃ c' path', (overlaid a (lowerNodes b)).Reaches c' path' ∧ c'.id = c.id := by
  obtain ⟨place, hleft, hright, hinj⟩ := h
  let first := a.filter fun c => c.metricsDict ≠ ∅
  let second := b.filter fun c => c.metricsDict ≠ ∅
  have hmemFirst : ∀ x, x ∈ first ↔ Recorded a b (.inl x) := fun x => by simp [first, Recorded]
  have hmemSecond : ∀ x, x ∈ second ↔ Recorded a b (.inr x) := fun x => by simp [second, Recorded]
  let placed := (first.map Sum.inl ++ second.map Sum.inr).map fun x => (place x).id
  let known := ids (first.filter fun c => c.id ∉ ids b) ++ ids second
  have hrecorded : ∀ x ∈ first.map Sum.inl ++ second.map Sum.inr, Recorded a b x := by
    intro x hx
    obtain hx | hx := List.mem_append.mp hx
    · obtain ⟨y, hy, rfl⟩ := List.mem_map.mp hx
      exact (hmemFirst y).mp hy
    · obtain ⟨y, hy, rfl⟩ := List.mem_map.mp hx
      exact (hmemSecond y).mp hy
  have hplaced : placed.Nodup := by
    apply List.Nodup.map_on (fun x hx y hy => hinj (hrecorded x hx) (hrecorded y hy))
    refine List.nodup_append.mpr ⟨(ha.nodup_nodes.filter _).map Sum.inl_injective,
      (hb.nodup_nodes.filter _).map Sum.inr_injective, ?_⟩
    rintro x hx y hy rfl
    obtain ⟨u, -, rfl⟩ := List.mem_map.mp hx
    obtain ⟨v, -, hv⟩ := List.mem_map.mp hy
    cases hv
  have hreached : ∀ x ∈ placed, ∃ c' path', (overlaid a (lowerNodes b)).Reaches c' path' ∧
      c'.id = x ∧ c'.metricsDict ≠ ∅ := by
    intro x hx
    obtain ⟨y, hy, rfl⟩ := List.mem_map.mp hx
    cases y with
    | inl y =>
      obtain ⟨_, path', _, hreach, _, hsame⟩ := hleft y (hrecorded _ hy)
      exact ⟨_, path', hreach, rfl, hsame ▸ (hrecorded _ hy).2⟩
    | inr y =>
      obtain ⟨_, path', _, hreach, _, hsame⟩ := hright y (hrecorded _ hy)
      exact ⟨_, path', hreach, rfl, hsame ▸ (hrecorded _ hy).2⟩
  have hsub : placed ⊆ known := by
    intro x hx
    obtain ⟨c', path', hreach, rfl, hm⟩ := hreached x hx
    obtain ⟨e, he, hem, hout, hid⟩ | ⟨e, he, hem, hid⟩ :=
      metrics_of_entry ha (reaches_lookup hreach) hm
    · refine List.mem_append_left _ (mem_ids.mpr ⟨e, List.mem_filter.mpr ⟨?_, ?_⟩, hid⟩)
      · exact (hmemFirst e).mpr ⟨he, hem⟩
      · simpa using hout
    · exact List.mem_append_right _ (mem_ids.mpr ⟨e, (hmemSecond e).mpr ⟨he, hem⟩, hid⟩)
  have hsubperm : placed.Subperm known := hplaced.subperm hsub
  have hlenPlaced : placed.length = first.length + second.length := by simp [placed]
  have hlenKnown : known.length = (first.filter fun c => c.id ∉ ids b).length + second.length := by
    simp [known, ids]
  have hle := hsubperm.length_le
  have hfilter : (first.filter fun c => c.id ∉ ids b).length ≤ first.length :=
    List.length_filter_le _ _
  have hall : ∀ x ∈ first, x.id ∉ ids b := by
    have heq : (first.filter fun c => c.id ∉ ids b).length = first.length := by omega
    simpa using List.length_filter_eq_length_iff.mp heq
  have hperm : placed.Perm known := hsubperm.perm_of_length_le (by omega)
  have hcfirst : c ∈ first := (hmemFirst c).mpr ⟨hc, hmetrics⟩
  refine ⟨hall c hcfirst, ?_⟩
  have hknown : c.id ∈ known := List.mem_append_left _
    (mem_ids.mpr ⟨c, List.mem_filter.mpr ⟨hcfirst, by simpa using hall c hcfirst⟩, rfl⟩)
  obtain ⟨c', path', hreach, hid, -⟩ := hreached c.id (hperm.mem_iff.mpr hknown)
  exact ⟨c', path', hreach, hid⟩

inductive Cut (a b : List Context) (p : Context) : Context → Prop
  | base {x : Context} : x ∈ a → x.id ∉ ids b → x.parentId = p.id → Cut a b p x
  | step {x y : Context} : x ∈ a → x.id ∉ ids b → x.parentId = y.id → Cut a b p y → Cut a b p x

theorem Cut.congr {b' : List Context} (hids : ∀ x, x ∈ ids b ↔ x ∈ ids b') (h : Cut a b p c) :
    Cut a b' p c := by
  induction h with
  | base hx hout hparent => exact .base hx (by rwa [← hids]) hparent
  | step hx hout hparent _ ih => exact .step hx (by rwa [← hids]) hparent ih

theorem exists_cut (ha : IsDump a ra) (hc : c ∈ a) (hout : c.id ∉ ids b) (hp : p.id ∈ ids b)
    (hroot : p.id ≠ rootId) (h : Leads a p c) :
    ∃ q ∈ a, q.id ∈ ids b ∧ q.id ≠ rootId ∧ Cut a b q c := by
  induction h with
  | here => exact absurd hp hout
  | @up c q hq hparent hleads ih =>
    by_cases hin : q.id ∈ ids b
    · refine ⟨q, hq, hin, fun hid => ?_, .base hc hout hparent⟩
      obtain rfl := List.inj_on_of_nodup_map ha.nodup hq ha.root_mem (hid.trans ha.root_id.symm)
      cases hleads with
      | here => exact hroot hid
      | up hq' hparent' _ =>
        rw [ha.root_parent] at hparent'
        exact ha.absent (mem_ids.mpr ⟨_, hq', hparent'.symm⟩)
    · obtain ⟨q', hq', hin', hroot', hcut⟩ := ih hq hin
      exact ⟨q', hq', hin', hroot', .step hc hout hparent hcut⟩

theorem mem_children_of_entry {done : List Context} {x : Text} (h : entry a done id = some c)
    (hx : x ∈ c.childrenIds) : ∃ y ∈ a ++ done, y.parentId = id ∧ y.id = x := by
  rw [entry] at h
  cases hd : done.find? fun d => d.id = id with
  | some d =>
    rw [hd] at h
    obtain rfl := Option.some.inj h
    have hafter : ∀ l : List Context, after id l ⊆ l := by
      intro l
      induction l with
      | nil => exact List.Subset.refl _
      | cons e l ih =>
        rw [after]
        split_ifs
        · exact List.subset_cons_self e l
        · exact fun y hy => List.mem_cons_of_mem _ (ih hy)
    obtain ⟨y, hy, hparent, hid⟩ := mem_childrenOf.mp (List.mem_toFinset.mp hx)
    refine ⟨y, List.mem_append_right _ ?_, hparent, hid⟩
    split_ifs at hy
    · exact hafter done hy
    · exact hy
  | none =>
    rw [hd] at h
    obtain ⟨e, he, rfl⟩ := Option.map_eq_some_iff.mp h
    have hid : e.id = id := by simpa using List.find?_some he
    exact hid ▸ mem_childrenOf.mp (List.mem_toFinset.mp hx)

theorem not_reached (ha : IsDump a ra) (hb : IsDump b rb)
    (hempty : ∀ q, entry a (lowerNodes b) p.id = some q → q.childrenIds = ∅)
    (h : (overlaid a (lowerNodes b)).Reaches c path) (x : Context) (hcut : Cut a b p x) :
    c.id ≠ x.id := by
  induction h generalizing x with
  | root hdict =>
    have hx : x.id ∉ ids b := by cases hcut <;> assumption
    rw [entry_id hdict]
    rintro heq
    exact hx (heq ▸ mem_ids.mpr ⟨rb, hb.root_mem, hb.root_id⟩)
  | @child q c id path hq hmem hdict ih =>
    intro heq
    rw [entry_id hdict] at heq
    obtain ⟨y, hy, hparent, hid⟩ := mem_children_of_entry (reaches_lookup hq) hmem
    have hsame : x ∈ a → x.id ∉ ids b → y = x := by
      intro hxa hxb
      obtain hy | hy := List.mem_append.mp hy
      · exact List.inj_on_of_nodup_map ha.nodup hy hxa (hid.trans heq)
      · exact absurd (mem_ids.mpr ⟨y, (mem_lowerNodes.mp hy).1, hid.trans heq⟩) hxb
    cases hcut with
    | base hxa hxb hxparent =>
      obtain rfl := hsame hxa hxb
      have hqid : q.id = p.id := hparent.symm.trans hxparent
      have hlookup := reaches_lookup hq
      rw [hqid] at hlookup
      rw [hempty q hlookup] at hmem
      cases hmem
    | step hxa hxb hxparent hcut =>
      obtain rfl := hsame hxa hxb
      exact ih _ hcut (hparent.symm.trans hxparent)

theorem disjoint_of_keepsBoth (ha : IsDump a ra) (hb : IsDump b rb)
    (h : KeepsBoth (overlaid a (lowerNodes b)) a b)
    (hlast : ∀ s q t, b = s ++ q :: t →
      KeepsBoth (overlaid a (lowerNodes (s ++ t ++ [q]))) a b) :
    ∀ x ∈ ids a, x ∈ ids b → x = rootId := by
  intro x hxa hxb
  by_contra hroot
  obtain ⟨p, hp, rfl⟩ := mem_ids.mp hxa
  obtain ⟨r, hr, hmetrics, hleads⟩ := ha.covered p hp
  have hout := (reached_of_keepsBoth ha hb h hr hmetrics).1
  obtain ⟨p', hp', hin, hroot', hcut⟩ := exists_cut ha hr hout hxb hroot hleads
  obtain ⟨q, hq, hid⟩ := mem_ids.mp hin
  obtain ⟨s, t, hsplit⟩ := List.append_of_mem hq
  -- with `q` at the end of the file, the node at its id ends up without children
  have hperm : (s ++ t ++ [q]).Perm b := by
    rw [hsplit]
    exact (List.perm_append_comm.trans (by simpa using List.perm_middle.symm))
  have hb' := hb.perm hperm
  have hmem : ∀ y, y ∈ b ↔ y ∈ s ++ t ++ [q] := fun y => hperm.mem_iff.symm
  have hkeeps := (hlast s q t hsplit).congr (fun _ => Iff.rfl) hmem
  obtain ⟨-, c', path', hreach, hcid⟩ := reached_of_keepsBoth ha hb' hkeeps hr hmetrics
  have hids : ∀ y, y ∈ ids b ↔ y ∈ ids (s ++ t ++ [q]) := fun y => by simp only [mem_ids, hmem]
  refine not_reached ha hb' ?_ hreach r (hcut.congr hids) hcid
  intro q' hq'
  have hne : q ≠ rb := by
    rintro rfl
    exact hroot' (hid ▸ hb.root_id)
  have hlower : lowerNodes (s ++ t ++ [q]) = lowerNodes (s ++ t) ++ [q] := by
    simp [lowerNodes, hid, hroot']
  have hnodup : (ids (lowerNodes (s ++ t) ++ [q])).Nodup := by
    rw [← hlower]
    exact hb'.nodup.sublist (List.filter_sublist.map _)
  have hnew : q.id ∉ ids (lowerNodes (s ++ t)) := by
    rw [ids, List.map_append] at hnodup
    exact fun hmem => (List.nodup_append.mp hnodup).2.2 _ hmem _ (by simp) rfl
  rw [hlower, ← hid, entry_append_self ⟨hb.lower hq hne, hnew⟩,
    if_pos (hid ▸ mem_ids.mpr ⟨p', hp', rfl⟩)] at hq'
  obtain rfl := Option.some.inj hq'
  rfl

end Kept

/-! ## The files of a thread id -/

/-- The contexts of all files, one file after the other; without any there is no root. -/
def parallel1 (files : List (List ContextXml)) : Option (List ContextXml) :=
  if files.flatten = [] then none else some files.flatten

/-- The directory lists the files in any order, and a parser returns the contexts of its file
in any order. -/
def Merges (files : List (List ContextXml)) (loaded : List ContextXml) : Prop :=
  ∃ listing parsed, listing.Perm files ∧ List.Forall₂ List.Perm parsed listing ∧
    parallel1 parsed = some loaded

def KeptBy (loaded file₁ file₂ : List ContextXml) : Prop :=
  ∃ mgr, loadContext loaded = some mgr ∧
    KeepsBoth mgr (file₁.map .ofXml) (file₂.map .ofXml)

section Files
variable {file₁ file₂ p₁ p₂ loaded : List ContextXml} {r₁ r₂ : Context}

theorem perm_pair {α : Type*} {l : List α} {x y : α} (h : l.Perm [x, y]) :
    l = [x, y] ∨ l = [y, x] := by
  obtain ⟨u, v, rfl⟩ := List.length_eq_two.mp h.length_eq
  have hu : u = x ∨ u = y := by simpa using h.mem_iff.mp (List.mem_cons_self (a := u) (l := [v]))
  obtain rfl | rfl := hu
  · have hv := (List.perm_cons u).mp h
    exact .inl (by rw [List.perm_singleton.mp hv])
  · have hv := (List.perm_cons u).mp (h.trans (List.Perm.swap _ _ _))
    exact .inr (by rw [List.perm_singleton.mp hv])

theorem merges_pair (h : Merges [file₁, file₂] loaded) :
    ∃ p₁ p₂, p₁.Perm file₁ ∧ p₂.Perm file₂ ∧ (loaded = p₁ ++ p₂ ∨ loaded = p₂ ++ p₁) := by
  obtain ⟨listing, parsed, hlisting, hparsed, hload⟩ := h
  rw [parallel1] at hload
  split_ifs at hload with hnil
  obtain rfl := Option.some.inj hload
  obtain rfl | rfl := perm_pair hlisting
  all_goals
    obtain ⟨p, rest, hp, hrest, rfl⟩ := List.forall₂_cons_right_iff.mp hparsed
    obtain ⟨q, none, hq, hnone, rfl⟩ := List.forall₂_cons_right_iff.mp hrest
    obtain rfl := List.forall₂_nil_right_iff.mp hnone
  · exact ⟨p, q, hp, hq, .inl (by simp)⟩
  · exact ⟨q, p, hq, hp, .inr (by simp)⟩

theorem merges_of_perm (h₁ : p₁.Perm file₁) (h₂ : p₂.Perm file₂) (hne : file₁ ≠ []) :
    Merges [file₁, file₂] (p₁ ++ p₂) := by
  have hflat : ([p₁, p₂] : List (List ContextXml)).flatten = p₁ ++ p₂ := by simp
  have hnil : p₁ ++ p₂ ≠ [] := by
    intro hnil
    rw [(List.append_eq_nil_iff.mp hnil).1] at h₁
    exact hne h₁.symm.eq_nil
  exact ⟨[file₁, file₂], [p₁, p₂], List.Perm.refl _, .cons h₁ (.cons h₂ .nil),
    by rw [parallel1, hflat, if_neg hnil]⟩

theorem loadContext_merged (h₁ : IsDump (file₁.map .ofXml) r₁) (h₂ : IsDump (file₂.map .ofXml) r₂) :
    loadContext (file₁ ++ file₂) =
      some (overlaid (file₁.map .ofXml) (lowerNodes (file₂.map .ofXml))) := by
  rw [loadContext, List.map_append, addContexts_merged h₁ h₂]
  simp [rootSet_merged h₁ h₂]

theorem keptBy_of_disjoint (h₁ : IsDump (file₁.map .ofXml) r₁) (h₂ : IsDump (file₂.map .ofXml) r₂)
    (hp₁ : p₁.Perm file₁) (hp₂ : p₂.Perm file₂)
    (hdisjoint : ∀ x ∈ ids (file₁.map .ofXml), x ∈ ids (file₂.map .ofXml) → x = rootId) :
    KeptBy (p₁ ++ p₂) file₁ file₂ := by
  have hperm₁ := hp₁.map Context.ofXml
  have hperm₂ := hp₂.map Context.ofXml
  have hids : ∀ x ∈ ids (p₁.map .ofXml), x ∈ ids (p₂.map .ofXml) → x = rootId := by
    intro x hx₁ hx₂
    exact hdisjoint x ((hperm₁.map _).mem_iff.mp hx₁) ((hperm₂.map _).mem_iff.mp hx₂)
  refine ⟨_, loadContext_merged (h₁.perm hperm₁) (h₂.perm hperm₂), ?_⟩
  exact (keepsBoth_of_disjoint (h₁.perm hperm₁) (h₂.perm hperm₂) hids).congr
    (fun _ => hperm₁.mem_iff) fun _ => hperm₂.mem_iff

/-- Two dumps are kept in every order exactly when they share no id but that of the root. -/
theorem keptBy_iff (h₁ : IsDump (file₁.map .ofXml) r₁) (h₂ : IsDump (file₂.map .ofXml) r₂) :
    (∀ loaded, Merges [file₁, file₂] loaded → KeptBy loaded file₁ file₂) ↔
      ∀ x ∈ ids (file₁.map .ofXml), x ∈ ids (file₂.map .ofXml) → x = rootId := by
  constructor
  · intro h
    have hne : file₁ ≠ [] := by
      rintro rfl
      cases h₁.root_mem
    -- the manager of an order is known, so what it keeps is a fact about `overlaid`
    have hkeeps : ∀ p : List ContextXml, p.Perm file₂ → KeepsBoth (overlaid (file₁.map .ofXml)
        (lowerNodes (p.map .ofXml))) (file₁.map .ofXml) (file₂.map .ofXml) := by
      intro p hp
      obtain ⟨mgr, hload, hkeeps⟩ := h _ (merges_of_perm (List.Perm.refl file₁) hp hne)
      rw [loadContext_merged h₁ (h₂.perm (hp.map _))] at hload
      obtain rfl := Option.some.inj hload
      exact hkeeps
    apply disjoint_of_keepsBoth h₁ h₂ (hkeeps file₂ (List.Perm.refl _))
    intro s q t hsplit
    obtain ⟨s', rest, hfile, rfl, hrest⟩ := List.map_eq_append_iff.mp hsplit
    obtain ⟨q', t', rfl, rfl, rfl⟩ := List.map_eq_cons_iff.mp hrest
    have hperm : (s' ++ t' ++ [q']).Perm file₂ := by
      rw [hfile]
      exact List.perm_append_comm.trans (by simpa using List.perm_middle.symm)
    simpa using hkeeps _ hperm
  · intro hdisjoint loaded hmerge
    obtain ⟨p₁, p₂, hp₁, hp₂, rfl | rfl⟩ := merges_pair hmerge
    · exact keptBy_of_disjoint h₁ h₂ hp₁ hp₂ hdisjoint
    · obtain ⟨mgr, hload, hkeeps⟩ := keptBy_of_disjoint h₂ h₁ hp₂ hp₁
        fun x hx₂ hx₁ => hdisjoint x hx₁ hx₂
      exact ⟨mgr, hload, hkeeps.swap⟩

end Files
end Trace4J.Offline
