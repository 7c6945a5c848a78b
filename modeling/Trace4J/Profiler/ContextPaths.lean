import Trace4J.Offline.OutputToFile
import Trace4J.Profiler.ContextXml

/-!
# The paths of a dumped tree

What `getAllPaths` returns for the dump of a context tree: one path for every written context
without written children, which leads down to it from the root. A child is younger than its
parent, so the recursion ends after as many steps as there are contexts.
-/

namespace Trace4J.Profiler
open Offline (SetOrder ContextManager treeManager withChildren)

namespace ContextTree

/-- The ids from the root down to `n`; `fuel` parents are looked up. -/
def pathUp (t : ContextTree) : ℕ → ℕ → List ℕ
  | 0, n => [n]
  | fuel + 1, n =>
    match (t.contextMap n).parent with
    | none => [n]
    | some q => pathUp t fuel q ++ [n]

def path (t : ContextTree) (n : ℕ) : List ℕ := t.pathUp n n

inductive Descends (t : ContextTree) (m : ℕ) : ℕ → List ℕ → Prop
  | here : Descends t m m [m]
  | down {n c : ℕ} {l : List ℕ} : (t.contextMap c).parent = some n → Descends t m c l →
      Descends t m n (n :: l)

variable {t : ContextTree} {a b c m n q : ℕ} {l : List ℕ}

theorem pathUp_of_le (h : t.Linked) (n fuel : ℕ) (hn : n < t.idCounter) (hfuel : n ≤ fuel) :
    t.pathUp fuel n = t.pathUp n n := by
  induction n using Nat.strong_induction_on generalizing fuel with
  | _ n ih =>
    cases hparent : (t.contextMap n).parent with
    | none => cases fuel <;> cases n <;> simp [pathUp, hparent]
    | some q =>
      have hq := h.parent_lt hn hparent
      obtain ⟨k, rfl⟩ := Nat.exists_eq_succ_of_ne_zero (show n ≠ 0 by omega)
      obtain ⟨k', rfl⟩ := Nat.exists_eq_succ_of_ne_zero (show fuel ≠ 0 by omega)
      simp only [Nat.succ_eq_add_one, pathUp, hparent]
      rw [ih q hq k' (by omega) (by omega), ih q hq k (by omega) (by omega)]

theorem path_of_parent (h : t.Linked) (hn : n < t.idCounter)
    (hparent : (t.contextMap n).parent = some q) : t.path n = t.path q ++ [n] := by
  have hq := h.parent_lt hn hparent
  obtain ⟨k, rfl⟩ := Nat.exists_eq_succ_of_ne_zero (show n ≠ 0 by omega)
  simp only [path, Nat.succ_eq_add_one, pathUp, hparent]
  rw [pathUp_of_le h q k (by omega) (by omega)]

theorem path_ends (t : ContextTree) (n : ℕ) : ∃ l, t.path n = l ++ [n] := by
  cases n with
  | zero => exact ⟨[], rfl⟩
  | succ k =>
    rw [path, pathUp]
    cases (t.contextMap (k + 1)).parent with
    | none => exact ⟨[], rfl⟩
    | some q => exact ⟨_, rfl⟩

theorem Descends.above (h : t.Descends m n l) : t.Above n m := by
  induction h with
  | here => exact .here
  | down hparent _ ih => exact Above.trans (.up hparent .here) ih

theorem Above.le (h : t.Linked) (hab : t.Above a b) (hb : b < t.idCounter) : a ≤ b := by
  induction hab with
  | here => exact le_rfl
  | up hparent _ ih =>
    have hlt := h.parent_lt hb hparent
    exact (ih (hlt.trans hb)).trans hlt.le

theorem Descends.path_eq (h : t.Linked) (hm : m < t.idCounter) (hd : t.Descends m n l) :
    t.path m = (t.path n).dropLast ++ l := by
  induction hd with
  | here =>
    obtain ⟨l, hl⟩ := t.path_ends m
    simp [hl]
  | @down n c l hparent hd ih =>
    have hc := hd.above.lt h hm
    obtain ⟨front, hfront⟩ := t.path_ends n
    rw [ih, path_of_parent h hc hparent, List.dropLast_concat, hfront, List.dropLast_concat]
    simp

theorem Above.cases_child (hab : t.Above a b) (hne : a ≠ b) :
    ∃ c, (t.contextMap c).parent = some a ∧ t.Above c b := by
  induction hab with
  | here => exact absurd rfl hne
  | @up m q hparent hq ih =>
    by_cases haq : a = q
    · subst haq
      exact ⟨m, hparent, .here⟩
    · obtain ⟨c, hc, hcq⟩ := ih haq
      exact ⟨c, hc, .up hparent hcq⟩

theorem Above.total (ha : t.Above a m) (hb : t.Above b m) : t.Above a b ∨ t.Above b a := by
  induction ha with
  | here => exact .inr hb
  | @up m q hparent haq ih =>
    cases hb with
    | here => exact .inl (.up hparent haq)
    | up hparent' hbq =>
      obtain rfl := Option.some.inj (hparent.symm.trans hparent')
      exact ih hbq

theorem Above.sibling (h : t.Linked) (hb : b < t.idCounter) (hab : t.Above a b)
    (ha : (t.contextMap a).parent = some n) (hbp : (t.contextMap b).parent = some n) : a = b := by
  cases hab with
  | here => rfl
  | up hparent haq =>
    obtain rfl := Option.some.inj (hparent.symm.trans hbp)
    have hn := h.parent_lt hb hbp
    have hle := haq.le h (hn.trans hb)
    have hlt := h.parent_lt (show a < t.idCounter by omega) ha
    omega

theorem Above.unique_child (h : t.Linked) (hm : m < t.idCounter) (ha : t.Above a m)
    (hb : t.Above b m) (hap : (t.contextMap a).parent = some n)
    (hbp : (t.contextMap b).parent = some n) : a = b := by
  obtain hab | hba := ha.total hb
  · exact hab.sibling h (hb.lt h hm) hap hbp
  · exact (hba.sibling h (ha.lt h hm) hbp hap).symm

/-! ## The manager of a dump -/

def dumpNode (realText : ℚ → Text) (infos : List MetricInfo) (t : ContextTree) (order : List ℕ)
    (n : ℕ) : Offline.Context :=
  withChildren ((writeContexts realText infos t order).map .ofXml)
    (.ofXml (contextXml realText infos t n))

def dumpManager (realText : ℚ → Text) (infos : List MetricInfo) (t : ContextTree)
    (order : List ℕ) : ContextManager :=
  treeManager ((writeContexts realText infos t order).map .ofXml)
    (.ofXml (contextXml realText infos t 0))

def DumpLeaf (t : ContextTree) (order : List ℕ) (m : ℕ) : Prop :=
  m ∈ t.dump order ∧ ∀ c ∈ t.dump order, (t.contextMap c).parent ≠ some m

variable {realText : ℚ → Text} {infos : List MetricInfo} {order : List ℕ}

theorem contextXml_parentId :
    (contextXml realText infos t c).parentId = idText n ↔ (t.contextMap c).parent = some n := by
  simp only [contextXml]
  cases (t.contextMap c).parent with
  | none => simpa using (idText_ne_noParent n).symm
  | some q => simp [idText_injective.eq_iff]

theorem contextDict_dumpManager (h : t.Linked) (horder : order.Perm (List.range t.idCounter))
    (hn : n ∈ t.dump order) :
    (dumpManager realText infos t order).contextDict (idText n) =
      some (dumpNode realText infos t order n) := by
  have htree := isTree_dump realText infos h horder (List.ne_nil_of_mem hn)
  exact Offline.contextDict_collected htree.nodup (List.mem_map_of_mem (List.mem_map_of_mem hn))

theorem mem_childrenIds_dumpNode {id : Offline.Text} :
    id ∈ (dumpNode realText infos t order n).childrenIds ↔
      ∃ c ∈ t.dump order, (t.contextMap c).parent = some n ∧ id = idText c := by
  rw [dumpNode, withChildren, List.mem_toFinset, Offline.mem_childrenOf]
  constructor
  · rintro ⟨x, hx, hparent, rfl⟩
    obtain ⟨y, hy, rfl⟩ := List.mem_map.mp hx
    obtain ⟨c, hc, rfl⟩ := List.mem_map.mp hy
    have hxml : (contextXml realText infos t c).parentId = idText n := hparent
    exact ⟨c, hc, contextXml_parentId.mp hxml, rfl⟩
  · rintro ⟨c, hc, hparent, rfl⟩
    have hxml : (contextXml realText infos t c).parentId = idText n :=
      contextXml_parentId.mpr hparent
    exact ⟨_, List.mem_map_of_mem (List.mem_map_of_mem hc), hxml, rfl⟩

theorem childrenIds_dumpNode_eq_empty (hm : m ∈ t.dump order) :
    (dumpNode realText infos t order m).childrenIds = ∅ ↔ DumpLeaf t order m := by
  rw [Finset.eq_empty_iff_forall_notMem]
  constructor
  · intro h
    exact ⟨hm, fun c hc hparent => h _ (mem_childrenIds_dumpNode.mpr ⟨c, hc, hparent, rfl⟩)⟩
  · rintro ⟨-, h⟩ id hid
    obtain ⟨c, hc, hparent, -⟩ := mem_childrenIds_dumpNode.mp hid
    exact h c hc hparent

theorem exists_children (realText : ℚ → Text) (infos : List MetricInfo) (t : ContextTree)
    (order : List ℕ) (sets : SetOrder) (n : ℕ) :
    ∃ cs : List ℕ, sets.list (dumpNode realText infos t order n) = cs.map idText ∧ cs.Nodup ∧
      ∀ c, c ∈ cs ↔ c ∈ t.dump order ∧ (t.contextMap c).parent = some n := by
  have hmem : ∀ id, id ∈ sets.list (dumpNode realText infos t order n) ↔
      ∃ c ∈ t.dump order, (t.contextMap c).parent = some n ∧ id = idText c := fun id => by
    rw [sets.mem, mem_childrenIds_dumpNode]
  have hrange : sets.list (dumpNode realText infos t order n) ∈ Set.range (List.map idText) := by
    rw [Set.range_list_map]
    intro id hid
    obtain ⟨c, -, -, rfl⟩ := (hmem id).mp hid
    exact ⟨c, rfl⟩
  obtain ⟨cs, hcs⟩ := hrange
  refine ⟨cs, hcs.symm, ?_, ?_⟩
  · have hnodup := sets.nodup (dumpNode realText infos t order n)
    rw [← hcs] at hnodup
    exact hnodup.of_map
  · intro c
    rw [← List.mem_map_of_injective idText_injective, hcs, hmem]
    constructor
    · rintro ⟨d, hd, hparent, heq⟩
      obtain rfl := idText_injective heq
      exact ⟨hd, hparent⟩
    · rintro ⟨hc, hparent⟩
      exact ⟨c, hc, hparent, rfl⟩

/-! ## All paths -/

structure PathsBelow (t : ContextTree) (order tops : List ℕ) (pairs : List (ℕ × List ℕ)) : Prop where
  nodup : (pairs.map Prod.fst).Nodup
  descends : ∀ p ∈ pairs, ∃ c ∈ tops, t.Descends p.1 c p.2
  leaves : ∀ m, m ∈ pairs.map Prod.fst ↔ DumpLeaf t order m ∧ ∃ c ∈ tops, t.Above c m

theorem pathsBelow_nil : PathsBelow t order [] [] := ⟨List.nodup_nil, by simp, by simp⟩

theorem PathsBelow.cons (h : t.Linked) (horder : order.Perm (List.range t.idCounter)) {cs : List ℕ}
    {pairs more : List (ℕ × List ℕ)} (hnodup : (c :: cs).Nodup)
    (hparent : ∀ d ∈ c :: cs, (t.contextMap d).parent = some n)
    (hp : PathsBelow t order [c] pairs) (hmore : PathsBelow t order cs more) :
    PathsBelow t order (c :: cs) (pairs ++ more) := by
  refine ⟨?_, ?_, ?_⟩
  · rw [List.map_append]
    refine List.nodup_append.mpr ⟨hp.nodup, hmore.nodup, ?_⟩
    rintro m hm m' hm' rfl
    obtain ⟨⟨hdump, -⟩, d, hd, habove⟩ := (hp.leaves m).mp hm
    obtain ⟨-, e, he, habove'⟩ := (hmore.leaves m).mp hm'
    obtain rfl := List.mem_singleton.mp hd
    have hlt := (dump_dumped h horder).1.known m hdump
    obtain rfl := habove.unique_child h hlt habove' (hparent d List.mem_cons_self)
      (hparent e (List.mem_cons_of_mem _ he))
    exact (List.nodup_cons.mp hnodup).1 he
  · intro p hpm
    obtain hpm | hpm := List.mem_append.mp hpm
    · obtain ⟨d, hd, hdesc⟩ := hp.descends p hpm
      obtain rfl := List.mem_singleton.mp hd
      exact ⟨d, List.mem_cons_self, hdesc⟩
    · obtain ⟨d, hd, hdesc⟩ := hmore.descends p hpm
      exact ⟨d, List.mem_cons_of_mem _ hd, hdesc⟩
  · intro m
    rw [List.map_append, List.mem_append, hp.leaves, hmore.leaves]
    simp only [List.mem_cons, List.not_mem_nil, or_false, exists_eq_left, exists_eq_or_imp]
    tauto

theorem PathsBelow.under {cs : List ℕ} {pairs : List (ℕ × List ℕ)}
    (hcs : ∀ c, c ∈ cs ↔ c ∈ t.dump order ∧ (t.contextMap c).parent = some n)
    (hdump : t.Dumped (t.dump order)) (hn : ¬DumpLeaf t order n) (hp : PathsBelow t order cs pairs) :
    PathsBelow t order [n] (pairs.map fun p => (p.1, n :: p.2)) := by
  have hfst : (pairs.map fun p => (p.1, n :: p.2)).map Prod.fst = pairs.map Prod.fst := by
    rw [List.map_map]
    rfl
  refine ⟨hfst ▸ hp.nodup, ?_, ?_⟩
  · intro p hpm
    obtain ⟨p', hpm', rfl⟩ := List.mem_map.mp hpm
    obtain ⟨c, hc, hdesc⟩ := hp.descends p' hpm'
    exact ⟨n, List.mem_singleton_self n, .down ((hcs c).mp hc).2 hdesc⟩
  · intro m
    rw [hfst, hp.leaves]
    simp only [List.mem_singleton, exists_eq_left]
    refine and_congr_right fun hleaf => ?_
    constructor
    · rintro ⟨c, hc, habove⟩
      exact Above.trans (.up ((hcs c).mp hc).2 .here) habove
    · intro habove
      have hne : n ≠ m := fun heq => hn (heq ▸ hleaf)
      obtain ⟨c, hparent, habove⟩ := habove.cases_child hne
      exact ⟨c, (hcs c).mpr ⟨hdump.above habove hleaf.1, hparent⟩, habove⟩

theorem pathsBelow_leaf (hn : DumpLeaf t order n) (hdump : t.Dumped (t.dump order)) :
    PathsBelow t order [n] [(n, [n])] := by
  refine ⟨List.nodup_singleton _, ?_, ?_⟩
  · intro p hp
    obtain rfl := List.mem_singleton.mp hp
    exact ⟨n, List.mem_singleton_self n, .here⟩
  · intro m
    simp only [List.map_cons, List.map_nil, List.mem_singleton, exists_eq_left]
    constructor
    · rintro rfl
      exact ⟨hn, .here⟩
    · rintro ⟨hleaf, habove⟩
      by_contra hne
      obtain ⟨c, hparent, hbelow⟩ := habove.cases_child (Ne.symm hne)
      exact hn.2 c (hdump.above hbelow hleaf.1) hparent

theorem mapM_getAllPaths (h : t.Linked) (horder : order.Perm (List.range t.idCounter))
    {f : Offline.Text → Option (List (List Offline.Context))} {node : ℕ → Offline.Context}
    (cs : List ℕ) (hnodup : cs.Nodup) (hparent : ∀ c ∈ cs, (t.contextMap c).parent = some n)
    (hf : ∀ c ∈ cs, ∃ pairs, f (idText c) = some (pairs.map fun p => p.2.map node) ∧
      PathsBelow t order [c] pairs) :
    ∃ below pairs, (cs.map idText).mapM f = some below ∧
      below.flatten = pairs.map (fun p => p.2.map node) ∧ PathsBelow t order cs pairs := by
  induction cs with
  | nil => exact ⟨[], [], rfl, rfl, pathsBelow_nil⟩
  | cons c cs ih =>
    obtain ⟨hc, hcs⟩ := List.forall_mem_cons.mp hf
    obtain ⟨pairs, hpairs, hp⟩ := hc
    obtain ⟨below, more, hmapM, hflat, hmore⟩ := ih (List.nodup_cons.mp hnodup).2
      (List.forall_mem_cons.mp hparent).2 hcs
    refine ⟨(pairs.map fun p => p.2.map node) :: below, pairs ++ more, ?_, ?_,
      .cons h horder hnodup hparent hp hmore⟩
    · rw [List.map_cons, List.mapM_cons, hpairs, hmapM]
      rfl
    · rw [List.flatten_cons, hflat, List.map_append]

theorem getAllPaths_dump (h : t.Linked) (horder : order.Perm (List.range t.idCounter))
    (sets : SetOrder) (fuel n : ℕ) (hn : n ∈ t.dump order) (hfuel : t.idCounter ≤ n + fuel) :
    ∃ pairs, (dumpManager realText infos t order).getAllPaths sets .rootLeaf fuel (idText n) =
        some (pairs.map fun p => p.2.map (dumpNode realText infos t order)) ∧
      PathsBelow t order [n] pairs := by
  have hdump := (dump_dumped h horder).1
  -- A child has a larger id than its parent, so the fuel that is left is enough for it.
  induction fuel generalizing n with
  | zero =>
    have hlt := hdump.known n hn
    omega
  | succ fuel ih =>
    rw [ContextManager.getAllPaths, contextDict_dumpManager h horder hn]
    by_cases hleaf : DumpLeaf t order n
    · refine ⟨[(n, [n])], ?_, pathsBelow_leaf hleaf hdump⟩
      simp [(childrenIds_dumpNode_eq_empty hn).mpr hleaf]
    · obtain ⟨cs, hlist, hnodup, hcs⟩ := exists_children realText infos t order sets n
      obtain ⟨below, pairs, hmapM, hflat, hp⟩ := mapM_getAllPaths h horder cs hnodup
        (fun c hc => ((hcs c).mp hc).2)
        (fun c hc => by
          obtain ⟨hcd, hparent⟩ := (hcs c).mp hc
          have hlt := h.parent_lt (hdump.known c hcd) hparent
          exact ih c hcd (by omega))
      refine ⟨pairs.map fun p => (p.1, n :: p.2), ?_, hp.under hcs hdump hleaf⟩
      have hempty : (dumpNode realText infos t order n).childrenIds ≠ ∅ := fun hnil =>
        hleaf ((childrenIds_dumpNode_eq_empty hn).mp hnil)
      rw [← hlist] at hmapM
      simp only [Option.bind_eq_bind, Option.bind_some, if_neg hempty, hmapM, hflat, List.map_map]
      rfl

end ContextTree
end Trace4J.Profiler
