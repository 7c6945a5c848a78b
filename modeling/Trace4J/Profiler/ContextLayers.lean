import Trace4J.Profiler.MetricsHistory
import Trace4J.Profiler.ThreadEnd

/-!
# The layers of a context tree

The paths of `constructContext` give the tree three layers: the callers, whose frames have
address 0, then the instruction, whose address is not 0, then the entry of the callee. Equal
children are shared, and since their addresses are compared no child is shared across two
layers. Metrics are set on entries only, and nothing is ever put under an entry.
-/

namespace Trace4J.Profiler
open Library

inductive Layer
  | caller
  | instruction
  | callee
deriving DecidableEq

def Layer.Fits (l above : Layer) (f : ContextFrame) : Prop :=
  match l with
  | .caller => above = .caller ∧ f.binaryAddr = 0
  | .instruction => above = .caller ∧ f.binaryAddr ≠ 0
  | .callee => above = .instruction

structure Layers (t : ContextTree) (layer : ℕ → Layer) : Prop where
  linked : t.Linked
  root : layer 0 = .caller
  fits : ∀ n < t.idCounter, ∀ q, (t.contextMap n).parent = some q →
    (layer n).Fits (layer q) (t.contextMap n).frame
  metrics : ∀ n < t.idCounter, (t.contextMap n).metrics.isSome → layer n = .callee

def ContextTree.Layered (t : ContextTree) : Prop := ∃ layer, Layers t layer

section Growth
variable {t : ContextTree} {layer : ℕ → Layer} {q : ℕ} {f : ContextFrame} {l l' above : Layer}

theorem Layer.Fits.unique (h : l.Fits above f) (h' : l'.Fits above f) : l = l' := by
  cases l <;> cases l' <;> simp_all [Layer.Fits]

theorem layers_new : Layers ContextTree.new fun _ => .caller := by
  refine ⟨ContextTree.linked_new, rfl, ?_, ?_⟩
  · intro n _ q hq
    cases hq
  · intro n _ hm
    cases hm

theorem Layers.grow (h : Layers t layer) (hq : q < t.idCounter) (hl : l.Fits (layer q) f) :
    Layers (t.grow q f) (Function.update layer t.idCounter l) := by
  have hold : ∀ n < t.idCounter, Function.update layer t.idCounter l n = layer n :=
    fun n hn => Function.update_of_ne hn.ne _ _
  refine ⟨h.linked.grow hq, by rw [hold 0 h.linked.root, h.root], ?_, ?_⟩
  · intro n hn p hp
    by_cases hnew : n = t.idCounter
    · subst hnew
      rw [ContextTree.grow_new] at hp ⊢
      obtain rfl := Option.some.inj hp
      rwa [Function.update_self, hold q hq]
    · have hlt : n < t.idCounter := by
        have hle : n < t.idCounter + 1 := hn
        omega
      obtain ⟨hframe, -, hparent⟩ := ContextTree.grow_old (q := q) (f := f) hlt
      rw [hparent] at hp
      rw [hframe, hold n hlt, hold p ((h.linked.parent_lt hlt hp).trans hlt)]
      exact h.fits n hlt p hp
  · intro n hn hm
    by_cases hnew : n = t.idCounter
    · subst hnew
      rw [ContextTree.grow_new] at hm
      cases hm
    · have hlt : n < t.idCounter := by
        have hle : n < t.idCounter + 1 := hn
        omega
      rw [(ContextTree.grow_old hlt).2.1] at hm
      rw [hold n hlt]
      exact h.metrics n hlt hm

theorem Layers.addContext (h : Layers t layer) (hq : q < t.idCounter) (hl : l.Fits (layer q) f) :
    ∃ layer', Layers (t.addContext q f).1 layer' ∧ layer' (t.addContext q f).2 = l ∧
      (t.addContext q f).2 < (t.addContext q f).1.idCounter := by
  obtain ⟨c, hc, hframe, hadd⟩ | hadd := ContextTree.addContext_cases t f hq
  · obtain ⟨-, hlt, hparent⟩ := h.linked.child q hq c hc
    have hfits := h.fits c hlt q hparent
    rw [hframe] at hfits
    rw [hadd]
    exact ⟨layer, h, hfits.unique hl, hlt⟩
  · rw [hadd]
    exact ⟨_, h.grow hq hl, Function.update_self _ _ _, Nat.lt_succ_self _⟩

theorem Layers.addCallers (fs : List ContextFrame) (hfs : ∀ f ∈ fs, f.binaryAddr = 0)
    (h : Layers t layer) (hq : q < t.idCounter) (hcaller : layer q = .caller) :
    ∃ layer', Layers (t.addPath q fs).1 layer' ∧ layer' (t.addPath q fs).2 = .caller ∧
      (t.addPath q fs).2 < (t.addPath q fs).1.idCounter := by
  induction fs generalizing t layer q with
  | nil => exact ⟨layer, h, hcaller, hq⟩
  | cons f fs ih =>
    obtain ⟨hf, hfs⟩ := List.forall_mem_cons.mp hfs
    obtain ⟨layer', h', hlayer, hlt⟩ := h.addContext (l := .caller) hq ⟨hcaller, hf⟩
    exact ih hfs h' hlt hlayer

theorem addPath_append (t : ContextTree) (q : ℕ) (fs gs : List ContextFrame) :
    t.addPath q (fs ++ gs) = (t.addPath q fs).1.addPath (t.addPath q fs).2 gs := by
  induction fs generalizing t q with
  | nil => rfl
  | cons f fs ih => exact ih _ _

theorem binaryAddr_callerFrames (trace : CallTrace) {f : ContextFrame}
    (hf : f ∈ callerFrames trace) : f.binaryAddr = 0 := by
  obtain ⟨i, -, rfl⟩ := List.mem_map.mp hf
  rfl

theorem Layers.constructContext (h : Layers t layer) (trace : CallTrace) {ip : UInt64}
    (hip : ip ≠ 0) (methodId : UInt64) (methodVersion : UInt32) (callee : ContextFrame) :
    let r := Profiler.constructContext t trace ip methodId methodVersion callee
    ∃ layer', Layers r.1 layer' ∧ layer' r.2 = .callee := by
  intro r
  have hr : r = _ := addPath_append t contextTreeRootId (callerFrames trace)
    [leafFrame ip methodId methodVersion, callee]
  obtain ⟨layer₁, h₁, hcaller, hlt₁⟩ := h.addCallers (callerFrames trace)
    (fun f hf => binaryAddr_callerFrames trace hf) h.linked.root h.root
  obtain ⟨layer₂, h₂, hinstruction, hlt₂⟩ := h₁.addContext (l := .instruction)
    (f := leafFrame ip methodId methodVersion) hlt₁ ⟨hcaller, hip⟩
  obtain ⟨layer₃, h₃, hcallee, -⟩ := h₂.addContext (l := .callee) (f := callee) hlt₂ hinstruction
  rw [hr]
  exact ⟨layer₃, h₃, hcallee⟩

theorem Layers.setMetrics (h : Layers t layer) {ctxt : ℕ} (hctxt : layer ctxt = .callee)
    (m : ContextMetrics) : Layers (t.setMetrics ctxt m) layer := by
  have hold : ∀ n, ((t.setMetrics ctxt m).contextMap n).parent = (t.contextMap n).parent ∧
      ((t.setMetrics ctxt m).contextMap n).frame = (t.contextMap n).frame := by
    intro n
    by_cases hn : n = ctxt
    · subst hn
      simp [ContextTree.setMetrics]
    · simp [ContextTree.setMetrics, Function.update_of_ne hn]
  refine ⟨h.linked.setMetrics ctxt m, h.root, ?_, ?_⟩
  · intro n hn q hq
    rw [(hold n).1] at hq
    rw [(hold n).2]
    exact h.fits n hn q hq
  · intro n hn hm
    by_cases hctx : n = ctxt
    · rw [hctx, hctxt]
    · simp only [ContextTree.setMetrics, Function.update_of_ne hctx] at hm
      exact h.metrics n hn hm

theorem Layers.leaf (h : Layers t layer) {n : ℕ} (hn : n < t.idCounter)
    (hm : (t.contextMap n).metrics.isSome) : (t.contextMap n).children = [] := by
  rw [List.eq_nil_iff_forall_not_mem]
  intro c hc
  obtain ⟨-, hlt, hparent⟩ := h.linked.child n hn c hc
  have hfits := h.fits c hlt n hparent
  rw [h.metrics n hn hm] at hfits
  cases hl : layer c <;> simp [hl, Layer.Fits] at hfits

end Growth

/-! ## A run -/

section Run
variable {cfg : Config} {env : Env} {s s' : Thread}

theorem TreeStep.layered (h : TreeStep cfg env s s') (henv : env.getMethod 0 = none)
    (ht : s.contextTree.Layered) : s'.contextTree.Layered := by
  obtain ⟨layer, ht⟩ := ht
  cases h with
  | same htree _ => exact ⟨layer, htree ▸ ht⟩
  | @build ip _ hm htree _ =>
    have hip : ip ≠ 0 := by
      rintro rfl
      rw [henv] at hm
      cases hm
    obtain ⟨layer', h', -⟩ := ht.constructContext env.trace hip _ _ _
    exact ⟨layer', htree ▸ h'⟩
  | record pc methodId version inst hpc _ hctxt _ htree _ =>
    obtain ⟨layer', h', hcallee⟩ := ht.constructContext env.trace hpc methodId version
      inst.frame
    rw [← hctxt] at hcallee
    exact ⟨layer', htree ▸ h'.setMetrics hcallee _⟩

theorem layered_run {events : List Event} (henv : ∀ ev ∈ events, ev.env.getMethod 0 = none)
    (ht : s.contextTree.Layered) (hrun : run (step cfg) events s = .ok s') :
    s'.contextTree.Layered := by
  refine run_invariant (P := fun s => s.contextTree.Layered) ?_ ht (meets_of_mem henv) hrun
  intro ev s s' hs hev hstep
  exact (step_treeStep hstep).layered hev hs

end Run
end Trace4J.Profiler
