import Trace4J.Offline.HomoXmlParser

/-!
# Exceptions in the threads of the parser

The threads of `HomoXMLParser` when a routine may raise. Neither `ThreadWorker.run` nor
`assignWork` catches anything: the thread of the routine ends, without its `_finish_cb`,
and in the master the constructor is left. The other threads go on.
-/

namespace Trace4J.Offline
open Library

/-- `raised` lists the routines that were left by an exception. -/
structure RaisingState where
  state : State := {}
  raised : List ℕ := []

def Actor.routine (s : State) : Actor → Option ℕ
  | .worker k => some k
  | .master =>
    match s.master with
    | .inline k => some k
    | _ => none

def raisingStep (tag fileStr : Text) (maxWorkers : ℕ) (a : Actor) (s : RaisingState) :
    Except Blocked RaisingState :=
  if (a.routine s.state).any (· ∈ s.raised) then .error .notRunnable
  else
    match step tag fileStr maxWorkers a s.state with
    | .ok s' => .ok { s with state := s' }
    | .error .exception => .ok { s with raised := (a.routine s.state).toList ++ s.raised }
    | .error .notRunnable => .error .notRunnable

def RaisingState.ProducerStopped (s : RaisingState) : Prop :=
  (s.state.task 0).HasEnded ∨ 0 ∈ s.raised

def RaisingState.ThreadStopped (s : RaisingState) (k : ℕ) : Prop :=
  s.state.task k = .joined ∨ k ∈ s.raised

/-- The consumers wait for the flag, and `finish` for the threads in the list. -/
structure WaitsForRunning (s : RaisingState) : Prop where
  producer : s.ProducerStopped → s.state.shared.producerWorkDone = true
  worker : ∀ k, s.ThreadStopped k → k ∉ s.state.activeWorkerList

/-! ## Inputs -/

inductive CutInto (tag : Text) : Text → List Text → Prop
  | nil : CutInto tag [] []
  | cons {c : Char} {text piece rest : Text} {pieces : List Text} :
      cutNode tag (c :: text) = some (piece, rest) → CutInto tag rest pieces →
      CutInto tag (c :: text) (piece :: pieces)

def LoneNode (nodeStr : Text) : Prop :=
  ∃ levelNode, (parseXml nodeStr).map XmlNode.children = some [levelNode]

variable {tag fileStr content text : Text} {pieces ns : List Text} {maxWorkers k : ℕ} {a : Actor}
variable {pc pc' : Pc} {sh sh' : Shared} {s s' : State} {st : Status} {r r' t : RaisingState}

theorem cutNode_length {piece rest : Text} (h : cutNode tag text = some (piece, rest)) :
    rest.length < text.length := by
  unfold cutNode at h
  split_ifs at h with hfound
  obtain ⟨-, rfl⟩ := Prod.mk.inj (Option.some.inj h)
  have hlen := findText_length hfound.2
  have hclose : 0 < (closeTag tag).length := by simp [closeTag]
  have hstrip := strip_length_le
    (text.drop ((findText (closeTag tag) text).toNat + (closeTag tag).length))
  rw [List.length_drop] at hstrip
  omega

/-! ## Steps that raise -/

theorem stepTask_raises (h : stepTask tag k pc s = .error .exception) :
    routineStep tag pc s.shared = .error .exception := by
  rcases bind_eq_error.mp h with h | ⟨p, -, h⟩
  · exact h
  · cases h

theorem step_raises (h : step tag fileStr maxWorkers a s = .error .exception) :
    ∃ k pc, a.routine s = some k ∧ s.task k = .running pc ∧
      routineStep tag pc s.shared = .error .exception := by
  cases a with
  | worker k =>
    dsimp only [step, workerStep] at h
    split_ifs at h
    · split at h
      · cases h
      · next pc _ hk => exact ⟨k, pc, rfl, hk, stepTask_raises h⟩
      · cases h
    · cases h
  | master =>
    dsimp only [step, masterStep] at h
    split at h
    · split_ifs at h
    · cases h
    · next k hm =>
      split at h
      · cases h
      · next pc _ hk => exact ⟨k, pc, by simp [Actor.routine, hm], hk, stepTask_raises h⟩
      · cases h
    · split_ifs at h
    · cases h

theorem raisingStep_ok (h : raisingStep tag fileStr maxWorkers a r = .ok r') :
    step tag fileStr maxWorkers a r.state = .ok r'.state ∧ r'.raised = r.raised ∨
      step tag fileStr maxWorkers a r.state = .error .exception ∧ r'.state = r.state ∧
        r'.raised = (a.routine r.state).toList ++ r.raised := by
  unfold raisingStep at h
  split_ifs at h
  split at h
  · next s' hs =>
    cases h
    exact .inl ⟨hs, rfl⟩
  · next hs =>
    cases h
    exact .inr ⟨hs, rfl, rfl⟩
  · cases h

/-! ## What the threads keep -/

def Pc.Fits (tag : Text) (pieces : List Text) (k : ℕ) (done : Bool) : Pc → Prop
  | .produce text => k = 0 ∧ ∃ ns, CutInto tag text ns ∧ ns ⊆ pieces
  | .parse nodeStr => k ≠ 0 ∧ nodeStr ∈ pieces
  | .returned => k = 0 → done = true
  | _ => k ≠ 0

structure Guarded (tag : Text) (pieces : List Text) (maxWorkers : ℕ) (s : State) : Prop where
  fits : ∀ k pc, s.task k = .running pc → pc.Fits tag pieces k s.shared.producerWorkDone
  queue : s.shared.levelOneStrQueue ⊆ pieces
  ended : s.task 0 = .joined → s.shared.producerWorkDone = true
  pending : ∀ k, s.master.taken ≤ k → s.task k = .unassigned
  nodup : s.activeWorkerList.Nodup
  active : ∀ k ∈ s.activeWorkerList, (s.task k).IsLive
  inline : ∀ k, s.master = .inline k → k ∉ s.activeWorkerList
  idle : maxWorkers = 0 → s.activeWorkerList = []

theorem guarded_init : Guarded tag pieces maxWorkers {} where
  fits k pc h := by cases h
  queue := List.nil_subset _
  ended h := by cases h
  pending _ _ := rfl
  nodup := List.nodup_nil
  active k h := by cases h
  inline k h := by cases h
  idle _ := rfl

theorem Pc.Fits.mono {done done' : Bool} (h : pc.Fits tag pieces k done)
    (hdone : done = true → done' = true) : pc.Fits tag pieces k done' := by
  cases pc with
  | returned => exact fun hk => hdone (h hk)
  | _ => exact h

theorem routineStep_fits (h : pc.Fits tag pieces k sh.producerWorkDone)
    (hq : sh.levelOneStrQueue ⊆ pieces) (hs : routineStep tag pc sh = .ok (pc', sh')) :
    pc'.Fits tag pieces k sh'.producerWorkDone ∧ sh'.levelOneStrQueue ⊆ pieces ∧
      (sh.producerWorkDone = true → sh'.producerWorkDone = true) := by
  cases pc with
  | produce text =>
    obtain ⟨rfl, ns, hcut, hns⟩ := h
    cases hcut with
    | nil =>
      cases hs
      exact ⟨fun _ => rfl, hq, fun _ => rfl⟩
    | cons hnode hrest =>
      rw [routineStep, hnode] at hs
      cases hs
      obtain ⟨hpiece, hpieces⟩ := List.cons_subset.mp hns
      exact ⟨⟨rfl, _, hrest, hpieces⟩, List.append_subset.mpr ⟨hq, by simpa using hpiece⟩, id⟩
  | head =>
    cases hs
    split_ifs
    · exact ⟨h, hq, id⟩
    · exact ⟨h, hq, id⟩
  | checkEmpty =>
    cases hs
    split_ifs
    · exact ⟨fun hk => absurd hk h, hq, id⟩
    · exact ⟨h, hq, id⟩
  | get =>
    rw [routineStep] at hs
    split at hs
    · cases hs
      exact ⟨h, hq, id⟩
    · next nodeStr queue hqueue =>
      cases hs
      rw [hqueue] at hq
      obtain ⟨hnode, hrest⟩ := List.cons_subset.mp hq
      exact ⟨⟨h, hnode⟩, hrest, id⟩
  | parse nodeStr =>
    rw [routineStep] at hs
    split at hs
    · cases hs
      exact ⟨h.1, hq, id⟩
    · cases hs
  | add levelNode =>
    cases hs
    exact ⟨h, hq, id⟩
  | returned => cases hs

/-- Of the fitting routines only a consumer raises, at a piece that is not one node. -/
theorem routineStep_raises (h : pc.Fits tag pieces k sh.producerWorkDone)
    (hs : routineStep tag pc sh = .error .exception) :
    k ≠ 0 ∧ ∃ p ∈ pieces, ¬LoneNode p := by
  cases pc with
  | produce text =>
    obtain ⟨-, ns, hcut, -⟩ := h
    cases hcut with
    | nil => cases hs
    | cons hnode _ =>
      rw [routineStep, hnode] at hs
      cases hs
  | parse nodeStr =>
    rw [routineStep] at hs
    split at hs
    · cases hs
    · next hmany =>
      refine ⟨h.1, nodeStr, h.2, ?_⟩
      rintro ⟨levelNode, hone⟩
      exact hmany levelNode hone
  | get =>
    rw [routineStep] at hs
    split at hs
    · cases hs
    · cases hs
  | _ => cases hs

theorem startPc_fits (hcut : CutInto tag (strip content) pieces) (done : Bool) :
    (startPc content k).Fits tag pieces k done := by
  unfold startPc
  split_ifs with hk
  · exact ⟨hk, pieces, hcut, List.Subset.refl _⟩
  · exact hk

namespace Guarded

theorem lt_taken (h : Guarded tag pieces maxWorkers s) (hk : s.task k ≠ .unassigned) :
    k < s.master.taken := by
  by_contra hn
  exact hk (h.pending k (not_lt.mp hn))

theorem not_active (h : Guarded tag pieces maxWorkers s) (hk : s.task k = .unassigned) :
    k ∉ s.activeWorkerList := by
  intro hmem
  have hlive := h.active k hmem
  rw [hk] at hlive
  exact hlive

theorem set (h : Guarded tag pieces maxWorkers s) (ht : TaskSet s s' k st)
    (hfits : ∀ pc, st = .running pc → pc.Fits tag pieces k s'.shared.producerWorkDone)
    (hqueue : s'.shared.levelOneStrQueue ⊆ pieces)
    (hdone : s.shared.producerWorkDone = true → s'.shared.producerWorkDone = true)
    (hended : k = 0 → st = .joined → s'.shared.producerWorkDone = true)
    (htaken : k < s'.master.taken ∧ s.master.taken ≤ s'.master.taken)
    (hnodup : s'.activeWorkerList.Nodup)
    (hactive : ∀ j ∈ s'.activeWorkerList, j = k ∧ st.IsLive ∨ j ≠ k ∧ j ∈ s.activeWorkerList)
    (hinline : ∀ j, s'.master = .inline j → j ∉ s'.activeWorkerList)
    (hidle : maxWorkers = 0 → s'.activeWorkerList = []) :
    Guarded tag pieces maxWorkers s' where
  fits j pc hj := by
    by_cases hne : j = k
    · subst hne
      exact hfits pc (ht.self.symm.trans hj)
    · exact (h.fits j pc ((ht.other j hne).symm.trans hj)).mono hdone
  queue := hqueue
  ended hj := by
    by_cases hne : 0 = k
    · subst hne
      exact hended rfl (ht.self.symm.trans hj)
    · exact hdone (h.ended ((ht.other 0 hne).symm.trans hj))
  pending j hj := by
    rw [ht.other j (by omega)]
    exact h.pending j (by omega)
  nodup := hnodup
  active j hj := by
    obtain ⟨rfl, hlive⟩ | ⟨hne, hmem⟩ := hactive j hj
    · exact ht.self ▸ hlive
    · exact ht.other j hne ▸ h.active j hmem
  inline := hinline
  idle := hidle

theorem stepTask (h : Guarded tag pieces maxWorkers s) (hk : s.task k = .running pc)
    (hs : Offline.stepTask tag k pc s = .ok s') : Guarded tag pieces maxWorkers s' := by
  obtain ⟨pc', hr, ht, hactive, hmaster⟩ := stepTask_ok hs
  obtain ⟨hfits, hqueue, hdone⟩ := routineStep_fits (h.fits k pc hk) h.queue hr
  apply h.set ht
  · rintro q ⟨⟩
    exact hfits
  · exact hqueue
  · exact hdone
  · rintro - ⟨⟩
  · rw [hmaster]
    exact ⟨h.lt_taken (by simp [hk]), le_rfl⟩
  · rw [hactive]
    exact h.nodup
  · intro j hj
    rw [hactive] at hj
    by_cases hne : j = k
    · exact .inl ⟨hne, trivial⟩
    · exact .inr ⟨hne, hj⟩
  · rw [hactive, hmaster]
    exact h.inline
  · rw [hactive]
    exact h.idle

theorem move (h : Guarded tag pieces maxWorkers s) {m : Master}
    (htaken : s.master.taken ≤ m.taken) (hinline : ∀ j, m ≠ .inline j) :
    Guarded tag pieces maxWorkers { s with master := m } :=
  { h with
    pending := fun k hk => h.pending k (htaken.trans hk)
    inline := fun k hk => absurd hk (hinline k) }

theorem joined (h : Guarded tag pieces maxWorkers s) (hk : s.task k = .running .returned)
    (ht : TaskSet s s' k .joined) (hsh : s'.shared = s.shared)
    (htaken : s.master.taken ≤ s'.master.taken)
    (hsub : s'.activeWorkerList.Sublist s.activeWorkerList) (hnot : k ∉ s'.activeWorkerList)
    (hinline : ∀ j, s'.master = .inline j → s.master = .inline j) :
    Guarded tag pieces maxWorkers s' := by
  apply h.set ht
  · rintro q ⟨⟩
  · rw [hsh]
    exact h.queue
  · rw [hsh]
    exact id
  · rintro rfl -
    rw [hsh]
    exact h.fits 0 .returned hk rfl
  · exact ⟨(h.lt_taken (by simp [hk])).trans_le htaken, htaken⟩
  · exact h.nodup.sublist hsub
  · intro j hj
    exact .inr ⟨fun hjk => hnot (hjk ▸ hj), hsub.subset hj⟩
  · exact fun j hj hmem => h.inline j (hinline j hj) (hsub.subset hmem)
  · intro hzero
    exact List.sublist_nil.mp (h.idle hzero ▸ hsub)

theorem workerStep (h : Guarded tag pieces maxWorkers s)
    (hs : Offline.workerStep tag k s = .ok s') : Guarded tag pieces maxWorkers s' := by
  unfold Offline.workerStep at hs
  split_ifs at hs
  split at hs
  · next hk =>
    cases hs
    exact h.joined hk (taskSet_of_eq rfl) rfl le_rfl (List.erase_sublist ..)
      h.nodup.not_mem_erase fun _ => id
  · next pc _ hk => exact h.stepTask hk hs
  · cases hs

theorem start (h : Guarded tag pieces maxWorkers s) (hcut : CutInto tag (strip content) pieces)
    (ht : TaskSet s s' k (.running (startPc content k))) (hsh : s'.shared = s.shared)
    (htaken : k < s'.master.taken ∧ s.master.taken ≤ s'.master.taken)
    (hactive : s'.activeWorkerList = s.activeWorkerList)
    (hinline : ∀ j, s'.master = .inline j → j ∉ s.activeWorkerList) :
    Guarded tag pieces maxWorkers s' := by
  apply h.set ht
  · rintro q ⟨⟩
    exact startPc_fits hcut _
  · rw [hsh]
    exact h.queue
  · rw [hsh]
    exact id
  · rintro - ⟨⟩
  · exact htaken
  · rw [hactive]
    exact h.nodup
  · intro j hj
    rw [hactive] at hj
    by_cases hne : j = k
    · exact .inl ⟨hne, trivial⟩
    · exact .inr ⟨hne, hj⟩
  · rw [hactive]
    exact hinline
  · rw [hactive]
    exact h.idle

theorem create (h : Guarded tag pieces maxWorkers s) (hm : s.master = .assign k)
    (hroom : s.activeWorkerList.length < maxWorkers) :
    Guarded tag pieces maxWorkers { s.setTask k .created with
      activeWorkerList := s.activeWorkerList ++ [k], master := .start k } := by
  have hk : s.task k = .unassigned := h.pending k (by rw [hm]; rfl)
  have ht : TaskSet s { s.setTask k .created with
      activeWorkerList := s.activeWorkerList ++ [k], master := .start k } k .created :=
    taskSet_of_eq rfl
  apply h.set ht
  · rintro q ⟨⟩
  · exact h.queue
  · exact id
  · rintro - ⟨⟩
  · rw [hm]
    exact ⟨Nat.lt_succ_self k, Nat.le_succ k⟩
  · rw [← List.concat_eq_append]
    exact h.nodup.concat (h.not_active hk)
  · intro j hj
    obtain hj | hj := List.mem_append.mp hj
    · right
      exact ⟨fun hjk => h.not_active hk (hjk ▸ hj), hj⟩
    · exact .inl ⟨List.mem_singleton.mp hj, trivial⟩
  · rintro j ⟨⟩
  · rintro rfl
    exact absurd hroom (Nat.not_lt_zero _)

theorem masterStep (h : Guarded tag pieces maxWorkers s)
    (hcut : CutInto tag (strip content) pieces)
    (hs : Offline.masterStep tag content maxWorkers s = .ok s') :
    Guarded tag pieces maxWorkers s' := by
  unfold Offline.masterStep at hs
  split at hs
  · next k hm =>
    have htaken : s.master.taken = k := by rw [hm]; rfl
    split_ifs at hs with hall hfull
    · cases hs
      exact h.move (htaken.trans hall).le (by simp)
    · cases hs
      have hk : s.task k = .unassigned := h.pending k htaken.le
      refine h.start hcut (taskSet_of_eq rfl) rfl ⟨Nat.lt_succ_self k, ?_⟩ rfl ?_
      · rw [htaken]
        exact Nat.le_succ k
      · rintro j ⟨⟩
        exact h.not_active hk
    · cases hs
      exact h.create hm (not_le.mp hfull)
  · next k hm =>
    cases hs
    refine h.start hcut (taskSet_of_eq rfl) rfl ⟨Nat.lt_succ_self k, ?_⟩ rfl (by simp)
    rw [hm]
    exact le_rfl
  · next k hm =>
    split at hs
    · next hk =>
      cases hs
      refine h.joined hk (taskSet_of_eq rfl) rfl ?_ (List.Sublist.refl _) (h.inline k hm) (by simp)
      rw [hm]
      exact le_rfl
    · next pc _ hk => exact h.stepTask hk hs
    · cases hs
  · next hm =>
    cases hs
    split_ifs
    · exact h.move (by rw [hm]; exact le_rfl) (by simp)
    · exact h
  · cases hs

theorem step (h : Guarded tag pieces maxWorkers s)
    (hcut : CutInto tag (strip (stripHeader fileStr)) pieces)
    (hs : Offline.step tag fileStr maxWorkers a s = .ok s') : Guarded tag pieces maxWorkers s' := by
  cases a with
  | master => exact h.masterStep hcut hs
  | worker k => exact h.workerStep hs

end Guarded

/-! ## Runs without a lost thread -/

/-- Only an exception in the master is possible, and then no thread is active. -/
def RaisingState.Sound (tag : Text) (pieces : List Text) (maxWorkers : ℕ) (r : RaisingState) :
    Prop :=
  Guarded tag pieces maxWorkers r.state ∧ 0 ∉ r.raised ∧ (r.raised = [] ∨ maxWorkers = 0)

theorem RaisingState.Sound.waits (h : r.Sound tag pieces maxWorkers) : WaitsForRunning r := by
  obtain ⟨hg, hzero, hraised⟩ := h
  constructor
  · rintro (hended | hmem)
    · cases hst : r.state.task 0 with
      | running pc =>
        rw [hst] at hended
        cases pc with
        | returned => exact hg.fits 0 .returned hst rfl
        | _ => exact hended.elim
      | joined => exact hg.ended hst
      | _ =>
        rw [hst] at hended
        exact hended.elim
    · exact absurd hmem hzero
  · rintro k (hjoined | hmem) hactive
    · have hlive := hg.active k hactive
      rw [hjoined] at hlive
      exact hlive
    · obtain hnil | hmax := hraised
      · rw [hnil] at hmem
        cases hmem
      · rw [hg.idle hmax] at hactive
        cases hactive

theorem raisingStep_sound (hcut : CutInto tag (strip (stripHeader fileStr)) pieces)
    (hlone : maxWorkers = 0 ∨ ∀ p ∈ pieces, LoneNode p) (a : Actor) (r r' : RaisingState)
    (h : r.Sound tag pieces maxWorkers) (hs : raisingStep tag fileStr maxWorkers a r = .ok r') :
    r'.Sound tag pieces maxWorkers := by
  obtain ⟨hg, hzero, hraised⟩ := h
  obtain ⟨hstep, heq⟩ | ⟨hstep, hstate, heq⟩ := raisingStep_ok hs
  · rw [RaisingState.Sound, heq]
    exact ⟨hg.step hcut hstep, hzero, hraised⟩
  · obtain ⟨k, pc, hroutine, hk, hraise⟩ := step_raises hstep
    obtain ⟨hne, p, hp, hmany⟩ := routineStep_raises (hg.fits k pc hk) hraise
    rw [hroutine] at heq
    rw [RaisingState.Sound, hstate, heq]
    refine ⟨hg, ?_, .inr (hlone.resolve_right fun hall => hmany (hall p hp))⟩
    simp [hne.symm, hzero]

/-! ## Schedules that lose a thread -/

section Schedules
variable (tag fileStr maxWorkers) in
def Reaches (r t : RaisingState) : Prop :=
  ∃ schedule, run (raisingStep tag fileStr maxWorkers) schedule r = .ok t

theorem Reaches.refl : Reaches tag fileStr maxWorkers r r := ⟨[], rfl⟩

theorem Reaches.cons (hs : raisingStep tag fileStr maxWorkers a r = .ok r')
    (h : Reaches tag fileStr maxWorkers r' t) : Reaches tag fileStr maxWorkers r t := by
  obtain ⟨schedule, hrun⟩ := h
  exact ⟨a :: schedule, run_cons.mpr ⟨r', hs, hrun⟩⟩

theorem Reaches.trans (h : Reaches tag fileStr maxWorkers r r')
    (h' : Reaches tag fileStr maxWorkers r' t) : Reaches tag fileStr maxWorkers r t := by
  obtain ⟨schedule, hrun⟩ := h
  obtain ⟨schedule', hrun'⟩ := h'
  exact ⟨schedule ++ schedule', run_append.mpr ⟨r', hrun, hrun'⟩⟩

structure Runs (a : Actor) (k : ℕ) (pc : Pc) (r : RaisingState) : Prop where
  raised : r.raised = []
  task : r.state.task k = .running pc
  actor : a = .worker k ∧ k ∈ r.state.activeWorkerList ∨ a = .master ∧ r.state.master = .inline k

theorem step_of_runs (h : Runs a k pc r) (hpc : pc ≠ .returned) :
    step tag fileStr maxWorkers a r.state = stepTask tag k pc r.state := by
  have htask := h.task
  obtain ⟨rfl, hmem⟩ | ⟨rfl, hm⟩ := h.actor
  · rw [step, workerStep, if_pos hmem, htask]
    cases pc with
    | returned => exact absurd rfl hpc
    | _ => rfl
  · rw [step, masterStep, hm]
    dsimp only
    rw [htask]
    cases pc with
    | returned => exact absurd rfl hpc
    | _ => rfl

theorem routine_of_runs (h : Runs a k pc r) : a.routine r.state = some k := by
  obtain ⟨rfl, -⟩ | ⟨rfl, hm⟩ := h.actor
  · rfl
  · rw [Actor.routine, hm]

theorem Runs.next (h : Runs a k pc r) (hr : routineStep tag pc r.state.shared = .ok (pc', sh')) :
    ∃ r', raisingStep tag fileStr maxWorkers a r = .ok r' ∧ Runs a k pc' r' ∧
      r'.state.shared = sh' ∧ r'.state.activeWorkerList = r.state.activeWorkerList ∧
      r'.state.master = r.state.master := by
  have hpc : pc ≠ .returned := by
    rintro rfl
    cases hr
  have hstep : step tag fileStr maxWorkers a r.state =
      .ok { r.state.setTask k (.running pc') with shared := sh' } := by
    rw [step_of_runs h hpc, stepTask, hr]
    rfl
  refine ⟨⟨{ r.state.setTask k (.running pc') with shared := sh' }, r.raised⟩, ?_,
    ⟨h.raised, Function.update_self .., h.actor⟩, rfl, rfl, rfl⟩
  rw [raisingStep, hstep]
  simp [h.raised]

theorem Runs.raise (h : Runs a k pc r)
    (hr : routineStep tag pc r.state.shared = .error .exception) :
    ∃ r', raisingStep tag fileStr maxWorkers a r = .ok r' ∧ k ∈ r'.raised ∧
      r'.state = r.state := by
  have hpc : pc ≠ .returned := by
    rintro rfl
    cases hr
  have hstep : step tag fileStr maxWorkers a r.state = .error .exception := by
    rw [step_of_runs h hpc, stepTask, hr]
    rfl
  refine ⟨⟨r.state, k :: r.raised⟩, ?_, List.mem_cons_self, rfl⟩
  rw [raisingStep, hstep, routine_of_runs h]
  simp [h.raised]

/-- The text gets shorter with every piece, so a producer that never comes to its end
meets a piece it cannot cut. -/
theorem producer_raises (h : Runs a 0 (.produce text) r)
    (hdone : r.state.shared.producerWorkDone = false) (hcut : ∀ ns, ¬CutInto tag text ns) :
    ∃ t, Reaches tag fileStr maxWorkers r t ∧ 0 ∈ t.raised ∧
      t.state.shared.producerWorkDone = false := by
  induction hlen : text.length using Nat.strong_induction_on generalizing text r with
  | _ n ih =>
    cases text with
    | nil => exact absurd .nil (hcut [])
    | cons c text =>
      cases hnode : cutNode tag (c :: text) with
      | none =>
        have hraise : routineStep tag (.produce (c :: text)) r.state.shared = .error .exception := by
          rw [routineStep, hnode]
        obtain ⟨r', hs, hmem, hstate⟩ := h.raise hraise
        exact ⟨r', .cons hs .refl, hmem, hstate ▸ hdone⟩
      | some p =>
        obtain ⟨piece, rest⟩ := p
        have hput : routineStep tag (.produce (c :: text)) r.state.shared = .ok (.produce rest,
            { r.state.shared with
              levelOneStrQueue := r.state.shared.levelOneStrQueue ++ [piece] }) := by
          rw [routineStep, hnode]
        obtain ⟨r', hs, hruns, hsh, -, -⟩ := h.next hput
        have hshorter : rest.length < n := hlen ▸ cutNode_length hnode
        have hdone' : r'.state.shared.producerWorkDone = false := by
          rw [hsh]
          exact hdone
        obtain ⟨t, hreach, ht⟩ := ih rest.length hshorter hruns hdone'
          (fun ns hns => hcut (piece :: ns) (.cons hnode hns)) rfl
        exact ⟨t, .cons hs hreach, ht⟩

theorem producer_returns (hcut : CutInto tag text ns) (h : Runs a 0 (.produce text) r) :
    ∃ t, Reaches tag fileStr maxWorkers r t ∧ Runs a 0 .returned t ∧
      t.state.shared.producerWorkDone = true ∧
      t.state.shared.levelOneStrQueue = r.state.shared.levelOneStrQueue ++ ns ∧
      t.state.activeWorkerList = r.state.activeWorkerList ∧ t.state.master = r.state.master := by
  induction hcut generalizing r with
  | nil =>
    have hend : routineStep tag (.produce []) r.state.shared =
        .ok (.returned, { r.state.shared with producerWorkDone := true }) := rfl
    obtain ⟨r', hs, hruns, hsh, hactive, hm⟩ := h.next hend
    refine ⟨r', .cons hs .refl, hruns, ?_, ?_, hactive, hm⟩
    · rw [hsh]
    · rw [hsh, List.append_nil]
  | @cons c text piece rest pieces hnode _ ih =>
    have hput : routineStep tag (.produce (c :: text)) r.state.shared = .ok (.produce rest,
        { r.state.shared with
          levelOneStrQueue := r.state.shared.levelOneStrQueue ++ [piece] }) := by
      rw [routineStep, hnode]
    obtain ⟨r', hs, hruns, hsh, hactive, hm⟩ := h.next hput
    obtain ⟨t, hreach, hreturned, hdone, hqueue, hactive', hm'⟩ := ih hruns
    refine ⟨t, .cons hs hreach, hreturned, hdone, ?_, hactive'.trans hactive, hm'.trans hm⟩
    rw [hqueue, hsh, List.append_assoc, List.singleton_append]

theorem consumer_raises {queue : List Text} (h : Runs a k .head r)
    (hdone : r.state.shared.producerWorkDone = true)
    (hqueue : r.state.shared.levelOneStrQueue = queue) (hbad : ∃ p ∈ queue, ¬LoneNode p) :
    ∃ t, Reaches tag fileStr maxWorkers r t ∧ k ∈ t.raised ∧
      t.state.activeWorkerList = r.state.activeWorkerList := by
  induction queue generalizing r with
  | nil =>
    obtain ⟨p, hp, -⟩ := hbad
    cases hp
  | cons piece queue ih =>
    have hhead : routineStep tag .head r.state.shared = .ok (.checkEmpty, r.state.shared) := by
      rw [routineStep, hdone, if_pos rfl]
    obtain ⟨r₁, hs₁, h₁, hsh₁, hactive₁, -⟩ := h.next hhead
    have hcheck : routineStep tag .checkEmpty r₁.state.shared = .ok (.get, r.state.shared) := by
      rw [routineStep, hsh₁, hqueue]
      rfl
    obtain ⟨r₂, hs₂, h₂, hsh₂, hactive₂, -⟩ := h₁.next hcheck
    have hget : routineStep tag .get r₂.state.shared =
        .ok (.parse piece, { r.state.shared with levelOneStrQueue := queue }) := by
      rw [routineStep, hsh₂, hqueue]
    obtain ⟨r₃, hs₃, h₃, hsh₃, hactive₃, -⟩ := h₂.next hget
    have hactive : r₃.state.activeWorkerList = r.state.activeWorkerList :=
      hactive₃.trans (hactive₂.trans hactive₁)
    have hreach : ∀ t, Reaches tag fileStr maxWorkers r₃ t → Reaches tag fileStr maxWorkers r t :=
      fun t ht => .cons hs₁ (.cons hs₂ (.cons hs₃ ht))
    by_cases hlone : LoneNode piece
    · obtain ⟨levelNode, hone⟩ := hlone
      have hparse : routineStep tag (.parse piece) r₃.state.shared =
          .ok (.add levelNode, r₃.state.shared) := by
        rw [routineStep, hone]
      obtain ⟨r₄, hs₄, h₄, hsh₄, hactive₄, -⟩ := h₃.next hparse
      have hadd : routineStep tag (.add levelNode) r₄.state.shared = .ok (.head,
          { r₄.state.shared with root := r₄.state.shared.root.addChild levelNode }) := rfl
      obtain ⟨r₅, hs₅, h₅, hsh₅, hactive₅, -⟩ := h₄.next hadd
      have hdone₅ : r₅.state.shared.producerWorkDone = true := by
        rw [hsh₅, hsh₄, hsh₃]
        exact hdone
      have hqueue₅ : r₅.state.shared.levelOneStrQueue = queue := by
        rw [hsh₅, hsh₄, hsh₃]
      have hbad₅ : ∃ p ∈ queue, ¬LoneNode p := by
        obtain ⟨p, hp, hmany⟩ := hbad
        obtain rfl | hp := List.mem_cons.mp hp
        · exact absurd ⟨levelNode, hone⟩ hmany
        · exact ⟨p, hp, hmany⟩
      obtain ⟨t, ht, hmem, hactivet⟩ := ih h₅ hdone₅ hqueue₅ hbad₅
      exact ⟨t, hreach t (.cons hs₄ (.cons hs₅ ht)), hmem,
        hactivet.trans (hactive₅.trans (hactive₄.trans hactive))⟩
    · have hraise : routineStep tag (.parse piece) r₃.state.shared = .error .exception := by
        rw [routineStep]
        split
        · next levelNode hone => exact absurd ⟨levelNode, hone⟩ hlone
        · rfl
      obtain ⟨t, hs, hmem, hstate⟩ := h₃.raise hraise
      exact ⟨t, hreach t (.cons hs .refl), hmem, by rw [hstate, hactive]⟩

theorem exists_producer (tag fileStr : Text) (maxWorkers : ℕ) :
    ∃ a r, Reaches tag fileStr maxWorkers {} r ∧
      Runs a 0 (.produce (strip (stripHeader fileStr))) r ∧ r.state.shared = {} ∧
      (maxWorkers ≠ 0 → a = .worker 0 ∧ r.state.activeWorkerList = [0] ∧
        r.state.master = .assign 1) := by
  cases maxWorkers with
  | zero =>
    refine ⟨.master, _, .cons (a := .master) rfl .refl, ⟨rfl, rfl, .inr ⟨rfl, rfl⟩⟩, rfl, ?_⟩
    exact fun h => absurd rfl h
  | succ n =>
    refine ⟨.worker 0, _, .cons (a := .master) rfl (.cons (a := .master) rfl .refl),
      ⟨rfl, rfl, .inl ⟨rfl, List.mem_cons_self⟩⟩, rfl, fun _ => ⟨rfl, rfl, rfl⟩⟩

theorem exists_consumer (hmax : maxWorkers ≠ 0) (h : Runs (.worker 0) 0 .returned r)
    (hactive : r.state.activeWorkerList = [0]) (hm : r.state.master = .assign 1) :
    ∃ t, Reaches tag fileStr maxWorkers r t ∧ Runs (.worker 1) 1 .head t ∧
      t.state.shared = r.state.shared ∧ t.state.activeWorkerList = [1] := by
  obtain ⟨⟨sh, task, active, m⟩, raised⟩ := r
  obtain ⟨hraised, htask, -⟩ := h
  dsimp only at hraised htask hactive hm
  subst hraised hactive hm
  have hfinish : raisingStep tag fileStr maxWorkers (.worker 0) ⟨⟨sh, task, [0], .assign 1⟩, []⟩ =
      .ok ⟨⟨sh, Function.update task 0 .joined, [], .assign 1⟩, []⟩ := by
    simp [raisingStep, step, workerStep, htask, Actor.routine, State.setTask]
  set task₁ := Function.update task 0 .joined
  have hcreate : raisingStep tag fileStr maxWorkers .master ⟨⟨sh, task₁, [], .assign 1⟩, []⟩ =
      .ok ⟨⟨sh, Function.update task₁ 1 .created, [1], .start 1⟩, []⟩ := by
    simp [raisingStep, step, masterStep, numTasks, Actor.routine, State.setTask, hmax]
  set task₂ := Function.update task₁ 1 .created
  have hstart : raisingStep tag fileStr maxWorkers .master ⟨⟨sh, task₂, [1], .start 1⟩, []⟩ =
      .ok ⟨⟨sh, Function.update task₂ 1 (.running .head), [1], .assign 2⟩, []⟩ := rfl
  have hhead : Function.update task₂ 1 (.running .head) 1 = .running .head :=
    Function.update_self ..
  exact ⟨_, .cons hfinish (.cons hcreate (.cons hstart .refl)),
    ⟨rfl, hhead, .inl ⟨rfl, List.mem_cons_self⟩⟩, rfl, rfl⟩

end Schedules

/-- For every input and every number of workers: no schedule leaves anything waiting for a
thread that is gone, if and only if the producer can cut all of the text, and each piece is one
node or there are no worker threads at all. -/
theorem waitsForRunning_iff (tag fileStr : Text) (maxWorkers : ℕ) :
    (∀ schedule r, run (raisingStep tag fileStr maxWorkers) schedule {} = .ok r →
      WaitsForRunning r) ↔
    ∃ pieces, CutInto tag (strip (stripHeader fileStr)) pieces ∧
      (maxWorkers = 0 ∨ ∀ p ∈ pieces, LoneNode p) := by
  constructor
  · intro h
    obtain ⟨a, r, ⟨schedule, hrun⟩, hruns, hsh, hthread⟩ :=
      exists_producer tag fileStr maxWorkers
    by_cases hcut : ∃ pieces, CutInto tag (strip (stripHeader fileStr)) pieces
    · obtain ⟨pieces, hcut⟩ := hcut
      refine ⟨pieces, hcut, ?_⟩
      by_contra hbad
      push Not at hbad
      obtain ⟨hmax, hbad⟩ := hbad
      obtain ⟨rfl, hactive, hm⟩ := hthread hmax
      obtain ⟨r₁, hreach₁, hreturned, hdone, hqueue, hactive₁, hm₁⟩ := producer_returns hcut hruns
      obtain ⟨r₂, hreach₂, hhead, hsh₂, hactive₂⟩ :=
        exists_consumer hmax hreturned (hactive₁.trans hactive) (hm₁.trans hm)
      rw [hsh, List.nil_append] at hqueue
      obtain ⟨t, hreach, hraised, hactivet⟩ :=
        consumer_raises hhead (hsh₂ ▸ hdone) (hsh₂ ▸ hqueue) hbad
      obtain ⟨schedule, hrun⟩ := Reaches.trans ⟨schedule, hrun⟩ (hreach₁.trans (hreach₂.trans hreach))
      refine (h schedule t hrun).worker 1 (.inr hraised) ?_
      rw [hactivet, hactive₂]
      exact List.mem_cons_self
    · push Not at hcut
      obtain ⟨t, hreach, hraised, hdone⟩ := producer_raises hruns (by rw [hsh]) hcut
      obtain ⟨schedule, hrun⟩ := Reaches.trans ⟨schedule, hrun⟩ hreach
      have hset := (h schedule t hrun).producer (.inr hraised)
      rw [hdone] at hset
      cases hset
  · rintro ⟨pieces, hcut, hlone⟩ schedule r hrun
    have hsound : RaisingState.Sound tag pieces maxWorkers {} :=
      ⟨guarded_init, List.not_mem_nil, .inl rfl⟩
    exact (run_keeps (raisingStep_sound hcut hlone) hsound hrun).waits

/-- The text `<m>` ends before its close tag. -/
theorem not_waitsForRunning_truncated :
    ¬∀ tag fileStr maxWorkers schedule r,
      run (raisingStep tag fileStr maxWorkers) schedule {} = .ok r → WaitsForRunning r := by
  intro h
  have hraised := h ['m'] ['<', 'm', '>'] 2 [.master, .master, .worker 0] _ rfl
  cases hraised.producer (.inr List.mem_cons_self)

end Trace4J.Offline
