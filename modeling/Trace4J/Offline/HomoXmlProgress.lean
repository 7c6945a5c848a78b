import Trace4J.Offline.HomoXmlFailures

/-!
# The threaded parser can always return

No schedule takes `HomoXMLParser` to a state that it cannot leave. While the producer can cut
the text and every piece is one node, some continuation of every run ends with the return of
the constructor.
-/

namespace Trace4J.Offline
open Library

structure Placed (s : State) : Prop where
  taken_le : s.master.taken ≤ numTasks
  begun : ∀ k < s.master.taken, s.task k ≠ .unassigned
  created : ∀ k, s.task k = .created → s.master = .start k
  starting : ∀ k, s.master = .start k → s.task k = .created ∧ k ∈ s.activeWorkerList
  running : ∀ k pc, s.task k = .running pc → k ∈ s.activeWorkerList ∨ s.master = .inline k
  inline : ∀ k, s.master = .inline k → ∃ pc, s.task k = .running pc

variable {tag fileStr content : Text} {pieces : List Text} {maxWorkers k : ℕ} {a : Actor}
variable {s s' : State} {sh sh' : Shared} {pc pc' : Pc} {st : Status}

theorem placed_init : Placed {} where
  taken_le := Nat.zero_le _
  begun k hk := absurd hk (Nat.not_lt_zero k)
  created k h := by cases h
  starting k h := by cases h
  running k pc h := by cases h
  inline k h := by cases h

namespace Placed

theorem set (h : Placed s) (ht : TaskSet s s' k st) (hst : st ≠ .unassigned)
    (hle : s'.master.taken ≤ numTasks)
    (htaken : ∀ j < s'.master.taken, j ≠ k → j < s.master.taken)
    (hcreated : ∀ j, j = k ∧ st = .created ∨ j ≠ k ∧ s.task j = .created → s'.master = .start j)
    (hstarting : ∀ j, s'.master = .start j →
      (j = k ∧ st = .created ∨ j ≠ k ∧ s.task j = .created) ∧ j ∈ s'.activeWorkerList)
    (hself : ∀ pc, st = .running pc → k ∈ s'.activeWorkerList ∨ s'.master = .inline k)
    (hother : ∀ j ≠ k, ∀ pc, s.task j = .running pc →
      j ∈ s'.activeWorkerList ∨ s'.master = .inline j)
    (hinline : ∀ j, s'.master = .inline j →
      j = k ∧ (∃ pc, st = .running pc) ∨ j ≠ k ∧ s.master = .inline j) : Placed s' where
  taken_le := hle
  begun j hj := by
    by_cases hne : j = k
    · exact hne ▸ ht.self.trans_ne hst
    · exact (ht.other j hne).trans_ne (h.begun j (htaken j hj hne))
  created j hj := by
    apply hcreated j
    by_cases hne : j = k
    · subst hne
      exact .inl ⟨rfl, ht.self.symm.trans hj⟩
    · exact .inr ⟨hne, (ht.other j hne).symm.trans hj⟩
  starting j hj := by
    obtain ⟨⟨rfl, hst⟩ | ⟨hne, hc⟩, hmem⟩ := hstarting j hj
    · exact ⟨ht.self.trans hst, hmem⟩
    · exact ⟨(ht.other j hne).trans hc, hmem⟩
  running j pc hj := by
    by_cases hne : j = k
    · subst hne
      exact hself pc (ht.self.symm.trans hj)
    · exact hother j hne pc ((ht.other j hne).symm.trans hj)
  inline j hj := by
    obtain ⟨rfl, pc, hpc⟩ | ⟨hne, hm⟩ := hinline j hj
    · exact ⟨pc, ht.self.trans hpc⟩
    · obtain ⟨pc, hpc⟩ := h.inline j hm
      exact ⟨pc, (ht.other j hne).trans hpc⟩

theorem not_starting (h : Placed s) (hk : s.task k = .running pc) {j : ℕ}
    (hj : s.master = .start j) : j ≠ k ∧ s.task j = .created := by
  obtain ⟨hc, -⟩ := h.starting j hj
  refine ⟨?_, hc⟩
  rintro rfl
  rw [hk] at hc
  cases hc

theorem stepTask (h : Placed s) (hk : s.task k = .running pc)
    (hs : Offline.stepTask tag k pc s = .ok s') : Placed s' := by
  obtain ⟨pc', -, ht, hactive, hmaster⟩ := stepTask_ok hs
  refine h.set ht (by simp) (hmaster ▸ h.taken_le) ?_ ?_ ?_ ?_ ?_ ?_
  · rw [hmaster]
    exact fun j hj _ => hj
  · rintro j (⟨-, hst⟩ | ⟨-, hj⟩)
    · cases hst
    · exact hmaster ▸ h.created j hj
  · rw [hmaster, hactive]
    exact fun j hj => ⟨.inr (h.not_starting hk hj), (h.starting j hj).2⟩
  · rw [hmaster, hactive]
    exact fun _ _ => h.running k pc hk
  · rw [hmaster, hactive]
    exact fun j _ => h.running j
  · intro j hj
    by_cases hne : j = k
    · exact .inl ⟨hne, pc', rfl⟩
    · exact .inr ⟨hne, hmaster ▸ hj⟩

theorem workerStep (h : Placed s) (hg : Guarded tag pieces maxWorkers s)
    (hs : Offline.workerStep tag k s = .ok s') : Placed s' := by
  unfold Offline.workerStep at hs
  split_ifs at hs with hmem
  split at hs
  · next hk =>
    cases hs
    have hstays : ∀ j ≠ k, j ∈ s.activeWorkerList → j ∈ s.activeWorkerList.erase k :=
      fun j hne hj => (List.mem_erase_of_ne hne).mpr hj
    have ht : TaskSet s { s.setTask k .joined with
        activeWorkerList := s.activeWorkerList.erase k } k .joined := taskSet_of_eq rfl
    refine h.set ht (by simp) h.taken_le (fun j hj _ => hj) ?_ ?_ (by simp) ?_ ?_
    · rintro j (⟨-, hst⟩ | ⟨-, hj⟩)
      · cases hst
      · exact h.created j hj
    · intro j hj
      have hother := h.not_starting hk hj
      exact ⟨.inr hother, hstays j hother.1 (h.starting j hj).2⟩
    · exact fun j hne pc hj => (h.running j pc hj).imp_left (hstays j hne)
    · intro j hj
      refine .inr ⟨?_, hj⟩
      rintro rfl
      exact hg.inline j hj hmem
  · next pc _ hk => exact h.stepTask hk hs
  · cases hs

theorem assign (h : Placed s) (hm : s.master = .assign k) (hlt : k < numTasks)
    (ht : TaskSet s s' k st) (htaken : s'.master.taken = k + 1)
    (hactive : s.activeWorkerList ⊆ s'.activeWorkerList)
    (hst : st = .created ∧ s'.master = .start k ∧ k ∈ s'.activeWorkerList ∨
      (∃ pc, st = .running pc) ∧ s'.master = .inline k) : Placed s' := by
  have hmaster : ∀ j, s.master ≠ .start j ∧ s.master ≠ .inline j := by simp [hm]
  refine h.set ht ?_ (by omega) ?_ ?_ ?_ ?_ ?_ ?_
  · rintro rfl
    obtain ⟨hst, -⟩ | ⟨⟨pc, hst⟩, -⟩ := hst
    · cases hst
    · cases hst
  · intro j hj hne
    have : s.master.taken = k := by rw [hm]; rfl
    omega
  · rintro j (⟨rfl, hc⟩ | ⟨-, hc⟩)
    · obtain ⟨-, hstart, -⟩ | ⟨⟨pc, hst⟩, -⟩ := hst
      · exact hstart
      · rw [hc] at hst
        cases hst
    · exact absurd (h.created j hc) (hmaster j).1
  · intro j hj
    obtain ⟨hc, hstart, hmem⟩ | ⟨-, hinline⟩ := hst
    · rw [hstart] at hj
      cases hj
      exact ⟨.inl ⟨rfl, hc⟩, hmem⟩
    · rw [hinline] at hj
      cases hj
  · rintro pc rfl
    obtain ⟨hc, -⟩ | ⟨-, hinline⟩ := hst
    · cases hc
    · exact .inr hinline
  · intro j _ pc hj
    exact .inl (hactive ((h.running j pc hj).resolve_right (hmaster j).2))
  · intro j hj
    obtain ⟨-, hstart, -⟩ | ⟨hpc, hinline⟩ := hst
    · rw [hstart] at hj
      cases hj
    · rw [hinline] at hj
      cases hj
      exact .inl ⟨rfl, hpc⟩

theorem next (h : Placed s) (ht : TaskSet s s' k st) (hst : st ≠ .unassigned ∧ st ≠ .created)
    (hm : s.master = .start k ∨ s.master = .inline k) (hm' : s'.master = .assign (k + 1))
    (hactive : s'.activeWorkerList = s.activeWorkerList)
    (hself : ∀ pc, st = .running pc → s.master = .start k) : Placed s' := by
  have htaken : s.master.taken = k + 1 := by
    obtain hm | hm := hm
    · rw [hm]
      rfl
    · rw [hm]
      rfl
  have htaken' : s'.master.taken = k + 1 := by rw [hm']; rfl
  have hother : ∀ j ≠ k, s.master ≠ .start j ∧ s.master ≠ .inline j := by
    intro j hne
    obtain hm | hm := hm
    · simp [hm, hne.symm]
    · simp [hm, hne.symm]
  refine h.set ht hst.1 ?_ ?_ ?_ ?_ ?_ ?_ ?_
  · rw [htaken', ← htaken]
    exact h.taken_le
  · intro j hj _
    omega
  · rintro j (⟨-, hc⟩ | ⟨hne, hc⟩)
    · exact absurd hc hst.2
    · exact absurd (h.created j hc) (hother j hne).1
  · rw [hm']
    rintro j ⟨⟩
  · intro pc hpc
    rw [hactive]
    exact .inl (h.starting k (hself pc hpc)).2
  · intro j hne pc hj
    rw [hactive]
    exact .inl ((h.running j pc hj).resolve_right (hother j hne).2)
  · rw [hm']
    rintro j ⟨⟩

theorem move (h : Placed s) {m : Master} (htaken : m.taken = s.master.taken)
    (hm : ∀ j, s.master ≠ .start j ∧ s.master ≠ .inline j)
    (hm' : ∀ j, m ≠ .start j ∧ m ≠ .inline j) : Placed { s with master := m } where
  taken_le := htaken.trans_le h.taken_le
  begun k hk := h.begun k (hk.trans_eq htaken)
  created k hk := absurd (h.created k hk) (hm k).1
  starting k hk := absurd hk (hm' k).1
  running k pc hk := .inl ((h.running k pc hk).resolve_right (hm k).2)
  inline k hk := absurd hk (hm' k).2

theorem masterStep (h : Placed s) (hs : Offline.masterStep tag content maxWorkers s = .ok s') :
    Placed s' := by
  unfold Offline.masterStep at hs
  split at hs
  · next k hm =>
    have htaken : s.master.taken = k := by rw [hm]; rfl
    split_ifs at hs with hall hfull
    · cases hs
      refine h.move ?_ (by simp [hm]) (by simp)
      rw [htaken, hall]
      rfl
    · cases hs
      have hlt : k < numTasks := lt_of_le_of_ne (htaken ▸ h.taken_le) hall
      exact h.assign hm hlt (taskSet_of_eq rfl) rfl (List.Subset.refl _) (.inr ⟨⟨_, rfl⟩, rfl⟩)
    · cases hs
      have hlt : k < numTasks := lt_of_le_of_ne (htaken ▸ h.taken_le) hall
      exact h.assign hm hlt (taskSet_of_eq rfl) rfl (List.subset_append_left _ _)
        (.inl ⟨rfl, rfl, by simp⟩)
  · next k hm =>
    cases hs
    exact h.next (taskSet_of_eq rfl) (by simp) (.inl hm) rfl rfl fun _ _ => hm
  · next k hm =>
    split at hs
    · next hk =>
      cases hs
      exact h.next (taskSet_of_eq rfl) (by simp) (.inr hm) rfl rfl (by simp)
    · next pc _ hk => exact h.stepTask hk hs
    · cases hs
  · next hm =>
    cases hs
    split_ifs
    · refine h.move ?_ (by simp [hm]) (by simp)
      rw [hm]
      rfl
    · exact h
  · cases hs

theorem step (h : Placed s) (hg : Guarded tag pieces maxWorkers s)
    (hs : Offline.step tag fileStr maxWorkers a s = .ok s') : Placed s' := by
  cases a with
  | master => exact h.masterStep hs
  | worker k => exact h.workerStep hg hs

end Placed

/-! ## One task to its end -/

def Pc.rank (queued : ℕ) : Pc → ℕ
  | .produce text => text.length + 1
  | .head => 6 * queued + 2
  | .checkEmpty => 6 * queued + 1
  | .get => if queued = 0 then 3 else 6 * queued
  | .parse _ => 6 * queued + 4
  | .add _ => 6 * queued + 3
  | .returned => 0

def Shared.queued (sh : Shared) : ℕ := sh.levelOneStrQueue.length

def Status.rank (queued : ℕ) : Status → ℕ
  | .running pc => pc.rank queued
  | _ => 0

theorem routineStep_rank (hfits : pc.Fits tag pieces k sh.producerWorkDone)
    (hlone : ∀ p ∈ pieces, LoneNode p) (hpc : pc ≠ .returned)
    (hdone : k = 0 ∨ sh.producerWorkDone = true) :
    ∃ pc' sh', routineStep tag pc sh = .ok (pc', sh') ∧
      pc'.rank sh'.queued < pc.rank sh.queued := by
  cases pc with
  | produce text =>
    obtain ⟨-, ns, hcut, -⟩ := hfits
    cases hcut with
    | nil => exact ⟨_, _, rfl, Nat.succ_pos _⟩
    | cons hnode _ =>
      refine ⟨_, _, by rw [routineStep, hnode], ?_⟩
      exact Nat.succ_lt_succ (cutNode_length hnode)
  | head =>
    have hset := hdone.resolve_left hfits
    refine ⟨.checkEmpty, sh, by rw [routineStep, if_pos hset], ?_⟩
    simp [Pc.rank]
  | checkEmpty =>
    refine ⟨_, sh, rfl, ?_⟩
    cases hq : sh.levelOneStrQueue with
    | nil => simp [Pc.rank]
    | cons piece queue => simp [Pc.rank, Shared.queued, hq]
  | get =>
    cases hq : sh.levelOneStrQueue with
    | nil =>
      refine ⟨.head, sh, by rw [routineStep, hq], ?_⟩
      simp [Pc.rank, Shared.queued, hq]
    | cons piece queue =>
      refine ⟨_, _, by rw [routineStep, hq], ?_⟩
      simp only [Pc.rank, Shared.queued, hq, List.length_cons]
      rw [if_neg (Nat.succ_ne_zero _)]
      omega
  | parse nodeStr =>
    obtain ⟨levelNode, hone⟩ := hlone nodeStr hfits.2
    refine ⟨.add levelNode, sh, by rw [routineStep, hone], ?_⟩
    simp [Pc.rank]
  | add levelNode =>
    refine ⟨.head, _, rfl, ?_⟩
    simp [Pc.rank, Shared.queued]
  | returned => exact absurd rfl hpc

structure Steady (tag : Text) (pieces : List Text) (maxWorkers : ℕ) (s : State) : Prop where
  placed : Placed s
  guarded : Guarded tag pieces maxWorkers s

theorem Steady.keeps (hcut : CutInto tag (strip (stripHeader fileStr)) pieces) (a : Actor)
    (s s' : State) (h : Steady tag pieces maxWorkers s)
    (hs : Offline.step tag fileStr maxWorkers a s = .ok s') : Steady tag pieces maxWorkers s' :=
  ⟨h.placed.step h.guarded hs, h.guarded.step hcut hs⟩

theorem Steady.exists_step (h : Steady tag pieces maxWorkers s)
    (hlone : ∀ p ∈ pieces, LoneNode p) (hk : s.task k = .running pc) (hpc : pc ≠ .returned)
    (hdone : k = 0 ∨ s.shared.producerWorkDone = true) :
    ∃ a s' pc', step tag fileStr maxWorkers a s = .ok s' ∧ s'.task k = .running pc' ∧
      s'.master = s.master ∧ s'.activeWorkerList = s.activeWorkerList ∧
      (k = 0 ∨ s'.shared.producerWorkDone = true) ∧
      pc'.rank s'.shared.queued < pc.rank s.shared.queued := by
  have hfits := h.guarded.fits k pc hk
  obtain ⟨pc', sh', hr, hlt⟩ := routineStep_rank hfits hlone hpc hdone
  obtain ⟨a, hruns⟩ : ∃ a, Runs a k pc ⟨s, []⟩ := by
    obtain hmem | hm := h.placed.running k pc hk
    · exact ⟨.worker k, rfl, hk, .inl ⟨rfl, hmem⟩⟩
    · exact ⟨.master, rfl, hk, .inr ⟨rfl, hm⟩⟩
  refine ⟨a, { s.setTask k (.running pc') with shared := sh' }, pc', ?_,
    Function.update_self .., rfl, rfl, ?_, hlt⟩
  · rw [step_of_runs hruns hpc, stepTask, hr]
    rfl
  · exact hdone.imp_right (routineStep_fits hfits h.guarded.queue hr).2.2

/-- The flag is set once the producer has begun, unless it is still at work. -/
theorem Steady.done (h : Steady tag pieces maxWorkers s) (htaken : 0 < s.master.taken)
    (hstart : s.master ≠ .start 0) (hidle : ∀ pc, s.task 0 ≠ .running pc) :
    s.shared.producerWorkDone = true := by
  cases hst : s.task 0 with
  | unassigned => exact absurd hst (h.placed.begun 0 htaken)
  | created => exact absurd (h.placed.created 0 hst) hstart
  | running pc => exact absurd hst (hidle pc)
  | joined => exact h.guarded.ended hst

section Ending
variable (hcut : CutInto tag (strip (stripHeader fileStr)) pieces)
  (hlone : ∀ p ∈ pieces, LoneNode p)
include hcut hlone

theorem Steady.exists_returned (h : Steady tag pieces maxWorkers s) (hk : s.task k = .running pc)
    (hdone : k = 0 ∨ s.shared.producerWorkDone = true) :
    ∃ is t, run (step tag fileStr maxWorkers) is s = .ok t ∧ Steady tag pieces maxWorkers t ∧
      t.task k = .running .returned ∧ t.master = s.master ∧
      t.activeWorkerList = s.activeWorkerList := by
  let P : State → Prop := fun u => Steady tag pieces maxWorkers u ∧ u.master = s.master ∧
    u.activeWorkerList = s.activeWorkerList ∧ (k = 0 ∨ u.shared.producerWorkDone = true) ∧
    ∃ pc, u.task k = .running pc
  let rank : State → ℕ := fun u => (u.task k).rank u.shared.queued
  have hprogress : ∀ u, P u → ¬u.task k = .running .returned → ∃ is u',
      run (step tag fileStr maxWorkers) is u = .ok u' ∧ P u' ∧ rank u' < rank u := by
    rintro u ⟨hu, hm, hactive, hdone, pc, hk⟩ hnot
    have hpc : pc ≠ .returned := by
      rintro rfl
      exact hnot hk
    obtain ⟨a, u', pc', hs, hk', hm', hactive', hdone', hlt⟩ := hu.exists_step hlone hk hpc hdone
    refine ⟨[a], u', run_cons.mpr ⟨u', hs, rfl⟩,
      ⟨hu.keeps hcut a u u' hs, hm'.trans hm, hactive'.trans hactive, hdone', pc', hk'⟩, ?_⟩
    simp only [rank, hk, hk', Status.rank]
    exact hlt
  obtain ⟨is, t, hrun, ⟨ht, hm, hactive, -, -⟩, hret⟩ :=
    exists_run_of_measure rank hprogress ⟨h, rfl, rfl, hdone, pc, hk⟩
  exact ⟨is, t, hrun, ht, hret, hm, hactive⟩

theorem Steady.exists_joined (h : Steady tag pieces maxWorkers s) (hk : s.task k = .running pc)
    (hdone : k = 0 ∨ s.shared.producerWorkDone = true) (hmem : k ∈ s.activeWorkerList) :
    ∃ is t, run (step tag fileStr maxWorkers) is s = .ok t ∧ Steady tag pieces maxWorkers t ∧
      t.master = s.master ∧ t.activeWorkerList = s.activeWorkerList.erase k := by
  obtain ⟨is, t, hrun, ht, hret, hm, hactive⟩ := h.exists_returned hcut hlone hk hdone
  have hs : step tag fileStr maxWorkers (.worker k) t =
      .ok { t.setTask k .joined with activeWorkerList := t.activeWorkerList.erase k } := by
    rw [step, workerStep, if_pos (hactive ▸ hmem), hret]
  refine ⟨is ++ [.worker k], _, run_append.mpr ⟨t, hrun, run_cons.mpr ⟨_, hs, rfl⟩⟩,
    ht.keeps hcut _ t _ hs, hm, ?_⟩
  rw [← hactive]

theorem Steady.exists_next (h : Steady tag pieces maxWorkers s) (hk : s.task k = .running pc)
    (hdone : k = 0 ∨ s.shared.producerWorkDone = true) (hm : s.master = .inline k) :
    ∃ is t, run (step tag fileStr maxWorkers) is s = .ok t ∧ Steady tag pieces maxWorkers t ∧
      t.master = .assign (k + 1) ∧ t.activeWorkerList = s.activeWorkerList := by
  obtain ⟨is, t, hrun, ht, hret, hmt, hactive⟩ := h.exists_returned hcut hlone hk hdone
  have hs : step tag fileStr maxWorkers .master t =
      .ok { t.setTask k .joined with master := .assign (k + 1) } := by
    rw [step, masterStep, hmt, hm]
    simp only [hret]
  exact ⟨is ++ [.master], _, run_append.mpr ⟨t, hrun, run_cons.mpr ⟨_, hs, rfl⟩⟩,
    ht.keeps hcut _ t _ hs, rfl, hactive⟩

/-! ## The constructor -/

def Master.rank : Master → ℕ
  | .assign k => 4 * (numTasks + 1 - k) + 2
  | .start k | .inline k => 4 * (numTasks + 1 - k)
  | .finish => 1
  | .returned => 0

def State.rank (s : State) : ℕ := s.master.rank + s.activeWorkerList.length

theorem Steady.exists_shorter (h : Steady tag pieces maxWorkers s)
    (hk : s.task k = .running pc) (hdone : k = 0 ∨ s.shared.producerWorkDone = true)
    (hmem : k ∈ s.activeWorkerList) :
    ∃ is t, run (step tag fileStr maxWorkers) is s = .ok t ∧ Steady tag pieces maxWorkers t ∧
      t.rank < s.rank := by
  obtain ⟨is, t, hrun, ht, hm, hactive⟩ := h.exists_joined hcut hlone hk hdone hmem
  refine ⟨is, t, hrun, ht, ?_⟩
  have hpos := List.length_pos_of_mem hmem
  rw [State.rank, State.rank, hm, hactive, List.length_erase_of_mem hmem]
  omega

theorem Steady.progress (h : Steady tag pieces maxWorkers s) (hm : s.master ≠ .returned) :
    ∃ is t, run (step tag fileStr maxWorkers) is s = .ok t ∧ Steady tag pieces maxWorkers t ∧
      t.rank < s.rank := by
  have hone : ∀ {t}, step tag fileStr maxWorkers .master s = .ok t → t.rank < s.rank →
      ∃ is t, run (step tag fileStr maxWorkers) is s = .ok t ∧ Steady tag pieces maxWorkers t ∧
        t.rank < s.rank :=
    fun {t} hs hlt => ⟨[.master], t, run_cons.mpr ⟨t, hs, rfl⟩, h.keeps hcut _ s t hs, hlt⟩
  -- a producer that is a thread goes first
  by_cases hfirst : 0 ∈ s.activeWorkerList ∧ ∃ pc, s.task 0 = .running pc
  · obtain ⟨hmem, pc, hk⟩ := hfirst
    exact h.exists_shorter hcut hlone hk (.inl rfl) hmem
  have hidle : ∀ pc, s.task 0 = .running pc → s.master = .inline 0 := fun pc hk =>
    (h.placed.running 0 pc hk).resolve_left fun hmem => hfirst ⟨hmem, pc, hk⟩
  have hle := h.placed.taken_le
  cases hmaster : s.master with
  | assign k =>
    have hk : k ≤ numTasks := by rwa [hmaster] at hle
    by_cases hall : k = numTasks
    · refine hone (t := { s with master := .finish }) ?_ ?_
      · rw [step, masterStep, hmaster]
        simp [hall]
      · simp [State.rank, hmaster, Master.rank, hall]
    · by_cases hfull : maxWorkers ≤ s.activeWorkerList.length
      · refine hone (t := { s.setTask k (.running (startPc (stripHeader fileStr) k)) with
          master := .inline k }) ?_ ?_
        · rw [step, masterStep, hmaster]
          simp [hall, hfull]
        · simp [State.rank, hmaster, Master.rank, State.setTask]
      · refine hone (t := { s.setTask k .created with
          activeWorkerList := s.activeWorkerList ++ [k], master := .start k }) ?_ ?_
        · rw [step, masterStep, hmaster]
          simp [hall, hfull]
        · simp only [State.rank, hmaster, Master.rank, List.length_append, List.length_singleton]
          omega
  | start k =>
    have hk : k + 1 ≤ numTasks := by rwa [hmaster] at hle
    refine hone (t := { s.setTask k (.running (startPc (stripHeader fileStr) k)) with
      master := .assign (k + 1) }) ?_ ?_
    · rw [step, masterStep, hmaster]
    · simp only [State.rank, hmaster, Master.rank, State.setTask]
      omega
  | inline k =>
    have hk : k + 1 ≤ numTasks := by rwa [hmaster] at hle
    obtain ⟨pc, hpc⟩ := h.placed.inline k hmaster
    have hdone : k = 0 ∨ s.shared.producerWorkDone = true := by
      by_contra hnot
      obtain ⟨hzero, hunset⟩ := not_or.mp hnot
      refine hunset (h.done (by rw [hmaster]; exact Nat.succ_pos k) (by simp [hmaster]) ?_)
      intro pc hpc
      have := hidle pc hpc
      rw [hmaster] at this
      cases this
      exact hzero rfl
    obtain ⟨is, t, hrun, ht, hmt, hactive⟩ := h.exists_next hcut hlone hpc hdone hmaster
    refine ⟨is, t, hrun, ht, ?_⟩
    simp only [State.rank, hmaster, hmt, hactive, Master.rank]
    omega
  | finish =>
    have hdone : s.shared.producerWorkDone = true := by
      refine h.done (by rw [hmaster]; exact Nat.succ_pos _) (by simp [hmaster]) ?_
      intro pc hpc
      have := hidle pc hpc
      simp [hmaster] at this
    cases hactive : s.activeWorkerList with
    | nil =>
      refine hone (t := { s with master := .returned }) ?_ ?_
      · rw [step, masterStep, hmaster]
        simp [hactive]
      · simp [State.rank, hmaster, Master.rank]
    | cons k rest =>
      have hmem : k ∈ s.activeWorkerList := by simp [hactive]
      have hlive := h.guarded.active k hmem
      cases hst : s.task k with
      | unassigned => exact absurd hlive (by simp [hst, Status.IsLive])
      | created => exact absurd (h.placed.created k hst) (by simp [hmaster])
      | running pc => exact h.exists_shorter hcut hlone hst (.inr hdone) hmem
      | joined => exact absurd hlive (by simp [hst, Status.IsLive])
  | returned => exact absurd hmaster hm

theorem Steady.exists_return (h : Steady tag pieces maxWorkers s) :
    ∃ is t, run (step tag fileStr maxWorkers) is s = .ok t ∧ t.master = .returned := by
  obtain ⟨is, t, hrun, -, hret⟩ := exists_run_of_measure (Q := fun s => s.master = .returned)
    State.rank (fun s hs hm => hs.progress hcut hlone hm) h
  exact ⟨is, t, hrun, hret⟩

end Ending

theorem steady_run (hcut : CutInto tag (strip (stripHeader fileStr)) pieces)
    {schedule : List Actor} (hrun : run (step tag fileStr maxWorkers) schedule {} = .ok s) :
    Steady tag pieces maxWorkers s :=
  run_keeps (Steady.keeps hcut) ⟨placed_init, guarded_init⟩ hrun

/-- For every input of single nodes, every number of workers and every schedule: whatever state
the threads are in, the constructor can still return. -/
theorem homoXmlParser_can_return (tag fileStr : Text) (pieces : List Text) (maxWorkers : ℕ)
    (hcut : CutInto tag (strip (stripHeader fileStr)) pieces)
    (hlone : ∀ p ∈ pieces, LoneNode p) (schedule : List Actor) (s : State)
    (hrun : run (step tag fileStr maxWorkers) schedule {} = .ok s) :
    ∃ more t, run (step tag fileStr maxWorkers) (schedule ++ more) {} = .ok t ∧
      t.master = .returned := by
  obtain ⟨more, t, hmore, hret⟩ := (steady_run hcut hrun).exists_return hcut hlone
  exact ⟨more, t, run_append.mpr ⟨s, hrun, hmore⟩, hret⟩

def waitingSchedule : List Actor := sharedSchedule.take 7

theorem homoXmlParser_can_return_waiting : ∃ s more t,
    run (step ['m'] (emptyNode.text ++ emptyNode.text) 2) waitingSchedule {} = .ok s ∧
      s.master ≠ .returned ∧
      run (step ['m'] (emptyNode.text ++ emptyNode.text) 2) (waitingSchedule ++ more) {} = .ok t ∧
      t.master = .returned := by
  obtain ⟨s, hrun, hm⟩ : ∃ s, run (step ['m'] (emptyNode.text ++ emptyNode.text) 2)
      waitingSchedule {} = .ok s ∧ s.master ≠ .returned := ⟨_, rfl, by rintro ⟨⟩⟩
  have hstrip : strip (stripHeader (emptyNode.text ++ emptyNode.text)) =
      '<' :: ['m', '>', '<', '/', 'm', '>', '<', 'm', '>', '<', '/', 'm', '>'] := by decide +kernel
  have hcut : CutInto ['m'] (strip (stripHeader (emptyNode.text ++ emptyNode.text)))
      [emptyNode.text, emptyNode.text] := by
    rw [hstrip]
    have hsecond : CutInto ['m'] emptyNode.text [emptyNode.text] :=
      .cons (show cutNode ['m'] emptyNode.text = some (emptyNode.text, []) by decide +kernel) .nil
    exact .cons (show _ = some (emptyNode.text, emptyNode.text) by decide +kernel) hsecond
  have hlone : ∀ p ∈ [emptyNode.text, emptyNode.text], LoneNode p := by
    have hone : LoneNode emptyNode.text := ⟨emptyNode.obj, emptyNode.parses⟩
    simp [hone]
  obtain ⟨more, t, hmore, hret⟩ :=
    homoXmlParser_can_return _ _ _ 2 hcut hlone waitingSchedule s hrun
  exact ⟨s, more, t, hrun, hm, hmore, hret⟩

/-! ## Well-formed input -/

section Layout
variable {nodes : List (LevelOneNode tag)}

theorem CutInto.of_cutNode {text piece rest : Text} {pieces : List Text} (hne : text ≠ [])
    (h : cutNode tag text = some (piece, rest)) (hrest : CutInto tag rest pieces) :
    CutInto tag text (piece :: pieces) := by
  cases text with
  | nil => exact absurd rfl hne
  | cons c text => exact .cons h hrest

theorem Layout.cutInto (h : Layout tag content nodes) :
    CutInto tag (strip content) (nodes.map LevelOneNode.text) := by
  induction nodes generalizing content with
  | nil =>
    have hready := h.ready
    generalize strip content = text at hready ⊢
    cases hready
    exact .nil
  | cons n nodes ih =>
    have hready := h.ready
    generalize strip content = text at hready ⊢
    obtain _ | hrest := hready
    obtain ⟨s, hs⟩ := node_head (n := n)
    exact .of_cutNode (by simp [hs]) cutNode_append (ih hrest)

theorem lone_nodes (nodes : List (LevelOneNode tag)) :
    ∀ p ∈ nodes.map LevelOneNode.text, LoneNode p := by
  intro p hp
  obtain ⟨n, -, rfl⟩ := List.mem_map.mp hp
  exact ⟨n.obj, n.parses⟩

end Layout

end Trace4J.Offline
