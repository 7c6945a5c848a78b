import Trace4J.Library.SpinLock
import Trace4J.Profiler.SafeSampling

/-!
# Handlers and the lock of the code cache

A signal handler looks methods up in the code cache, and so does a callback that it may have
interrupted. Each thread is a stack of routines as before; a routine makes its calls at one
point, and each is a section under the spin lock that all threads share. A section is the
number of actions that are left of it.
-/

namespace Trace4J.Profiler.HandlerLock
open Library Library.GuardFlag Library.SpinLock SafeSampling

/-! ## Threads that share a lock -/

/-- The sections a routine has yet to go through, and what is left of the one it is in. -/
structure Calls where
  todo : List ℕ := []
  held : Option ℕ := none

def Calls.Pending (c : Calls) : Prop := c.todo ≠ [] ∨ c.held ≠ none

structure Routine where
  frame : Frame
  calls : Calls

structure LockThread where
  thread : Thread := {}
  routines : List Routine := []

structure System (τ : Type) where
  word : ℕ
  threads : τ → LockThread

def calling : Frame → Bool
  | .perf _ .handling | .wp _ .handling | .callback (.work :: _) => true
  | _ => false

/-- The callbacks that call the code cache: two of them for the compiled code, and the one that
writes out the contexts of a thread. -/
def mayCall : Callback → Bool
  | .compiledMethodLoad | .compiledMethodUnload | .threadEnd => true
  | _ => false

def advance (word : ℕ) (t : Thread) (r : Routine) :
    Except SafeSampling.Fault (ℕ × Thread × Option Routine) :=
  (r.frame.step t).map fun out => (word, out.2, out.1.map (⟨·, r.calls⟩))

/-- One step of a routine: an attempt to take the lock, an action under it, its release, or a step
of the routine itself. -/
def stepRoutine (word : ℕ) (t : Thread) (r : Routine) :
    Except SafeSampling.Fault (ℕ × Thread × Option Routine) :=
  if calling r.frame then
    match r.calls with
    | ⟨todo, some (n + 1)⟩ => .ok (word, t, some { r with calls := ⟨todo, some n⟩ })
    | ⟨todo, some 0⟩ => .ok (unlock word, t, some { r with calls := ⟨todo, none⟩ })
    | ⟨n :: todo, none⟩ =>
      .ok ((tryLock word).2, t,
        some (if (tryLock word).1 then { r with calls := ⟨todo, some n⟩ } else r))
    | ⟨[], none⟩ => advance word t r
  else advance word t r

/-- Signals and traps arrive at any point, and callbacks one after the other; with each comes
what it is going to look up. -/
inductive Event
  | signal (info : SigInfo) (todo : List ℕ)
  | trap (info : TrapInfo) (todo : List ℕ)
  | callback (c : Callback) (todo : List ℕ)
  | run

def Event.step (word : ℕ) (lt : LockThread) : Event → Except SafeSampling.Fault (ℕ × LockThread)
  | .signal info todo =>
    .ok (word, { lt with routines := ⟨.perf info .readFlag, ⟨todo, none⟩⟩ :: lt.routines })
  | .trap info todo =>
    .ok (word, { lt with routines := ⟨.wp info .getData, ⟨todo, none⟩⟩ :: lt.routines })
  | .callback c todo =>
    if lt.routines.isEmpty ∧ (mayCall c ∨ todo = []) then
      .ok (word, { lt with routines := [⟨.callback c.ops, ⟨todo, none⟩⟩] })
    else .error .notRunnable
  | .run =>
    match lt.routines with
    | [] => .error .notRunnable
    | r :: routines =>
      (stepRoutine word lt.thread r).map fun out => (out.1, ⟨out.2.1, out.2.2.toList ++ routines⟩)

section Systems
variable {τ : Type} [DecidableEq τ]

def systemStep (e : τ × Event) (s : System τ) : Except SafeSampling.Fault (System τ) :=
  (e.2.step s.word (s.threads e.1)).map fun out =>
    ⟨out.1, Function.update s.threads e.1 out.2⟩

end Systems

/-! ## The invariant of a thread -/

/-- A callback counts as inside while it has calls to make. -/
def Routine.role (r : Routine) : Role :=
  match r.frame with
  | .callback ops =>
    if (r.calls.todo ≠ [] ∨ r.calls.held ≠ none) ∧ .block ∉ ops then .inside else .outside
  | f => f.role

def Leads : List Op → Prop
  | .work :: ops => .block ∉ ops
  | .block :: ops | .stopAll :: ops | .deletePerfState :: ops | .wpThreadTerminate :: ops =>
    .block ∉ ops ∧ Leads ops
  | _ => False

def AtBottom : List Routine → Prop
  | [] => True
  | ⟨.callback ops, calls⟩ :: routines => routines = [] ∧ (calls.Pending → Leads ops)
  | _ :: routines => AtBottom routines

structure ThreadInv (lt : LockThread) : Prop where
  guard : Covered lt.thread.insideAgent (lt.routines.map Routine.role)
  bottom : AtBottom lt.routines
  placed : ∀ r ∈ lt.routines, r.calls.held ≠ none → calling r.frame = true

def Held (routines : List Routine) : Prop := ∃ r ∈ routines, r.calls.held ≠ none

def LockThread.Holds (lt : LockThread) : Prop := Held lt.routines

def LockThread.Waits (lt : LockThread) : Prop :=
  ∃ r routines n todo, lt.routines = r :: routines ∧ calling r.frame = true ∧
    r.calls = ⟨n :: todo, none⟩

section Thread
variable {lt lt' : LockThread} {r : Routine} {routines : List Routine} {t t' : Thread}
  {word word' : ℕ} {f : Frame} {calls : Calls}

theorem role_of_calling (h : calling r.frame = true) (hpending : r.calls.Pending)
    (hbottom : AtBottom (r :: routines)) : r.role = .inside := by
  obtain ⟨f, calls⟩ := r
  cases f with
  | perf info pc => cases pc <;> simp_all [HandlerLock.calling, Routine.role, Frame.role]
  | wp info pc => cases pc <;> simp_all [HandlerLock.calling, Routine.role, Frame.role]
  | callback ops =>
    obtain _ | ⟨op, ops⟩ := ops
    · cases h
    · cases op <;> simp only [HandlerLock.calling, Bool.false_eq_true] at h
      have hleads : Op.block ∉ ops := hbottom.2 hpending
      simp only [Routine.role]
      exact if_pos ⟨hpending, by simpa using hleads⟩

theorem AtBottom.tail (h : AtBottom (r :: routines)) : AtBottom routines := by
  obtain ⟨f, calls⟩ := r
  cases f with
  | perf info pc => exact h
  | wp info pc => exact h
  | callback ops =>
    rw [h.1]
    trivial

theorem AtBottom.mem_role (h : AtBottom routines)
    (hcalling : ∀ r ∈ routines, r.calls.held ≠ none → calling r.frame = true)
    (hr : r ∈ routines) (hheld : r.calls.held ≠ none) : r.role = .inside := by
  induction routines with
  | nil => cases hr
  | cons r' routines ih =>
    obtain rfl | hr := List.mem_cons.mp hr
    · exact role_of_calling (hcalling r List.mem_cons_self hheld) (.inr hheld) h
    · exact ih h.tail (fun r hr => hcalling r (List.mem_cons_of_mem _ hr)) hr

theorem ThreadInv.alone (h : ThreadInv ⟨t, r :: routines⟩) (hrole : r.role = .inside) :
    ∀ r' ∈ routines, r'.calls.held = none := by
  intro r' hr'
  by_contra hheld
  have hinside := h.bottom.tail.mem_role (fun r hr => h.placed r (List.mem_cons_of_mem _ hr)) hr'
    hheld
  have hpair := List.pairwise_cons.mp (List.pairwise_map.mp h.guard.apart.pairwise)
  exact hpair.1 r' hr' ⟨hrole, hinside⟩

theorem tryLock_cases (word : ℕ) :
    (word = 0 ∧ (tryLock word).1 = true ∧ (tryLock word).2 = 1) ∨
      ((tryLock word).1 = false ∧ (tryLock word).2 = word) := by
  by_cases h : word = 0
  · subst h
    exact .inl ⟨rfl, rfl, rfl⟩
  · simp [tryLock, compareAndSwap, h]

/-- What a step of a routine does: an action under the lock, its release, a successful attempt or
one in vain, or a step of its own when it has no call to make. -/
theorem stepRoutine_cases {r' : Option Routine}
    (h : stepRoutine word t ⟨f, calls⟩ = .ok (word', t', r')) :
    (∃ todo n, calling f = true ∧ calls = ⟨todo, some (n + 1)⟩ ∧ word' = word ∧ t' = t ∧
      r' = some ⟨f, todo, some n⟩) ∨
    (∃ todo, calling f = true ∧ calls = ⟨todo, some 0⟩ ∧ word' = unlock word ∧ t' = t ∧
      r' = some ⟨f, todo, none⟩) ∨
    (∃ todo n, calling f = true ∧ calls = ⟨n :: todo, none⟩ ∧ word = 0 ∧ word' = 1 ∧ t' = t ∧
      r' = some ⟨f, todo, some n⟩) ∨
    (word' = word ∧ t' = t ∧ r' = some ⟨f, calls⟩) ∨
    ((calling f = false ∨ ¬calls.Pending) ∧ word' = word ∧
      ∃ f', f.step t = .ok (f', t') ∧ r' = f'.map (⟨·, calls⟩)) := by
  have hadvance : advance word t ⟨f, calls⟩ = .ok (word', t', r') → word' = word ∧
      ∃ f', f.step t = .ok (f', t') ∧ r' = f'.map (⟨·, calls⟩) := by
    intro hadv
    obtain ⟨⟨f', t₁⟩, hf, hout⟩ := map_eq_ok.mp hadv
    cases hout
    exact ⟨rfl, f', hf, rfl⟩
  rw [stepRoutine] at h
  cases hcalling : calling f with
  | false =>
    rw [hcalling] at h
    exact .inr (.inr (.inr (.inr ⟨.inl rfl, hadvance h⟩)))
  | true =>
    rw [hcalling, if_pos rfl] at h
    obtain ⟨todo, held⟩ := calls
    obtain _ | _ | n := held
    · obtain _ | ⟨n, todo⟩ := todo
      · exact .inr (.inr (.inr (.inr ⟨.inr (by simp [Calls.Pending]), hadvance h⟩)))
      · obtain ⟨rfl, hok, hword⟩ | ⟨hfail, hword⟩ := tryLock_cases word
        · simp only [hok, hword, if_true] at h
          cases h
          exact .inr (.inr (.inl ⟨todo, n, rfl, rfl, rfl, rfl, rfl, rfl⟩))
        · simp only [hfail, hword, Bool.false_eq_true, if_false] at h
          cases h
          exact .inr (.inr (.inr (.inl ⟨rfl, rfl, rfl⟩)))
    · cases h
      exact .inr (.inl ⟨todo, rfl, rfl, rfl, rfl, rfl⟩)
    · cases h
      exact .inl ⟨todo, n, rfl, rfl, rfl, rfl, rfl⟩

/-! ### The guard -/

theorem perf_covered {info : SigInfo} {pc : PerfPc} {f' : Option Frame} {roles : List Role}
    (hguard : Covered t.insideAgent ((Frame.perf info pc).role :: roles))
    (h : (Frame.perf info pc).step t = .ok (f', t')) :
    Covered t'.insideAgent ((f'.map Frame.role).toList ++ roles) := by
  obtain ⟨⟨pc', t₁⟩, hpc, hout⟩ := map_eq_ok.mp h
  cases hout
  cases pc with
  | readFlag =>
    cases hpc
    exact hguard.read
  | setFlag prev =>
    cases hpc
    cases prev with
    | false => exact hguard.enter
    | true => exact hguard.refuse.pop
  | getState =>
    rw [perfEventHandler] at hpc
    cases hstate : t.perfState with
    | none =>
      rw [hstate] at hpc
      cases hpc
      exact hguard.pop
    | some es =>
      rw [hstate] at hpc
      cases hpc
      exact hguard
  | stopping k =>
    rw [perfEventHandler] at hpc
    obtain ⟨es, -, ⟨-, rfl, rfl⟩ | ⟨-, rfl, rfl⟩⟩ := switchEvent_cases hpc
    · exact hguard
    · exact hguard
  | checkCode =>
    cases hpc
    split_ifs
    · exact hguard
    · exact hguard
  | findEvent =>
    cases hpc
    split_ifs
    · exact hguard
    · exact hguard
  | handling =>
    cases hpc
    exact hguard
  | restart =>
    rw [perfEventHandler] at hpc
    split_ifs at hpc
    cases hpc
    exact hguard
  | starting k =>
    rw [perfEventHandler] at hpc
    obtain ⟨es, -, ⟨-, rfl, rfl⟩ | ⟨-, rfl, rfl⟩⟩ := switchEvent_cases hpc
    · exact hguard
    · exact hguard
  | exit =>
    cases hpc
    exact hguard.leave.pop

theorem wp_covered {info : TrapInfo} {pc : WpPc} {f' : Option Frame} {roles : List Role}
    (hguard : Covered t.insideAgent ((Frame.wp info pc).role :: roles))
    (h : (Frame.wp info pc).step t = .ok (f', t')) :
    Covered t'.insideAgent ((f'.map Frame.role).toList ++ roles) := by
  obtain ⟨⟨pc', t₁⟩, hpc, hout⟩ := map_eq_ok.mp h
  cases hout
  cases pc with
  | getData =>
    cases hpc
    split_ifs
    · exact hguard
    · exact hguard.pop
  | pausing k =>
    rw [onWatchPoint] at hpc
    obtain ⟨es, -, ⟨-, rfl, rfl⟩ | ⟨-, rfl, rfl⟩⟩ := switchEvent_cases hpc
    · exact hguard
    · exact hguard
  | findLocation =>
    cases hpc
    split_ifs
    · exact hguard
    · exact hguard
    · exact hguard
  | readFlag =>
    cases hpc
    exact hguard.read
  | setFlag prev =>
    cases hpc
    cases prev with
    | false => exact hguard.enter
    | true => exact hguard.refuse
  | handling =>
    cases hpc
    exact hguard
  | exit =>
    cases hpc
    exact hguard.leave
  | action =>
    cases hpc
    exact hguard
  | resuming k =>
    rw [onWatchPoint] at hpc
    obtain ⟨es, -, ⟨-, rfl, rfl⟩ | ⟨-, rfl, rfl⟩⟩ := switchEvent_cases hpc
    · exact hguard
    · exact hguard.pop

def IsHandler : Frame → Prop
  | .callback _ => False
  | _ => True

theorem IsHandler.step {f' : Option Frame} (hf : IsHandler f) (h : f.step t = .ok (f', t')) :
    ∀ g ∈ f', IsHandler g := by
  cases f with
  | perf info pc =>
    obtain ⟨⟨pc', t₁⟩, -, hout⟩ := map_eq_ok.mp h
    cases hout
    cases pc' <;> simp [IsHandler]
  | wp info pc =>
    obtain ⟨⟨pc', t₁⟩, -, hout⟩ := map_eq_ok.mp h
    cases hout
    cases pc' <;> simp [IsHandler]
  | callback ops => exact hf.elim

theorem IsHandler.role (hf : IsHandler f) : (Routine.mk f calls).role = f.role := by
  cases f with
  | perf info pc => rfl
  | wp info pc => rfl
  | callback ops => exact hf.elim

theorem IsHandler.atBottom (hf : IsHandler f) :
    AtBottom (⟨f, calls⟩ :: routines) ↔ AtBottom routines := by
  cases f with
  | perf info pc => rfl
  | wp info pc => rfl
  | callback ops => exact hf.elim

theorem IsHandler.covered {f' : Option Frame} {roles : List Role} (hf : IsHandler f)
    (hguard : Covered t.insideAgent (f.role :: roles)) (h : f.step t = .ok (f', t')) :
    Covered t'.insideAgent ((f'.map Frame.role).toList ++ roles) := by
  cases f with
  | perf info pc => exact perf_covered hguard h
  | wp info pc => exact wp_covered hguard h
  | callback ops => exact hf.elim

theorem callback_covered {op : Op} {ops : List Op} (hleads : Leads (op :: ops))
    (hwork : calling (.callback (op :: ops)) = false)
    (hguard : .block ∉ op :: ops → t.insideAgent = true) (h : op.step t = .ok t') :
    t'.insideAgent = true ∧ Leads ops := by
  cases op with
  | block =>
    cases h
    exact ⟨rfl, hleads.2⟩
  | stopAll =>
    cases h
    exact ⟨hguard (by simpa using hleads.1), hleads.2⟩
  | deletePerfState =>
    cases h
    exact ⟨hguard (by simpa using hleads.1), hleads.2⟩
  | wpThreadTerminate =>
    cases h
    exact ⟨hguard (by simpa using hleads.1), hleads.2⟩
  | work => cases hwork
  | unblock | threadDataAlloc | threadDataDealloc | wpThreadInit | newPerfState | startAll =>
    exact hleads.elim
  | openEvent fd => exact hleads.elim

theorem covered_singleton {b : Bool} {role : Role} (h : role = .inside → b = true)
    (hrole : ∀ prev, role ≠ .read prev) : Covered b [role] := by
  cases role with
  | outside => exact ⟨nofun, trivial⟩
  | read prev => exact absurd rfl (hrole prev)
  | inside => exact ⟨fun _ => h rfl, rfl, trivial⟩

theorem callback_role (ops : List Op) (calls : Calls) :
    (Routine.mk (.callback ops) calls).role = .inside ↔ calls.Pending ∧ .block ∉ ops := by
  simp only [Routine.role, Calls.Pending]
  split_ifs with h
  · simpa using h
  · simpa using h

theorem callback_role_ne_read (ops : List Op) (calls : Calls) (prev : Bool) :
    (Routine.mk (.callback ops) calls).role ≠ .read prev := by
  simp only [Routine.role]
  split_ifs <;> simp

theorem callback_step {ops : List Op} {f' : Option Frame}
    (hbottom : calls.Pending → Leads ops)
    (hnot : calling (.callback ops) = false ∨ ¬calls.Pending)
    (hguard : Covered t.insideAgent [(Routine.mk (.callback ops) calls).role])
    (h : (Frame.callback ops).step t = .ok (f', t')) :
    Covered t'.insideAgent ((f'.map (⟨·, calls⟩ : Frame → Routine)).toList.map Routine.role) ∧
      AtBottom (f'.map (⟨·, calls⟩ : Frame → Routine)).toList := by
  cases ops with
  | nil =>
    cases h
    exact ⟨⟨nofun, trivial⟩, trivial⟩
  | cons op ops =>
    obtain ⟨t₁, hop, hout⟩ := map_eq_ok.mp h
    cases hout
    have hkeep : calls.Pending → t'.insideAgent = true ∧ Leads ops := by
      intro hpending
      have hkind := hnot.resolve_right (not_not_intro hpending)
      refine callback_covered (hbottom hpending) hkind ?_ hop
      intro hblock
      refine hguard.up (anyInside_eq_true.mpr (List.mem_singleton.mpr ?_))
      exact ((callback_role _ _).mpr ⟨hpending, hblock⟩).symm
    refine ⟨covered_singleton (fun hrole => (hkeep ((callback_role _ _).mp hrole).1).1)
      (callback_role_ne_read ops calls), rfl, fun hpending => (hkeep hpending).2⟩

theorem ThreadInv.advance {f' : Option Frame} (h : ThreadInv ⟨t, ⟨f, calls⟩ :: routines⟩)
    (hnot : calling f = false ∨ ¬calls.Pending) (hf : f.step t = .ok (f', t')) :
    ThreadInv ⟨t', (f'.map (⟨·, calls⟩ : Frame → Routine)).toList ++ routines⟩ ∧
      calls.held = none := by
  have hheld : calls.held = none := by
    by_contra hheld
    obtain hcalling | hpending := hnot
    · exact Bool.false_ne_true (hcalling.symm.trans (h.placed _ List.mem_cons_self hheld))
    · exact hpending (.inr hheld)
  have hplaced : ∀ r ∈ (f'.map (⟨·, calls⟩ : Frame → Routine)).toList ++ routines,
      r.calls.held ≠ none → calling r.frame = true := by
    intro r hr hne
    obtain hr | hr := List.mem_append.mp hr
    · obtain ⟨g, -, rfl⟩ := Option.map_eq_some_iff.mp (Option.mem_toList.mp hr)
      exact absurd hheld hne
    · exact h.placed r (List.mem_cons_of_mem _ hr) hne
  refine ⟨?_, hheld⟩
  by_cases hhandler : IsHandler f
  · have hguard := h.guard
    rw [List.map_cons, hhandler.role] at hguard
    have hguard' := hhandler.covered hguard hf
    have hbottom : AtBottom routines := h.bottom.tail
    cases f' with
    | none => exact ⟨hguard', hbottom, hplaced⟩
    | some g =>
      have hg := hhandler.step hf g rfl
      refine ⟨?_, hg.atBottom.mpr hbottom, hplaced⟩
      rwa [List.map_append, Option.map_some, Option.toList_some, List.map_singleton, hg.role]
  · cases f with
    | perf info pc => exact absurd trivial hhandler
    | wp info pc => exact absurd trivial hhandler
    | callback ops =>
      obtain ⟨rfl, hbottom⟩ := h.bottom
      obtain ⟨hguard, hbottom'⟩ := callback_step hbottom hnot h.guard hf
      rw [List.append_nil] at hplaced ⊢
      exact ⟨hguard, hbottom', hplaced⟩

theorem role_calling (h : calling f = true) (calls : Calls) :
    (Routine.mk f calls).role = .inside ∨ (Routine.mk f calls).role = .outside := by
  cases f with
  | perf info pc =>
    cases pc with
    | handling => exact .inl rfl
    | _ => cases h
  | wp info pc =>
    cases pc with
    | handling => exact .inl rfl
    | _ => cases h
  | callback ops =>
    simp only [Routine.role]
    split_ifs
    · exact .inl rfl
    · exact .inr rfl

theorem ThreadInv.recall (h : ThreadInv ⟨t, ⟨f, calls⟩ :: routines⟩) (hcalling : calling f = true)
    (hpending : calls.Pending) (calls' : Calls) : ThreadInv ⟨t, ⟨f, calls'⟩ :: routines⟩ := by
  refine ⟨?_, ?_, ?_⟩
  · have hguard := h.guard
    rw [List.map_cons, role_of_calling hcalling hpending h.bottom] at hguard
    rw [List.map_cons]
    obtain hrole | hrole := role_calling hcalling calls'
    · rw [hrole]
      exact hguard
    · rw [hrole]
      exact hguard.lower
  · have hbottom := h.bottom
    cases f with
    | perf info pc => exact hbottom
    | wp info pc => exact hbottom
    | callback ops => exact ⟨hbottom.1, fun _ => hbottom.2 hpending⟩
  · intro r hr hheld
    obtain rfl | hr := List.mem_cons.mp hr
    · exact hcalling
    · exact h.placed r (List.mem_cons_of_mem _ hr) hheld

theorem held_cons : Held (r :: routines) ↔ r.calls.held ≠ none ∨ Held routines := by
  simp [Held]

theorem held_cons_of_none (h : r.calls.held = none) : Held (r :: routines) ↔ Held routines := by
  rw [held_cons]
  exact or_iff_right (not_not_intro h)

theorem held_cons_of_some {n : ℕ} (h : r.calls.held = some n) : Held (r :: routines) :=
  held_cons.mpr (.inl (by simp [h]))

/-- A step keeps the lock with whoever has it, or takes it for a thread when it is free, or gives
it back for the thread that has it. -/
def Effect (word : ℕ) (lt : LockThread) (word' : ℕ) (lt' : LockThread) : Prop :=
  (word' = word ∧ (lt'.Holds ↔ lt.Holds)) ∨ (word = 0 ∧ word' = 1 ∧ lt'.Holds) ∨
    (word' = unlock word ∧ lt.Holds ∧ ¬lt'.Holds)

theorem ThreadInv.run {r' : Option Routine} (h : ThreadInv ⟨t, r :: routines⟩)
    (hs : stepRoutine word t r = .ok (word', t', r')) :
    ThreadInv ⟨t', r'.toList ++ routines⟩ ∧
      Effect word ⟨t, r :: routines⟩ word' ⟨t', r'.toList ++ routines⟩ := by
  obtain ⟨f, calls⟩ := r
  obtain ⟨todo, n, hcalling, rfl, rfl, rfl, rfl⟩ | ⟨todo, hcalling, rfl, rfl, rfl, rfl⟩ |
    ⟨todo, n, hcalling, rfl, rfl, rfl, rfl, rfl⟩ | ⟨rfl, rfl, rfl⟩ |
    ⟨hnot, rfl, f', hf, rfl⟩ := stepRoutine_cases hs
  · refine ⟨h.recall hcalling (.inr (by simp)) _, .inl ⟨rfl, ?_⟩⟩
    exact iff_of_true (held_cons_of_some rfl) (held_cons_of_some rfl)
  · refine ⟨h.recall hcalling (.inr (by simp)) _, .inr (.inr ⟨rfl, ?_, ?_⟩)⟩
    · exact held_cons_of_some rfl
    · have hrole := role_of_calling hcalling (.inr (by simp)) h.bottom
      rintro ⟨r, hr, hheld⟩
      obtain rfl | hr := List.mem_cons.mp hr
      · exact hheld rfl
      · exact hheld (h.alone hrole r hr)
  · exact ⟨h.recall hcalling (.inl (by simp)) _,
      .inr (.inl ⟨rfl, rfl, held_cons_of_some rfl⟩)⟩
  · exact ⟨h, .inl ⟨rfl, Iff.rfl⟩⟩
  · obtain ⟨hinv, hheld⟩ := h.advance hnot hf
    refine ⟨hinv, .inl ⟨rfl, ?_⟩⟩
    have hbelow : Held (⟨f, calls⟩ :: routines) ↔ Held routines := held_cons_of_none hheld
    cases f' with
    | none => exact hbelow.symm
    | some g => exact (held_cons_of_none hheld).trans hbelow.symm

theorem ThreadInv.step {e : Event} (h : ThreadInv lt) (hs : e.step word lt = .ok (word', lt')) :
    ThreadInv lt' ∧ Effect word lt word' lt' := by
  obtain ⟨t, routines⟩ := lt
  cases e with
  | signal info todo =>
    cases hs
    refine ⟨⟨h.guard.push, h.bottom, ?_⟩, .inl ⟨rfl, ?_⟩⟩
    · exact List.forall_mem_cons.mpr ⟨fun hheld => absurd rfl hheld, h.placed⟩
    · exact held_cons_of_none rfl
  | trap info todo =>
    cases hs
    refine ⟨⟨h.guard.push, h.bottom, ?_⟩, .inl ⟨rfl, ?_⟩⟩
    · exact List.forall_mem_cons.mpr ⟨fun hheld => absurd rfl hheld, h.placed⟩
    · exact held_cons_of_none rfl
  | callback c todo =>
    rw [Event.step] at hs
    split_ifs at hs with hcall
    cases hs
    obtain rfl := List.isEmpty_iff.mp hcall.1
    have hleads : todo ≠ [] → Leads c.ops ∧ .block ∈ c.ops := by
      intro htodo
      have hmay := hcall.2.resolve_right htodo
      cases c <;> simp [mayCall] at hmay <;> simp [Callback.ops, Leads]
    have hpending : Calls.Pending ⟨todo, none⟩ → todo ≠ [] := fun h => h.resolve_right (by simp)
    refine ⟨⟨covered_singleton (fun hrole => ?_) (callback_role_ne_read c.ops _), ⟨rfl, ?_⟩, ?_⟩,
      .inl ⟨rfl, held_cons_of_none rfl⟩⟩
    · obtain ⟨hcalls, hblock⟩ := (callback_role ..).mp hrole
      exact absurd (hleads (hpending hcalls)).2 hblock
    · exact fun hcalls => (hleads (hpending hcalls)).1
    · exact List.forall_mem_cons.mpr ⟨fun hheld => absurd rfl hheld, List.forall_mem_nil _⟩
  | run =>
    cases routines with
    | nil => cases hs
    | cons r routines =>
      obtain ⟨⟨word₁, t₁, r'⟩, hr, hout⟩ := map_eq_ok.mp hs
      cases hout
      exact h.run hr

theorem ThreadInv.not_holds_of_waits (h : ThreadInv lt) (hwaits : lt.Waits) : ¬lt.Holds := by
  obtain ⟨t, routines⟩ := lt
  obtain ⟨r, below, n, todo, hroutines, hcalling, hcalls⟩ := hwaits
  cases hroutines
  have hrole := role_of_calling hcalling (.inl (by simp [hcalls])) h.bottom
  rintro ⟨r', hr', hheld⟩
  obtain rfl | hr' := List.mem_cons.mp hr'
  · exact hheld (by rw [hcalls])
  · exact hheld (h.alone hrole r' hr')

end Thread

/-! ## The invariant of the system -/

section Systems
variable {τ : Type} [DecidableEq τ] {s s' : System τ} {t : τ}

structure Inv (s : System τ) : Prop where
  threads : ∀ t, ThreadInv (s.threads t)
  word : (s.word = 0 ∧ ∀ t, ¬(s.threads t).Holds) ∨
    (s.word = 1 ∧ ∃ t, (s.threads t).Holds ∧ ∀ u, (s.threads u).Holds → u = t)

theorem Inv.step {e : τ × Event} (h : Inv s) (hs : systemStep e s = .ok s') : Inv s' := by
  obtain ⟨t, e⟩ := e
  obtain ⟨⟨word', lt'⟩, he, hout⟩ := map_eq_ok.mp hs
  cases hout
  obtain ⟨hinv, heffect⟩ := (h.threads t).step he
  have hother : ∀ u, u ≠ t → Function.update s.threads t lt' u = s.threads u :=
    fun u hu => Function.update_of_ne hu ..
  refine ⟨fun u => ?_, ?_⟩
  · by_cases hu : u = t
    · subst hu
      simpa using hinv
    · simpa only [hother u hu] using h.threads u
  dsimp only
  obtain ⟨rfl, hholds⟩ | ⟨hfree, rfl, hholds⟩ | ⟨rfl, hheld, hholds⟩ := heffect
  · have hsame : ∀ u, (Function.update s.threads t lt' u).Holds ↔ (s.threads u).Holds := by
      intro u
      by_cases hu : u = t
      · subst hu
        simpa using hholds
      · rw [hother u hu]
    simp only [hsame]
    exact h.word
  · obtain ⟨-, hnone⟩ | ⟨hword, -⟩ := h.word
    · refine .inr ⟨rfl, t, by simpa using hholds, fun u hu => ?_⟩
      by_contra hne
      rw [hother u hne] at hu
      exact hnone u hu
    · rw [hfree] at hword
      cases hword
  · obtain ⟨-, hnone⟩ | ⟨hword, t', -, hunique⟩ := h.word
    · exact absurd hheld (hnone t)
    · refine .inl ⟨by rw [hword]; rfl, fun u hu => ?_⟩
      by_cases hut : u = t
      · subst hut
        simp only [Function.update_self] at hu
        exact hholds hu
      · rw [hother u hut] at hu
        exact hut ((hunique u hu).trans (hunique t hheld).symm)

end Systems

/-! ## Handlers that are not let in -/

structure Refused (f : Frame) : Prop where
  handler : IsHandler f
  role : f.role = .outside ∨ f.role = .read true

def remaining (l : ℕ) : Frame → ℕ
  | .perf _ .readFlag => 2
  | .perf _ (.setFlag _) => 1
  | .perf _ _ => 0
  | .wp _ .getData => 2 * l + 7
  | .wp _ (.pausing k) => (l - k) + l + 6
  | .wp _ .findLocation => l + 5
  | .wp _ .readFlag => l + 4
  | .wp _ (.setFlag _) => l + 3
  | .wp _ .action => l + 2
  | .wp _ (.resuming k) => (l - k) + 1
  | .wp _ _ => 0
  | .callback _ => 0

theorem Refused.not_calling {f : Frame} (h : Refused f) : calling f = false := by
  obtain ⟨hhandler, hrole⟩ := h
  cases f with
  | perf info pc => cases pc <;> simp [Frame.role, calling] at hrole ⊢
  | wp info pc => cases pc <;> simp [Frame.role, calling] at hrole ⊢
  | callback ops => exact hhandler.elim

structure Closer (t : Thread) (f : Frame) (t' : Thread) (f' : Option Frame) : Prop where
  up : t'.insideAgent = true
  events : t'.events.length = t.events.length
  next : ∀ g ∈ f', Refused g ∧ remaining t.events.length g < remaining t.events.length f

theorem switchEvent_closer {α : Type} {t : Thread} (on : Bool) (k : ℕ) (again : ℕ → α) (next : α)
    (hflag : t.insideAgent = true) :
    switchEvent on k again next t = .error .assertion ∨
      ∃ a t', switchEvent on k again next t = .ok (a, t') ∧ t'.insideAgent = true ∧
        t'.events.length = t.events.length ∧
        (k < t.events.length ∧ a = again (k + 1) ∨ t.events.length ≤ k ∧ a = next) := by
  rw [switchEvent]
  cases hstate : t.perfState with
  | none => exact .inl rfl
  | some es =>
    have hevents : t.events = es := events_of_perfState hstate
    dsimp only
    split_ifs with hk
    · refine .inr ⟨_, _, rfl, hflag, ?_, .inl ⟨by rw [hevents]; exact hk, rfl⟩⟩
      rw [events_setPerfState, Option.getD_some, List.length_modify, hevents]
    · exact .inr ⟨_, _, rfl, hflag, rfl, .inr ⟨by rw [hevents]; omega, rfl⟩⟩

theorem Refused.step {t : Thread} {f : Frame} (h : Refused f) (hflag : t.insideAgent = true) :
    f.step t = .error .assertion ∨ ∃ t' f', f.step t = .ok (f', t') ∧ Closer t f t' f' := by
  obtain ⟨hhandler, hrole⟩ := h
  cases f with
  | callback ops => exact hhandler.elim
  | perf info pc =>
    cases pc with
    | readFlag =>
      refine .inr ⟨t, _, rfl, hflag, rfl, ?_⟩
      rintro g ⟨⟩
      exact ⟨⟨trivial, .inr (by rw [Frame.role, hflag])⟩, by simp [remaining]⟩
    | setFlag prev =>
      obtain rfl : prev = true := by simpa [Frame.role] using hrole
      refine .inr ⟨_, none, rfl, rfl, rfl, ?_⟩
      intro g hg
      cases hg
    | _ => simp [Frame.role] at hrole
  | wp info pc =>
    cases pc with
    | getData =>
      refine .inr ⟨t, _, rfl, hflag, rfl, ?_⟩
      intro g hg
      dsimp only at hg
      split_ifs at hg
      · cases hg
        exact ⟨⟨trivial, .inl rfl⟩, by simp only [remaining]; omega⟩
      · cases hg
    | pausing k =>
      obtain herr | ⟨a, t', hs, hflag', hlen, ha⟩ :=
        switchEvent_closer false k (fun k => some (.pausing k)) (some WpPc.findLocation) hflag
      · exact .inl (by rw [Frame.step, onWatchPoint, herr]; rfl)
      · refine .inr ⟨t', a.map (.wp info), by rw [Frame.step, onWatchPoint, hs]; rfl, hflag',
          hlen, ?_⟩
        obtain ⟨hk, rfl⟩ | ⟨hk, rfl⟩ := ha
        · rintro g ⟨⟩
          exact ⟨⟨trivial, .inl rfl⟩, by simp only [remaining]; omega⟩
        · rintro g ⟨⟩
          exact ⟨⟨trivial, .inl rfl⟩, by simp only [remaining]; omega⟩
    | findLocation =>
      refine .inr ⟨t, _, rfl, hflag, rfl, ?_⟩
      intro g hg
      dsimp only at hg
      split_ifs at hg
      · cases hg
        exact ⟨⟨trivial, .inl rfl⟩, by simp only [remaining]; omega⟩
      · cases hg
        exact ⟨⟨trivial, .inl rfl⟩, by simp only [remaining]; omega⟩
      · cases hg
        exact ⟨⟨trivial, .inl rfl⟩, by simp only [remaining]; omega⟩
    | readFlag =>
      refine .inr ⟨t, _, rfl, hflag, rfl, ?_⟩
      rintro g ⟨⟩
      exact ⟨⟨trivial, .inr (by rw [Frame.role, hflag])⟩, by simp only [remaining]; omega⟩
    | setFlag prev =>
      obtain rfl : prev = true := by simpa [Frame.role] using hrole
      refine .inr ⟨_, some (.wp info .action), rfl, rfl, rfl, ?_⟩
      rintro g ⟨⟩
      exact ⟨⟨trivial, .inl rfl⟩, by simp only [remaining]; omega⟩
    | action =>
      refine .inr ⟨t, _, rfl, hflag, rfl, ?_⟩
      rintro g ⟨⟩
      exact ⟨⟨trivial, .inl rfl⟩, by simp only [remaining]; omega⟩
    | resuming k =>
      obtain herr | ⟨a, t', hs, hflag', hlen, ha⟩ :=
        switchEvent_closer true k (fun k => some (WpPc.resuming k)) none hflag
      · exact .inl (by rw [Frame.step, onWatchPoint, herr]; rfl)
      · refine .inr ⟨t', a.map (.wp info), by rw [Frame.step, onWatchPoint, hs]; rfl, hflag',
          hlen, ?_⟩
        obtain ⟨hk, rfl⟩ | ⟨hk, rfl⟩ := ha
        · rintro g ⟨⟩
          exact ⟨⟨trivial, .inl rfl⟩, by simp only [remaining]; omega⟩
        · rintro g ⟨⟩
    | handling | exit => simp [Frame.role] at hrole

/-! ## The lock comes free -/

section Frees
variable {τ : Type} [DecidableEq τ] {s s' : System τ} {t : τ} {th : Thread} {f : Frame}
  {todo : List ℕ} {n : ℕ} {above below : List Routine}

/-- Thread `t` alone, with nothing more to interrupt it, frees the lock or stops at an
assertion. -/
def Frees (t : τ) (s : System τ) : Prop :=
  ∃ k, (∃ s', run systemStep (List.replicate k (t, .run)) s = .ok s' ∧ s'.word = 0) ∨
    run systemStep (List.replicate k (t, .run)) s = .error .assertion

theorem Frees.free (hword : s.word = 0) : Frees t s := ⟨0, .inl ⟨s, rfl, hword⟩⟩

theorem Frees.step (hs : systemStep (t, .run) s = .ok s') (h : Frees t s') : Frees t s := by
  obtain ⟨k, ⟨s'', hrun, hword⟩ | hrun⟩ := h
  · exact ⟨k + 1, .inl ⟨s'', run_cons.mpr ⟨s', hs, hrun⟩, hword⟩⟩
  · refine ⟨k + 1, .inr ?_⟩
    rw [List.replicate_succ, run, hs]
    exact hrun

theorem Frees.assertion (hs : systemStep (t, .run) s = .error .assertion) : Frees t s := by
  refine ⟨1, .inr ?_⟩
  rw [List.replicate_one, run, hs]
  rfl

theorem systemStep_run {r : Routine} {routines : List Routine}
    (hroutines : (s.threads t).routines = r :: routines) :
    systemStep (t, .run) s = (stepRoutine s.word (s.threads t).thread r).map fun out =>
      ⟨out.1, Function.update s.threads t ⟨out.2.1, out.2.2.toList ++ routines⟩⟩ := by
  rw [systemStep, Event.step, hroutines]
  dsimp only
  cases stepRoutine s.word (s.threads t).thread r <;> rfl

theorem frees_of_section (hword : s.word = 1) (hcalling : calling f = true)
    (hroutines : (s.threads t).routines = ⟨f, todo, some n⟩ :: below) : Frees t s := by
  induction n generalizing s with
  | zero =>
    have hs : systemStep (t, .run) s = .ok ⟨0, Function.update s.threads t
        ⟨(s.threads t).thread, ⟨f, todo, none⟩ :: below⟩⟩ := by
      rw [systemStep_run hroutines, stepRoutine, hcalling, hword]
      rfl
    exact Frees.step hs (Frees.free rfl)
  | succ n ih =>
    have hs : systemStep (t, .run) s = .ok ⟨1, Function.update s.threads t
        ⟨(s.threads t).thread, ⟨f, todo, some n⟩ :: below⟩⟩ := by
      rw [systemStep_run hroutines, stepRoutine, hcalling, hword]
      rfl
    exact Frees.step hs (ih rfl (by simp))

theorem frees_of_top {a : Routine} {rest : List Routine} (hword : s.word = 1)
    (hflag : (s.threads t).thread.insideAgent = true) (ha : Refused a.frame)
    (hroutines : (s.threads t).routines = a :: rest)
    (hrest : ∀ s' : System τ, s'.word = 1 → (s'.threads t).thread.insideAgent = true →
      (s'.threads t).routines = rest → Frees t s') : Frees t s := by
  obtain ⟨m, hm⟩ : ∃ m, remaining (s.threads t).thread.events.length a.frame ≤ m :=
    ⟨_, Nat.le_refl _⟩
  induction m using Nat.strongRecOn generalizing s a with
  | ind m ih =>
    have hadvance : stepRoutine s.word (s.threads t).thread a =
        advance s.word (s.threads t).thread a := by
      rw [stepRoutine, ha.not_calling, if_neg Bool.false_ne_true]
    obtain herr | ⟨th, f', hstep, hcloser⟩ := ha.step hflag
    · apply Frees.assertion
      rw [systemStep_run hroutines, hadvance, advance, herr]
      rfl
    · have hs : systemStep (t, .run) s = .ok ⟨s.word, Function.update s.threads t
          ⟨th, (f'.map (⟨·, a.calls⟩ : Frame → Routine)).toList ++ rest⟩⟩ := by
        rw [systemStep_run hroutines, hadvance, advance, hstep]
        rfl
      refine Frees.step hs ?_
      cases f' with
      | none => exact hrest _ hword (by simpa using hcloser.up) (by simp)
      | some g =>
        obtain ⟨hg, hless⟩ := hcloser.next g rfl
        refine ih _ (Nat.lt_of_lt_of_le hless hm) (a := ⟨g, a.calls⟩) hword
          (by simpa using hcloser.up) hg (by simp) ?_
        simp [hcloser.events]

/-- The handlers above the one that holds the lock return, and then it goes on. -/
theorem frees_of_above (hword : s.word = 1) (hcalling : calling f = true)
    (hflag : (s.threads t).thread.insideAgent = true) (habove : ∀ a ∈ above, Refused a.frame)
    (hroutines : (s.threads t).routines = above ++ ⟨f, todo, some n⟩ :: below) : Frees t s := by
  induction above generalizing s with
  | nil => exact frees_of_section hword hcalling hroutines
  | cons a above ih =>
    obtain ⟨ha, habove⟩ := List.forall_mem_cons.mp habove
    exact frees_of_top hword hflag ha hroutines fun s' hword hflag hroutines =>
      ih hword hflag habove hroutines

theorem AtBottom.isHandler {r : Routine} (h : AtBottom (above ++ r :: below)) :
    ∀ a ∈ above, IsHandler a.frame := by
  induction above with
  | nil => nofun
  | cons a above ih =>
    refine List.forall_mem_cons.mpr ⟨?_, ih h.tail⟩
    obtain ⟨f, calls⟩ := a
    cases f with
    | perf info pc => trivial
    | wp info pc => trivial
    | callback ops =>
      have hnil := h.1
      simp at hnil

theorem Inv.frees (h : Inv s) (hword : s.word = 1) (hholds : (s.threads t).Holds) : Frees t s := by
  obtain ⟨r, hr, hheld⟩ := hholds
  obtain ⟨above, below, hroutines⟩ := List.append_of_mem hr
  have hinv := h.threads t
  have hcalling := hinv.placed r hr hheld
  have hinside := hinv.bottom.mem_role hinv.placed hr hheld
  have hbottom := hinv.bottom
  have hguard := hinv.guard
  rw [hroutines] at hbottom
  rw [hroutines, List.map_append, List.map_cons, hinside] at hguard
  have hflag := hguard.up (anyInside_eq_true.mpr (by simp))
  obtain ⟨f, todo, held⟩ := r
  obtain ⟨n, rfl⟩ := Option.ne_none_iff_exists'.mp hheld
  refine frees_of_above hword hcalling hflag (fun a ha => ?_) hroutines
  have hhandler := hbottom.isHandler a ha
  refine ⟨hhandler, ?_⟩
  have hrole : a.role = a.frame.role := hhandler.role
  rw [← hrole]
  exact hguard.apart.above a.role (List.mem_map_of_mem ha)

/-- No thread waits for a lock that it has itself, at most one thread has it, and that one frees it
unless it is interrupted for ever. -/
structure DeadlockFree (s : System τ) : Prop where
  waits : ∀ t, (s.threads t).Waits → ¬(s.threads t).Holds
  exclusive : ∀ t u, (s.threads t).Holds → (s.threads u).Holds → t = u
  taken : s.word ≠ 0 ↔ ∃ t, (s.threads t).Holds
  frees : ∀ t, (s.threads t).Holds → Frees t s

theorem Inv.deadlockFree (h : Inv s) : DeadlockFree s := by
  have hwaits := fun t => (h.threads t).not_holds_of_waits
  obtain ⟨hword, hnone⟩ | ⟨hword, t, hholds, hunique⟩ := h.word
  · exact ⟨hwaits, fun t u ht => absurd ht (hnone t),
      iff_of_false (not_not_intro hword) fun ⟨t, ht⟩ => hnone t ht, fun t ht => absurd ht (hnone t)⟩
  · exact ⟨hwaits, fun u v hu hv => (hunique u hu).trans (hunique v hv).symm,
      iff_of_true (by rw [hword]; decide) ⟨t, hholds⟩, fun u hu => h.frees hword hu⟩

/-- However signals, traps and callbacks of all threads interleave, also where the guard of a
thread goes wrong. -/
theorem run_deadlockFree {events : List (τ × Event)} (hword : s.word = 0)
    (hidle : ∀ t, (s.threads t).routines = []) (hrun : run systemStep events s = .ok s') :
    DeadlockFree s' := by
  have hinit : Inv s := by
    refine ⟨fun t => ⟨?_, ?_, ?_⟩, .inl ⟨hword, fun t => ?_⟩⟩
    · rw [hidle t]
      exact ⟨nofun, trivial⟩
    · rw [hidle t]
      trivial
    · rw [hidle t]
      nofun
    · rw [LockThread.Holds, hidle t]
      rintro ⟨r, hr, -⟩
      cases hr
  exact Inv.deadlockFree (run_keeps (fun e s s' h hs => h.step hs) hinit hrun)

end Frees

def sampledThreads : System ℕ :=
  ⟨0, fun _ => { thread := { td := some { perfState := some [⟨3, true⟩] } } }⟩

/-- A signal arrives at thread 0 while its callback has the lock, and a handler of thread 1 waits
for it. -/
def interruptedHolder : List (ℕ × Event) :=
  [(0, .callback .compiledMethodLoad [2]), (0, .run), (0, .run), (0, .signal ⟨1, 3⟩ [1]), (0, .run),
    (1, .signal ⟨1, 3⟩ [1]), (1, .run), (1, .run), (1, .run), (1, .run), (1, .run), (1, .run),
    (1, .run), (1, .run)]

theorem run_deadlockFree_interruptedHolder :
    ∃ s, run systemStep interruptedHolder sampledThreads = .ok s ∧ DeadlockFree s := by
  obtain ⟨s, hrun⟩ : ∃ s, run systemStep interruptedHolder sampledThreads = .ok s := ⟨_, rfl⟩
  exact ⟨s, hrun, run_deadlockFree rfl (fun _ => rfl) hrun⟩

end Trace4J.Profiler.HandlerLock
