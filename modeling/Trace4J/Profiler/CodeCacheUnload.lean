import Trace4J.Profiler.CodeCacheCoupling

/-!
# Unloading code the cache may not know

The virtual machine announces the unloading of all code, also of what it compiled before
the agent was there to register it. `removeMethod` tells such code apart only by its
method id: when another version is registered under the id it goes on to the range at the
address, which it then asserts to be there.
-/

namespace Trace4J.Profiler
open Library

namespace CodeCacheManager

def IsRegistered (c : CodeCacheManager) (methodId : JMethodID) (codeAddr : ℕ) : Prop :=
  ∃ p, (c.groupOf methodId).addressMethodMap.lookup codeAddr = some p

/-- The method behind `p` is in both indexes, and lookups find it all over its code. -/
structure Findable (c : CodeCacheManager) (p : Ptr) (m : CompiledMethod) : Prop where
  owned : c.heap p = some m
  byId : (c.groupOf m.methodId).addressMethodMap.lookup m.startAddr = some p
  byAddr : (m.startAddr, ⟨m.startAddr, m.lastAddr, p⟩) ∈ c.methodRangeSet.entries
  found : ∀ addr, m.Covers addr → c.getMethod addr = some p ∧
    c.getMethodAt addr = .ok (some (p, m.methodId, m.version))

/-- What `c'` misses of `c` is the one method and nothing else. -/
structure LosesOnly (methodId : JMethodID) (codeAddr : ℕ) (c c' : CodeCacheManager) : Prop where
  ranges : ∀ e, e ∈ c'.methodRangeSet.entries ↔
    e ∈ c.methodRangeSet.entries ∧ e.1 ≠ codeAddr
  groups : ∀ id addr p, (c'.groupOf id).addressMethodMap.lookup addr = some p ↔
    (c.groupOf id).addressMethodMap.lookup addr = some p ∧ ¬(id = methodId ∧ addr = codeAddr)
  gone : ∀ p m addr, c.Findable p m → m.methodId = methodId → m.startAddr = codeAddr →
    m.Covers addr → c'.getMethod addr = none
  others : ∀ p m, c.Findable p m → ¬(m.methodId = methodId ∧ m.startAddr = codeAddr) →
    c'.Findable p m

/-- `removeMethod` returns and does what the unloading of this code asks for. -/
def RemovesExactly (c : CodeCacheManager) (methodId : JMethodID) (codeAddr : ℕ) : Prop :=
  ∃ c', c.removeMethod methodId codeAddr = .ok c' ∧
    (¬c.IsRegistered methodId codeAddr → c' = c) ∧
    (c.IsRegistered methodId codeAddr → LosesOnly methodId codeAddr c c')

end CodeCacheManager

/-- As `Promised`, but the code that is unloaded may also be none that was registered, as
long as it lies elsewhere. -/
def Announced : CacheEvent → CacheSystem → Prop
  | .unload methodId codeAddr, s =>
    Promised (.unload methodId codeAddr) s ∨ ∀ m ∈ s.jvm.live, m.startAddr ≠ codeAddr
  | ev, s => Promised ev s

variable {s s' : CacheSystem} {c c' : CodeCacheManager} {methodId : JMethodID} {codeAddr : ℕ}
variable {m : CompiledMethod} {p : Ptr} {g : CompiledMethodGroup}

theorem Coupled.findable (h : Coupled s) (hp : s.cache.heap p = some m) :
    s.cache.Findable p m := by
  refine ⟨hp, (h.groups _ _ p).mpr ⟨m, hp, rfl, rfl⟩, (h.ranges _).mpr ⟨p, m, hp, rfl⟩, ?_⟩
  intro addr hcov
  have hdata := h.getData_eq hp hcov
  refine ⟨hdata, ?_⟩
  simp only [CodeCacheManager.getMethodAt, hdata, deref_eq hp]
  rfl

/-! ## Code that is not registered -/

theorem removeMethod_no_group (h : c.methodIdMap.lookup methodId = none) :
    c.removeMethod methodId codeAddr = .ok c := by
  rw [CodeCacheManager.removeMethod, h]

theorem not_registered_no_group (h : c.methodIdMap.lookup methodId = none) :
    ¬c.IsRegistered methodId codeAddr := by
  rintro ⟨p, hp⟩
  rw [CodeCacheManager.groupOf, h] at hp
  cases hp

theorem remove_eq_some {ranges ranges' : RangeSet Ptr} {start : ℕ}
    (h : RangeSet.remove ranges start = some ranges') :
    ranges' = ranges.erase start ∧ ∃ e ∈ ranges.entries, e.2.start = start := by
  unfold RangeSet.remove RangeSet.getRange at h
  cases hfloor : ranges.floorEntry start with
  | none => simp [hfloor] at h
  | some e =>
    simp only [hfloor] at h
    by_cases hstop : e.2.stop < start
    · simp [hstop] at h
    · simp only [if_neg hstop, Option.ite_none_right_eq_some] at h
      obtain ⟨hstart, h⟩ := h
      exact ⟨(Option.some.inj h).symm, e, (OrderedMap.floorEntry_eq_some.mp hfloor).1, hstart⟩

/-- With a group for the method id, `removeMethod` only returns when a range starts at the
address, whoever's it is, and that range is gone then. -/
theorem Coupled.removes_range (h : Coupled s) (hg : s.cache.methodIdMap.lookup methodId = some g)
    (hr : s.cache.removeMethod methodId codeAddr = .ok c') :
    (∃ a ∈ s.jvm.live, a.startAddr = codeAddr) ∧
      ∃ e ∈ s.cache.methodRangeSet.entries, e ∉ c'.methodRangeSet.entries := by
  rw [CodeCacheManager.removeMethod, hg] at hr
  dsimp only at hr
  cases hrem : RangeSet.remove s.cache.methodRangeSet codeAddr with
  | none =>
    rw [hrem] at hr
    cases hr
  | some ranges =>
    rw [hrem] at hr
    cases hr
    obtain ⟨rfl, e, he, hstart⟩ := remove_eq_some hrem
    obtain ⟨p, a, hp, rfl⟩ := (h.ranges e).mp he
    refine ⟨⟨a, (h.owned a).mpr ⟨p, hp⟩, hstart⟩, _, he, ?_⟩
    rw [OrderedMap.mem_erase]
    exact fun hmem => hmem.2 hstart

theorem Jvm.unload_absent {j : Jvm} (h : ∀ m ∈ j.live, m.startAddr ≠ codeAddr) :
    j.unload methodId codeAddr = j := by
  have hkeep : j.live.filter (fun m => ¬(m.methodId = methodId ∧ m.startAddr = codeAddr)) =
      j.live := by
    rw [List.filter_eq_self]
    intro m hm
    have hne := h m hm
    simp only [hne, and_false, not_false_eq_true, decide_true]
  rw [Jvm.unload, hkeep]

theorem Coupled.announced (h : Coupled s) {ev : CacheEvent} (hev : Announced ev s)
    (hs : cacheStep ev s = .ok s') : Coupled s' := by
  have hpromised : Promised ev s → Coupled s' := by
    intro hp
    obtain ⟨t, ht, hcoupled⟩ := h.step hp
    obtain rfl := Except.ok.inj (ht.symm.trans hs)
    exact hcoupled
  cases ev with
  | load t methodId codeSize codeAddr => exact hpromised hev
  | loaded t newMethod => exact hpromised hev
  | unload methodId codeAddr =>
    rcases hev with hev | hother
    · exact hpromised hev
    obtain ⟨c', hr, hs⟩ := bind_eq_ok.mp hs
    cases hs
    cases hg : s.cache.methodIdMap.lookup methodId with
    | none =>
      rw [removeMethod_no_group hg] at hr
      cases hr
      rw [Jvm.unload_absent hother]
      exact h
    | some g =>
      obtain ⟨⟨a, ha, hstart⟩, -⟩ := h.removes_range hg hr
      exact absurd hstart (hother a ha)

/-! ## Code that is registered -/

theorem Coupled.removeMethod_eq (h : Coupled s) (hp : s.cache.heap p = some m) :
    ∃ g c', s.cache.methodIdMap.lookup m.methodId = some g ∧
      s.cache.removeMethod m.methodId m.startAddr = .ok c' ∧
      c'.methodRangeSet = s.cache.methodRangeSet.erase m.startAddr ∧
      c'.methodIdMap = s.cache.methodIdMap.insert m.methodId
        { g with addressMethodMap := g.addressMethodMap.erase m.startAddr } ∧
      c'.heap = Function.update s.cache.heap p none ∧
      Coupled { s with jvm := s.jvm.unload m.methodId m.startAddr, cache := c' } := by
  obtain ⟨g, hg, hstep⟩ := h.unload_eq hp
  obtain ⟨t, ht, hcoupled⟩ := h.unload ((h.owned m).mpr ⟨p, hp⟩)
  obtain rfl := Except.ok.inj (hstep.symm.trans ht)
  obtain ⟨c', hr, hs⟩ := bind_eq_ok.mp hstep
  cases hs
  exact ⟨g, _, hg, hr, rfl, rfl, rfl, hcoupled⟩

theorem Coupled.losesOnly (h : Coupled s) (hp : s.cache.heap p = some m)
    (hr : s.cache.removeMethod m.methodId m.startAddr = .ok c') :
    CodeCacheManager.LosesOnly m.methodId m.startAddr s.cache c' := by
  obtain ⟨g, c₁, hg, hr₁, hranges, hgroups, hheap, hcoupled⟩ := h.removeMethod_eq hp
  obtain rfl := Except.ok.inj (hr₁.symm.trans hr)
  have hm : m ∈ s.jvm.live := (h.owned m).mpr ⟨p, hp⟩
  have hgroup : s.cache.groupOf m.methodId = g := by
    rw [CodeCacheManager.groupOf, hg, Option.getD_some]
  have heap_iff := heap_erase (fun q hq => h.single q p m hq hp) hp
  rw [← hheap] at heap_iff
  constructor
  · intro e
    rw [hranges, OrderedMap.mem_erase]
  · intro id addr q
    rw [CodeCacheManager.groupOf_insert hgroups]
    split_ifs with hid
    · rw [hid, hgroup]
      by_cases haddr : addr = m.startAddr
      · rw [haddr, AList.lookup_erase]
        simp
      · rw [AList.lookup_erase_ne haddr]
        simp [haddr]
    · simp [hid]
  · intro q a addr hq hid haddr hcov
    have ha : a ∈ s.jvm.live := (h.owned a).mpr ⟨q, hq.owned⟩
    obtain rfl := h.valid.eq_of_start ha hm haddr
    refine hcoupled.getData_eq_none ?_
    intro b hb
    obtain ⟨hblive, hne⟩ := (h.valid.mem_unload hm rfl rfl b).mp hb
    exact (h.valid.live a hm b hblive (Ne.symm hne)).not_covers hcov
  · intro q a hq hne
    have ham : a ≠ m := by
      rintro rfl
      exact hne ⟨rfl, rfl⟩
    exact hcoupled.findable ((heap_iff q a).mpr ⟨hq.owned, ham⟩)

/-- After any run of loads and unloads, whatever code the next unload names: `removeMethod`
does what is asked exactly when the code is registered or no version of the method is. -/
theorem removeMethod_exact_iff (evs : List CacheEvent) (hevs : Meets cacheStep Announced evs {})
    (s : CacheSystem) (hrun : run cacheStep evs {} = .ok s) (methodId : JMethodID)
    (codeAddr : ℕ) :
    s.cache.RemovesExactly methodId codeAddr ↔
      s.cache.methodIdMap.lookup methodId = none ∨ s.cache.IsRegistered methodId codeAddr := by
  have h : Coupled s := run_invariant (fun ev s s' hs hev => hs.announced hev) coupled_init hevs hrun
  constructor
  · rintro ⟨c', hr, hkeep, -⟩
    by_contra hno
    obtain ⟨hg, hreg⟩ := not_or.mp hno
    obtain ⟨g, hg⟩ := Option.ne_none_iff_exists'.mp hg
    obtain ⟨-, e, he, hgone⟩ := h.removes_range hg hr
    rw [hkeep hreg] at hgone
    exact hgone he
  · rintro (hg | hreg)
    · exact ⟨s.cache, removeMethod_no_group hg, fun _ => rfl,
        fun hreg => absurd hreg (not_registered_no_group hg)⟩
    · obtain ⟨p, hp⟩ := id hreg
      obtain ⟨m, hm, rfl, rfl⟩ := (h.groups methodId codeAddr p).mp hp
      obtain ⟨g, c', -, hr, -⟩ := h.removeMethod_eq hm
      exact ⟨c', hr, fun hno => absurd hreg hno, fun _ => h.losesOnly hm hr⟩

theorem Jvm.loaded_idle {j : Jvm} (h : ∀ u, j.loading u = none) (t : ThreadId)
    (methodId : JMethodID) (codeSize : ℤ) (codeAddr : ℕ) (u : ThreadId) :
    ((j.load t methodId codeSize codeAddr).loaded t).loading u = none := by
  simp only [Jvm.loaded, Jvm.load, Function.update_self, Function.update_apply]
  split_ifs
  · rfl
  · exact h u

theorem Jvm.mayLoad_idle {j : Jvm} (h : ∀ u, j.loading u = none) {t : ThreadId}
    {methodId : JMethodID} {m : CompiledMethod} (hplaced : m.Placed)
    (hlive : ∀ a ∈ j.live, m.Disjoint a) (hfewer : j.loads methodId + 1 < 2 ^ 32) :
    j.MayLoad t methodId m :=
  ⟨h t, hplaced, hlive, fun u a hu => by simp [h u] at hu, hfewer⟩

def twoMethods : List CacheEvent :=
  [.load 0 7 16 4096, .loaded 0 50, .load 0 7 32 8192, .loaded 0 51, .load 0 9 16 12288,
    .loaded 0 52]

theorem twoMethods_announced : Meets cacheStep Announced twoMethods {} := by
  have h₀ : ∀ u, ({} : Jvm).loading u = none := fun _ => rfl
  have h₁ := Jvm.loaded_idle h₀ 0 7 16 4096
  have h₂ := Jvm.loaded_idle h₁ 0 7 32 8192
  refine ⟨Jvm.mayLoad_idle h₀ ⟨by decide, by decide⟩ (by simp) (by decide), fun s hs => ?_⟩
  obtain rfl := Except.ok.inj hs
  refine ⟨⟨rfl, rfl⟩, fun s hs => ?_⟩
  obtain rfl := Except.ok.inj hs
  refine ⟨Jvm.mayLoad_idle h₁ ⟨by decide, by decide⟩ ?_ (by decide), fun s hs => ?_⟩
  · intro a ha
    obtain rfl := List.mem_singleton.mp ha
    exact .inr (by decide)
  obtain rfl := Except.ok.inj hs
  refine ⟨⟨rfl, rfl⟩, fun s hs => ?_⟩
  obtain rfl := Except.ok.inj hs
  refine ⟨Jvm.mayLoad_idle h₂ ⟨by decide, by decide⟩ ?_ (by decide), fun s hs => ?_⟩
  · intro a ha
    obtain rfl | ha := List.mem_cons.mp ha
    · exact .inr (by decide)
    · obtain rfl := List.mem_singleton.mp ha
      exact .inr (by decide)
  obtain rfl := Except.ok.inj hs
  exact ⟨⟨rfl, rfl⟩, fun s hs => trivial⟩

/-- One version of two is removed, a second method stays; a method nobody has loaded is left
alone. -/
theorem removeMethod_exact_twoMethods : ∃ s, run cacheStep twoMethods {} = .ok s ∧
    s.cache.RemovesExactly 7 8192 ∧ s.cache.RemovesExactly 9 12288 ∧
    s.cache.RemovesExactly 8 16384 := by
  obtain ⟨s, hrun, hfirst, hsecond, hnone⟩ : ∃ s, run cacheStep twoMethods {} = .ok s ∧
      s.cache.IsRegistered 7 8192 ∧ s.cache.IsRegistered 9 12288 ∧
      s.cache.methodIdMap.lookup 8 = none := ⟨_, rfl, ⟨51, rfl⟩, ⟨52, rfl⟩, rfl⟩
  have hexact := removeMethod_exact_iff twoMethods twoMethods_announced s hrun
  exact ⟨s, hrun, (hexact 7 8192).mpr (.inr hfirst), (hexact 9 12288).mpr (.inr hsecond),
    (hexact 8 16384).mpr (.inl hnone)⟩
def oneLoad : List CacheEvent := [.load 0 7 16 4096, .loaded 0 50]

/-- The unloading of a version from before the agent, with a later one registered, aborts. -/
theorem removeMethod_aborts_oldVersion : ∃ s, run cacheStep oneLoad {} = .ok s ∧
    ¬s.cache.IsRegistered 7 8192 ∧ s.cache.removeMethod 7 8192 = .error .assertion ∧
    ¬s.cache.RemovesExactly 7 8192 := by
  refine ⟨_, rfl, ?_, rfl, ?_⟩
  · rintro ⟨p, hp⟩
    cases hp
  · rintro ⟨c', hr, -⟩
    cases hr

end Trace4J.Profiler
