import Trace4J.Profiler.CodeCache

/-!
# The code cache follows the virtual machine

The virtual machine's view of its compiled code: what is live, what a load callback is
being told of, and how often each method was loaded. Under the guarantees of JVMTI the
code cache keeps both of its indexes in step with it, whatever the interleaving of the
callbacks and of the two halves of an addition.
-/

namespace Trace4J.Profiler
open Library

/-! ## Compiled code in memory -/

namespace CompiledMethod

def Covers (m : CompiledMethod) (addr : ℕ) : Prop :=
  m.startAddr ≤ addr ∧ (addr : ℤ) ≤ m.startAddr + m.codeSize - 1

structure Placed (m : CompiledMethod) : Prop where
  size : 1 ≤ m.codeSize
  fits : m.startAddr + m.codeSize ≤ 2 ^ 64

def Disjoint (a b : CompiledMethod) : Prop :=
  a.startAddr + a.codeSize ≤ b.startAddr ∨ b.startAddr + b.codeSize ≤ a.startAddr

def Distinct (a b : CompiledMethod) : Prop :=
  a.Disjoint b ∧ (a.methodId = b.methodId → a.version ≠ b.version)

theorem Distinct.symm {a b : CompiledMethod} (h : a.Distinct b) : b.Distinct a :=
  ⟨Or.symm h.1, fun hid hv => h.2 hid.symm hv.symm⟩

variable {a b : CompiledMethod}

theorem Placed.lastAddr_eq (h : a.Placed) : (a.lastAddr : ℤ) = a.startAddr + a.codeSize - 1 := by
  have hsize := h.size
  have hfits := h.fits
  unfold lastAddr
  omega

theorem Placed.start_le (h : a.Placed) : a.startAddr ≤ a.lastAddr := by
  have hlast := h.lastAddr_eq
  have hsize := h.size
  omega

theorem Distinct.start_ne (ha : a.Placed) (hb : b.Placed) (h : a.Distinct b) :
    a.startAddr ≠ b.startAddr := by
  have := ha.size
  have := hb.size
  obtain h | h := h.1 <;> omega

theorem Distinct.not_covers (h : a.Distinct b) {addr : ℕ} (hcov : a.Covers addr) :
    ¬b.Covers addr := by
  rintro ⟨hlo, hhi⟩
  obtain ⟨hlo', hhi'⟩ := hcov
  obtain h | h := h.1 <;> omega

end CompiledMethod

/-! ## The virtual machine -/

structure Jvm where
  live : List CompiledMethod := []
  loading : ThreadId → Option CompiledMethod := fun _ => none
  loads : JMethodID → ℕ := fun _ => 0

namespace Jvm

def load (j : Jvm) (t : ThreadId) (methodId : JMethodID) (codeSize : ℤ) (codeAddr : ℕ) : Jvm :=
  { j with
    loading := Function.update j.loading t
      (some ⟨methodId, .ofNat (j.loads methodId + 1), codeSize, codeAddr⟩)
    loads := Function.update j.loads methodId (j.loads methodId + 1) }

def loaded (j : Jvm) (t : ThreadId) : Jvm :=
  match j.loading t with
  | none => j
  | some m => { j with live := m :: j.live, loading := Function.update j.loading t none }

def unload (j : Jvm) (methodId : JMethodID) (codeAddr : ℕ) : Jvm :=
  { j with live := j.live.filter fun m => ¬(m.methodId = methodId ∧ m.startAddr = codeAddr) }

def Known (j : Jvm) (m : CompiledMethod) : Prop := m ∈ j.live ∨ ∃ t, j.loading t = some m

structure Valid (j : Jvm) : Prop where
  placed : ∀ m, j.Known m → m.Placed
  counted : ∀ m, j.Known m → m.version.toNat ≤ j.loads m.methodId
  bounded : ∀ methodId, j.loads methodId < 2 ^ 32
  live : ∀ a ∈ j.live, ∀ b ∈ j.live, a ≠ b → a.Distinct b
  loading : ∀ t a, j.loading t = some a → ∀ b ∈ j.live, a.Distinct b
  loadings : ∀ t u a b, t ≠ u → j.loading t = some a → j.loading u = some b → a.Distinct b

/-- A load is told of code that is apart from all other code, live or being loaded. -/
structure MayLoad (j : Jvm) (t : ThreadId) (methodId : JMethodID) (m : CompiledMethod) :
    Prop where
  idle : j.loading t = none
  placed : m.Placed
  live : ∀ a ∈ j.live, m.Disjoint a
  loading : ∀ u a, j.loading u = some a → m.Disjoint a
  fewer : j.loads methodId + 1 < 2 ^ 32

end Jvm

/-! ## The two together -/

inductive CacheEvent
  | load (t : ThreadId) (methodId : JMethodID) (codeSize : ℤ) (codeAddr : ℕ)
  | loaded (t : ThreadId) (newMethod : Ptr)
  | unload (methodId : JMethodID) (codeAddr : ℕ)

structure CacheSystem where
  jvm : Jvm := {}
  cache : CodeCacheManager := {}
  issued : List (JMethodID × UInt32) := []

def cacheStep : CacheEvent → CacheSystem → Except CacheFault CacheSystem
  | .load t methodId codeSize codeAddr, s =>
    let cache := s.cache.beginAdd t methodId codeSize codeAddr
    .ok { jvm := s.jvm.load t methodId codeSize codeAddr
          cache := cache
          issued := s.issued ++
            ((cache.adding t).map fun m => (m.methodId, m.version)).toList }
  | .loaded t newMethod, s => do
    let cache ← s.cache.endAdd t newMethod
    .ok { s with jvm := s.jvm.loaded t, cache := cache }
  | .unload methodId codeAddr, s => do
    let cache ← s.cache.removeMethod methodId codeAddr
    .ok { s with jvm := s.jvm.unload methodId codeAddr, cache := cache }

/-- What JVMTI promises of the callbacks, and `new` of the object it returns. -/
def Promised : CacheEvent → CacheSystem → Prop
  | .load t methodId codeSize codeAddr, s =>
    s.jvm.MayLoad t methodId ⟨methodId, 0, codeSize, codeAddr⟩
  | .loaded t newMethod, s => (s.jvm.loading t).isSome ∧ s.cache.heap newMethod = none
  | .unload methodId codeAddr, s =>
    ∃ m ∈ s.jvm.live, m.methodId = methodId ∧ m.startAddr = codeAddr

structure Coupled (s : CacheSystem) : Prop where
  valid : s.jvm.Valid
  owned : ∀ m, m ∈ s.jvm.live ↔ ∃ p, s.cache.heap p = some m
  single : ∀ p q m, s.cache.heap p = some m → s.cache.heap q = some m → p = q
  ranges : ∀ e, e ∈ s.cache.methodRangeSet.entries ↔
    ∃ p m, s.cache.heap p = some m ∧ e = (m.startAddr, ⟨m.startAddr, m.lastAddr, p⟩)
  groups : ∀ methodId addr p,
    (s.cache.groupOf methodId).addressMethodMap.lookup addr = some p ↔
      ∃ m, s.cache.heap p = some m ∧ m.methodId = methodId ∧ m.startAddr = addr
  versions : ∀ methodId,
    (s.cache.groupOf methodId).recentVersion.toNat = s.jvm.loads methodId
  adding : s.cache.adding = s.jvm.loading
  issued : s.issued.Nodup
  past : ∀ e ∈ s.issued, e.2.toNat ≤ s.jvm.loads e.1

/-! ## The virtual machine's own steps -/

namespace Jvm
variable {j : Jvm} {t : ThreadId} {methodId : JMethodID} {codeSize : ℤ} {codeAddr : ℕ}

theorem version_toNat (h : j.loads methodId + 1 < 2 ^ 32) :
    (UInt32.ofNat (j.loads methodId + 1)).toNat = j.loads methodId + 1 :=
  UInt32.toNat_ofNat_of_lt' h

theorem Valid.load (h : j.Valid)
    (hload : j.MayLoad t methodId ⟨methodId, 0, codeSize, codeAddr⟩) :
    (j.load t methodId codeSize codeAddr).Valid := by
  have hversion := version_toNat hload.fewer
  set new : CompiledMethod := ⟨methodId, .ofNat (j.loads methodId + 1), codeSize, codeAddr⟩
    with hnew
  have hplaced : new.Placed := ⟨hload.placed.size, hload.placed.fits⟩
  have hloading : ∀ u a, (j.load t methodId codeSize codeAddr).loading u = some a →
      (u = t ∧ a = new) ∨ (u ≠ t ∧ j.loading u = some a) := by
    intro u a hu
    by_cases hut : u = t
    · subst hut
      simp only [Jvm.load, Function.update_self, Option.some.injEq] at hu
      exact .inl ⟨rfl, hu.symm⟩
    · simp only [Jvm.load, Function.update_of_ne hut] at hu
      exact .inr ⟨hut, hu⟩
  have hknown : ∀ m, (j.load t methodId codeSize codeAddr).Known m → m = new ∨ j.Known m := by
    rintro m (hm | ⟨u, hu⟩)
    · exact .inr (.inl hm)
    · obtain ⟨-, rfl⟩ | ⟨-, hu⟩ := hloading u m hu
      · exact .inl rfl
      · exact .inr (.inr ⟨u, hu⟩)
  -- the new version is above all that were handed out for the method
  have hdistinct : ∀ m, j.Known m → new.Disjoint m → new.Distinct m := by
    refine fun m hm hdis => ⟨hdis, fun hid hv => ?_⟩
    have hcount := h.counted m hm
    rw [← hid, ← hv, hversion] at hcount
    exact absurd hcount (Nat.not_succ_le_self _)
  refine ⟨?_, ?_, ?_, h.live, ?_, ?_⟩
  · intro m hm
    obtain rfl | hm := hknown m hm
    · exact hplaced
    · exact h.placed m hm
  · intro m hm
    obtain rfl | hm := hknown m hm
    · simp only [Jvm.load, hnew, Function.update_self]
      exact hversion.le
    · apply (h.counted m hm).trans
      by_cases hid : m.methodId = methodId
      · simp [Jvm.load, hid]
      · simp [Jvm.load, Function.update_of_ne hid]
  · intro id
    by_cases hid : id = methodId
    · subst hid
      simpa [Jvm.load] using hload.fewer
    · simpa [Jvm.load, Function.update_of_ne hid] using h.bounded id
  · intro u a hu b hb
    obtain ⟨-, rfl⟩ | ⟨-, hu⟩ := hloading u a hu
    · exact hdistinct b (.inl hb) (hload.live b hb)
    · exact h.loading u a hu b hb
  · intro u v a b huv hu hv
    obtain ⟨rfl, rfl⟩ | ⟨-, hu'⟩ := hloading u a hu
    · obtain ⟨rfl, -⟩ | ⟨-, hv'⟩ := hloading v b hv
      · exact absurd rfl huv
      · exact hdistinct b (.inr ⟨v, hv'⟩) (hload.loading v b hv')
    · obtain ⟨-, rfl⟩ | ⟨-, hv'⟩ := hloading v b hv
      · exact (hdistinct a (.inr ⟨u, hu'⟩) (hload.loading u a hu')).symm
      · exact h.loadings u v a b huv hu' hv'

theorem loaded_eq {m : CompiledMethod} (hm : j.loading t = some m) :
    j.loaded t = { j with live := m :: j.live, loading := Function.update j.loading t none } := by
  rw [loaded, hm]

theorem Valid.loaded (h : j.Valid) {m : CompiledMethod} (hm : j.loading t = some m) :
    (j.loaded t).Valid := by
  rw [loaded_eq hm]
  have hloading : ∀ u a, Function.update j.loading t none u = some a →
      u ≠ t ∧ j.loading u = some a := by
    intro u a hu
    by_cases hut : u = t
    · subst hut
      simp at hu
    · exact ⟨hut, by simpa [Function.update_of_ne hut] using hu⟩
  have hknown : ∀ a, ({ j with live := m :: j.live
                               loading := Function.update j.loading t none } : Jvm).Known a →
      j.Known a := by
    rintro a (ha | ⟨u, hu⟩)
    · obtain rfl | ha := List.mem_cons.mp ha
      · exact .inr ⟨t, hm⟩
      · exact .inl ha
    · exact .inr ⟨u, (hloading u a hu).2⟩
  refine ⟨fun a ha => h.placed a (hknown a ha), fun a ha => h.counted a (hknown a ha), h.bounded,
    ?_, ?_, ?_⟩
  · intro a ha b hb hab
    obtain rfl | ha' := List.mem_cons.mp ha
    · obtain rfl | hb' := List.mem_cons.mp hb
      · exact absurd rfl hab
      · exact h.loading t a hm b hb'
    · obtain rfl | hb' := List.mem_cons.mp hb
      · exact (h.loading t b hm a ha').symm
      · exact h.live a ha' b hb' hab
  · intro u a hu b hb
    obtain ⟨hut, hu'⟩ := hloading u a hu
    obtain rfl | hb' := List.mem_cons.mp hb
    · exact h.loadings u t a b hut hu' hm
    · exact h.loading u a hu' b hb'
  · intro u v a b huv hu hv
    exact h.loadings u v a b huv (hloading u a hu).2 (hloading v b hv).2

theorem Valid.unload (h : j.Valid) : (j.unload methodId codeAddr).Valid := by
  have hlive : ∀ m ∈ (j.unload methodId codeAddr).live, m ∈ j.live :=
    fun m hm => (List.mem_filter.mp hm).1
  have hknown : ∀ m, (j.unload methodId codeAddr).Known m → j.Known m :=
    fun m hm => hm.imp_left (hlive m)
  exact ⟨fun m hm => h.placed m (hknown m hm), fun m hm => h.counted m (hknown m hm), h.bounded,
    fun a ha b hb => h.live a (hlive a ha) b (hlive b hb),
    fun t a ht b hb => h.loading t a ht b (hlive b hb), h.loadings⟩

theorem Valid.eq_of_start (h : j.Valid) {a b : CompiledMethod} (ha : a ∈ j.live) (hb : b ∈ j.live)
    (hstart : a.startAddr = b.startAddr) : a = b := by
  by_contra hne
  exact (h.live a ha b hb hne).start_ne (h.placed a (.inl ha)) (h.placed b (.inl hb)) hstart

theorem Valid.mem_unload (h : j.Valid) {m : CompiledMethod} (hm : m ∈ j.live)
    (hid : m.methodId = methodId) (haddr : m.startAddr = codeAddr) (a : CompiledMethod) :
    a ∈ (j.unload methodId codeAddr).live ↔ a ∈ j.live ∧ a ≠ m := by
  simp only [Jvm.unload, List.mem_filter, decide_eq_true_eq]
  refine and_congr_right fun ha => not_congr ⟨?_, ?_⟩
  · rintro ⟨-, hstart⟩
    exact h.eq_of_start ha hm (hstart.trans haddr.symm)
  · rintro rfl
    exact ⟨hid, haddr⟩

end Jvm

/-! ## The cache's steps -/

theorem CodeCacheManager.groupOf_insert {s s' : CodeCacheManager} {methodId : JMethodID}
    {g : CompiledMethodGroup} (h : s'.methodIdMap = s.methodIdMap.insert methodId g)
    (id : JMethodID) : s'.groupOf id = if id = methodId then g else s.groupOf id := by
  unfold groupOf
  rw [h]
  split_ifs with hid
  · rw [hid, AList.lookup_insert, Option.getD_some]
  · rw [AList.lookup_insert_ne hid]

section Steps
variable {s : CacheSystem} {t : ThreadId} {methodId : JMethodID} {codeSize : ℤ} {codeAddr : ℕ}
  {newMethod : Ptr} {m : CompiledMethod}

theorem Coupled.live_placed (h : Coupled s) {p : Ptr} (hp : s.cache.heap p = some m) :
    m.Placed := h.valid.placed m (.inl ((h.owned m).mpr ⟨p, hp⟩))

theorem Coupled.version_eq (h : Coupled s) (hfew : s.jvm.loads methodId + 1 < 2 ^ 32) :
    (s.cache.groupOf methodId).recentVersion + 1 = .ofNat (s.jvm.loads methodId + 1) := by
  apply UInt32.toNat_inj.mp
  rw [Jvm.version_toNat hfew, UInt32.toNat_add, h.versions]
  exact Nat.mod_eq_of_lt hfew

theorem Coupled.load (h : Coupled s)
    (hload : s.jvm.MayLoad t methodId ⟨methodId, 0, codeSize, codeAddr⟩) :
    ∃ s', cacheStep (.load t methodId codeSize codeAddr) s = .ok s' ∧ Coupled s' := by
  have hversion := h.version_eq hload.fewer
  refine ⟨_, rfl, h.valid.load hload, h.owned, h.single, h.ranges, ?_, ?_, ?_, ?_, ?_⟩
  · intro id addr p
    rw [CodeCacheManager.groupOf_insert rfl]
    split_ifs with hid
    · rw [hid]
      exact h.groups methodId addr p
    · exact h.groups id addr p
  · intro id
    rw [CodeCacheManager.groupOf_insert rfl]
    split_ifs with hid
    · rw [hid]
      simp only [hversion, Jvm.load, Function.update_self]
      exact Jvm.version_toNat hload.fewer
    · simpa only [Jvm.load, Function.update_of_ne hid] using h.versions id
  · simp only [CodeCacheManager.beginAdd, Jvm.load, hversion, h.adding]
  · -- all that was handed out for the method so far is lower
    simp only [CodeCacheManager.beginAdd, Function.update_self, Option.map_some, Option.toList_some,
      hversion]
    refine List.nodup_append.mpr ⟨h.issued, List.nodup_singleton _, ?_⟩
    rintro e he f hf rfl
    obtain rfl := List.mem_singleton.mp hf
    have hpast := h.past _ he
    simp only [Jvm.version_toNat hload.fewer] at hpast
    exact absurd hpast (Nat.not_succ_le_self _)
  · simp only [CodeCacheManager.beginAdd, Function.update_self, Option.map_some, Option.toList_some,
      hversion, Jvm.load]
    intro e he
    obtain he | he := List.mem_append.mp he
    · apply (h.past e he).trans
      by_cases hid : e.1 = methodId
      · simp [hid]
      · simp [Function.update_of_ne hid]
    · obtain rfl := List.mem_singleton.mp he
      simp only [Jvm.version_toNat hload.fewer, Function.update_self, le_refl]

theorem Coupled.key_free (h : Coupled s) (hm : s.jvm.loading t = some m) :
    ∀ e ∈ s.cache.methodRangeSet.entries, e.1 ≠ m.startAddr := by
  intro e he
  obtain ⟨p, a, hp, rfl⟩ := (h.ranges e).mp he
  have ha : a ∈ s.jvm.live := (h.owned a).mpr ⟨p, hp⟩
  exact (h.valid.loading t m hm a ha).symm.start_ne (h.live_placed hp)
    (h.valid.placed m (.inr ⟨t, hm⟩))

theorem heap_update {heap : Ptr → Option CompiledMethod} (hfree : heap newMethod = none)
    (p : Ptr) (a : CompiledMethod) :
    Function.update heap newMethod (some m) p = some a ↔
      heap p = some a ∨ (p = newMethod ∧ a = m) := by
  by_cases hp : p = newMethod
  · subst hp
    simp [hfree, eq_comm]
  · simp [hp]

theorem cacheStep_loaded (hm : s.cache.adding t = some m) (hle : m.startAddr ≤ m.lastAddr) :
    cacheStep (.loaded t newMethod) s = .ok { s with
      jvm := s.jvm.loaded t
      cache := { s.cache with
        methodRangeSet := s.cache.methodRangeSet.emplace m.startAddr
          ⟨m.startAddr, m.lastAddr, newMethod⟩
        methodIdMap := s.cache.methodIdMap.insert m.methodId
          { s.cache.groupOf m.methodId with
            addressMethodMap :=
              (s.cache.groupOf m.methodId).addressMethodMap.insert m.startAddr newMethod }
        heap := Function.update s.cache.heap newMethod (some m)
        adding := Function.update s.cache.adding t none } } := by
  simp only [cacheStep, CodeCacheManager.endAdd, hm, RangeSet.insert, if_pos hle]
  rfl

theorem Coupled.loaded (h : Coupled s) (hm : s.jvm.loading t = some m)
    (hfree : s.cache.heap newMethod = none) :
    ∃ s', cacheStep (.loaded t newMethod) s = .ok s' ∧ Coupled s' := by
  have hplaced : m.Placed := h.valid.placed m (.inr ⟨t, hm⟩)
  have hadding : s.cache.adding t = some m := by rw [h.adding, hm]
  have hnew : ∀ p, s.cache.heap p ≠ some m := by
    intro p hp
    have hlive : m ∈ s.jvm.live := (h.owned m).mpr ⟨p, hp⟩
    exact (h.valid.loading t m hm m hlive).start_ne hplaced hplaced rfl
  refine ⟨_, cacheStep_loaded hadding hplaced.start_le, h.valid.loaded hm, ?_, ?_, ?_, ?_, ?_, ?_,
    h.issued, ?_⟩
  · intro a
    simp only [Jvm.loaded_eq hm, heap_update hfree, List.mem_cons, h.owned a]
    constructor
    · rintro (rfl | ⟨p, hp⟩)
      · exact ⟨newMethod, .inr ⟨rfl, rfl⟩⟩
      · exact ⟨p, .inl hp⟩
    · rintro ⟨p, hp | ⟨rfl, rfl⟩⟩
      · exact .inr ⟨p, hp⟩
      · exact .inl rfl
  · intro p q a hp hq
    rw [heap_update hfree] at hp hq
    obtain hp | ⟨rfl, rfl⟩ := hp
    · obtain hq | ⟨rfl, rfl⟩ := hq
      · exact h.single p q a hp hq
      · exact absurd hp (hnew p)
    · obtain hq | ⟨rfl, -⟩ := hq
      · exact absurd hq (hnew q)
      · rfl
  · intro e
    rw [OrderedMap.mem_emplace, and_iff_left (h.key_free hm), h.ranges]
    simp only [heap_update hfree]
    constructor
    · rintro (⟨p, a, hp, rfl⟩ | rfl)
      · exact ⟨p, a, .inl hp, rfl⟩
      · exact ⟨newMethod, m, .inr ⟨rfl, rfl⟩, rfl⟩
    · rintro ⟨p, a, hp | ⟨rfl, rfl⟩, rfl⟩
      · exact .inl ⟨p, a, hp, rfl⟩
      · exact .inr rfl
  · intro id addr p
    rw [CodeCacheManager.groupOf_insert rfl]
    simp only [heap_update hfree]
    split_ifs with hid
    · subst hid
      by_cases haddr : addr = m.startAddr
      · subst haddr
        rw [AList.lookup_insert, Option.some.injEq]
        constructor
        · rintro rfl
          exact ⟨m, .inr ⟨rfl, rfl⟩, rfl, rfl⟩
        · rintro ⟨a, hp | ⟨rfl, -⟩, -, hstart⟩
          · have hlive : a ∈ s.jvm.live := (h.owned a).mpr ⟨p, hp⟩
            exact absurd hstart ((h.valid.loading t m hm a hlive).symm.start_ne
              (h.live_placed hp) hplaced)
          · rfl
      · rw [AList.lookup_insert_ne haddr, h.groups]
        constructor
        · rintro ⟨a, hp, ha⟩
          exact ⟨a, .inl hp, ha⟩
        · rintro ⟨a, hp | ⟨-, rfl⟩, ha⟩
          · exact ⟨a, hp, ha⟩
          · exact absurd ha.2.symm haddr
    · rw [h.groups]
      constructor
      · rintro ⟨a, hp, ha⟩
        exact ⟨a, .inl hp, ha⟩
      · rintro ⟨a, hp | ⟨-, rfl⟩, ha⟩
        · exact ⟨a, hp, ha⟩
        · exact absurd ha.1.symm hid
  · intro id
    rw [CodeCacheManager.groupOf_insert rfl, Jvm.loaded_eq hm]
    split_ifs with hid
    · rw [hid]
      exact h.versions m.methodId
    · exact h.versions id
  · rw [Jvm.loaded_eq hm, h.adding]
  · rw [Jvm.loaded_eq hm]
    exact h.past

theorem heap_erase {heap : Ptr → Option CompiledMethod} {p : Ptr}
    (hsingle : ∀ q, heap q = some m → q = p) (hp : heap p = some m) (q : Ptr)
    (a : CompiledMethod) :
    Function.update heap p none q = some a ↔ heap q = some a ∧ a ≠ m := by
  by_cases hq : q = p
  · subst hq
    simp only [Function.update_self, hp, Option.some.injEq, reduceCtorEq, false_iff, not_and,
      not_not]
    exact fun h => h.symm
  · rw [Function.update_of_ne hq]
    refine ⟨fun h => ⟨h, ?_⟩, And.left⟩
    rintro rfl
    exact hq (hsingle q h)

theorem Coupled.unload_eq (h : Coupled s) {p : Ptr} (hp : s.cache.heap p = some m) :
    ∃ g, s.cache.methodIdMap.lookup m.methodId = some g ∧
      cacheStep (.unload m.methodId m.startAddr) s = .ok { s with
        jvm := s.jvm.unload m.methodId m.startAddr
        cache := { s.cache with
          methodRangeSet := s.cache.methodRangeSet.erase m.startAddr
          methodIdMap := s.cache.methodIdMap.insert m.methodId
            { g with addressMethodMap := g.addressMethodMap.erase m.startAddr }
          heap := Function.update s.cache.heap p none } } := by
  have hgroup := (h.groups m.methodId m.startAddr p).mpr ⟨m, hp, rfl, rfl⟩
  have hplaced := h.live_placed hp
  have hfloor : s.cache.methodRangeSet.floorEntry m.startAddr =
      some (m.startAddr, ⟨m.startAddr, m.lastAddr, p⟩) :=
    OrderedMap.floorEntry_eq_some.mpr
      ⟨(h.ranges _).mpr ⟨p, m, hp, rfl⟩, le_rfl, fun _ _ hle => hle⟩
  have hremove : RangeSet.remove s.cache.methodRangeSet m.startAddr =
      some (s.cache.methodRangeSet.erase m.startAddr) := by
    simp only [RangeSet.remove, RangeSet.getRange, hfloor, if_neg (not_lt.mpr hplaced.start_le),
      if_true]
  cases hlookup : s.cache.methodIdMap.lookup m.methodId with
  | none =>
    rw [CodeCacheManager.groupOf, hlookup] at hgroup
    cases hgroup
  | some g =>
    rw [CodeCacheManager.groupOf, hlookup, Option.getD_some] at hgroup
    refine ⟨g, rfl, ?_⟩
    simp only [cacheStep, CodeCacheManager.removeMethod, hlookup, hremove,
      CodeCacheManager.removeMethodByAddr, hgroup]
    rfl

theorem Coupled.unload (h : Coupled s) (hm : m ∈ s.jvm.live) :
    ∃ s', cacheStep (.unload m.methodId m.startAddr) s = .ok s' ∧ Coupled s' := by
  obtain ⟨p, hp⟩ := (h.owned m).mp hm
  obtain ⟨g, hlookup, hstep⟩ := h.unload_eq hp
  have hg : s.cache.groupOf m.methodId = g := by
    rw [CodeCacheManager.groupOf, hlookup, Option.getD_some]
  have hheap := heap_erase (fun q hq => h.single q p m hq hp) hp
  have hmem := h.valid.mem_unload hm rfl rfl
  -- a method at the same address is the one that goes
  have hother : ∀ q a, s.cache.heap q = some a → (a ≠ m ↔ a.startAddr ≠ m.startAddr) := by
    intro q a hq
    have ha : a ∈ s.jvm.live := (h.owned a).mpr ⟨q, hq⟩
    refine not_congr ⟨?_, h.valid.eq_of_start ha hm⟩
    rintro rfl
    rfl
  refine ⟨_, hstep, h.valid.unload, ?_, ?_, ?_, ?_, ?_, h.adding, h.issued, h.past⟩
  · intro a
    simp only [hmem a, hheap, h.owned a, exists_and_right]
  · intro q r a hq hr
    rw [hheap] at hq hr
    exact h.single q r a hq.1 hr.1
  · intro e
    rw [OrderedMap.mem_erase, h.ranges]
    simp only [hheap]
    constructor
    · rintro ⟨⟨q, a, hq, rfl⟩, hne⟩
      exact ⟨q, a, ⟨hq, (hother q a hq).mpr hne⟩, rfl⟩
    · rintro ⟨q, a, ⟨hq, hne⟩, rfl⟩
      exact ⟨⟨q, a, hq, rfl⟩, (hother q a hq).mp hne⟩
  · intro id addr q
    rw [CodeCacheManager.groupOf_insert rfl]
    simp only [hheap]
    split_ifs with hid
    · subst hid
      by_cases haddr : addr = m.startAddr
      · subst haddr
        rw [AList.lookup_erase]
        simp only [reduceCtorEq, false_iff]
        rintro ⟨a, ⟨hq, hne⟩, -, hstart⟩
        exact (hother q a hq).mp hne hstart
      · rw [AList.lookup_erase_ne haddr, ← hg, h.groups]
        constructor
        · rintro ⟨a, hq, ha⟩
          exact ⟨a, ⟨hq, (hother q a hq).mpr (ha.2 ▸ haddr)⟩, ha⟩
        · rintro ⟨a, ⟨hq, -⟩, ha⟩
          exact ⟨a, hq, ha⟩
    · rw [h.groups]
      constructor
      · rintro ⟨a, hq, ha⟩
        refine ⟨a, ⟨hq, ?_⟩, ha⟩
        rintro rfl
        exact hid ha.1.symm
      · rintro ⟨a, ⟨hq, -⟩, ha⟩
        exact ⟨a, hq, ha⟩
  · intro id
    rw [CodeCacheManager.groupOf_insert rfl]
    split_ifs with hid
    · rw [hid, ← hg]
      exact h.versions m.methodId
    · exact h.versions id

theorem Coupled.step (h : Coupled s) {ev : CacheEvent} (hev : Promised ev s) :
    ∃ s', cacheStep ev s = .ok s' ∧ Coupled s' := by
  cases ev with
  | load t methodId codeSize codeAddr => exact h.load hev
  | loaded t newMethod =>
    obtain ⟨hloading, hfree⟩ := hev
    obtain ⟨m, hm⟩ := Option.isSome_iff_exists.mp hloading
    exact h.loaded hm hfree
  | unload methodId codeAddr =>
    obtain ⟨m, hm, rfl, rfl⟩ := hev
    exact h.unload hm

end Steps

theorem coupled_init : Coupled {} := by
  refine ⟨⟨?_, ?_, ?_, ?_, ?_, ?_⟩, ?_, ?_, ?_, ?_, ?_, rfl, List.nodup_nil, ?_⟩
  all_goals simp [Jvm.Known, OrderedMap.empty, CodeCacheManager.groupOf]

/-! ## Lookups -/

/-- What the two indexes hold and what the lookups answer, by what is live. -/
structure Answers (hashOrder : (AList fun _ : ℕ => Ptr) → List Ptr) (s : CacheSystem) :
    Prop where
  indexes : ∀ p, (∃ e ∈ s.cache.methodRangeSet.entries, e.2.data = p) ↔
    ∃ methodId addr, (s.cache.groupOf methodId).addressMethodMap.lookup addr = some p
  live : ∀ m, m ∈ s.jvm.live ↔ ∃ p, s.cache.heap p = some m ∧
    (m.startAddr, ⟨m.startAddr, m.lastAddr, p⟩) ∈ s.cache.methodRangeSet.entries ∧
    (s.cache.groupOf m.methodId).addressMethodMap.lookup m.startAddr = some p
  unique : ∀ addr, ∀ a ∈ s.jvm.live, ∀ b ∈ s.jvm.live, a.Covers addr → b.Covers addr → a = b
  found : ∀ addr, ∀ m ∈ s.jvm.live, m.Covers addr → ∃ p, s.cache.heap p = some m ∧
    s.cache.getMethod addr = some p ∧
    s.cache.getMethodAt addr = .ok (some (p, m.methodId, m.version))
  missed : ∀ addr, (∀ m ∈ s.jvm.live, ¬m.Covers addr) →
    s.cache.getMethod addr = none ∧ s.cache.getMethodAt addr = .ok none
  latest : ∀ methodId, (∃ m ∈ s.jvm.live, m.methodId = methodId) →
    ∃ p m, s.cache.getMethodOf hashOrder methodId = .ok (some p) ∧ s.cache.heap p = some m ∧
      m ∈ s.jvm.live ∧ m.methodId = methodId ∧
      ∀ a ∈ s.jvm.live, a.methodId = methodId → a ≠ m → a.version < m.version
  absent : ∀ methodId, (∀ m ∈ s.jvm.live, m.methodId ≠ methodId) →
    s.cache.getMethodOf hashOrder methodId = .ok none
  fresh : s.issued.Nodup

section Lookups
variable {s : CacheSystem} {addr : ℕ}

theorem Coupled.getData_eq (h : Coupled s) {m : CompiledMethod} {p : Ptr}
    (hp : s.cache.heap p = some m) (hcov : m.Covers addr) :
    RangeSet.getData s.cache.methodRangeSet addr = some p := by
  have hlive : m ∈ s.jvm.live := (h.owned m).mpr ⟨p, hp⟩
  have hlast := (h.live_placed hp).lastAddr_eq
  have hfloor : s.cache.methodRangeSet.floorEntry addr =
      some (m.startAddr, ⟨m.startAddr, m.lastAddr, p⟩) := by
    refine OrderedMap.floorEntry_eq_some.mpr ⟨(h.ranges _).mpr ⟨p, m, hp, rfl⟩, hcov.1, ?_⟩
    intro e he hle
    obtain ⟨q, a, hq, rfl⟩ := (h.ranges e).mp he
    have ha : a ∈ s.jvm.live := (h.owned a).mpr ⟨q, hq⟩
    have hsize := (h.live_placed hq).size
    by_cases ham : a = m
    · rw [ham]
    · -- a range that starts later would reach over the address
      have hhi := hcov.2
      simp only at hle ⊢
      obtain hdis | hdis := (h.valid.live a ha m hlive ham).1 <;> omega
  have hnot : ¬m.lastAddr < addr := by
    have hhi := hcov.2
    omega
  simp only [RangeSet.getData, RangeSet.getRange, hfloor, if_neg hnot, Option.map_some]

theorem Coupled.getData_eq_none (h : Coupled s) (hmiss : ∀ m ∈ s.jvm.live, ¬m.Covers addr) :
    RangeSet.getData s.cache.methodRangeSet addr = none := by
  cases hfloor : s.cache.methodRangeSet.floorEntry addr with
  | none => simp only [RangeSet.getData, RangeSet.getRange, hfloor, Option.map_none]
  | some e =>
    obtain ⟨he, hle, -⟩ := OrderedMap.floorEntry_eq_some.mp hfloor
    obtain ⟨p, m, hp, rfl⟩ := (h.ranges e).mp he
    have hlast := (h.live_placed hp).lastAddr_eq
    have hlt : m.lastAddr < addr := by
      by_contra hge
      refine hmiss m ((h.owned m).mpr ⟨p, hp⟩) ⟨hle, ?_⟩
      omega
    simp only [RangeSet.getData, RangeSet.getRange, hfloor, if_pos hlt, Option.map_none]

theorem deref_eq {c : CodeCacheManager} {p : Ptr} {m : CompiledMethod} (h : c.heap p = some m) :
    c.deref p = .ok m := by
  rw [CodeCacheManager.deref, h]

theorem mostRecent_spec (c : CodeCacheManager) (ps : List Ptr)
    (hps : ∀ p ∈ ps, ∃ m, c.heap p = some m) (q : Ptr) (best : CompiledMethod)
    (hq : c.heap q = some best) :
    ∃ p m, c.mostRecent (some (q, best)) ps = .ok (some (p, m)) ∧ c.heap p = some m ∧
      p ∈ q :: ps ∧ ∀ r ∈ q :: ps, ∀ a, c.heap r = some a → a.version ≤ m.version := by
  induction ps generalizing q best with
  | nil =>
    refine ⟨q, best, rfl, hq, List.mem_singleton_self q, ?_⟩
    intro r hr a ha
    obtain rfl := List.mem_singleton.mp hr
    rw [hq, Option.some.injEq] at ha
    rw [ha]
    exact UInt32.le_refl _
  | cons p ps ih =>
    obtain ⟨m, hm⟩ := hps p List.mem_cons_self
    have hps' : ∀ p ∈ ps, ∃ m, c.heap p = some m := fun r hr => hps r (List.mem_cons_of_mem _ hr)
    have hstep : c.mostRecent (some (q, best)) (p :: ps) =
        c.mostRecent (if best.version < m.version then some (p, m) else some (q, best)) ps := by
      rw [CodeCacheManager.mostRecent, deref_eq hm]
      rfl
    rw [hstep]
    by_cases hlt : best.version < m.version
    · rw [if_pos hlt]
      obtain ⟨r, a, hret, ha, hr, hmax⟩ := ih hps' p m hm
      refine ⟨r, a, hret, ha, List.mem_cons_of_mem _ hr, ?_⟩
      intro x hx b hb
      obtain rfl | hx := List.mem_cons.mp hx
      · rw [hq, Option.some.injEq] at hb
        subst hb
        exact UInt32.le_trans (UInt32.le_of_lt hlt) (hmax p List.mem_cons_self m hm)
      · exact hmax x hx b hb
    · rw [if_neg hlt]
      obtain ⟨r, a, hret, ha, hr, hmax⟩ := ih hps' q best hq
      refine ⟨r, a, hret, ha, ?_, ?_⟩
      · obtain rfl | hr := List.mem_cons.mp hr
        · exact List.mem_cons_self
        · exact List.mem_cons_of_mem _ (List.mem_cons_of_mem _ hr)
      · intro x hx b hb
        obtain rfl | hx := List.mem_cons.mp hx
        · exact hmax x List.mem_cons_self b hb
        · obtain rfl | hx := List.mem_cons.mp hx
          · rw [hm, Option.some.injEq] at hb
            subst hb
            exact UInt32.le_trans (UInt32.not_lt.mp hlt) (hmax q List.mem_cons_self best hq)
          · exact hmax x (List.mem_cons_of_mem _ hx) b hb

variable {hashOrder : (AList fun _ : ℕ => Ptr) → List Ptr}
  (horder : ∀ map, (hashOrder map).Perm (map.entries.map Sigma.snd))
include horder

theorem mem_hashOrder (map : AList fun _ : ℕ => Ptr) (p : Ptr) :
    p ∈ hashOrder map ↔ ∃ addr, map.lookup addr = some p := by
  rw [(horder map).mem_iff, List.mem_map]
  constructor
  · rintro ⟨⟨addr, q⟩, hq, rfl⟩
    exact ⟨addr, AList.mem_lookup_iff.mpr hq⟩
  · rintro ⟨addr, h⟩
    exact ⟨⟨addr, p⟩, AList.mem_lookup_iff.mp h, rfl⟩

theorem Coupled.mem_group (h : Coupled s) (methodId : JMethodID) (p : Ptr) :
    p ∈ hashOrder (s.cache.groupOf methodId).addressMethodMap ↔
      ∃ m, s.cache.heap p = some m ∧ m.methodId = methodId := by
  rw [mem_hashOrder horder]
  constructor
  · rintro ⟨addr, haddr⟩
    obtain ⟨m, hp, hid, -⟩ := (h.groups methodId addr p).mp haddr
    exact ⟨m, hp, hid⟩
  · rintro ⟨m, hp, hid⟩
    exact ⟨m.startAddr, (h.groups methodId m.startAddr p).mpr ⟨m, hp, hid, rfl⟩⟩

theorem getMethodOf_eq (c : CodeCacheManager) (methodId : JMethodID) :
    c.getMethodOf hashOrder methodId =
      c.getMethodByVersion (hashOrder (c.groupOf methodId).addressMethodMap) 0 := by
  cases hlookup : c.methodIdMap.lookup methodId with
  | some g =>
    simp only [CodeCacheManager.getMethodOf, CodeCacheManager.groupOf, hlookup, Option.getD_some]
  | none =>
    have hempty : hashOrder ∅ = [] := (horder ∅).eq_nil
    simp only [CodeCacheManager.getMethodOf, CodeCacheManager.groupOf, hlookup, Option.getD_none,
      hempty]
    rfl

theorem Coupled.latest (h : Coupled s) {methodId : JMethodID}
    (hlive : ∃ m ∈ s.jvm.live, m.methodId = methodId) :
    ∃ p m, s.cache.getMethodOf hashOrder methodId = .ok (some p) ∧ s.cache.heap p = some m ∧
      m ∈ s.jvm.live ∧ m.methodId = methodId ∧
      ∀ a ∈ s.jvm.live, a.methodId = methodId → a ≠ m → a.version < m.version := by
  have hgroup := h.mem_group horder methodId
  obtain ⟨m, hm, hid⟩ := hlive
  obtain ⟨p, hp⟩ := (h.owned m).mp hm
  rw [getMethodOf_eq horder]
  set ps := hashOrder (s.cache.groupOf methodId).addressMethodMap
  have hmem : p ∈ ps := (hgroup p).mpr ⟨m, hp, hid⟩
  obtain ⟨q, qs, hqs⟩ : ∃ q qs, ps = q :: qs := List.exists_cons_of_ne_nil (List.ne_nil_of_mem hmem)
  have hps : ∀ r ∈ ps, ∃ a, s.cache.heap r = some a := by
    intro r hr
    obtain ⟨a, ha, -⟩ := (hgroup r).mp hr
    exact ⟨a, ha⟩
  obtain ⟨best, hbest⟩ := hps q (by simp [hqs])
  obtain ⟨r, a, hret, ha, hr, hmax⟩ := mostRecent_spec s.cache qs
    (fun r hr => hps r (by simp [hqs, hr])) q best hbest
  rw [← hqs] at hr hmax
  obtain ⟨a', ha', haid⟩ := (hgroup r).mp hr
  rw [ha, Option.some.injEq] at ha'
  subst ha'
  have halive : a ∈ s.jvm.live := (h.owned a).mpr ⟨r, ha⟩
  refine ⟨r, a, ?_, ha, halive, haid, ?_⟩
  · rw [hqs, CodeCacheManager.getMethodByVersion, if_pos rfl, CodeCacheManager.mostRecent,
      deref_eq hbest]
    simp only [bind, Except.bind, hret, Option.map_some]
  · intro b hb hbid hne
    obtain ⟨x, hx⟩ := (h.owned b).mp hb
    have hle := hmax x ((hgroup x).mpr ⟨b, hx, hbid⟩) b hx
    exact UInt32.lt_of_le_of_ne hle ((h.valid.live b hb a halive hne).2 (hbid.trans haid.symm))

theorem Coupled.absent (h : Coupled s) {methodId : JMethodID}
    (hnone : ∀ m ∈ s.jvm.live, m.methodId ≠ methodId) :
    s.cache.getMethodOf hashOrder methodId = .ok none := by
  have hempty : hashOrder (s.cache.groupOf methodId).addressMethodMap = [] := by
    rw [List.eq_nil_iff_forall_not_mem]
    intro p hp
    obtain ⟨m, hm, hid⟩ := (h.mem_group horder methodId p).mp hp
    exact hnone m ((h.owned m).mpr ⟨p, hm⟩) hid
  rw [getMethodOf_eq horder, hempty]
  rfl

theorem Coupled.answers (h : Coupled s) : Answers hashOrder s := by
  refine ⟨?_, ?_, ?_, ?_, ?_, fun id => h.latest horder, fun id => h.absent horder, h.issued⟩
  · intro p
    constructor
    · rintro ⟨e, he, rfl⟩
      obtain ⟨q, m, hq, rfl⟩ := (h.ranges e).mp he
      exact ⟨m.methodId, m.startAddr, (h.groups _ _ q).mpr ⟨m, hq, rfl, rfl⟩⟩
    · rintro ⟨methodId, addr, hlookup⟩
      obtain ⟨m, hm, -, -⟩ := (h.groups methodId addr p).mp hlookup
      exact ⟨_, (h.ranges _).mpr ⟨p, m, hm, rfl⟩, rfl⟩
  · intro m
    rw [h.owned]
    constructor
    · rintro ⟨p, hp⟩
      exact ⟨p, hp, (h.ranges _).mpr ⟨p, m, hp, rfl⟩, (h.groups _ _ p).mpr ⟨m, hp, rfl, rfl⟩⟩
    · rintro ⟨p, hp, -⟩
      exact ⟨p, hp⟩
  · intro addr a ha b hb hca hcb
    by_contra hne
    exact (h.valid.live a ha b hb hne).not_covers hca hcb
  · intro addr m hm hcov
    obtain ⟨p, hp⟩ := (h.owned m).mp hm
    have hdata := h.getData_eq hp hcov
    refine ⟨p, hp, hdata, ?_⟩
    simp only [CodeCacheManager.getMethodAt, hdata, deref_eq hp]
    rfl
  · intro addr hmiss
    have hdata := h.getData_eq_none hmiss
    refine ⟨hdata, ?_⟩
    simp only [CodeCacheManager.getMethodAt, hdata]

theorem codeCache_follows (evs : List CacheEvent) (hevs : Meets cacheStep Promised evs {}) :
    ∃ s, run cacheStep evs {} = .ok s ∧ Answers hashOrder s := by
  have hkeep : ∀ ev s, Coupled s → Promised ev s →
      Ensures (fun _ => True) (cacheStep ev s) Coupled := by
    intro ev s h hev
    obtain ⟨s', hstep, h'⟩ := h.step hev
    rw [hstep]
    exact .pure h'
  have hrun := run_ensures hkeep coupled_init hevs
  cases hs : run cacheStep evs {} with
  | error e => exact absurd trivial (hrun.error e hs)
  | ok s => exact ⟨s, rfl, (hrun.ok s hs).answers horder⟩

end Lookups

def twoLoads : List CacheEvent :=
  [.load 0 7 16 4096, .load 1 7 32 8192, .loaded 1 50, .loaded 0 51, .unload 7 8192]

theorem codeCache_twoLoads : ∃ s, run cacheStep twoLoads {} = .ok s ∧
    Answers (fun map => map.entries.map Sigma.snd) s := by
  apply codeCache_follows fun map => List.Perm.refl _
  refine ⟨⟨rfl, ⟨by decide, by decide⟩, by simp, by simp, by decide⟩, fun s hs => ?_⟩
  obtain rfl := Except.ok.inj hs
  refine ⟨⟨rfl, ⟨by decide, by decide⟩, by simp [Jvm.load], ?_, by decide⟩, fun s hs => ?_⟩
  · intro u a hu
    by_cases h : u = 0
    · subst h
      obtain rfl := Option.some.inj hu
      exact .inr (by decide)
    · simp [Jvm.load, Function.update_of_ne h] at hu
  obtain rfl := Except.ok.inj hs
  refine ⟨⟨rfl, rfl⟩, fun s hs => ?_⟩
  obtain rfl := Except.ok.inj hs
  refine ⟨⟨rfl, rfl⟩, fun s hs => ?_⟩
  obtain rfl := Except.ok.inj hs
  exact ⟨⟨⟨7, 2, 32, 8192⟩, by decide, rfl, rfl⟩, fun s hs => trivial⟩

end Trace4J.Profiler
