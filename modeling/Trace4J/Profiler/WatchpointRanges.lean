import Trace4J.Profiler.WatchpointSlots

/-!
# The ranges of the watchpoints

The breakpoints that are on never share a byte, as long as the library is used as the profiler
uses it.
-/

namespace Trace4J.Profiler.WatchpointSlots
open Library

/-- The range is in the address space, and that of an execution breakpoint has its length. -/
def Fits (sd : SampleData) : Prop :=
  sd.va.toNat + sd.watchLen < 2 ^ 64 ∧ (sd.watchType = .exec → sd.watchLen = 8)

/-- The ranges of the active slots, and of slot `keep`, are disjoint. -/
structure Apart (keep : Option ℕ) (t : ThreadData) : Prop where
  fits : ∀ (i : ℕ) (a : RegisterInfo), t.watchPointArray[i]? = some a →
    a.isActive = true ∨ keep = some i → Fits a.sd
  apart : ∀ (i j : ℕ) (a b : RegisterInfo), i ≠ j → t.watchPointArray[i]? = some a →
    t.watchPointArray[j]? = some b → a.isActive = true ∨ keep = some i →
    b.isActive = true ∨ keep = some j →
    addressesOverlap a.sd.va a.sd.watchLen b.sd.va b.sd.watchLen = false
  stack : t.wpStack = []

/-- Nothing is armed: every slot that is active was so before, on the same range. -/
structure Weaker (t t' : ThreadData) : Prop where
  slots : ∀ (i : ℕ) (b : RegisterInfo), t'.watchPointArray[i]? = some b →
    ∃ a, t.watchPointArray[i]? = some a ∧ b.sd = a.sd ∧ (b.isActive = true → a.isActive = true)
  stack : t'.wpStack = t.wpStack

/-- What subscribes as the profiler does: not as the variance client, and in the address space. -/
def Call.Plain : Call → Prop
  | .subscribe sampleData isVarianceClient _ _ => isVarianceClient = false ∧ Fits sampleData
  | .disableAll => True

def Event.Plain : Event → Prop
  | .call c => c.Plain
  | .trap _ calls reaction _ =>
    (∀ c ∈ calls, c.Plain) ∧ (reaction = .retain → ∀ c ∈ calls, ¬c.Subscribes)

section Apart
variable {cfg : Config} {alloc : Events → Fd} {keep : Option ℕ} {t t' t'' : ThreadData} {i : ℕ}
  {wpi : RegisterInfo} {slots : List RegisterInfo}

theorem addressesOverlap_symm (addr₁ : Addr) (len₁ : ℕ) (addr₂ : Addr) (len₂ : ℕ) :
    addressesOverlap addr₁ len₁ addr₂ len₂ = addressesOverlap addr₂ len₂ addr₁ len₁ :=
  Bool.and_comm _ _

theorem Weaker.refl : Weaker t t := ⟨fun _ b hb => ⟨b, hb, rfl, id⟩, rfl⟩

theorem Weaker.trans (h : Weaker t t') (h' : Weaker t' t'') : Weaker t t'' := by
  refine ⟨fun i c hc => ?_, h'.stack.trans h.stack⟩
  obtain ⟨b, hb, hsd, hactive⟩ := h'.slots i c hc
  obtain ⟨a, ha, hsd', hactive'⟩ := h.slots i b hb
  exact ⟨a, ha, hsd.trans hsd', fun hc => hactive' (hactive hc)⟩

theorem Apart.weaken (h : Apart keep t) (hw : Weaker t t') : Apart keep t' := by
  refine ⟨fun i b hb hlive => ?_, fun i j b b' hij hb hb' hlive hlive' => ?_,
    hw.stack.trans h.stack⟩
  · obtain ⟨a, ha, hsd, hactive⟩ := hw.slots i b hb
    rw [hsd]
    exact h.fits i a ha (hlive.imp_left hactive)
  · obtain ⟨a, ha, hsd, hactive⟩ := hw.slots i b hb
    obtain ⟨a', ha', hsd', hactive'⟩ := hw.slots j b' hb'
    rw [hsd, hsd']
    exact h.apart i j a a' hij ha ha' (hlive.imp_left hactive) (hlive'.imp_left hactive')

theorem Weaker.same (hsame : SameSlots t.watchPointArray slots) :
    Weaker t { t with watchPointArray := slots } := by
  refine ⟨fun i b hb => ?_, rfl⟩
  obtain ⟨a, ha, hcore⟩ := hsame.of_getElem? hb
  obtain ⟨-, hactive, hsd, -⟩ := core_fields hcore
  exact ⟨a, ha, hsd.symm, fun hb => hactive.trans hb⟩

theorem slot_ok (h : t.slot i = .ok wpi) : t.watchPointArray[i]? = some wpi := by
  unfold ThreadData.slot at h
  split at h
  · cases h
  · cases h
    assumption

theorem Weaker.put {wpi' : RegisterInfo} {events : Events}
    (hw : t.watchPointArray[i]? = some wpi) (hsd : wpi'.sd = wpi.sd)
    (hidle : wpi'.isActive = true → wpi.isActive = true) : Weaker t (t.put i wpi' events) := by
  refine ⟨fun j b hb => ?_, rfl⟩
  rw [getElem?_put hw] at hb
  split_ifs at hb with hij
  · cases hb
    subst hij
    exact ⟨wpi, hw, hsd, hidle⟩
  · exact ⟨b, hb, rfl, id⟩

theorem disableWatchpoint_weaker (h : disableWatchpoint i t = .ok t') : Weaker t t' := by
  obtain ⟨wpi, hw, h⟩ := bind_eq_ok.mp h
  obtain ⟨-, h⟩ := ok_of_ite_error h
  obtain ⟨events, -, h⟩ := bind_eq_ok.mp h
  cases h
  exact .put (slot_ok hw) rfl nofun

theorem disArm_weaker (h : disArm i t = .ok t') : Weaker t t' := by
  obtain ⟨wpi, hw, h⟩ := bind_eq_ok.mp h
  split at h
  · cases h
  · obtain ⟨events, -, h⟩ := bind_eq_ok.mp h
    cases h
    exact .put (slot_ok hw) rfl nofun

theorem wrapper_weaker (h : disableWatchpointWrapper cfg i t = .ok t') : Weaker t t' := by
  obtain ⟨wpi, hw, h⟩ := bind_eq_ok.mp h
  split_ifs at h
  · exact disableWatchpoint_weaker h
  · exact disArm_weaker h
  · cases h
    exact .refl

theorem resetProbability_weaker (h : resetProbability i t = .ok t') : Weaker t t' := by
  obtain ⟨wpi, hw, h⟩ := bind_eq_ok.mp h
  cases h
  exact .same (sameSlots_set (slot_ok hw) _)

theorem disableSlots_weaker {onlyActive : Bool} {is : List ℕ}
    (h : disableSlots cfg onlyActive is t = .ok t') : Weaker t t' := by
  refine foldlM_keeps (P := Weaker t) (fun i _ s s' hs h => ?_) .refl h
  obtain ⟨s₁, h₁, h₂⟩ := bind_eq_ok.mp h
  have hfirst : Weaker s s₁ := by
    obtain ⟨wpi, -, h₁⟩ := bind_eq_ok.mp h₁
    split_ifs at h₁
    · cases h₁
      exact .refl
    · exact wrapper_weaker h₁
  exact (hs.trans hfirst).trans (resetProbability_weaker h₂)

theorem Apart.put {wpi' : RegisterInfo} {events : Events} {sd : SampleData} (h : Apart none t)
    (hw : t.watchPointArray[i]? = some wpi) (hsd : wpi'.sd = sd) (hfits : Fits sd)
    (hfree : ∀ (j : ℕ) (b : RegisterInfo), t.watchPointArray[j]? = some b → b.isActive = true →
      addressesOverlap b.sd.va b.sd.watchLen sd.va sd.watchLen = false) :
    Apart none (t.put i wpi' events) := by
  refine ⟨fun j b hb hlive => ?_, fun j k b c hjk hb hc hlive hlive' => ?_, h.stack⟩
  · rw [getElem?_put hw] at hb
    split_ifs at hb with hij
    · cases hb
      rw [hsd]
      exact hfits
    · exact h.fits j b hb hlive
  · rw [getElem?_put hw] at hb hc
    have hactive := hlive.resolve_right nofun
    have hactive' := hlive'.resolve_right nofun
    split_ifs at hb hc with hij hik hik
    · exact absurd (hij.symm.trans hik) hjk
    · cases hb
      rw [hsd, addressesOverlap_symm]
      exact hfree k c hc hactive'
    · cases hc
      rw [hsd]
      exact hfree j b hb hactive
    · exact h.apart j k b c hjk hb hc hlive hlive'

theorem createWatchPoint_apart {sd : SampleData} {modify : Bool} {a : Arming}
    (h : createWatchPoint cfg alloc i sd modify a t = .ok t') (hapart : Apart none t)
    (hfits : Fits sd)
    (hfree : ∀ (j : ℕ) (b : RegisterInfo), t.watchPointArray[j]? = some b → b.isActive = true →
      addressesOverlap b.sd.va b.sd.watchLen sd.va sd.watchLen = false) : Apart none t' := by
  obtain ⟨wpi, hw, h⟩ := bind_eq_ok.mp h
  obtain ⟨-, h⟩ := ok_of_ite_error h
  split_ifs at h with hmodify hnone hopened howned
  · obtain ⟨events, -, h⟩ := bind_eq_ok.mp h
    cases h
    exact hapart.put (slot_ok hw) rfl hfits hfree
  · cases h
    exact ⟨hapart.fits, hapart.apart, hapart.stack⟩
  · cases h
    exact hapart.put (slot_ok hw) rfl hfits hfree

theorem armWatchPoint_apart {sd : SampleData} {a : Arming}
    (h : armWatchPoint cfg alloc i sd a t = .ok t') (hapart : Apart none t) (hfits : Fits sd)
    (hfree : ∀ (j : ℕ) (b : RegisterInfo), t.watchPointArray[j]? = some b → b.isActive = true →
      addressesOverlap b.sd.va b.sd.watchLen sd.va sd.watchLen = false) : Apart none t' := by
  obtain ⟨wpi, hw, h⟩ := bind_eq_ok.mp h
  split_ifs at h
  · exact createWatchPoint_apart h hapart hfits hfree
  · obtain ⟨t₁, h₁, h⟩ := bind_eq_ok.mp h
    have hweak := disArm_weaker h₁
    refine createWatchPoint_apart h (hapart.weaken hweak) hfits fun j b hb hactive => ?_
    obtain ⟨b', hb', hsd, hactive'⟩ := hweak.slots j b hb
    rw [hsd]
    exact hfree j b' hb' (hactive' hactive)
  · exact createWatchPoint_apart h hapart hfits hfree

theorem subscribe_apart {sd : SampleData} {chance : Chance} {a : Arming} {out : Bool × ThreadData}
    (h : subscribe cfg alloc sd false chance a t = .ok out) (hapart : Apart none t)
    (hfits : Fits sd) : Apart none out.2 := by
  rw [subscribe] at h
  split_ifs at h with hcheck
  · cases h
    exact hapart
  have hsame := getVictim_same cfg.replacementPolicy chance t.watchPointArray
  have hfree : ∀ (j : ℕ) (b : RegisterInfo),
      (getVictim cfg.replacementPolicy chance t.watchPointArray).2.2[j]? = some b →
      b.isActive = true → addressesOverlap b.sd.va b.sd.watchLen sd.va sd.watchLen = false := by
    intro j b hb hactive
    obtain ⟨b', hb', hcore⟩ := hsame.of_getElem? hb
    obtain ⟨-, hactive', hsd, -⟩ := core_fields hcore
    rw [← hsd]
    refine Bool.eq_false_iff.mpr fun hover => hcheck (.inr (List.any_eq_true.mpr ?_))
    exact ⟨b', List.mem_of_getElem? hb', by simp [hactive'.trans hactive, hover]⟩
  have hbumped := hapart.weaken (.same hsame)
  split at h
  · rename_i slots hvictim
    rw [hvictim] at hbumped
    cases h
    exact hbumped
  · cases h
  · rename_i r victimLocation slots _ hvictim
    rw [hvictim] at hbumped hfree
    obtain ⟨t₁, h₁, h⟩ := bind_eq_ok.mp h
    cases h₁
    obtain ⟨t₂, h₂, h⟩ := bind_eq_ok.mp h
    cases h
    exact armWatchPoint_apart h₂ hbumped hfits hfree

theorem callStep_apart {c : Call} (h : callStep cfg alloc c t = .ok t') (hapart : Apart keep t)
    (hplain : c.Plain) (hkeep : keep ≠ none → ¬c.Subscribes) : Apart keep t' := by
  cases c with
  | disableAll => exact hapart.weaken (disableSlots_weaker h)
  | subscribe sd isVarianceClient chance a =>
    obtain ⟨rfl, hfits⟩ := hplain
    obtain rfl : keep = none := not_not.mp fun hne => hkeep hne trivial
    obtain ⟨out, hout, rfl⟩ := map_eq_ok.mp h
    exact subscribe_apart hout hapart hfits

theorem rearm_apart {a : Arming} (h : rearm cfg alloc i a t = .ok t') (hapart : Apart keep t) :
    Apart keep t' := by
  rw [rearm, hapart.stack] at h
  cases h
  exact hapart

theorem Apart.release (h : Apart keep t) : Apart none t :=
  ⟨fun i a ha hlive => h.fits i a ha (hlive.imp_right nofun),
    fun i j a b hij ha hb hlive hlive' =>
      h.apart i j a b hij ha hb (hlive.imp_right nofun) (hlive'.imp_right nofun), h.stack⟩

theorem Apart.keeping (h : Apart none t) (hw : t.watchPointArray[i]? = some wpi)
    (hactive : wpi.isActive = true) : Apart (some i) t := by
  have hlive : ∀ (j : ℕ) (b : RegisterInfo), t.watchPointArray[j]? = some b →
      b.isActive = true ∨ some i = some j → b.isActive = true ∨ none = some j := by
    rintro j b hb (hb' | heq)
    · exact .inl hb'
    · obtain rfl := Option.some.inj heq
      obtain rfl := Option.some.inj (hw.symm.trans hb)
      exact .inl hactive
  exact ⟨fun j b hb hj => h.fits j b hb (hlive j b hb hj),
    fun j k b c hjk hb hc hj hk => h.apart j k b c hjk hb hc (hlive j b hb hj) (hlive k c hc hk),
    h.stack⟩

theorem Apart.resurrect {events : Events} (h : Apart (some i) t)
    (hw : t.watchPointArray[i]? = some wpi) :
    Apart none (t.put i { wpi with isActive := true } events) := by
  have hback : ∀ (j : ℕ) (b : RegisterInfo),
      (t.put i { wpi with isActive := true } events).watchPointArray[j]? = some b →
      b.isActive = true → ∃ a : RegisterInfo, t.watchPointArray[j]? = some a ∧ a.sd = b.sd ∧
        (a.isActive = true ∨ some i = some j) := by
    intro j b hb hactive
    rw [getElem?_put hw] at hb
    split_ifs at hb with hij
    · cases hb
      subst hij
      exact ⟨wpi, hw, rfl, .inr rfl⟩
    · exact ⟨b, hb, rfl, .inl hactive⟩
  refine ⟨fun j b hb hlive => ?_, fun j k b c hjk hb hc hlive hlive' => ?_, h.stack⟩
  · obtain ⟨b', hb', hsd, hb⟩ := hback j b hb (hlive.resolve_right nofun)
    rw [← hsd]
    exact h.fits j b' hb' hb
  · obtain ⟨b', hb', hsd, hb⟩ := hback j b hb (hlive.resolve_right nofun)
    obtain ⟨c', hc', hsd', hc⟩ := hback k c hc (hlive'.resolve_right nofun)
    rw [← hsd, ← hsd']
    exact h.apart j k b' c' hjk hb' hc' hb hc

theorem react_apart {a : Arming} {reaction : Reaction}
    (h : react cfg alloc i a t reaction = .ok t')
    (hapart : Apart (if reaction = .retain then some i else none) t) : Apart none t' := by
  cases reaction with
  | triggered =>
    cases h
    exact hapart
  | disable =>
    obtain ⟨t₁, h₁, h⟩ := bind_eq_ok.mp h
    obtain ⟨t₂, h₂, h⟩ := bind_eq_ok.mp h
    exact rearm_apart h ((hapart.weaken (wrapper_weaker h₁)).weaken (resetProbability_weaker h₂))
  | disableAll => exact hapart.weaken (disableSlots_weaker h)
  | alreadyDisabled =>
    obtain ⟨wpi, hw, h⟩ := bind_eq_ok.mp h
    obtain ⟨-, h⟩ := ok_of_ite_error h
    obtain ⟨t₁, h₁, h⟩ := bind_eq_ok.mp h
    exact rearm_apart h (hapart.weaken (resetProbability_weaker h₁))
  | retain =>
    obtain ⟨wpi, hw, h⟩ := bind_eq_ok.mp h
    split_ifs at h
    · cases h
      exact hapart.release
    · obtain ⟨events, -, h⟩ := bind_eq_ok.mp h
      cases h
      exact hapart.resurrect (slot_ok hw)

theorem switchAll_weaker (on : Bool) (t : ThreadData) : Weaker t (switchAll on t) :=
  ⟨fun _ b hb => ⟨b, hb, rfl, id⟩, rfl⟩

theorem onWatchPoint_apart {siFd : Fd} {calls : List Call} {reaction : Reaction} {a : Arming}
    (h : onWatchPoint cfg alloc siFd calls reaction a t = .ok t') (hapart : Apart none t)
    (hplain : (Event.trap siFd calls reaction a).Plain) : Apart none t' := by
  obtain ⟨hcalls, hretain⟩ := hplain
  have hpaused := hapart.weaken (switchAll_weaker false t)
  unfold onWatchPoint at h
  dsimp only at h
  split at h
  · cases h
    exact hpaused.weaken (switchAll_weaker true _)
  · rename_i location hfind
    obtain ⟨hlt, hslot, -⟩ := List.findIdx?_eq_some_iff_getElem.mp hfind
    simp only [Bool.and_eq_true, beq_iff_eq] at hslot
    obtain ⟨t₁, h₁, h⟩ := bind_eq_ok.mp h
    obtain ⟨t₂, h₂, h⟩ := bind_eq_ok.mp h
    obtain ⟨t₃, h₃, h⟩ := bind_eq_ok.mp h
    cases h
    have hkept : Apart (if reaction = .retain then some location else none)
        (switchAll false t) := by
      split_ifs
      · exact hpaused.keeping (List.getElem?_eq_getElem hlt) hslot.1
      · exact hpaused
    have hran := run_invariant (C := fun c _ => c.Plain ∧ (reaction = .retain → ¬c.Subscribes))
      (fun c s s' hs hc hstep => callStep_apart hstep hs hc.1 fun hne => hc.2 (by
        by_contra hr
        exact hne (if_neg hr)))
      (hkept.weaken (disableWatchpoint_weaker h₁))
      (meets_of_mem fun c hc => ⟨hcalls c hc, fun hr => hretain hr c hc⟩) h₂
    exact (react_apart h₃ hran).weaken (switchAll_weaker true _)

end Apart

/-! ## What the kernel watches -/

def PerfEvent.Fires (e : PerfEvent) (x : ℕ) : Prop :=
  e.enabled = true ∧ e.bpAddr.toNat ≤ x ∧ x < e.bpAddr.toNat + e.bpLen

section Fires
variable {cfg : Config} {alloc : Events → Fd} {t : ThreadData} {e : PerfEvent} {fd : Fd} {x : ℕ}
  {memory : List RegisterInfo} {events : List Event}

theorem AtRest.fires (h : AtRest cfg t) (hapart : Apart none t) (he : t.events.lookup fd = some e)
    (hx : e.Fires x) : ∃ (i : ℕ) (wpi : RegisterInfo), t.watchPointArray[i]? = some wpi ∧
      wpi.isActive = true ∧ wpi.fileHandle = some fd ∧ wpi.sd.va.toNat ≤ x ∧
      x < wpi.sd.va.toNat + wpi.sd.watchLen := by
  obtain ⟨hon, hle, hlt⟩ := hx
  obtain ⟨i, wpi, hw, hfd⟩ := h.rest.sound.owned fd (by rw [he]; rfl)
  obtain ⟨e', he', hwatches, hoff⟩ := (h.rest.sound.slots i wpi hw).opened fd hfd
  obtain rfl := Option.some.inj (he.symm.trans he')
  have hactive : wpi.isActive = true := by
    cases hactive : wpi.isActive with
    | true => rfl
    | false =>
      rw [hoff hactive] at hon
      cases hon
  have haddr : e.bpAddr = wpi.sd.va := congrArg PerfEvent.bpAddr hwatches
  have hlen : e.bpLen = wpi.sd.watchLen := by
    have hlen : e.bpLen = if wpi.sd.watchType = .exec then 8 else wpi.sd.watchLen :=
      congrArg PerfEvent.bpLen hwatches
    rw [hlen]
    split_ifs with hexec
    · exact ((hapart.fits i wpi hw (.inl hactive)).2 hexec).symm
    · rfl
  rw [haddr] at hle hlt
  rw [hlen] at hlt
  exact ⟨i, wpi, hw, hactive, hfd, hle, hlt⟩

theorem overlap_of_byte {sd sd' : SampleData} (hfits : Fits sd) (hfits' : Fits sd')
    (hle : sd.va.toNat ≤ x) (hlt : x < sd.va.toNat + sd.watchLen) (hle' : sd'.va.toNat ≤ x)
    (hlt' : x < sd'.va.toNat + sd'.watchLen) :
    addressesOverlap sd.va sd.watchLen sd'.va sd'.watchLen = true := by
  have hend : ∀ sd : SampleData, Fits sd →
      (sd.va + UInt64.ofNat sd.watchLen).toNat = sd.va.toNat + sd.watchLen := by
    rintro sd ⟨hfits, -⟩
    rw [UInt64.toNat_add, UInt64.toNat_ofNat', Nat.mod_eq_of_lt (a := sd.watchLen) (by omega),
      Nat.mod_eq_of_lt hfits]
  simp only [addressesOverlap, Bool.and_eq_true, decide_eq_true_eq, UInt64.lt_iff_toNat_lt,
    hend sd hfits, hend sd' hfits']
  omega

theorem AtRest.fires_once (h : AtRest cfg t) (hapart : Apart none t) {fd' : Fd} {e' : PerfEvent}
    (he : t.events.lookup fd = some e) (he' : t.events.lookup fd' = some e') (hx : e.Fires x)
    (hx' : e'.Fires x) : fd = fd' := by
  obtain ⟨i, a, ha, hactive, hfd, hle, hlt⟩ := h.fires hapart he hx
  obtain ⟨j, b, hb, hactive', hfd', hle', hlt'⟩ := h.fires hapart he' hx'
  by_cases hij : i = j
  · subst hij
    obtain rfl := Option.some.inj (ha.symm.trans hb)
    exact Option.some.inj (hfd.symm.trans hfd')
  · have hover := overlap_of_byte (hapart.fits i a ha (.inl hactive))
      (hapart.fits j b hb (.inl hactive')) hle hlt hle' hlt'
    rw [hapart.apart i j a b hij ha hb (.inl hactive) (.inl hactive')] at hover
    cases hover

theorem eventStep_apart {t' : ThreadData} {ev : Event} (h : eventStep cfg alloc ev t = .ok t')
    (hapart : Apart none t) (hplain : ev.Plain) : Apart none t' := by
  cases ev with
  | call c => exact callStep_apart h hapart hplain nofun
  | trap siFd calls reaction a => exact onWatchPoint_apart h hapart hplain

theorem apart_init (memory : List RegisterInfo) : Apart none (threadInit memory) := by
  have hidle : ∀ (i : ℕ) (a : RegisterInfo), (threadInit memory).watchPointArray[i]? = some a →
      a.isActive = false := by
    intro i a ha
    obtain ⟨b, -, rfl⟩ := List.mem_map.mp (List.mem_of_getElem? ha)
    rfl
  refine ⟨fun i a ha hlive => ?_, fun i j a b _ ha _ hlive _ => ?_, rfl⟩
  · rw [hidle i a ha] at hlive
    obtain hlive | hlive := hlive
    · cases hlive
    · cases hlive
  · rw [hidle i a ha] at hlive
    obtain hlive | hlive := hlive
    · cases hlive
    · cases hlive

/-- Used as the profiler uses it, the library never has two watchpoints on one byte, so an access
to the byte traps at most once. -/
theorem run_fires_once (fastBp : Bool) (policy : ReplacementPolicy) (halloc : Allocates alloc)
    (hmemory : memory ≠ [])
    (hregular : ∀ e ∈ events, e.Regular { wpInit fastBp with replacementPolicy := policy })
    (hplain : ∀ e ∈ events, e.Plain)
    (hrun : run (eventStep { wpInit fastBp with replacementPolicy := policy } alloc) events
      (threadInit memory) = .ok t) :
    ∀ (x : ℕ) (fd fd' : Fd) (e e' : PerfEvent), t.events.lookup fd = some e →
      t.events.lookup fd' = some e' → e.Fires x → e'.Fires x → fd = fd' := by
  have hrest := ((run_kept rfl halloc hmemory hregular).ok t hrun).1
  have hapart := run_invariant (C := fun e _ => e.Plain)
    (fun e s s' hs hplain hstep => eventStep_apart hstep hs hplain) (apart_init memory)
    (meets_of_mem hplain) hrun
  exact fun x fd fd' e e' he he' hx hx' => hrest.fires_once hapart he he' hx hx'

/-- Of three subscriptions the second overlaps the first; the trap of the first moves it onto the
range that was refused. -/
def movedOnto : List Event :=
  [.call (.subscribe (writeWatch 0x1000) false ⟨id, fun _ _ => true⟩ (armedAt 10)),
   .call (.subscribe (writeWatch 0x1004) false ⟨id, fun _ _ => true⟩ (armedAt 20)),
   .call (.subscribe (writeWatch 0x2000) false ⟨id, fun _ _ => true⟩ (armedAt 30)),
   .trap 1 [.subscribe (writeWatch 0x1004) false ⟨id, fun _ _ => true⟩ (armedAt 40)]
     .triggered (armedAt 50)]

theorem run_fires_once_movedOnto : ∃ t,
    run (eventStep { wpInit true with replacementPolicy := .oldest } nextFd) movedOnto
      (threadInit twoSlots) = .ok t ∧
    ∀ (x : ℕ) (fd fd' : Fd) (e e' : PerfEvent), t.events.lookup fd = some e →
      t.events.lookup fd' = some e' → e.Fires x → e'.Fires x → fd = fd' := by
  obtain ⟨t, hrun⟩ : ∃ t, run (eventStep { wpInit true with replacementPolicy := .oldest } nextFd)
      movedOnto (threadInit twoSlots) = .ok t := ⟨_, rfl⟩
  refine ⟨t, hrun, run_fires_once true .oldest nextFd_allocates (by simp [twoSlots, oneSlot]) ?_ ?_ hrun⟩
  · simp only [movedOnto, List.forall_mem_cons, List.not_mem_nil, false_imp_iff, implies_true,
      and_true]
    refine ⟨armedAt_regular (by omega) (by omega), armedAt_regular (by omega) (by omega),
      armedAt_regular (by omega) (by omega), armedAt_regular (by omega) (by omega), ?_,
      fun h => (by cases h), fun h => (by cases h)⟩
    intro c hc
    obtain rfl := List.mem_singleton.mp hc
    exact armedAt_regular (by omega) (by omega)
  · have hfits : ∀ va : Addr, va.toNat < 2 ^ 32 → Fits (writeWatch va) :=
      fun va hva => ⟨by simp only [writeWatch]; omega, fun h => by cases h⟩
    simp only [movedOnto, List.forall_mem_cons, List.not_mem_nil, false_imp_iff, implies_true,
      and_true]
    refine ⟨⟨rfl, hfits _ (by decide)⟩, ⟨rfl, hfits _ (by decide)⟩, ⟨rfl, hfits _ (by decide)⟩,
      ?_, fun h => by cases h⟩
    intro c hc
    obtain rfl := List.mem_singleton.mp hc
    exact ⟨rfl, hfits _ (by decide)⟩

end Fires

end Trace4J.Profiler.WatchpointSlots
