import Trace4J.Profiler.StackSync
import Trace4J.Profiler.WatchpointSlots

/-!
# The slot of a traced thread

The handlers of the profiler are modelled over one slot that is armed or not. Here the watchpoint
library with its descriptors and events takes the place of the slot.
-/

namespace Trace4J.Profiler.SlotRefinement
open Library
open WatchpointSlots (ThreadData RegisterInfo Events Fd Arming Chance Rest AtRest Changed wpInit)

/-! ## One slot of the library -/

/-- The library has one slot, and `wpi` is what the profiler sees of it. -/
structure Views (t : ThreadData) (wpi : WPRegisterInfo) : Prop where
  slot : ∃ r, t.watchPointArray = [r] ∧ r.isActive = wpi.isActive ∧
    (wpi.isActive = true → r.sd = wpi.sd)
  stack : t.wpStack = []

def subscribed (wpi : WPRegisterInfo) (sds : List SampleData) : WPRegisterInfo :=
  sds.foldl (fun wpi sd => (wpSubscribe wpi sd).1) wpi

def released (wpi : WPRegisterInfo) : WPRegisterInfo := { wpi with isActive := false }

def reacted : TriggerAction → WPRegisterInfo → WPRegisterInfo
  | .disable, wpi => released wpi
  | .triggered, wpi => wpi

def reaction : TriggerAction → WatchpointSlots.Reaction
  | .disable => .disable
  | .triggered => .triggered

section Slot
variable {alloc : Events → Fd} {t t' : ThreadData} {loc : Option ℕ} {quiet : Prop}
  {wpi : WPRegisterInfo} {r : RegisterInfo} {sd : SampleData} {a : Arming}
  {Q : Events → RegisterInfo → Prop}

theorem views_of_changed (h : Changed (wpInit true) 0 t Q t') (hr : t.watchPointArray = [r])
    (hstack : t.wpStack = []) (hQ : ∀ r', Q t'.events r' →
      r'.isActive = wpi.isActive ∧ (wpi.isActive = true → r'.sd = wpi.sd)) : Views t' wpi := by
  obtain ⟨r', hr', hq⟩ := h.slot
  obtain ⟨r'', hslots⟩ := h.only.slots
  rw [hr, List.set_cons_zero] at hslots
  rw [hslots, List.getElem?_cons_zero] at hr'
  obtain rfl := Option.some.inj hr'
  exact ⟨⟨_, hslots, hQ _ hq⟩, h.only.stack.trans hstack⟩

theorem createWatchPoint_accepted {i : ℕ} (hr : t.watchPointArray[i]? = some r)
    (hvalid : validateWPData sd = true) (haccepted : a.accepted = true) (howned : a.owned = true) :
    ∃ t', WatchpointSlots.createWatchPoint (wpInit true) alloc i sd false a t = .ok t' := by
  rw [WatchpointSlots.createWatchPoint, WatchpointSlots.slot_eq hr]
  simp [bind, Except.bind, hvalid, haccepted, howned]

theorem armWatchPoint_accepted (alloc : Events → Fd) (h : Rest (wpInit true) loc quiet t)
    (hr : t.watchPointArray = [r]) (hvalid : validateWPData sd = true) (ha : a.Regular)
    (haccepted : a.accepted = true) :
    ∃ t', WatchpointSlots.armWatchPoint (wpInit true) alloc 0 sd a t = .ok t' := by
  have hw : t.watchPointArray[0]? = some r := by rw [hr]; rfl
  rw [WatchpointSlots.armWatchPoint, WatchpointSlots.slot_eq hw]
  simp only [bind, Except.bind]
  cases hfd : r.fileHandle with
  | some fd =>
    have hok := h.sound.slots 0 r hw
    obtain ⟨e, he, -⟩ := hok.opened fd hfd
    have hmap : r.mmapBuffer = true := (hok.armed (by simp [hfd])).2.2.2.2
    rw [if_pos ⟨rfl, by simp⟩, WatchpointSlots.createWatchPoint_modify hw hvalid hfd hmap,
      WatchpointSlots.checkedModify_eq he, haccepted]
    exact ⟨_, rfl⟩
  | none =>
    have hidle : ¬r.isActive = true := fun hactive => (h.sound.slots 0 r hw).active hactive hfd
    rw [if_neg (by simp), if_neg hidle]
    exact createWatchPoint_accepted hw hvalid haccepted ha.owned

theorem getVictim_single (h : Rest (wpInit true) loc quiet t) (hr : t.watchPointArray = [r])
    (chance : Chance) : ∃ v, v ≠ .noneAvailable ∧
      WatchpointSlots.getVictim (wpInit true).replacementPolicy chance t.watchPointArray =
        (v, some 0, t.watchPointArray) := by
  rw [hr]
  cases hactive : r.isActive with
  | false => exact ⟨.emptySlot, nofun, by simp [WatchpointSlots.getVictim, hactive]⟩
  | true =>
    have hlt : r.startTime < 9223372036854775807 := (h.timed r (by simp [hr]) hactive).2
    refine ⟨.nonEmptySlot, nofun, ?_⟩
    simp [WatchpointSlots.getVictim, WatchpointSlots.extreme, wpInit, hactive, hlt]

variable (halloc : WatchpointSlots.Allocates alloc)
include halloc

theorem subscribe_views (sd : SampleData) (h : Rest (wpInit true) loc quiet t)
    (hloc : loc = none ∨ ¬quiet)
    (hv : Views t wpi) (ha : a.Regular) (haccepted : a.accepted = true) (chance : Chance) :
    ∃ t', WatchpointSlots.callStep (wpInit true) alloc (.subscribe sd false chance a) t = .ok t' ∧
      WatchpointSlots.Kept (wpInit true) loc quiet t t' ∧ Views t' (wpSubscribe wpi sd).1 := by
  obtain ⟨⟨r, hr, hactive, hsd⟩, hstack⟩ := hv
  have hne : t.watchPointArray ≠ [] := by simp [hr]
  have hkept := h.subscribe rfl halloc sd false chance hne (hloc.imp_right fun hq => ⟨rfl, hq⟩) ha
  have hover : WatchpointSlots.isOverlappedAny sd t = isOverlapped wpi sd := by
    simp only [WatchpointSlots.isOverlappedAny, hr, List.any_cons, List.any_nil, Bool.or_false,
      isOverlapped, hactive]
    cases hw : wpi.isActive with
    | false => rfl
    | true => rw [hsd hw]
  rw [WatchpointSlots.callStep]
  by_cases hcheck : validateWPData sd = false ∨ WatchpointSlots.isOverlappedAny sd t = true
  · refine ⟨t, by rw [WatchpointSlots.subscribe, if_pos hcheck]; rfl, .refl h, ?_⟩
    have hrefused : (!validateWPData sd || isOverlapped wpi sd) = true := by
      rw [← hover]
      simpa using hcheck
    rw [wpSubscribe, if_pos hrefused]
    exact ⟨⟨r, hr, hactive, hsd⟩, hstack⟩
  · have htaken : ¬(!validateWPData sd || isOverlapped wpi sd) = true := by
      rw [← hover]
      simpa using hcheck
    have hvalid : validateWPData sd = true := by
      cases hv : validateWPData sd with
      | true => rfl
      | false => exact absurd (.inl hv) hcheck
    have hw : t.watchPointArray[0]? = some r := by rw [hr]; rfl
    obtain ⟨v, hne, hvictim⟩ := getVictim_single h hr chance
    obtain ⟨t', harm⟩ := armWatchPoint_accepted alloc h hr hvalid ha haccepted
    have hchanged := (h.sound.arm rfl halloc hw (.inl rfl) hvalid ha).ok t' harm
    have hs : WatchpointSlots.subscribe (wpInit true) alloc sd false chance a t =
        .ok (true, t') := by
      rw [WatchpointSlots.subscribe, if_neg hcheck, hvictim]
      cases v with
      | noneAvailable => exact absurd rfl hne
      | emptySlot | nonEmptySlot =>
        change (WatchpointSlots.armWatchPoint (wpInit true) alloc 0 sd a t >>=
          fun t => .ok (true, t)) = _
        rw [harm]
        rfl
    refine ⟨t', by rw [hs]; rfl, hkept.ok _ hs, ?_⟩
    rw [wpSubscribe, if_neg htaken]
    exact views_of_changed hchanged hr hstack fun r' hq => ⟨hq.1, fun _ => hq.2.1⟩

theorem calls_views (h : Rest (wpInit true) loc quiet t) (hloc : loc = none ∨ ¬quiet)
    (hv : Views t wpi) (ha : a.Regular) (haccepted : a.accepted = true) (chance : Chance)
    (sds : List SampleData) : ∃ t', run (WatchpointSlots.callStep (wpInit true) alloc)
        (sds.map fun sd => .subscribe sd false chance a) t = .ok t' ∧
      WatchpointSlots.Kept (wpInit true) loc quiet t t' ∧ Views t' (subscribed wpi sds) := by
  induction sds generalizing t wpi with
  | nil => exact ⟨t, rfl, .refl h, hv⟩
  | cons sd sds ih =>
    obtain ⟨t₁, hs₁, h₁, hv₁⟩ := subscribe_views halloc sd h hloc hv ha haccepted chance
    obtain ⟨t', hs', h', hv'⟩ := ih h₁.rest hv₁
    exact ⟨t', run_cons.mpr ⟨t₁, hs₁, hs'⟩, h₁.trans h', hv'⟩

omit halloc in
theorem Views.same {slots : List RegisterInfo} (h : Views t wpi)
    (hsame : WatchpointSlots.SameSlots t.watchPointArray slots) :
    Views { t with watchPointArray := slots } wpi := by
  obtain ⟨⟨r, hr, hactive, hsd⟩, hstack⟩ := h
  obtain ⟨r', rfl⟩ : ∃ r', slots = [r'] := by
    have hlen := hsame.length_eq
    rw [hr] at hlen
    exact List.length_eq_one_iff.mp hlen
  obtain ⟨b, hb, hcore⟩ := hsame.of_getElem? (i := 0) rfl
  rw [hr] at hb
  obtain rfl := Option.some.inj hb
  obtain ⟨-, hactive', hsd', -⟩ := WatchpointSlots.core_fields hcore
  exact ⟨⟨r', rfl, hactive'.symm.trans hactive, fun hw => hsd'.symm.trans (hsd hw)⟩, hstack⟩

omit halloc in
theorem react_views (alloc : Events → Fd) (a : Arming)
    (h : Rest (wpInit true) (some 0) quiet t) (hv : Views t wpi) (action : TriggerAction) : ∃ t',
      WatchpointSlots.react (wpInit true) alloc 0 a t (reaction action) = .ok t' ∧
      Views t' (reacted action wpi) := by
  cases action with
  | triggered => exact ⟨t, rfl, hv⟩
  | disable =>
    obtain ⟨⟨r, hr, -, -⟩, hstack⟩ := id hv
    have hw : t.watchPointArray[0]? = some r := by rw [hr]; rfl
    obtain ⟨t₁, hs₁, hc⟩ := h.sound.wrapper hw
    obtain ⟨r₁, hw₁, -⟩ := hc.slot
    obtain ⟨slots, hreset, hsame⟩ := WatchpointSlots.resetProbability_eq hw₁
    have hv₁ : Views t₁ (released wpi) :=
      views_of_changed hc hr hstack fun r' hq => ⟨hq.1, nofun⟩
    refine ⟨_, ?_, hv₁.same hsame⟩
    rw [reaction, WatchpointSlots.react]
    simp only [bind, Except.bind, hs₁, hreset]
    rw [WatchpointSlots.rearm, hv₁.stack]

theorem trap_views (h : AtRest (wpInit true) t) (hv : Views t wpi) (hactive : wpi.isActive = true)
    (ha : a.Regular) (haccepted : a.accepted = true) (chance : Chance) (sds : List SampleData)
    (action : TriggerAction) : ∃ r fd t', t.watchPointArray = [r] ∧ r.isActive = true ∧
      r.fileHandle = some fd ∧ WatchpointSlots.onWatchPoint (wpInit true) alloc fd
        (sds.map fun sd => .subscribe sd false chance a) (reaction action) a t = .ok t' ∧
      AtRest (wpInit true) t' ∧ Views t' (reacted action (subscribed (released wpi) sds)) := by
  obtain ⟨⟨r, hr, hractive, -⟩, hstack⟩ := hv
  have hpaused : Rest (wpInit true) none True (WatchpointSlots.switchAll false t) :=
    h.rest.switchAll
  have hw : (WatchpointSlots.switchAll false t).watchPointArray[0]? = some r := by
    rw [WatchpointSlots.switchAll, hr]
    rfl
  obtain ⟨fd, hfd⟩ := Option.ne_none_iff_exists'.mp
    ((hpaused.sound.slots 0 r hw).active (hractive.trans hactive))
  have hregular : (WatchpointSlots.Event.trap fd
      (sds.map fun sd => WatchpointSlots.Call.subscribe sd false chance a) (reaction action)
      a).Regular (wpInit true) := by
    refine ⟨ha, fun c hc => ?_, fun heq => ?_, nofun⟩
    · obtain ⟨sd, -, rfl⟩ := List.mem_map.mp hc
      exact ha
    · cases action <;> cases heq
  obtain ⟨t₁, hs₁, hc⟩ := hpaused.sound.disable hw hfd
  have hv₁ : Views t₁ (released wpi) := by
    refine views_of_changed hc hr hstack ?_
    rintro r' rfl
    exact ⟨rfl, nofun⟩
  have htrapped : Rest (wpInit true) (some 0) False t₁ := by
    refine hpaused.quieten.trapped hc ?_
    rintro r' rfl
    exact ⟨by simp [hfd], nofun⟩
  obtain ⟨t₂, hs₂, h₂, hv₂⟩ := calls_views halloc htrapped (.inr id) hv₁ ha haccepted chance sds
  obtain ⟨t₃, hs₃, hv₃⟩ := react_views alloc a h₂.rest hv₂ action
  have hs : WatchpointSlots.onWatchPoint (wpInit true) alloc fd
      (sds.map fun sd => .subscribe sd false chance a) (reaction action) a t =
        .ok (WatchpointSlots.switchAll true t₃) := by
    have hfind : (WatchpointSlots.switchAll false t).watchPointArray.findIdx?
        (fun wpi => wpi.isActive && wpi.fileHandle == some fd) = some 0 := by
      rw [WatchpointSlots.switchAll, hr]
      simp [hractive, hactive, hfd]
    rw [WatchpointSlots.onWatchPoint, hfind]
    simp only [bind, Except.bind, hs₁, hs₂, hs₃]
  have hrest := (h.rest.trap rfl halloc hregular).ok _ hs
  exact ⟨r, fd, _, hr, hractive.trans hactive, hfd, hs, hrest.1, hv₃.slot, hv₃.stack⟩

end Slot

/-! ## What the profiler asks for -/

def StopsAt (cfg : Config) (code : Addr → Option Inst) (ip : Addr) (s : Thread)
    (stop : DecodeStop) : Prop :=
  ∃ map, decoderLoop cfg code s.decodeInsCounter ip (s.basicBlockMap ip) cfg.fuel ip
    s.basicBlockMap = .ok (stop, map)

/-- What `decoder` subscribes: the return watchpoint of the method that was sampled or is over
the threshold, else one on the instruction where it stops. -/
inductive DecoderAsks (cfg : Config) (code : Addr → Option Inst) (ip : Addr) (s : Thread) :
    SampleData → Prop
  | overThreshold {sd : SampleData} {wpRest : List SampleData} :
      StopsAt cfg code ip s .overThreshold → s.wpStack = sd :: wpRest →
      DecoderAsks cfg code ip s sd
  | outermost {sd : SampleData} {xedd : Inst} {tempIp : Addr} :
      StopsAt cfg code ip s (.stop xedd tempIp) → xedd.iclass.group = .ret → s.wpStack = [sd] →
      DecoderAsks cfg code ip s sd
  | inner {sd : SampleData} {wpRest : List SampleData} {xedd : Inst} {tempIp : Addr} :
      StopsAt cfg code ip s (.stop xedd tempIp) → xedd.iclass.group = .ret →
      s.wpStack = sd :: wpRest → wpRest ≠ [] →
      DecoderAsks cfg code ip s (execWatch tempIp sd.calleeCtxtFrame)
  | call {xedd : Inst} {tempIp : Addr} :
      StopsAt cfg code ip s (.stop xedd tempIp) → xedd.iclass.group = .call →
      DecoderAsks cfg code ip s (execWatch tempIp (callFrame ip))
  | branch {xedd : Inst} {tempIp : Addr} :
      StopsAt cfg code ip s (.stop xedd tempIp) → xedd.iclass.group ≠ .ret →
      xedd.iclass.group ≠ .call → DecoderAsks cfg code ip s (execWatch tempIp (branchFrame ip))

inductive SampleAsks (cfg : Config) (ev : SampleInput) (s : Thread) : List SampleData → Prop
  | ignored : (∀ method, ev.env.getMethod ev.ip = some method → accepts cfg method = false) →
      SampleAsks cfg ev s []
  | taken {method : MethodInfo} {sd : SampleData} : ev.env.getMethod ev.ip = some method →
      accepts cfg method = true →
      DecoderAsks cfg ev.env.code ev.ip (openSample cfg ev method s) sd → SampleAsks cfg ev s [sd]

/-- What the handler of a trap subscribes, and what it returns. -/
inductive TrapAsks (cfg : Config) (ev : TrapInput) (s : Thread) :
    List SampleData → TriggerAction → Prop
  | dropped : (∀ pc, ev.pc = some pc → pc = 0 ∨ ev.env.getMethod pc = none) →
      TrapAsks cfg ev s [] .disable
  | undecoded : ¬IsRuntime s → s.decodeInsCounter < cfg.decodeThreshold →
      s.watchPoint.sd.watchType = .exec →
      (∀ xedd, ev.env.code s.watchPoint.sd.va = some xedd → xedd.iclass.group = .default) →
      TrapAsks cfg ev s [] .triggered
  | resume {ip : Addr} {t : Thread} {sd : SampleData} : Resumes cfg ev.env s ip t →
      DecoderAsks cfg ev.env.code ip t sd → TrapAsks cfg ev s [sd] .triggered
  | runtimeCall {xedd : Inst} {calleeIP : Addr} : ¬IsRuntime s →
      s.decodeInsCounter < cfg.decodeThreshold → s.watchPoint.sd.watchType = .exec →
      ev.env.code s.watchPoint.sd.va = some xedd → xedd.iclass.group = .call →
      getBranchTarget ev.env.xedAgen s.watchPoint.sd.va xedd ev.env.uCtxt = some calleeIP →
      ev.env.getMethod calleeIP = none →
      TrapAsks cfg ev s
        [execWatch (s.watchPoint.sd.va + UInt64.ofNat xedd.length) runtimeFrame] .triggered
  | lastReturn {xedd : Inst} : ¬IsRuntime s → s.decodeInsCounter < cfg.decodeThreshold →
      s.watchPoint.sd.watchType = .exec → ev.env.code s.watchPoint.sd.va = some xedd →
      xedd.iclass.group = .ret → s.wpStack = [] → TrapAsks cfg ev s [] .triggered
  | overThreshold {action : TriggerAction} : ¬IsRuntime s →
      cfg.decodeThreshold ≤ s.decodeInsCounter → TrapAsks cfg ev s s.wpStack.head?.toList action
  | outermost : ¬IsRuntime s → s.decodeInsCounter < cfg.decodeThreshold →
      s.watchPoint.sd.watchType ≠ .exec → TrapAsks cfg ev s [] .disable

section Asks
variable {cfg : Config} {env : Env} {code : Addr → Option Inst} {ip : Addr} {ev : TrapInput}
  {s s' : Thread} {e : Event}

theorem armStop_subscribes {xedd : Inst} {tempIp : Addr} {map : BasicBlockMap}
    (hstop : StopsAt cfg code ip s (.stop xedd tempIp))
    (h : armStop ip xedd tempIp { s with basicBlockMap := map } = .ok s') :
    ∃ sd, DecoderAsks cfg code ip s sd ∧ s'.watchPoint = (wpSubscribe s.watchPoint sd).1 := by
  unfold armStop at h
  split at h
  · rename_i hret
    split_ifs at h with hlen
    · obtain ⟨⟨sd, wpRest⟩, hpop, h⟩ := bind_eq_ok.mp h
      obtain ⟨⟨ctxt, retRest⟩, -, h⟩ := bind_eq_ok.mp h
      have hwp : s.wpStack = sd :: wpRest := popStack_eq_ok.mp hpop
      have hrest : wpRest = [] := by simpa [hwp] using hlen
      cases h
      exact ⟨sd, .outermost hstop hret (hrest ▸ hwp), rfl⟩
    · obtain ⟨⟨sd, wpRest⟩, hpop, h⟩ := bind_eq_ok.mp h
      have hwp : s.wpStack = sd :: wpRest := popStack_eq_ok.mp hpop
      have hrest : wpRest ≠ [] := by
        rintro rfl
        exact hlen (by simp [hwp])
      cases h
      exact ⟨_, .inner hstop hret hwp hrest, rfl⟩
  · rename_i hcall
    cases h
    exact ⟨_, .call hstop hcall, rfl⟩
  · rename_i hret hcall
    cases h
    exact ⟨_, .branch hstop hret hcall, rfl⟩

theorem decoder_subscribes (h : decoder cfg code ip s = .ok s') :
    ∃ sd, DecoderAsks cfg code ip s sd ∧ s'.watchPoint = (wpSubscribe s.watchPoint sd).1 := by
  obtain ⟨⟨stop, map⟩, hloop, h⟩ := bind_eq_ok.mp h
  cases stop with
  | overThreshold =>
    obtain ⟨⟨sd, wpRest⟩, hpop, h⟩ := bind_eq_ok.mp h
    cases h
    exact ⟨sd, .overThreshold ⟨map, hloop⟩ (popStack_eq_ok.mp hpop), rfl⟩
  | stop xedd tempIp => exact armStop_subscribes ⟨map, hloop⟩ h

theorem armNext_subscribes (s : Thread) :
    (armNext s).watchPoint = subscribed s.watchPoint s.wpStack.head?.toList := by
  unfold armNext
  split
  · rename_i hwp
    rw [hwp]
    rfl
  · rename_i sd wpRest hwp
    rw [hwp]
    rfl

theorem Resumes.released {t : Thread} (h : Resumes cfg env s ip t) :
    t.watchPoint = released s.watchPoint := by
  cases h with
  | runtimeReturn => rfl
  | innerReturn _ _ _ _ _ _ _ hrecords =>
    exact (hrecords.control flushReturn_countsOnly).1.watchPoint
  | branch => rfl
  | call _ _ _ _ _ _ _ hopen =>
    rw [(openCall_ok hopen).2]
    rfl

/-- Every way of handling a trap is a list of subscriptions and an action. -/
theorem TrapStep.asks (h : TrapStep cfg ev s s') : ∃ sds action, TrapAsks cfg ev s sds action ∧
    s'.watchPoint = reacted action (subscribed (released s.watchPoint) sds) := by
  have hnext := armNext_subscribes (takeTrap s)
  cases h with
  | dropped hpc => exact ⟨[], .disable, .dropped (by simp [hpc]), rfl⟩
  | reset hpc => exact ⟨[], .disable, .dropped (by simp [hpc]), rfl⟩
  | unmapped hpc hm => exact ⟨[], .disable, .dropped (by simp [hpc, hm]), rfl⟩
  | undecoded hrt hthr hexec hc => exact ⟨[], .triggered, .undecoded hrt hthr hexec hc, rfl⟩
  | resume _ hresumes hdecoder =>
    obtain ⟨sd, hasks, hsd⟩ := decoder_subscribes hdecoder
    rw [Resumes.released hresumes] at hsd
    exact ⟨[sd], .triggered, .resume hresumes hasks, hsd⟩
  | runtimeCall hrt hthr hexec hc hg htarget hnone hcall =>
    rw [onRuntimeCall_ok hcall]
    exact ⟨_, .triggered, .runtimeCall hrt hthr hexec hc hg htarget hnone, rfl⟩
  | lastReturn _ hrt hthr hexec hc hg _ _ hrecords _ hlast =>
    have hcontrol := (hrecords.control flushReturn_countsOnly).1
    exact ⟨[], .triggered, .lastReturn hrt hthr hexec hc hg (hcontrol.wpStack.symm.trans hlast),
      hcontrol.watchPoint⟩
  | overInsane hrt hthr =>
    exact ⟨_, .disable, .overThreshold hrt hthr, congrArg released hnext⟩
  | overThreshold _ hrt hthr _ _ _ _ hrecords =>
    exact ⟨_, .triggered, .overThreshold hrt hthr,
      (hrecords.control flushReturn_countsOnly).1.watchPoint.trans hnext⟩
  | outermostInsane hrt hthr htype => exact ⟨[], .disable, .outermost hrt hthr htype, rfl⟩
  | outermost hrt hthr htype _ _ _ hrecords =>
    have hsame := (hrecords.control flushOutermost_countsOnly).1.watchPoint
    exact ⟨[], .disable, .outermost hrt hthr htype, congrArg released hsame⟩

theorem onSample_asks {ev : SampleInput} (h : onSample cfg ev s = .ok s') :
    ∃ sds, SampleAsks cfg ev s sds ∧ s'.watchPoint = subscribed s.watchPoint sds := by
  unfold onSample at h
  split at h
  · rename_i hnone
    cases h
    exact ⟨[], .ignored (by simp [hnone]), rfl⟩
  · rename_i method hm
    split_ifs at h with ha hn
    · cases h
      exact ⟨[], .ignored (by simpa [hm] using ha), rfl⟩
    · obtain ⟨sd, hasks, hsd⟩ := decoder_subscribes h
      exact ⟨[sd], .taken hm (by simpa using ha) hasks, hsd⟩

end Asks

/-! ## The profiler on the library -/

/-- The kernel has the breakpoint that the profiler believes to be armed, and no other is on. -/
structure Realises (t : ThreadData) (wpi : WPRegisterInfo) : Prop where
  views : Views t wpi
  armed : wpi.isActive = true →
    ∃ fd, t.events.lookup fd = some (WatchpointSlots.perfEventOf wpi.sd)
  only : ∀ fd e, t.events.lookup fd = some e → e.enabled = true →
    wpi.isActive = true ∧ e = WatchpointSlots.perfEventOf wpi.sd
  single : ∀ fd fd', (t.events.lookup fd).isSome → (t.events.lookup fd').isSome → fd = fd'

/-- The entries of the library that a handler of the profiler comes from and calls. -/
inductive Serves (cfg : Config) (a : Arming) (chance : Chance) (s : Thread) (t : ThreadData) :
    Event → List WatchpointSlots.Event → Prop
  | sample {ev : SampleInput} {sds : List SampleData} : SampleAsks cfg ev s sds →
      Serves cfg a chance s t (.sample ev)
        ((sds.map fun sd => WatchpointSlots.Call.subscribe sd false chance a).map .call)
  | unarmed {ev : TrapInput} : s.watchPoint.isActive = false →
      Serves cfg a chance s t (.trap ev) []
  | trap {ev : TrapInput} {r : RegisterInfo} {fd : Fd} {sds : List SampleData}
      {action : TriggerAction} : t.watchPointArray = [r] → r.isActive = true →
      r.fileHandle = some fd → TrapAsks cfg ev (counted cfg ev s) sds action →
      Serves cfg a chance s t (.trap ev)
        [.trap fd (sds.map fun sd => .subscribe sd false chance a) (reaction action) a]

section Realise
variable {cfg : Config} {alloc : Events → Fd} {t : ThreadData} {wpi : WPRegisterInfo}
  {s s₀ s' : Thread} {e : Event} {evs : List Event} {a : Arming}

theorem realises (h : AtRest (wpInit true) t) (hv : Views t wpi) : Realises t wpi := by
  obtain ⟨r, hr, hactive, hsd⟩ := hv.slot
  have hw : t.watchPointArray[0]? = some r := by rw [hr]; rfl
  have hslot : ∀ fd, (t.events.lookup fd).isSome → r.fileHandle = some fd := by
    intro fd hfd
    obtain ⟨i, r', hr', hfd'⟩ := h.rest.sound.owned fd hfd
    obtain rfl := List.mem_singleton.mp (hr ▸ List.mem_of_getElem? hr')
    exact hfd'
  have hok := h.rest.sound.slots 0 r hw
  have heta : ∀ e : WatchpointSlots.PerfEvent, e.enabled = true → e.Watches r.sd →
      e = WatchpointSlots.perfEventOf r.sd := by
    rintro ⟨addr, len, type, enabled⟩ rfl hwatches
    exact hwatches
  refine ⟨hv, fun hw' => ?_, fun fd e he hon => ?_, fun fd fd' hfd hfd' => ?_⟩
  · obtain ⟨fd, hfd⟩ := Option.ne_none_iff_exists'.mp (hok.active (hactive.trans hw'))
    obtain ⟨e, he, hwatches, -⟩ := hok.opened fd hfd
    obtain ⟨e', he', hon⟩ := h.on 0 r hw (hactive.trans hw') fd hfd
    obtain rfl := Option.some.inj (he.symm.trans he')
    exact ⟨fd, by rw [he, heta e hon hwatches, hsd hw']⟩
  · obtain ⟨e', he', hwatches, hoff⟩ := hok.opened fd (hslot fd (by rw [he]; rfl))
    obtain rfl := Option.some.inj (he.symm.trans he')
    have hw' : wpi.isActive = true := by
      rw [← hactive]
      cases hr' : r.isActive with
      | true => rfl
      | false =>
        rw [hoff hr'] at hon
        cases hon
    exact ⟨hw', by rw [← hsd hw']; exact heta e hon hwatches⟩
  · exact Option.some.inj ((hslot fd hfd).symm.trans (hslot fd' hfd'))

theorem run_calls {cfg : WatchpointSlots.Config} (calls : List WatchpointSlots.Call)
    (t : ThreadData) :
    run (WatchpointSlots.eventStep cfg alloc) (calls.map .call) t =
      run (WatchpointSlots.callStep cfg alloc) calls t := by
  induction calls generalizing t with
  | nil => rfl
  | cons c calls ih =>
    simp only [List.map_cons, run, WatchpointSlots.eventStep]
    exact congrArg _ (funext ih)

variable (halloc : WatchpointSlots.Allocates alloc)
include halloc

theorem step_on_library (h : step cfg e s = .ok s') (hrest : AtRest (wpInit true) t)
    (hv : Views t s.watchPoint) (ha : a.Regular) (haccepted : a.accepted = true)
    (chance : Chance) : ∃ es t', Serves cfg a chance s t e es ∧
      run (WatchpointSlots.eventStep (wpInit true) alloc) es t = .ok t' ∧
      AtRest (wpInit true) t' ∧ Views t' s'.watchPoint := by
  cases e with
  | sample ev =>
    obtain ⟨sds, hasks, hsds⟩ := onSample_asks h
    obtain ⟨t', hs, hkept, hv'⟩ :=
      calls_views halloc hrest.rest (.inl rfl) hv ha haccepted chance sds
    refine ⟨_, t', .sample hasks, (run_calls _ t).trans hs, ⟨hkept.rest, hkept.on hrest.on⟩, ?_⟩
    rw [hsds]
    exact hv'
  | trap ev =>
    obtain ⟨hidle, rfl⟩ | ⟨hactive, hstep⟩ := onWatchPoint_step h
    · exact ⟨[], t, .unarmed hidle, rfl, hrest, hv⟩
    · obtain ⟨sds, action, hasks, hsds⟩ := TrapStep.asks hstep
      obtain ⟨r, fd, t', hr, hractive, hfd, hs, hrest', hv'⟩ :=
        trap_views halloc hrest hv hactive ha haccepted chance sds action
      refine ⟨_, t', .trap hr hractive hfd hasks, run_cons.mpr ⟨t', hs, rfl⟩, hrest', ?_⟩
      rw [hsds]
      exact hv'

theorem run_lockstep (hrun : run (step cfg) evs Thread.init = .ok s) (ha : a.Regular)
    (haccepted : a.accepted = true) (chance : Chance) (r : RegisterInfo) :
    ∃ (ess : List (List WatchpointSlots.Event)) (t : ThreadData), ess.length = evs.length ∧
      run (WatchpointSlots.eventStep (wpInit true) alloc) ess.flatten
        (WatchpointSlots.threadInit [r]) = .ok t ∧
      AtRest (wpInit true) t ∧ Views t s.watchPoint ∧
      ∀ n e, evs[n]? = some e → ∃ sₙ tₙ es, run (step cfg) (evs.take n) Thread.init = .ok sₙ ∧
        run (WatchpointSlots.eventStep (wpInit true) alloc) (ess.take n).flatten
          (WatchpointSlots.threadInit [r]) = .ok tₙ ∧ Realises tₙ sₙ.watchPoint ∧
        ess[n]? = some es ∧ Serves cfg a chance sₙ tₙ e es := by
  induction evs using List.reverseRecOn generalizing s with
  | nil =>
    cases hrun
    exact ⟨[], _, rfl, rfl, WatchpointSlots.atRest_init (wpInit true) [r],
      ⟨⟨_, rfl, rfl, nofun⟩, rfl⟩, nofun⟩
  | append_singleton evs e ih =>
    obtain ⟨s₁, hrun₁, hstep⟩ := run_append.mp hrun
    obtain ⟨s', hstep, hs'⟩ := run_cons.mp hstep
    cases hs'
    obtain ⟨ess, t₁, hlen, hlib, hrest₁, hv₁, hprefix⟩ := ih hrun₁
    obtain ⟨es, t, hes, hlib', hrest, hv⟩ :=
      step_on_library halloc hstep hrest₁ hv₁ ha haccepted chance
    have hall : run (WatchpointSlots.eventStep (wpInit true) alloc) (ess ++ [es]).flatten
        (WatchpointSlots.threadInit [r]) = .ok t := by
      rw [List.flatten_append, List.flatten_singleton]
      exact run_append.mpr ⟨t₁, hlib, hlib'⟩
    refine ⟨ess ++ [es], t, by simp [hlen], hall, hrest, hv, fun n e' he' => ?_⟩
    obtain hn | rfl | hn := Nat.lt_trichotomy n evs.length
    · rw [List.getElem?_append_left hn] at he'
      rw [List.getElem?_append_left (hlen ▸ hn), List.take_append_of_le_length hn.le,
        List.take_append_of_le_length (hlen ▸ hn.le)]
      exact hprefix n e' he'
    · rw [List.getElem?_concat_length] at he'
      obtain rfl := Option.some.inj he'
      rw [List.take_left, ← hlen, List.take_left, List.getElem?_concat_length]
      exact ⟨s₁, t₁, es, hrun₁, hlib, realises hrest₁ hv₁, rfl, hes⟩
    · rw [List.getElem?_eq_none (by simp; omega)] at he'
      cases he'

/-- Whatever a traced thread does with its slot, the library does with a descriptor of the kernel:
handler by handler the breakpoint is on exactly when the profiler thinks it is, and where. -/
theorem run_on_library (hrun : run (step cfg) evs Thread.init = .ok s) (ha : a.Regular)
    (haccepted : a.accepted = true) (chance : Chance) (r : RegisterInfo) :
    ∃ ess : List (List WatchpointSlots.Event), ess.length = evs.length ∧ ∀ n ≤ evs.length, ∃ sₙ tₙ,
      run (step cfg) (evs.take n) Thread.init = .ok sₙ ∧
      run (WatchpointSlots.eventStep (wpInit true) alloc) (ess.take n).flatten
        (WatchpointSlots.threadInit [r]) = .ok tₙ ∧ Realises tₙ sₙ.watchPoint ∧
      ∀ e es, evs[n]? = some e → ess[n]? = some es → Serves cfg a chance sₙ tₙ e es := by
  obtain ⟨ess, t, hlen, hlib, hrest, hv, hprefix⟩ :=
    run_lockstep halloc hrun ha haccepted chance r
  refine ⟨ess, hlen, fun n hn => ?_⟩
  obtain hn | rfl := hn.lt_or_eq
  · obtain ⟨sₙ, tₙ, es, hrunₙ, hlibₙ, hreal, hes, hserves⟩ :=
      hprefix n evs[n] (List.getElem?_eq_getElem hn)
    refine ⟨sₙ, tₙ, hrunₙ, hlibₙ, hreal, fun e es' he hes' => ?_⟩
    rw [List.getElem?_eq_getElem hn] at he
    obtain rfl := Option.some.inj he
    obtain rfl := Option.some.inj (hes.symm.trans hes')
    exact hserves
  · refine ⟨s, t, by rwa [List.take_length], by rwa [← hlen, List.take_length],
      realises hrest hv, fun e es he => ?_⟩
    rw [List.getElem?_eq_none le_rfl] at he
    cases he

end Realise

theorem run_on_library_callLeaf :
    ∃ s, run (step (oneEventConfig 8)) callLeafRun Thread.init = .ok s ∧
      ∃ ess : List (List WatchpointSlots.Event), ess.length = callLeafRun.length ∧
        ∀ n ≤ callLeafRun.length, ∃ sₙ tₙ,
        run (step (oneEventConfig 8)) (callLeafRun.take n) Thread.init = .ok sₙ ∧
        run (WatchpointSlots.eventStep (wpInit true) WatchpointSlots.nextFd)
          (ess.take n).flatten (WatchpointSlots.threadInit WatchpointSlots.oneSlot) = .ok tₙ ∧
        Realises tₙ sₙ.watchPoint ∧ ∀ e es, callLeafRun[n]? = some e → ess[n]? = some es →
          Serves (oneEventConfig 8) (WatchpointSlots.armedAt 10) ⟨id, fun _ _ => true⟩
            sₙ tₙ e es := by
  obtain ⟨s, hrun⟩ : ∃ s, run (step (oneEventConfig 8)) callLeafRun Thread.init = .ok s := ⟨_, rfl⟩
  have ha : (WatchpointSlots.armedAt 10).Regular :=
    WatchpointSlots.armedAt_regular (by omega) (by omega)
  exact ⟨s, hrun, run_on_library WatchpointSlots.nextFd_allocates hrun ha rfl
    ⟨id, fun _ _ => true⟩ _⟩

end Trace4J.Profiler.SlotRefinement
