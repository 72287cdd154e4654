import MmHalow.Ctrl.System

/-!
# What the calls are made of

Each public call runs through stages of the driver. `Stage.Sets` lists the assignments of each stage and
`Stage.Asks` its questions.

* `steps_body`: **every step of a call is one of its stages'**. What a call leaves alone follows from
  what the assignments of its stages leave alone.
-/

namespace MmHalow.Ctrl

open MmHalow.Lib

/-- The stages of the calls. -/
inductive Stage where
  | init
  | country
  | boot
  | ap
  | raise (itf : Itf)
  | disable (itf : Itf)
  | down (itf : Itf)
  | rest
  | scan
  /-- The calls that are made of nothing else. -/
  | call (c : Call)
  deriving DecidableEq

/-- The assignments of a stage; a value that is read counts as one. -/
inductive Stage.Sets (b : Build) : Stage → (State → State) → Prop
  | load {p : Stage} : Stage.Sets b p id
  -- `mm_halow_init`
  | initItf : Stage.Sets b .init fun s => { s with itfState := fun _ => false }
  | initSweep : Stage.Sets b .init fun s => { s with scanActive := false }
  | initCache : Stage.Sets b .init fun s => { s with scanCache := false }
  | initResults : Stage.Sets b .init fun s => { s with scanResults := [] }
  | initRoom : Stage.Sets b .init fun s => { s with scanCacheMax := 0 }
  | initStas : Stage.Sets b .init fun s => { s with apStas := [] }
  | initLink : Stage.Sets b .init fun s => { s with linkStatus := .down }
  | heap (v : Bool) : Stage.Sets b .init fun s => { s with heap := v }
  | txBuf (v : Bool) : Stage.Sets b .init fun s => { s with txBuf := v }
  | initTimers : Stage.Sets b .init fun s => { s with timerList := false }
  | initted : Stage.Sets b .init fun s => { s with initted := true }
  | poll : Stage.Sets b .init fun s => { s with poll := true }
  -- `mm_halow_set_country`
  | first (c : UInt8) : Stage.Sets b .country fun s => { s with country := (c, s.country.2) }
  | second (c : UInt8) : Stage.Sets b .country fun s => { s with country := (s.country.1, c) }
  | channels (l : ChannelList) : Stage.Sets b .country fun s => { s with channels := some l }
  -- `mm_halow_wifi_set_up(itf, true)`
  | booted : Stage.Sets b .boot fun s => { s with booted := true }
  | apStas : Stage.Sets b .ap fun s => { s with apStas := [] }
  | afterAdd {itf : Itf} : Stage.Sets b (.raise itf) fun s =>
      { s with lwip := b.lwip.afterAdd b.glue itf s.lwip }
  | raised {itf : Itf} : Stage.Sets b (.raise itf) fun s =>
      { s with itfState := Function.update s.itfState itf true }
  | linkUp {itf : Itf} : Stage.Sets b (.raise itf) fun s =>
      { s with lwip := (b.lwip.setLinkUp b.glue itf s.lwip).2 }
  -- `mm_halow_wifi_set_up(itf, false)`
  | disableLink {itf : Itf} : Stage.Sets b (.disable itf) fun s => { s with linkStatus := .down }
  | linkDown {itf : Itf} : Stage.Sets b (.down itf) fun s =>
      { s with lwip := (b.lwip.setLinkDown itf s.lwip).2 }
  | tcpipDeinit {itf : Itf} : Stage.Sets b (.down itf) fun s =>
      { s with lwip := b.lwip.tcpipDeinit b.glue itf s.lwip }
  | lowered {itf : Itf} : Stage.Sets b (.down itf) fun s =>
      { s with itfState := Function.update s.itfState itf false }
  | downTeardown {itf : Itf} (v : Bool) : Stage.Sets b (.down itf) fun s => { s with teardown := v }
  | downBooted {itf : Itf} : Stage.Sets b (.down itf) fun s => { s with booted := false }
  -- the rest of `mm_halow_deinit`
  | teardown (v : Bool) : Stage.Sets b .rest fun s => { s with teardown := v }
  | notBooted : Stage.Sets b .rest fun s => { s with booted := false }
  | noPoll : Stage.Sets b .rest fun s => { s with poll := false }
  | noTasks : Stage.Sets b .rest fun s => { s with taskList := false }
  | noTimers : Stage.Sets b .rest fun s => { s with timerList := false }
  | noHeap : Stage.Sets b .rest fun s => { s with heap := false }
  | noTxBuf : Stage.Sets b .rest fun s => { s with txBuf := false }
  | noCache : Stage.Sets b .rest fun s => { s with scanCache := false }
  | noResults : Stage.Sets b .rest fun s => { s with scanResults := [] }
  | noRoom : Stage.Sets b .rest fun s => { s with scanCacheMax := 0 }
  | noSweep : Stage.Sets b .rest fun s => { s with scanActive := false }
  | notInitted : Stage.Sets b .rest fun s => { s with initted := false }
  | restLink : Stage.Sets b .rest fun s => { s with linkStatus := .down }
  -- `mm_halow_wifi_scan_cached`
  | cache (v : Bool) : Stage.Sets b .scan fun s => { s with scanCache := v }
  | room : Stage.Sets b .scan fun s => { s with scanCacheMax := b.scanCacheMax % 256 }
  | results : Stage.Sets b .scan fun s => { s with scanResults := [] }
  | sweep (v : Bool) : Stage.Sets b .scan fun s => { s with scanActive := v }
  -- the smaller calls
  | pm {mode : UInt32} (v : UInt32) : Stage.Sets b (.call (.pm mode)) fun s => { s with pm := v }
  | ampdu {what : Int} {value : UInt32} (v : Bool) :
      Stage.Sets b (.call (.setRadio what value)) fun s => { s with ampdu := v }
  | sgi {what : Int} {value : UInt32} (v : Bool) :
      Stage.Sets b (.call (.setRadio what value)) fun s => { s with sgi := v }
  | subbands {what : Int} {value : UInt32} (v : Bool) :
      Stage.Sets b (.call (.setRadio what value)) fun s => { s with subbands := v }
  | rts {what : Int} {value : UInt32} (v : UInt32) :
      Stage.Sets b (.call (.setRadio what value)) fun s => { s with rtsThreshold := v }
  | fragment {what : Int} {value : UInt32} (v : UInt32) :
      Stage.Sets b (.call (.setRadio what value)) fun s => { s with fragmentThreshold := v }
  | listen {what : Int} {value : UInt32} (v : UInt16) :
      Stage.Sets b (.call (.setRadio what value)) fun s => { s with listenInterval := v }
  | wnmPowerdown {what : Int} {value : UInt32} (v : Bool) :
      Stage.Sets b (.call (.setRadio what value)) fun s => { s with wnmPowerdown := v }
  | txpower {what : Int} {value : UInt32} (v : UInt16) :
      Stage.Sets b (.call (.setRadio what value)) fun s => { s with txpower := v }
  | psTimeout {ms : UInt32} : Stage.Sets b (.call (.setPsTimeout ms)) fun s => { s with psTimeoutMs := ms }
  | healthMin {min max : UInt32} :
      Stage.Sets b (.call (.setHealthCheck min max)) fun s => { s with healthMinMs := min }
  | healthMax {min max : UInt32} :
      Stage.Sets b (.call (.setHealthCheck min max)) fun s => { s with healthMaxMs := max }
  | dutyCycle {mode : Int} (v : UInt8) :
      Stage.Sets b (.call (.setDutyCycle mode)) fun s => { s with dutyCycleMode := v }
  | apSsid {ssid : List UInt8} (v : List UInt8) :
      Stage.Sets b (.call (.apSetSsid ssid)) fun s => { s with apSsid := v }
  | apKey {key : List UInt8} (v : List UInt8) :
      Stage.Sets b (.call (.apSetPassword key)) fun s => { s with apKey := v }
  | apAuth {auth : UInt32} : Stage.Sets b (.call (.apSetAuth auth)) fun s => { s with apAuth := auth }
  | apChanNum {chan : UInt8} : Stage.Sets b (.call (.apSetChannel chan)) fun s => { s with apChanNum := chan }
  | staSsid {args : StaArgs} : Stage.Sets b (.call (.join args)) fun s => { s with staSsid := args.ssid }
  | joinLink {args : StaArgs} (v : LinkStatus) :
      Stage.Sets b (.call (.join args)) fun s => { s with linkStatus := v }
  | leaveLink {itf : Int} : Stage.Sets b (.call (.leave itf)) fun s => { s with linkStatus := .down }

/-- The functions of morselib that `mm_halow_apply_pm` and `mm_halow_apply_radio` call. -/
def Mmwlan.inPm : Mmwlan → Bool
  | setPowerSaveMode _ | setDynamicPsTimeout _ => true
  | _ => false

def Mmwlan.inRadio : Mmwlan → Bool
  | setAmpduEnabled _ | setSgiEnabled _ | setSubbandsEnabled _ | setRtsThreshold _
  | setFragmentThreshold _ | setListenInterval _ | setHealthCheckInterval _ _ => true
  | _ => false

/-- Those that `mm_halow_init` calls. -/
def Mmwlan.atInit : Mmwlan → Bool
  | init | registerFatalErrorHandler | registerLinkStateCb | registerRxCb _ | getVifMacAddr => true
  | f => f.inPm || f.inRadio

/-- The functions of morselib that a smaller call calls. -/
def Call.tells : Call → Mmwlan → Bool
  | pm _, f => f.inPm
  | setRadio _ _, .setAmpduEnabled _ => true
  | setRadio _ _, .setSgiEnabled _ => true
  | setRadio _ _, .setSubbandsEnabled _ => true
  | setRadio _ _, .setRtsThreshold _ => true
  | setRadio _ _, .setFragmentThreshold _ => true
  | setRadio _ _, .setListenInterval _ => true
  | setRadio _ _, .overrideMaxTxPower _ => true
  | setPsTimeout _, .setDynamicPsTimeout _ => true
  | setHealthCheck _ _, .setHealthCheckInterval _ _ => true
  | setDutyCycle _, .setDutyCycleMode _ => true
  | twt _ _ _, .twtAddConfiguration _ _ _ => true
  | wnmSleep _ _, .setWnmSleepEnabled _ _ => true
  | fixedRate _ _ _, .ateOverrideRateControl _ _ _ => true
  | join _, .scanAbort => true
  | join _, .staEnable _ => true
  | leave _, .apDisable => true
  | leave _, .staDisable => true
  | _, _ => false

/-- The questions of a stage. -/
inductive Stage.Asks (b : Build) : Stage → Ask → Prop
  -- `mm_halow_init`
  | pool : Stage.Asks b .init .portHeapAlloc
  | buffer : Stage.Asks b .init .osalMalloc
  | atInit {f : Mmwlan} (h : f.atInit = true) : Stage.Asks b .init (.mmwlan f)
  -- `mm_halow_wifi_set_up(itf, true)`
  | channels (l : ChannelList) : Stage.Asks b .country (.mmwlan (.setChannelList l))
  | boot : Stage.Asks b .boot (.mmwlan .boot)
  | mac : Stage.Asks b .boot (.mmwlan .getVifMacAddr)
  | apEnable (args : ApArgs) : Stage.Asks b .ap (.mmwlan (.apEnable args))
  | netifAdd {itf : Itf} : Stage.Asks b (.raise itf) (.netifAdd itf)
  -- `mm_halow_wifi_set_up(itf, false)`
  | apDisable : Stage.Asks b (.disable .ap) (.mmwlan .apDisable)
  | staDisable {itf : Itf} : Stage.Asks b (.disable itf) (.mmwlan .staDisable)
  | downShutdown {itf : Itf} : Stage.Asks b (.down itf) (.mmwlan .shutdown)
  -- the rest of `mm_halow_deinit`
  | noRx : Stage.Asks b .rest (.mmwlan (.registerRxCb false))
  | shutdown : Stage.Asks b .rest (.mmwlan .shutdown)
  | deinit : Stage.Asks b .rest (.mmwlan .deinit)
  -- `mm_halow_wifi_scan_cached`
  | cache : Stage.Asks b .scan .osalMalloc
  | request : Stage.Asks b .scan (.mmwlan .scanRequest)
  | complete (ms : Nat) : Stage.Asks b .scan (.schedWait ms)
  -- the smaller calls
  | tells {c : Call} {f : Mmwlan} (h : c.tells f = true) : Stage.Asks b (.call c) (.mmwlan f)
  | aborted {args : StaArgs} (ms : Nat) : Stage.Asks b (.call (.join args)) (.schedWait ms)

/-! ## The steps of the stages -/

variable {b : Build} {ps : List Stage} {stage : Stage} {α : Type}

/-- Every step is one of the stages'. -/
abbrev Steps (b : Build) (ps : List Stage) (p : Halow α) : Prop :=
  p.Within (fun f => f = id ∨ ∃ stage ∈ ps, Stage.Sets b stage f) fun q => ∃ stage ∈ ps, Stage.Asks b stage q

/-- **A property that the stages' steps have is one of the code.** -/
theorem Steps.within {p : Halow α} {F : (State → State) → Prop} {G : Ask → Prop} (h : Steps b ps p)
    (hid : F id) (hF : ∀ stage ∈ ps, ∀ f, Stage.Sets b stage f → F f)
    (hG : ∀ stage ∈ ps, ∀ q, Stage.Asks b stage q → G q) : p.Within F G := by
  refine Proc.Within.mono h ?_ fun q ⟨stage, hm, ha⟩ => hG stage hm q ha
  rintro f (rfl | ⟨stage, hm, hs⟩)
  · exact hid
  · exact hF stage hm f hs

/-- Code of one stage. -/
theorem Steps.one {p : Halow α} {F : (State → State) → Prop} {G : Ask → Prop} (h : Steps b [stage] p)
    (hF : ∀ f, Stage.Sets b stage f → F f) (hG : ∀ q, Stage.Asks b stage q → G q) : p.Within F G := by
  refine h.within (hF id .load) ?_ ?_
  · intro stage' hm
    obtain rfl := List.mem_singleton.mp hm
    exact hF
  · intro stage' hm
    obtain rfl := List.mem_singleton.mp hm
    exact hG

theorem steps_load (g : State → α) : Steps b ps (load g) := Proc.within_load.mpr (.inl rfl)

theorem steps_pure (a : α) : Steps b ps (pure a : Halow α) := trivial

theorem steps_store {f : State → State} (hm : stage ∈ ps) (h : Stage.Sets b stage f) : Steps b ps (store f) :=
  Proc.within_store.mpr (.inr ⟨stage, hm, h⟩)

theorem steps_request {q : Ask} (hm : stage ∈ ps) (h : Stage.Asks b stage q) : Steps b ps (Proc.request q) :=
  Proc.within_request.mpr ⟨stage, hm, h⟩

theorem steps_tell {f : Mmwlan} (hm : stage ∈ ps) (h : Stage.Asks b stage (.mmwlan f)) : Steps b ps (tell f) :=
  .bind (steps_request hm h) fun _ => trivial

theorem steps_errnoOf {f : Mmwlan} (hm : stage ∈ ps) (h : Stage.Asks b stage (.mmwlan f)) :
    Steps b ps (errnoOf (mmwlan f)) :=
  .bind (steps_request hm h) fun _ => trivial

theorem steps_onlyIf {g : Bool} {p : Halow Unit} (h : Steps b ps p) : Steps b ps (onlyIf g p) :=
  .ite h trivial

/-- Applying the settings only reads and asks. -/
theorem within_applyPm : applyPm.Within (· = id) fun q => ∃ f, q = .mmwlan f ∧ f.inPm = true := by
  refine .bind (Proc.within_load.mpr rfl) fun pm => .bind (Proc.within_request.mpr ⟨_, rfl, rfl⟩) fun st =>
    .ite trivial (.bind (Proc.within_load.mpr rfl) fun ms => ?_)
  exact .bind (Proc.within_request.mpr ⟨_, rfl, rfl⟩) fun st => trivial

theorem within_applyRadio : applyRadio.Within (· = id) fun q => ∃ f, q = .mmwlan f ∧ f.inRadio = true := by
  have hload : ∀ {α : Type} (g : State → α), (load g).Within (· = id)
      fun q => ∃ f, q = .mmwlan f ∧ f.inRadio = true := fun _ => Proc.within_load.mpr rfl
  have htell : ∀ {f : Mmwlan}, f.inRadio = true → (tell f).Within (· = id)
      fun q => ∃ f, q = .mmwlan f ∧ f.inRadio = true := fun h =>
    .bind (Proc.within_request.mpr ⟨_, rfl, h⟩) fun _ => trivial
  unfold applyRadio onlyIf
  repeat' first
    | exact hload _
    | exact htell rfl
    | exact Proc.Within.ite (htell rfl) trivial
    | refine Proc.Within.bind ?_ fun _ => ?_

theorem steps_applyPm (hm : stage ∈ ps) (h : ∀ f, f.inPm = true → Stage.Asks b stage (.mmwlan f)) :
    Steps b ps applyPm :=
  within_applyPm.mono (fun _ hf => .inl hf) fun _ ⟨f, hq, hf⟩ => ⟨stage, hm, hq ▸ h f hf⟩

theorem steps_applyRadio (hm : stage ∈ ps) (h : ∀ f, f.inRadio = true → Stage.Asks b stage (.mmwlan f)) :
    Steps b ps applyRadio :=
  within_applyRadio.mono (fun _ hf => .inl hf) fun _ ⟨f, hq, hf⟩ => ⟨stage, hm, hq ▸ h f hf⟩

theorem steps_osalInit (hm : .init ∈ ps) : Steps b ps osalInit :=
  .bind (steps_load _) fun _ => .ite trivial (.bind (steps_request hm .pool) fun pool =>
    .bind (steps_store hm (.heap pool)) fun _ => trivial)

theorem atInit_of_inPm {f : Mmwlan} (h : f.inPm = true) : f.atInit = true := by
  cases f <;> first | rfl | exact absurd h Bool.false_ne_true

theorem atInit_of_inRadio {f : Mmwlan} (h : f.inRadio = true) : f.atInit = true := by
  cases f <;> first | rfl | exact absurd h Bool.false_ne_true

theorem steps_initDriver (hm : .init ∈ ps) : Steps b ps (initDriver b) := by
  have hfail : Steps b ps osalDeinit :=
    .bind (steps_store hm .initTimers) fun _ => steps_store hm (.heap false)
  refine .bind (steps_load _) fun _ => .ite trivial ?_
  refine .bind (steps_store hm .initItf) fun _ => .bind (steps_store hm .initSweep) fun _ => ?_
  refine .bind (steps_store hm .initCache) fun _ => .bind (steps_store hm .initResults) fun _ => ?_
  refine .bind (steps_store hm .initRoom) fun _ => .bind (steps_onlyIf (steps_store hm .initStas)) fun _ => ?_
  refine .bind (steps_store hm .initLink) fun _ => .bind (steps_osalInit hm) fun _ => .ite trivial ?_
  refine .bind (steps_request hm .buffer) fun block => .bind (steps_store hm (.txBuf block)) fun _ => ?_
  refine .ite (.bind hfail fun _ => trivial) (.bind (steps_tell hm (.atInit rfl)) fun _ => ?_)
  refine .bind (steps_applyPm hm fun f hf => .atInit (atInit_of_inPm hf)) fun _ => ?_
  refine .bind (steps_applyRadio hm fun f hf => .atInit (atInit_of_inRadio hf)) fun _ => ?_
  refine .bind (steps_tell hm (.atInit rfl)) fun _ => .bind (steps_tell hm (.atInit rfl)) fun _ => ?_
  refine .bind (steps_tell hm (.atInit rfl)) fun _ => .bind (steps_tell hm (.atInit rfl)) fun _ => ?_
  exact .bind (steps_store hm .initted) fun _ => .bind (steps_store hm .poll) fun _ => trivial

theorem steps_setCountry {country : List UInt8} (hm : .country ∈ ps) :
    Steps b ps (setCountry b country) := by
  unfold setCountry
  cases b.lookup country with
  | none => trivial
  | some l =>
    exact .bind (steps_store hm (.first _)) fun _ => .bind (steps_store hm (.second _)) fun _ =>
      .bind (steps_store hm (.channels l)) fun _ => steps_errnoOf hm (.channels l)

theorem steps_apEnable (hm : .ap ∈ ps) : Steps b ps (apEnable b) := by
  have hstart : ∀ ch, Steps b ps (apStart ch) := fun ch =>
    .bind (steps_store hm .apStas) fun _ => .bind (steps_load _) fun _ => .bind (steps_load _) fun _ =>
      .bind (steps_load _) fun _ => .ite trivial (steps_errnoOf hm (.apEnable _))
  refine .bind (steps_load _) fun _ => .ite trivial (.bind (steps_load _) fun _ => .ite trivial
    (.bind (steps_load _) fun _ => .ite (.bind (steps_load _) fun ch => ?_) (hstart _)))
  cases ch with
  | none => trivial
  | some ch => exact hstart _

theorem steps_raise {itf : Itf} (hm : .raise itf ∈ ps) : Steps b ps (raise b itf) := by
  have hinit : Steps b ps (tcpipInit b itf) :=
    .bind (steps_request hm .netifAdd) fun _ => steps_store hm .afterAdd
  exact .bind (steps_load _) fun _ => .bind (steps_onlyIf (.bind hinit fun _ => steps_store hm .raised))
    fun _ => .bind (steps_onlyIf (steps_store hm .linkUp)) fun _ => trivial

/-- The stages of bringing an interface up, once the channel list is set. -/
def Itf.upStages : Itf → List Stage
  | .sta => [.boot, .raise .sta]
  | .ap => [.boot, .raise .ap, .ap]

theorem mem_upStages {itf : Itf} :
    stage ∈ itf.upStages ↔ stage = .boot ∨ stage = .raise itf ∨ stage = .ap ∧ itf = .ap := by
  cases itf <;> simp [Itf.upStages]

theorem steps_bringUp {itf : Itf} (hsub : itf.upStages ⊆ ps) : Steps b ps (bringUp b itf) := by
  have hboot : .boot ∈ ps := hsub (mem_upStages.mpr (.inl rfl))
  have hraise : .raise itf ∈ ps := hsub (mem_upStages.mpr (.inr (.inl rfl)))
  have hafter : Steps b ps (bringUp.afterBoot b itf) := by
    unfold bringUp.afterBoot
    split_ifs with hap
    · obtain rfl : itf = .ap := hap.2
      exact .bind (steps_apEnable (hsub (mem_upStages.mpr (.inr (.inr ⟨rfl, rfl⟩))))) fun _ =>
        .ite trivial (steps_raise hraise)
    · exact steps_raise hraise
  refine .bind (steps_load _) fun _ => .ite ?_ hafter
  refine .bind (steps_request hboot .boot) fun _ => .ite trivial ?_
  exact .bind (steps_store hboot .booted) fun _ => .bind (steps_tell hboot .mac) fun _ => hafter

theorem steps_disable {itf : Itf} (hm : .disable itf ∈ ps) : Steps b ps (disable b itf) := by
  unfold disable
  split_ifs with hap
  · obtain rfl : itf = .ap := hap.2
    exact steps_tell hm .apDisable
  · exact .bind (steps_tell hm .staDisable) fun _ => steps_store hm .disableLink

/-- What follows it. -/
theorem steps_lower {itf : Itf} (hm : .down itf ∈ ps) : Steps b ps (do
    let isUp ← load (·.itfState itf)
    onlyIf isUp do
      store fun s => { s with lwip := (b.lwip.setLinkDown itf s.lwip).2 }
      store fun s => { s with lwip := b.lwip.tcpipDeinit b.glue itf s.lwip }
      store fun s => { s with itfState := Function.update s.itfState itf false }
    let last ← load (·.noItf)
    onlyIf last do
      store fun s => { s with teardown := true }
      tell .shutdown
      store fun s => { s with teardown := false }
      store fun s => { s with booted := false }
    return Ret.ok) := by
  refine .bind (steps_load _) fun _ => .bind (steps_onlyIf ?_) fun _ =>
    .bind (steps_load _) fun _ => .bind (steps_onlyIf ?_) fun _ => trivial
  · exact .bind (steps_store hm .linkDown) fun _ => .bind (steps_store hm .tcpipDeinit) fun _ =>
      steps_store hm .lowered
  · exact .bind (steps_store hm (.downTeardown true)) fun _ => .bind (steps_tell hm .downShutdown) fun _ =>
      .bind (steps_store hm (.downTeardown false)) fun _ => steps_store hm .downBooted

/-- The stages of taking an interface down. -/
def Itf.downStages (itf : Itf) : List Stage := [.disable itf, .down itf]

theorem mem_downStages {itf : Itf} : stage ∈ itf.downStages ↔ stage = .disable itf ∨ stage = .down itf := by
  simp [Itf.downStages]

theorem steps_takeDown {itf : Itf} (hsub : itf.downStages ⊆ ps) : Steps b ps (takeDown b itf) := by
  have hdisable : .disable itf ∈ ps := hsub (mem_downStages.mpr (.inl rfl))
  have hdown : .down itf ∈ ps := hsub (mem_downStages.mpr (.inr rfl))
  exact .bind (steps_disable hdisable) fun _ => steps_lower hdown

theorem steps_deinitRest (hm : .rest ∈ ps) : Steps b ps deinitRest := by
  refine .bind (steps_tell hm .noRx) fun _ => .bind (steps_store hm (.teardown true)) fun _ => ?_
  refine .bind (steps_tell hm .shutdown) fun _ => .bind (steps_tell hm .deinit) fun _ => ?_
  refine .bind (steps_store hm (.teardown false)) fun _ => .bind (steps_store hm .notBooted) fun _ => ?_
  refine .bind (steps_store hm .noPoll) fun _ => .bind (steps_store hm .noTasks) fun _ => ?_
  refine .bind (.bind (steps_store hm .noTimers) fun _ => steps_store hm .noHeap) fun _ => ?_
  refine .bind (steps_store hm .noTxBuf) fun _ => .bind (steps_store hm .noCache) fun _ => ?_
  refine .bind (steps_store hm .noResults) fun _ => .bind (steps_store hm .noRoom) fun _ => ?_
  exact .bind (steps_store hm .noSweep) fun _ => .bind (steps_store hm .notInitted) fun _ =>
    steps_store hm .restLink

theorem steps_scanCached {max : Nat} (hm : .scan ∈ ps) : Steps b ps (wifiScanCached b max) := by
  have hstart : Steps b ps scanStartLocked :=
    .bind (steps_store hm (.sweep true)) fun _ => .bind (steps_request hm .request) fun _ =>
      .ite (.bind (steps_store hm (.sweep false)) fun _ => trivial) trivial
  have hensure : Steps b ps ensureSweep :=
    .bind (steps_load _) fun _ => .ite (.bind (steps_store hm .results) fun _ => hstart) trivial
  have hsweep : Steps b ps (sweep max) :=
    .bind hensure fun _ => .ite trivial (.bind (steps_request hm (.complete _)) fun _ =>
      .bind (steps_load _) fun _ => trivial)
  refine .bind (steps_load _) fun _ => .ite trivial (.bind (steps_load _) fun _ => .ite ?_ hsweep)
  exact .bind (steps_request hm .cache) fun block => .bind (steps_store hm (.cache block)) fun _ =>
    .ite trivial (.bind (steps_store hm .room) fun _ => hsweep)

/-! ## The steps of the calls -/

/-- The stages of `mm_halow_wifi_set_up`. -/
def Itf.stages (itf : Itf) (up : Bool) : List Stage :=
  if up then .init :: .country :: itf.upStages else itf.downStages

/-- The stages of a call. -/
def Call.stages : Call → List Stage
  | init => [.init]
  | deinit => [.disable .sta, .down .sta, .disable .ap, .down .ap, .rest]
  | setUp itf up _ => ((Itf.ofInt itf).map (·.stages up)).getD []
  | scanCached _ => [.scan]
  | c => [.call c]

/-- A small call is a stage of no other. -/
theorem eq_of_mem_stages {c d : Call} (h : .call d ∈ c.stages) : d = c := by
  have hup : ∀ itf : Itf, ∀ up, .call d ∉ itf.stages up := by
    intro itf up
    cases up <;> cases itf <;> simp [Itf.stages, Itf.upStages, Itf.downStages]
  cases c with
  | setUp itf up country =>
    cases hitf : Itf.ofInt itf with
    | none => simp [Call.stages, hitf] at h
    | some itf =>
      simp only [Call.stages, hitf, Option.map_some, Option.getD_some] at h
      exact absurd h (hup itf up)
  | init => simp [Call.stages] at h
  | deinit => simp [Call.stages] at h
  | scanCached max => simp [Call.stages] at h
  | _ => exact Stage.call.inj (List.mem_singleton.mp h)

theorem steps_ensureInit (hm : .init ∈ ps) : Steps b ps (ensureInit b) :=
  .bind (steps_load _) fun _ => .ite (steps_initDriver hm) trivial

theorem steps_setUpItf {itf : Itf} {up : Bool} {country : List UInt8} (hsub : itf.stages up ⊆ ps) :
    Steps b ps (setUpItf b itf up country) := by
  cases up with
  | true =>
    obtain ⟨hinit, hcountry, hup⟩ := by simpa only [Itf.stages, if_true, List.cons_subset] using hsub
    refine .bind (steps_load _) fun _ => .ite trivial (.bind (steps_ensureInit hinit) fun _ => .ite trivial ?_)
    exact .bind (steps_setCountry hcountry) fun _ => .ite trivial (steps_bringUp hup)
  | false =>
    exact .bind (steps_load _) fun _ => .ite trivial (steps_takeDown hsub)

theorem steps_deinitDriver (hdown : ∀ itf : Itf, itf.downStages ⊆ ps) (hm : .rest ∈ ps) :
    Steps b ps (deinitDriver b) := by
  have hitf : ∀ itf, Steps b ps (deinitItf b itf) := fun itf =>
    .bind (steps_load _) fun _ => steps_onlyIf (.bind (steps_load _) fun country =>
      .bind (steps_setUpItf (hdown itf)) fun _ => trivial)
  refine .bind (steps_load _) fun _ => .ite trivial (.bind (steps_load _) fun _ => .ite trivial ?_)
  exact .bind (hitf .sta) fun _ => .bind (hitf .ap) fun _ => .bind (steps_deinitRest hm) fun _ => trivial

/-- The calls that are stages of their own. -/
def Call.small : Call → Bool
  | init | deinit | setUp _ _ _ | scanCached _ => false
  | _ => true

theorem steps_call {c : Call} (h : c.small = true) (hm : .call c ∈ ps) : Steps b ps (c.body b) := by
  have hpm : ∀ {mode : UInt32}, .call (.pm mode) ∈ ps → Steps b ps applyPm := fun hm =>
    steps_applyPm hm fun _ hf => .tells hf
  cases c <;> first
    | exact absurd h Bool.false_ne_true
    | simp only [Call.body, wifiJoin, joinWith, wifiLeave, wifiPm, wifiSetRadio, wifiSetPsTimeout,
        wifiSetHealthCheck, wifiSetDutyCycle, wifiTwt, wifiWnmSleep, wifiFixedRate, wifiApSetSsid,
        wifiApSetPassword, wifiApSetAuth, wifiApSetChannel]
  all_goals
    repeat' first
      | with_reducible refine Proc.Within.bind ?_ fun _ => ?_
      | with_reducible refine Proc.Within.ite ?_ ?_
      | with_reducible exact steps_load _
      | with_reducible exact steps_pure _
      | with_reducible exact hpm hm
      | with_reducible refine steps_onlyIf ?_
      | exact steps_tell hm (.tells rfl)
      | exact steps_errnoOf hm (.tells rfl)
      | exact steps_request hm (.tells rfl)
      | exact steps_request hm (.aborted _)
      | exact steps_store hm (by constructor)

/-- **Every step of a call is one of its stages'.** -/
theorem steps_body (c : Call) : Steps b c.stages (c.body b) := by
  cases c with
  | init => exact steps_initDriver (List.mem_singleton.mpr rfl)
  | deinit =>
    refine steps_deinitDriver (fun itf => ?_) (by simp [Call.stages])
    cases itf <;> simp [Itf.downStages, Call.stages]
  | setUp itf up country =>
    change Steps b _ (wifiSetUp b itf up country)
    unfold wifiSetUp
    cases hitf : Itf.ofInt itf with
    | none => trivial
    | some itf =>
      refine steps_setUpItf ?_
      simp only [Call.stages, hitf, Option.map_some, Option.getD_some]
      exact List.Subset.refl _
  | scanCached max => exact steps_scanCached (List.mem_singleton.mpr rfl)
  | _ => exact steps_call rfl (List.mem_singleton.mpr rfl)

end MmHalow.Ctrl
