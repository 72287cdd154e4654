import MmHalow.Ctrl.State

/-!
# The functions of the control layer (`mm_halow_ctrl.c`)

Each function is code (`Halow`) that reads or assigns fields in one step and asks for what it calls
outside of the driver. An early return of the source is a branch that ends.

| source                                    | here                              |
|-------------------------------------------|-----------------------------------|
| `mm_halow_init`, `mm_halow_deinit`        | `initDriver`, `deinitDriver`      |
| `mm_halow_set_country`                    | `setCountry`                      |
| `mm_halow_ap_channel`, `mm_halow_ap_enable` | `apChannel`, `apEnable`         |
| `mm_halow_wifi_set_up`                    | `wifiSetUp`                       |
| `mm_halow_wifi_scan_cached`, `mm_halow_scan_start_locked` | `wifiScanCached`, `scanStartLocked` |
| `mm_halow_wifi_join`, `mm_halow_wifi_leave` | `wifiJoin`, `wifiLeave`         |
| `mm_halow_wifi_link_status`               | `wifiLinkStatus`                  |
| `mm_halow_apply_radio`, `mm_halow_apply_pm` | `applyRadio`, `applyPm`         |
| `mm_halow_wifi_pm` and the other setters  | `wifiPm`, `wifiSetRadio`, ...     |

`mm_halow_wifi_ate_command` and the getters are left out: they change nothing of the driver's.
-/

namespace MmHalow.Ctrl

open MmHalow.Lib

/-- Code of the control layer. -/
abbrev Halow (α : Type) := Proc State Ask Ask.Ans α

/-- An assignment. -/
abbrev store (f : State → State) : Halow Unit := .store f

/-- A value that is read. -/
abbrev load {α : Type} (g : State → α) : Halow α := .load g

/-- A call of morselib. -/
def mmwlan (f : Mmwlan) : Halow Status := .request (Ask.mmwlan f)

/-- A call of morselib whose status nobody looks at. -/
def tell (f : Mmwlan) : Halow Unit := do
  let _ ← mmwlan f
  return ()

/-- `mm_halow_sched_wait(mm_halow_scan_idle_cond, self, ms)`. -/
def schedWaitIdle (ms : Nat) : Halow Bool := .request (Ask.schedWait ms)

/-- `mm_halow_port_heap_alloc`, which `mm_halow_osal_init` calls. -/
def portHeapAlloc : Halow Bool := .request Ask.portHeapAlloc

/-- `mm_halow_osal_malloc`, of a block that is not empty. -/
def osalMalloc : Halow Bool := .request Ask.osalMalloc

/-- `netif_add`, which asks for the MAC address on its way. -/
def netifAdd (itf : Itf) : Halow Unit := .request (Ask.netifAdd itf)

/-- An `if` without an `else`. -/
def onlyIf (c : Bool) (p : Halow Unit) : Halow Unit := if c then p else return ()

/-- `return mm_halow_status_to_errno(status)`. -/
def errnoOf (p : Halow Status) : Halow Ret := do
  let status ← p
  return statusToErrno status

/-! ## Settings -/

/-- `mm_halow_apply_radio`. -/
def applyRadio : Halow Unit := do
  tell (.setAmpduEnabled (← load (·.ampdu)))
  tell (.setSgiEnabled (← load (·.sgi)))
  tell (.setSubbandsEnabled (← load (·.subbands)))
  let rts ← load (·.rtsThreshold)
  onlyIf (rts ≠ 0) (tell (.setRtsThreshold rts))
  let fragment ← load (·.fragmentThreshold)
  onlyIf (fragment ≠ 0) (tell (.setFragmentThreshold fragment))
  let listen ← load (·.listenInterval)
  onlyIf (listen ≠ 0) (tell (.setListenInterval listen))
  let healthMax ← load (·.healthMaxMs)
  let healthMin ← load (·.healthMinMs)
  onlyIf (healthMax ≠ 0) (tell (.setHealthCheckInterval healthMin healthMax))

/-- `mm_halow_apply_pm`. -/
def applyPm : Halow Ret := do
  let pm ← load (·.pm)
  let status ← mmwlan (.setPowerSaveMode (pm != pmNone))
  if status ≠ .success then return statusToErrno status
  else
    let status ← mmwlan (.setDynamicPsTimeout (← load (·.psTimeoutMs)))
    return statusToErrno status

/-- `mm_halow_wifi_pm`. -/
def wifiPm (b : Build) (pm : UInt32) : Halow Ret := do
  let apUp ← load (·.itfState .ap)
  if b.enableAp ∧ pm ≠ pmNone ∧ apUp then return .err .eperm
  else
    let prev ← load (·.pm)
    store fun s => { s with pm := pm }
    if ← load (·.booted) then
      let ret ← applyPm
      if ret ≠ .ok then
        store fun s => { s with pm := prev }
        return ret
      else return .ok
    else return .ok

/-- `mm_halow_wifi_set_radio`, by `MM_HALOW_RADIO_AMPDU` and its siblings. -/
def wifiSetRadio (what : Int) (value : UInt32) : Halow Ret := do
  let booted ← load (·.booted)
  let down ← load (·.linkStatus == .down)
  let live := booted && down
  if what = 0 then
    store fun s => { s with ampdu := value != 0 }
    if live then errnoOf (mmwlan (.setAmpduEnabled (value != 0))) else return .ok
  else if what = 1 then
    store fun s => { s with sgi := value != 0 }
    if live then errnoOf (mmwlan (.setSgiEnabled (value != 0))) else return .ok
  else if what = 2 then
    store fun s => { s with subbands := value != 0 }
    if live then errnoOf (mmwlan (.setSubbandsEnabled (value != 0))) else return .ok
  else if what = 3 then
    store fun s => { s with rtsThreshold := value }
    if ← load (·.booted) then errnoOf (mmwlan (.setRtsThreshold value)) else return .ok
  else if what = 4 then
    store fun s => { s with fragmentThreshold := value }
    if ← load (·.booted) then errnoOf (mmwlan (.setFragmentThreshold value)) else return .ok
  else if what = 5 then
    store fun s => { s with listenInterval := value.toUInt16 }
    if live then errnoOf (mmwlan (.setListenInterval value.toUInt16)) else return .ok
  else if what = 6 then
    store fun s => { s with wnmPowerdown := value != 0 }
    return .ok
  else if what = 7 then
    store fun s => { s with txpower := value.toUInt16 }
    if ← load (·.booted) then errnoOf (mmwlan (.overrideMaxTxPower value.toUInt16)) else return .ok
  else return .err .einval

/-- `mm_halow_wifi_set_duty_cycle`, by `MM_HALOW_DUTY_CYCLE_SPREAD` and `MM_HALOW_DUTY_CYCLE_BURST`. -/
def wifiSetDutyCycle (mode : Int) : Halow Ret := do
  store fun s => { s with dutyCycleMode := UInt8.ofInt mode }
  if !(← load (·.booted)) then return .err .enodev
  else if mode ≠ 0 ∧ mode ≠ 1 then return .err .einval
  else errnoOf (mmwlan (.setDutyCycleMode (UInt8.ofInt mode)))

/-- `mm_halow_wifi_set_health_check`. -/
def wifiSetHealthCheck (min max : UInt32) : Halow Ret := do
  if max ≠ 0 ∧ min > max then return .err .einval
  else
    store fun s => { s with healthMinMs := min }
    store fun s => { s with healthMaxMs := max }
    if ← load (·.booted) then errnoOf (mmwlan (.setHealthCheckInterval min max)) else return .ok

/-- `mm_halow_wifi_set_ps_timeout`. -/
def wifiSetPsTimeout (ms : UInt32) : Halow Ret := do
  if ms = 0 then return .err .einval
  else if ← load (·.booted) then
    let status ← mmwlan (.setDynamicPsTimeout ms)
    if status ≠ .success then return statusToErrno status
    else
      store fun s => { s with psTimeoutMs := ms }
      return .ok
  else
    store fun s => { s with psTimeoutMs := ms }
    return .ok

/-- `mm_halow_wifi_twt`, by `MM_HALOW_TWT_REQUEST` to `MM_HALOW_TWT_DEMAND`. -/
def wifiTwt (interval : UInt64) (duration : UInt32) (setup : Int) : Halow Ret := do
  if !(← load (·.booted)) then return .err .enodev
  else if (← load (·.linkStatus)) ≠ .down then return .err .eperm
  else if setup < 0 ∨ setup > 2 then return .err .einval
  else if interval = 0 ∨ duration = 0 ∨ duration.toUInt64 > interval then return .err .einval
  else errnoOf (mmwlan (.twtAddConfiguration interval duration setup))

/-- `mm_halow_wifi_wnm_sleep`. -/
def wifiWnmSleep (enable powerdown : Bool) : Halow Ret := do
  let pm ← load (·.pm)
  let link ← load (·.linkStatus)
  if enable ∧ pm = pmNone then return .err .eperm
  else if enable ∧ link ≠ .up ∧ link ≠ .noip then return .err .enotconn
  else errnoOf (mmwlan (.setWnmSleepEnabled enable powerdown))

/-- `mm_halow_wifi_fixed_rate`. -/
def wifiFixedRate (b : Build) (mcs bw gi : Int) : Halow Ret := do
  if !(← load (·.booted)) then return .err .enodev
  else if !b.fixedRateOk mcs bw gi then return .err .einval
  else errnoOf (mmwlan (.ateOverrideRateControl mcs bw gi))

/-- `mm_halow_wifi_ap_set_ssid`. -/
def wifiApSetSsid (b : Build) (ssid : List UInt8) : Halow Ret := do
  store fun s => { s with apSsid := ssid.take b.ssidMaxlen }
  return .ok

/-- `mm_halow_wifi_ap_set_password`. -/
def wifiApSetPassword (b : Build) (key : List UInt8) : Halow Ret := do
  store fun s => { s with apKey := key.take b.passphraseMaxlen }
  return .ok

/-- `mm_halow_wifi_ap_set_auth`. -/
def wifiApSetAuth (auth : UInt32) : Halow Ret := do
  store fun s => { s with apAuth := auth }
  return .ok

/-- `mm_halow_wifi_ap_set_channel`. -/
def wifiApSetChannel (chan : UInt8) : Halow Ret := do
  store fun s => { s with apChanNum := chan }
  return .ok

/-! ## Bringing interfaces up and down -/

/-- `mm_halow_osal_init`: a pool that is there stays. -/
def osalInit : Halow Bool := do
  if ← load (·.heap) then return true
  else
    let pool ← portHeapAlloc
    store fun s => { s with heap := pool }
    return pool

/-- `mm_halow_osal_deinit`. -/
def osalDeinit : Halow Unit := do
  store fun s => { s with timerList := false }
  store fun s => { s with heap := false }

/-- `mm_halow_init`. -/
def initDriver (b : Build) : Halow Ret := do
  if ← load (·.initted) then return .ok
  else
    store fun s => { s with itfState := fun _ => false }
    store fun s => { s with scanActive := false }
    store fun s => { s with scanCache := false }
    store fun s => { s with scanResults := [] }
    store fun s => { s with scanCacheMax := 0 }
    onlyIf b.enableAp (store fun s => { s with apStas := [] })
    store fun s => { s with linkStatus := .down }
    if !(← osalInit) then return .err .enomem
    else
      let block ← osalMalloc
      store fun s => { s with txBuf := block }
      if !block then
        osalDeinit
        return .err .enomem
      else
        tell .init
        let _ ← applyPm
        applyRadio
        tell .registerFatalErrorHandler
        tell .registerLinkStateCb
        tell (.registerRxCb true)
        tell .getVifMacAddr
        store fun s => { s with initted := true }
        store fun s => { s with poll := true }
        return .ok

/-- What `self->country` keeps of a country. -/
def letters (country : List UInt8) : Letters := (country.getD 0 0, country.getD 1 0)

/-- `mm_halow_set_country`. -/
def setCountry (b : Build) (country : List UInt8) : Halow Ret := do
  match b.lookup country with
  | none => return .err .einval
  | some channels =>
    store fun s => { s with country := ((letters country).1, s.country.2) }
    store fun s => { s with country := (s.country.1, (letters country).2) }
    store fun s => { s with channels := some channels }
    errnoOf (mmwlan (.setChannelList channels))

/-- The widest channel of a list, the first of them. -/
def widest : ChannelList → Option Channel
  | [] => none
  | ch :: chs => some (chs.foldl (fun best ch => if ch.bwMhz > best.bwMhz then ch else best) ch)

/-- `mm_halow_ap_channel`. -/
def apChannel (chanNum : UInt8) (channels : Option ChannelList) : Option Channel :=
  match channels with
  | none => none
  | some list => if chanNum ≠ 0 then list.find? (·.s1gChanNum = chanNum) else widest list

/-- The operating class and number of the access point's channel. -/
def Channel.args (b : Build) (ch : Channel) : Int × UInt8 :=
  (if ch.s1gOperatingClass ≠ b.skipOpClassCheck then ch.s1gOperatingClass else ch.globalOperatingClass,
    ch.s1gChanNum)

/-- `mm_halow_ap_enable`, from where the channel has been chosen. -/
def apStart (channel : Option (Int × UInt8)) : Halow Ret := do
  store fun s => { s with apStas := [] }
  let ssid ← load (·.apSsid)
  let auth ← load (·.apAuth)
  let key ← load (·.apKey)
  if auth = secSae ∧ key = [] then return .err .einval
  else errnoOf (mmwlan (.apEnable ⟨channel, ssid, auth, if auth = secSae then key else []⟩))

/-- `mm_halow_ap_enable`. -/
def apEnable (b : Build) : Halow Ret := do
  if (← load (·.pm)) ≠ pmNone then return .err .eperm
  else if (← load (·.apSsid)) = [] then return .err .einval
  else if !(← load (·.itfState .sta)) then
    match ← load fun s => apChannel s.apChanNum s.channels with
    | none => return .err .enodev
    | some ch => apStart (some (ch.args b))
  else apStart none

/-- `mm_halow_cb_tcpip_init`. -/
def tcpipInit (b : Build) (itf : Itf) : Halow Unit := do
  netifAdd itf
  store fun s => { s with lwip := b.lwip.afterAdd b.glue itf s.lwip }

/-- `mm_halow_wifi_set_up(itf, true)`, from where the transceiver runs. -/
def raise (b : Build) (itf : Itf) : Halow Ret := do
  let isUp ← load (·.itfState itf)
  onlyIf (!isUp) do
    tcpipInit b itf
    store fun s => { s with itfState := Function.update s.itfState itf true }
  onlyIf (b.enableAp ∧ itf = .ap) (store fun s =>
    { s with lwip := (b.lwip.setLinkUp b.glue itf s.lwip).2 })
  return .ok

/-- `mm_halow_wifi_set_up(itf, true)`, from where the channel list is set. -/
def bringUp (b : Build) (itf : Itf) : Halow Ret := do
  if !(← load (·.booted)) then
    let status ← mmwlan .boot
    if status ≠ .success then return statusToErrno status
    else
      store fun s => { s with booted := true }
      tell .getVifMacAddr
      afterBoot
  else afterBoot
where
  /-- What follows the boot. -/
  afterBoot : Halow Ret := do
    if b.enableAp ∧ itf = .ap then
      let ret ← apEnable b
      if ret ≠ .ok then return ret else raise b itf
    else raise b itf

/-- `mm_halow_wifi_set_up(itf, false)`, of what is compiled differently: without AP support the
station is disabled for either interface. -/
def disable (b : Build) (itf : Itf) : Halow Unit :=
  if b.enableAp ∧ itf = .ap then tell .apDisable
  else do
    tell .staDisable
    store fun s => { s with linkStatus := .down }

/-- `mm_halow_wifi_set_up(itf, false)`, of an interface of an initialised driver. -/
def takeDown (b : Build) (itf : Itf) : Halow Ret := do
  disable b itf
  let isUp ← load (·.itfState itf)
  onlyIf isUp do
    store fun s => { s with lwip := (b.lwip.setLinkDown itf s.lwip).2 }
    store fun s => { s with lwip := b.lwip.tcpipDeinit b.glue itf s.lwip }
    store fun s => { s with itfState := Function.update s.itfState itf false }
  let last ← load (·.noItf)
  onlyIf last do
    store fun s => { s with teardown := true }
    tell .shutdown
    store fun s => { s with teardown := false }
    store fun s => { s with booted := false }
  return .ok

/-- `mm_halow_init`, unless the driver is initialised. -/
def ensureInit (b : Build) : Halow Ret := do
  if !(← load (·.initted)) then initDriver b else return .ok

/-- `mm_halow_wifi_set_up`, of an interface of the driver. -/
def setUpItf (b : Build) (itf : Itf) (up : Bool) (country : List UInt8) : Halow Ret := do
  if up then
    if ← load (·.itfState itf) then return .ok
    else
      let ret ← ensureInit b
      if ret ≠ .ok then return ret
      else
        let ret ← setCountry b country
        if ret ≠ .ok then return ret else bringUp b itf
  else if !(← load (·.initted)) then return .ok
  else takeDown b itf

theorem setUpItf_false {b : Build} {itf : Itf} {country : List UInt8} :
    setUpItf b itf false country = (do
      if !(← load (·.initted)) then return .ok
      else takeDown b itf) := rfl

/-- **`mm_halow_wifi_set_up`.** -/
def wifiSetUp (b : Build) (itf : Int) (up : Bool) (country : List UInt8) : Halow Ret :=
  match Itf.ofInt itf with
  | none => return .err .einval
  | some itf => setUpItf b itf up country

/-- One round of the loop of `mm_halow_deinit`. -/
def deinitItf (b : Build) (itf : Itf) : Halow Unit := do
  let isUp ← load (·.itfState itf)
  onlyIf isUp do
    let country ← load fun s => [s.country.1, s.country.2]
    let _ ← setUpItf b itf false country
    return ()

/-- `mm_halow_deinit`, from where the interfaces are down. -/
def deinitRest : Halow Unit := do
  tell (.registerRxCb false)
  store fun s => { s with teardown := true }
  tell .shutdown
  tell .deinit
  store fun s => { s with teardown := false }
  store fun s => { s with booted := false }
  store fun s => { s with poll := false }
  -- `mm_halow_sched_deinit`
  store fun s => { s with taskList := false }
  osalDeinit
  store fun s => { s with txBuf := false }
  store fun s => { s with scanCache := false }
  store fun s => { s with scanResults := [] }
  store fun s => { s with scanCacheMax := 0 }
  store fun s => { s with scanActive := false }
  store fun s => { s with initted := false }
  store fun s => { s with linkStatus := .down }

/-- **`mm_halow_deinit`.** -/
def deinitDriver (b : Build) : Halow Ret := do
  if !(← load (·.initted)) then return .ok
  else if ← load (·.inCallback) then return .ok
  else
    deinitItf b .sta
    deinitItf b .ap
    deinitRest
    return .ok

/-! ## Scanning and association -/

/-- `mm_halow_scan_start_locked`. -/
def scanStartLocked : Halow Ret := do
  store fun s => { s with scanActive := true }
  let status ← mmwlan .scanRequest
  if status ≠ .success then
    store fun s => { s with scanActive := false }
    return statusToErrno status
  else return .ok

/-- `MM_HALOW_SCAN_MS` and `MM_HALOW_SCAN_ABORT_MS`. -/
def scanMs : Nat := 30000
def scanAbortMs : Nat := 5000

/-- `mm_halow_wifi_scan_cached`, as far as it starts a sweep. -/
def ensureSweep : Halow Ret := do
  if !(← load (·.scanActive)) then
    store fun s => { s with scanResults := [] }
    scanStartLocked
  else return .ok

/-- `mm_halow_wifi_scan_cached`, from where there is a cache. -/
def sweep (max : Nat) : Halow Ret := do
  if (← ensureSweep) ≠ .ok then return .results []
  else
    let _ ← schedWaitIdle scanMs
    return .results (← load (·.scanResults.take max))

/-- `mm_halow_wifi_scan_cached`. -/
def wifiScanCached (b : Build) (max : Nat) : Halow Ret := do
  if (← load (·.linkStatus)) ≠ .down then return .results []
  else if !(← load (·.scanCache)) then
    let block ← osalMalloc
    store fun s => { s with scanCache := block }
    if !block then return .results []
    else
      store fun s => { s with scanCacheMax := b.scanCacheMax % 256 }
      sweep max
  else sweep max

/-- `mm_halow_wifi_join`, from where its arguments are checked. -/
def joinWith (args : StaArgs) : Halow Ret := do
  store fun s => { s with staSsid := args.ssid }
  store fun s => { s with linkStatus := .join }
  let active ← load (·.scanActive)
  onlyIf active do
    tell .scanAbort
    let _ ← schedWaitIdle scanAbortMs
    return ()
  let status ← mmwlan (.staEnable args)
  if status ≠ .success then
    store fun s => { s with linkStatus := .fail }
    return statusToErrno status
  else return .ok

/-- The arguments that `mm_halow_wifi_join` refuses. -/
def joinRefuses (b : Build) (args : StaArgs) : Bool :=
  args.ssid = [] || b.ssidMaxlen < args.ssid.length || b.passphraseMaxlen < args.key.length ||
    (args.auth == secSae && args.key = [])

/-- `mm_halow_wifi_join`. -/
def wifiJoin (b : Build) (args : StaArgs) : Halow Ret :=
  if joinRefuses b args then return .err .einval else joinWith args

/-- `mm_halow_wifi_leave`. -/
def wifiLeave (itf : Int) : Halow Ret := do
  if itf = 1 then errnoOf (mmwlan .apDisable)
  else
    store fun s => { s with linkStatus := .down }
    errnoOf (mmwlan .staDisable)

/-- `mm_halow_wifi_link_status`. -/
def wifiLinkStatus (s : State) (itf : Int) : LinkStatus :=
  if itf = 1 then if s.itfState .ap then .up else .down else s.linkStatus

end MmHalow.Ctrl
