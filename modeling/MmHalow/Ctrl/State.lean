import MmHalow.Ctrl.Lwip
import MmHalow.Lib.Proc

/-!
# The control layer's data (`mm_halow.h`, `mm_halow_ctrl.c`)

`State` holds `mm_halow_state` and the globals the control layer sets, lwIP's data and, in `lib`,
what morselib has been told: `mmwlan.h` and its library are not part of the repository, so its
functions are questions (`Mmwlan`) that may be answered by any status, and `Morselib` is bookkeeping
of the answers. No definition of the driver reads it.

| source                        | here            |
|-------------------------------|-----------------|
| `mm_halow_t`, `mm_halow_state` | `State`, `State.init` |
| `mm_halow_status_to_errno`    | `statusToErrno` |
| `mm_halow_freq_to_chan`       | `freqToChan`    |
| `mm_halow_scan_cache_add`, `mm_halow_scan_rx_cb` | `scanCacheAdd`, `scanRxCb` |
| the morselib callbacks        | `Callback`, `callback` |

The trace flags, `mac`, `scan_started_ms` and the addresses of `mm_halow_t` are left out, and of a
pointer only whether it is `NULL`. The scan cache is the list of its first `scan_cache_len` entries.
-/

namespace MmHalow.Ctrl

open MmHalow.Lib

/-! ## What the build and its libraries fix -/

/-- A channel of a regulatory domain (`struct mmwlan_s1g_channel`). -/
structure Channel where
  centreFreqHz : UInt32
  bwMhz : UInt8
  s1gChanNum : UInt8
  s1gOperatingClass : Int
  globalOperatingClass : Int
  deriving Repr, DecidableEq

/-- The channels of a regulatory domain (`struct mmwlan_s1g_channel_list`). -/
abbrev ChannelList := List Channel

/-- A MAC address. -/
abbrev Mac := List UInt8

/-- What `self->country` keeps of a country. -/
abbrev Letters := UInt8 × UInt8

/-- The settings of morselib that the driver sets. -/
structure Settings where
  psEnabled : Bool
  psTimeout : UInt32
  ampdu : Bool
  sgi : Bool
  subbands : Bool
  rts : UInt32
  fragment : UInt32
  listen : UInt16
  txpower : UInt16
  healthMin : UInt32
  healthMax : UInt32
  dutyCycle : UInt8
  deriving Repr, DecidableEq

/-- What a build fixes, and what of `mmwlan.h` the code uses. -/
structure Build where
  /-- `MM_HALOW_ENABLE_AP`. -/
  enableAp : Bool
  /-- `MM_HALOW_SCAN_CACHE_MAX`. -/
  scanCacheMax : Nat
  /-- `mmwlan_lookup_regulatory_domain` in `get_regulatory_db()`. -/
  lookup : List UInt8 → Option ChannelList
  /-- `MMWLAN_SSID_MAXLEN` and `MMWLAN_PASSPHRASE_MAXLEN`. -/
  ssidMaxlen : Nat
  passphraseMaxlen : Nat
  /-- `MM_HALOW_AP_MAX_STAS`. -/
  apMaxStas : Nat
  /-- `MMWLAN_SKIP_OP_CLASS_CHECK`. -/
  skipOpClassCheck : Int
  /-- The range checks of `mm_halow_wifi_fixed_rate` against the enumerators of `mmwlan.h`. -/
  fixedRateOk : Int → Int → Int → Bool
  /-- What `mmwlan_init` sets. -/
  defaults : Settings
  /-- lwIP, and what of its build the glue depends on. -/
  lwip : LwipFns
  documented : lwip.Documented
  glue : LwipBuild
  glueAp : glue.enableAp = enableAp

/-! ## Results -/

/-- `enum mmwlan_status`; `error` stands for those that are not told apart. -/
inductive Status where
  | success
  | error
  | invalidArgument
  | unavailable
  | channelListNotSet
  | noMem
  | timedOut
  | channelInvalid
  | notFound
  | notSupported
  | vifError
  deriving Repr, DecidableEq

/-- The negative error numbers. -/
inductive Errno where
  | einval
  | eagain
  | enomem
  | etimedout
  | enodev
  | erange
  | enoent
  | eopnotsupp
  | enxio
  | eio
  | eperm
  | enotconn
  deriving Repr, DecidableEq

/-- An access point that a sweep has found (`mm_halow_ev_scan_result_t`). -/
structure ScanResult where
  ssid : List UInt8
  bssid : Mac
  rssi : Int
  channelFreqHz : UInt32
  chanNum : UInt8
  bwMhz : UInt8
  opBwMhz : UInt8
  sae : Bool
  deriving Repr, DecidableEq

/-- What a call returns. -/
inductive Ret where
  | ok
  | err (e : Errno)
  | results (l : List ScanResult)
  deriving Repr, DecidableEq

/-- `mm_halow_status_to_errno`. -/
def statusToErrno : Status → Ret
  | .success => .ok
  | .invalidArgument => .err .einval
  | .unavailable => .err .eagain
  | .noMem => .err .enomem
  | .timedOut => .err .etimedout
  | .channelListNotSet => .err .enodev
  | .channelInvalid => .err .erange
  | .notFound => .err .enoent
  | .notSupported => .err .eopnotsupp
  | .vifError => .err .enxio
  | .error => .err .eio

/-- The only status that gives zero. -/
@[simp] theorem statusToErrno_eq_ok {st : Status} : statusToErrno st = .ok ↔ st = .success := by
  cases st <;> simp [statusToErrno]

/-! ## What the control layer asks for -/

/-- The arguments of `mmwlan_sta_enable` that depend on the call. -/
structure StaArgs where
  ssid : List UInt8
  key : List UInt8
  auth : UInt32
  bssid : Option Mac
  deriving Repr, DecidableEq

/-- The arguments of `mmwlan_ap_enable` that depend on the state; no channel means the station's. -/
structure ApArgs where
  channel : Option (Int × UInt8)
  ssid : List UInt8
  auth : UInt32
  key : List UInt8
  deriving Repr, DecidableEq

/-- The functions of morselib. -/
inductive Mmwlan where
  | init
  | deinit
  | registerFatalErrorHandler
  | registerLinkStateCb
  | registerRxCb (some : Bool)
  | getVifMacAddr
  | boot
  | shutdown
  | setChannelList (l : ChannelList)
  | apEnable (args : ApArgs)
  | apDisable
  | staEnable (args : StaArgs)
  | staDisable
  | scanRequest
  | scanAbort
  | setPowerSaveMode (enabled : Bool)
  | setDynamicPsTimeout (ms : UInt32)
  | setAmpduEnabled (b : Bool)
  | setSgiEnabled (b : Bool)
  | setSubbandsEnabled (b : Bool)
  | setRtsThreshold (n : UInt32)
  | setFragmentThreshold (n : UInt32)
  | setListenInterval (n : UInt16)
  | overrideMaxTxPower (n : UInt16)
  | setHealthCheckInterval (min max : UInt32)
  | setDutyCycleMode (mode : UInt8)
  | twtAddConfiguration (interval : UInt64) (duration : UInt32) (setup : Int)
  | setWnmSleepEnabled (enable powerdown : Bool)
  | ateOverrideRateControl (mcs bw gi : Int)
  deriving Repr, DecidableEq

/-- The effect of a setter on morselib's settings. -/
def Mmwlan.applyTo (s : Settings) : Mmwlan → Settings
  | setPowerSaveMode enabled => { s with psEnabled := enabled }
  | setDynamicPsTimeout ms => { s with psTimeout := ms }
  | setAmpduEnabled b => { s with ampdu := b }
  | setSgiEnabled b => { s with sgi := b }
  | setSubbandsEnabled b => { s with subbands := b }
  | setRtsThreshold n => { s with rts := n }
  | setFragmentThreshold n => { s with fragment := n }
  | setListenInterval n => { s with listen := n }
  | overrideMaxTxPower n => { s with txpower := n }
  | setHealthCheckInterval min max => { s with healthMin := min, healthMax := max }
  | setDutyCycleMode mode => { s with dutyCycle := mode }
  | _ => s

/-- What the control layer asks for: the pool, a block of it, the end of the sweep within a time, a
function of morselib or `netif_add`. -/
inductive Ask where
  | portHeapAlloc
  | osalMalloc
  | schedWait (ms : Nat)
  | mmwlan (f : Mmwlan)
  | netifAdd (itf : Itf)
  deriving Repr, DecidableEq

/-- What the answer is: whether there is memory, what the condition of the wait was at its end, or a
status. -/
def Ask.Ans : Ask → Type
  | portHeapAlloc => Bool
  | osalMalloc => Bool
  | schedWait _ => Bool
  | mmwlan _ => Status
  | netifAdd _ => Unit

/-! ## The state -/

/-- `MM_HALOW_LINK_DOWN` and its siblings. -/
inductive LinkStatus where
  | down
  | join
  | noip
  | up
  | fail
  | nonet
  | badauth
  deriving Repr, DecidableEq

/-- What morselib has been told and has answered. -/
structure Morselib where
  /-- Between `mmwlan_init` and `mmwlan_deinit`. -/
  inited : Bool
  /-- The transceiver runs. -/
  booted : Bool
  /-- The channel list last accepted, and the country that was recorded then. -/
  accepted : Option (Letters × ChannelList)
  /-- The access point has been enabled, and since then neither disabled nor lost. -/
  apRunning : Bool
  /-- The sweeps requested that are neither complete nor lost. -/
  sweeps : Nat
  settings : Settings

/-- **The control layer's state.** -/
structure State where
  /-- `itf_state`, by interface. -/
  itfState : Itf → Bool
  scanActive : Bool
  rxDeferred : Bool
  pm : UInt32
  psTimeoutMs : UInt32
  ampdu : Bool
  sgi : Bool
  subbands : Bool
  listenInterval : UInt16
  txpower : UInt16
  dutyCycleMode : UInt8
  rtsThreshold : UInt32
  fragmentThreshold : UInt32
  wnmPowerdown : Bool
  healthMinMs : UInt32
  healthMaxMs : UInt32
  /-- `scan_cache` is not `NULL`, its first `scan_cache_len` entries and `scan_cache_max`. -/
  scanCache : Bool
  scanResults : List ScanResult
  scanCacheMax : Nat
  linkStatus : LinkStatus
  initted : Bool
  booted : Bool
  staSsid : List UInt8
  apAuth : UInt32
  apSsid : List UInt8
  apKey : List UInt8
  apChanNum : UInt8
  /-- `ap_stas`, of which there are `ap_sta_count`. -/
  apStas : List Mac
  channels : Option ChannelList
  country : Letters
  /-- `mm_halow_poll`, `mm_halow_tx_buf`, the pool, `mm_halow_timer_list` and `mm_halow_task_list`
  are not `NULL`. -/
  poll : Bool
  txBuf : Bool
  heap : Bool
  timerList : Bool
  taskList : Bool
  /-- `mm_halow_sched_teardown` and `mm_halow_sched_in_callback`. -/
  teardown : Bool
  inCallback : Bool
  lwip : Lwip
  lib : Morselib

/-- `MM_HALOW_SEC_OPEN` and `MM_HALOW_SEC_SAE`. -/
def secOpen : UInt32 := 0
def secSae : UInt32 := 2

/-- `MM_HALOW_PM_NONE`. -/
def pmNone : UInt32 := 0

/-- morselib before `mmwlan_init`. -/
def Morselib.off (b : Build) : Morselib where
  inited := false
  booted := false
  accepted := none
  apRunning := false
  sweeps := 0
  settings := b.defaults

/-- **`mm_halow_state` as it is at the start**, with other interfaces on lwIP's list. -/
def State.init (b : Build) (lwip : Lwip) : State where
  itfState := fun _ => false
  scanActive := false
  rxDeferred := false
  pm := pmNone
  psTimeoutMs := 100
  ampdu := true
  sgi := true
  subbands := true
  listenInterval := 0
  txpower := 0
  dutyCycleMode := 0
  rtsThreshold := 0
  fragmentThreshold := 0
  wnmPowerdown := false
  healthMinMs := 0
  healthMaxMs := 0
  scanCache := false
  scanResults := []
  scanCacheMax := 0
  linkStatus := .down
  initted := false
  booted := false
  staSsid := []
  apAuth := secSae
  apSsid := []
  apKey := []
  apChanNum := 0
  apStas := []
  channels := none
  country := (0, 0)
  poll := false
  txBuf := false
  heap := false
  timerList := false
  taskList := false
  teardown := false
  inCallback := false
  lwip := lwip
  lib := .off b

/-- lwIP before the driver has added anything to its list. -/
def Lwip.Fresh (n : Lwip) : Prop := ∀ itf, n.listed itf = false ∧ n.netifIsLinkUp itf = false

/-- `itf_state == 0`. -/
def State.noItf (s : State) : Bool := !s.itfState .sta && !s.itfState .ap

/-! ## The callbacks -/

/-- The length of the SSID and MAC fields is that of the source's arrays. -/
structure RawScanResult where
  ssid : List UInt8
  bssid : Mac
  rssi : Int
  channelFreqHz : UInt32
  bwMhz : UInt8
  opBwMhz : UInt8
  capabilityInfo : UInt16
  deriving Repr, DecidableEq

/-- `mm_halow_freq_to_chan`. -/
def freqToChan (channels : Option ChannelList) (freq : UInt32) (bw : UInt8) : UInt8 :=
  match channels with
  | none => 0
  | some list =>
    match list.find? fun ch => ch.centreFreqHz = freq ∧ ch.bwMhz = bw with
    | some ch => ch.s1gChanNum
    | none => 0

/-- `mm_halow_scan_cache_add`, on the entries of a cache of `max`. -/
def scanCacheAdd (max : Nat) (res : ScanResult) : List ScanResult → List ScanResult
  | [] => if 0 < max then [res] else []
  | r :: rs => if r.bssid = res.bssid then res :: rs else r :: scanCacheAdd (max - 1) res rs

/-- The entry that `mm_halow_scan_rx_cb` makes of a result. -/
def scanResult (b : Build) (channels : Option ChannelList) (r : RawScanResult) : ScanResult where
  ssid := r.ssid.take b.ssidMaxlen
  bssid := r.bssid
  rssi := r.rssi
  channelFreqHz := r.channelFreqHz
  chanNum := freqToChan channels r.channelFreqHz r.bwMhz
  bwMhz := r.bwMhz
  opBwMhz := r.opBwMhz
  sae := r.capabilityInfo &&& 16 != 0

/-- `mm_halow_scan_rx_cb`. -/
def scanRxCb (b : Build) (r : RawScanResult) (s : State) : State :=
  if s.scanCache then
    { s with scanResults := scanCacheAdd s.scanCacheMax (scanResult b s.channels r) s.scanResults }
  else s

/-- `enum mmwlan_sta_state`; `disabled` stands for the values that are not named. -/
inductive StaState where
  | disabled
  | connecting
  | connected
  deriving Repr, DecidableEq

/-- `mm_halow_sta_status_cb`. -/
def staStatus : StaState → LinkStatus
  | .connecting => .join
  | .connected => .noip
  | .disabled => .down

/-- `mm_halow_ap_sta_status_cb`. -/
def apStaStatusCb (max : Nat) (mac : Mac) (authorized : Bool) (stas : List Mac) : List Mac :=
  if mac ∈ stas then if authorized then stas else stas.erase mac
  else if authorized ∧ stas.length < max then stas ++ [mac] else stas

/-- What morselib's tasks, run by the poll or by a wait, may do to the driver between two of its
steps. -/
inductive Callback where
  /-- `mm_halow_sta_status_cb`. -/
  | sta (st : StaState)
  /-- `mm_halow_fatal_error_cb`. -/
  | fatal
  /-- `mm_halow_link_state_cb`. -/
  | link (up : Bool)
  /-- `mm_halow_rx_cb`, where a `pbuf` can be had or not. -/
  | rx (alloc : Bool)
  /-- `mm_halow_scan_rx_cb`. -/
  | scanRx (r : RawScanResult)
  /-- `mm_halow_scan_complete_cb`. -/
  | scanComplete
  /-- `mm_halow_ap_sta_status_cb`. -/
  | apSta (mac : Mac) (authorized : Bool)
  /-- morselib creates a task or a timer. -/
  | spawn
  | arm
  deriving Repr, DecidableEq

/-- `mm_halow_fatal_error_cb`: morselib is left as `mmwlan_shutdown` leaves it. -/
def fatalErrorCb (b : Build) (s : State) : State :=
  { s with booted := false, scanActive := false, linkStatus := .fail
           lwip := (b.lwip.setLinkDown .sta s.lwip).2
           lib := { s.lib with booted := false, apRunning := false, sweeps := 0 } }

/-- `mm_halow_link_state_cb`. -/
def linkStateCb (b : Build) (up : Bool) (s : State) : State :=
  { s with lwip :=
    if up then (b.lwip.setLinkUp b.glue .sta s.lwip).2 else (b.lwip.setLinkDown .sta s.lwip).2 }

/-- **The effect of a callback.** -/
def callback (b : Build) : Callback → State → State
  | .sta st, s => { s with linkStatus := staStatus st }
  | .fatal, s => fatalErrorCb b s
  | .link up, s => linkStateCb b up s
  | .rx _, s => s
  | .scanRx r, s => scanRxCb b r s
  | .scanComplete, s =>
    { s with scanActive := false, lib := { s.lib with sweeps := s.lib.sweeps - 1 } }
  | .apSta mac authorized, s => { s with apStas := apStaStatusCb b.apMaxStas mac authorized s.apStas }
  | .spawn, s => { s with taskList := s.taskList || (s.lib.inited && s.heap) }
  | .arm, s => { s with timerList := s.timerList || (s.lib.inited && s.heap) }

/-- A cache never holds more than it has room for. -/
theorem length_scanCacheAdd_le {max : Nat} {res : ScanResult} {rs : List ScanResult}
    (h : rs.length ≤ max) : (scanCacheAdd max res rs).length ≤ max := by
  induction rs generalizing max with
  | nil =>
    unfold scanCacheAdd
    split
    · assumption
    · exact h
  | cons r rs ih =>
    unfold scanCacheAdd
    split
    · exact h
    · have hpos : 0 < max := Nat.lt_of_lt_of_le (Nat.succ_pos _) h
      have := @ih (max - 1) (Nat.le_sub_of_add_le h)
      simp only [List.length_cons]
      omega

end MmHalow.Ctrl
