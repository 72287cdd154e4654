import MmHalow.Ctrl.Calls

/-!
# Runs of the control layer

The public calls (`Call`) with their code, and what the questions they ask do: `world b` is the
system of them, in which morselib's callbacks may cut in between any two steps, any status may
answer a call of morselib, any allocation may fail, and host callbacks may call again while a
morselib function or a wait is out. `(world b).alone` is the same with calls made one at a time.
-/

namespace MmHalow.Ctrl

open MmHalow.Lib

/-- The public calls. -/
inductive Call where
  | init
  | deinit
  | setUp (itf : Int) (up : Bool) (country : List UInt8)
  | scanCached (max : Nat)
  | join (args : StaArgs)
  | leave (itf : Int)
  | pm (mode : UInt32)
  | setRadio (what : Int) (value : UInt32)
  | setPsTimeout (ms : UInt32)
  | setHealthCheck (min max : UInt32)
  | setDutyCycle (mode : Int)
  | twt (interval : UInt64) (duration : UInt32) (setup : Int)
  | wnmSleep (enable powerdown : Bool)
  | fixedRate (mcs bw gi : Int)
  | apSetSsid (ssid : List UInt8)
  | apSetPassword (key : List UInt8)
  | apSetAuth (auth : UInt32)
  | apSetChannel (chan : UInt8)
  deriving Repr, DecidableEq

/-- The code of a call. -/
def Call.body (b : Build) : Call → Halow Ret
  | init => initDriver b
  | deinit => deinitDriver b
  | setUp itf up country => wifiSetUp b itf up country
  | scanCached max => wifiScanCached b max
  | join args => wifiJoin b args
  | leave itf => wifiLeave itf
  | pm mode => wifiPm b mode
  | setRadio what value => wifiSetRadio what value
  | setPsTimeout ms => wifiSetPsTimeout ms
  | setHealthCheck min max => wifiSetHealthCheck min max
  | setDutyCycle mode => wifiSetDutyCycle mode
  | twt interval duration setup => wifiTwt interval duration setup
  | wnmSleep enable powerdown => wifiWnmSleep enable powerdown
  | fixedRate mcs bw gi => wifiFixedRate b mcs bw gi
  | apSetSsid ssid => wifiApSetSsid b ssid
  | apSetPassword key => wifiApSetPassword b key
  | apSetAuth auth => wifiApSetAuth auth
  | apSetChannel chan => wifiApSetChannel chan

/-- The call is `mm_halow_wifi_set_up`. -/
def Call.isSetUp : Call → Bool
  | setUp _ _ _ => true
  | _ => false

/-- The call is `mm_halow_wifi_leave`. -/
def Call.isLeave : Call → Bool
  | leave _ => true
  | _ => false

/-! ## What is asked -/

/-- What morselib has been told once a function of it, called by `c` with `country` recorded, has
answered. An access point counts as disabled whatever the status, except in a leave. -/
def Morselib.answered (b : Build) (c : Call) (country : Letters) (m : Morselib) :
    Mmwlan → Status → Morselib
  | .init, _ => { Morselib.off b with inited := true }
  | .deinit, _ => Morselib.off b
  | .shutdown, _ => { m with booted := false, apRunning := false, sweeps := 0 }
  | .boot, .success => { m with booted := true }
  | .setChannelList l, .success => { m with accepted := some (country, l) }
  | .apEnable _, .success => { m with apRunning := true }
  | .apDisable, st => { m with apRunning := m.apRunning && c.isLeave && st != .success }
  | .scanRequest, st => { m with sweeps := if st = .success then m.sweeps else m.sweeps - 1 }
  | f, .success => { m with settings := f.applyTo m.settings }
  | _, _ => m

/-- The effect of asking. -/
def enter (b : Build) (_ : Call) : Ask → State → State
  | .mmwlan .scanRequest, s => { s with lib := { s.lib with sweeps := s.lib.sweeps + 1 } }
  -- the callbacks that run in `netif_add` run in `mm_halow_netif_init`, after it has set the flags
  | .netifAdd itf, s =>
    { s with lwip := (b.lwip.netifAddBegin itf (b.glue.added itf) s.lwip).clearFlags itf }
  | _, s => s

/-- The effect of the answer, in a call of `c`. -/
def leave (b : Build) (c : Call) : (q : Ask) → q.Ans → State → State
  | .mmwlan f, st, s => { s with lib := s.lib.answered b c s.country f st }
  | .netifAdd itf, _, s => { s with lwip := b.lwip.netifAddEnd itf s.lwip }
  | .portHeapAlloc, _, s => s
  | .osalMalloc, _, s => s
  | .schedWait _, _, s => s

/-- `mm_halow_cb_tcpip_init` does what `LwipFns.tcpipInit` says, where nothing cuts in. -/
theorem tcpipInit_alone (b : Build) (c : Call) (itf : Itf) (s : State) :
    b.lwip.afterAdd b.glue itf (leave b c (.netifAdd itf) () (enter b c (.netifAdd itf) s)).lwip =
      b.lwip.tcpipInit b.glue itf s.lwip := rfl

/-- The answers there may be: a block comes out of the pool, and a wait ends with what its condition
gave last. -/
def answers : (q : Ask) → q.Ans → State → Bool
  | .osalMalloc, (block : Bool), s => !block || s.heap
  | .schedWait _, (idle : Bool), s => idle == !s.scanActive
  | .portHeapAlloc, _, _ => true
  | .mmwlan _, _, _ => true
  | .netifAdd _, _, _ => true

/-- Host callbacks run while a function of morselib or a wait is out. -/
def waits : Ask → Bool
  | .portHeapAlloc => false
  | .osalMalloc => false
  | .schedWait _ => true
  | .mmwlan _ => true
  | .netifAdd _ => true

/-! ## The system -/

/-- A call made by a host callback has `mm_halow_sched_in_callback` set. -/
def atDepth (n : Nat) (s : State) : State := { s with inCallback := decide (1 < n) }

/-- **The control layer.** -/
def world (b : Build) : World State Ask Ask.Ans Call Callback Ret where
  body := Call.body b
  atDepth := atDepth
  enter := enter b
  leave := leave b
  answers := answers
  waits := waits
  callback := callback b

/-- Where a run stands. -/
abbrev Site := Config State Ask Ask.Ans Call Ret

/-- What happens in a run. -/
abbrev Happening := Event Ask Ask.Ans Call Callback Ret

/-- A call in progress. -/
abbrev Doing := Info State Ask Ask.Ans Call

/-- The start of a run. -/
def start (b : Build) (lwip : Lwip) : Site := ⟨State.init b lwip, []⟩

/-- The system with calls made one at a time. -/
abbrev oneAtATime (b : Build) : World State Ask Ask.Ans Call Callback Ret := (world b).alone

/-! ## A build to evaluate runs of -/

/-- Two countries, by their letters. -/
def us : List UInt8 := [85, 83]
def jp : List UInt8 := [74, 80]

/-- One channel for each of two countries. -/
def Build.small (ap : Bool) : Build where
  enableAp := ap
  scanCacheMax := 32
  lookup := fun country =>
    if country = us then some [⟨903500000, 1, 3, 1, 68⟩]
    else if country = jp then some [⟨924000000, 1, 8, 8, 73⟩] else none
  ssidMaxlen := 32
  passphraseMaxlen := 100
  apMaxStas := 4
  skipOpClassCheck := -1
  fixedRateOk := fun _ _ _ => true
  defaults := ⟨true, 100, true, true, true, 0, 0, 10, 0, 0, 0, 0⟩
  lwip := .modelled
  documented := LwipFns.modelled_documented
  glue := { LwipBuild.small with enableAp := ap }
  glueAp := rfl

/-- lwIP with no interface. -/
def noNetifs : Lwip := ⟨[], fun _ => false, fun _ => false, none⟩

theorem fresh_noNetifs : noNetifs.Fresh := fun _ => ⟨rfl, rfl⟩

/-- The answer that lets the driver go on. -/
def Ask.yes : (q : Ask) → q.Ans
  | .portHeapAlloc => true
  | .osalMalloc => true
  | .schedWait _ => true
  | .mmwlan _ => Status.success
  | .netifAdd _ => ()

/-- What may happen next in a run. -/
abbrev Cues := List (Cue Ask Ask.Ans Call Callback)

/-- Everything that is asked is granted. -/
def granted (qs : List Ask) : Cues := qs.map fun q => .answer q q.yes

/-- What `mm_halow_init` asks for with the settings it starts with. -/
def initAsks : List Ask :=
  .portHeapAlloc :: .osalMalloc :: List.map Ask.mmwlan
    [.init, .setPowerSaveMode false, .setDynamicPsTimeout 100, .setAmpduEnabled true,
      .setSgiEnabled true, .setSubbandsEnabled true, .registerFatalErrorHandler, .registerLinkStateCb,
      .registerRxCb true, .getVifMacAddr]

/-- What `mm_halow_wifi_set_up(itf, true)` asks for until the transceiver runs. -/
def bootAsks : List Ask :=
  List.map Ask.mmwlan [.setChannelList [⟨903500000, 1, 3, 1, 68⟩], .boot, .getVifMacAddr]

/-- The station comes up. -/
def stationUp : Cues :=
  .call (.setUp 0 true us) :: granted (initAsks ++ bootAsks ++ [.netifAdd .sta])

/-- An open access point called `A` is brought up. -/
def accessPointUp : Cues :=
  .call (.apSetSsid [65]) :: .call (.apSetAuth secOpen) :: .call (.setUp 1 true us) ::
    granted (initAsks ++ bootAsks ++ [.mmwlan (.apEnable ⟨some (1, 3), [65], secOpen, []⟩), .netifAdd .ap])

end MmHalow.Ctrl
