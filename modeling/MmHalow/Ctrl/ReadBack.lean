import MmHalow.Ctrl.Steps
import MmHalow.Lib.Commit
import Mathlib.Tactic.IntervalCases

/-!
# Settings that are read back

Most settings are stored as they are given, before morselib hears of them, and neither a bring-up nor
a teardown nor a refusal takes them back; `mm_halow_init` clears the state of the last session only.
`mm_halow_wifi_get_radio` and its siblings read them. Here the public calls are made in any order,
host callbacks make them while others wait, morselib answers as it likes and its callbacks cut in
between any two steps.

* `settings_commit`: a call has stored its settings before it asks for anything, and no other call
  touches them.
* `settings_read_back`: **in every run each of these settings is read back as the last call that set it
  gave it**, cut to the width it is stored in.
-/

namespace MmHalow.Ctrl

open MmHalow.Lib

/-! ## The readers -/

/-- A flag as it is returned. -/
def flagWord (flag : Bool) : UInt32 := if flag then 1 else 0

/-- `mm_halow_wifi_get_radio`. -/
def wifiGetRadio (s : State) (what : Int) : UInt32 :=
  if what = 0 then flagWord s.ampdu
  else if what = 1 then flagWord s.sgi
  else if what = 2 then flagWord s.subbands
  else if what = 3 then s.rtsThreshold
  else if what = 4 then s.fragmentThreshold
  else if what = 6 then flagWord s.wnmPowerdown
  else if what = 7 then s.txpower.toUInt32
  else s.listenInterval.toUInt32

/-- `mm_halow_wifi_ap_get_ssid`. -/
def wifiApGetSsid (s : State) : List UInt8 := s.apSsid

/-- `mm_halow_wifi_ap_get_auth`. -/
def wifiApGetAuth (s : State) : UInt32 := s.apAuth

/-! ## What is stored -/

/-- The settings that are stored as they are given. -/
structure Given where
  ampdu : Bool
  sgi : Bool
  subbands : Bool
  rtsThreshold : UInt32
  fragmentThreshold : UInt32
  listenInterval : UInt16
  wnmPowerdown : Bool
  txpower : UInt16
  dutyCycleMode : UInt8
  healthMinMs : UInt32
  healthMaxMs : UInt32
  apSsid : List UInt8
  apKey : List UInt8
  apAuth : UInt32
  apChanNum : UInt8
  deriving DecidableEq, Repr

/-- Those of a state. -/
def State.given (s : State) : Given where
  ampdu := s.ampdu
  sgi := s.sgi
  subbands := s.subbands
  rtsThreshold := s.rtsThreshold
  fragmentThreshold := s.fragmentThreshold
  listenInterval := s.listenInterval
  wnmPowerdown := s.wnmPowerdown
  txpower := s.txpower
  dutyCycleMode := s.dutyCycleMode
  healthMinMs := s.healthMinMs
  healthMaxMs := s.healthMaxMs
  apSsid := s.apSsid
  apKey := s.apKey
  apAuth := s.apAuth
  apChanNum := s.apChanNum

/-- `mm_halow_wifi_set_radio` as a change of the settings. -/
def Given.setRadio (what : Int) (value : UInt32) (v : Given) : Given :=
  if what = 0 then { v with ampdu := value != 0 }
  else if what = 1 then { v with sgi := value != 0 }
  else if what = 2 then { v with subbands := value != 0 }
  else if what = 3 then { v with rtsThreshold := value }
  else if what = 4 then { v with fragmentThreshold := value }
  else if what = 5 then { v with listenInterval := value.toUInt16 }
  else if what = 6 then { v with wnmPowerdown := value != 0 }
  else if what = 7 then { v with txpower := value.toUInt16 }
  else v

/-- **What a call sets.** -/
def Call.sets (b : Build) : Call → Given → Given
  | setRadio what value, v => v.setRadio what value
  | setHealthCheck min max, v =>
    if max ≠ 0 ∧ min > max then v else { v with healthMinMs := min, healthMaxMs := max }
  | setDutyCycle mode, v => { v with dutyCycleMode := UInt8.ofInt mode }
  | apSetSsid ssid, v => { v with apSsid := ssid.take b.ssidMaxlen }
  | apSetPassword key, v => { v with apKey := key.take b.passphraseMaxlen }
  | apSetAuth auth, v => { v with apAuth := auth }
  | apSetChannel chan, v => { v with apChanNum := chan }
  | _, v => v

variable {b : Build} {c : Call} {v w : Given} {α : Type}

/-- Code that leaves the settings alone. -/
abbrev SparesSettings (p : Halow α) : Prop := p.Keeps State.given

theorem spares_load (g : State → α) : SparesSettings (load g) := Proc.within_load.mpr fun _ => rfl

theorem spares_errnoOf (f : Mmwlan) : SparesSettings (errnoOf (mmwlan f)) :=
  .bind (Proc.within_request.mpr trivial) fun _ => trivial

/-! ## The calls that leave them alone -/

/-- The calls and the stages that set none of them. -/
def Call.sparesSettings : Call → Bool
  | init | deinit | setUp _ _ _ | scanCached _ | join _ | leave _ | pm _ | setPsTimeout _ | twt _ _ _
  | wnmSleep _ _ | fixedRate _ _ _ => true
  | _ => false

def Stage.sparesSettings : Stage → Bool
  | call c => c.sparesSettings
  | _ => true

theorem Stage.Sets.given {stage : Stage} {f : State → State} (h : Stage.Sets b stage f)
    (hs : stage.sparesSettings = true) (s : State) : (f s).given = s.given := by
  cases h <;> first
    | exact rfl
    | exact absurd hs Bool.false_ne_true

theorem spares_body (h : c.sparesSettings = true) : SparesSettings (c.body b) := by
  refine (steps_body c).within (fun _ => rfl) (fun stage hm f hf => hf.given ?_) fun _ _ _ _ => trivial
  cases stage with
  | call d => exact eq_of_mem_stages hm ▸ h
  | _ => rfl

theorem sets_spared (h : c.sparesSettings = true) : c.sets b v = v := by
  cases c with
  | setRadio | setHealthCheck | setDutyCycle | apSetSsid | apSetPassword | apSetAuth | apSetChannel =>
    exact absurd h Bool.false_ne_true
  | _ => rfl

/-! ## The calls that set them -/

/-- What is left once a setting is stored: morselib hears of it, perhaps. -/
theorem spares_pushBooted {f : Mmwlan} :
    SparesSettings (do if ← load (·.booted) then errnoOf (mmwlan f) else return .ok : Halow Ret) :=
  .bind (spares_load _) fun _ => .ite (spares_errnoOf _) trivial

/-- A setting that is stored, and code that leaves it. -/
theorem brings_stored {f : State → State} {p : Halow Ret} (hf : ∀ s, s.given = v → (f s).given = w)
    (hp : SparesSettings p) : (store f >>= fun _ => p).Brings State.given w v :=
  Proc.brings_store fun s hs => by
    rw [hf s hs]
    exact hp.brings

theorem setRadio_brings {what : Int} {value : UInt32} :
    (wifiSetRadio what value).Brings State.given (v.setRadio what value) v := by
  unfold wifiSetRadio Given.setRadio
  refine Proc.brings_load fun _ _ => Proc.brings_load fun _ _ => ?_
  dsimp only
  split_ifs
  all_goals first
    | exact brings_stored (fun s hs => hs ▸ rfl) (spares_errnoOf _)
    | exact brings_stored (fun s hs => hs ▸ rfl) spares_pushBooted
    | exact brings_stored (fun s hs => hs ▸ rfl) trivial
    | exact rfl

theorem setHealthCheck_brings {min max : UInt32} : (wifiSetHealthCheck min max).Brings State.given
    ((Call.setHealthCheck min max).sets b v) v := by
  dsimp only [wifiSetHealthCheck, Call.sets]
  split_ifs with hbad
  · rfl
  · refine Proc.brings_store fun s hs => ?_
    refine brings_stored (fun t ht => ?_) spares_pushBooted
    refine (congrArg (fun v : Given => { v with healthMaxMs := max }) ht).trans ?_
    rw [← hs]
    rfl

theorem setDutyCycle_brings {mode : Int} : (wifiSetDutyCycle mode).Brings State.given
    ((Call.setDutyCycle mode).sets b v) v :=
  brings_stored (fun _ hs => hs ▸ rfl)
    (.bind (spares_load _) fun _ => .ite trivial (.ite trivial (spares_errnoOf _)))

/-- **Every call has stored its settings before it asks**, and nothing else moves them. -/
theorem settings_commit (b : Build) : (world b).Commits State.given (Call.sets b) where
  body c v := by
    show (c.body b).Brings State.given (c.sets b v) v
    cases hc : c.sparesSettings with
    | true =>
      rw [sets_spared hc]
      exact (spares_body hc).brings
    | false =>
      cases c with
      | setRadio what value => exact setRadio_brings
      | setHealthCheck min max => exact setHealthCheck_brings
      | setDutyCycle mode => exact setDutyCycle_brings
      | apSetSsid | apSetPassword | apSetAuth | apSetChannel =>
        exact brings_stored (fun s hs => hs ▸ rfl) trivial
      | _ => exact absurd hc.symm Bool.false_ne_true
  atDepth _ _ := rfl
  enter c q s := by
    cases q with
    | mmwlan f => cases f <;> rfl
    | _ => rfl
  leave c q a s := by
    cases q <;> rfl
  callback e s := by
    cases e with
    | scanRx r =>
      show (scanRxCb b r s).given = s.given
      unfold scanRxCb
      split <;> rfl
    | _ => rfl

/-! ## Reading them back -/

/-- What a call gives for a radio setting, for the access point's name and for its security. -/
def Call.radio (what : Int) : Call → Option UInt32
  | setRadio what' value => if what' = what then some value else none
  | _ => none

def Call.ssid : Call → Option (List UInt8)
  | apSetSsid ssid => some ssid
  | _ => none

def Call.auth : Call → Option UInt32
  | apSetAuth auth => some auth
  | _ => none

/-- A radio setting as it is read back: flags as flags, 16 bits of the listen interval and the
transmit power. -/
def radioWord (what : Int) (value : UInt32) : UInt32 :=
  if what = 3 ∨ what = 4 then value
  else if what = 5 ∨ what = 7 then value.toUInt16.toUInt32
  else flagWord (value != 0)

/-- What `mm_halow_wifi_get_radio` reads. -/
def Given.radio (v : Given) (what : Int) : UInt32 :=
  if what = 0 then flagWord v.ampdu
  else if what = 1 then flagWord v.sgi
  else if what = 2 then flagWord v.subbands
  else if what = 3 then v.rtsThreshold
  else if what = 4 then v.fragmentThreshold
  else if what = 6 then flagWord v.wnmPowerdown
  else if what = 7 then v.txpower.toUInt32
  else v.listenInterval.toUInt32

theorem wifiGetRadio_eq (s : State) (what : Int) : wifiGetRadio s what = s.given.radio what := rfl

/-- **A setter of the radio changes the setting it names.** -/
theorem radio_setRadio {what what' : Int} {value : UInt32} (h : 0 ≤ what ∧ what ≤ 7) :
    (v.setRadio what' value).radio what =
      if what' = what then radioWord what value else v.radio what := by
  obtain ⟨h0, h7⟩ := h
  by_cases heq : what' = what
  · subst heq
    rw [if_pos rfl]
    interval_cases what' <;> rfl
  · rw [if_neg heq]
    unfold Given.setRadio
    split_ifs
    all_goals first
      | rfl
      | subst_vars
        interval_cases what <;> first | rfl | exact absurd rfl heq

/-- A setter of the radio leaves the access point's settings. -/
theorem setRadio_ap {what : Int} {value : UInt32} :
    (v.setRadio what value).apSsid = v.apSsid ∧ (v.setRadio what value).apAuth = v.apAuth := by
  unfold Given.setRadio
  split_ifs <;> exact ⟨rfl, rfl⟩

/-- What the setters make of what is read. -/
theorem radio_sets {what : Int} (h : 0 ≤ what ∧ what ≤ 7) :
    (c.sets b v).radio what = ((c.radio what).map (radioWord what)).getD (v.radio what) := by
  cases c with
  | setRadio what' value =>
    refine (radio_setRadio h).trans ?_
    dsimp only [Call.radio]
    split_ifs <;> rfl
  | setHealthCheck min max =>
    dsimp only [Call.sets]
    split_ifs <;> rfl
  | _ => rfl

theorem ssid_sets : (c.sets b v).apSsid = (c.ssid.map (List.take b.ssidMaxlen)).getD v.apSsid := by
  cases c with
  | setRadio what value => exact setRadio_ap.1
  | setHealthCheck min max =>
    dsimp only [Call.sets]
    split_ifs <;> rfl
  | _ => rfl

theorem auth_sets : (c.sets b v).apAuth = (c.auth.map id).getD v.apAuth := by
  cases c with
  | setRadio what value => exact setRadio_ap.2
  | setHealthCheck min max =>
    dsimp only [Call.sets]
    split_ifs <;> rfl
  | _ => rfl

/-- **In every run each setting is read back as the last call that set it gave it**, wherever no call
is between two of its steps. -/
theorem settings_read_back (b : Build) (lwip : Lwip) (tr : List Happening) (x : Site)
    (h : Run (world b).Step (start b lwip) tr x) (hx : x.Settled) :
    (∀ what, 0 ≤ what ∧ what ≤ 7 → wifiGetRadio x.st what =
      ((World.lastSet (Call.radio what) tr).map (radioWord what)).getD
        (wifiGetRadio (.init b lwip) what)) ∧
    wifiApGetSsid x.st =
      ((World.lastSet Call.ssid tr).map (List.take b.ssidMaxlen)).getD (wifiApGetSsid (.init b lwip)) ∧
    wifiApGetAuth x.st = (World.lastSet Call.auth tr).getD (wifiApGetAuth (.init b lwip)) := by
  have hgiven : x.st.given = World.effects (Call.sets b) tr (State.init b lwip).given :=
    (settings_commit b).settled h hx
  refine ⟨fun what hwhat => ?_, ?_, ?_⟩
  · rw [wifiGetRadio_eq, wifiGetRadio_eq, hgiven]
    exact World.get_effects (Given.radio · what)
      (fun c v => radio_sets (b := b) (c := c) (v := v) hwhat) tr _
  · show x.st.given.apSsid = _
    rw [hgiven]
    exact World.get_effects Given.apSsid (fun c v => ssid_sets (b := b) (c := c) (v := v)) tr _
  · show x.st.given.apAuth = _
    have hauth := World.get_effects Given.apAuth (fun c v => auth_sets (b := b) (c := c) (v := v)) tr
      (State.init b lwip).given
    rw [Option.map_id_fun] at hauth
    rw [hgiven]
    exact hauth

/-- The listen interval is set, and once more by a host callback while the driver is initialised. -/
def setTwice : Cues :=
  .call (.setRadio 5 20) :: .call .init :: (granted [.portHeapAlloc, .osalMalloc] ++
    [.call (.setRadio 5 65546)])

/-- The innermost call waits. -/
def waiting (x : Site) : Bool :=
  match x.stack with
  | ⟨_, .inside _ _⟩ :: _ => true
  | _ => false

theorem settled_of_waiting {x : Site} (h : waiting x = true) : x.Settled := by
  intro a ha
  unfold waiting at h
  split at h
  case h_1 hstack =>
    rw [hstack] at ha
    obtain rfl := Option.mem_some.mp ha
    exact ⟨_, _, rfl⟩
  case h_2 => exact absurd h Bool.false_ne_true

theorem settings_read_back_setTwice : ∃ tr x,
    Run (world (.small true)).Step (start (.small true) noNetifs) tr x ∧ waiting x = true ∧
      wifiGetRadio x.st 5 = 10 := by
  obtain ⟨tr, x, hr, hx⟩ := World.run_of_play_any (world (.small true)) (fun _ _ _ => true)
    (start (.small true) noNetifs) setTwice
    (fun r => waiting r.2 && World.lastSet (Call.radio 5) r.1 == some 65546) rfl
  obtain ⟨hwait, hlast⟩ := Bool.and_eq_true_iff.mp hx
  have hrun := hr.mono fun _ _ _ h => h.1
  have hread := (settings_read_back (.small true) noNetifs tr x hrun (settled_of_waiting hwait)).1 5
    (by decide)
  rw [eq_of_beq hlast] at hread
  exact ⟨tr, x, hrun, hwait, hread⟩

end MmHalow.Ctrl
