import MmHalow.Ctrl.Steps

/-!
# What callbacks and the smaller calls leave alone

A callback touches only what `still` forgets. Most public calls only store settings, the network to
join or the link status, and ask morselib for things that do not change what it does with interfaces,
channels and sweeps. `rest` forgets what they may change; `Plain` says of code that it changes nothing
else.

* `still_callback`, `Still.steady`: callbacks keep what is said of the rest of the state.
* `plain_body`: the calls other than `mm_halow_init`, `mm_halow_deinit`, `mm_halow_wifi_set_up`,
  `mm_halow_wifi_scan_cached` and `mm_halow_wifi_leave` are plain, and so are `applyPm` and
  `applyRadio`.
* `Plain.triple`: plain code keeps every assertion about the rest.
-/

namespace MmHalow.Ctrl

open MmHalow.Lib

variable {b : Build} {c : Call} {s : State} {e : Callback}

/-! ## Callbacks -/

/-- The state without what callbacks touch. -/
def still (s : State) : State :=
  { s with
    booted := false, scanActive := false, linkStatus := .down, scanResults := [], apStas := [],
    taskList := false, timerList := false, lwip := ⟨s.lwip.list, fun _ => false, fun _ => false, none⟩,
    lib := { s.lib with booted := false, apRunning := false, sweeps := 0 } }

theorem still_callback : still (callback b e s) = still s := by
  cases e with
  | scanRx r =>
    simp only [callback, scanRxCb]
    split <;> rfl
  | link up =>
    cases up with
    | true => simp only [callback, linkStateCb, if_true, still, b.documented.setLinkUp.list]
    | false =>
      simp only [callback, linkStateCb, Bool.false_eq_true, if_false, still, b.documented.setLinkDown.list]
  | fatal => simp only [callback, fatalErrorCb, still, b.documented.setLinkDown.list]
  | sta _ => rfl
  | rx _ => rfl
  | scanComplete => rfl
  | apSta _ _ => rfl
  | spawn => rfl
  | arm => rfl

/-- No callback boots the transceiver, and only a fatal error stops it. -/
theorem booted_callback : (callback b e s).booted = (s.booted && e != .fatal) := by
  cases e with
  | scanRx r =>
    simp only [callback, scanRxCb]
    split <;> exact (Bool.and_true _).symm
  | fatal => exact (Bool.and_false _).symm
  | sta _ => exact (Bool.and_true _).symm
  | link _ => exact (Bool.and_true _).symm
  | rx _ => exact (Bool.and_true _).symm
  | scanComplete => exact (Bool.and_true _).symm
  | apSta _ _ => exact (Bool.and_true _).symm
  | spawn => exact (Bool.and_true _).symm
  | arm => exact (Bool.and_true _).symm

theorem booted_of_callback (h : (callback b e s).booted = true) : s.booted = true := by
  rw [booted_callback, Bool.and_eq_true] at h
  exact h.1

/-- Only a result of a sweep touches the entries of the cache. -/
theorem scanResults_callback (he : ∀ r, e ≠ .scanRx r) :
    (callback b e s).scanResults = s.scanResults := by
  cases e with
  | scanRx r => exact absurd rfl (he r)
  | sta _ => rfl
  | fatal => rfl
  | link _ => rfl
  | rx _ => rfl
  | scanComplete => rfl
  | apSta _ _ => rfl
  | spawn => rfl
  | arm => rfl

/-- The cache never holds more than it has room for. -/
theorem length_scanResults_callback (h : s.scanResults.length ≤ s.scanCacheMax) :
    (callback b e s).scanResults.length ≤ s.scanCacheMax := by
  by_cases he : ∃ r, e = .scanRx r
  · obtain ⟨r, rfl⟩ := he
    simp only [callback, scanRxCb]
    split
    · exact length_scanCacheAdd_le h
    · exact h
  · rw [scanResults_callback fun r hr => he ⟨r, hr⟩]
    exact h

/-- Without a cache nothing is kept. -/
theorem scanResults_callback_of_none (h : s.scanCache = false) :
    (callback b e s).scanResults = s.scanResults := by
  by_cases he : ∃ r, e = .scanRx r
  · obtain ⟨r, rfl⟩ := he
    simp only [callback, scanRxCb, h, Bool.false_eq_true, if_false]
  · exact scanResults_callback fun r hr => he ⟨r, hr⟩

/-- The assertion is about what callbacks leave alone. -/
def Still (P : State → Prop) : Prop := ∀ s, P s ↔ P (still s)

/-- **Callbacks keep what is said of the rest.** -/
theorem Still.callback {P : State → Prop} (h : Still P) (hs : P s) : P (callback b e s) :=
  (h _).mpr (by rw [still_callback]; exact (h s).mp hs)

/-! ## The smaller calls -/

/-- Asking changes nothing but the sweeps and the flags of an interface that is added. -/
theorem enter_eq {q : Ask} (h : ∀ itf, q ≠ .netifAdd itf) (s : State) :
    ∃ m, enter b c q s = { s with lib := { s.lib with sweeps := m } } := by
  cases q with
  | mmwlan f => cases f <;> exact ⟨_, rfl⟩
  | netifAdd itf => exact absurd rfl (h itf)
  | schedWait ms => exact ⟨s.lib.sweeps, rfl⟩
  | portHeapAlloc => exact ⟨s.lib.sweeps, rfl⟩
  | osalMalloc => exact ⟨s.lib.sweeps, rfl⟩

/-- An answer changes nothing but morselib and lwIP's list. -/
theorem leave_eq {q : Ask} (h : ∀ itf, q ≠ .netifAdd itf) (a : q.Ans) (s : State) :
    ∃ m, leave b c q a s = { s with lib := m } := by
  cases q with
  | mmwlan f => exact ⟨_, rfl⟩
  | netifAdd itf => exact absurd rfl (h itf)
  | schedWait ms => exact ⟨s.lib, rfl⟩
  | portHeapAlloc => exact ⟨s.lib, rfl⟩
  | osalMalloc => exact ⟨s.lib, rfl⟩

/-- Neither changes what is the driver's own. -/
theorem enter_inner (q : Ask) (s : State) : ∃ n m, enter b c q s = { s with lwip := n, lib := m } := by
  cases q with
  | mmwlan f => cases f <;> exact ⟨_, _, rfl⟩
  | netifAdd itf => exact ⟨_, _, rfl⟩
  | schedWait ms => exact ⟨s.lwip, s.lib, rfl⟩
  | portHeapAlloc => exact ⟨s.lwip, s.lib, rfl⟩
  | osalMalloc => exact ⟨s.lwip, s.lib, rfl⟩

theorem leave_inner (q : Ask) (a : q.Ans) (s : State) :
    ∃ n m, leave b c q a s = { s with lwip := n, lib := m } := by
  cases q with
  | mmwlan f => exact ⟨_, _, rfl⟩
  | netifAdd itf => exact ⟨_, _, rfl⟩
  | schedWait ms => exact ⟨s.lwip, s.lib, rfl⟩
  | portHeapAlloc => exact ⟨s.lwip, s.lib, rfl⟩
  | osalMalloc => exact ⟨s.lwip, s.lib, rfl⟩

/-- The assertion is not about lwIP and morselib. -/
def Inner (P : State → Prop) : Prop := ∀ s n m, P s → P { s with lwip := n, lib := m }

theorem Inner.enter {P : State → Prop} (h : Inner P) (q : Ask) (hs : P s) : P (enter b c q s) := by
  obtain ⟨n, m, hq⟩ := enter_inner (b := b) (c := c) q s
  rw [hq]
  exact h s n m hs

theorem Inner.leave {P : State → Prop} (h : Inner P) (q : Ask) (a : q.Ans) (hs : P s) :
    P (leave b c q a s) := by
  obtain ⟨n, m, hq⟩ := leave_inner (b := b) (c := c) q a s
  rw [hq]
  exact h s n m hs

/-- Settings that stand for any others. -/
def Settings.zero : Settings := ⟨false, 0, false, false, false, 0, 0, 0, 0, 0, 0, 0⟩

/-- The state without the settings, the network to join and the station's link status. -/
def rest (s : State) : State :=
  { s with
    pm := 0, psTimeoutMs := 0, ampdu := false, sgi := false, subbands := false,
    listenInterval := 0, txpower := 0, dutyCycleMode := 0, rtsThreshold := 0,
    fragmentThreshold := 0, wnmPowerdown := false, healthMinMs := 0, healthMaxMs := 0,
    staSsid := [], linkStatus := .down, apAuth := 0, apSsid := [], apKey := [], apChanNum := 0,
    lib := { s.lib with settings := .zero } }

/-- The functions of morselib that change nothing but settings and associations. -/
def Mmwlan.plain : Mmwlan → Bool
  | init | deinit | boot | shutdown | setChannelList _ | apEnable _ | apDisable | scanRequest => false
  | _ => true

/-- A plain function of morselib, or a wait. -/
def PlainAsk : Ask → Prop
  | .mmwlan f => f.plain = true
  | .schedWait _ => True
  | _ => False

/-- Code that changes nothing of the rest. -/
abbrev Plain {α : Type} (p : Halow α) : Prop :=
  p.Within (fun f => ∀ s, rest (f s) = rest s) PlainAsk

theorem PlainAsk.ne_netifAdd {q : Ask} (h : PlainAsk q) (itf : Itf) : q ≠ .netifAdd itf := by
  rintro rfl
  exact h

/-! ## Plain code -/

theorem plain_schedWaitIdle (ms : Nat) : Plain (schedWaitIdle ms) :=
  Proc.within_request.mpr trivial

theorem plain_of_inPm {f : Mmwlan} (h : f.inPm = true) : f.plain = true := by
  cases f <;> first | rfl | exact absurd h Bool.false_ne_true

theorem plain_of_inRadio {f : Mmwlan} (h : f.inRadio = true) : f.plain = true := by
  cases f <;> first | rfl | exact absurd h Bool.false_ne_true

theorem plain_applyRadio : Plain applyRadio := by
  refine within_applyRadio.mono (fun _ hf _ => hf ▸ rfl) ?_
  rintro _ ⟨f, rfl, hf⟩
  exact plain_of_inRadio hf

theorem plain_applyPm : Plain applyPm := by
  refine within_applyPm.mono (fun _ hf _ => hf ▸ rfl) ?_
  rintro _ ⟨f, rfl, hf⟩
  exact plain_of_inPm hf

/-- The calls that are plain. -/
def Call.plain : Call → Bool
  | init | deinit | setUp _ _ _ | scanCached _ | leave _ => false
  | _ => true

theorem small_of_plain (h : c.plain = true) : c.small = true := by
  cases c <;> first | rfl | exact absurd h Bool.false_ne_true

theorem plain_of_tells {f : Mmwlan} (hc : c.plain = true) (h : c.tells f = true) : f.plain = true := by
  unfold Call.tells at h
  split at h <;> first
    | rfl
    | exact plain_of_inPm h
    | exact absurd h Bool.false_ne_true
    | exact absurd hc Bool.false_ne_true

/-- **The smaller calls are plain.** -/
theorem plain_body (h : c.plain = true) : Plain (c.body b) := by
  have hsteps : Steps b [.call c] (c.body b) := steps_call (small_of_plain h) (List.mem_singleton.mpr rfl)
  refine hsteps.one (fun f hf s => ?_) fun q hq => ?_
  · cases hf <;> rfl
  · cases hq with
    | tells ht => exact plain_of_tells h ht
    | aborted => trivial

/-! ## Calls that leave the interfaces alone -/

theorem update_ap (u : Itf → Bool) (v : Bool) : Function.update u .ap v .sta = u .sta :=
  Function.update_of_ne (by decide) v u

theorem update_sta (u : Itf → Bool) (v : Bool) : Function.update u .sta v .ap = u .ap :=
  Function.update_of_ne (by decide) v u

/-- What most code leaves alone: the interfaces and the transceiver. -/
structure Apart (s t : State) : Prop where
  initted : t.initted = s.initted
  booted : t.booted = s.booted
  itfState : t.itfState = s.itfState
  lwip : t.lwip = s.lwip
  apRunning : t.lib.apRunning = s.lib.apRunning

theorem Apart.of_rest {t : State} (h : rest t = rest s) : Apart s t where
  initted := (congrArg State.initted h :)
  booted := (congrArg State.booted h :)
  itfState := (congrArg State.itfState h :)
  lwip := (congrArg State.lwip h :)
  apRunning := (congrArg (fun s => s.lib.apRunning) h :)

/-- The calls that bring interfaces up and down. -/
def Call.moves : Call → Bool
  | init | deinit | setUp _ _ _ => true
  | _ => false

/-- What `mm_halow_wifi_scan_cached` asks for, and what the other calls do. -/
def SweepAsk (q : Ask) : Prop := PlainAsk q ∨ q = .osalMalloc ∨ q = .mmwlan .scanRequest

def ApartAsk (q : Ask) : Prop := SweepAsk q ∨ q = .mmwlan .apDisable

theorem ApartAsk.ne_netifAdd {q : Ask} (h : ApartAsk q) (itf : Itf) : q ≠ .netifAdd itf := by
  rintro rfl
  obtain (h | h | h) | h := h
  · exact h
  · exact nomatch h
  · exact nomatch h
  · exact nomatch h

theorem within_scanCached {max : Nat} :
    (wifiScanCached b max).Within (fun f => ∀ s, Apart s (f s)) SweepAsk := by
  refine Steps.one (steps_scanCached (List.mem_singleton.mpr rfl)) (fun f hf s => ?_) fun q hq => ?_
  · cases hf <;> exact ⟨rfl, rfl, rfl, rfl, rfl⟩
  · cases hq with
    | cache => exact .inr (.inl rfl)
    | request => exact .inr (.inr rfl)
    | complete => exact .inl trivial

/-- **The calls that bring no interface up or down** leave interfaces and transceiver alone. -/
theorem within_apart (h : c.moves = false) :
    (c.body b).Within (fun f => ∀ s, Apart s (f s)) ApartAsk := by
  by_cases hp : c.plain = true
  · exact (plain_body hp).mono (fun f hf s => .of_rest (hf s)) fun q hq => .inl (.inl hq)
  cases c with
  | scanCached max => exact within_scanCached.mono (fun _ h => h) fun _ h => .inl h
  | leave itf =>
    refine .ite (.bind (Proc.within_request.mpr (.inr rfl)) fun _ => trivial) ?_
    refine .bind (Proc.within_store.mpr fun _ => ⟨rfl, rfl, rfl, rfl, rfl⟩) fun _ => ?_
    exact .bind (Proc.within_request.mpr (.inl (.inl rfl))) fun _ => trivial
  | init => exact nomatch h
  | deinit => exact nomatch h
  | setUp itf up country => exact nomatch h
  | _ => exact absurd rfl hp

/-- So does disabling what an interface runs. -/
theorem within_disable {itf : Itf} : (disable b itf).Within (fun f => ∀ s, Apart s (f s)) ApartAsk := by
  refine Steps.one (steps_disable (List.mem_singleton.mpr rfl)) (fun f hf s => ?_) fun q hq => ?_
  · cases hf <;> exact ⟨rfl, rfl, rfl, rfl, rfl⟩
  · cases hq with
    | apDisable => exact .inr rfl
    | staDisable => exact .inl (.inl rfl)

/-- `mm_halow_set_country` touches only the record. -/
theorem within_setCountry {country : List UInt8} : (setCountry b country).Within
    (fun f => ∀ s, Apart s (f s)) (fun q => ∃ l, q = .mmwlan (.setChannelList l)) := by
  refine Steps.one (steps_setCountry (List.mem_singleton.mpr rfl)) (fun f hf s => ?_) fun q hq => ?_
  · cases hf <;> exact ⟨rfl, rfl, rfl, rfl, rfl⟩
  · cases hq with
    | channels l => exact ⟨l, rfl⟩

/-! ## Taking an interface down -/

/-- What a step of the take-down leaves alone. -/
structure DownFrame (itf : Itf) (s t : State) : Prop where
  initted : t.initted = s.initted
  lib : t.lib = s.lib
  others : ∀ i, i ≠ itf → t.itfState i = s.itfState i

/-- What it asks for. -/
def DownAsk (q : Ask) : Prop :=
  q = .mmwlan .apDisable ∨ q = .mmwlan .staDisable ∨ q = .mmwlan .shutdown

theorem within_takeDown {itf : Itf} : (takeDown b itf).Within
    (fun f => ∀ s, DownFrame itf s (f s)) DownAsk := by
  refine (steps_takeDown (List.Subset.refl _)).within (fun _ => ⟨rfl, rfl, fun _ _ => rfl⟩) ?_ ?_
  · intro stage hm f hf s
    rcases mem_downStages.mp hm with rfl | rfl
    · cases hf <;> exact ⟨rfl, rfl, fun _ _ => rfl⟩
    · cases hf with
      | lowered => exact ⟨rfl, rfl, fun i hi => Function.update_of_ne hi false s.itfState⟩
      | _ => exact ⟨rfl, rfl, fun _ _ => rfl⟩
  · intro stage hm q hq
    rcases mem_downStages.mp hm with rfl | rfl
    · cases hq with
      | apDisable => exact .inl rfl
      | staDisable => exact .inr (.inl rfl)
    · cases hq with
      | downShutdown => exact .inr (.inr rfl)

/-! ## Initialising the driver -/

/-- What a step of `mm_halow_init` leaves alone: no interface comes up, and the transceiver and its
channels stay. -/
structure InitFrame (s t : State) : Prop where
  booted : t.booted = s.booted
  itf : ∀ i, t.itfState i = true → s.itfState i = true
  channels : t.channels = s.channels
  country : t.country = s.country
  lib : t.lib = s.lib

/-- What `mm_halow_init` asks for. -/
def InitAsk (q : Ask) : Prop :=
  q = .portHeapAlloc ∨ q = .osalMalloc ∨ q = .mmwlan .init ∨ PlainAsk q

theorem InitAsk.ne_netifAdd {q : Ask} (h : InitAsk q) (itf : Itf) : q ≠ .netifAdd itf := by
  rintro rfl
  obtain h | h | h | h := h
  · exact nomatch h
  · exact nomatch h
  · exact nomatch h
  · exact h

theorem within_initDriver : (initDriver b).Within (fun f => ∀ s, InitFrame s (f s)) InitAsk := by
  refine Steps.one (steps_initDriver (List.mem_singleton.mpr rfl)) (fun f hf s => ?_) fun q hq => ?_
  · cases hf with
    | initItf => exact ⟨rfl, fun _ h => absurd h Bool.false_ne_true, rfl, rfl, rfl⟩
    | _ => exact ⟨rfl, fun _ h => h, rfl, rfl, rfl⟩
  · cases hq with
    | pool => exact .inl rfl
    | buffer => exact .inr (.inl rfl)
    | @atInit f h =>
      by_cases hinit : f = .init
      · exact .inr (.inr (.inl (congrArg Ask.mmwlan hinit)))
      · refine .inr (.inr (.inr ?_))
        change f.plain = true
        cases f <;> first
          | rfl
          | exact absurd rfl hinit
          | exact absurd h Bool.false_ne_true

/-! ## Enabling the access point -/

/-- `mm_halow_ap_enable` empties the list of stations and asks for nothing else. -/
theorem within_apEnable (b : Build) : (apEnable b).Within
    (fun f => ∃ g : State → List Mac, f = fun s => { s with apStas := g s })
    (fun q => ∃ args, q = .mmwlan (.apEnable args)) := by
  refine Steps.one (steps_apEnable (List.mem_singleton.mpr rfl)) (fun f hf => ?_) fun q hq => ?_
  · cases hf with
    | load => exact ⟨State.apStas, rfl⟩
    | apStas => exact ⟨fun _ => [], rfl⟩
  · cases hq with
    | apEnable args => exact ⟨args, rfl⟩

/-! ## Bringing an interface up -/

/-- What a step of the bring-up from the accepted channel list on leaves alone. -/
structure UpFrame (itf : Itf) (s t : State) : Prop where
  initted : t.initted = s.initted
  channels : t.channels = s.channels
  country : t.country = s.country
  lib : t.lib = s.lib
  others : ∀ i, i ≠ itf → t.itfState i = s.itfState i

theorem UpFrame.refl {itf : Itf} : UpFrame itf s s := ⟨rfl, rfl, rfl, rfl, fun _ _ => rfl⟩

/-- What it asks for. -/
def UpAsk (itf : Itf) (q : Ask) : Prop :=
  q = .mmwlan .boot ∨ q = .mmwlan .getVifMacAddr ∨ (itf = .ap ∧ ∃ args, q = .mmwlan (.apEnable args)) ∨
    q = .netifAdd itf

theorem within_bringUp {itf : Itf} :
    (bringUp b itf).Within (fun f => ∀ s, UpFrame itf s (f s)) (UpAsk itf) := by
  refine (steps_bringUp (List.Subset.refl _)).within (fun s => .refl) ?_ ?_
  · intro stage hm f hf s
    rcases mem_upStages.mp hm with rfl | rfl | ⟨rfl, rfl⟩
    · cases hf <;> exact ⟨rfl, rfl, rfl, rfl, fun _ _ => rfl⟩
    · cases hf with
      | raised => exact ⟨rfl, rfl, rfl, rfl, fun i hi => Function.update_of_ne hi true s.itfState⟩
      | _ => exact ⟨rfl, rfl, rfl, rfl, fun _ _ => rfl⟩
    · cases hf <;> exact ⟨rfl, rfl, rfl, rfl, fun _ _ => rfl⟩
  · intro stage hm q hq
    rcases mem_upStages.mp hm with rfl | rfl | ⟨rfl, rfl⟩
    · cases hq with
      | boot => exact .inl rfl
      | mac => exact .inr (.inl rfl)
    · cases hq with
      | netifAdd => exact .inr (.inr (.inr rfl))
    · cases hq with
      | apEnable args => exact .inr (.inr (.inl ⟨rfl, args, rfl⟩))

/-! ## What plain code keeps -/

/-- The assertion is about the rest. -/
def Restful (P : State → Prop) : Prop := ∀ s, P s ↔ P (rest s)

theorem Restful.of_eq {P : State → Prop} (h : Restful P) {s t : State} (hst : rest s = rest t)
    (hs : P s) : P t := (h t).mpr (hst ▸ (h s).mp hs)

variable {W : World State Ask Ask.Ans Call Callback Ret} {S : Spec W} {P : State → Prop}

/-- **Plain code keeps what is said of the rest.** -/
theorem Plain.triple {α : Type} {p : Halow α} (h : Plain p) (hP : S.Steady P) (hP' : S.Patient P)
    (hrest : Restful P) (hq : ∀ q, PlainAsk q → S.Unmoved c P q) : S.Triple c P p fun _ => P :=
  .ofWithin (h.mono (fun _ hf s hs => hrest.of_eq (hf s).symm hs) hq) hP hP'

end MmHalow.Ctrl
