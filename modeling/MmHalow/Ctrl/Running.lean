import MmHalow.Ctrl.Linked

/-!
# The transceiver runs while an interface is up (`mm_halow_wifi_set_up`)

`mm_halow_wifi_set_up` boots the transceiver for the first interface and shuts it down with the last.
`Powered` says that `booted` and `itf_state` agree.

* `powered_runs`: they do after every call, and a bring-up that fails changes neither, as long as no
  fatal error is reported and an access point that boots the transceiver is also enabled.
* `powered_left_on`: an access point that cannot be enabled leaves the transceiver running.
-/

namespace MmHalow.Ctrl

open MmHalow.Lib

/-- **`booted` and `itf_state` agree.** -/
def Powered (s : State) : Prop := s.booted = true ↔ ∃ itf, s.itfState itf = true

/-- The call is `mm_halow_wifi_set_up(MM_HALOW_ITF_AP, true, ...)`. -/
def Call.isApUp : Call → Bool
  | setUp itf up _ => itf == 1 && up
  | _ => false

/-- What `mm_halow_ap_enable` requires of an access point without a station. -/
structure ApReady (s : State) : Prop where
  pm : s.pm = pmNone
  ssid : s.apSsid ≠ []
  channel : (apChannel s.apChanNum s.channels).isSome = true
  key : s.apAuth = secSae → s.apKey ≠ []

/-- No fatal error is reported. -/
def NoFatal : Happening → Prop
  | .cb e => e ≠ .fatal
  | _ => True

/-- **An access point that boots the transceiver is enabled**: it is ready, and morselib refuses an
access point only while an interface is up. -/
def ApStarts (b : Build) (is : List Doing) (s : State) : Happening → Prop
  | .answer (.mmwlan .boot) st => st = Status.success → b.enableAp = true →
    ∀ d ∈ is, d.call.isApUp = true → ApReady s
  | .answer (.mmwlan (.apEnable _)) st => st ≠ Status.success → ∃ itf, s.itfState itf = true
  | _ => True

/-- The specification. -/
def poweredSpec (b : Build) : Spec (oneAtATime b) :=
  .oneAtATime (world b) (fun is s e => (NoFatal e ∧ ApStarts b is s e) ∧ FromLinked s e)
    (fun _ _ _ => True)
    (fun i r s => ∀ itf country, i.call = .setUp itf true country → r ≠ .ok →
      s.booted = i.entry.booted ∧ s.itfState = i.entry.itfState)
    Powered

variable {b : Build} {c : Call} {s : State} {bt : Bool} {it : Itf → Bool} {P : State → Prop}

/-! ## Assertions -/

/-- The transceiver runs or not, and `P` holds. -/
def On (bt : Bool) (P : State → Prop) (s : State) : Prop := s.booted = bt ∧ P s

/-- What the interfaces are. -/
def Itfs (it : Itf → Bool) (s : State) : Prop := s.itfState = it

theorem still_itfs : Still (Itfs it) := fun _ => Iff.rfl

theorem still_apReady : Still ApReady := fun _ =>
  ⟨fun h => ⟨h.pm, h.ssid, h.channel, h.key⟩, fun h => ⟨h.pm, h.ssid, h.channel, h.key⟩⟩

theorem Still.and {P' : State → Prop} (h : Still P) (h' : Still P') : Still fun s => P s ∧ P' s :=
  fun s => and_congr (h s) (h' s)

theorem steady_on (h : Still P) : (poweredSpec b).Steady (On bt P) := by
  intro is s e hok hs
  have he : e ≠ .fatal := hok.1.1
  exact ⟨by rw [← hs.1]; exact (booted_callback.trans (by simp [he])), h.callback hs.2⟩

theorem unmoved_inner (h : Inner P) (q : Ask) : (poweredSpec b).Unmoved c P q where
  guard _ _ _ := trivial
  enter _ hs := h.enter (c := c) q hs
  leave a _ hs := h.leave (c := c) q a hs
  entry _ _ _ h := nomatch h

/-- Code that leaves interfaces and transceiver alone. -/
theorem on_apart {α : Type} {p : Halow α} {G : Ask → Prop} {bt : Bool} {it : Itf → Bool}
    (h : p.Within (fun f => ∀ s, Apart s (f s)) G) :
    (poweredSpec b).Triple c (On bt (Itfs it)) p fun _ => On bt (Itfs it) :=
  .ofWithin (h.mono (fun _ hf s hs => ⟨(hf s).booted.trans hs.1, (hf s).itfState.trans hs.2⟩)
    fun q _ => unmoved_inner (fun _ _ _ h => h) q) (steady_on still_itfs) (steady_on still_itfs).patient

/-! ## Bringing an interface up -/

/-- The interface is up. -/
def Up (itf : Itf) (s : State) : Prop := s.itfState itf = true

theorem still_up {itf : Itf} : Still (Up itf) := fun _ => Iff.rfl

/-- A step, and what it leads to. -/
theorem on_store {f : State → State} {P' : State → Prop} (h : Still P)
    (hf : ∀ s, On bt P s → P' (f s)) :
    (poweredSpec b).Triple c (On bt P) (store f) fun _ => P' := .store (steady_on h) hf

theorem on_load {α : Type} {g : State → α} {R : α → State → Prop} (h : Still P)
    (hR : ∀ s, On bt P s → R (g s) s) : (poweredSpec b).Triple c (On bt P) (load g) R :=
  .load (steady_on h) hR

/-- An interface is up once it is raised. -/
theorem raise_on {itf : Itf} : (poweredSpec b).Triple c (On true fun _ => True) (raise b itf) fun r s =>
    r = .ok ∧ Powered s := by
  have htrue : Still fun _ => True := fun _ => Iff.rfl
  have hinit : (poweredSpec b).Triple c (On true fun _ => True) (tcpipInit b itf) fun _ =>
      On true fun _ => True := by
    refine .ofWithin ?_ (steady_on htrue) (steady_on htrue).patient
    refine .bind (Proc.within_request.mpr (unmoved_inner (fun _ _ _ h => h) _)) fun _ => ?_
    exact Proc.within_store.mpr fun _ h => h
  refine .seq (M := fun isUp => On true fun s => s.itfState itf = isUp)
    (on_load htrue fun s hs => ⟨hs.1, rfl⟩) fun isUp => ?_
  refine .seq (M := fun _ => On true (Up itf)) (.ite (fun _ => ?_) fun hup => ?_) fun _ => ?_
  · refine .seq (hinit.mono (fun s hs => ⟨hs.1, trivial⟩) fun _ _ h => h) fun _ => ?_
    exact on_store htrue fun s hs => ⟨hs.1, by simp [Up]⟩
  · have hup : isUp = true := by simpa using hup
    exact .pure fun s hs => ⟨hs.1, hs.2.trans hup⟩
  · refine .seq (M := fun _ => On true (Up itf)) (.ite (fun _ => ?_) fun _ => .pure fun _ hs => hs)
      fun _ => .pure fun s hs => ⟨rfl, fun _ => ⟨itf, hs.2⟩, fun _ => hs.1⟩
    exact on_store still_up fun s hs => hs

/-- The access point is ready, and no interface is up. -/
def Ready (s : State) : Prop := Itfs (fun _ => false) s ∧ ApReady s

theorem still_ready : Still Ready := still_itfs.and still_apReady

/-- What is read of an access point that is ready. -/
theorem ready_load {α : Type} {g : State → α} {φ : α → Prop} (h : ∀ s, Ready s → φ (g s)) :
    (poweredSpec b).Triple c (On true Ready) (load g) fun a s => On true Ready s ∧ φ a :=
  on_load still_ready fun s hs => ⟨hs, h s hs.2⟩

/-- `mm_halow_ap_enable` of an access point that is ready. -/
theorem apEnable_on : (poweredSpec b).Triple c (On true Ready) (apEnable b) fun r s =>
    r = .ok ∧ On true (fun _ => True) s := by
  have hstart : ∀ ch, (poweredSpec b).Triple c (On true Ready) (apStart ch) fun r s =>
      r = .ok ∧ On true (fun _ => True) s := by
    intro ch
    refine .seq (M := fun _ => On true Ready) (on_store still_ready fun s hs =>
      ⟨hs.1, hs.2.1, hs.2.2.pm, hs.2.2.ssid, hs.2.2.channel, hs.2.2.key⟩) fun _ => ?_
    refine .seq (M := fun _ => On true Ready) (on_load still_ready fun _ hs => hs) fun ssid => ?_
    refine .seq (M := fun auth => On true fun s => Ready s ∧ s.apAuth = auth)
      (on_load still_ready fun s hs => ⟨hs.1, hs.2, rfl⟩) fun auth => ?_
    refine .seq (M := fun key s => On true Ready s ∧ (auth = secSae → key ≠ []))
      (on_load (still_ready.and fun _ => Iff.rfl) fun s hs =>
        ⟨⟨hs.1, hs.2.1⟩, fun h => hs.2.1.2.key (hs.2.2.trans h)⟩) fun key => .of_and fun hkey => ?_
    refine .ite (fun h => absurd h.2 (hkey h.1)) fun _ => .seq (M := fun st s =>
      st = Status.success ∧ On true (fun _ => True) s) ?_ fun st => .pure fun s hs =>
      ⟨statusToErrno_eq_ok.mpr hs.1, hs.2⟩
    -- morselib may refuse only while an interface is up
    refine .request (D := On true Ready) (steady_on still_ready) (steady_on still_ready).patient
      (fun _ _ _ => trivial) (fun s hs => hs) (fun _ _ _ h => nomatch h) fun is st s hs _ hok =>
      ⟨by_contra fun hst => ?_, hs.1, trivial⟩
    obtain ⟨itf, hitf⟩ := hok.1.2 hst
    have hdown : s.itfState itf = false := congrFun hs.2.1 itf
    exact Bool.false_ne_true (hdown.symm.trans hitf)
  refine .seq (ready_load (φ := (· = pmNone)) fun s hs => hs.2.pm) fun pm => .of_and fun hpm =>
    .ite (fun h => absurd hpm h) fun _ => ?_
  refine .seq (ready_load (φ := (· ≠ [])) fun s hs => hs.2.ssid) fun ssid => .of_and fun hssid =>
    .ite (fun h => absurd h hssid) fun _ => ?_
  refine .seq (ready_load (φ := fun _ => True) fun _ _ => trivial) fun isUp => .of_and fun _ => .ite
    (fun _ => ?_) fun _ => hstart _
  refine .seq (ready_load (φ := (·.isSome = true)) fun s hs => hs.2.channel) fun ch =>
    .of_and fun hch => ?_
  cases ch with
  | none => exact nomatch hch
  | some ch => exact hstart _

theorem On.powered (hit : bt = true ↔ ∃ i, it i = true) (h : On bt (Itfs it) s) : Powered s := by
  rw [Powered, h.1, h.2]
  exact hit

/-- What a bring-up is shown to end with. -/
def Ends (bt : Bool) (it : Itf → Bool) (r : Ret) (s : State) : Prop :=
  if r = .ok then Powered s else On bt (Itfs it) s

theorem Ends.of_ok {r : Ret} (h : r = .ok ∧ Powered s) : Ends bt it r s := (if_pos h.1).mpr h.2

theorem Ends.of_on {r : Ret} (hit : bt = true ↔ ∃ i, it i = true) (h : On bt (Itfs it) s) :
    Ends bt it r s := by
  unfold Ends
  split
  · exact h.powered hit
  · exact h

/-- An interface that is brought up where the transceiver runs. -/
theorem afterBoot_on {itf : Itf} (hit : ∃ i, it i = true) : (poweredSpec b).Triple c
    (On true (Itfs it)) (bringUp.afterBoot b itf) (Ends true it) := by
  have hraise : (poweredSpec b).Triple c (On true (Itfs it)) (raise b itf) (Ends true it) :=
    raise_on.mono (fun s hs => ⟨hs.1, trivial⟩) fun _ _ h => .of_ok h
  refine .ite (fun _ => .seq (M := fun _ => On true (Itfs it)) ?_ fun r => .ite (fun hr => ?_)
    fun _ => hraise) fun _ => hraise
  · refine on_apart ((within_apEnable b).mono ?_ fun _ h => h)
    rintro _ ⟨g, rfl⟩ s
    exact ⟨rfl, rfl, rfl, rfl, rfl⟩
  · exact .pure fun s hs => .of_on ⟨fun _ => hit, fun _ => rfl⟩ hs

/-- Where the transceiver boots for an access point, that is ready. -/
theorem boot_on : (poweredSpec b).Triple c (On false (Itfs it)) (mmwlan .boot) fun st s =>
    On false (Itfs it) s ∧ (st = Status.success → b.enableAp = true → c.isApUp = true → ApReady s) := by
  intro κ l s hc hs
  refine Spec.wp_request (steady_on still_itfs) hs (fun _ _ _ => trivial)
    (fun t u ht hu => (steady_on still_itfs).patient _ _ u hu ht) (fun _ _ h => nomatch h)
    fun t st ht _ hok => ⟨ht, fun hst hb hap => ?_⟩
  have h := hok.1.2 hst hb _ List.mem_cons_self (hc ▸ hap)
  exact ⟨h.pm, h.ssid, h.channel, h.key⟩

/-- **Bringing an interface up.** -/
theorem bringUp_on {itf : Itf} (hit : bt = true ↔ ∃ i, it i = true)
    (hap : itf = .ap → c.isApUp = true) :
    (poweredSpec b).Triple c (On bt (Itfs it)) (bringUp b itf) (Ends bt it) := by
  refine .seq (M := fun booted s => On bt (Itfs it) s ∧ booted = bt) (on_load still_itfs fun s hs =>
    ⟨hs, hs.1⟩) fun booted => .of_and fun hb => ?_
  subst hb
  refine .ite (fun hb => ?_) fun hb => ?_
  case refine_2 =>
    obtain rfl : booted = true := by simpa using hb
    exact afterBoot_on (hit.mp rfl)
  obtain rfl : booted = false := by simpa using hb
  obtain rfl : it = fun _ => false := funext fun i => Bool.eq_false_iff.mpr fun h =>
    Bool.false_ne_true (hit.mpr ⟨i, h⟩)
  refine .seq boot_on fun st => .ite (fun _ => .pure fun s hs => Ends.of_on hit hs.1) fun hst => ?_
  have hst : st = Status.success := not_not.mp hst
  have hboot : ∀ {P : State → Prop}, Still P → Inner P → (∀ s, P s → P { s with booted := true }) →
      (poweredSpec b).Triple c (On true P) (bringUp.afterBoot b itf) (Ends false fun _ => false) →
      (poweredSpec b).Triple c (On false P) (do
        store fun s => { s with booted := true }
        tell .getVifMacAddr
        bringUp.afterBoot b itf) (Ends false fun _ => false) := fun h h' hb hafter =>
    .seq (on_store h fun s hs => ⟨rfl, hb s hs.2⟩) fun _ => .seq (.ofWithin
      (.bind (Proc.within_request.mpr (unmoved_inner (fun s n m hs => ⟨hs.1, h' s n m hs.2⟩) _))
        fun _ => trivial) (steady_on h) (steady_on h).patient) fun _ => hafter
  by_cases hcond : b.enableAp = true ∧ itf = .ap
  · refine .mono (hboot still_ready ?_ ?_ ?_)
      (fun s hs => ⟨hs.1.1, hs.1.2, hs.2 hst hcond.1 (hap hcond.2)⟩) fun _ _ h => h
    · exact fun s n m hs => ⟨hs.1, hs.2.pm, hs.2.ssid, hs.2.channel, hs.2.key⟩
    · exact fun s hs => ⟨hs.1, hs.2.pm, hs.2.ssid, hs.2.channel, hs.2.key⟩
    · refine .ite (fun _ => .seq apEnable_on fun r => ?_) fun h => absurd hcond h
      refine .ite (fun h => .pure fun s hs => absurd hs.1 h) fun _ => ?_
      exact raise_on.mono (fun s hs => hs.2) fun _ _ h => .of_ok h
  · refine .mono (hboot still_itfs (fun _ _ _ hs => hs) (fun _ hs => hs) ?_) (fun s hs => hs.1)
      fun _ _ h => h
    refine .ite (fun h => absurd h hcond) fun _ => ?_
    exact raise_on.mono (fun s hs => ⟨hs.1, trivial⟩) fun _ _ h => .of_ok h

/-! ## Taking an interface down -/

/-- The last step of `mm_halow_wifi_set_up(itf, false)`. -/
theorem shutdown_on : (poweredSpec b).Triple c (On bt (Itfs it)) (do
    store fun s => { s with teardown := true }
    tell .shutdown
    store fun s => { s with teardown := false }
    store fun s => { s with booted := false }) fun _ => On false (Itfs it) := by
  refine .seq (M := fun _ => On bt (Itfs it)) (on_store still_itfs fun _ hs => hs) fun _ => ?_
  refine .seq (M := fun _ => On bt (Itfs it)) (.ofWithin (.bind (Proc.within_request.mpr
    (unmoved_inner (fun _ _ _ hs => hs) _)) fun _ => trivial) (steady_on still_itfs)
    (steady_on still_itfs).patient) fun _ => ?_
  refine .seq (M := fun _ => On bt (Itfs it)) (on_store still_itfs fun _ hs => hs) fun _ => ?_
  exact on_store still_itfs fun s hs => ⟨rfl, hs.2⟩

/-- **The transceiver stops with the last interface.** -/
theorem takeDown_on {itf : Itf} (hit : bt = true ↔ ∃ i, it i = true) :
    (poweredSpec b).Triple c (On bt (Itfs it)) (takeDown b itf) fun _ s =>
      Powered s ∧ Itfs (Function.update it itf false) s := by
  refine .seq (on_apart within_disable) fun _ => ?_
  refine .seq (M := fun isUp s => On bt (Itfs it) s ∧ isUp = it itf) (on_load still_itfs fun s hs =>
    ⟨hs, congrFun hs.2 itf⟩) fun isUp => .of_and fun hup => ?_
  subst hup
  refine .seq (M := fun _ => On bt (Itfs (Function.update it itf false))) (.ite (fun hup => ?_)
    fun hup => ?_) fun _ => ?_
  · refine .seq (M := fun _ => On bt (Itfs it)) (on_store still_itfs fun _ hs => hs) fun _ => ?_
    refine .seq (M := fun _ => On bt (Itfs it)) (on_store still_itfs fun _ hs => hs) fun _ => ?_
    exact on_store still_itfs fun s hs =>
      ⟨hs.1, congrArg (fun u : Itf → Bool => Function.update u itf false) hs.2⟩
  · refine .pure fun s hs => ⟨hs.1, hs.2.trans ?_⟩
    exact (Function.update_eq_iff.mpr ⟨by simpa using hup, fun _ _ => rfl⟩).symm
  generalize hit' : Function.update it itf false = it'
  have hsub : (∃ i, it' i = true) → bt = true := by
    rintro ⟨i, hi⟩
    refine hit.mpr ⟨i, ?_⟩
    by_cases h : i = itf
    · subst h
      simp [← hit'] at hi
    · rw [← hi, ← hit', Function.update_of_ne h]
  refine .seq (M := fun last s => On bt (Itfs it') s ∧ last = (!it' .sta && !it' .ap))
    (on_load still_itfs fun s hs => ⟨hs, by rw [State.noItf, hs.2]⟩) fun last => .of_and fun hlast => ?_
  subst hlast
  refine .seq (M := fun _ s => Powered s ∧ Itfs it' s) (.ite (fun hlast => ?_) fun hlast => ?_)
    fun _ => .pure fun s hs => hs
  · have hnone : ¬ ∃ i, it' i = true := by
      rintro ⟨i, hi⟩
      cases i <;> simp [hi] at hlast
    exact shutdown_on.mono (fun _ h => h) fun _ s hs =>
      ⟨⟨fun h => absurd (hs.1.symm.trans h) Bool.false_ne_true, fun h => absurd (hs.2 ▸ h) hnone⟩, hs.2⟩
  · have hsome : ∃ i, it' i = true := by
      cases hs : it' .sta with
      | true => exact ⟨.sta, hs⟩
      | false => exact ⟨.ap, by simpa [hs] using hlast⟩
    exact .pure fun s hs => ⟨⟨fun _ => hs.2 ▸ hsome, fun _ => hs.1.trans (hsub hsome)⟩, hs.2⟩

/-! ## Every call -/

theorem initDriver_on {i : Bool} (hi : i = false → bt = false ∧ it = fun _ => false) :
    (poweredSpec b).Triple c (On bt fun s => Itfs it s ∧ s.initted = i) (initDriver b)
      fun _ => On bt (Itfs it) := by
  cases i with
  | true =>
    refine .seq (M := fun i s => On bt (Itfs it) s ∧ i = true) (on_load (still_itfs.and fun _ => Iff.rfl)
      fun s hs => ⟨⟨hs.1, hs.2.1⟩, hs.2.2⟩) fun i => .of_and fun h => ?_
    exact .ite (fun _ => .pure fun _ hs => hs) fun h' => absurd h h'
  | false =>
    obtain ⟨rfl, rfl⟩ := hi rfl
    refine .mono (.ofWithin (within_initDriver.mono (fun f hf s hs => ?_)
      fun q _ => unmoved_inner (fun _ _ _ h => h) q) (steady_on still_itfs) (steady_on still_itfs).patient)
      (fun s hs => ⟨hs.1, hs.2.1⟩) fun _ _ h => h
    refine ⟨(hf s).booted.trans hs.1, funext fun i => Bool.eq_false_iff.mpr fun h => ?_⟩
    exact Bool.false_ne_true ((congrFun hs.2 i).symm.trans ((hf s).itf i h))

theorem setUpItf_up_on {i : Bool} {itf : Itf} {country : List UInt8}
    (hi : i = false → bt = false ∧ it = fun _ => false) (hit : bt = true ↔ ∃ i, it i = true)
    (hap : itf = .ap → c.isApUp = true) :
    (poweredSpec b).Triple c (On bt fun s => Itfs it s ∧ s.initted = i) (setUpItf b itf true country)
      (Ends bt it) := by
  have hstill : Still fun s => Itfs it s ∧ s.initted = i := still_itfs.and fun _ => Iff.rfl
  refine .seq (M := fun _ => On bt fun s => Itfs it s ∧ s.initted = i) (on_load hstill fun _ hs => hs)
    fun _ => .ite (fun _ => .pure fun s hs => .of_on hit ⟨hs.1, hs.2.1⟩) fun _ => ?_
  refine .seq (M := fun _ => On bt (Itfs it)) (.seq (M := fun _ => On bt fun s => Itfs it s ∧ s.initted = i)
    (on_load hstill fun _ hs => hs) fun _ => .ite (fun _ => initDriver_on hi)
    fun _ => .pure fun s hs => ⟨hs.1, hs.2.1⟩) fun _ => ?_
  refine .ite (fun _ => .pure fun s hs => .of_on hit hs) fun _ => ?_
  refine .seq (on_apart within_setCountry) fun _ => .ite (fun _ => .pure fun s hs => .of_on hit hs)
    fun _ => bringUp_on hit hap

/-- The driver stays initialised. -/
def Initted (s : State) : Prop := s.initted = true

theorem still_initted : Still Initted := fun _ => Iff.rfl

theorem steady_still (h : Still P) : (poweredSpec b).Steady P := fun _ _ _ _ hs => h.callback hs

/-- One round of the loop of `mm_halow_deinit`. -/
theorem deinitItf_on {itf : Itf} (hit : bt = true ↔ ∃ i, it i = true) :
    (poweredSpec b).Triple c (On bt fun s => Itfs it s ∧ Initted s) (deinitItf b itf) fun _ s =>
      (Powered s ∧ Itfs (Function.update it itf false) s) ∧ Initted s := by
  have hstill : Still fun s => Itfs it s ∧ Initted s := still_itfs.and still_initted
  have hload : ∀ {α : Type} {g : State → α} {φ : α → Prop},
      (∀ s, (On bt fun s => Itfs it s ∧ Initted s) s → φ (g s)) → (poweredSpec b).Triple c
      (On bt fun s => Itfs it s ∧ Initted s) (load g) fun a s =>
        (On bt fun s => Itfs it s ∧ Initted s) s ∧ φ a := fun h => on_load hstill fun s hs => ⟨hs, h s hs⟩
  refine .seq (hload (φ := (· = it itf)) fun s hs => congrFun hs.2.1 itf) fun isUp => .of_and fun hup => ?_
  refine .ite (fun _ => ?_) fun hdown => .pure fun s hs => ?_
  · refine .seq (hload (φ := fun _ => True) fun _ _ => trivial) fun country => .of_and fun _ => ?_
    rw [setUpItf_false]
    refine .seq (.seq (hload (φ := (· = true)) fun s hs => hs.2.2) fun i => .of_and fun hi =>
      .ite (fun h => by simp [hi] at h) fun _ => ?_) fun _ => .pure fun _ hs => hs
    refine .mono ((takeDown_on hit).and (D := Initted) (K := fun _ => Initted) (.ofWithin
      (within_takeDown.mono (fun f hf s hs => (hf s).initted.trans hs) fun q _ => ?_)
      (steady_still still_initted) (steady_still still_initted).patient))
      (fun s hs => ⟨⟨hs.1, hs.2.1⟩, hs.2.2⟩) fun _ _ h => h
    exact unmoved_inner (fun _ _ _ h => h) q
  · have heq : Function.update it itf false = it :=
      Function.update_eq_iff.mpr ⟨by simpa [hup] using hdown, fun _ _ => rfl⟩
    exact ⟨⟨On.powered hit ⟨hs.1, hs.2.1⟩, hs.2.1.trans heq.symm⟩, hs.2.2⟩

/-- The rest of it stops the transceiver, whatever runs. -/
theorem deinitRest_on : (poweredSpec b).Triple c (Itfs it) deinitRest fun _ => On false (Itfs it) := by
  have hsteady : (poweredSpec b).Steady (Itfs it) := steady_still still_itfs
  have htell : ∀ f, (poweredSpec b).Triple c (Itfs it) (tell f) fun _ => Itfs it := fun f =>
    .ofWithin (.bind (Proc.within_request.mpr (unmoved_inner (fun _ _ _ hs => hs) _)) fun _ => trivial)
      hsteady hsteady.patient
  refine .seq (htell _) fun _ => .seq (M := fun _ => Itfs it) (.store hsteady fun _ hs => hs) fun _ => ?_
  refine .seq (htell _) fun _ => .seq (htell _) fun _ => ?_
  refine .seq (M := fun _ => Itfs it) (.store hsteady fun _ hs => hs) fun _ => ?_
  refine .seq (M := fun _ => On false (Itfs it)) (.store hsteady fun _ hs => ⟨rfl, hs⟩) fun _ => ?_
  refine .ofWithin ?_ (steady_on still_itfs) (steady_on still_itfs).patient
  unfold osalDeinit
  repeat' first
    | exact Proc.within_store.mpr fun _ h => h
    | refine Proc.Within.bind ?_ fun _ => ?_

theorem deinit_on {i : Bool} (hit : bt = true ↔ ∃ i, it i = true) :
    (poweredSpec b).Triple c (On bt fun s => Itfs it s ∧ s.initted = i) (deinitDriver b)
      fun _ => Powered := by
  have hpow : ∀ s, (On bt fun s => Itfs it s ∧ s.initted = i) s → Powered s := fun s hs =>
    On.powered hit ⟨hs.1, hs.2.1⟩
  have hstill : Still fun s => Itfs it s ∧ s.initted = i := still_itfs.and fun _ => Iff.rfl
  refine .seq (M := fun i' s => (On bt fun s => Itfs it s ∧ s.initted = i) s ∧ i' = i)
    (on_load hstill fun s hs => ⟨hs, hs.2.2⟩) fun i' => .of_and fun hi => ?_
  subst hi
  refine .ite (fun _ => .pure fun s hs => hpow s hs) fun hi => ?_
  obtain rfl : i' = true := by simpa using hi
  refine .seq (M := fun _ => On bt fun s => Itfs it s ∧ s.initted = true) (on_load hstill fun _ hs => hs)
    fun _ => .ite (fun _ => .pure fun s hs => hpow s hs) fun _ => ?_
  refine .seq (deinitItf_on hit) fun _ => .seq (M := fun _ => Itfs fun _ => false) ?_ fun _ => ?_
  · intro κ l s hc hs
    have hit' : s.booted = true ↔ ∃ i, Function.update it .sta false i = true :=
      (show s.itfState = _ from hs.1.2) ▸ hs.1.1
    refine Spec.wp_mono (deinitItf_on hit' κ l s hc ⟨rfl, hs.1.2, hs.2⟩)
      fun _ _ t ht => ht.1.2.trans (funext fun i => ?_)
    cases i with
    | sta => simp
    | ap => simp
  · refine .seq deinitRest_on fun _ => .pure fun s hs => On.powered ?_ hs
    exact ⟨nofun, fun ⟨_, h⟩ => nomatch h⟩

theorem steady_powered : (poweredSpec b).Steady Powered := fun is s e hok hs => by
  have h := steady_on (@still_itfs s.itfState) is s e hok ⟨rfl, rfl⟩
  rw [Powered, h.1, h.2]
  exact hs

theorem steady_ends {r : Ret} : (poweredSpec b).Steady (Ends bt it r) := by
  intro is s e hok hs
  unfold Ends at hs ⊢
  split
  case isTrue hr =>
    rw [if_pos hr] at hs
    exact steady_powered is s e hok hs
  case isFalse hr =>
    rw [if_neg hr] at hs
    exact steady_on still_itfs is s e hok hs

theorem powered_sound (b : Build) : (poweredSpec b).Sound := by
  refine Spec.oneAtATime_sound (fun s e h hok => steady_powered [] s e hok h) fun c s hs hok => ?_
  have hlinked : Linked s := hok.2
  have hi : s.initted = false → s.booted = false ∧ s.itfState = fun _ => false := fun hi =>
    ⟨Bool.eq_false_iff.mpr fun h => by simp [hlinked.booted h] at hi, funext fun itf =>
      Bool.eq_false_iff.mpr fun h => by simp [hlinked.itfState itf h] at hi⟩
  have hon : On s.booted (fun t => Itfs s.itfState t ∧ t.initted = s.initted) (atDepth 1 s) :=
    ⟨rfl, rfl, rfl⟩
  -- what a call that keeps both is shown to do
  have hkeep : ∀ {P : State → Prop}, P (atDepth 1 s) →
      (poweredSpec b).Triple c P (c.body b) (fun _ => On s.booted (Itfs s.itfState)) →
      (poweredSpec b).Meets [] c s Powered := fun hP h =>
    h.meets hP (fun _ => steady_on still_itfs) fun _ _ _ ht =>
      ⟨fun _ _ _ _ => ht, On.powered hs ht⟩
  have hends : ∀ {P : State → Prop}, P (atDepth 1 s) →
      (poweredSpec b).Triple c P (c.body b) (Ends s.booted s.itfState) →
      (poweredSpec b).Meets [] c s Powered := fun hP h =>
    h.meets hP (fun _ => steady_ends) fun _ r _ ht => by
      unfold Ends at ht
      split at ht
      case isTrue hr => exact ⟨fun _ _ _ hne => absurd hr hne, ht⟩
      case isFalse => exact ⟨fun _ _ _ _ => ht, On.powered hs ht⟩
  have hpow : ∀ {P : State → Prop}, P (atDepth 1 s) → (∀ itf country, c ≠ .setUp itf true country) →
      (poweredSpec b).Triple c P (c.body b) (fun _ => Powered) →
      (poweredSpec b).Meets [] c s Powered := fun hP hc h =>
    h.meets hP (fun _ => steady_powered) fun _ _ _ ht => ⟨fun _ _ h => absurd h (hc _ _), ht⟩
  cases c with
  | init => exact hkeep hon (initDriver_on hi)
  | deinit => exact hpow hon nofun (deinit_on hs)
  | setUp i up country =>
    have hdown : ∀ itf, (poweredSpec b).Triple (.setUp i false country) (On s.booted (Itfs s.itfState))
        (setUpItf b itf false country) fun _ => Powered := fun itf => by
      rw [setUpItf_false]
      refine .seq (M := fun _ => On s.booted (Itfs s.itfState)) (on_load still_itfs fun _ h => h)
        fun _ => .ite (fun _ => .pure fun _ h => On.powered hs h) fun _ => ?_
      exact (takeDown_on hs).mono (fun _ h => h) fun _ _ h => h.1
    obtain rfl | rfl | hnone := Itf.ofInt_cases i
    · cases up with
      | true => exact hends hon (setUpItf_up_on hi hs nofun)
      | false => exact hpow (P := On s.booted (Itfs s.itfState)) ⟨rfl, rfl⟩ nofun (hdown .sta)
    · cases up with
      | true => exact hends hon (setUpItf_up_on hi hs fun _ => rfl)
      | false => exact hpow (P := On s.booted (Itfs s.itfState)) ⟨rfl, rfl⟩ nofun (hdown .ap)
    · refine hkeep (P := On s.booted (Itfs s.itfState)) ⟨rfl, rfl⟩ ?_
      change (poweredSpec b).Triple _ _ (wifiSetUp b i up country) _
      rw [wifiSetUp, hnone]
      exact .pure fun _ h => h
  | _ => exact hkeep (P := On s.booted (Itfs s.itfState)) ⟨rfl, rfl⟩ (on_apart (within_apart rfl))

/-! ## Every run -/

/-- **The transceiver runs exactly while an interface is up**, after every call, and a bring-up that fails
leaves both as they were, where no fatal error is reported and an access point that boots the transceiver
is enabled. -/
theorem powered_runs (b : Build) (n : Lwip) (hn : n.Fresh) (tr : List Happening) (x : Site)
    (hr : Run (fun x e y => (oneAtATime b).Step x e y ∧ NoFatal e ∧ ApStarts b x.infos x.st e)
      (start b n) tr x) :
    (x.stack = [] → Powered x.st) ∧
      ∀ itf country r y, r ≠ .ok → (oneAtATime b).Step x (.ret (.setUp itf true country) r) y →
        ∃ d, x.infos.head? = some d ∧ d.call = .setUp itf true country ∧
          x.st.booted = d.entry.booted ∧ x.st.itfState = d.entry.itfState := by
  have hr' : Run (poweredSpec b).Step (start b n) tr x := fromLinked_run hn hr
  have h0 : Powered (State.init b n) := ⟨nofun, fun ⟨_, h⟩ => nomatch h⟩
  refine ⟨fun hx => (powered_sound b).idle h0 hr' hx, fun itf country r y hne hy => ?_⟩
  obtain ⟨d, is, hd, hc, hpost⟩ := (powered_sound b).post h0 hr' ⟨hy, ⟨trivial, trivial⟩, trivial⟩
  exact ⟨d, congrArg List.head? hd, hc, hpost itf country hc hne⟩

/-- `ApReady`, to evaluate. -/
def apReady (s : State) : Bool :=
  s.pm == pmNone && !s.apSsid.isEmpty && (apChannel s.apChanNum s.channels).isSome &&
    !(s.apAuth == secSae && s.apKey.isEmpty)

theorem apReady_iff : apReady s = true ↔ ApReady s := by
  have hiff : ApReady s ↔ s.pm = pmNone ∧ s.apSsid ≠ [] ∧
      (apChannel s.apChanNum s.channels).isSome = true ∧ (s.apAuth = secSae → s.apKey ≠ []) :=
    ⟨fun h => ⟨h.pm, h.ssid, h.channel, h.key⟩, fun h => ⟨h.1, h.2.1, h.2.2.1, h.2.2.2⟩⟩
  rw [hiff]
  simp [apReady, and_assoc, imp_iff_not_or]

/-- The steps of `powered_runs`, to evaluate: morselib takes every access point. -/
def startStep (s : State) : Happening → Bool
  | .cb e => e != .fatal
  | .answer (.mmwlan .boot) _ => apReady s
  | .answer (.mmwlan (.apEnable _)) (st : Status) => st == .success
  | _ => true

theorem of_startStep {is : List Doing} {e : Happening} (h : startStep s e = true) :
    NoFatal e ∧ ApStarts b is s e := by
  refine ⟨?_, ?_⟩
  · cases e with
    | cb e => exact bne_iff_ne.mp h
    | _ => trivial
  · unfold ApStarts
    split
    · exact fun _ _ _ _ _ => apReady_iff.mp h
    · exact fun hst => absurd ((beq_iff_eq (α := Status)).mp h) hst
    · trivial

theorem powered_runs_ap : ∃ tr x,
    Run (oneAtATime (.small true)).Step (start (.small true) noNetifs) tr x ∧ x.stack = [] ∧
      x.st.itfState .ap = true ∧ x.st.booted = true ∧ Powered x.st := by
  obtain ⟨tr, x, hr, hx⟩ := World.run_of_play_any (oneAtATime (.small true))
    (fun _ s e => startStep s e) (start (.small true) noNetifs) accessPointUp
    (fun r => r.2.stack.isEmpty && r.2.st.itfState .ap && r.2.st.booted) rfl
  simp only [Bool.and_eq_true, List.isEmpty_iff] at hx
  have hr' : Run (fun x e y => (oneAtATime (.small true)).Step x e y ∧ NoFatal e ∧
      ApStarts (.small true) x.infos x.st e) (start (.small true) noNetifs) tr x :=
    hr.mono fun _ _ _ h => ⟨h.1, of_startStep h.2⟩
  exact ⟨tr, x, hr.mono fun _ _ _ h => h.1, hx.1.1, hx.1.2, hx.2,
    (powered_runs (.small true) noNetifs fresh_noNetifs tr x hr').1 hx.1.1⟩

/-- The steps of a run without a fatal error in which only `setUp` is called, to evaluate. -/
def setUpOnly (e : Happening) : Bool :=
  match e with
  | .call c => c.isSetUp
  | .cb e => e != .fatal
  | _ => true

theorem of_setUpOnly {e : Happening} (h : setUpOnly e = true) :
    NoFatal e ∧ ∀ c, e = .call c → c.isSetUp = true := by
  constructor
  · cases e with
    | cb e => exact bne_iff_ne.mp h
    | _ => trivial
  · rintro c rfl
    exact h

/-- **An access point without an SSID leaves the transceiver running**, and no interface up. -/
theorem powered_left_on : ∃ tr x,
    Run (fun x e y => (oneAtATime (.small true)).Step x e y ∧ NoFatal e ∧
      ∀ c, e = .call c → c.isSetUp = true) (start (.small true) noNetifs) tr x ∧
      x.stack = [] ∧ ¬ Powered x.st := by
  obtain ⟨tr, x, hr, hx⟩ := World.run_of_play_any (oneAtATime (.small true))
    (fun _ _ e => setUpOnly e) (start (.small true) noNetifs)
    (.call (.setUp 1 true us) :: granted (initAsks ++ bootAsks))
    (fun r => r.2.stack.isEmpty && r.2.st.noItf && r.2.st.booted) rfl
  simp only [Bool.and_eq_true, List.isEmpty_iff] at hx
  refine ⟨tr, x, hr.mono fun _ _ _ h => ⟨h.1, of_setUpOnly h.2⟩, hx.1.1, fun hp => ?_⟩
  obtain ⟨itf, hitf⟩ := hp.mp hx.2
  have := hx.1.2
  cases itf <;> simp [State.noItf, hitf] at this

end MmHalow.Ctrl
