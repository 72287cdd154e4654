import MmHalow.Ctrl.Linked

/-!
# The link status of the access point (`mm_halow_wifi_link_status`)

`mm_halow_wifi_link_status` reports the access point by its bit of `itf_state`, which only
`mm_halow_wifi_set_up` maintains. `Told` says that the bit tells whether the access point runs in
morselib.

* `told_runs`: it does between the calls, and `mm_halow_wifi_set_up` starts an access point that does
  not run, as long as a running one is neither left with success nor lost to a fatal error.
* `told_after_leave`: an access point that has been left is reported up, and bringing it up again
  returns 0 at once.
-/

namespace MmHalow.Ctrl

open MmHalow.Lib

/-- **The reported status is that of the access point in morselib.** -/
def Told (s : State) : Prop := wifiLinkStatus s 1 = .up ↔ s.lib.apRunning = true

/-- The call takes the access point down for good: `mm_halow_wifi_set_up(MM_HALOW_ITF_AP, false, ...)`
or `mm_halow_deinit`. -/
def Call.endsAp : Call → Bool
  | deinit => true
  | setUp itf up _ => itf == 1 && !up
  | _ => false

/-- **A running access point is not left with success and not lost to a fatal error**, unless a call is
taking it down anyway. -/
def KeepsAp (is : List Doing) (s : State) : Happening → Prop
  | .cb .fatal => s.lib.apRunning = true → ∃ d ∈ is, d.call.endsAp = true
  | .answer (.mmwlan .apDisable) st => st = Status.success → (∃ d ∈ is, d.call.isLeave = true) →
    s.lib.apRunning = false
  | _ => True

/-- What a bring-up that returns 0 has done, if the access point did not run. -/
def Started (i : Doing) (r : Ret) : Prop :=
  ∀ country, i.call = .setUp 1 true country → r = .ok → i.entry.lib.apRunning = false →
    ∃ args, .mmwlan (.apEnable args) ∈ i.log.asked

/-- The specification, under the steps that are `ok`. -/
def toldSpec (b : Build) (ok : List Doing → State → Happening → Prop) : Spec (oneAtATime b) :=
  .oneAtATime (world b) ok (fun _ _ _ => True) (fun i r _ => Started i r) Told

variable {b : Build} {ok : List Doing → State → Happening → Prop} {c : Call} {s : State} {u v : Bool}

/-! ## Assertions -/

/-- The access point's bit, and whether it runs. -/
def Ap (u v : Bool) (s : State) : Prop := s.itfState .ap = u ∧ s.lib.apRunning = v

theorem told_iff : Told s ↔ Ap s.lib.apRunning s.lib.apRunning s := by
  unfold Told Ap wifiLinkStatus
  cases s.itfState .ap <;> cases s.lib.apRunning <;> simp

theorem Ap.told (h : Ap u u s) : Told s := told_iff.mpr (h.2.symm ▸ h)

/-- Only a fatal error stops the access point by itself. -/
theorem apRunning_callback {e : Callback} (h : e = .fatal → s.lib.apRunning = false) :
    (callback b e s).lib.apRunning = s.lib.apRunning := by
  cases e with
  | fatal => exact (h rfl).symm
  | scanRx r =>
    change (scanRxCb b r s).lib.apRunning = _
    unfold scanRxCb
    split <;> rfl
  | _ => rfl

theorem itfState_callback {e : Callback} : (callback b e s).itfState = s.itfState :=
  Still.callback (P := fun t => t.itfState = s.itfState) (fun _ => Iff.rfl) rfl

/-- The functions of morselib that start or stop an access point. -/
def Mmwlan.onAp : Mmwlan → Bool
  | init | deinit | shutdown | apEnable _ | apDisable => true
  | _ => false

theorem apRunning_enter {q : Ask} : (enter b c q s).lib.apRunning = s.lib.apRunning := by
  cases q with
  | mmwlan f => cases f <;> rfl
  | _ => rfl

theorem apRunning_answered {f : Mmwlan} {m : Morselib} {country : Letters} {st : Status}
    (hf : f.onAp = false) : (m.answered b c country f st).apRunning = m.apRunning := by
  cases f <;> first
    | exact absurd hf.symm Bool.false_ne_true
    | (cases st <;> rfl)

theorem Ap.enter {q : Ask} (h : Ap u v s) : Ap u v (enter b c q s) := by
  refine ⟨?_, apRunning_enter.trans h.2⟩
  exact Inner.enter (P := fun s => s.itfState .ap = u) (fun _ _ _ h => h) q h.1

theorem Ap.leave {q : Ask} {a : q.Ans} {w : Bool} (h : Ap u v s)
    (ha : (leave b c q a s).lib.apRunning = w) : Ap u w (leave b c q a s) :=
  ⟨Inner.leave (P := fun s => s.itfState .ap = u) (fun _ _ _ h => h) q a h.1, ha⟩

theorem unmoved_ap {q : Ask} (h : ∀ f, q = .mmwlan f → f.onAp = false) :
    (toldSpec b ok).Unmoved c (Ap u v) q where
  guard _ _ _ := trivial
  enter _ hs := hs.enter (c := c)
  leave a s hs := hs.leave (by
    cases q with
    | mmwlan f => exact (apRunning_answered (h f rfl)).trans hs.2
    | _ => exact hs.2)
  entry _ _ _ h := nomatch h

/-- An access point that does not run is started by nothing else. -/
theorem unmoved_off {q : Ask} (h : ∀ args, q ≠ .mmwlan (.apEnable args)) :
    (toldSpec b ok).Unmoved c (Ap u false) q where
  guard _ _ _ := trivial
  enter _ hs := hs.enter (c := c)
  leave a s hs := hs.leave (by
    cases q with
    | mmwlan f =>
      by_cases hf : f.onAp = false
      · exact (apRunning_answered hf).trans hs.2
      · cases f with
        | apEnable args => exact absurd rfl (h args)
        | apDisable => simp [Ctrl.leave, Morselib.answered, hs.2]
        | init => rfl
        | deinit => rfl
        | shutdown => rfl
        | _ => exact absurd rfl hf
    | _ => exact hs.2)
  entry _ _ _ h := nomatch h

/-- What is said of an access point that does not run is kept by every callback. -/
theorem steady_off : (toldSpec b ok).Steady (Ap u false) := fun _ _ _ _ hs =>
  ⟨(congrFun itfState_callback .ap).trans hs.1, (apRunning_callback fun _ => hs.2).trans hs.2⟩

/-- The steps in a call of `c` that does not take the access point down. -/
def Holds (c : Call) (s : State) : Happening → Prop
  | .cb .fatal => s.lib.apRunning = false
  | .answer (.mmwlan .apDisable) st => c.isLeave = true → st = Status.success → s.lib.apRunning = false
  | _ => True

/-- The specification of such a call. -/
abbrev heldSpec (b : Build) (c : Call) : Spec (oneAtATime b) := toldSpec b fun _ s e => Holds c s e

theorem steady_ap : (heldSpec b c).Steady (Ap u v) := fun _ _ e hok hs =>
  ⟨(congrFun itfState_callback .ap).trans hs.1,
    (apRunning_callback fun he => by subst he; exact hok).trans hs.2⟩

/-! ## Calls that leave the access point alone -/

/-- Code that keeps the access point's bit and asks nothing of it. -/
theorem ap_within {α : Type} {p : Halow α} {F : (State → State) → Prop} {G : Ask → Prop}
    (h : p.Within F G) (hF : ∀ f, F f → ∀ s, (f s).itfState .ap = s.itfState .ap ∧
      (f s).lib.apRunning = s.lib.apRunning)
    (hG : ∀ q, G q → ∀ f, q = .mmwlan f → f.onAp = false) :
    (heldSpec b c).Triple c (Ap u v) p fun _ => Ap u v :=
  .ofWithin (h.mono (fun f hf s hs => ⟨(hF f hf s).1.trans hs.1, (hF f hf s).2.trans hs.2⟩)
    fun q hq => unmoved_ap (hG q hq)) steady_ap steady_ap.patient

theorem Apart.ap {t : State} (h : Apart s t) :
    t.itfState .ap = s.itfState .ap ∧ t.lib.apRunning = s.lib.apRunning :=
  ⟨congrFun h.itfState .ap, h.apRunning⟩

theorem plain_onAp {q : Ask} (hq : PlainAsk q) (f : Mmwlan) (h : q = .mmwlan f) : f.onAp = false := by
  subst h
  cases f <;> first
    | rfl
    | exact absurd hq Bool.false_ne_true

/-- Leaving the access point with success is excluded while it runs. -/
theorem leaveAp_ap (hc : c.isLeave = true) :
    (heldSpec b c).Triple c (Ap u v) (mmwlan .apDisable) fun _ => Ap u v := by
  refine .request (D := Ap u v) steady_ap steady_ap.patient (fun _ _ _ => trivial)
    (fun _ hs => hs.enter (c := c)) (fun _ _ _ h => nomatch h) fun is st s hs _ hok =>
    hs.leave (b := b) (c := c) (q := .mmwlan .apDisable) (a := st) ?_
  change (s.lib.apRunning && c.isLeave && bne (α := Status) st .success) = v
  by_cases hst : st = Status.success
  · rw [hok hc hst, Bool.false_and, Bool.false_and, ← hs.2, hok hc hst]
  · rw [hc, Bool.and_true, hs.2, (bne_iff_ne (α := Status)).mpr hst, Bool.and_true]

/-- The calls that bring no interface up or down. -/
theorem apart_ap (hm : c.moves = false) :
    (heldSpec b c).Triple c (Ap u v) (c.body b) fun _ => Ap u v := by
  by_cases hp : c.plain = true
  · exact ap_within (plain_body hp) (fun f hf s => (Apart.of_rest (hf s)).ap) fun q hq => plain_onAp hq
  · cases c with
    | leave itf =>
      refine .ite (fun _ => .seq (leaveAp_ap rfl) fun _ => .pure fun _ h => h) fun _ => ?_
      refine .seq (M := fun _ => Ap u v) (.store steady_ap fun _ h => h) fun _ => ?_
      refine .seq (M := fun _ => Ap u v) (.ofWithin (Proc.within_request.mpr (unmoved_ap ?_)) steady_ap
        steady_ap.patient) fun _ => .pure fun _ h => h
      rintro f ⟨⟩
      rfl
    | scanCached max =>
      refine ap_within within_scanCached (fun f hf s => (hf s).ap) ?_
      rintro q (hq | rfl | rfl) f hf
      · exact plain_onAp hq f hf
      · exact nomatch hf
      · obtain rfl := Ask.mmwlan.inj hf
        rfl
    | init => exact nomatch hm
    | deinit => exact nomatch hm
    | setUp itf up country => exact nomatch hm
    | _ => exact absurd rfl hp

/-! ## Bringing interfaces up -/

/-- An access point that does not run keeps that and its bit in `mm_halow_init`, which clears the bit. -/
theorem initDriver_off : (toldSpec b ok).Triple c (Ap false false) (initDriver b)
    fun _ => Ap false false := by
  refine .ofWithin (within_initDriver.mono (fun f hf s hs => ?_) fun q hq => unmoved_off ?_) steady_off
    steady_off.patient
  · refine ⟨Bool.eq_false_iff.mpr fun h => ?_, (congrArg Morselib.apRunning (hf s).lib).trans hs.2⟩
    exact Bool.false_ne_true (hs.1.symm.trans ((hf s).itf .ap h))
  · rintro args rfl
    obtain h | h | h | h := hq
    · exact nomatch h
    · exact nomatch h
    · exact nomatch h
    · exact Bool.false_ne_true h

/-- The driver is initialised or not. -/
def ApInit (u : Bool) (i : Bool) (s : State) : Prop := Ap u u s ∧ s.initted = i

theorem steady_apInit {i : Bool} : (heldSpec b c).Steady (ApInit u i) := fun is s e hok hs =>
  ⟨steady_ap is s e hok hs.1, Still.callback (P := fun s => s.initted = i) (fun _ => Iff.rfl) hs.2⟩

theorem initDriver_ap {i : Bool} (hi : i = false → u = false) :
    (heldSpec b c).Triple c (ApInit u i) (initDriver b) fun _ => Ap u u := by
  cases i with
  | true =>
    refine .seq (M := fun i s => Ap u u s ∧ i = true) (.load steady_apInit fun s hs => hs) fun i =>
      .of_and fun h => ?_
    exact .ite (fun _ => .pure fun _ hs => hs) fun h' => absurd h h'
  | false =>
    obtain rfl := hi rfl
    exact initDriver_off.mono (fun _ hs => hs.1) fun _ _ h => h

/-- A bring-up, from `mm_halow_init` to the channel list. -/
theorem prepare_ap {i : Bool} {itf : Itf} {country : List UInt8} {R : Ret → State → Prop}
    (hi : i = false → u = false) (hup : ∀ s, Ap u u s → (itf = .ap → u = true) → R .ok s)
    (hfail : ∀ r s, r ≠ .ok → Ap u u s → R r s)
    (h : (itf = .ap → u = false) → (heldSpec b c).Triple c (Ap u u) (bringUp b itf) R) :
    (heldSpec b c).Triple c (ApInit u i) (setUpItf b itf true country) R := by
  refine .seq (M := fun isUp s => ApInit u i s ∧ (itf = .ap → isUp = u)) (.load steady_apInit fun s hs =>
    ⟨hs, fun hitf => hitf ▸ hs.1.1⟩) fun isUp => .of_and fun hitf => .ite (fun hisUp => ?_) fun hisUp => ?_
  · exact .pure fun s hs => hup s hs.1 fun hap => (hitf hap).symm.trans hisUp
  have hu : itf = .ap → u = false := fun hap => (hitf hap).symm.trans (by simpa using hisUp)
  refine .seq (M := fun _ => Ap u u) (.seq (M := fun _ => ApInit u i) (.load steady_apInit fun _ hs => hs)
    fun _ => .ite (fun _ => initDriver_ap hi) fun _ => .pure fun _ hs => hs.1) fun r => ?_
  refine .ite (fun hr => .pure fun s hs => hfail r s hr hs) fun _ => ?_
  refine .seq (ap_within within_setCountry (fun f hf s => (hf s).ap) ?_) fun r =>
    .ite (fun hr => .pure fun s hs => hfail r s hr hs) fun _ => h hu
  rintro q ⟨l, rfl⟩ f hf
  obtain rfl := Ask.mmwlan.inj hf
  rfl

/-- Bringing up the station. -/
theorem setUpSta_ap {i : Bool} {country : List UInt8} (hi : i = false → u = false) :
    (heldSpec b c).Triple c (ApInit u i) (setUpItf b .sta true country) fun _ => Ap u u := by
  refine prepare_ap hi (fun _ h _ => h) (fun _ _ _ h => h) fun _ => ap_within within_bringUp ?_ ?_
  · exact fun f hf s => ⟨(hf s).others .ap (by decide), congrArg Morselib.apRunning (hf s).lib⟩
  · rintro q (rfl | rfl | ⟨h, -⟩ | rfl) f hf
    · obtain rfl := Ask.mmwlan.inj hf
      rfl
    · obtain rfl := Ask.mmwlan.inj hf
      rfl
    · exact nomatch h
    · exact nomatch hf

/-- The access point runs where the call that enables it has succeeded. -/
def Enabled (r : Ret) (s : State) : Prop := Ap false (decide (r = .ok)) s

theorem Enabled.of_ne {r : Ret} (hr : r ≠ .ok) (h : Ap false false s) : Enabled r s := by
  unfold Enabled
  rw [decide_eq_false hr]
  exact h

theorem Enabled.off {r : Ret} (h : Enabled r s) (hr : r ≠ .ok) : Ap false false s := by
  unfold Enabled at h
  rwa [decide_eq_false hr] at h

theorem Enabled.on {r : Ret} (h : Enabled r s) (hr : r = .ok) : Ap false true s := by
  unfold Enabled at h
  rwa [decide_eq_true hr] at h

theorem apEnable_ap : (heldSpec b c).Triple c (Ap false false) (apEnable b) Enabled := by
  have hload : ∀ {α : Type} (g : State → α),
      (heldSpec b c).Triple c (Ap false false) (load g) fun _ => Ap false false := fun _ =>
    .load steady_ap fun _ h => h
  have hask : ∀ args, (heldSpec b c).Triple c (Ap false false) (mmwlan (.apEnable args)) fun st =>
      Enabled (statusToErrno st) := by
    refine fun args => .request (D := Ap false false) steady_ap steady_ap.patient (fun _ _ _ => trivial)
      (fun _ hs => hs.enter (c := c)) (fun _ _ _ h => nomatch h) fun is st s hs _ _ => ?_
    refine hs.leave (b := b) (c := c) (q := .mmwlan (.apEnable args)) (a := st) ?_
    by_cases hst : st = Status.success
    · subst hst
      rfl
    · rw [decide_eq_false (mt statusToErrno_eq_ok.mp hst), ← hs.2]
      cases st <;> first
        | exact absurd rfl hst
        | rfl
  have hstart : ∀ ch, (heldSpec b c).Triple c (Ap false false) (apStart ch) Enabled := by
    intro ch
    refine .seq (M := fun _ => Ap false false) (.store steady_ap fun _ h => h) fun _ => ?_
    refine .seq (hload _) fun _ => .seq (hload _) fun _ => .seq (hload _) fun _ => ?_
    refine .ite (fun _ => .pure fun s hs => .of_ne nofun hs) fun _ => ?_
    exact .seq (hask _) fun st => .pure fun _ h => h
  refine .seq (hload _) fun _ => .ite (fun _ => .pure fun s hs => .of_ne nofun hs) fun _ => ?_
  refine .seq (hload _) fun _ => .ite (fun _ => .pure fun s hs => .of_ne nofun hs) fun _ => ?_
  refine .seq (hload _) fun _ => .ite (fun _ => .seq (hload _) fun ch => ?_) fun _ => hstart _
  cases ch with
  | none => exact .pure fun s hs => .of_ne nofun hs
  | some ch => exact hstart _

/-- Bringing up the access point. -/
theorem setUpAp_ap {i : Bool} {country : List UInt8} (hap : b.enableAp = true)
    (hi : i = false → u = false) :
    (heldSpec b c).Triple c (ApInit u i) (setUpItf b .ap true country) fun _ => Told := by
  refine prepare_ap hi (fun _ h _ => h.told) (fun _ _ _ h => h.told) fun hu => ?_
  obtain rfl := hu rfl
  have hmmwlan : ∀ {f : Mmwlan}, f.onAp = false →
      (heldSpec b c).Triple c (Ap false false) (mmwlan f) fun _ => Ap false false := by
    refine fun h => .ofWithin (Proc.within_request.mpr (unmoved_ap ?_)) steady_ap steady_ap.patient
    rintro f ⟨⟩
    exact h
  have hraise : (heldSpec b c).Triple c (Ap false true) (raise b .ap) fun _ => Told := by
    refine .seq (M := fun isUp s => Ap false true s ∧ isUp = false) (.load steady_ap fun s hs =>
      ⟨hs, hs.1⟩) fun isUp => .of_and fun hisUp => ?_
    refine .seq (M := fun _ => Ap true true) (.ite (fun _ => ?_) fun h => by simp [hisUp] at h) fun _ => ?_
    · refine .seq (M := fun _ => Ap false true) (.seq (M := fun _ => Ap false true)
        (.ofWithin (Proc.within_request.mpr (unmoved_ap nofun)) steady_ap steady_ap.patient) fun _ => ?_)
        fun _ => .store steady_ap fun s hs => ⟨by simp, hs.2⟩
      exact .store steady_ap fun _ h => h
    · refine .seq (M := fun _ => Ap true true) (.ite (fun _ => .store steady_ap fun _ h => h)
        fun _ => .pure fun _ h => h) fun _ => .pure fun _ h => h.told
  have hafter : (heldSpec b c).Triple c (Ap false false) (bringUp.afterBoot b .ap) fun _ => Told := by
    refine .ite (fun _ => .seq apEnable_ap fun r => .ite (fun hr => .pure fun s hs => ?_) fun hr => ?_)
      fun h => absurd ⟨hap, rfl⟩ h
    · exact (hs.off hr).told
    · exact hraise.mono (fun s hs => Enabled.on hs (not_not.mp hr)) fun _ _ h => h
  refine .seq (M := fun _ => Ap false false) (.load steady_ap fun _ h => h) fun _ =>
    .ite (fun _ => ?_) fun _ => hafter
  refine .seq (hmmwlan rfl) fun _ => .ite (fun _ => .pure fun _ h => h.told) fun _ => ?_
  refine .seq (M := fun _ => Ap false false) (.store steady_ap fun _ h => h) fun _ => ?_
  exact .seq (.seq (hmmwlan rfl) fun _ => .pure fun _ h => h) fun _ => hafter

/-! ## Taking interfaces down -/

/-- The last step of `mm_halow_wifi_set_up(itf, false)`. -/
theorem shutdown_off : (toldSpec b ok).Triple c (Ap u false) (do
    store fun s => { s with teardown := true }
    tell .shutdown
    store fun s => { s with teardown := false }
    store fun s => { s with booted := false }) fun _ => Ap u false := by
  refine .seq (M := fun _ => Ap u false) (.store steady_off fun _ h => h) fun _ => ?_
  refine .seq (M := fun _ => Ap u false) (.ofWithin (.bind (Proc.within_request.mpr (unmoved_off nofun))
    fun _ => trivial) steady_off steady_off.patient) fun _ => ?_
  exact .seq (M := fun _ => Ap u false) (.store steady_off fun _ h => h) fun _ =>
    .store steady_off fun _ h => h

/-- Taking the station down. -/
theorem takeDownSta_ap : (heldSpec b c).Triple c (Ap u u) (takeDown b .sta) fun _ => Ap u u := by
  have hload : ∀ {α : Type} (g : State → α), (heldSpec b c).Triple c (Ap u u) (load g) fun _ => Ap u u :=
    fun _ => .load steady_ap fun _ h => h
  have hstore : ∀ {f : State → State}, (∀ s, Ap u u s → Ap u u (f s)) →
      (heldSpec b c).Triple c (Ap u u) (store f) fun _ => Ap u u := fun h => .store steady_ap h
  refine .seq (M := fun _ => Ap u u) (.ite (fun h => nomatch h.2) fun _ => .seq (M := fun _ => Ap u u) ?_
    fun _ => hstore fun _ h => h) fun _ => ?_
  · refine .ofWithin (.bind (Proc.within_request.mpr (unmoved_ap ?_)) fun _ => trivial) steady_ap
      steady_ap.patient
    rintro f ⟨⟩
    rfl
  refine .seq (hload _) fun _ => .seq (M := fun _ => Ap u u) (.ite (fun _ => ?_) fun _ => .pure fun _ h => h)
    fun _ => ?_
  · refine .seq (hstore fun _ h => h) fun _ => .seq (hstore fun _ h => h) fun _ => hstore fun s h => ?_
    exact ⟨(update_sta s.itfState false).trans h.1, h.2⟩
  · refine .seq (M := fun last s => Ap u u s ∧ (last = true → u = false)) (.load steady_ap fun s hs =>
      ⟨hs, fun h => ?_⟩) fun last => .of_and fun hlast => ?_
    · have hdown : (!s.itfState .ap) = true := (Bool.and_eq_true_iff.mp h).2
      rw [← hs.1]
      simpa using hdown
    · refine .seq (M := fun _ => Ap u u) (.ite (fun h => ?_) fun _ => .pure fun _ h => h) fun _ =>
        .pure fun _ h => h
      obtain rfl := hlast h
      exact shutdown_off

/-- The access point's bit. -/
def Bit (u : Bool) (s : State) : Prop := s.itfState .ap = u

theorem steady_bit : (toldSpec b ok).Steady (Bit u) := fun _ _ _ _ hs =>
  (congrFun itfState_callback .ap).trans hs

/-- Taking the access point down, whatever has become of it. -/
theorem takeDownAp_off (hap : b.enableAp = true) (hc : c.isLeave = false) :
    (toldSpec b ok).Triple c (Bit u) (takeDown b .ap) fun _ => Ap false false := by
  refine .seq (M := fun _ => Ap u false) (.ite (fun _ => ?_) fun h => absurd ⟨hap, rfl⟩ h) fun _ => ?_
  · refine .seq (M := fun _ => Ap u false) (.request (D := Bit u) steady_bit steady_bit.patient
      (fun _ _ _ => trivial) (fun s hs => ?_) (fun _ _ _ h => nomatch h) fun is st s hs _ _ => ?_)
      fun _ => .pure fun _ h => h
    · exact Inner.enter (c := c) (P := Bit u) (fun _ _ _ h => h) _ hs
    · refine ⟨hs, ?_⟩
      change (s.lib.apRunning && c.isLeave && bne (α := Status) st .success) = false
      rw [hc, Bool.and_false, Bool.false_and]
  refine .seq (M := fun isUp s => Ap u false s ∧ isUp = u) (.load steady_off fun s hs => ⟨hs, hs.1⟩)
    fun isUp => .of_and fun hisUp => ?_
  refine .seq (M := fun _ => Ap false false) (.ite (fun _ => ?_) fun h => .pure fun s hs => ?_) fun _ => ?_
  · refine .seq (M := fun _ => Ap u false) (.store steady_off fun _ h => h) fun _ => ?_
    refine .seq (M := fun _ => Ap u false) (.store steady_off fun _ h => h) fun _ => ?_
    exact .store steady_off fun s hs => ⟨by simp, hs.2⟩
  · have hu : u = false := hisUp ▸ Bool.eq_false_iff.mpr h
    exact hu ▸ hs
  · refine .seq (M := fun _ => Ap false false) (.load steady_off fun _ h => h) fun _ => ?_
    exact .seq (M := fun _ => Ap false false) (.ite (fun _ => shutdown_off) fun _ => .pure fun _ h => h)
      fun _ => .pure fun _ h => h

/-- The driver is initialised and is not called from a callback, and without its bit the access point does
not run. -/
structure Deinit (u : Bool) (s : State) : Prop where
  itf : s.itfState .ap = u
  off : u = false → s.lib.apRunning = false
  initted : s.initted = true

theorem steady_deinit : (toldSpec b ok).Steady (Deinit u) := fun _ _ _ _ hs =>
  ⟨(congrFun itfState_callback .ap).trans hs.itf,
    fun hu => (apRunning_callback fun _ => hs.off hu).trans (hs.off hu),
    Still.callback (P := fun s => s.initted = true) (fun _ => Iff.rfl) hs.initted⟩

theorem unmoved_deinit {q : Ask} (h : ∀ args, q ≠ .mmwlan (.apEnable args)) :
    (toldSpec b ok).Unmoved c (Deinit u) q where
  guard _ _ _ := trivial
  enter _ hs := ⟨Inner.enter (c := c) (P := Bit u) (fun _ _ _ h => h) q hs.itf,
    fun hu => (apRunning_enter (c := c)).trans (hs.off hu),
    Inner.enter (c := c) (P := fun s => s.initted = true) (fun _ _ _ h => h) q hs.initted⟩
  leave a s hs := ⟨Inner.leave (b := b) (c := c) (P := Bit u) (fun _ _ _ h => h) q a hs.itf,
    fun hu => ((@unmoved_off b (fun _ _ _ => True) c u q h).leave a s ⟨hs.itf, hs.off hu⟩).2,
    Inner.leave (b := b) (c := c) (P := fun s => s.initted = true) (fun _ _ _ h => h) q a hs.initted⟩
  entry _ _ _ h := nomatch h

/-- The station goes first. -/
theorem deinitSta_deinit : (toldSpec b ok).Triple c (Deinit u) (deinitItf b .sta) fun _ => Deinit u := by
  have hload : ∀ {α : Type} (g : State → α), (load g).Within (fun f => ∀ s, Deinit u s → Deinit u (f s))
      ((toldSpec b ok).Unmoved c (Deinit u)) := fun _ => Proc.within_load.mpr fun _ h => h
  refine .ofWithin (.bind (hload _) fun _ => .ite ?_ trivial) steady_deinit steady_deinit.patient
  refine .bind (hload _) fun _ => .bind ?_ fun _ => trivial
  rw [setUpItf_false]
  refine .bind (hload _) fun _ => .ite trivial (within_takeDown.mono (fun f hf s hs => ?_) fun q hq => ?_)
  · exact ⟨((hf s).others .ap (by decide)).trans hs.itf,
      fun hu => (congrArg Morselib.apRunning (hf s).lib).trans (hs.off hu), (hf s).initted.trans hs.initted⟩
  · refine unmoved_deinit fun args h => ?_
    obtain rfl | rfl | rfl := hq
    all_goals exact nomatch h

/-- The access point goes next. -/
theorem deinitAp_off (hap : b.enableAp = true) (hc : c.isLeave = false) :
    (toldSpec b ok).Triple c (Deinit u) (deinitItf b .ap) fun _ => Ap false false := by
  refine .seq (M := fun isUp s => Deinit u s ∧ isUp = u) (.load steady_deinit fun s hs => ⟨hs, hs.itf⟩)
    fun isUp => .of_and fun hisUp => .ite (fun _ => ?_) fun h => .pure fun s hs => ?_
  · refine .seq (M := fun _ => Deinit u) (.load steady_deinit fun _ h => h) fun country => ?_
    rw [setUpItf_false]
    refine .seq (M := fun _ => Ap false false) (.seq (M := fun i s => Deinit u s ∧ i = true)
      (.load steady_deinit fun s hs => ⟨hs, hs.initted⟩) fun i => .of_and fun hi => ?_)
      fun _ => .pure fun _ h => h
    refine .ite (fun h => by simp [hi] at h) fun _ => ?_
    exact (takeDownAp_off hap hc).mono (fun _ hs => hs.itf) fun _ _ h => h
  · have hu : u = false := hisUp ▸ Bool.eq_false_iff.mpr h
    exact ⟨hu ▸ hs.itf, hs.off hu⟩

theorem deinitRest_off : (toldSpec b ok).Triple c (Ap u false) deinitRest fun _ => Ap u false := by
  have htell : ∀ {f : Mmwlan}, (∀ args, f ≠ .apEnable args) →
      (tell f).Within (fun f => ∀ s, Ap u false s → Ap u false (f s))
        ((toldSpec b ok).Unmoved c (Ap u false)) := fun h =>
    .bind (Proc.within_request.mpr (unmoved_off fun args ha => h args (Ask.mmwlan.inj ha))) fun _ => trivial
  refine .ofWithin ?_ steady_off steady_off.patient
  unfold deinitRest osalDeinit
  repeat' first
    | exact Proc.within_store.mpr fun _ h => h
    | exact htell nofun
    | refine Proc.Within.bind ?_ fun _ => ?_

theorem steady_idle : (toldSpec b ok).Steady (ApInit false false) := fun is s e hok hs =>
  ⟨steady_off is s e hok hs.1, Still.callback (P := fun s => s.initted = false) (fun _ => Iff.rfl) hs.2⟩

/-- Nothing is taken down where the driver is not initialised. -/
theorem idle_off {p : Halow Ret} :
    (toldSpec b ok).Triple c (ApInit false false) (do
      if !(← load (·.initted)) then return .ok
      else p) fun _ => Ap false false := by
  refine .seq (M := fun i s => Ap false false s ∧ i = false) (.load steady_idle fun s hs => hs) fun i =>
    .of_and fun hi => ?_
  subst hi
  exact .ite (fun _ => .pure fun _ hs => hs) fun h => absurd rfl h

/-- **Leaving the driver takes the access point down.** -/
theorem deinit_off (hap : b.enableAp = true) (hc : c.isLeave = false) {i : Bool}
    (hi : i = false → u = false) :
    (toldSpec b ok).Triple c (fun s => ApInit u i s ∧ s.inCallback = false) (deinitDriver b)
      fun _ => Ap false false := by
  have halone : (toldSpec b ok).Steady fun s => s.inCallback = false := fun _ _ _ _ hs =>
    Still.callback (P := fun s => s.inCallback = false) (fun _ => Iff.rfl) hs
  cases i with
  | false =>
    obtain rfl := hi rfl
    exact idle_off.mono (fun _ hs => hs.1) fun _ _ h => h
  | true =>
    refine .mono (P := fun s => Deinit u s ∧ s.inCallback = false) (.seq (M := fun i s =>
      (Deinit u s ∧ s.inCallback = false) ∧ i = true) (.load (steady_deinit.and halone) fun s hs =>
      ⟨hs, hs.1.initted⟩) fun i => .of_and fun hi => ?_)
      (fun s hs => ⟨⟨hs.1.1.1, fun hu => hu ▸ hs.1.1.2, hs.1.2⟩, hs.2⟩) fun _ _ h => h
    subst hi
    refine .ite (fun h => nomatch h) fun _ => .seq (M := fun a s => Deinit u s ∧ a = false)
      (.load (steady_deinit.and halone) fun s hs => ⟨hs.1, hs.2⟩) fun a => .of_and fun ha => ?_
    subst ha
    refine .ite (fun h => nomatch h) fun _ => .seq deinitSta_deinit fun _ => .seq (deinitAp_off hap hc)
      fun _ => .seq deinitRest_off fun _ => .pure fun s hs => hs

/-- So does taking it down. -/
theorem setUpApDown_off (hap : b.enableAp = true) (hc : c.isLeave = false) {i : Bool} {country : List UInt8}
    (hi : i = false → u = false) :
    (toldSpec b ok).Triple c (ApInit u i) (setUpItf b .ap false country) fun _ => Ap false false := by
  rw [setUpItf_false]
  cases i with
  | false =>
    obtain rfl := hi rfl
    exact idle_off
  | true =>
    refine .mono (P := Deinit u) (.seq (M := fun i s => Deinit u s ∧ i = true) (.load steady_deinit
      fun s hs => ⟨hs, hs.initted⟩) fun i => .of_and fun hi => ?_)
      (fun s hs => ⟨hs.1.1, fun hu => hu ▸ hs.1.2, hs.2⟩) fun _ _ h => h
    subst hi
    refine .ite (fun h => nomatch h) fun _ => ?_
    exact (takeDownAp_off hap hc).mono (fun _ hs => hs.itf) fun _ _ h => h

/-! ## What a bring-up asks for -/

variable {κ : Around State Ask Ask.Ans Call} {l : Log Ask Ask.Ans}

/-- An access point has been asked for, if the call succeeds. -/
def Asked (l : Log Ask Ask.Ans) (r : Ret) : Prop := r = .ok → ∃ args, .mmwlan (.apEnable args) ∈ l.asked

/-- Any code, of which nothing is shown but that it asks more. -/
theorem wp_any {α : Type} (p : Halow α) :
    (toldSpec b ok).wp κ l p s fun l' _ _ => l.asked ⊆ l'.asked := by
  have hany : (toldSpec b ok).Triple κ.call (fun _ => True) p fun _ _ => True :=
    .anything fun q => ⟨fun _ _ _ => trivial, fun _ _ => trivial, fun _ _ _ => trivial,
      fun _ _ _ h => (nomatch h)⟩
  exact Spec.wp_mono (Spec.wp_grows (hany κ l s rfl trivial)) fun _ _ _ h => h.2

theorem apEnable_asked : (toldSpec b ok).wp κ l (apEnable b) s fun l' r _ => Asked l' r := by
  have hstart : ∀ ch l s, (toldSpec b ok).wp κ l (apStart ch) s fun l' r _ => Asked l' r := by
    intro ch l s
    refine Spec.wp_seq (wp_any _) fun l₁ _ s₁ _ => Spec.wp_seq (wp_any _) fun l₂ ssid s₂ _ => ?_
    refine Spec.wp_seq (wp_any _) fun l₃ auth s₃ _ => Spec.wp_seq (wp_any _) fun l₄ key s₄ _ => ?_
    split
    · exact nofun
    · refine Spec.wp_seq (M := fun l' _ _ => ∃ args, .mmwlan (.apEnable args) ∈ l'.asked)
        (fun t _ _ => ⟨trivial, fun u _ => ⟨nofun, fun st _ _ => ⟨_, List.mem_cons_self⟩⟩⟩)
        fun l' st t h _ => h
  refine Spec.wp_seq (wp_any _) fun l₁ pm s₁ _ => ?_
  split
  · exact nofun
  refine Spec.wp_seq (wp_any _) fun l₂ ssid s₂ _ => ?_
  split
  · exact nofun
  refine Spec.wp_seq (wp_any _) fun l₃ isUp s₃ _ => ?_
  split
  · refine Spec.wp_seq (wp_any _) fun l₄ ch s₄ _ => ?_
    cases ch with
    | none => exact nofun
    | some ch => exact hstart _ _ _
  · exact hstart _ _ _

/-- An access point whose bit is clear is asked for. -/
theorem setUpAp_asked {country : List UInt8} (hap : b.enableAp = true) (hs : Bit false s) :
    (toldSpec b ok).wp κ l (setUpItf b .ap true country) s fun l' r _ => Asked l' r := by
  have hafter : ∀ l s, (toldSpec b ok).wp κ l (bringUp.afterBoot b .ap) s fun l' r _ => Asked l' r := by
    intro l s
    unfold bringUp.afterBoot
    rw [if_pos ⟨hap, rfl⟩]
    refine Spec.wp_seq apEnable_asked fun l₁ r s₁ h => ?_
    split
    case isTrue hr => exact fun hr' => absurd hr' hr
    case isFalse hr =>
      obtain ⟨args, hargs⟩ := h (not_not.mp hr)
      exact Spec.wp_mono (wp_any _) fun _ _ _ hsub _ => ⟨args, hsub hargs⟩
  refine Spec.wp_seq (M := fun _ isUp _ => isUp = false) (Spec.wp_load steady_bit hs fun t ht => ht)
    fun l₁ isUp s₁ hup => ?_
  rw [if_neg (by simp [hup])]
  refine Spec.wp_seq (wp_any _) fun l₂ r s₂ _ => ?_
  split
  case isTrue hr => exact fun hr' => absurd hr' hr
  refine Spec.wp_seq (wp_any _) fun l₃ r s₃ _ => ?_
  split
  case isTrue hr => exact fun hr' => absurd hr' hr
  refine Spec.wp_seq (wp_any _) fun l₄ booted s₄ _ => ?_
  split
  case isFalse => exact hafter _ _
  refine Spec.wp_seq (wp_any _) fun l₅ st s₅ _ => ?_
  split
  case isTrue hst => exact fun hr => absurd (statusToErrno_eq_ok.mp hr) hst
  refine Spec.wp_seq (wp_any _) fun l₆ _ s₆ _ => Spec.wp_seq (wp_any _) fun l₇ _ s₇ _ => hafter _ _

/-! ## Every call -/

/-- The steps of a run. -/
def runOk (is : List Doing) (s : State) (e : Happening) : Prop := KeepsAp is s e ∧ FromLinked s e

theorem KeepsAp.holds {is : List Doing} {e : Happening} (h : KeepsAp is s e)
    (hends : ∀ d ∈ is, d.call.endsAp = false)
    (hleave : c.isLeave = true → ∃ d ∈ is, d.call.isLeave = true) : Holds c s e := by
  unfold Holds
  split
  · refine Bool.eq_false_iff.mpr fun hrun => ?_
    obtain ⟨d, hd, hd'⟩ := h hrun
    exact Bool.false_ne_true ((hends d hd).symm.trans hd')
  · exact fun hc hst => h hst (hleave hc)
  · trivial

theorem steady_told : (heldSpec b c).Steady Told := fun is s e hok hs =>
  (steady_ap is s e hok (told_iff.mp hs)).told

/-- Without the driver no access point runs. -/
theorem not_running (hs : Told s) (hlinked : Linked s) (hi : s.initted = false) :
    s.lib.apRunning = false := by
  refine Bool.eq_false_iff.mpr fun hrun => ?_
  have hup : s.itfState .ap = true := (told_iff.mp hs).1.trans hrun
  exact Bool.false_ne_true (hi.symm.trans (hlinked.itfState .ap hup))

/-- Bringing the access point up. -/
theorem upAp_meets {country : List UInt8} (hap : b.enableAp = true)
    (hu : ApInit s.lib.apRunning s.initted (atDepth 1 s))
    (hi : s.initted = false → s.lib.apRunning = false) :
    (heldSpec b (.setUp 1 true country)).Meets [] (.setUp 1 true country) s Told := by
  have htold := @setUpAp_ap b (.setUp 1 true country) _ _ country hap hi
    ⟨.setUp 1 true country, atDepth 1 s, []⟩ .empty (atDepth 1 s) rfl hu
  cases hrun : s.lib.apRunning with
  | true =>
    refine Spec.wp_mono htold fun l r t ht u hu' =>
      ⟨fun _ _ _ hoff => ?_, show Told u from steady_told.calm hu' ht⟩
    exact absurd (hoff.symm.trans hrun) Bool.false_ne_true
  | false =>
    have hbit : Bit false (atDepth 1 s) := hu.1.1.trans hrun
    refine Spec.wp_mono (Spec.wp_and htold (setUpAp_asked hap hbit))
      fun l r t ht u hu' => ⟨fun _ _ hr _ => ht.2 hr, show Told u from steady_told.calm hu' ht.1⟩

/-- A call that does not take the access point down. -/
theorem held_meets (hap : b.enableAp = true) (hs : Told s) (hlinked : Linked s) (hc : c.endsAp = false) :
    (heldSpec b c).Meets [] c s Told := by
  have hu : ApInit s.lib.apRunning s.initted (atDepth 1 s) := ⟨told_iff.mp hs, rfl⟩
  have hi := not_running hs hlinked
  have hkeep : ∀ {P : State → Prop}, P (atDepth 1 s) → (∀ country, c ≠ .setUp 1 true country) →
      (heldSpec b c).Triple c P (c.body b) (fun _ => Ap s.lib.apRunning s.lib.apRunning) →
      (heldSpec b c).Meets [] c s Told := fun hP hne h =>
    h.meets hP (fun _ => steady_ap) fun _ _ _ ht => ⟨fun country heq => absurd heq (hne country), ht.told⟩
  by_cases hm : c.moves = false
  · refine hkeep hu.1 (fun country heq => ?_) (apart_ap hm)
    subst heq
    exact nomatch hm
  cases c with
  | init => exact hkeep hu nofun (initDriver_ap hi)
  | deinit => exact nomatch hc
  | setUp i up country =>
    obtain rfl | rfl | hnone := Itf.ofInt_cases i
    · cases up with
      | true => exact hkeep hu (by simp) (setUpSta_ap hi)
      | false =>
        refine hkeep hu.1 (by simp) (.seq (M := fun _ => Ap _ _) (.load steady_ap fun _ h => h) fun _ => ?_)
        exact .ite (fun _ => .pure fun _ h => h) fun _ => takeDownSta_ap
    · cases up with
      | true => exact upAp_meets hap hu hi
      | false => exact nomatch hc
    · refine hkeep hu.1 (fun country heq => ?_) ?_
      · obtain rfl := (Call.setUp.inj heq).1
        exact nomatch hnone
      · change (heldSpec b _).Triple _ _ (wifiSetUp b i up country) _
        rw [wifiSetUp, hnone]
        exact .pure fun _ h => h
  | _ => exact absurd rfl hm

/-- **Every call leaves the reported status right.** -/
theorem told_sound (hap : b.enableAp = true) : (toldSpec b runOk).Sound := by
  refine Spec.oneAtATime_sound (fun s e hs hok => ?_) fun c s hs hok => ?_
  · exact steady_told (c := .init) [] s e (hok.1.holds (fun _ h => nomatch h) nofun) hs
  · have hlinked : Linked s := hok.2
    cases hc : c.endsAp with
    | false =>
      refine Spec.oneAtATime_meets_mono (fun i t e hi hok => ?_) (held_meets hap hs hlinked hc)
      refine hok.1.holds (fun d hd => ?_) fun h => ⟨i, List.mem_singleton_self i, hi ▸ h⟩
      obtain rfl := List.mem_singleton.mp hd
      exact hi ▸ hc
    | true =>
      have hu : ApInit s.lib.apRunning s.initted (atDepth 1 s) := ⟨told_iff.mp hs, rfl⟩
      have hi := not_running hs hlinked
      cases c with
      | deinit =>
        exact (deinit_off hap rfl hi).meets ⟨hu, rfl⟩ (fun _ => steady_off) fun _ _ _ ht =>
          ⟨nofun, ht.told⟩
      | setUp i up country =>
        obtain ⟨hitf, hup⟩ := Bool.and_eq_true_iff.mp (hc : (i == 1 && !up) = true)
        obtain rfl := beq_iff_eq.mp hitf
        obtain rfl : up = false := by simpa using hup
        have hoff := @setUpApDown_off b runOk (.setUp 1 false country) _ hap rfl _ country hi
        exact hoff.meets hu (fun _ => steady_off) fun _ _ _ ht => ⟨fun _ h => by simp at h, ht.told⟩
      | _ => exact nomatch hc

/-! ## Every run -/

/-- **The reported status is that of the access point in morselib** between the calls, and
`mm_halow_wifi_set_up(MM_HALOW_ITF_AP, true)` returns 0 only after it has asked for an access point that
does not run, as long as a running one is not left with success and not lost to a fatal error. -/
theorem told_runs (b : Build) (hap : b.enableAp = true) (n : Lwip) (hn : n.Fresh) (tr : List Happening)
    (x : Site) (hr : Run (fun x e y => (oneAtATime b).Step x e y ∧ KeepsAp x.infos x.st e)
      (start b n) tr x) :
    (x.stack = [] → (wifiLinkStatus x.st 1 = .up ↔ x.st.lib.apRunning = true)) ∧
      ∀ country y, (oneAtATime b).Step x (.ret (.setUp 1 true country) .ok) y →
        ∃ d, x.infos.head? = some d ∧ d.call = .setUp 1 true country ∧
          (d.entry.lib.apRunning = false → ∃ args, .mmwlan (.apEnable args) ∈ d.log.asked) := by
  have hr' : Run (toldSpec b runOk).Step (start b n) tr x := fromLinked_run hn hr
  have h0 : Told (State.init b n) := told_iff.mpr ⟨rfl, rfl⟩
  refine ⟨fun hx => (told_sound hap).idle h0 hr' hx, fun country y hy => ?_⟩
  obtain ⟨d, is, hd, hc, hpost⟩ := (told_sound hap).post h0 hr' ⟨hy, trivial, trivial⟩
  exact ⟨d, congrArg List.head? hd, hc, hpost country hc rfl⟩

/-- Nothing that could stop an access point. -/
def calmStep : Happening → Bool
  | .cb e => e != .fatal
  | .answer q _ => q != .mmwlan .apDisable
  | _ => true

theorem keepsAp_of_calm {is : List Doing} {e : Happening} (h : calmStep e = true) : KeepsAp is s e := by
  unfold KeepsAp
  split
  · exact absurd rfl (bne_iff_ne.mp h)
  · exact absurd rfl (bne_iff_ne.mp h)
  · trivial

/-- The access point is brought up. -/
theorem told_runs_up : ∃ tr x, Run (oneAtATime (.small true)).Step (start (.small true) noNetifs) tr x ∧
    x.stack = [] ∧ x.st.lib.apRunning = true ∧ wifiLinkStatus x.st 1 = .up := by
  obtain ⟨tr, x, hr, hx⟩ := World.run_of_play_any (oneAtATime (.small true)) (fun _ _ e => calmStep e)
    (start (.small true) noNetifs) accessPointUp (fun r => r.2.stack.isEmpty && r.2.st.lib.apRunning) rfl
  obtain ⟨hstack, hrun⟩ := Bool.and_eq_true_iff.mp hx
  have hstack := List.isEmpty_iff.mp hstack
  have htold := (told_runs (.small true) rfl noNetifs fresh_noNetifs tr x
    (hr.mono fun _ _ _ h => ⟨h.1, keepsAp_of_calm h.2⟩)).1 hstack
  exact ⟨tr, x, hr.mono fun _ _ _ h => h.1, hstack, hrun, htold.mpr hrun⟩

/-- Bringing up an access point whose bit is set asks for nothing. -/
theorem setUp_at_once (country : List UInt8) (hup : Bit true s) :
    ∃ y, Run (oneAtATime b).Step ⟨s, []⟩
      [.call (.setUp 1 true country), .act, .ret (.setUp 1 true country) .ok] y := by
  have hbody : ∃ k, Call.body b (.setUp 1 true country) = .act id k ∧ k (atDepth 1 s) = .ret .ok := by
    refine ⟨_, rfl, ?_⟩
    have hup' : (atDepth 1 s).itfState .ap = true := hup
    simp only [hup']
    rfl
  obtain ⟨k, hk, hret⟩ := hbody
  refine ⟨_, .cons (.call rfl) (.cons (t := ⟨atDepth 1 s, [⟨⟨.setUp 1 true country, atDepth 1 s, .empty⟩,
    .run (.ret .ok)⟩]⟩) ?_ (.single .ret))⟩
  have hact : (oneAtATime b).Step
      ⟨atDepth 1 s, [⟨⟨.setUp 1 true country, atDepth 1 s, .empty⟩, .run (.act id k)⟩]⟩ .act
      ⟨id (atDepth 1 s), [⟨⟨.setUp 1 true country, atDepth 1 s, .empty⟩, .run (k (atDepth 1 s))⟩]⟩ := .act
  rw [hret, ← hk] at hact
  exact hact

/-- **An access point that has been left is reported up**, and bringing it up again returns 0 at once. -/
theorem told_after_leave : ∃ tr x y,
    Run (oneAtATime (.small true)).Step (start (.small true) noNetifs) tr x ∧ x.stack = [] ∧
      wifiLinkStatus x.st 1 = .up ∧ x.st.lib.apRunning = false ∧
      Run (oneAtATime (.small true)).Step x
        [.call (.setUp 1 true us), .act, .ret (.setUp 1 true us) .ok] y := by
  obtain ⟨tr, ⟨s, as⟩, hr, hx⟩ := World.run_of_play_any (oneAtATime (.small true)) (fun _ _ _ => true)
    (start (.small true) noNetifs) (accessPointUp ++ .call (.leave 1) :: granted [.mmwlan .apDisable])
    (fun r => r.2.stack.isEmpty && r.2.st.itfState .ap && !r.2.st.lib.apRunning) rfl
  simp only [Bool.and_eq_true, List.isEmpty_iff, Bool.not_eq_true'] at hx
  obtain ⟨⟨rfl, hup⟩, hrun⟩ := hx
  obtain ⟨y, hy⟩ := setUp_at_once (b := .small true) us hup
  exact ⟨tr, ⟨s, []⟩, y, hr.mono fun _ _ _ h => h.1, rfl, if_pos hup, hrun, hy⟩

end MmHalow.Ctrl
