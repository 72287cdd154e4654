import MmHalow.Ctrl.Frame

/-!
# Setters that fail (`mm_halow_wifi_pm` and its siblings)

`mm_halow_wifi_set_ps_timeout` stores its value once morselib has accepted it, and `mm_halow_wifi_pm`
puts the stored mode back where morselib refuses it. The other two store theirs first:
`mm_halow_wifi_set_duty_cycle` before it looks at the transceiver and the mode, and
`mm_halow_wifi_set_health_check` before it asks morselib. And `mm_halow_wifi_pm` hands two settings over,
of which the first stays with morselib where the second is refused.

* `KeepsOnError`: a failed setter has nothing to put back.
* `failed_setters_iff`: **a setter that returns an error leaves what is stored and what morselib has as
  they were exactly where it has nothing to put back.**
* `failed_setter_stored`: a duty cycle is stored by a call that fails.

Calls may be nested in any way, but not in a setter, whose call of morselib is over before another call
is made.
-/

namespace MmHalow.Ctrl

open MmHalow.Lib

/-! ## What is set -/

/-- The setters. -/
def Call.isSetter : Call → Bool
  | pm _ | setPsTimeout _ | setDutyCycle _ | setHealthCheck _ _ => true
  | _ => false

/-- What the setters store, and what morselib has. -/
structure SetterValues where
  pm : UInt32
  psTimeoutMs : UInt32
  dutyCycleMode : UInt8
  healthMinMs : UInt32
  healthMaxMs : UInt32
  lib : Settings
  deriving Repr, DecidableEq

def State.setterValues (s : State) : SetterValues :=
  ⟨s.pm, s.psTimeoutMs, s.dutyCycleMode, s.healthMinMs, s.healthMaxMs, s.lib.settings⟩

/-- morselib has accepted `f` in the call. -/
def HasAccepted (f : Mmwlan) (l : Log Ask Ask.Ans) : Prop :=
  (⟨.mmwlan f, Status.success⟩ : Sigma Ask.Ans) ∈ l.heard

/-- **Where the call fails, it has nothing to put back**: morselib has not accepted another power-save
mode, the duty cycle is the stored one, and so are the intervals, unless they are refused at once. -/
def KeepsOnError (e : State) (l : Log Ask Ask.Ans) : Call → Prop
  | .pm mode => HasAccepted (.setPowerSaveMode (mode != pmNone)) l →
    (mode != pmNone) = e.lib.settings.psEnabled
  | .setDutyCycle mode => UInt8.ofInt mode = e.dutyCycleMode
  | .setHealthCheck min max =>
    max ≠ 0 ∧ min > max ∨ min = e.healthMinMs ∧ max = e.healthMaxMs
  | _ => True

/-- No call is made within a setter. -/
def OutsideSetters (is : List Doing) : Happening → Prop
  | .call _ => ∀ i ∈ is.head?, i.call.isSetter = false
  | _ => True

/-- What a setter shows at its return. -/
def FailsClean (i : Doing) (r : Ret) (s : State) : Prop :=
  i.call.isSetter = true → ∀ err, r = .err err →
    (s.setterValues = i.entry.setterValues ↔ KeepsOnError i.entry i.log i.call)

/-- The specification: nothing but callbacks happens while a setter waits. -/
def settersSpec (b : Build) : Spec (world b) where
  ok is _ e := OutsideSetters is e
  during is s t := ∀ i ∈ is.head?, i.call.isSetter = true →
    (world b).Calm (fun is _ e => OutsideSetters is e) is s t
  entry _ _ := True
  guard _ _ _ := True
  post := FailsClean
  idle _ := True

variable {b : Build} {c : Call} {s t e : State} {v : SetterValues} {f : Mmwlan}
  {κ : Around State Ask Ask.Ans Call} {l : Log Ask Ask.Ans}

theorem steady_setterValues : (settersSpec b).Steady fun s => s.setterValues = v := by
  intro is s e _ h
  have hstill : Still fun s => s.setterValues = v := fun s => Iff.rfl
  exact hstill.callback h

/-- The setters of morselib that the driver's setters call. -/
def Mmwlan.ofSetter : Mmwlan → Bool
  | setPowerSaveMode _ | setDynamicPsTimeout _ | setHealthCheckInterval _ _ | setDutyCycleMode _ => true
  | _ => false

/-- **A setting that is handed over** takes effect where it is accepted. -/
theorem mmwlan_setter (hc : κ.call.isSetter = true) (hf : f.ofSetter = true) (hs : s.setterValues = v) :
    (settersSpec b).wp κ l (mmwlan f) s fun l' st t =>
      l' = (l.ask (.mmwlan f)).hear (.mmwlan f) st ∧
        t.setterValues = if st = Status.success then { v with lib := f.applyTo v.lib } else v := by
  refine Spec.wp_request_in (D := fun s => s.setterValues = v) (steady_setterValues _) hs
    (fun _ _ _ => trivial) (fun t u ht hu => ?_) (fun _ _ _ => trivial) fun t st ht _ _ => ⟨rfl, ?_⟩
  · have henter : (enter b κ.call (.mmwlan f) t).setterValues = v := by
      cases f <;> exact ht
    exact steady_setterValues.calm (hu _ rfl hc) henter
  · obtain rfl := ht
    have hleft : (leave b κ.call (.mmwlan f) st t).setterValues =
        { t.setterValues with lib := (t.lib.answered b κ.call t.country f st).settings } := rfl
    refine Eq.trans hleft ?_
    cases f <;> first
      | exact absurd hf Bool.false_ne_true
      | (cases (st : Status) <;> rfl)

/-- `return mm_halow_status_to_errno(status)` of a setting that is handed over. -/
theorem errnoOf_setter (hc : κ.call.isSetter = true) (hf : f.ofSetter = true) (hs : s.setterValues = v) :
    (settersSpec b).wp κ l (errnoOf (mmwlan f)) s fun _ r t => ∀ err, r = .err err → t.setterValues = v := by
  refine Spec.wp_seq (mmwlan_setter hc hf hs) fun l' st t ht err hr => ?_
  obtain ⟨-, ht⟩ := ht
  rw [ht, if_neg]
  rintro rfl
  exact nomatch hr

/-! ## The setters -/

/-- `mm_halow_apply_pm`: where it fails, morselib has the mode if it has accepted it. -/
theorem applyPm_setter (hc : κ.call.isSetter = true) (hs : s.setterValues = v) (hl : l.heard = []) :
    (settersSpec b).wp κ l applyPm s fun l' r t => r ≠ .ok →
      ¬ HasAccepted (.setPowerSaveMode (v.pm != pmNone)) l' ∧ t.setterValues = v ∨
      HasAccepted (.setPowerSaveMode (v.pm != pmNone)) l' ∧
        t.setterValues = { v with lib := { v.lib with psEnabled := v.pm != pmNone } } := by
  refine Spec.wp_bind.mpr (Spec.wp_load steady_setterValues hs fun t ht => ?_)
  have hpm : t.pm = v.pm := congrArg SetterValues.pm ht
  rw [hpm]
  refine Spec.wp_seq (mmwlan_setter hc rfl ht) fun l' st u hu => ?_
  obtain ⟨rfl, hu⟩ := hu
  by_cases hst : st = Status.success
  · rw [if_pos hst] at hu
    rw [if_neg (not_not.mpr hst)]
    refine Spec.wp_bind.mpr (Spec.wp_load steady_setterValues hu fun t ht => ?_)
    refine Spec.wp_seq (mmwlan_setter hc rfl ht) fun l' st' w hw hr => .inr ?_
    obtain ⟨rfl, hw⟩ := hw
    have hne : st' ≠ Status.success := fun h => hr (h ▸ rfl)
    rw [if_neg hne] at hw
    exact ⟨List.mem_cons_of_mem _ (hst ▸ List.mem_cons_self), hw⟩
  · rw [if_neg hst] at hu
    rw [if_pos hst]
    refine fun _ => .inl ⟨fun h => ?_, hu⟩
    have h : (⟨.mmwlan (.setPowerSaveMode (v.pm != pmNone)), Status.success⟩ : Sigma Ask.Ans) ∈
        (⟨.mmwlan (.setPowerSaveMode (v.pm != pmNone)), st⟩ :: l.heard) := h
    rw [hl, List.mem_singleton] at h
    exact hst (eq_of_heq (Sigma.mk.inj h).2).symm

theorem wifiPm_fails {mode : UInt32} (hc : κ.call.isSetter = true) (hs : s.setterValues = e.setterValues)
    (hl : l.heard = []) :
    (settersSpec b).wp κ l (wifiPm b mode) s fun l' r t => ∀ err, r = .err err →
      (t.setterValues = e.setterValues ↔ KeepsOnError e l' (.pm mode)) := by
  have hnone : ∀ {l' : Log Ask Ask.Ans} {t : State}, t.setterValues = e.setterValues →
      ¬ HasAccepted (.setPowerSaveMode (mode != pmNone)) l' →
      (t.setterValues = e.setterValues ↔ KeepsOnError e l' (.pm mode)) := fun ht hn =>
    ⟨fun _ h => absurd h hn, fun _ => ht⟩
  refine Spec.wp_bind.mpr (Spec.wp_load steady_setterValues hs fun t ht => ?_)
  split
  · intro err _
    refine hnone ht fun h => ?_
    have h : _ ∈ l.heard := h
    rw [hl] at h
    exact absurd h List.not_mem_nil
  refine Spec.wp_bind.mpr (Spec.wp_load steady_setterValues ht fun t ht => ?_)
  refine Spec.wp_bind.mpr (Spec.wp_store (P := fun s => s.setterValues = t.setterValues) steady_setterValues rfl
    fun u hu => ?_)
  have hu' : State.setterValues { u with pm := mode } = { e.setterValues with pm := mode } :=
    congrArg (fun v => { v with pm := mode }) (hu.trans ht)
  refine Spec.wp_bind.mpr (Spec.wp_load steady_setterValues hu' fun w hw => ?_)
  split
  · refine Spec.wp_seq (applyPm_setter hc hw hl) fun l' r w' hw' => ?_
    split
    case isTrue hr =>
      -- the stored mode is put back
      obtain ⟨hn, hv⟩ | ⟨ha, hv⟩ := hw' hr
      · refine Spec.wp_bind.mpr (Spec.wp_store steady_setterValues hv fun x hx => ?_)
        refine fun err _ => hnone ?_ hn
        refine (congrArg (fun v => { v with pm := t.pm }) hx).trans ?_
        exact congrArg (fun p => { e.setterValues with pm := p }) (congrArg SetterValues.pm ht)
      · refine Spec.wp_bind.mpr (Spec.wp_store steady_setterValues hv fun x hx => ?_)
        have hx' : State.setterValues { x with pm := t.pm } =
            { e.setterValues with lib := { e.lib.settings with psEnabled := mode != pmNone } } := by
          refine (congrArg (fun v => { v with pm := t.pm }) hx).trans ?_
          exact congrArg (fun p => { e.setterValues with
            pm := p, lib := { e.lib.settings with psEnabled := mode != pmNone } }) (congrArg SetterValues.pm ht)
        intro err _
        constructor
        · intro h _
          exact congrArg (fun v => v.lib.psEnabled) (hx'.symm.trans h)
        · intro h
          rw [hx', h ha]
          rfl
    case isFalse hr => exact fun err h => nomatch h
  · exact fun err h => nomatch h

theorem wifiSetDutyCycle_fails {mode : Int} (hc : κ.call.isSetter = true)
    (hs : s.setterValues = e.setterValues) :
    (settersSpec b).wp κ l (wifiSetDutyCycle mode) s fun l' r t => ∀ err, r = .err err →
      (t.setterValues = e.setterValues ↔ KeepsOnError e l' (.setDutyCycle mode)) := by
  refine Spec.wp_bind.mpr (Spec.wp_store steady_setterValues hs fun t ht => ?_)
  have ht' : State.setterValues { t with dutyCycleMode := UInt8.ofInt mode } =
      { e.setterValues with dutyCycleMode := UInt8.ofInt mode } :=
    congrArg (fun v => { v with dutyCycleMode := UInt8.ofInt mode }) ht
  have hend : ∀ {l' : Log Ask Ask.Ans} {t : State},
      t.setterValues = { e.setterValues with dutyCycleMode := UInt8.ofInt mode } →
      (t.setterValues = e.setterValues ↔ KeepsOnError e l' (.setDutyCycle mode)) := by
    intro l' t ht
    constructor
    · intro h
      exact congrArg SetterValues.dutyCycleMode (ht.symm.trans h)
    · intro h
      rw [ht, show UInt8.ofInt mode = e.dutyCycleMode from h]
      rfl
  refine Spec.wp_bind.mpr (Spec.wp_load steady_setterValues ht' fun t ht => ?_)
  split
  · exact fun err _ => hend ht
  split
  · exact fun err _ => hend ht
  · exact Spec.wp_mono (errnoOf_setter hc rfl ht) fun l' r t ht err hr => hend (ht err hr)

theorem wifiSetHealthCheck_fails {min max : UInt32} (hc : κ.call.isSetter = true)
    (hs : s.setterValues = e.setterValues) :
    (settersSpec b).wp κ l (wifiSetHealthCheck min max) s fun l' r t => ∀ err, r = .err err →
      (t.setterValues = e.setterValues ↔ KeepsOnError e l' (.setHealthCheck min max)) := by
  unfold wifiSetHealthCheck
  by_cases hr : max ≠ 0 ∧ min > max
  · rw [if_pos hr]
    exact fun err _ => ⟨fun _ => .inl hr, fun _ => hs⟩
  rw [if_neg hr]
  refine Spec.wp_bind.mpr (Spec.wp_store steady_setterValues hs fun t ht => ?_)
  have ht' : State.setterValues { t with healthMinMs := min } = { e.setterValues with healthMinMs := min } :=
    congrArg (fun v => { v with healthMinMs := min }) ht
  refine Spec.wp_bind.mpr (Spec.wp_store steady_setterValues ht' fun t ht => ?_)
  have ht' : State.setterValues { t with healthMaxMs := max } =
      { e.setterValues with healthMinMs := min, healthMaxMs := max } :=
    congrArg (fun v => { v with healthMaxMs := max }) ht
  refine Spec.wp_bind.mpr (Spec.wp_load steady_setterValues ht' fun t ht => ?_)
  split
  · refine Spec.wp_mono (errnoOf_setter hc rfl ht) fun l' r t ht err hr' => ?_
    have ht := ht err hr'
    constructor
    · intro h
      exact .inr ⟨congrArg SetterValues.healthMinMs (ht.symm.trans h),
        congrArg SetterValues.healthMaxMs (ht.symm.trans h)⟩
    · intro h
      obtain ⟨hmin, hmax⟩ := h.resolve_left hr
      rw [ht, hmin, hmax]
      rfl
  · exact fun err h => nomatch h

theorem wifiSetPsTimeout_fails {ms : UInt32} (hc : κ.call.isSetter = true)
    (hs : s.setterValues = e.setterValues) :
    (settersSpec b).wp κ l (wifiSetPsTimeout ms) s fun _ r t => ∀ err, r = .err err →
      t.setterValues = e.setterValues := by
  unfold wifiSetPsTimeout
  split
  · exact fun err _ => hs
  refine Spec.wp_bind.mpr (Spec.wp_load steady_setterValues hs fun t ht => ?_)
  split
  · refine Spec.wp_seq (mmwlan_setter hc rfl ht) fun l' st t ht => ?_
    obtain ⟨-, ht⟩ := ht
    split
    case isTrue hst =>
      rw [if_neg hst] at ht
      exact fun err _ => ht
    case isFalse =>
      exact Spec.wp_bind.mpr (Spec.wp_store steady_setterValues ht fun _ _ err h => nomatch h)
  · exact Spec.wp_bind.mpr (Spec.wp_store steady_setterValues ht fun _ _ err h => nomatch h)

/-! ## Every run -/

/-- What a setter ends with. -/
theorem setter_fails (hc : c.isSetter = true) (hκ : κ.call = c) (hs : s.setterValues = e.setterValues)
    (hl : l.heard = []) :
    (settersSpec b).wp κ l (c.body b) s fun l' r t => ∀ err, r = .err err →
      (t.setterValues = e.setterValues ↔ KeepsOnError e l' c) := by
  have hset : κ.call.isSetter = true := hκ ▸ hc
  cases c with
  | pm mode => exact wifiPm_fails hset hs hl
  | setDutyCycle mode => exact wifiSetDutyCycle_fails hset hs
  | setHealthCheck min max => exact wifiSetHealthCheck_fails hset hs
  | setPsTimeout ms =>
    exact Spec.wp_mono (wifiSetPsTimeout_fails hset hs) fun _ _ _ h err hr =>
      ⟨fun _ => trivial, fun _ => h err hr⟩
  | _ => exact nomatch hc

/-- A call made anywhere, where nothing is asked of what it leaves. -/
theorem setters_meets {is : List Doing} {P : State → Prop} (hP : ∀ t, P t) :
    (settersSpec b).Meets is c s P := by
  by_cases hc : c.isSetter = true
  · refine Spec.wp_mono (setter_fails hc rfl rfl rfl) fun l r t ht u hu => ⟨fun _ err hr => ?_, hP _⟩
    have hcalm : u.setterValues = t.setterValues := steady_setterValues.calm hu rfl
    rw [hcalm]
    exact ht err hr
  · have hany : ∀ q, (settersSpec b).Unmoved c (fun _ => True) q := fun q =>
      ⟨fun _ _ _ => trivial, fun _ _ => trivial, fun _ _ _ => trivial, fun _ _ _ _ => trivial⟩
    refine Spec.wp_mono (Spec.Triple.anything (P := fun _ => True) hany _ _ _ rfl trivial)
      fun _ _ _ _ _ _ => ⟨fun h => absurd h hc, hP _⟩

/-- **Every call meets the specification.** -/
theorem setters_sound (b : Build) : (settersSpec b).Sound where
  idle_cb _ _ _ _ := trivial
  during_refl _ _ _ _ _ := .refl
  during_trans _ _ _ _ h h' i hi hc := (h i hi hc).trans (h' i hi hc)
  during_cb _ _ _ hok _ _ _ := .single hok
  first _ _ _ _ := setters_meets fun _ => trivial
  nested _ _ _ _ _ hok := setters_meets fun _ j hj hc =>
    absurd (hc.symm.trans (hok j hj)) Bool.noConfusion

/-- **A failed setter leaves everything as it was exactly where it has nothing to put back**, in every
run, whatever morselib answers. -/
theorem failed_setters_iff (b : Build) (lwip : Lwip) (tr : List Happening) (x y : Site) (c : Call)
    (err : Errno)
    (hr : Run (fun x e y => (world b).Step x e y ∧ OutsideSetters x.infos e) (start b lwip) tr x)
    (hy : (world b).Step x (.ret c (.err err)) y) (hc : c.isSetter = true) :
    ∀ i ∈ x.infos.head?, y.st.setterValues = i.entry.setterValues ↔ KeepsOnError i.entry i.log c := by
  have hr' : Run (settersSpec b).Step (start b lwip) tr x := hr
  obtain ⟨i, is, hi, hcall, hpost⟩ := (setters_sound b).post trivial hr' ⟨hy, trivial⟩
  have hend := hpost (hcall ▸ hc) err rfl
  rw [hcall] at hend
  have hst : y.st.setterValues = x.st.setterValues := by
    generalize hev : Event.ret c (Ret.err err) = ev at hy
    cases hy with
    | ret => rfl
    | _ => exact nomatch hev
  intro j hj
  rw [hi] at hj
  obtain rfl := Option.some.inj hj
  rw [hst]
  exact hend

/-! ## Two runs -/

/-- `OutsideSetters`, to evaluate. -/
def outsideStep (is : List Doing) : Happening → Bool
  | .call _ => is.head?.all fun i => !i.call.isSetter
  | _ => true

theorem of_outsideStep {is : List Doing} {h : Happening} (hs : outsideStep is h = true) :
    OutsideSetters is h := by
  unfold OutsideSetters
  split
  · intro i hi
    exact (Bool.not_eq_true' _).mp ((Option.all_eq_true _ _).mp hs i hi)
  · trivial

/-- The last call of a run fails. -/
def failsWith (c : Call) (err : Errno) (tr : List Happening) : Bool :=
  match tr.getLast? with
  | some (.ret c' r) => c' == c && r == .err err
  | _ => false

theorem of_failsWith {c : Call} {err : Errno} {tr : List Happening} (h : failsWith c err tr = true) :
    tr.getLast? = some (.ret c (.err err)) := by
  unfold failsWith at h
  split at h
  case h_1 c' r hlast =>
    obtain ⟨hc, hr⟩ := Bool.and_eq_true_iff.mp h
    rw [hlast, beq_iff_eq.mp hc, beq_iff_eq.mp hr]
  case h_2 => exact absurd h Bool.false_ne_true

/-- What the last call found, at its return. -/
def foundAtReturn (p : State → Bool) (is : List Doing) : Happening → Bool
  | .ret _ (.err _) => is.head?.any fun i => p i.entry
  | _ => true

/-- With the station up, morselib refuses to save power, and the stored mode is put back. -/
def refusedPm : Cues :=
  stationUp ++ [.call (.pm 1), .answer (.mmwlan (.setPowerSaveMode true)) Status.error]

/-- The mode is kept where morselib refuses it. -/
theorem failed_setters_iff_pm : ∃ tr x y,
    Run (fun x e y => (world (.small false)).Step x e y ∧ OutsideSetters x.infos e)
      (start (.small false) noNetifs) tr x ∧
    (world (.small false)).Step x (.ret (.pm 1) (.err .eio)) y ∧
      ∀ i ∈ x.infos.head?, y.st.setterValues = i.entry.setterValues ↔
        KeepsOnError i.entry i.log (.pm 1) := by
  obtain ⟨tr, y, hr, hy⟩ := World.run_of_play_any (world (.small false)) (fun is _ e => outsideStep is e)
    (start (.small false) noNetifs) refusedPm (fun r => failsWith (.pm 1) .eio r.1) rfl
  obtain ⟨tr', x, hx, hstep, -⟩ := hr.unsnoc (of_failsWith hy)
  have hx' : Run (fun x e y => (world (.small false)).Step x e y ∧ OutsideSetters x.infos e)
      (start (.small false) noNetifs) tr' x := hx.mono fun _ _ _ h => ⟨h.1, of_outsideStep h.2⟩
  exact ⟨tr', x, y, hx', hstep,
    failed_setters_iff (.small false) noNetifs tr' x y (.pm 1) .eio hx' hstep rfl⟩

/-- **A duty cycle is stored by a call that fails**: before the transceiver has been booted. -/
theorem failed_setter_stored : ¬ ∀ (b : Build) (lwip : Lwip) (tr : List Happening) (x y : Site) (c : Call)
    (err : Errno),
    Run (fun x e y => (world b).Step x e y ∧ OutsideSetters x.infos e) (start b lwip) tr x →
    (world b).Step x (.ret c (.err err)) y → c.isSetter = true →
    ∀ i ∈ x.infos.head?, y.st.setterValues = i.entry.setterValues := by
  intro h
  obtain ⟨tr, y, hr, hy⟩ := World.run_of_play_any (world (.small false))
    (fun is _ e => outsideStep is e && foundAtReturn (fun s => s.dutyCycleMode == 0) is e)
    (start (.small false) noNetifs) [.call (.setDutyCycle 1)]
    (fun r => failsWith (.setDutyCycle 1) .enodev r.1 && r.2.st.dutyCycleMode == 1) rfl
  obtain ⟨hlast, hone⟩ := Bool.and_eq_true_iff.mp hy
  obtain ⟨tr', x, hx, hstep, hok⟩ := hr.unsnoc (of_failsWith hlast)
  obtain ⟨i, hi, hzero⟩ := (Option.any_eq_true _ _).mp (Bool.and_eq_true_iff.mp hok).2
  have hx' : Run (fun x e y => (world (.small false)).Step x e y ∧ OutsideSetters x.infos e)
      (start (.small false) noNetifs) tr' x :=
    hx.mono fun _ _ _ h => ⟨h.1, of_outsideStep (Bool.and_eq_true_iff.mp h.2).1⟩
  have hkept := h (.small false) noNetifs tr' x y (.setDutyCycle 1) .enodev hx' hstep rfl i hi
  have hmode : y.st.dutyCycleMode = i.entry.dutyCycleMode := congrArg SetterValues.dutyCycleMode hkept
  rw [beq_iff_eq.mp hone, beq_iff_eq.mp hzero] at hmode
  exact absurd hmode (by decide)

end MmHalow.Ctrl
