import MmHalow.Ctrl.Frame

/-!
# Stored settings (`mm_halow_apply_radio`, `mm_halow_apply_pm`, `mm_halow_wifi_set_radio`)

The driver stores a setting whatever its state and hands it to morselib where it finds the transceiver
booted; what is stored while it is not is handed over by `mm_halow_init` alone, which an interface
that goes down and up again does not repeat, and which leaves out the transmit power and the duty
cycle, and what is zero. morselib accepts every setting here, and forgets them in `mmwlan_deinit`.

* `initDriver_stored`: what morselib's settings are after `mm_halow_init`.
* `settings_reach`: **calls made one at a time: as long as what `mm_halow_init` leaves out is morselib's
  default, and what a setter stores in an initialised driver goes on to morselib, morselib has every
  stored setting when a bring-up has booted the transceiver.**
* `txpower_forgotten`: a run in which it has not.
-/

namespace MmHalow.Ctrl

open MmHalow.Lib

/-! ## What is stored, and what morselib has -/

/-- The stored settings, as morselib takes them. -/
def State.stored (s : State) : Settings where
  psEnabled := s.pm != pmNone
  psTimeout := s.psTimeoutMs
  ampdu := s.ampdu
  sgi := s.sgi
  subbands := s.subbands
  rts := s.rtsThreshold
  fragment := s.fragmentThreshold
  listen := s.listenInterval
  txpower := s.txpower
  healthMin := s.healthMinMs
  healthMax := s.healthMaxMs
  dutyCycle := s.dutyCycleMode

/-- What `mm_halow_apply_pm` and `mm_halow_apply_radio` make of morselib's defaults `d`. -/
def Settings.applied (d v : Settings) : Settings where
  psEnabled := v.psEnabled
  psTimeout := v.psTimeout
  ampdu := v.ampdu
  sgi := v.sgi
  subbands := v.subbands
  rts := if v.rts ≠ 0 then v.rts else d.rts
  fragment := if v.fragment ≠ 0 then v.fragment else d.fragment
  listen := if v.listen ≠ 0 then v.listen else d.listen
  txpower := d.txpower
  healthMin := if v.healthMax ≠ 0 then v.healthMin else d.healthMin
  healthMax := if v.healthMax ≠ 0 then v.healthMax else d.healthMax
  dutyCycle := d.dutyCycle

/-- The functions of morselib that set something. -/
def Mmwlan.sets : Mmwlan → Bool
  | setPowerSaveMode _ | setDynamicPsTimeout _ | setAmpduEnabled _ | setSgiEnabled _
  | setSubbandsEnabled _ | setRtsThreshold _ | setFragmentThreshold _ | setListenInterval _
  | overrideMaxTxPower _ | setHealthCheckInterval _ _ | setDutyCycleMode _ => true
  | _ => false

/-- morselib accepts every setting. -/
def Accepts : Happening → Prop
  | .answer (.mmwlan f) st => f.sets = true → st = Status.success
  | _ => True

/-- **What is left out of `mm_halow_init` is morselib's default, and what a call has stored in an
initialised driver has gone on to morselib.** -/
def HandedOver (b : Build) (is : List Doing) (s : State) : Happening → Prop
  | .ask (.mmwlan .init) => b.defaults.applied s.stored = s.stored
  | .ret _ _ => s.initted = true → ∀ i ∈ is.head?, i.log.asked = [] → s.stored = i.entry.stored
  | _ => True

/-- Once it is initialised, morselib has what is stored. -/
def Matches (s : State) : Prop := s.initted = true → s.lib.settings = s.stored

/-- What a call that began at `e` has come to: it has asked for nothing and left morselib's settings
alone, or they are the stored ones. -/
def Closes (e : State) (l : Log Ask Ask.Ans) (s : State) : Prop :=
  (l.asked = [] ∧ s.initted = e.initted ∧ s.lib.settings = e.lib.settings) ∨ Matches s

/-- **What a call shows at its return.** A bring-up that has booted the transceiver leaves the driver
initialised. -/
def Returns (i : Doing) (r : Ret) (s : State) : Prop :=
  Matches i.entry → Closes i.entry i.log s ∧ ∀ itf country, i.call = .setUp itf true country → r = .ok →
    .mmwlan .boot ∈ i.log.asked → s.initted = true

/-- The specification. -/
def storedSpec (b : Build) : Spec (oneAtATime b) :=
  .oneAtATime (world b) (fun is s e => Accepts e ∧ HandedOver b is s e) (fun _ _ _ => True) Returns
    fun _ => True

/-! ## Assertions -/

variable {b : Build} {c : Call} {s t : State} {v w : Settings} {i : Bool} {f : Mmwlan}

/-- What is stored, what morselib has, and whether the driver is initialised. -/
structure Stands (v w : Settings) (i : Bool) (s : State) : Prop where
  stored : s.stored = v
  settings : s.lib.settings = w
  initted : s.initted = i

theorem steady_stands : (storedSpec b).Steady (Stands v w i) := by
  intro is s e _ h
  have hstill : Still (Stands v w i) :=
    fun s => ⟨fun h => ⟨h.stored, h.settings, h.initted⟩, fun h => ⟨h.stored, h.settings, h.initted⟩⟩
  exact hstill.callback h

theorem steady_matches : (storedSpec b).Steady Matches := by
  intro is s e _ h
  have hstill : Still Matches := fun s => Iff.rfl
  exact hstill.callback h

theorem steady_initted_is : (storedSpec b).Steady fun s => s.initted = i := by
  intro is s e _ h
  have hstill : Still fun s => s.initted = i := fun s => Iff.rfl
  exact hstill.callback h

/-- Asking changes none of them. -/
theorem Stands.enter (c : Call) (q : Ask) (h : Stands v w i s) : Stands v w i (enter b c q s) := by
  by_cases hq : ∃ itf, q = .netifAdd itf
  · obtain ⟨itf, rfl⟩ := hq
    exact ⟨h.stored, h.settings, h.initted⟩
  · obtain ⟨m, hm⟩ := enter_eq (b := b) (c := c) (fun itf h => hq ⟨itf, h⟩) s
    rw [hm]
    exact ⟨h.stored, h.settings, h.initted⟩

theorem settings_of_sets {country : Letters} {m : Morselib} (hf : f.sets = true) :
    (m.answered b c country f .success).settings = f.applyTo m.settings := by
  cases f <;> first | exact absurd hf Bool.false_ne_true | rfl

/-- The functions that neither set anything nor begin or end a session of morselib. -/
def Mmwlan.aside : Mmwlan → Bool
  | init | deinit => false
  | f => !f.sets

theorem settings_of_aside {country : Letters} {m : Morselib} {st : Status} (hf : f.aside = true) :
    (m.answered b c country f st).settings = m.settings := by
  cases f <;> first | exact absurd hf Bool.false_ne_true | (cases st <;> rfl)

/-- What is asked for besides. -/
def AsideAsk : Ask → Prop
  | .mmwlan f => f.aside = true
  | _ => True

theorem Stands.leave {q : Ask} {a : q.Ans} (hq : AsideAsk q) (h : Stands v w i s) :
    Stands v w i (leave b c q a s) := by
  cases q with
  | mmwlan f => exact ⟨h.stored, (settings_of_aside hq).trans h.settings, h.initted⟩
  | netifAdd itf => exact ⟨h.stored, h.settings, h.initted⟩
  | portHeapAlloc => exact h
  | osalMalloc => exact h
  | schedWait ms => exact h

/-- A step that concerns neither the settings nor the session. -/
structure Aside (s t : State) : Prop where
  stored : t.stored = s.stored
  lib : t.lib.settings = s.lib.settings
  initted : t.initted = s.initted

theorem Aside.refl : Aside s s := ⟨rfl, rfl, rfl⟩

theorem unmoved_stands {q : Ask} (hq : AsideAsk q) : (storedSpec b).Unmoved c (Stands v w i) q :=
  ⟨fun _ _ _ => trivial, fun _ h => h.enter c q, fun _ _ h => h.leave hq, fun _ _ _ h => nomatch h⟩

/-- Code that stays aside. -/
abbrev StaysAside {α : Type} (p : Halow α) : Prop := p.Within (fun f => ∀ s, Aside s (f s)) AsideAsk

/-- **Code that stays aside** leaves the three alone. -/
theorem StaysAside.triple {α : Type} {p : Halow α} (h : StaysAside p) :
    (storedSpec b).Triple c (Stands v w i) p fun _ => Stands v w i := by
  refine .ofWithin (h.mono (fun f hf s hs => ?_) fun q hq => unmoved_stands hq) steady_stands
    steady_stands.patient
  exact ⟨(hf s).stored.trans hs.stored, (hf s).lib.trans hs.settings, (hf s).initted.trans hs.initted⟩

/-! ## Handing settings over -/

variable {κ : Around State Ask Ask.Ans Call} {l : Log Ask Ask.Ans}

/-- A setter of morselib is accepted. -/
theorem mmwlan_sets (hf : f.sets = true) (hs : Stands v w i s) :
    (storedSpec b).wp κ l (mmwlan f) s fun l' st t =>
      st = Status.success ∧ Stands v (f.applyTo w) i t ∧ l'.asked ≠ [] := by
  refine Spec.wp_request_in (D := Stands v w i) (steady_stands _) hs (fun _ _ _ => trivial)
    (fun t u ht hu => steady_stands.calm hu (ht.enter κ.call (.mmwlan f))) (fun _ _ h => nomatch h)
    fun t st ht _ hok => ?_
  obtain rfl : st = Status.success := hok.1 hf
  refine ⟨rfl, ⟨ht.stored, ?_, ht.initted⟩, List.cons_ne_nil _ _⟩
  exact (settings_of_sets hf).trans (congrArg f.applyTo ht.settings)

theorem tell_sets (hf : f.sets = true) (hs : Stands v w i s) :
    (storedSpec b).wp κ l (tell f) s fun _ _ t => Stands v (f.applyTo w) i t :=
  Spec.wp_seq (mmwlan_sets hf hs) fun _ _ _ h => h.2.1

/-- A setter of morselib that is left out where its value is zero. -/
theorem onlyIf_sets {g : Bool} (hf : f.sets = true) (hs : Stands v w i s) :
    (storedSpec b).wp κ l (onlyIf g (tell f)) s fun _ _ t =>
      Stands v (if g then f.applyTo w else w) i t := by
  unfold onlyIf
  split
  · exact tell_sets hf hs
  · exact hs

theorem applyPm_stored (hs : Stands v w i s) :
    (storedSpec b).wp κ l applyPm s fun l' r t => r = .ok ∧ l'.asked ≠ [] ∧
      Stands v { w with psEnabled := v.psEnabled, psTimeout := v.psTimeout } i t := by
  refine Spec.wp_bind.mpr (Spec.wp_load steady_stands hs fun t ht => ?_)
  have hpm : (t.pm != pmNone) = v.psEnabled := congrArg Settings.psEnabled ht.stored
  rw [hpm]
  refine Spec.wp_seq (mmwlan_sets rfl ht) fun l' st u hu => ?_
  obtain ⟨rfl, hu, -⟩ := hu
  rw [if_neg (not_not.mpr rfl)]
  refine Spec.wp_bind.mpr (Spec.wp_load steady_stands hu fun t ht => ?_)
  have hms : t.psTimeoutMs = v.psTimeout := congrArg Settings.psTimeout ht.stored
  rw [hms]
  refine Spec.wp_seq (mmwlan_sets rfl ht) fun l' st u hu => ?_
  obtain ⟨rfl, hu, hl⟩ := hu
  exact ⟨rfl, hl, hu⟩

/-- What morselib has once the settings of the radio are applied. -/
def Settings.radio (w v : Settings) : Settings :=
  { w.applied v with
    psEnabled := w.psEnabled, psTimeout := w.psTimeout, txpower := w.txpower, dutyCycle := w.dutyCycle }

/-- A setting that is read. -/
theorem load_stored {α β : Type} {g : State → α} {x : α} {p : α → Halow β}
    {Q : Log Ask Ask.Ans → β → State → Prop} (hs : Stands v w i s) (hg : ∀ s, s.stored = v → g s = x)
    (h : ∀ t, Stands v w i t → (storedSpec b).wp κ l (p x) t Q) :
    (storedSpec b).wp κ l (load g >>= p) s Q := by
  refine Spec.wp_bind.mpr (Spec.wp_load steady_stands hs fun t ht => ?_)
  rw [hg t ht.stored]
  exact h t ht

theorem applyRadio_stored (hs : Stands v w i s) :
    (storedSpec b).wp κ l applyRadio s fun _ _ t => Stands v (w.radio v) i t := by
  refine load_stored hs (fun s h => congrArg Settings.ampdu h) fun t ht => ?_
  refine Spec.wp_seq (tell_sets rfl ht) fun l' _ t ht => ?_
  refine load_stored ht (fun s h => congrArg Settings.sgi h) fun t ht => ?_
  refine Spec.wp_seq (tell_sets rfl ht) fun l' _ t ht => ?_
  refine load_stored ht (fun s h => congrArg Settings.subbands h) fun t ht => ?_
  refine Spec.wp_seq (tell_sets rfl ht) fun l' _ t ht => ?_
  refine load_stored ht (fun s h => congrArg Settings.rts h) fun t ht => ?_
  refine Spec.wp_seq (onlyIf_sets rfl ht) fun l' _ t ht => ?_
  refine load_stored ht (fun s h => congrArg Settings.fragment h) fun t ht => ?_
  refine Spec.wp_seq (onlyIf_sets rfl ht) fun l' _ t ht => ?_
  refine load_stored ht (fun s h => congrArg Settings.listen h) fun t ht => ?_
  refine Spec.wp_seq (onlyIf_sets rfl ht) fun l' _ t ht => ?_
  refine load_stored ht (fun s h => congrArg Settings.healthMax h) fun t ht => ?_
  refine load_stored ht (fun s h => congrArg Settings.healthMin h) fun t ht => ?_
  refine Spec.wp_mono (onlyIf_sets rfl ht) fun l' _ t ht => ⟨ht.stored, ht.settings.trans ?_, ht.initted⟩
  simp only [decide_eq_true_eq, Mmwlan.applyTo, Settings.radio, Settings.applied]
  split <;> split <;> split <;> split <;> rfl

/-! ## Code that stays aside -/

theorem aside_store {g : State → State} (h : ∀ s, Aside s (g s)) : StaysAside (store g) :=
  Proc.within_store.mpr h

theorem aside_load {α : Type} (g : State → α) : StaysAside (load g) :=
  Proc.within_load.mpr fun _ => .refl

theorem aside_tell (hf : f.aside = true) : StaysAside (tell f) :=
  .bind (Proc.within_request.mpr hf) fun _ => trivial

theorem aside_ask (q : Ask) (hq : AsideAsk q) : StaysAside (Proc.request q) :=
  Proc.within_request.mpr hq

theorem aside_onlyIf {g : Bool} {p : Halow Unit} (h : StaysAside p) : StaysAside (onlyIf g p) :=
  .ite h trivial

theorem aside_osalInit : StaysAside osalInit :=
  .bind (aside_load _) fun _ => .ite trivial (.bind (aside_ask _ trivial) fun _ =>
    .bind (aside_store fun _ => ⟨rfl, rfl, rfl⟩) fun _ => trivial)

/-- The calls and the stages that stay aside. -/
def Call.aside : Call → Bool
  | init | deinit | setUp _ _ _ | pm _ | setRadio _ _ | setPsTimeout _ | setHealthCheck _ _
  | setDutyCycle _ => false
  | _ => true

def Stage.aside : Stage → Bool
  | init | rest => false
  | call c => c.aside
  | _ => true

theorem Stage.Sets.aside {stage : Stage} {g : State → State} (h : Stage.Sets b stage g) (ha : stage.aside = true)
    (s : State) : Aside s (g s) := by
  cases h <;> first
    | exact ⟨rfl, rfl, rfl⟩
    | exact absurd ha Bool.false_ne_true

theorem Stage.Asks.aside {stage : Stage} {q : Ask} (h : Stage.Asks b stage q) (ha : stage.aside = true) :
    AsideAsk q := by
  cases h with
  | @tells c f h =>
    change f.aside = true
    unfold Call.tells at h
    split at h <;> first
      | exact rfl
      | exact absurd ha Bool.false_ne_true
      | exact absurd h Bool.false_ne_true
  | _ => first
    | exact rfl
    | exact trivial
    | exact absurd ha Bool.false_ne_true

/-- **Stages that stay aside** make code that does. -/
theorem Steps.aside {ps : List Stage} {α : Type} {p : Halow α} (h : Steps b ps p)
    (hps : ∀ stage ∈ ps, stage.aside = true) : StaysAside p :=
  h.within (fun _ => .refl) (fun stage hm _ hg => hg.aside (hps stage hm))
    fun stage hm _ hq => hq.aside (hps stage hm)

theorem aside_setCountry {country : List UInt8} : StaysAside (setCountry b country) :=
  (steps_setCountry (List.mem_singleton.mpr rfl)).aside (by simp [Stage.aside])

theorem aside_bringUp {itf : Itf} : StaysAside (bringUp b itf) := by
  refine (steps_bringUp (List.Subset.refl _)).aside fun stage hm => ?_
  rcases mem_upStages.mp hm with rfl | rfl | ⟨rfl, -⟩
  · rfl
  · rfl
  · rfl

theorem aside_takeDown {itf : Itf} : StaysAside (takeDown b itf) :=
  (steps_takeDown (List.Subset.refl _)).aside (by simp [Itf.downStages, Stage.aside])

theorem aside_body (h : c.aside = true) : StaysAside (c.body b) := by
  refine (steps_body c).aside ?_
  cases c with
  | init => exact absurd h Bool.false_ne_true
  | deinit => exact absurd h Bool.false_ne_true
  | setUp itf up country => exact absurd h Bool.false_ne_true
  | scanCached max => simp [Call.stages, Stage.aside]
  | _ => exact fun stage hm => List.mem_singleton.mp hm ▸ h

/-- Code that stays aside, and what follows it. -/
theorem wp_aside {α β : Type} {p : Halow α} {g : α → Halow β} {Q : Log Ask Ask.Ans → β → State → Prop}
    (h : StaysAside p) (hs : Stands v w i s)
    (hg : ∀ l' a t, Stands v w i t → (storedSpec b).wp κ l' (g a) t Q) :
    (storedSpec b).wp κ l (p >>= g) s Q :=
  Spec.wp_seq (h.triple κ l s rfl hs) hg

/-! ## Initialising the driver -/

/-- **`mm_halow_init` leaves morselib with what is stored**, or the driver as it was. -/
theorem initDriver_stored (hs : Stands v w false s) : (storedSpec b).wp κ l (initDriver b) s fun _ r t =>
    Stands v v true t ∨ t.initted = false ∧ r ≠ .ok := by
  refine Spec.wp_bind.mpr (Spec.wp_load steady_stands hs fun t ht => ?_)
  rw [if_neg (by rw [ht.initted]; exact Bool.false_ne_true)]
  refine wp_aside (aside_store fun _ => ⟨rfl, rfl, rfl⟩) ht fun l' _ t ht => ?_
  refine wp_aside (aside_store fun _ => ⟨rfl, rfl, rfl⟩) ht fun l' _ t ht => ?_
  refine wp_aside (aside_store fun _ => ⟨rfl, rfl, rfl⟩) ht fun l' _ t ht => ?_
  refine wp_aside (aside_store fun _ => ⟨rfl, rfl, rfl⟩) ht fun l' _ t ht => ?_
  refine wp_aside (aside_store fun _ => ⟨rfl, rfl, rfl⟩) ht fun l' _ t ht => ?_
  refine wp_aside (aside_onlyIf (aside_store fun _ => ⟨rfl, rfl, rfl⟩)) ht fun l' _ t ht => ?_
  refine wp_aside (aside_store fun _ => ⟨rfl, rfl, rfl⟩) ht fun l' _ t ht => ?_
  refine wp_aside aside_osalInit ht fun l' pool t ht => ?_
  split
  case isTrue => exact .inr ⟨ht.initted, nofun⟩
  refine wp_aside (aside_ask .osalMalloc trivial) ht fun l' block t ht => ?_
  refine wp_aside (aside_store fun _ => ⟨rfl, rfl, rfl⟩) ht fun l' _ t ht => ?_
  split
  case isTrue =>
    refine wp_aside ?_ ht fun l' _ t ht => .inr ⟨ht.initted, nofun⟩
    exact .bind (aside_store fun _ => ⟨rfl, rfl, rfl⟩) fun _ => aside_store fun _ => ⟨rfl, rfl, rfl⟩
  -- morselib begins with its defaults, which what follows makes the stored settings of
  have hinit : (storedSpec b).wp κ l' (tell .init) t fun _ _ t =>
      Stands v b.defaults false t ∧ b.defaults.applied v = v := by
    refine Spec.wp_seq (M := fun _ _ t => Stands v b.defaults false t ∧ b.defaults.applied v = v) ?_
      fun _ _ _ h => h
    intro t' ht' hok
    have happlied : b.defaults.applied t'.stored = t'.stored := hok.2
    have ht' := steady_stands.calm ht' ht
    rw [ht'.stored] at happlied
    refine ⟨trivial, fun u hu => ⟨nofun, fun st _ _ => ⟨?_, happlied⟩⟩⟩
    have hu := steady_stands.calm hu (ht'.enter (b := b) κ.call (.mmwlan .init))
    exact ⟨hu.stored, rfl, hu.initted⟩
  refine Spec.wp_seq hinit fun l' _ t ht => ?_
  obtain ⟨ht, happlied⟩ := ht
  refine Spec.wp_seq (applyPm_stored ht) fun l' _ t ht => ?_
  refine Spec.wp_seq (applyRadio_stored ht.2.2) fun l' _ t ht => ?_
  have ht : Stands v v false t := ⟨ht.stored, ht.settings.trans happlied, ht.initted⟩
  refine wp_aside (aside_tell rfl) ht fun l' _ t ht => ?_
  refine wp_aside (aside_tell rfl) ht fun l' _ t ht => ?_
  refine wp_aside (aside_tell rfl) ht fun l' _ t ht => ?_
  refine wp_aside (aside_tell rfl) ht fun l' _ t ht => ?_
  refine Spec.wp_bind.mpr (Spec.wp_store steady_stands ht fun t ht => ?_)
  have ht : Stands v v true { t with initted := true } := ⟨ht.stored, ht.settings, rfl⟩
  exact wp_aside (aside_store fun _ => ⟨rfl, rfl, rfl⟩) ht fun l' _ t ht => .inl ht

/-! ## The setters -/

theorem Stands.matches (h : Stands v w i s) (hi : i = true → w = v) : Matches s := fun his =>
  h.settings.trans ((hi (h.initted.symm.trans his)).trans h.stored.symm)

theorem Stands.closes {e : State} (h : Stands v w i s) (he : e.initted = i ∧ e.lib.settings = w)
    (hl : l.asked = []) : Closes e l s :=
  .inl ⟨hl, h.initted.trans he.1.symm, h.settings.trans he.2.symm⟩

/-- A setting that is handed over after it has been stored. -/
theorem push_stored (hf : f.sets = true) (hv : f.applyTo w = v) (hs : Stands v w true s) {e : State} :
    (storedSpec b).wp κ l (errnoOf (mmwlan f)) s fun l' _ t => Closes e l' t :=
  Spec.wp_seq (mmwlan_sets hf hs) fun _ _ _ h => .inr (h.2.1.matches fun _ => hv)

/-- A setting that is handed over after it has been stored, where `g` says so. -/
theorem pushIf_stored {g : Bool} {e : State} (hf : f.sets = true) (hv : f.applyTo w = v)
    (he : e.initted = true ∧ e.lib.settings = w) (hl : l.asked = []) (hs : Stands v w true s) :
    (storedSpec b).wp κ l (if g then errnoOf (mmwlan f) else return .ok) s fun l' _ t =>
      Closes e l' t := by
  split
  · exact push_stored hf hv hs
  · exact hs.closes he hl

/-- The same where the transceiver is to be booted. -/
theorem pushBooted_stored {e : State} (hf : f.sets = true) (hv : f.applyTo w = v)
    (he : e.initted = true ∧ e.lib.settings = w) (hl : l.asked = []) (hs : Stands v w true s) :
    (storedSpec b).wp κ l (do if ← load (·.booted) then errnoOf (mmwlan f) else return .ok) s
      fun l' _ t => Closes e l' t :=
  Spec.wp_bind.mpr (Spec.wp_load steady_stands hs fun _ ht => pushIf_stored hf hv he hl ht)

/-- A setting that is stored. -/
theorem store_stored {β : Type} {g : State → State} {u : Settings → Settings} {p : Halow β}
    {Q : Log Ask Ask.Ans → β → State → Prop} (hs : Stands v w i s)
    (hg : ∀ s, (g s).stored = u s.stored ∧ (g s).lib = s.lib ∧ (g s).initted = s.initted)
    (h : ∀ t, Stands (u v) w i t → (storedSpec b).wp κ l p t Q) :
    (storedSpec b).wp κ l (store g >>= fun _ => p) s Q := by
  refine Spec.wp_bind.mpr (Spec.wp_store steady_stands hs fun t ht => h (g t) ?_)
  obtain ⟨h₁, h₂, h₃⟩ := hg t
  exact ⟨h₁.trans (congrArg u ht.stored), h₂ ▸ ht.settings, h₃.trans ht.initted⟩

variable {e : State}

theorem wifiSetRadio_stored {what : Int} {value : UInt32} (hs : Stands v v true s)
    (he : e.initted = true ∧ e.lib.settings = v) (hl : l.asked = []) :
    (storedSpec b).wp κ l (wifiSetRadio what value) s fun l' _ t => Closes e l' t := by
  refine Spec.wp_bind.mpr (Spec.wp_load steady_stands hs fun t ht => ?_)
  refine Spec.wp_bind.mpr (Spec.wp_load steady_stands ht fun t ht => ?_)
  refine Spec.wp_ite (fun _ => ?_) fun _ => Spec.wp_ite (fun _ => ?_) fun _ =>
    Spec.wp_ite (fun _ => ?_) fun _ => Spec.wp_ite (fun _ => ?_) fun _ =>
    Spec.wp_ite (fun _ => ?_) fun _ => Spec.wp_ite (fun _ => ?_) fun _ =>
    Spec.wp_ite (fun _ => ?_) fun _ => Spec.wp_ite (fun _ => ?_) fun _ => ht.closes he hl
  · exact store_stored (u := fun v => { v with ampdu := value != 0 }) ht (fun _ => ⟨rfl, rfl, rfl⟩)
      fun t ht => pushIf_stored rfl rfl he hl ht
  · exact store_stored (u := fun v => { v with sgi := value != 0 }) ht (fun _ => ⟨rfl, rfl, rfl⟩)
      fun t ht => pushIf_stored rfl rfl he hl ht
  · exact store_stored (u := fun v => { v with subbands := value != 0 }) ht
      (fun _ => ⟨rfl, rfl, rfl⟩) fun t ht => pushIf_stored rfl rfl he hl ht
  · exact store_stored (u := fun v => { v with rts := value }) ht (fun _ => ⟨rfl, rfl, rfl⟩)
      fun t ht => pushBooted_stored rfl rfl he hl ht
  · exact store_stored (u := fun v => { v with fragment := value }) ht (fun _ => ⟨rfl, rfl, rfl⟩)
      fun t ht => pushBooted_stored rfl rfl he hl ht
  · exact store_stored (u := fun v => { v with listen := value.toUInt16 }) ht
      (fun _ => ⟨rfl, rfl, rfl⟩) fun t ht => pushIf_stored rfl rfl he hl ht
  -- `MM_HALOW_RADIO_WNM_PD`, which is stored and never handed over
  · exact store_stored (u := id) ht (fun _ => ⟨rfl, rfl, rfl⟩) fun t ht => ht.closes he hl
  · exact store_stored (u := fun v => { v with txpower := value.toUInt16 }) ht
      (fun _ => ⟨rfl, rfl, rfl⟩) fun t ht => pushBooted_stored rfl rfl he hl ht

theorem wifiPm_stored {mode : UInt32} (hs : Stands v v true s)
    (he : e.initted = true ∧ e.lib.settings = v) (hl : l.asked = []) :
    (storedSpec b).wp κ l (wifiPm b mode) s fun l' _ t => Closes e l' t := by
  refine Spec.wp_bind.mpr (Spec.wp_load steady_stands hs fun t ht => ?_)
  split
  case isTrue => exact ht.closes he hl
  refine Spec.wp_bind.mpr (Spec.wp_load steady_stands ht fun t ht => ?_)
  refine store_stored (u := fun v => { v with psEnabled := mode != pmNone }) ht
    (fun _ => ⟨rfl, rfl, rfl⟩) fun t ht => ?_
  refine Spec.wp_bind.mpr (Spec.wp_load steady_stands ht fun t ht => ?_)
  split
  case isFalse => exact ht.closes he hl
  refine Spec.wp_seq (applyPm_stored ht) fun l' r t ht => ?_
  obtain ⟨rfl, -, ht⟩ := ht
  rw [if_neg (not_not.mpr rfl)]
  exact .inr (ht.matches fun _ => rfl)

theorem wifiSetPsTimeout_stored {ms : UInt32} (hs : Stands v v true s)
    (he : e.initted = true ∧ e.lib.settings = v) (hl : l.asked = []) :
    (storedSpec b).wp κ l (wifiSetPsTimeout ms) s fun l' _ t => Closes e l' t := by
  unfold wifiSetPsTimeout
  split
  case isTrue => exact hs.closes he hl
  refine Spec.wp_bind.mpr (Spec.wp_load steady_stands hs fun t ht => ?_)
  split
  case isFalse =>
    exact store_stored (u := fun v => { v with psTimeout := ms }) ht (fun _ => ⟨rfl, rfl, rfl⟩)
      fun t ht => ht.closes he hl
  -- here the setting is stored after it has been handed over
  refine Spec.wp_seq (mmwlan_sets rfl ht) fun l' st t ht => ?_
  obtain ⟨rfl, ht, -⟩ := ht
  rw [if_neg (not_not.mpr rfl)]
  exact store_stored (u := fun v => { v with psTimeout := ms }) ht (fun _ => ⟨rfl, rfl, rfl⟩)
    fun t ht => .inr (ht.matches fun _ => rfl)

theorem wifiSetHealthCheck_stored {min max : UInt32} (hs : Stands v v true s)
    (he : e.initted = true ∧ e.lib.settings = v) (hl : l.asked = []) :
    (storedSpec b).wp κ l (wifiSetHealthCheck min max) s fun l' _ t => Closes e l' t := by
  unfold wifiSetHealthCheck
  split
  case isTrue => exact hs.closes he hl
  refine store_stored (u := fun v => { v with healthMin := min }) hs (fun _ => ⟨rfl, rfl, rfl⟩)
    fun t ht => ?_
  exact store_stored (u := fun v => { v with healthMax := max }) ht (fun _ => ⟨rfl, rfl, rfl⟩)
    fun t ht => pushBooted_stored rfl rfl he hl ht

theorem wifiSetDutyCycle_stored {mode : Int} (hs : Stands v v true s)
    (he : e.initted = true ∧ e.lib.settings = v) (hl : l.asked = []) :
    (storedSpec b).wp κ l (wifiSetDutyCycle mode) s fun l' _ t => Closes e l' t := by
  refine store_stored (u := fun v => { v with dutyCycle := UInt8.ofInt mode }) hs
    (fun _ => ⟨rfl, rfl, rfl⟩) fun t ht => ?_
  refine Spec.wp_bind.mpr (Spec.wp_load steady_stands ht fun t ht => ?_)
  split
  case isTrue => exact ht.closes he hl
  split
  case isTrue => exact ht.closes he hl
  exact push_stored (f := .setDutyCycleMode (UInt8.ofInt mode)) rfl rfl ht

/-! ## Bringing up and releasing -/

/-- `mm_halow_deinit` leaves the driver uninitialised, or as it was. -/
theorem deinitDriver_stored (hs : Stands v w i s) (hi : i = true → w = v) :
    (storedSpec b).wp κ l (deinitDriver b) s fun _ _ t => Matches t := by
  have hany : ∀ q, (storedSpec b).Unmoved κ.call (fun _ => True) q := fun q =>
    ⟨fun _ _ _ => trivial, fun _ _ => trivial, fun _ _ _ => trivial, fun _ _ _ h => nomatch h⟩
  refine Spec.wp_bind.mpr (Spec.wp_load steady_stands hs fun t ht => ?_)
  split
  case isTrue => exact ht.matches hi
  refine Spec.wp_bind.mpr (Spec.wp_load steady_stands ht fun t ht => ?_)
  split
  case isTrue => exact ht.matches hi
  have hskip : ∀ {α β : Type} {p : Halow α} {g : α → Halow β} {R : β → State → Prop},
      (∀ a, (storedSpec b).Triple κ.call (fun _ => True) (g a) R) →
      (storedSpec b).Triple κ.call (fun _ => True) (p >>= g) R := fun h =>
    .seq (Spec.Triple.anything hany) h
  have hdown : (storedSpec b).Triple κ.call (fun _ => True) deinitRest fun _ s => s.initted = false := by
    have htrue : (storedSpec b).Steady fun _ => True := fun _ _ _ _ h => h
    unfold deinitRest
    iterate 14 refine hskip fun _ => ?_
    refine .seq (M := fun _ s => s.initted = false) ?_ fun _ => .store steady_initted_is fun _ h => h
    exact fun _ _ _ _ hs => Spec.wp_store htrue hs fun _ _ => rfl
  refine (hskip fun _ => hskip fun _ => .seq hdown fun _ => .pure fun _ ht hi => ?_) κ _ t rfl trivial
  exact absurd (ht.symm.trans hi) Bool.false_ne_true

/-- `mm_halow_init`, unless the driver is initialised. -/
theorem ensureInit_stored (hs : Stands v w i s) (hi : i = true → w = v) :
    (storedSpec b).wp κ l (ensureInit b) s fun _ r t =>
      Stands v v true t ∨ t.initted = false ∧ r ≠ .ok := by
  refine Spec.wp_bind.mpr (Spec.wp_load steady_stands hs fun t ht => ?_)
  cases i with
  | true =>
    obtain rfl := hi rfl
    rw [if_neg (by rw [ht.initted]; exact Bool.false_ne_true)]
    exact .inl ht
  | false =>
    rw [if_pos (by rw [ht.initted]; rfl)]
    exact initDriver_stored ht

theorem matches_of_init {r : Ret} (h : Stands v v true s ∨ s.initted = false ∧ r ≠ .ok) : Matches s := by
  obtain h | h := h
  · exact h.matches fun _ => rfl
  · exact fun hi => absurd (h.1.symm.trans hi) Bool.false_ne_true

/-- **Bringing an interface up** ends with morselib having what is stored; where it has booted the
transceiver, the driver is initialised. -/
theorem setUpItf_up_stored {itf : Itf} {country : List UInt8} (hs : Stands v w i s) (hi : i = true → w = v)
    (hl : l.asked = []) :
    (storedSpec b).wp κ l (setUpItf b itf true country) s fun l' r t =>
      Matches t ∧ (r = .ok → .mmwlan .boot ∈ l'.asked → t.initted = true) := by
  unfold setUpItf
  rw [if_pos rfl]
  refine Spec.wp_bind.mpr (Spec.wp_load steady_stands hs fun t ht => ?_)
  split
  case isTrue =>
    refine ⟨ht.matches hi, fun _ hboot => ?_⟩
    rw [hl] at hboot
    exact absurd hboot List.not_mem_nil
  refine Spec.wp_seq (ensureInit_stored ht hi) fun l' r t ht => ?_
  split
  case isTrue hr => exact ⟨matches_of_init ht, fun h => absurd h hr⟩
  case isFalse hr =>
    have ht : Stands v v true t := ht.resolve_right fun h => hr h.2
    have hend : ∀ {l' : Log Ask Ask.Ans} {r : Ret} {t : State}, Stands v v true t → Matches t ∧
        (r = .ok → .mmwlan .boot ∈ l'.asked → t.initted = true) := fun ht =>
      ⟨ht.matches fun _ => rfl, fun _ _ => ht.initted⟩
    refine wp_aside aside_setCountry ht fun l' r t ht => ?_
    split
    · exact hend ht
    · exact Spec.wp_mono (aside_bringUp.triple κ _ _ rfl ht) fun _ _ _ h => hend h

theorem setUpItf_down_stored {itf : Itf} {country : List UInt8} (hs : Stands v w i s)
    (hi : i = true → w = v) :
    (storedSpec b).wp κ l (setUpItf b itf false country) s fun _ _ t => Matches t := by
  rw [setUpItf_false]
  refine Spec.wp_bind.mpr (Spec.wp_load steady_stands hs fun t ht => ?_)
  split
  · exact ht.matches hi
  · exact Spec.wp_mono (aside_takeDown.triple κ _ _ rfl ht) fun _ _ _ h => h.matches hi

/-! ## Every call -/

/-- Only bringing up and releasing changes whether the driver is initialised. -/
theorem body_initted (hc : c.moves = false) :
    (storedSpec b).Triple c (fun s => s.initted = i) (c.body b) fun _ s => s.initted = i := by
  have hinner : Inner fun s => s.initted = i := fun _ _ _ h => h
  refine .ofWithin ((within_apart hc).mono (fun f hf s hs => (hf s).initted.trans hs) fun q _ => ?_)
    steady_initted_is steady_initted_is.patient
  exact ⟨fun _ _ _ => trivial, fun _ h => hinner.enter (c := c) q h, fun a _ h => hinner.leave (c := c) q a h,
    fun _ _ _ h => nomatch h⟩

/-- What is shown of the calls that are no bring-up. -/
theorem closes_body (hc : c.isSetUp = false) (he : Matches e) (hκ : κ.call = c)
    (hs : Stands e.stored e.lib.settings e.initted s) (hl : l.asked = []) :
    (storedSpec b).wp κ l (c.body b) s fun l' _ t => Closes e l' t := by
  have hi : e.initted = true → e.lib.settings = e.stored := he
  -- where the driver is not initialised, there is nothing to show of a call that leaves it so
  have hoff : e.initted = false → c.moves = false →
      (storedSpec b).wp κ l (c.body b) s fun l' _ t => Closes e l' t := fun h hm =>
    Spec.wp_mono (body_initted hm κ l s hκ (hs.initted.trans h)) fun _ _ _ ht =>
      .inr fun hi => absurd (ht.symm.trans hi) Bool.false_ne_true
  by_cases ha : c.aside = true
  · exact Spec.wp_mono ((aside_body ha).triple κ l s hκ hs) fun _ _ _ h => .inr (h.matches hi)
  by_cases hon : e.initted = true
  · have hv := hi hon
    rw [hon, hv] at hs
    cases c with
    | init =>
      refine Spec.wp_bind.mpr (Spec.wp_load steady_stands hs fun t ht => ?_)
      rw [if_pos ht.initted]
      exact .inr (ht.matches fun _ => rfl)
    | deinit =>
      exact Spec.wp_mono (deinitDriver_stored hs fun _ => rfl) fun _ _ _ h => .inr h
    | pm mode => exact wifiPm_stored hs ⟨hon, hv⟩ hl
    | setRadio what value => exact wifiSetRadio_stored hs ⟨hon, hv⟩ hl
    | setPsTimeout ms => exact wifiSetPsTimeout_stored hs ⟨hon, hv⟩ hl
    | setHealthCheck min max => exact wifiSetHealthCheck_stored hs ⟨hon, hv⟩ hl
    | setDutyCycle mode => exact wifiSetDutyCycle_stored hs ⟨hon, hv⟩ hl
    | setUp itf up country => exact nomatch hc
    | _ => exact absurd rfl ha
  · have hon := (Bool.not_eq_true _).mp hon
    cases c with
    | init =>
      rw [hon] at hs
      exact Spec.wp_mono (initDriver_stored hs) fun _ _ _ h => .inr (matches_of_init h)
    | deinit => exact Spec.wp_mono (deinitDriver_stored hs hi) fun _ _ _ h => .inr h
    | setUp itf up country => exact nomatch hc
    | pm mode => exact hoff hon rfl
    | setRadio what value => exact hoff hon rfl
    | setPsTimeout ms => exact hoff hon rfl
    | setHealthCheck min max => exact hoff hon rfl
    | setDutyCycle mode => exact hoff hon rfl
    | _ => exact absurd rfl ha

/-- What is shown of a bring-up. -/
theorem closes_wifiSetUp {n : Int} {up : Bool} {country : List UInt8} (he : Matches e)
    (hs : Stands e.stored e.lib.settings e.initted s) (hl : l.asked = []) :
    (storedSpec b).wp κ l (wifiSetUp b n up country) s fun l' r t => Closes e l' t ∧
      (up = true → r = .ok → .mmwlan .boot ∈ l'.asked → t.initted = true) := by
  unfold wifiSetUp
  split
  · exact ⟨.inr (hs.matches he), fun _ h => nomatch h⟩
  · cases up with
    | true =>
      exact Spec.wp_mono (setUpItf_up_stored hs he hl) fun _ _ _ h => ⟨.inr h.1, fun _ => h.2⟩
    | false => exact Spec.wp_mono (setUpItf_down_stored hs he) fun _ _ _ h => ⟨.inr h, nofun⟩

theorem steady_closes : (storedSpec b).Steady (Closes e l) := by
  intro is s k _ h
  have hstill : Still (Closes e l) := fun s => Iff.rfl
  exact hstill.callback h

/-- **Every call meets the specification.** -/
theorem stored_sound (b : Build) : (storedSpec b).Sound := by
  refine Spec.oneAtATime_sound (fun _ _ h _ => h) fun c s _ _ => ?_
  have hs : Stands (atDepth 1 s).stored (atDepth 1 s).lib.settings (atDepth 1 s).initted (atDepth 1 s) :=
    ⟨rfl, rfl, rfl⟩
  by_cases he : Matches (atDepth 1 s)
  · by_cases hc : c.isSetUp = true
    · cases c with
      | setUp n up country =>
        refine Spec.wp_mono (closes_wifiSetUp (κ := ⟨.setUp n up country, atDepth 1 s, []⟩) he hs rfl)
          fun l r t ht u hu => ⟨fun _ => ⟨steady_closes.calm hu ht.1, fun itf country' h hr hboot => ?_⟩,
            trivial⟩
        have hup : up = true := (Call.setUp.inj h).2.1
        exact (steady_initted_is (i := true)).calm hu (ht.2 hup hr hboot)
      | _ => exact nomatch hc
    · have hc := (Bool.not_eq_true _).mp hc
      refine Spec.wp_mono (closes_body (κ := ⟨c, atDepth 1 s, []⟩) hc he rfl hs rfl)
        fun l r t ht u hu => ⟨fun _ => ⟨steady_closes.calm hu ht, fun itf country h => ?_⟩, trivial⟩
      have h : c = .setUp itf true country := h
      subst h
      exact nomatch hc
  · have hany : ∀ q, (storedSpec b).Unmoved c (fun _ => True) q := fun q =>
      ⟨fun _ _ _ => trivial, fun _ _ => trivial, fun _ _ _ => trivial, fun _ _ _ h => nomatch h⟩
    exact Spec.wp_mono (Spec.Triple.anything (P := fun _ => True) hany ⟨c, atDepth 1 s, []⟩ _ _ rfl trivial)
      fun _ _ _ _ _ _ => ⟨fun h => absurd h he, trivial⟩

/-! ## Every run -/

variable {n : Lwip} {tr : List Happening} {x y : Site}

/-- What a call ends with is what is stored, where it has handed over what it has stored. -/
theorem Closes.matches (he : Matches e) (h : Closes e l s)
    (hok : s.initted = true → l.asked = [] → s.stored = e.stored) : Matches s := by
  obtain ⟨hasked, hinit, hset⟩ | h := h
  · exact fun hi => hset.trans ((he (hinit ▸ hi)).trans (hok hi hasked).symm)
  · exact h

/-- **Between the calls morselib has what is stored**, once the driver is initialised. -/
theorem matches_run (h0 : Matches s) (hr : Run (storedSpec b).Step ⟨s, []⟩ tr x) :
    (x.stack = [] → Matches x.st) ∧ ∀ i ∈ x.infos, Matches i.entry := by
  refine hr.inv_trace (I := fun _ x => (x.stack = [] → Matches x.st) ∧ ∀ i ∈ x.infos, Matches i.entry)
    ⟨fun _ => h0, fun i hi => absurd hi List.not_mem_nil⟩ ?_
  intro tr x e y hr ih hstep
  have hpost := fun c r => (stored_sound b).post (c := c) (r := r) (y := y) trivial hr
  obtain ⟨hs, hok⟩ := hstep
  cases hs with
  | call h =>
    obtain rfl := World.stack_of_mayCall h
    refine ⟨nofun, fun i hi => ?_⟩
    obtain rfl := List.mem_singleton.mp hi
    exact ih.1 rfl
  | act => exact ⟨nofun, ih.2⟩
  | @ask s as i q k =>
    refine ⟨nofun, fun j hj => ?_⟩
    obtain rfl | hj := List.mem_cons.mp hj
    · exact ih.2 i List.mem_cons_self
    · exact ih.2 j (List.mem_cons_of_mem _ hj)
  | @answer s as i q k a =>
    refine ⟨nofun, fun j hj => ?_⟩
    obtain rfl | hj := List.mem_cons.mp hj
    · exact ih.2 i List.mem_cons_self
    · exact ih.2 j (List.mem_cons_of_mem _ hj)
  | cb => exact ⟨fun h => steady_matches _ _ _ hok (ih.1 h), ih.2⟩
  | @ret s as i r =>
    refine ⟨fun _ => ?_, fun i hi => ih.2 i (List.mem_cons_of_mem _ hi)⟩
    obtain ⟨i', is, hi, -, hreturns⟩ := hpost i.call r ⟨.ret, hok⟩
    obtain ⟨rfl, rfl⟩ := List.cons.inj hi
    have he := ih.2 i List.mem_cons_self
    exact (hreturns he).1.matches he fun hi => hok.2 hi i rfl

/-- **The stored settings reach the transceiver**: in runs in which what `mm_halow_init` leaves out is
morselib's default and what is stored in an initialised driver is handed over, morselib has every stored
setting when a bring-up that has booted the transceiver returns. -/
theorem settings_reach (b : Build) (lwip : Lwip) (tr : List Happening) (x y : Site) (itf : Int)
    (country : List UInt8)
    (hr : Run (fun x e y => (oneAtATime b).Step x e y ∧ Accepts e ∧ HandedOver b x.infos x.st e)
      (start b lwip) tr x)
    (hy : (oneAtATime b).Step x (.ret (.setUp itf true country) .ok) y)
    (hboot : ∀ i ∈ x.infos.head?, .mmwlan .boot ∈ i.log.asked) :
    y.st.lib.settings = y.st.stored := by
  have hr' : Run (storedSpec b).Step (start b lwip) tr x := hr
  have h0 : Matches (State.init b lwip) := nofun
  have hasked : ∀ i ∈ x.infos.head?, ¬ i.log.asked = [] := fun i hi =>
    List.ne_nil_of_mem (hboot i hi)
  obtain ⟨i, is, hi, hc, hreturns⟩ := (stored_sound b).post trivial hr'
    ⟨hy, trivial, fun _ i hi h => absurd h (hasked i hi)⟩
  have hhead : i ∈ x.infos.head? := by
    rw [hi]
    exact rfl
  have he : Matches i.entry := (matches_run h0 hr').2 i (hi ▸ List.mem_cons_self)
  obtain ⟨hcloses, hup⟩ := hreturns he
  have hinit := hup itf country hc rfl (hboot i hhead)
  have hx : x.st.lib.settings = x.st.stored :=
    hcloses.matches he (fun _ h => absurd h (hasked i hhead)) hinit
  generalize hev : Event.ret (Call.setUp itf true country) Ret.ok = ev at hy
  cases hy with
  | ret => exact hx
  | _ => exact nomatch hev

/-! ## Two runs -/

/-- morselib's defaults are the values the driver starts with. -/
def Build.mirrored : Build :=
  { Build.small false with defaults := ⟨true, 100, true, true, true, 0, 0, 0, 0, 0, 0, 0⟩ }

/-- `Accepts`, to evaluate, and that a bring-up that returns has booted the transceiver. -/
def acceptStep (is : List Doing) : Happening → Bool
  | .answer (.mmwlan _) (st : Status) => st == Status.success
  | .ret (.setUp _ _ _) _ => is.head?.all fun i => i.log.asked.contains (.mmwlan .boot)
  | _ => true

theorem of_acceptStep {is : List Doing} {h : Happening} (hs : acceptStep is h = true) : Accepts h := by
  unfold Accepts
  split
  · exact fun _ => (beq_iff_eq (α := Status)).mp hs
  · trivial

/-- `HandedOver`, to evaluate. -/
def handStep (b : Build) (is : List Doing) (s : State) : Happening → Bool
  | .ask (.mmwlan .init) => b.defaults.applied s.stored == s.stored
  | .ret _ _ =>
    !s.initted || is.head?.all fun i => !i.log.asked.isEmpty || s.stored == i.entry.stored
  | _ => true

theorem of_handStep {is : List Doing} {h : Happening} (hs : handStep b is s h = true) :
    HandedOver b is s h := by
  unfold HandedOver
  split
  · exact beq_iff_eq.mp hs
  · intro hi d hd hasked
    have hall : (!s.initted ||
        is.head?.all fun i => !i.log.asked.isEmpty || s.stored == i.entry.stored) = true :=
      hs
    rw [hi, Option.mem_def.mp hd, Option.all_some, hasked] at hall
    exact beq_iff_eq.mp hall
  · trivial

/-- A run ends with the bring-up of the station. -/
def endsUp (tr : List Happening) : Bool :=
  match tr.getLast? with
  | some (.ret c r) => c == .setUp 0 true us && r == .ok
  | _ => false

theorem of_endsUp {tr : List Happening} (h : endsUp tr = true) :
    tr.getLast? = some (.ret (.setUp 0 true us) .ok) := by
  unfold endsUp at h
  split at h
  case h_1 c r hlast =>
    obtain ⟨hc, hr⟩ := Bool.and_eq_true_iff.mp h
    rw [hlast, beq_iff_eq.mp hc, beq_iff_eq.mp hr]
  case h_2 => exact absurd h Bool.false_ne_true

/-- What a bring-up returns with, in a run of steps that are evaluated. -/
theorem booted_of_acceptStep {itf : Int} {country : List UInt8} {is : List Doing} {r : Ret}
    (h : acceptStep is (.ret (.setUp itf true country) r) = true) :
    ∀ i ∈ is.head?, .mmwlan .boot ∈ i.log.asked := fun i hi =>
  List.contains_iff_mem.mp ((Option.all_eq_true _ _).mp h i hi)

/-- A threshold is set before the station comes up. -/
def configured : Cues :=
  .call (.setRadio 3 500) :: .call (.setUp 0 true us) ::
    granted (initAsks.take 8 ++ [.mmwlan (.setRtsThreshold 500)] ++ initAsks.drop 8 ++ bootAsks ++
      [.netifAdd .sta])

/-- The threshold reaches morselib. -/
theorem settings_reach_station : ∃ tr x y,
    Run (oneAtATime .mirrored).Step (start .mirrored noNetifs) tr x ∧
      (oneAtATime .mirrored).Step x (.ret (.setUp 0 true us) .ok) y ∧ y.st.stored.rts = 500 ∧
      y.st.lib.settings = y.st.stored := by
  obtain ⟨tr, y, hr, hy⟩ := World.run_of_play_any (oneAtATime .mirrored)
    (fun is s e => acceptStep is e && handStep .mirrored is s e) (start .mirrored noNetifs) configured
    (fun r => endsUp r.1 && r.2.st.stored.rts == 500) rfl
  obtain ⟨hlast, hrts⟩ := Bool.and_eq_true_iff.mp hy
  obtain ⟨tr', x, hx, hstep, hok⟩ := hr.unsnoc (of_endsUp hlast)
  refine ⟨tr', x, y, hx.mono fun _ _ _ h => h.1, hstep, beq_iff_eq.mp hrts, ?_⟩
  refine settings_reach .mirrored noNetifs tr' x y 0 us (hx.mono fun _ _ _ h => ⟨h.1, ?_, ?_⟩) hstep
    (booted_of_acceptStep (Bool.and_eq_true_iff.mp hok).1)
  · exact of_acceptStep (Bool.and_eq_true_iff.mp h.2).1
  · exact of_handStep (Bool.and_eq_true_iff.mp h.2).2

/-- **The transmit power set before the station comes up does not reach morselib.** -/
theorem txpower_forgotten : ¬ ∀ (b : Build) (lwip : Lwip) (tr : List Happening) (x y : Site) (itf : Int)
    (country : List UInt8), Run (fun x e y => (oneAtATime b).Step x e y ∧ Accepts e) (start b lwip) tr x →
    (oneAtATime b).Step x (.ret (.setUp itf true country) .ok) y →
    (∀ i ∈ x.infos.head?, .mmwlan .boot ∈ i.log.asked) → y.st.lib.settings = y.st.stored := by
  intro h
  obtain ⟨tr, y, hr, hy⟩ := World.run_of_play_any (oneAtATime .mirrored) (fun is _ e => acceptStep is e)
    (start .mirrored noNetifs) (.call (.setRadio 7 20) :: stationUp)
    (fun r => endsUp r.1 && r.2.st.stored.txpower != r.2.st.lib.settings.txpower) rfl
  obtain ⟨hlast, htx⟩ := Bool.and_eq_true_iff.mp hy
  obtain ⟨tr', x, hx, hstep, hok⟩ := hr.unsnoc (of_endsUp hlast)
  have hset := h .mirrored noNetifs tr' x y 0 us (hx.mono fun _ _ _ h => ⟨h.1, of_acceptStep h.2⟩) hstep
    (booted_of_acceptStep hok)
  exact bne_iff_ne.mp htx (congrArg Settings.txpower hset.symm)

end MmHalow.Ctrl
