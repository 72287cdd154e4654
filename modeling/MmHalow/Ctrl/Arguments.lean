import MmHalow.Ctrl.Running

/-!
# What morselib is asked for

The arguments of morselib's functions come from callers, who may pass anything, and from what earlier
calls have stored. Each public call checks its own, and what is stored was checked then. Here calls
are made in any order, host callbacks make them while others wait, morselib answers as it likes and
its callbacks cut in between any two steps.

* `WellFormed`: what the driver sees to for each function.
* `Sane`: what it sees to of what it stores, which every call keeps wherever it is made.
* `requests_well_formed`: **whatever is asked of morselib, in any run, is well formed.**
-/

namespace MmHalow.Ctrl

open MmHalow.Lib

variable {b : Build} {c : Call} {s t : State} {known : Bool} {is : List Doing}

/-! ## What is well formed -/

/-- The list of a regulatory domain. -/
def Regulatory (b : Build) (l : ChannelList) : Prop := ∃ country, b.lookup country = some l

/-- The arguments of `mmwlan_sta_enable`. -/
structure StaArgs.Ok (b : Build) (args : StaArgs) : Prop where
  ssid : args.ssid ≠ []
  ssid_le : args.ssid.length ≤ b.ssidMaxlen
  key_le : args.key.length ≤ b.passphraseMaxlen
  sae : args.auth = secSae → args.key ≠ []

/-- The channel is the one of the list that is asked for, or a widest where none is. -/
structure Chosen (chanNum : UInt8) (l : ChannelList) (ch : Channel) : Prop where
  mem : ch ∈ l
  number : chanNum ≠ 0 → ch.s1gChanNum = chanNum
  widest : chanNum = 0 → ∀ ch' ∈ l, ch'.bwMhz ≤ ch.bwMhz

/-- The channel of the access point is of the regulatory domain, or the station's where there is one. -/
def ChannelOk (b : Build) (s : State) : Option (Int × UInt8) → Prop
  | none => s.itfState .sta = true
  | some x => s.itfState .sta = false ∧ ∃ l ch, s.channels = some l ∧ Regulatory b l ∧
      Chosen s.apChanNum l ch ∧ ch.args b = x

/-- The arguments of `mmwlan_ap_enable` where `s` is stored: an access point does not save power. -/
structure ApArgs.Ok (b : Build) (s : State) (args : ApArgs) : Prop where
  ssid : args.ssid ≠ []
  ssid_le : args.ssid.length ≤ b.ssidMaxlen
  key_le : args.key.length ≤ b.passphraseMaxlen
  sae : args.auth = secSae ↔ args.key ≠ []
  pm : s.pm = pmNone
  channel : ChannelOk b s args.channel

/-- **What is well formed** where `s` is stored. -/
def WellFormed (b : Build) (s : State) : Ask → Prop
  | .mmwlan f => match f with
    | .staEnable args => args.Ok b
    | .apEnable args => args.Ok b s
    | .setChannelList l => s.channels = some l ∧ ∃ country, b.lookup country = some l ∧
        s.country = letters country
    | .boot => ∃ l, s.channels = some l ∧ Regulatory b l
    | .setDynamicPsTimeout ms => ms ≠ 0
    | .setHealthCheckInterval min max => max ≠ 0 → min ≤ max
    | .setDutyCycleMode mode => mode = 0 ∨ mode = 1
    | .twtAddConfiguration interval duration setup => interval ≠ 0 ∧ duration ≠ 0 ∧
        duration.toUInt64 ≤ interval ∧ 0 ≤ setup ∧ setup ≤ 2
    | .setWnmSleepEnabled enable _ => enable = true → s.pm ≠ pmNone
    | .ateOverrideRateControl mcs bw gi => b.fixedRateOk mcs bw gi = true
    | _ => True
  | _ => True

/-- The functions whose arguments are not looked at. -/
def Mmwlan.free : Mmwlan → Bool
  | staEnable _ | apEnable _ | setChannelList _ | boot | setDynamicPsTimeout _
  | setHealthCheckInterval _ _ | setDutyCycleMode _ | twtAddConfiguration _ _ _
  | setWnmSleepEnabled _ _ | ateOverrideRateControl _ _ _ => false
  | _ => true

/-- A question about which nothing is to be shown. -/
def FreeAsk : Ask → Prop
  | .mmwlan f => f.free = true
  | _ => True

theorem FreeAsk.wellFormed {q : Ask} (h : FreeAsk q) : WellFormed b s q := by
  cases q with
  | mmwlan f => cases f <;> trivial
  | _ => trivial

/-! ## What is stored -/

/-- **What the driver sees to of what it stores**; `known` says that a channel list is recorded. -/
structure Sane (b : Build) (known : Bool) (s : State) : Prop where
  apSsid : s.apSsid.length ≤ b.ssidMaxlen
  apKey : s.apKey.length ≤ b.passphraseMaxlen
  psTimeout : s.psTimeoutMs ≠ 0
  health : s.healthMaxMs ≠ 0 → s.healthMinMs ≤ s.healthMaxMs
  channels : ∀ l, s.channels = some l → Regulatory b l
  known : known = true → s.channels.isSome = true

theorem Sane.forget (h : Sane b known s) : Sane b false s :=
  { h with known := fun hk => absurd hk Bool.false_ne_true }

/-- What was recorded stays recorded. -/
theorem Sane.during (h : Sane b s.channels.isSome t) (hs : Sane b known s) : Sane b known t :=
  { h with known := fun hk => h.known (hs.known hk) }

/-- The specification. -/
def argumentsSpec (b : Build) : Spec (world b) where
  ok _ _ _ := True
  during _ s t := ∀ known, Sane b known s → Sane b known t
  entry _ s := Sane b false s
  guard _ q s := WellFormed b s q
  post _ _ _ := True
  idle := Sane b false

/-- Nothing of it is changed. -/
structure Leaves (s t : State) : Prop where
  apSsid : t.apSsid = s.apSsid
  apKey : t.apKey = s.apKey
  psTimeout : t.psTimeoutMs = s.psTimeoutMs
  healthMin : t.healthMinMs = s.healthMinMs
  healthMax : t.healthMaxMs = s.healthMaxMs
  channels : t.channels = s.channels

theorem Sane.leaves (hs : Sane b known s) (h : Leaves s t) : Sane b known t where
  apSsid := h.apSsid ▸ hs.apSsid
  apKey := h.apKey ▸ hs.apKey
  psTimeout := h.psTimeout ▸ hs.psTimeout
  health := h.healthMin ▸ h.healthMax ▸ hs.health
  channels := h.channels ▸ hs.channels
  known hk := h.channels ▸ hs.known hk

theorem still_sane : Still (Sane b known) := fun _ =>
  ⟨fun h => h.leaves ⟨rfl, rfl, rfl, rfl, rfl, rfl⟩, fun h => h.leaves ⟨rfl, rfl, rfl, rfl, rfl, rfl⟩⟩

theorem steady_of_still {P : State → Prop} (h : Still P) : (argumentsSpec b).Steady P :=
  fun _ _ _ _ hs => h.callback hs

theorem patient_sane : (argumentsSpec b).Patient (Sane b known) := fun _ _ _ h => h known

theorem inner_sane : Inner (Sane b known) := fun _ _ _ h => h.leaves ⟨rfl, rfl, rfl, rfl, rfl, rfl⟩

/-! ## Rules -/

/-- Code of a call of `c` keeps what is stored sane and asks for what is well formed. -/
abbrev KeepsSane (b : Build) (c : Call) (known : Bool) {α : Type} (p : Halow α) : Prop :=
  (argumentsSpec b).Triple c (Sane b known) p fun _ => Sane b known

/-- Code that leaves it all alone and asks freely. -/
abbrev Harmless {α : Type} (p : Halow α) : Prop :=
  p.Within (fun f => ∀ s, Leaves s (f s)) FreeAsk

theorem Harmless.sane {α : Type} {p : Halow α} (h : Harmless p) : KeepsSane b c known p := by
  refine Spec.Triple.ofWithin (h.mono (fun f hf s hs => hs.leaves (hf s)) fun q hq => ?_)
    (steady_of_still still_sane) patient_sane
  exact ⟨fun _ _ _ => hq.wellFormed, fun _ => inner_sane.enter (c := c) q,
    fun a _ => inner_sane.leave q a, fun _ _ hs _ => hs.forget⟩

variable {P : State → Prop}

/-- **A question that is well formed where it is asked.** -/
theorem request_sane {q : Ask} (hP : Still P) (hq : ∀ s, Sane b known s → P s → WellFormed b s q) :
    (argumentsSpec b).Triple c (fun s => Sane b known s ∧ P s) (.request q) fun _ => Sane b known :=
  .request (D := Sane b known) (steady_of_still (still_sane.and hP)) patient_sane
    (fun _ s hs => hq s hs.1 hs.2) (fun _ hs => inner_sane.enter (c := c) q hs.1)
    (fun _ _ hs _ => hs.forget) fun _ a _ hs _ _ => inner_sane.leave q a hs

/-- An assignment that stores none of it. -/
theorem store_sane {f : State → State} (h : ∀ s, Leaves s (f s)) : KeepsSane b c known (store f) :=
  .store (steady_of_still still_sane) fun s hs => hs.leaves (h s)

/-- A value that is read, and what is known of it. -/
theorem load_sane {α : Type} {g : State → α} {P' : α → State → Prop} (hP : Still P)
    (h : ∀ s, Sane b known s → P s → P' (g s) s) :
    (argumentsSpec b).Triple c (fun s => Sane b known s ∧ P s) (load g) fun a s =>
      Sane b known s ∧ P' a s :=
  .load (steady_of_still (still_sane.and hP)) fun s hs => ⟨hs.1, h s hs.1 hs.2⟩

/-! ## The calls that ask freely -/

theorem harmless_load {α : Type} (g : State → α) : Harmless (load g) :=
  Proc.within_load.mpr fun _ => ⟨rfl, rfl, rfl, rfl, rfl, rfl⟩

theorem harmless_store {f : State → State} (h : ∀ s, Leaves s (f s)) : Harmless (store f) :=
  Proc.within_store.mpr h

theorem harmless_request {q : Ask} (h : FreeAsk q) : Harmless (Proc.request q) :=
  Proc.within_request.mpr h

theorem harmless_mmwlan {f : Mmwlan} (h : f.free = true) : Harmless (mmwlan f) := harmless_request h

theorem harmless_tell {f : Mmwlan} (h : f.free = true) : Harmless (tell f) :=
  .bind (harmless_request h) fun _ => trivial

theorem harmless_onlyIf {g : Bool} {p : Halow Unit} (h : Harmless p) : Harmless (onlyIf g p) :=
  .ite h trivial

theorem harmless_osalInit : Harmless osalInit :=
  .bind (harmless_load _) fun _ => .ite trivial (.bind (harmless_request trivial) fun _ =>
    .bind (harmless_store fun _ => ⟨rfl, rfl, rfl, rfl, rfl, rfl⟩) fun _ => trivial)

/-- The calls and the stages whose questions need no look. -/
def Call.free : Call → Bool
  | deinit | scanCached _ | leave _ | setRadio _ _ | apSetAuth _ | apSetChannel _ => true
  | _ => false

def Stage.free : Stage → Bool
  | raise _ | disable _ | down _ | rest | scan => true
  | call c => c.free
  | _ => false

theorem Stage.Sets.leaves {stage : Stage} {f : State → State} (h : Stage.Sets b stage f)
    (hf : stage.free = true) (s : State) : Leaves s (f s) := by
  cases h <;> first
    | exact ⟨rfl, rfl, rfl, rfl, rfl, rfl⟩
    | exact absurd hf Bool.false_ne_true

theorem Stage.Asks.free {stage : Stage} {q : Ask} (h : Stage.Asks b stage q)
    (hf : stage.free = true) : FreeAsk q := by
  cases h with
  | @tells c f h =>
    change f.free = true
    unfold Call.tells at h
    split at h <;> first
      | exact rfl
      | exact absurd hf Bool.false_ne_true
      | exact absurd h Bool.false_ne_true
  | _ => first
    | exact rfl
    | exact trivial
    | exact absurd hf Bool.false_ne_true

/-- **Stages that are free** make code that does no harm. -/
theorem Steps.harmless {ps : List Stage} {α : Type} {p : Halow α} (h : Steps b ps p)
    (hps : ∀ stage ∈ ps, stage.free = true) : Harmless p :=
  h.within (fun _ => ⟨rfl, rfl, rfl, rfl, rfl, rfl⟩) (fun stage hm _ hf => hf.leaves (hps stage hm))
    fun stage hm _ hq => hq.free (hps stage hm)

theorem harmless_takeDown {itf : Itf} : Harmless (takeDown b itf) :=
  (steps_takeDown (List.Subset.refl _)).harmless (by simp [Itf.downStages, Stage.free])

theorem harmless_raise {itf : Itf} : Harmless (raise b itf) :=
  (steps_raise (List.mem_singleton.mpr rfl)).harmless (by simp [Stage.free])

theorem harmless_body (h : c.free = true) : Harmless (c.body b) := by
  refine (steps_body c).harmless ?_
  cases c with
  | init => exact absurd h Bool.false_ne_true
  | setUp itf up country => exact absurd h Bool.false_ne_true
  | deinit => simp [Call.stages, Stage.free]
  | scanCached max => simp [Call.stages, Stage.free]
  | _ => exact fun stage hm => List.mem_singleton.mp hm ▸ h

/-! ## Settings -/

theorem still_const {φ : Prop} : Still fun _ => φ := fun _ => Iff.rfl

/-- A question about which enough is known. -/
theorem request_known_sane {q : Ask} {φ : Prop} (hq : ∀ s, Sane b known s → φ → WellFormed b s q) :
    (argumentsSpec b).Triple c (fun s => Sane b known s ∧ φ) (.request q) fun _ => Sane b known :=
  request_sane still_const hq

theorem errnoOf_sane {p : Halow Status} (h : (argumentsSpec b).Triple c P p fun _ => Sane b known) :
    (argumentsSpec b).Triple c P (errnoOf p) fun _ => Sane b known :=
  h.seq fun _ => .pure fun _ hs => hs

theorem applyPm_sane : KeepsSane b c known applyPm := by
  refine (harmless_load _).sane.seq fun pm => ?_
  refine (harmless_mmwlan rfl).sane.seq fun st => .ite (fun _ => .pure fun _ hs => hs) fun _ => ?_
  refine .seq (M := fun ms s => Sane b known s ∧ ms ≠ 0) ?_ fun ms => ?_
  · exact .load (steady_of_still still_sane) fun s hs => ⟨hs, hs.psTimeout⟩
  · exact (request_known_sane fun _ _ hms => hms).seq fun _ => .pure fun _ hs => hs

theorem applyRadio_sane : KeepsSane b c known applyRadio := by
  have hload : ∀ {α : Type} (g : State → α), KeepsSane b c known (load g) := fun g =>
    (harmless_load g).sane
  have htell : ∀ {f : Mmwlan}, f.free = true →
      KeepsSane b c known (tell f) := fun h =>
    (harmless_tell h).sane
  have honly : ∀ {g : Bool} {f : Mmwlan}, f.free = true →
      KeepsSane b c known (onlyIf g (tell f)) := fun h =>
    (harmless_onlyIf (harmless_tell h)).sane
  refine (hload _).seq fun ampdu => (htell rfl).seq fun _ => ?_
  refine (hload _).seq fun sgi => (htell rfl).seq fun _ => ?_
  refine (hload _).seq fun subbands => (htell rfl).seq fun _ => ?_
  refine (hload _).seq fun rts => (honly rfl).seq fun _ => ?_
  refine (hload _).seq fun fragment => (honly rfl).seq fun _ => ?_
  refine (hload _).seq fun listen => (honly rfl).seq fun _ => ?_
  refine .seq (M := fun max s => Sane b known s ∧ s.healthMaxMs = max) ?_ fun max => ?_
  · exact .load (steady_of_still still_sane) fun s hs => ⟨hs, rfl⟩
  refine .seq (M := fun min s => Sane b known s ∧ (max ≠ 0 → min ≤ max)) ?_ fun min => ?_
  · refine load_sane (fun _ => Iff.rfl) fun s hs hmax => ?_
    exact hmax ▸ hs.health
  · refine .ite (fun _ => ?_) fun _ => .pure fun _ hs => hs.1
    exact (request_known_sane fun _ _ hle => hle).seq fun _ => .pure fun _ hs => hs

theorem initDriver_sane : KeepsSane b c known (initDriver b) := by
  refine (harmless_load _).sane.seq fun _ => .ite (fun _ => .pure fun _ hs => hs) fun _ => ?_
  refine .seq (store_sane fun _ => ⟨rfl, rfl, rfl, rfl, rfl, rfl⟩) fun _ => ?_
  refine .seq (store_sane fun _ => ⟨rfl, rfl, rfl, rfl, rfl, rfl⟩) fun _ => ?_
  refine .seq (store_sane fun _ => ⟨rfl, rfl, rfl, rfl, rfl, rfl⟩) fun _ => ?_
  refine .seq (store_sane fun _ => ⟨rfl, rfl, rfl, rfl, rfl, rfl⟩) fun _ => ?_
  refine .seq (store_sane fun _ => ⟨rfl, rfl, rfl, rfl, rfl, rfl⟩) fun _ => ?_
  refine .seq (Harmless.sane (harmless_onlyIf (harmless_store fun _ => ⟨rfl, rfl, rfl, rfl, rfl, rfl⟩)))
    fun _ => ?_
  refine .seq (store_sane fun _ => ⟨rfl, rfl, rfl, rfl, rfl, rfl⟩) fun _ => ?_
  refine harmless_osalInit.sane.seq fun pool => .ite (fun _ => .pure fun _ hs => hs) fun _ => ?_
  refine (harmless_request (q := .osalMalloc) trivial).sane.seq fun block => ?_
  refine .seq (store_sane fun _ => ⟨rfl, rfl, rfl, rfl, rfl, rfl⟩) fun _ => ?_
  refine .ite (fun _ => ?_) fun _ => ?_
  · refine Spec.Triple.seq (Harmless.sane ?_) fun _ => .pure fun _ hs => hs
    exact .bind (harmless_store fun _ => ⟨rfl, rfl, rfl, rfl, rfl, rfl⟩) fun _ =>
      harmless_store fun _ => ⟨rfl, rfl, rfl, rfl, rfl, rfl⟩
  refine (harmless_tell rfl).sane.seq fun _ => applyPm_sane.seq fun _ => applyRadio_sane.seq fun _ => ?_
  refine Harmless.sane ?_
  refine .bind (harmless_tell rfl) fun _ => .bind (harmless_tell rfl) fun _ =>
    .bind (harmless_tell rfl) fun _ => .bind (harmless_tell rfl) fun _ => ?_
  exact .bind (harmless_store fun _ => ⟨rfl, rfl, rfl, rfl, rfl, rfl⟩) fun _ =>
    .bind (harmless_store fun _ => ⟨rfl, rfl, rfl, rfl, rfl, rfl⟩) fun _ => trivial

/-! ## Bringing an interface up -/

/-- What `mm_halow_set_country` records is of the regulatory database. -/
theorem setCountry_sane {country : List UInt8} :
    (argumentsSpec b).Triple c (Sane b known) (setCountry b country) fun r s =>
      Sane b known s ∧ (r = .ok → s.channels.isSome = true) := by
  unfold setCountry
  split
  · exact .pure fun _ hs => ⟨hs, nofun⟩
  next channels hlookup =>
  refine .seq (M := fun _ s => Sane b known s ∧ s.country.1 = (letters country).1) ?_ fun _ => ?_
  · exact .store (steady_of_still still_sane) fun s hs =>
      ⟨hs.leaves ⟨rfl, rfl, rfl, rfl, rfl, rfl⟩, rfl⟩
  refine .seq (M := fun _ s => Sane b known s ∧ s.country = letters country) ?_ fun _ => ?_
  · refine .store (steady_of_still (still_sane.and fun _ => Iff.rfl)) fun s hs => ?_
    exact ⟨hs.1.leaves ⟨rfl, rfl, rfl, rfl, rfl, rfl⟩, Prod.ext hs.2 rfl⟩
  refine .seq (M := fun _ s => Sane b true s ∧ s.country = letters country ∧ s.channels = some channels)
    ?_ fun _ => ?_
  · refine .store (steady_of_still (still_sane.and fun _ => Iff.rfl)) fun s hs => ?_
    have hreg : ∀ l, some channels = some l → Regulatory b l := fun l hl =>
      ⟨country, hlookup.trans hl⟩
    exact ⟨{ hs.1 with channels := hreg, known := fun _ => rfl }, hs.2, rfl⟩
  refine .seq (M := fun _ => Sane b true) ?_ fun st => .pure fun s hs => ⟨?_, fun _ => hs.known rfl⟩
  · exact request_sane (fun _ => Iff.rfl) fun s _ hs => ⟨hs.2, country, hlookup, hs.1⟩
  · exact { hs with known := fun _ => hs.known rfl }

/-- The widest channel so far, and the rest of the list. -/
theorem foldl_widest (chs : List Channel) (ch : Channel) :
    chs.foldl (fun best ch => if ch.bwMhz > best.bwMhz then ch else best) ch ∈ ch :: chs ∧
      ∀ ch' ∈ ch :: chs,
        ch'.bwMhz ≤ (chs.foldl (fun best ch => if ch.bwMhz > best.bwMhz then ch else best) ch).bwMhz := by
  induction chs generalizing ch with
  | nil => exact ⟨List.mem_singleton_self ch, fun ch' h => (List.mem_singleton.mp h) ▸ UInt8.le_refl _⟩
  | cons ch₁ chs ih =>
    rw [List.foldl_cons]
    by_cases hgt : ch₁.bwMhz > ch.bwMhz
    · rw [if_pos hgt]
      obtain ⟨hmem, hle⟩ := ih ch₁
      refine ⟨List.mem_cons_of_mem ch hmem, List.forall_mem_cons.mpr ⟨?_, hle⟩⟩
      exact UInt8.le_trans (UInt8.le_of_lt hgt) (hle ch₁ List.mem_cons_self)
    · rw [if_neg hgt]
      obtain ⟨hmem, hle⟩ := ih ch
      obtain ⟨hbest, hrest⟩ := List.forall_mem_cons.mp hle
      refine ⟨?_, List.forall_mem_cons.mpr ⟨hbest, List.forall_mem_cons.mpr ⟨?_, hrest⟩⟩⟩
      · obtain h | h := List.mem_cons.mp hmem
        · rw [h]
          exact List.mem_cons_self
        · exact List.mem_cons_of_mem ch (List.mem_cons_of_mem ch₁ h)
      · exact UInt8.le_trans (UInt8.not_lt.mp hgt) hbest

/-- **What `mm_halow_ap_channel` chooses.** -/
theorem apChannel_chosen {chanNum : UInt8} {channels : Option ChannelList} {ch : Channel}
    (h : apChannel chanNum channels = some ch) : ∃ l, channels = some l ∧ Chosen chanNum l ch := by
  cases channels with
  | none => exact absurd h (Option.some_ne_none ch).symm
  | some l =>
    refine ⟨l, rfl, ?_⟩
    simp only [apChannel] at h
    split_ifs at h with hz
    · have hnum : ch.s1gChanNum = chanNum := by simpa using List.find?_some h
      exact ⟨List.mem_of_find?_eq_some h, fun _ => hnum, fun he => absurd he hz⟩
    · cases l with
      | nil => exact absurd h (Option.some_ne_none ch).symm
      | cons ch₀ chs =>
        obtain rfl := Option.some.inj h
        obtain ⟨hmem, hle⟩ := foldl_widest chs ch₀
        exact ⟨hmem, fun hne => absurd hne hz, fun _ => hle⟩

/-- The access point may be enabled with `channel`. -/
structure Enabling (b : Build) (channel : Option (Int × UInt8)) (s : State) : Prop where
  pm : s.pm = pmNone
  ssid : s.apSsid ≠ []
  channel : ChannelOk b s channel

theorem still_enabling {channel : Option (Int × UInt8)} : Still (Enabling b channel) := fun _ =>
  ⟨fun h => ⟨h.pm, h.ssid, h.channel⟩, fun h => ⟨h.pm, h.ssid, h.channel⟩⟩

theorem apStart_sane {channel : Option (Int × UInt8)} :
    (argumentsSpec b).Triple c (fun s => Sane b known s ∧ Enabling b channel s) (apStart channel)
      fun _ => Sane b known := by
  refine .seq (M := fun _ s => Sane b known s ∧ Enabling b channel s) ?_ fun _ => ?_
  · exact .store (steady_of_still (still_sane.and still_enabling)) fun s hs =>
      ⟨hs.1.leaves ⟨rfl, rfl, rfl, rfl, rfl, rfl⟩, hs.2.pm, hs.2.ssid, hs.2.channel⟩
  refine .seq (M := fun ssid s => Sane b known s ∧ Enabling b channel s ∧ s.apSsid = ssid)
    (load_sane still_enabling fun s _ hs => ⟨hs, rfl⟩) fun ssid => ?_
  have hssid : Still fun s => Enabling b channel s ∧ s.apSsid = ssid :=
    still_enabling.and fun _ => Iff.rfl
  refine .seq (M := fun _ s => Sane b known s ∧ Enabling b channel s ∧ s.apSsid = ssid)
    (load_sane hssid fun s _ hs => hs) fun auth => ?_
  refine .seq (M := fun key s => Sane b known s ∧ (Enabling b channel s ∧ s.apSsid = ssid) ∧
    s.apKey = key) (load_sane hssid fun s _ hs => ⟨hs, rfl⟩) fun key => ?_
  refine .ite (fun _ => .pure fun _ hs => hs.1) fun hsae => errnoOf_sane (request_sane ?_ ?_)
  · exact hssid.and fun _ => Iff.rfl
  rintro s hs ⟨⟨hen, rfl⟩, rfl⟩
  refine ⟨hen.ssid, hs.apSsid, ?_, ⟨fun h => ?_, fun h => ?_⟩, hen.pm, hen.channel⟩
  · dsimp only
    split_ifs
    · exact hs.apKey
    · exact Nat.zero_le _
  · exact fun he => hsae ⟨h, (if_pos h).symm.trans he⟩
  · by_contra hne
    exact h (if_neg hne)

theorem apEnable_sane : KeepsSane b c known (apEnable b) := by
  refine .seq (M := fun pm s => Sane b known s ∧ s.pm = pm) ?_ fun pm => ?_
  · exact .load (steady_of_still still_sane) fun s hs => ⟨hs, rfl⟩
  refine .ite (fun _ => .pure fun _ hs => hs.1) fun hpm => ?_
  refine .seq (M := fun ssid s => Sane b known s ∧ s.pm = pm ∧ s.apSsid = ssid)
    (load_sane (fun _ => Iff.rfl) fun s _ hs => ⟨hs, rfl⟩) fun ssid => ?_
  refine .ite (fun _ => .pure fun _ hs => hs.1) fun hssid => ?_
  refine .seq (M := fun up s => Sane b known s ∧ (s.pm = pm ∧ s.apSsid = ssid) ∧ s.itfState .sta = up)
    (load_sane (fun _ => Iff.rfl) fun s _ hs => ⟨hs, rfl⟩) fun up => ?_
  have hready : ∀ {channel s}, (s.pm = pm ∧ s.apSsid = ssid) → ChannelOk b s channel →
      Enabling b channel s := fun h hch =>
    ⟨h.1.trans (Decidable.not_not.mp hpm), fun he => hssid (h.2.symm.trans he), hch⟩
  refine .ite (fun hup => ?_) fun hup => ?_
  · refine .seq (M := fun ch s => Sane b known s ∧
      ((s.pm = pm ∧ s.apSsid = ssid) ∧ s.itfState .sta = up) ∧ apChannel s.apChanNum s.channels = ch)
      (load_sane (fun _ => Iff.rfl) fun s _ hs => ⟨hs, rfl⟩) fun ch => ?_
    cases ch with
    | none => exact .pure fun _ hs => hs.1
    | some ch =>
      refine apStart_sane.mono (fun s hs => ⟨hs.1, hready hs.2.1.1 ?_⟩) fun _ _ hs => hs
      obtain ⟨l, hl, hchosen⟩ := apChannel_chosen hs.2.2
      refine ⟨hs.2.1.2.trans (by simpa using hup), l, ch, hl, hs.1.channels l hl, hchosen, rfl⟩
  · refine apStart_sane.mono (fun s hs => ⟨hs.1, hready hs.2.1 ?_⟩) fun _ _ hs => hs
    exact hs.2.2.trans (by simpa using hup)

/-- **An interface is brought up where a channel list is recorded.** -/
theorem bringUp_sane {itf : Itf} : KeepsSane b c true (bringUp b itf) := by
  have hafter : KeepsSane b c true (bringUp.afterBoot b itf) :=
    .ite (fun _ => apEnable_sane.seq fun _ => .ite (fun _ => .pure fun _ hs => hs) fun _ =>
      harmless_raise.sane) fun _ => harmless_raise.sane
  refine (harmless_load _).sane.seq fun booted => .ite (fun _ => ?_) fun _ => hafter
  refine .seq (M := fun _ => Sane b true) ?_ fun st => .ite (fun _ => .pure fun _ hs => hs) fun _ => ?_
  · refine (request_sane (P := fun _ => True) still_const fun s hs _ => ?_).mono
      (fun _ hs => ⟨hs, trivial⟩) fun _ _ hs => hs
    obtain ⟨l, hl⟩ := Option.isSome_iff_exists.mp (hs.known rfl)
    exact ⟨l, hl, hs.channels l hl⟩
  · refine .seq (store_sane fun _ => ⟨rfl, rfl, rfl, rfl, rfl, rfl⟩) fun _ => ?_
    exact (harmless_tell rfl).sane.seq fun _ => hafter

theorem setUpItf_sane {itf : Itf} {up : Bool} {country : List UInt8} :
    KeepsSane b c known (setUpItf b itf up country) := by
  cases up with
  | false =>
    rw [setUpItf_false]
    exact (harmless_load _).sane.seq fun _ => .ite (fun _ => .pure fun _ hs => hs) fun _ =>
      harmless_takeDown.sane
  | true =>
    refine (harmless_load _).sane.seq fun _ => .ite (fun _ => .pure fun _ hs => hs) fun _ => ?_
    have hinit : KeepsSane b c known (ensureInit b) :=
      (harmless_load _).sane.seq fun _ => .ite (fun _ => initDriver_sane) fun _ => .pure fun _ hs => hs
    refine hinit.seq fun r => .ite (fun _ => .pure fun _ hs => hs) fun _ => ?_
    refine setCountry_sane.seq fun r => .ite (fun _ => .pure fun _ hs => hs.1) fun hr => ?_
    refine bringUp_sane.mono (fun s hs => ?_) fun _ _ hs => { hs with known := fun _ => hs.known rfl }
    exact { hs.1 with known := fun _ => hs.2 (Decidable.not_not.mp hr) }

/-! ## The other calls -/

/-- A function whose arguments are known from those of the call. -/
theorem request_args {f : Mmwlan} (h : ∀ s, WellFormed b s (.mmwlan f)) :
    KeepsSane b c known (mmwlan f) :=
  (request_sane (P := fun _ => True) still_const fun s _ _ => h s).mono (fun _ hs => ⟨hs, trivial⟩)
    fun _ _ hs => hs

theorem wifiJoin_sane {args : StaArgs} : KeepsSane b c known (wifiJoin b args) := by
  refine .ite (fun _ => .pure fun _ hs => hs) fun hok => ?_
  have hargs : args.Ok b := by
    simp only [joinRefuses, Bool.or_eq_true, Bool.and_eq_true, decide_eq_true_eq, beq_iff_eq, not_or,
      Nat.not_lt] at hok
    obtain ⟨⟨⟨hssid, hssidLen⟩, hkeyLen⟩, hsae⟩ := hok
    exact ⟨hssid, hssidLen, hkeyLen, fun h hk => hsae ⟨h, hk⟩⟩
  refine .seq (store_sane fun _ => ⟨rfl, rfl, rfl, rfl, rfl, rfl⟩) fun _ => ?_
  refine .seq (store_sane fun _ => ⟨rfl, rfl, rfl, rfl, rfl, rfl⟩) fun _ => ?_
  refine (harmless_load _).sane.seq fun active => .seq (M := fun _ => Sane b known) ?_ fun _ => ?_
  · refine Harmless.sane (harmless_onlyIf (.bind (harmless_tell rfl) fun _ => .bind ?_ fun _ => trivial))
    exact harmless_request trivial
  refine .seq (M := fun _ => Sane b known) ?_ fun st => .ite (fun _ => ?_) fun _ => .pure fun _ hs => hs
  · exact request_args fun _ => hargs
  · exact .seq (store_sane fun _ => ⟨rfl, rfl, rfl, rfl, rfl, rfl⟩) fun _ => .pure fun _ hs => hs

theorem wifiPm_sane {pm : UInt32} : KeepsSane b c known (wifiPm b pm) := by
  refine (harmless_load _).sane.seq fun up => .ite (fun _ => .pure fun _ hs => hs) fun _ => ?_
  refine (harmless_load _).sane.seq fun prev => .seq (store_sane fun _ => ?_) fun _ => ?_
  · exact ⟨rfl, rfl, rfl, rfl, rfl, rfl⟩
  refine (harmless_load _).sane.seq fun booted => .ite (fun _ => ?_) fun _ => .pure fun _ hs => hs
  refine applyPm_sane.seq fun ret => .ite (fun _ => ?_) fun _ => .pure fun _ hs => hs
  exact .seq (store_sane fun _ => ⟨rfl, rfl, rfl, rfl, rfl, rfl⟩) fun _ => .pure fun _ hs => hs

theorem wifiSetPsTimeout_sane {ms : UInt32} : KeepsSane b c known (wifiSetPsTimeout ms) := by
  refine .ite (fun _ => .pure fun _ hs => hs) fun hms => ?_
  have hstore : KeepsSane b c known (store fun s => { s with psTimeoutMs := ms }) :=
    .store (steady_of_still still_sane) fun s hs => { hs with psTimeout := hms }
  refine (harmless_load _).sane.seq fun booted => .ite (fun _ => ?_) fun _ =>
    hstore.seq fun _ => .pure fun _ hs => hs
  refine .seq (M := fun _ => Sane b known) ?_ fun st => .ite (fun _ => .pure fun _ hs => hs) fun _ =>
    hstore.seq fun _ => .pure fun _ hs => hs
  exact request_args fun _ => hms

/-- The two halves of the interval are stored one after the other, with nothing asked in between. -/
theorem wifiSetHealthCheck_sane {min max : UInt32} :
    KeepsSane b c known (wifiSetHealthCheck min max) := by
  refine .ite (fun _ => .pure fun _ hs => hs) fun hle => ?_
  have hle : max ≠ 0 → min ≤ max := fun hz => UInt32.not_lt.mp fun hgt => hle ⟨hz, hgt⟩
  let half : State → Prop := fun s => Sane b known { s with healthMinMs := 0 } ∧ s.healthMinMs = min
  have hhalf : Still half := fun s => and_congr_left' (still_sane _)
  refine .seq (M := fun _ => half) (.store (steady_of_still still_sane) fun s hs => ?_) fun _ => ?_
  · exact ⟨{ hs with health := fun _ => UInt32.zero_le }, rfl⟩
  refine .seq (M := fun _ => Sane b known) (.store (steady_of_still hhalf) fun s hs => ?_) fun _ => ?_
  · exact { hs.1 with health := fun hz => hs.2.symm ▸ hle hz }
  refine (harmless_load _).sane.seq fun booted => .ite (fun _ => ?_) fun _ => .pure fun _ hs => hs
  exact errnoOf_sane (request_args fun _ => hle)

theorem wifiSetDutyCycle_sane {mode : Int} : KeepsSane b c known (wifiSetDutyCycle mode) := by
  refine .seq (store_sane fun _ => ⟨rfl, rfl, rfl, rfl, rfl, rfl⟩) fun _ => ?_
  refine (harmless_load _).sane.seq fun booted => .ite (fun _ => .pure fun _ hs => hs) fun _ => ?_
  refine .ite (fun _ => .pure fun _ hs => hs) fun hmode => errnoOf_sane (request_args fun s => ?_)
  have hcases : mode = 0 ∨ mode = 1 := by omega
  obtain rfl | rfl := hcases
  · exact .inl rfl
  · exact .inr rfl

theorem wifiTwt_sane {interval : UInt64} {duration : UInt32} {setup : Int} :
    KeepsSane b c known (wifiTwt interval duration setup) := by
  refine (harmless_load _).sane.seq fun booted => .ite (fun _ => .pure fun _ hs => hs) fun _ => ?_
  refine (harmless_load _).sane.seq fun link => .ite (fun _ => .pure fun _ hs => hs) fun _ => ?_
  refine .ite (fun _ => .pure fun _ hs => hs) fun hsetup => ?_
  refine .ite (fun _ => .pure fun _ hs => hs) fun hint => errnoOf_sane (request_args fun s => ?_)
  simp only [not_or, UInt64.not_lt] at hint
  exact ⟨hint.1, hint.2.1, hint.2.2, by omega, by omega⟩

theorem wifiWnmSleep_sane {enable powerdown : Bool} :
    KeepsSane b c known (wifiWnmSleep enable powerdown) := by
  refine .seq (M := fun pm s => Sane b known s ∧ s.pm = pm) ?_ fun pm => ?_
  · exact .load (steady_of_still still_sane) fun s hs => ⟨hs, rfl⟩
  refine .seq (M := fun _ s => Sane b known s ∧ s.pm = pm)
    (load_sane (fun _ => Iff.rfl) fun s _ hs => hs) fun link => ?_
  refine .ite (fun _ => .pure fun _ hs => hs.1) fun hpm => ?_
  refine .ite (fun _ => .pure fun _ hs => hs.1) fun _ => ?_
  exact errnoOf_sane (request_sane (fun _ => Iff.rfl) fun s _ hs he hz => hpm ⟨he, hs.symm.trans hz⟩)

theorem wifiFixedRate_sane {mcs bw gi : Int} : KeepsSane b c known (wifiFixedRate b mcs bw gi) := by
  refine (harmless_load _).sane.seq fun booted => .ite (fun _ => .pure fun _ hs => hs) fun _ => ?_
  refine .ite (fun _ => .pure fun _ hs => hs) fun hok => errnoOf_sane (request_args fun _ => ?_)
  exact (Bool.eq_false_or_eq_true _).resolve_right fun h => hok (by rw [h]; rfl)

/-- **Every call asks for what is well formed**, and leaves what is stored so. -/
theorem body_sane : KeepsSane b c known (c.body b) := by
  by_cases hfree : c.free = true
  · exact (harmless_body hfree).sane
  cases c with
  | init => exact initDriver_sane
  | setUp itf up country =>
    simp only [Call.body, wifiSetUp]
    split
    · exact .pure fun _ hs => hs
    · exact setUpItf_sane
  | join args => exact wifiJoin_sane
  | pm mode => exact wifiPm_sane
  | setPsTimeout ms => exact wifiSetPsTimeout_sane
  | setHealthCheck min max => exact wifiSetHealthCheck_sane
  | setDutyCycle mode => exact wifiSetDutyCycle_sane
  | twt interval duration setup => exact wifiTwt_sane
  | wnmSleep enable powerdown => exact wifiWnmSleep_sane
  | fixedRate mcs bw gi => exact wifiFixedRate_sane
  | apSetSsid ssid =>
    refine .seq (M := fun _ => Sane b known) (.store (steady_of_still still_sane) fun s hs => ?_)
      fun _ => .pure fun _ hs => hs
    exact { hs with apSsid := List.length_take_le _ _ }
  | apSetPassword key =>
    refine .seq (M := fun _ => Sane b known) (.store (steady_of_still still_sane) fun s hs => ?_)
      fun _ => .pure fun _ hs => hs
    exact { hs with apKey := List.length_take_le _ _ }
  | _ => exact absurd rfl hfree

/-! ## Every run -/

theorem arguments_sound : (argumentsSpec b).Sound where
  idle_cb _ _ h _ := still_sane.callback h
  during_refl _ _ _ h := h
  during_trans _ _ _ _ h h' known hs := h' known (h known hs)
  during_cb _ _ _ _ _ h := still_sane.callback h
  first c s hs _ := body_sane.meets (hs.leaves ⟨rfl, rfl, rfl, rfl, rfl, rfl⟩)
    (fun _ => steady_of_still still_sane) fun _ _ _ ht =>
    ⟨trivial, ht.leaves ⟨rfl, rfl, rfl, rfl, rfl, rfl⟩⟩
  nested c i is s hs _ := by
    have hknown : Sane b s.channels.isSome s := { hs with known := id }
    have hbody : KeepsSane b c s.channels.isSome (c.body b) := body_sane
    refine hbody.meets (hknown.leaves ⟨rfl, rfl, rfl, rfl, rfl, rfl⟩)
      (fun _ => steady_of_still still_sane) fun _ _ t ht => ⟨trivial, fun known hk => ?_⟩
    exact (ht.during hk).leaves ⟨rfl, rfl, rfl, rfl, rfl, rfl⟩

/-- What is stored at the start. -/
theorem sane_init {lwip : Lwip} : Sane b false (State.init b lwip) where
  apSsid := Nat.zero_le _
  apKey := Nat.zero_le _
  psTimeout := (by decide : (100 : UInt32) ≠ 0)
  health h := absurd rfl h
  channels _ h := absurd h (Option.some_ne_none _).symm
  known h := absurd h Bool.false_ne_true

/-- **Whatever is asked of morselib is well formed**, in every run of public calls, those that host
callbacks make during waits among them, whatever the callers pass, morselib answers and its callbacks
do. -/
theorem requests_well_formed (b : Build) (lwip : Lwip) (tr : List Happening) (x y : Site) (q : Ask)
    (hr : Run (world b).Step (start b lwip) tr x) (hq : (world b).Step x (.ask q) y) :
    WellFormed b x.st q :=
  arguments_sound.guard sane_init (hr.mono fun _ _ _ h => ⟨h, trivial⟩) ⟨hq, trivial⟩

/-! ## A run of it -/

/-- What is asked for an open access point called `A` on the only channel. -/
def openPoint : ApArgs := ⟨some (1, 3), [65], secOpen, []⟩

/-- The access point is configured and brought up. -/
def pointAsked : Cues :=
  .call (.apSetSsid [65]) :: .call (.apSetAuth secOpen) :: .call (.setUp 1 true us) ::
    granted (initAsks ++ bootAsks)

/-- The run has just asked morselib for it. -/
def asksPoint (tr : List Happening) : Bool :=
  match tr.getLast? with
  | some (.ask (.mmwlan (.apEnable args))) => args = openPoint
  | _ => false

theorem of_asksPoint {tr : List Happening} (h : asksPoint tr = true) :
    tr.getLast? = some (.ask (.mmwlan (.apEnable openPoint))) := by
  unfold asksPoint at h
  split at h
  · next args hlast =>
    rw [hlast, of_decide_eq_true h]
  · exact absurd h Bool.false_ne_true

theorem requests_well_formed_point : ∃ tr x y,
    Run (world (.small true)).Step (start (.small true) noNetifs) tr x ∧
      (world (.small true)).Step x (.ask (.mmwlan (.apEnable openPoint))) y ∧
      openPoint.Ok (.small true) x.st := by
  obtain ⟨tr, y, hr, hy⟩ := World.run_of_play_any (world (.small true)) (fun _ _ _ => true)
    (start (.small true) noNetifs) pointAsked (fun r => asksPoint r.1) rfl
  obtain ⟨tr', x, hx, hstep, -⟩ := hr.unsnoc (of_asksPoint hy)
  have hrun := hx.mono fun _ _ _ h => h.1
  exact ⟨tr', x, y, hrun, hstep, requests_well_formed (.small true) noNetifs tr' x y _ hrun hstep⟩

end MmHalow.Ctrl
