import MmHalow.Ctrl.Linked

/-!
# The channel list in use (`mm_halow_set_country`)

`mm_halow_set_country` records a country and its channels before it asks morselib to take the list,
and keeps the record where morselib refuses. `Recorded` says that the record is of the list morselib
last accepted.

* `channels_kept`: as long as the lists that morselib refuses, or is asked to take while it runs, are the
  one recorded already (`ListsKept`), the record is right whenever the transceiver is booted, and a
  refused bring-up leaves it alone.
* `channels_overwritten`: a second interface brought up for another country leaves the record of a
  list that morselib has refused, and the radio on the other one.
-/

namespace MmHalow.Ctrl

open MmHalow.Lib

/-- The recorded country and channels are those of the list morselib last accepted. -/
def Recorded (s : State) : Prop :=
  ∃ l, s.channels = some l ∧ s.lib.accepted = some (s.country, l)

/-- The record is right while the transceiver runs. -/
def Right (s : State) : Prop := s.booted = true → Recorded s

/-- A list was refused. -/
def Refused (l : Log Ask Ask.Ans) : Prop :=
  ∃ channels st, st ≠ Status.success ∧ ⟨.mmwlan (.setChannelList channels), st⟩ ∈ l.heard

/-- Interfaces are brought up and down, and morselib refuses a list while the transceiver runs. -/
def SetUps (s : State) : Happening → Prop
  | .call c => c.isSetUp = true ∨ c = .deinit
  | .answer (.mmwlan (.setChannelList _)) st => s.lib.booted = true → st ≠ Status.success
  | _ => True

/-- The list and the country are those that were recorded when the call was made. -/
def SameList (is : List Doing) (s : State) (l : ChannelList) : Prop :=
  ∃ i is', is = i :: is' ∧ i.entry.channels = some l ∧ i.entry.country = s.country

/-- **A list that morselib refuses, or is asked to take while the transceiver runs, is the one that
was recorded when the call was made.** -/
def ListsKept (is : List Doing) (s : State) : Happening → Prop
  | .ask (.mmwlan (.setChannelList l)) => s.booted = true → SameList is s l
  | .answer (.mmwlan (.setChannelList l)) st => st ≠ Status.success → SameList is s l
  | _ => True

/-- The specification: the record is right, and a refused call leaves it alone. -/
def channelSpec (b : Build) : Spec (oneAtATime b) :=
  .oneAtATime (world b) (fun is s e => (SetUps s e ∧ ListsKept is s e) ∧ FromLinked s e)
    (fun _ _ s => Right s)
    (fun i _ s => i.call.isSetUp = true → Refused i.log →
      s.channels = i.entry.channels ∧ s.country = i.entry.country)
    Right

variable {b : Build} {c : Call} {s : State} {e : State}

/-! ## Assertions -/

theorem still_recorded : Still Recorded := fun _ => Iff.rfl

theorem steady_recorded : (channelSpec b).Steady Recorded := fun _ _ _ _ h => still_recorded.callback h

theorem steady_right : (channelSpec b).Steady Right :=
  fun _ _ _ _ h hb => still_recorded.callback (h (booted_of_callback hb))

/-- The record is as `e` has it, and right where the transceiver is booted. -/
structure Untouched (e s : State) : Prop where
  channels : s.channels = e.channels
  country : s.country = e.country
  initted : s.initted = e.initted
  booted : s.booted = true → e.booted = true
  right : Right s

/-- The same once the driver may have been initialised. -/
structure Kept (e s : State) : Prop where
  channels : s.channels = e.channels
  country : s.country = e.country
  right : Right s

theorem steady_untouched : (channelSpec b).Steady (Untouched e) := by
  intro is s k _ h
  have hs : ∀ {P : State → Prop}, Still P → P s → P (callback b k s) := fun h h' => h.callback h'
  exact ⟨hs (P := fun s => s.channels = e.channels) (fun _ => Iff.rfl) h.channels,
    hs (P := fun s => s.country = e.country) (fun _ => Iff.rfl) h.country,
    hs (P := fun s => s.initted = e.initted) (fun _ => Iff.rfl) h.initted,
    fun hb => h.booted (booted_of_callback hb), fun hb => hs still_recorded (h.right (booted_of_callback hb))⟩

theorem unmoved {P : State → Prop} {q : Ask} (hright : ∀ s, P s → Right s)
    (henter : ∀ s, P s → P (enter b c q s)) (hleave : ∀ a s, P s → P (leave b c q a s)) :
    (channelSpec b).Unmoved c P q :=
  ⟨fun _ s h => hright s h, henter, hleave, fun _ _ _ h => nomatch h⟩

/-! ## The functions -/

variable {κ : Around State Ask Ask.Ans Call} {l : Log Ask Ask.Ans} {itf : Itf}

/-- Not a channel list. -/
def NotList (q : Ask) : Prop := ∀ channels, q ≠ .mmwlan (.setChannelList channels)

theorem not_refused {l' : Log Ask Ask.Ans} (hl : ¬ Refused l) (h : l.Grows NotList l') :
    ¬ Refused l' := by
  rintro ⟨channels, st, hst, hmem⟩
  obtain h | h := h.heard _ hmem
  · exact hl ⟨channels, st, hst, h⟩
  · exact h channels rfl

/-- `mm_halow_init` runs only where the transceiver is not booted. -/
theorem ensureInit_kept (he : e.booted = true → e.initted = true) (hs : Untouched e s) :
    (channelSpec b).wp κ l (ensureInit b) s fun l' _ t => Kept e t ∧ l.Grows NotList l' := by
  refine Spec.wp_bind.mpr (Spec.wp_load steady_untouched hs fun t ht => ?_)
  split
  case isFalse => exact ⟨⟨ht.channels, ht.country, ht.right⟩, .refl⟩
  case isTrue hi =>
    have hb : t.booted = false := by
      refine Bool.eq_false_iff.mpr fun hb => ?_
      have := ht.initted.trans (he (ht.booted hb))
      simp [this] at hi
    have hP : (channelSpec b).Steady fun s =>
        s.channels = e.channels ∧ s.country = e.country ∧ s.booted = false := by
      intro is s k _ h
      refine ⟨Still.callback (P := fun s => s.channels = e.channels) (fun _ => Iff.rfl) h.1,
        Still.callback (P := fun s => s.country = e.country) (fun _ => Iff.rfl) h.2.1, ?_⟩
      exact Bool.eq_false_iff.mpr fun hb => by simp [booted_of_callback hb] at h
    refine Spec.wp_mono (Spec.wp_within (G := NotList) (within_initDriver.mono ?_ ?_) hP hP.patient
      ⟨ht.channels, ht.country, hb⟩) fun l' _ u hu => ⟨⟨hu.1.1, hu.1.2.1, fun h => ?_⟩, hu.2⟩
    · intro f hf s h
      exact ⟨(hf s).channels.trans h.1, (hf s).country.trans h.2.1, (hf s).booted.trans h.2.2⟩
    · intro q hq
      refine ⟨unmoved (fun s h hb => ?_) (fun s h => ?_) fun a s h => ?_, fun channels => ?_⟩
      · simp [h.2.2] at hb
      · obtain ⟨m, hm⟩ := enter_eq (b := b) (c := κ.call) hq.ne_netifAdd s
        rw [hm]
        exact h
      · obtain ⟨m, hm⟩ := leave_eq (b := b) (c := κ.call) hq.ne_netifAdd a s
        rw [hm]
        exact h
      · rintro rfl
        simp [InitAsk, PlainAsk, Mmwlan.plain] at hq
    · simp [hu.1.2.2] at h

/-- What morselib accepted last is what was recorded when the call was made. -/
def Accepted (e s : State) : Prop :=
  s.booted = true → ∃ channels, e.channels = some channels ∧ s.lib.accepted = some (e.country, channels)

/-- The record is being overwritten; `P` says how far. -/
theorem steady_accepted {P : State → Prop} (hP : Still P) :
    (channelSpec b).Steady fun s => Accepted e s ∧ P s :=
  fun _ _ _ _ h => ⟨fun hb => Still.callback (P := fun s => ∃ channels, e.channels = some channels ∧
    s.lib.accepted = some (e.country, channels)) (fun _ => Iff.rfl) (h.1 (booted_of_callback hb)),
    hP.callback h.2⟩

/-- After `mm_halow_set_country` the record is of an accepted list, or it is as it was. -/
theorem setCountry_kept {country : List UInt8} (hs : Kept κ.entry s) (hl : ¬ Refused l) :
    (channelSpec b).wp κ l (setCountry b country) s fun l' r t =>
      if r = .ok then Recorded t ∧ ¬ Refused l' else Kept κ.entry t := by
  unfold setCountry
  split
  case h_1 => exact hs
  case h_2 channels hlook =>
    have hacc : Accepted κ.entry s := fun hb => by
      obtain ⟨list, h₁, h₂⟩ := hs.right hb
      exact ⟨list, hs.channels ▸ h₁, hs.country ▸ h₂⟩
    have h₀ := steady_accepted (b := b) (e := κ.entry) (P := fun _ => True) fun _ => Iff.rfl
    have h₁ := steady_accepted (b := b) (e := κ.entry)
      (P := fun s => s.country.1 = (letters country).1) fun _ => Iff.rfl
    have h₂ := steady_accepted (b := b) (e := κ.entry)
      (P := fun s => s.country = letters country) fun _ => Iff.rfl
    have h₃ := steady_accepted (b := b) (e := κ.entry)
      (P := fun s => s.country = letters country ∧ s.channels = some channels) fun _ => Iff.rfl
    refine Spec.wp_bind.mpr (Spec.wp_store h₀ ⟨hacc, trivial⟩ fun t ht => ?_)
    refine Spec.wp_bind.mpr (Spec.wp_store h₁ ⟨ht.1, rfl⟩ fun t ht => ?_)
    refine Spec.wp_bind.mpr (Spec.wp_store h₂ ⟨ht.1, Prod.ext ht.2 rfl⟩ fun t ht => ?_)
    refine Spec.wp_bind.mpr (Spec.wp_request h₃ ⟨ht.1, ht.2, rfl⟩ (fun t ht hok hb => ?_)
      (fun t u ht hu => h₃.patient _ _ u hu ht) (fun _ _ h => nomatch h)
      fun t st ht _ hok => Spec.wp_pure.mpr ?_)
    · obtain ⟨i, is, hi, hich, hico⟩ := hok.1.2 hb
      obtain ⟨rfl, -⟩ := List.cons.inj hi
      obtain ⟨list, h₁, h₂⟩ := ht.1 hb
      exact ⟨list, ht.2.2.trans (hich.symm.trans h₁), hico ▸ h₂⟩
    obtain ⟨hacc, hcountry, hchannels⟩ := ht
    by_cases hst : st = Status.success
    · subst hst
      refine (if_pos rfl).mpr ⟨⟨channels, hchannels, rfl⟩, ?_⟩
      rintro ⟨channels', st', hst', hmem⟩
      obtain h | h := List.mem_cons.mp hmem
      · obtain ⟨-, h⟩ := Sigma.mk.inj h
        exact hst' (eq_of_heq h)
      · exact hl ⟨channels', st', hst', h⟩
    · -- the country was recorded already, so that nothing has changed
      obtain ⟨i, is, hi, hich, hico⟩ := hok.1.2 hst
      obtain ⟨rfl, -⟩ := List.cons.inj hi
      refine (if_neg fun h => hst (statusToErrno_eq_ok.mp h)).mpr
        ⟨hchannels.trans hich.symm, hico.symm, fun hb => ?_⟩
      have hacc' : (leave b κ.call (.mmwlan (.setChannelList channels)) st t).lib.accepted =
          t.lib.accepted := by
        cases st <;> first | exact absurd rfl hst | rfl
      obtain ⟨list, h₁, h₂⟩ := hacc hb
      exact ⟨list, hchannels.trans (hich.symm.trans h₁), hacc'.trans (hico ▸ h₂)⟩

/-- The record is about these pieces. -/
theorem Recorded.of_eq {t : State} (h : Recorded s) (hch : t.channels = s.channels)
    (hco : t.country = s.country) (hacc : t.lib.accepted = s.lib.accepted) : Recorded t := by
  obtain ⟨list, h₁, h₂⟩ := h
  exact ⟨list, hch.trans h₁, by rw [hacc, hco, h₂]⟩

/-- The functions of morselib that change the list in use. -/
def Mmwlan.relists : Mmwlan → Bool
  | init | deinit | setChannelList _ => true
  | _ => false

theorem accepted_answered {country : Letters} {m : Morselib} {f : Mmwlan} {st : Status}
    (hf : f.relists = false) : (m.answered b c country f st).accepted = m.accepted := by
  cases f <;> first
    | exact absurd hf.symm Bool.false_ne_true
    | (cases st <;> rfl)

/-- Asking for another function keeps the record. -/
theorem unmoved_mmwlan_recorded {f : Mmwlan} (hf : f.relists = false) :
    (channelSpec b).Unmoved c Recorded (.mmwlan f) ∧
      (channelSpec b).Unmoved c Right (.mmwlan f) := by
  have henter : ∀ s, (enter b c (.mmwlan f) s).lib.accepted = s.lib.accepted ∧
      (enter b c (.mmwlan f) s).channels = s.channels ∧ (enter b c (.mmwlan f) s).country = s.country ∧
      (enter b c (.mmwlan f) s).booted = s.booted := fun s => by cases f <;> exact ⟨rfl, rfl, rfl, rfl⟩
  have hleave : ∀ (st : Status) s,
      (leave b c (.mmwlan f) st s).lib.accepted = s.lib.accepted := fun st s =>
    accepted_answered hf
  refine ⟨unmoved (fun _ h _ => h) (fun s h => ?_) fun st s h => ?_,
    unmoved (fun _ h => h) (fun s h hb => ?_) fun st s h hb => ?_⟩
  · exact h.of_eq (henter s).2.1 (henter s).2.2.1 (henter s).1
  · exact h.of_eq rfl rfl (hleave st s)
  · exact (h ((henter s).2.2.2.symm.trans hb)).of_eq (henter s).2.1 (henter s).2.2.1 (henter s).1
  · exact (h hb).of_eq rfl rfl (hleave st s)

/-- Bringing an interface up from where the list is accepted leaves it alone. -/
theorem bringUp_kept (hs : Recorded s) (hl : ¬ Refused l) :
    (channelSpec b).wp κ l (bringUp b itf) s fun l' _ t => Recorded t ∧ ¬ Refused l' := by
  refine Spec.wp_mono (Spec.wp_within (G := NotList) (within_bringUp.mono ?_ ?_) steady_recorded
    steady_recorded.patient hs) fun l' _ u hu => ⟨hu.1, not_refused hl hu.2⟩
  · intro f hf s h
    exact h.of_eq (hf s).channels (hf s).country (by rw [(hf s).lib])
  · rintro q (rfl | rfl | ⟨-, args, rfl⟩ | rfl)
    · exact ⟨(unmoved_mmwlan_recorded rfl).1, nofun⟩
    · exact ⟨(unmoved_mmwlan_recorded rfl).1, nofun⟩
    · exact ⟨(unmoved_mmwlan_recorded rfl).1, nofun⟩
    · exact ⟨unmoved (fun _ h _ => h) (fun _ h => h) fun _ _ h => h, nofun⟩

/-- Taking an interface down leaves the record alone. -/
theorem within_takeDown_right : (takeDown b itf).Within (fun f => ∀ s, Right s → Right (f s))
    fun q => (channelSpec b).Unmoved c Right q ∧ NotList q := by
  refine (steps_takeDown (List.Subset.refl _)).within (fun _ h => h) ?_ ?_
  · intro stage hm f hf s h
    rcases mem_downStages.mp hm with rfl | rfl
    · cases hf <;> exact h
    · cases hf with
      | downBooted => exact fun hb => absurd hb Bool.false_ne_true
      | _ => exact h
  · intro stage hm q hq
    rcases mem_downStages.mp hm with rfl | rfl
    · cases hq <;> exact ⟨(unmoved_mmwlan_recorded rfl).2, nofun⟩
    · cases hq
      exact ⟨(unmoved_mmwlan_recorded rfl).2, nofun⟩

theorem takeDown_kept (hs : Right s) (hl : ¬ Refused l) :
    (channelSpec b).wp κ l (takeDown b itf) s fun l' _ t => Right t ∧ ¬ Refused l' :=
  Spec.wp_mono (Spec.wp_within within_takeDown_right steady_right steady_right.patient hs)
    fun _ _ _ hu => ⟨hu.1, not_refused hl hu.2⟩

theorem deinitItf_kept : (channelSpec b).Triple c Right (deinitItf b itf) fun _ => Right := by
  refine .ofWithin (.bind (Proc.within_load.mpr fun _ h => h) fun _ => .ite ?_ trivial) steady_right
    steady_right.patient
  refine .bind (Proc.within_load.mpr fun _ h => h) fun _ => .bind ?_ fun _ => trivial
  rw [setUpItf_false]
  exact .bind (Proc.within_load.mpr fun _ h => h) fun _ => .ite trivial
    (within_takeDown_right.mono (fun _ h => h) fun _ h => h.1)

/-- **`mm_halow_wifi_set_up` keeps the record right**, and leaves it alone where a list is refused. -/
theorem setUpItf_kept {up : Bool} {country : List UInt8}
    (he : κ.entry.booted = true → κ.entry.initted = true) (hs : Untouched κ.entry s)
    (hl : ¬ Refused l) :
    (channelSpec b).wp κ l (setUpItf b itf up country) s fun l' _ t =>
      Right t ∧ (Refused l' → t.channels = κ.entry.channels ∧
        t.country = κ.entry.country) := by
  unfold setUpItf
  split
  case isTrue =>
    refine Spec.wp_bind.mpr (Spec.wp_load steady_untouched hs fun t ht => ?_)
    split
    case isTrue => exact ⟨ht.right, fun h => absurd h hl⟩
    case isFalse =>
      refine Spec.wp_seq (ensureInit_kept he ht) fun l' r u hu => ?_
      have hl' := not_refused hl hu.2
      split
      case isTrue => exact ⟨hu.1.right, fun h => absurd h hl'⟩
      case isFalse =>
        refine Spec.wp_seq (setCountry_kept hu.1 hl') fun l'' r v hv => ?_
        split
        case isTrue hr =>
          rw [if_neg hr] at hv
          exact ⟨hv.right, fun _ => ⟨hv.channels, hv.country⟩⟩
        case isFalse hr =>
          rw [if_pos (not_not.mp hr)] at hv
          exact Spec.wp_mono (bringUp_kept hv.1 hv.2) fun _ _ _ h =>
            ⟨fun _ => h.1, fun h' => absurd h' h.2⟩
  case isFalse =>
    refine Spec.wp_bind.mpr (Spec.wp_load steady_untouched hs fun t ht => ?_)
    split
    case isTrue => exact ⟨ht.right, fun h => absurd h hl⟩
    case isFalse =>
      exact Spec.wp_mono (takeDown_kept ht.right hl) fun _ _ _ h => ⟨h.1, fun h' => absurd h' h.2⟩

theorem not_refused_empty : ¬ Refused .empty := by
  rintro ⟨channels, st, -, hmem⟩
  exact nomatch hmem

theorem steady_record {channels : Option ChannelList} {country : Letters} :
    (channelSpec b).Steady fun s => s.channels = channels ∧ s.country = country :=
  fun _ _ _ _ h => Still.callback (P := fun s => s.channels = channels ∧ s.country = country)
    (fun _ => Iff.rfl) h

/-- `mm_halow_deinit` ends with the transceiver off. -/
theorem deinit_kept : (channelSpec b).Triple c Right (deinitDriver b) fun _ => Right := by
  have hload : ∀ {α : Type} (g : State → α), (channelSpec b).Triple c Right (load g) fun _ => Right :=
    fun _ => .load steady_right fun _ h => h
  have htell : ∀ {f : Mmwlan}, f.relists = false →
      (channelSpec b).Triple c Right (tell f) fun _ => Right := fun h =>
    .ofWithin (.bind (Proc.within_request.mpr (unmoved_mmwlan_recorded h).2) fun _ => trivial) steady_right
      steady_right.patient
  have hany : (channelSpec b).Steady fun _ => True := fun _ _ _ _ h => h
  have hoff : (channelSpec b).Steady fun s => s.booted = false := fun _ _ _ _ h =>
    Bool.eq_false_iff.mpr fun hb => by simp [booted_of_callback hb] at h
  refine .seq (hload _) fun _ => .ite (fun _ => .pure fun _ h => h) fun _ => ?_
  refine .seq (hload _) fun _ => .ite (fun _ => .pure fun _ h => h) fun _ => ?_
  refine .seq deinitItf_kept fun _ => .seq deinitItf_kept fun _ =>
    .seq (M := fun _ s => s.booted = false) ?_ fun _ => .pure fun s h hb => by simp [h] at hb
  refine .seq (htell rfl) fun _ => .seq (M := fun _ => Right) (.store steady_right fun _ h => h)
    fun _ => ?_
  -- morselib forgets the list before the driver forgets that the transceiver ran
  refine .seq (htell rfl) fun _ => .seq (M := fun _ _ => True) (.seq (M := fun _ _ => True)
    (.request (D := fun _ => True) steady_right hany.patient (fun _ _ h => h) (fun _ _ => trivial)
      (fun _ _ _ h => nomatch h) fun _ _ _ _ _ _ => trivial) fun _ => .pure fun _ h => h) fun _ => ?_
  refine .seq (M := fun _ _ => True) (.store hany fun _ h => h) fun _ => ?_
  refine .seq (M := fun _ s => s.booted = false) ?_ fun _ => ?_
  · exact fun _ _ _ _ hs => Spec.wp_store hany hs fun _ _ => rfl
  refine .ofWithin ?_ hoff hoff.patient
  unfold osalDeinit
  repeat' first
    | exact Proc.within_store.mpr fun _ h => h
    | refine Proc.Within.bind ?_ fun _ => ?_

/-- Every call meets the specification, from where the pieces are linked. -/
theorem channels_sound (b : Build) : (channelSpec b).Sound := by
  refine Spec.oneAtATime_sound (fun s e h hok => steady_right [] s e hok h) fun c s hs hok => ?_
  obtain ⟨⟨hc, -⟩, hlinked⟩ := hok
  by_cases hd : c = .deinit
  · subst hd
    exact deinit_kept.meets (s := s) hs (fun _ => steady_right) fun _ _ _ h => ⟨nofun, h⟩
  · have hc : c.isSetUp = true := hc.resolve_right hd
    cases c with
    | setUp i up country =>
      have hpost : ∀ l (r : Ret) t, (Right t ∧ (Refused l → t.channels = s.channels ∧ t.country = s.country)) →
          ∀ u, (channelSpec b).Calm [⟨.setUp i up country, atDepth 1 s, l⟩] t u →
          (channelSpec b).post ⟨.setUp i up country, atDepth 1 s, l⟩ r u ∧ Right (atDepth 0 u) := by
        intro l r t ht u hu
        have hright : Right u := steady_right.calm hu ht.1
        refine ⟨fun _ hl => ?_, hright⟩
        exact (@steady_record b s.channels s.country).calm hu (ht.2 hl)
      have huntouched : Untouched (atDepth 1 s) (atDepth 1 s) := ⟨rfl, rfl, rfl, id, hs⟩
      unfold Spec.Meets
      change Spec.wp _ _ _ (wifiSetUp b i up country) _ _
      unfold wifiSetUp
      split
      · exact hpost _ _ _ ⟨hs, fun h => absurd h not_refused_empty⟩
      · exact Spec.wp_mono (setUpItf_kept (κ := ⟨.setUp i up country, atDepth 1 s, []⟩) hlinked.booted
          huntouched not_refused_empty) hpost
    | _ => exact nomatch hc

/-! ## Every run -/

theorem right_enter (q : Ask) (h : Right s) : Right (enter b c q s) := by
  by_cases hq : ∃ itf, q = .netifAdd itf
  · obtain ⟨itf, rfl⟩ := hq
    exact h
  · obtain ⟨m, hm⟩ := enter_eq (b := b) (c := c) (fun itf h => hq ⟨itf, h⟩) s
    rw [hm]
    exact h

variable {n : Lwip} {tr : List Happening} {x y : Site}

/-- **The record is of the list in use** between the calls and wherever morselib is waited for, as
long as a list that it refuses, or is asked to take while the transceiver runs, was the recorded one;
a bring-up that fails over its list leaves the record alone. -/
theorem channels_kept (b : Build) (n : Lwip) (hn : n.Fresh) (tr : List Happening) (x : Site)
    (hr : Run (fun x e y => (oneAtATime b).Step x e y ∧ SetUps x.st e ∧ ListsKept x.infos x.st e)
      (start b n) tr x) :
    (x.Settled → x.st.booted = true → Recorded x.st) ∧
      ∀ i up country r y, (oneAtATime b).Step x (.ret (.setUp i up country) r) y →
        ∃ d, x.infos.head? = some d ∧ d.call = .setUp i up country ∧ (Refused d.log →
          x.st.channels = d.entry.channels ∧ x.st.country = d.entry.country) := by
  have hr' : Run (channelSpec b).Step (start b n) tr x := fromLinked_run hn hr
  have h0 : Right (State.init b n) := nofun
  refine ⟨fun hx => ?_, fun i up country r y hy => ?_⟩
  · refine Spec.oneAtATime_settled (P := Right) (channels_sound b) steady_right (fun _ h => h)
      (fun d _ q _ h => right_enter (c := d.call) q h) h0 hr' hx
  · obtain ⟨d, is, hd, hc, hpost⟩ := (channels_sound b).post h0 hr' ⟨hy, ⟨trivial, trivial⟩, trivial⟩
    exact ⟨d, congrArg List.head? hd, hc, hpost (hc ▸ rfl)⟩

/-- `SetUps`, to evaluate. -/
def setUpStep (s : State) : Happening → Bool
  | .call c => c.isSetUp
  | .answer (.mmwlan (.setChannelList _)) (st : Status) => !s.lib.booted || st != Status.success
  | _ => true

theorem of_setUpStep {h : Happening} (hs : setUpStep s h = true) : SetUps s h := by
  cases h with
  | call c => exact .inl hs
  | answer q st =>
    unfold SetUps
    split
    case h_2 heq =>
      obtain ⟨rfl, hst⟩ := Event.answer.inj heq
      obtain rfl := eq_of_heq hst
      intro hb
      obtain h | h := Bool.or_eq_true_iff.mp hs
      · rw [hb] at h
        exact absurd h Bool.false_ne_true
      · exact (bne_iff_ne (α := Status)).mp h
    all_goals trivial
  | _ => trivial

/-- Lists are taken where the transceiver does not run. -/
def listStep (s : State) : Happening → Bool
  | .ask (.mmwlan (.setChannelList _)) => !s.booted
  | .answer (.mmwlan (.setChannelList _)) (st : Status) => st == Status.success
  | _ => true

theorem of_listStep {is : List Doing} {h : Happening} (hs : listStep s h = true) : ListsKept is s h := by
  unfold ListsKept
  split
  · intro hb
    have hnot : (!s.booted) = true := hs
    rw [hb] at hnot
    exact absurd hnot Bool.false_ne_true
  · exact fun h => absurd ((beq_iff_eq (α := Status)).mp hs) h
  · trivial

/-- The station is brought up. -/
theorem channels_kept_station : ∃ tr x,
    Run (oneAtATime (.small false)).Step (start (.small false) noNetifs) tr x ∧ x.stack = [] ∧
      x.st.booted = true ∧ Recorded x.st := by
  obtain ⟨tr, x, hr, hx⟩ := World.run_of_play_any (oneAtATime (.small false))
    (fun _ s e => setUpStep s e && listStep s e) (start (.small false) noNetifs) stationUp
    (fun r => r.2.stack.isEmpty && r.2.st.booted) rfl
  have hr' : Run (fun x e y => (oneAtATime (.small false)).Step x e y ∧ SetUps x.st e ∧
      ListsKept x.infos x.st e) (start (.small false) noNetifs) tr x := hr.mono fun _ _ _ h =>
    ⟨h.1, of_setUpStep (Bool.and_eq_true_iff.mp h.2).1, of_listStep (Bool.and_eq_true_iff.mp h.2).2⟩
  obtain ⟨hstack, hb⟩ := Bool.and_eq_true_iff.mp hx
  have hstack := List.isEmpty_iff.mp hstack
  refine ⟨tr, x, hr.mono fun _ _ _ h => h.1, hstack, hb, ?_⟩
  exact (channels_kept (.small false) noNetifs fresh_noNetifs tr x hr').1 (.of_nil hstack) hb

/-- **A second interface overwrites the record**: the station runs with the channels of one country, and
bringing the access point up for another is refused and leaves that one recorded. -/
theorem channels_overwritten : ∃ tr x,
    Run (fun x e y => (oneAtATime (.small true)).Step x e y ∧ SetUps x.st e)
      (start (.small true) noNetifs) tr x ∧ x.stack = [] ∧ x.st.booted = true ∧ ¬ Recorded x.st := by
  obtain ⟨tr, x, hr, hx⟩ := World.run_of_play_any (oneAtATime (.small true)) (fun _ s e => setUpStep s e)
    (start (.small true) noNetifs) (stationUp ++ [.call (.setUp 1 true jp),
      .answer (.mmwlan (.setChannelList [⟨924000000, 1, 8, 8, 73⟩])) Status.unavailable])
    (fun r => r.2.stack.isEmpty && r.2.st.booted &&
      r.2.st.lib.accepted.map Prod.fst != some r.2.st.country) rfl
  simp only [Bool.and_eq_true, List.isEmpty_iff, bne_iff_ne] at hx
  refine ⟨tr, x, hr.mono fun _ _ _ h => ⟨h.1, of_setUpStep h.2⟩, hx.1.1, hx.1.2, ?_⟩
  rintro ⟨list, -, hacc⟩
  exact hx.2 (congrArg (Option.map Prod.fst) hacc)

end MmHalow.Ctrl
